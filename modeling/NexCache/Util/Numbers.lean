import NexCache.Lib.Decimal
import NexCache.Lib.Machine

/-!
# Integers as strings

`string2ll` and `ll2string` of `util.c`.  `string2ll` has a scalar version, which reads one digit at
a time and checks for overflow at each, and one for AVX-512, which loads all digits into the lanes
of a vector, right-aligned, and joins neighbouring lanes three times.  Both accept exactly the
canonical decimal forms of the signed 64-bit integers, and `ll2string` writes these.

Characters are bytes: `48` is `'0'`, `57` is `'9'`, `45` is `'-'`.
-/

namespace NexCache.Util

open Machine Decimal List
open Option hiding all all_eq_true any any_eq_true map map_map

/-! ### Parsing -/

def longStrSize : Nat := 21

def isDigit (b : UInt8) : Bool := decide (48 ≤ b.toNat) && decide (b.toNat ≤ 57)

/-- The value of a digit. -/
def digit (b : UInt8) : Nat := b.toNat - 48

/-- `negative ? -v : v` of an unsigned `v`, stored into a `long long` -/
def signed (negative : Bool) (v : Nat) : Int := if negative then i64 (u64 (2 ^ 64 - v)) else i64 v

/-- The final check of an unsigned value that becomes a `long long`. -/
def finish (negative : Bool) (v : Nat) : Option Int :=
  if negative then if 2 ^ 63 < v then none else some (signed true v)
  else if 2 ^ 63 - 1 < v then none else some (signed false v)

/-- `while (plen < slen && p[0] >= '0' && p[0] <= '9')`: the value, and what is left of
the string -/
def scalarLoop : List UInt8 → Nat → Option (Nat × List UInt8)
  | [], v => some (v, [])
  | b :: bs, v =>
    if isDigit b then
      if (2 ^ 64 - 1) / 10 < v then none
      else if 2 ^ 64 - 1 - digit b < v * 10 then none
      else scalarLoop bs (v * 10 + digit b)
    else some (v, b :: bs)

def string2llScalar (s : List UInt8) : Option Int :=
  match s with
  | [] => none
  | c :: cs =>
    if longStrSize ≤ s.length then none
    else if cs = [] ∧ isDigit c then some (digit c)
    else
      let negative := c == 45
      match if negative then cs else c :: cs with
      | [] => none
      | d :: ds =>
        if 49 ≤ d.toNat ∧ d.toNat ≤ 57 then
          (scalarLoop ds (digit d)).bind fun r => if r.2 ≠ [] then none else finish negative r.1
        else none

/-! ### Vector instructions

A register is the function of its lanes. -/

/-- `_mm256_maskz_loadu_epi8`: lanes that are masked out are not read -/
def maskzLoadu (mask : Nat) (mem : Nat → UInt8) (j : Nat) : Nat :=
  if mask.testBit j then (mem j).toNat else 0

/-- `_mm256_maskz_sub_epi8` -/
def maskzSub (mask : Nat) (a b : Nat → Nat) (j : Nat) : Nat :=
  if mask.testBit j then (a j + 256 - b j) % 256 else 0

/-- `_mm256_mask_cmpgt_epu8_mask`, tested for a bit -/
def maskCmpgt (mask : Nat) (a b : Nat → Nat) : Bool :=
  (range 32).any fun j => mask.testBit j && decide (b j < a j)

def saturate16 (x : Int) : Int := max (-2 ^ 15) (min (2 ^ 15 - 1) x)

/-- `_mm256_maddubs_epi16`, `_mm_maddubs_epi16`: unsigned times signed bytes, neighbours added -/
def maddubs (a : Nat → Nat) (b : Nat → Int) (k : Nat) : Int :=
  saturate16 (a (2 * k) * b (2 * k) + a (2 * k + 1) * b (2 * k + 1))

/-- `_mm256_cvtepi16_epi8` -/
def cvtepi16epi8 (a : Nat → Int) (k : Nat) : Nat := (a k % 256).toNat

/-- `_mm_madd_epi16` -/
def madd (a b : Nat → Int) (k : Nat) : Int :=
  (a (2 * k) * b (2 * k) + a (2 * k + 1) * b (2 * k + 1)).bmod (2 ^ 32)

/-- `_mm256_set_epi8(1, w, 1, w, ..)`, whose last argument is lane `0` -/
def weights (w : Int) (j : Nat) : Int := if j % 2 = 0 then w else 1

/-- `(uint64_t)_mm_extract_epi32(a, k)` -/
def extract (a : Nat → Int) (k : Nat) : Nat := (a k % 2 ^ 64).toNat

/-- The lanes that hold the digits: the last `slen - plen` of 32. -/
def digitMask (slen plen : Nat) : Nat := u32 (0xFFFFFFFF <<< (32 - slen + plen))

/-- The string loaded from `s + slen - 32`, less `'0'`. -/
def asciiDigits (s : List UInt8) (plen : Nat) : Nat → Nat :=
  let mask := digitMask s.length plen
  maskzSub mask (maskzLoadu mask fun j => s.getD (s.length + j - 32) 0) fun _ => 48

/-- Eight digits in each of four lanes. -/
def multipliedBy10000 (digits : Nat → Nat) : Nat → Int :=
  let multipliedBy10 := maddubs digits (weights 10)
  let reducedTo16bit := cvtepi16epi8 multipliedBy10
  let multipliedBy100 := maddubs reducedTo16bit (weights 100)
  madd multipliedBy100 (weights 10000)

/-- What is made of the lanes; the shorter strings cannot overflow. -/
def extractValue (negative : Bool) (mask : Nat) (lanes : Nat → Int) : Option Int :=
  let low := extract lanes 3
  if mask &&& 0xFFFFFF = 0 then some (signed negative low)
  else
    let middle := extract lanes 2
    let middleLow := u64 (low + 100000000 * middle)
    if mask &&& 0xFFFF = 0 then some (signed negative middleLow)
    else
      let high := extract lanes 1
      let result := u64 (middleLow + 10000000000000000 * high)
      if 1844 < high ∨ result < middleLow then none else finish negative result

def string2llAVX512 (s : List UInt8) : Option Int :=
  match s with
  | [] => none
  | c :: cs =>
    if longStrSize ≤ s.length then none
    else if cs = [] ∧ isDigit c then some (digit c)
    else
      let negative := c == 45
      match if negative then cs else c :: cs with
      | [] => none
      | d :: _ =>
        if d = 48 then none
        else
          let plen := if negative then 1 else 0
          let digits := asciiDigits s plen
          if maskCmpgt (digitMask s.length plen) digits fun _ => 9 then none
          else extractValue negative (digitMask s.length plen) (multipliedBy10000 digits)

/-! ### Printing -/

def digits10 (v : Nat) : Nat :=
  if v < 10 then 1
  else if v < 100 then 2
  else if v < 1000 then 3
  else if v < 1000000000000 then
    if v < 100000000 then
      if v < 1000000 then
        if v < 10000 then 4 else 5 + (if v ≥ 100000 then 1 else 0)
      else 7 + (if v ≥ 10000000 then 1 else 0)
    else if v < 10000000000 then 9 + (if v ≥ 1000000000 then 1 else 0)
    else 11 + (if v ≥ 100000000000 then 1 else 0)
  else 12 + digits10 (v / 1000000000000)
termination_by v
decreasing_by exact Nat.div_lt_self (by omega) (by decide)

/-- The table `digits` of `ull2string`. -/
def digitPairs : List UInt8 :=
  ("0001020304050607080910111213141516171819" ++ "2021222324252627282930313233343536373839" ++
    "4041424344454647484950515253545556575859" ++ "6061626364656667686970717273747576777879" ++
    "8081828384858687888990919293949596979899").toList.map fun c => UInt8.ofNat c.toNat

/-- `dst[i] = b` -/
def put (dst : List UInt8) (i : Nat) (b : UInt8) : Option (List UInt8) :=
  if i < dst.length then some (dst.set i b) else none

/-- The digits of `value`, the last at `next`: the loop of `ull2string` and what follows it. -/
def putDigits (value next : Nat) (dst : List UInt8) : Option (List UInt8) :=
  if 100 ≤ value then
    let i := value % 100 * 2
    (put dst next (digitPairs.getD (i + 1) 0)).bind fun dst =>
    (put dst (u32 (next + 2 ^ 32 - 1)) (digitPairs.getD i 0)).bind fun dst =>
    putDigits (value / 100) (u32 (next + 2 ^ 32 - 2)) dst
  else if value < 10 then put dst next (UInt8.ofNat (48 + value))
  else
    let i := value * 2
    (put dst next (digitPairs.getD (i + 1) 0)).bind fun dst =>
    put dst (u32 (next + 2 ^ 32 - 1)) (digitPairs.getD i 0)
termination_by value
decreasing_by exact Nat.div_lt_self (by omega) (by decide)

/-- Writes a terminator to a buffer that is too small. -/
def putNul (dst : List UInt8) : List UInt8 := if 0 < dst.length then dst.set 0 0 else dst

/-- The buffer after the call, and what is returned. -/
def ull2string (dst : List UInt8) (value : Nat) : Option (List UInt8 × Nat) :=
  let length := digits10 value
  if dst.length ≤ length then some (putNul dst, 0)
  else
    let next := length - 1
    (put dst (next + 1) 0).bind fun dst =>
    (putDigits value next dst).map fun dst => (dst, length)

def ll2string (dst : List UInt8) (svalue : Int) : Option (List UInt8 × Nat) :=
  if svalue < 0 then
    let value := if svalue ≠ -2 ^ 63 then svalue.natAbs else 2 ^ 63 - 1 + 1
    if dst.length < 2 then some (putNul dst, 0)
    else
      (ull2string (dst.drop 1) value).map fun r => (45 :: r.1, if r.2 = 0 then 0 else r.2 + 1)
  else ull2string dst svalue.natAbs

/-! ### The canonical form -/

/-- The byte of a digit. -/
def digitByte (d : Nat) : UInt8 := UInt8.ofNat (48 + d)

/-- The canonical decimal form. -/
def decimal (v : Int) : List UInt8 :=
  (if v < 0 then [45] else []) ++ (Decimal.digits v.natAbs).map digitByte

variable {b : UInt8}

theorem isDigit_iff : isDigit b = true ↔ 48 ≤ b.toNat ∧ b.toNat ≤ 57 := by
  rw [isDigit, Bool.and_eq_true, decide_eq_true_eq, decide_eq_true_eq]

theorem digit_lt (h : isDigit b) : digit b < 10 := by
  have := isDigit_iff.mp h
  rw [digit]
  omega

variable {d : Nat}

theorem toNat_digitByte (h : d < 10) : (digitByte d).toNat = 48 + d := by
  rw [digitByte, UInt8.toNat_ofNat_of_lt' (show 48 + d < UInt8.size by rw [UInt8.size]; omega)]

theorem isDigit_digitByte (h : d < 10) : isDigit (digitByte d) := by
  rw [isDigit_iff, toNat_digitByte h]
  omega

theorem digit_digitByte (h : d < 10) : digit (digitByte d) = d := by
  rw [digit, toNat_digitByte h, Nat.add_sub_cancel_left]

theorem digitByte_digit (h : isDigit b) : digitByte (digit b) = b := by
  have hb := isDigit_iff.mp h
  apply UInt8.toNat_inj.mp
  rw [toNat_digitByte (digit_lt h), digit]
  omega

/-- A string of digits that does not begin with `'0'`. -/
def Plain (p : List UInt8) : Prop := p.all isDigit = true ∧ ∀ c, p.head? = some c → c ≠ 48

instance (p : List UInt8) : Decidable (Plain p) :=
  decidable_of_iff (p.all isDigit = true ∧ p.head? ≠ some 48)
    (and_congr_right fun _ => ⟨fun h _ hc hz => h (hz ▸ hc), fun h hc => h 48 hc rfl⟩)

/-- What both versions compute of the characters behind the sign. -/
def accept (negative : Bool) (p : List UInt8) : Option Int :=
  if Plain p then finish negative (Decimal.value (p.map digit)) else none

/-- The cases both versions begin with. -/
def parse (s : List UInt8) : Option Int :=
  match s with
  | [] => none
  | c :: cs =>
    if longStrSize ≤ s.length then none
    else if cs = [] ∧ isDigit c then some (digit c)
    else if c = 45 then if cs = [] then none else accept true cs
    else accept false (c :: cs)

/-! ### The scalar version -/

theorem foldl_ge (ds : List Nat) (v : Nat) : v ≤ ds.foldl (fun v d => v * 10 + d) v := by
  induction ds generalizing v with
  | nil => exact le_rfl
  | cons d ds ih => exact Nat.le_trans (by omega) (ih (v * 10 + d))

variable {v : Nat} {bs : List UInt8}

/-- On digits the loop computes the value, and stops where it does not fit. -/
theorem scalarLoop_digits (h : bs.all isDigit = true) (hv : v < 2 ^ 64) :
    scalarLoop bs v = if (bs.map digit).foldl (fun v d => v * 10 + d) v < 2 ^ 64
      then some ((bs.map digit).foldl (fun v d => v * 10 + d) v, []) else none := by
  induction bs generalizing v with
  | nil => rw [scalarLoop, map_nil, foldl_nil, if_pos hv]
  | cons b bs ih =>
    rw [all_cons, Bool.and_eq_true] at h
    have hd := digit_lt h.1
    have hge := foldl_ge (bs.map digit) (v * 10 + digit b)
    rw [scalarLoop, if_pos h.1, map_cons, foldl_cons]
    by_cases hfit : v * 10 + digit b < 2 ^ 64
    · rw [if_neg (by omega), if_neg (by omega), ih h.2 hfit]
    · rw [if_neg (show ¬ (bs.map digit).foldl (fun v d => v * 10 + d) (v * 10 + digit b) <
        2 ^ 64 by omega)]
      split
      · rfl
      · rw [if_pos (by omega)]

theorem scalarLoop_rest (h : ¬ bs.all isDigit = true) {r : Nat × List UInt8}
    (hr : scalarLoop bs v = some r) : r.2 ≠ [] := by
  induction bs generalizing v with
  | nil => exact absurd rfl h
  | cons b bs ih =>
    rw [scalarLoop] at hr
    by_cases hb : isDigit b = true
    · rw [if_pos hb] at hr
      have hbs : ¬ bs.all isDigit = true := fun hall => h (by rw [all_cons, hb, hall]; rfl)
      split at hr
      · cases hr
      · split at hr
        · cases hr
        · exact ih hbs hr
    · rw [if_neg hb] at hr
      obtain rfl := some.inj hr
      exact cons_ne_nil _ _

variable (negative : Bool) {k : Nat}

theorem finish_of_large (h : 2 ^ 64 ≤ v) : finish negative v = none := by
  rw [finish]
  cases negative with
  | true => rw [if_pos rfl, if_pos (by omega)]
  | false => rw [if_neg Bool.false_ne_true, if_pos (by omega)]

theorem plain_cons {d : UInt8} {ds : List UInt8} :
    Plain (d :: ds) ↔ (49 ≤ d.toNat ∧ d.toNat ≤ 57) ∧ ds.all isDigit = true := by
  rw [Plain, all_cons, Bool.and_eq_true, isDigit_iff, head?_cons]
  constructor
  · rintro ⟨⟨hd, hds⟩, hne⟩
    have hzero : d.toNat ≠ 48 := fun hz => hne d rfl (UInt8.toNat_inj.mp hz)
    exact ⟨⟨by omega, hd.2⟩, hds⟩
  · rintro ⟨hd, hds⟩
    refine ⟨⟨⟨by omega, hd.2⟩, hds⟩, fun c hc hz => ?_⟩
    obtain rfl := some.inj hc
    rw [hz] at hd
    exact absurd hd.1 (by decide)

theorem scalar_accept (d : UInt8) (ds : List UInt8) :
    (if 49 ≤ d.toNat ∧ d.toNat ≤ 57 then
      (scalarLoop ds (digit d)).bind fun r => if r.2 ≠ [] then none else finish negative r.1
    else none) = accept negative (d :: ds) := by
  by_cases hd : 49 ≤ d.toNat ∧ d.toNat ≤ 57
  · rw [if_pos hd]
    have hlt : digit d < 2 ^ 64 := by
      rw [digit]
      omega
    by_cases hds : ds.all isDigit = true
    · have hvalue : value ((d :: ds).map digit) =
          (ds.map digit).foldl (fun v d => v * 10 + d) (digit d) := by
        rw [value, map_cons, foldl_cons, Nat.zero_mul, Nat.zero_add]
      rw [accept, if_pos (plain_cons.mpr ⟨hd, hds⟩), hvalue, scalarLoop_digits hds hlt]
      split
      · rfl
      · rw [finish_of_large negative (by omega)]
        rfl
    · rw [accept, if_neg fun hp => hds (plain_cons.mp hp).2]
      cases hloop : scalarLoop ds (digit d) with
      | none => rfl
      | some r => exact if_pos (scalarLoop_rest hds hloop)
  · rw [if_neg hd, accept, if_neg fun hp => hd (plain_cons.mp hp).1]

theorem string2llScalar_eq_parse (s : List UInt8) : string2llScalar s = parse s := by
  cases s with
  | nil => rfl
  | cons c cs =>
    rw [string2llScalar, parse]
    refine ite_congr rfl (fun _ => rfl) fun _ => ite_congr rfl (fun _ => rfl) fun _ => ?_
    by_cases hc : c = 45
    · rw [if_pos hc, beq_iff_eq.mpr hc]
      cases cs with
      | nil => rfl
      | cons d ds => exact scalar_accept true d ds
    · rw [if_neg hc, beq_eq_false_iff_ne.mpr hc]
      exact scalar_accept false c cs

/-! ### The vector version -/

theorem testBit_digitMask :
    ∀ n ≤ 20, ∀ j < 32, (u32 (0xFFFFFFFF <<< (32 - n))).testBit j = decide (32 - n ≤ j) := by
  decide +kernel

theorem digitMask_and : ∀ n ≤ 20, (u32 (0xFFFFFFFF <<< (32 - n)) &&& 0xFFFFFF = 0 ↔ n ≤ 8)
    ∧ (u32 (0xFFFFFFFF <<< (32 - n)) &&& 0xFFFF = 0 ↔ n ≤ 16) := by
  decide +kernel

section Lanes

variable {pre p : List UInt8}

theorem digitMask_eq (hn : (pre ++ p).length ≤ 20) :
    digitMask (pre ++ p).length pre.length = u32 (0xFFFFFFFF <<< (32 - p.length)) := by
  rw [length_append] at hn
  rw [digitMask, length_append]
  congr 2
  omega

/-- The lanes hold the characters behind the sign, right-aligned. -/
theorem asciiDigits_eq (hn : (pre ++ p).length ≤ 20) {j : Nat} (hj : j < 32) :
    asciiDigits (pre ++ p) pre.length j
      = if 32 - p.length ≤ j then ((p.getD (j - (32 - p.length)) 0).toNat + 208) % 256 else 0 := by
  have hlen : (pre ++ p).length = pre.length + p.length := length_append
  have hbit := testBit_digitMask p.length (by omega) j hj
  simp only [asciiDigits, maskzSub, maskzLoadu]
  rw [digitMask_eq hn, hbit]
  by_cases hin : 32 - p.length ≤ j
  · have hget : (pre ++ p).getD ((pre ++ p).length + j - 32) 0 =
        p.getD (j - (32 - p.length)) 0 := by
      rw [getD_append_right _ _ _ _ (by omega)]
      congr 1
      omega
    simp only [decide_eq_true hin, if_true, if_pos hin, hget]
    omega
  · simp only [decide_eq_false hin, Bool.false_eq_true, if_false, if_neg hin]

theorem sub_le_nine (b : UInt8) : ((b.toNat + 208) % 256 ≤ 9 ↔ isDigit b = true)
    ∧ (isDigit b = true → (b.toNat + 208) % 256 = digit b) := by
  have hlt := b.toNat_lt
  rw [isDigit_iff, digit]
  omega

theorem maskCmpgt_eq (hn : (pre ++ p).length ≤ 20) :
    maskCmpgt (digitMask (pre ++ p).length pre.length) (asciiDigits (pre ++ p) pre.length)
      (fun _ => 9) = !p.all isDigit := by
  have hlen : (pre ++ p).length = pre.length + p.length := length_append
  rw [Bool.eq_iff_iff, maskCmpgt, any_eq_true, Bool.not_eq_true', ← Bool.not_eq_true, all_eq_true]
  constructor
  · rintro ⟨j, hj, hgt⟩ hall
    rw [mem_range] at hj
    rw [digitMask_eq hn, testBit_digitMask p.length (by omega) j hj, Bool.and_eq_true,
      decide_eq_true_eq, decide_eq_true_eq, asciiDigits_eq hn hj] at hgt
    obtain ⟨hin, hgt⟩ := hgt
    rw [if_pos hin] at hgt
    have hlt : j - (32 - p.length) < p.length := by omega
    have hmem : isDigit (p.getD (j - (32 - p.length)) 0) = true := by
      rw [getD_eq_getElem p 0 hlt]
      exact hall _ (getElem_mem hlt)
    have := (sub_le_nine _).1.mpr hmem
    omega
  · intro hex
    rw [not_forall] at hex
    obtain ⟨b, hb⟩ := hex
    rw [Classical.not_imp] at hb
    obtain ⟨hmem, hnot⟩ := hb
    obtain ⟨i, hi, rfl⟩ := getElem_of_mem hmem
    refine ⟨32 - p.length + i, mem_range.mpr (by omega), ?_⟩
    rw [digitMask_eq hn, testBit_digitMask p.length (by omega) _ (by omega), Bool.and_eq_true,
      decide_eq_true_eq,
      decide_eq_true_eq, asciiDigits_eq hn (by omega), if_pos (by omega), Nat.add_sub_cancel_left,
      getD_eq_getElem p 0 hi]
    have := mt (sub_le_nine p[i]).1.mp hnot
    exact ⟨by omega, by omega⟩

end Lanes

section Joins

variable {d : Nat → Nat}

theorem cast_pair (w k : Nat) : (d (2 * k) * w + d (2 * k + 1) * 1 : Int) = (pair w d k : Nat) := by
  rw [pair]
  push_cast
  ring

theorem maddubs_eq {w bound : Nat} (hd : ∀ j < 2 * k + 2, d j ≤ bound)
    (hbound : w * bound + bound < 2 ^ 15) : maddubs d (weights w) k = (pair w d k : Nat) := by
  have heven : weights w (2 * k) = w := if_pos (by omega)
  have hodd : weights w (2 * k + 1) = 1 := if_neg (by omega)
  have h₀ := Nat.mul_le_mul_left w (hd (2 * k) (by omega))
  have h₁ := hd (2 * k + 1) (by omega)
  rw [maddubs, heven, hodd, cast_pair, saturate16]
  have hlt : pair w d k < 2 ^ 15 := by
    rw [pair]
    omega
  omega

theorem pair_le {w bound k : Nat} (hd : ∀ j < 2 * k + 2, d j ≤ bound) :
    pair w d k ≤ w * bound + bound := by
  have h₀ := Nat.mul_le_mul_left w (hd (2 * k) (by omega))
  have h₁ := hd (2 * k + 1) (by omega)
  rw [pair]
  omega

/-- Three joins make lanes of eight digits each. -/
theorem multipliedBy10000_eq (hd : ∀ j < 32, d j ≤ 9) (hk : k < 4) :
    multipliedBy10000 d k = (pair 10000 (pair 100 (pair 10 d)) k : Nat)
      ∧ pair 10000 (pair 100 (pair 10 d)) k < 10 ^ 8 := by
  have h₁ : ∀ j < 16, pair 10 d j ≤ 99 := fun j hj => pair_le fun i hi => hd i (by omega)
  have h₂ : ∀ j < 8, pair 100 (pair 10 d) j ≤ 9999 :=
    fun j hj => pair_le fun i hi => h₁ i (by omega)
  have hreduced : ∀ j < 16, cvtepi16epi8 (maddubs d (weights 10)) j = pair 10 d j := by
    intro j hj
    have hle := h₁ j hj
    rw [cvtepi16epi8, show weights 10 = weights (10 : Nat) from rfl,
      maddubs_eq (fun i hi => hd i (by omega)) (by decide)]
    omega
  have hquad : ∀ j < 8, maddubs (cvtepi16epi8 (maddubs d (weights 10))) (weights 100) j
      = (pair 100 (pair 10 d) j : Nat) := by
    intro j hj
    rw [show weights 100 = weights (100 : Nat) from rfl,
      maddubs_eq (fun i hi => (hreduced i (by omega)).trans_le (h₁ i (by omega))) (by decide), pair,
      hreduced (2 * j) (by omega), hreduced (2 * j + 1) (by omega), ← pair]
  have hle : pair 10000 (pair 100 (pair 10 d)) k ≤ 10000 * 9999 + 9999 :=
    pair_le fun i hi => h₂ i (by omega)
  refine ⟨?_, by omega⟩
  have heven : weights 10000 (2 * k) = 10000 := if_pos (by omega)
  have hodd : weights 10000 (2 * k + 1) = 1 := if_neg (by omega)
  rw [multipliedBy10000]
  simp only [madd]
  rw [hquad (2 * k) (by omega), hquad (2 * k + 1) (by omega), heven, hodd]
  rw [show (10000 : Int) = (10000 : Nat) from rfl, cast_pair]
  exact Int.bmod_eq_of_le (by omega) (by omega)

end Joins

/-- The lanes of eight digits are the value in base `10 ^ 8`. -/
theorem value_lanes {d : Nat → Nat} {ds : List Nat}
    (hlane : ∀ j < 32, d j = if 32 - ds.length ≤ j then ds.getD (j - (32 - ds.length)) 0 else 0)
    (hn : ds.length ≤ 32) :
    value ds = val (10 ^ 8) (pair 10000 (pair 100 (pair 10 d))) 4 := by
  have hjoin : val 10 d 32
      = val (10 ^ 8) (pair 10000 (pair 100 (pair 10 d))) 4 := by
    rw [show 32 = 2 * 16 from rfl, val_pair, show 16 = 2 * 8 from rfl, val_pair,
      show 8 = 2 * 4 from rfl, val_pair]
    rfl
  have hall : val 10 d 32 = val 10 (fun j => ds.getD j 0) ds.length := by
    have hzeros : ∀ j < 32 - ds.length, d j = 0 :=
      fun j hj => by rw [hlane j (by omega), if_neg (by omega)]
    have hsplit := val_of_zeros (B := 10) hzeros ds.length
    rw [Nat.sub_add_cancel hn] at hsplit
    rw [hsplit]
    refine val_congr fun j hj => ?_
    rw [hlane _ (by omega), if_pos (by omega), Nat.add_sub_cancel_left]
  rw [← hjoin, hall, val_eq_value]

theorem finish_of_small {v : Nat} (h : v < 2 ^ 63) :
    finish negative v = some (signed negative v) := by
  cases negative with
  | true => rw [finish, if_pos rfl, if_neg (by omega)]
  | false => rw [finish, if_neg Bool.false_ne_true, if_neg (by omega)]

/-- The three lengths: up to eight digits, up to sixteen, and more, where the sum may overflow. -/
theorem extractValue_eq {n v : Nat} {lanes : Nat → Int} {e : Nat → Nat} (hn : n ≤ 20)
    (hextract : ∀ k < 4, extract lanes k = e k) (hbound : ∀ k < 4, e k < 10 ^ 8)
    (hvalue : v = val (10 ^ 8) e 4) (hempty : ∀ m, 8 * m ≤ 32 - n → ∀ k < m, e k = 0) :
    extractValue negative (u32 (0xFFFFFFFF <<< (32 - n))) lanes = finish negative v := by
  obtain ⟨hmask8, hmask16⟩ := digitMask_and n hn
  have h₀ : e 0 = 0 := hempty 1 (by omega) 0 (by decide)
  have h₂ := hbound 2 (by decide)
  have h₃ := hbound 3 (by decide)
  have hv : v = 10 ^ 16 * e 1 + 10 ^ 8 * e 2 + e 3 := by
    rw [hvalue]
    simp only [val, h₀]
    ring
  have hlow : u64 (e 3 + 100000000 * e 2) = e 3 + 100000000 * e 2 := u64_of_lt (by omega)
  simp only [extractValue, hextract 3 (by decide), hextract 2 (by decide), hextract 1 (by decide),
    hmask8, hmask16, hlow]
  by_cases hn8 : n ≤ 8
  · have hz₁ := hempty 3 (by omega) 1 (by decide)
    have hz₂ := hempty 3 (by omega) 2 (by decide)
    rw [if_pos hn8, finish_of_small negative (by omega)]
    congr 2
    omega
  · rw [if_neg hn8]
    by_cases hn16 : n ≤ 16
    · have hz₁ := hempty 2 (by omega) 1 (by decide)
      rw [if_pos hn16, finish_of_small negative (by omega)]
      congr 2
      omega
    · rw [if_neg hn16]
      by_cases hover : v < 2 ^ 64
      · have hsum : u64 (e 3 + 100000000 * e 2 + 10000000000000000 * e 1) = v := by
          rw [u64_of_lt (by omega)]
          omega
        rw [hsum, if_neg (by omega)]
      · rw [finish_of_large (v := v) negative (by omega), if_pos]
        rw [u64]
        omega

/-- The vector version agrees with the scalar one behind the sign. -/
theorem vector_accept {pre p : List UInt8} {c : UInt8} (hc : p.head? = some c)
    (hn : (pre ++ p).length ≤ 20) :
    (if c = 48 then none
    else if maskCmpgt (digitMask (pre ++ p).length pre.length) (asciiDigits (pre ++ p) pre.length)
        fun _ => 9 then none
    else extractValue negative (digitMask (pre ++ p).length pre.length)
      (multipliedBy10000 (asciiDigits (pre ++ p) pre.length))) = accept negative p := by
  have hlen : (pre ++ p).length = pre.length + p.length := length_append
  rw [maskCmpgt_eq hn]
  by_cases hall : p.all isDigit = true
  · by_cases hzero : c = 48
    · rw [if_pos hzero, accept, if_neg fun hp => hp.2 c hc hzero]
    · rw [if_neg hzero, hall, if_neg (by decide), accept,
        if_pos ⟨hall, fun c' hc' => some.inj (hc.symm.trans hc') ▸ hzero⟩]
      generalize hd : asciiDigits (pre ++ p) pre.length = d
      have hlane : ∀ j < 32, d j =
          if 32 - p.length ≤ j then (p.map digit).getD (j - (32 - p.length)) 0 else 0 := by
        intro j hj
        rw [← hd, asciiDigits_eq hn hj]
        split
        · have hlt : j - (32 - p.length) < p.length := by omega
          have hdigit := all_eq_true.mp hall _ (getElem_mem hlt)
          rw [getD_eq_getElem p 0 hlt, (sub_le_nine _).2 hdigit,
            getD_eq_getElem (p.map digit) 0 (by rw [length_map]; exact hlt), getElem_map]
        · rfl
      have hle : ∀ j < 32, d j ≤ 9 := by
        intro j hj
        rw [hlane j hj]
        split
        · have hlt : j - (32 - p.length) < p.length := by omega
          rw [getD_eq_getElem (p.map digit) 0 (by rw [length_map]; exact hlt), getElem_map]
          exact Nat.le_of_lt_succ (digit_lt (all_eq_true.mp hall _ (getElem_mem hlt)))
        · exact Nat.zero_le 9
      have hzeros : ∀ j < 32 - p.length, d j = 0 :=
        fun j hj => by rw [hlane j (by omega), if_neg (by omega)]
      have hextract : ∀ k < 4, extract (multipliedBy10000 d) k
          = pair 10000 (pair 100 (pair 10 d)) k := by
        intro k hk
        obtain ⟨heq, hlt⟩ := multipliedBy10000_eq hle hk
        rw [extract, heq]
        omega
      have hbound := fun k (hk : k < 4) => (multipliedBy10000_eq hle hk).2
      have hvalue := value_lanes (by rw [length_map]; exact hlane) (by rw [length_map]; omega)
      have hempty : ∀ m, 8 * m ≤ 32 - p.length →
          ∀ k < m, pair 10000 (pair 100 (pair 10 d)) k = 0 := by
        intro m hm
        refine pair_of_zeros (pair_of_zeros (pair_of_zeros fun j hj => hzeros j ?_))
        omega
      rw [digitMask_eq hn]
      exact extractValue_eq negative (by omega) hextract hbound hvalue hempty
  · rw [Bool.not_eq_true] at hall
    have hnot : ¬ Plain p := fun hp => by rw [hp.1] at hall; cases hall
    rw [hall, accept, if_neg hnot]
    simp

theorem string2llAVX512_eq_parse (s : List UInt8) : string2llAVX512 s = parse s := by
  cases s with
  | nil => rfl
  | cons c cs =>
    rw [string2llAVX512, parse]
    refine ite_congr rfl (fun _ => rfl) fun hlen => ite_congr rfl (fun _ => rfl) fun _ => ?_
    rw [longStrSize, Nat.not_le] at hlen
    by_cases hc : c = 45
    · rw [if_pos hc, beq_iff_eq.mpr hc]
      cases cs with
      | nil => rfl
      | cons d ds =>
        rw [if_neg (cons_ne_nil d ds)]
        exact @vector_accept true [c] (d :: ds) d rfl (Nat.le_of_lt_succ hlen)
    · rw [if_neg hc, beq_eq_false_iff_ne.mpr hc]
      exact @vector_accept false [] (c :: cs) c rfl (Nat.le_of_lt_succ hlen)

/-! ### What is accepted -/

theorem signed_true {v : Nat} (h : v ≤ 2 ^ 63) : signed true v = -v := by
  rw [signed, if_pos rfl, i64, u64]
  split <;> omega

theorem signed_false {v : Nat} (h : v < 2 ^ 63) : signed false v = v := by
  rw [signed, if_neg Bool.false_ne_true, i64, if_pos h]

theorem finish_eq_some {negative : Bool} {v : Nat} {i : Int} :
    finish negative v = some i ↔ (-2 ^ 63 ≤ i ∧ i < 2 ^ 63) ∧
    i = if negative then -(v : Int) else v := by
  cases negative with
  | true =>
    rw [finish, if_pos rfl, if_pos rfl]
    split
    · refine ⟨fun h => (some_ne_none i h.symm).elim, fun h => absurd h.1 ?_⟩
      rw [h.2]
      omega
    · rw [signed_true (by omega), some.injEq]
      omega
  | false =>
    rw [finish, if_neg Bool.false_ne_true, if_neg Bool.false_ne_true]
    split
    · refine ⟨fun h => (some_ne_none i h.symm).elim, fun h => absurd h.1 ?_⟩
      rw [h.2]
      omega
    · rw [signed_false (by omega), some.injEq]
      omega

/-- Behind a sign, or without one, stands the canonical numeral of a positive number. -/
theorem plain_iff {p : List UInt8} :
    (p ≠ [] ∧ Plain p) ↔ ∃ n, 0 < n ∧ p = (digits n).map digitByte := by
  constructor
  · rintro ⟨hne, hall, hhead⟩
    rw [all_eq_true] at hall
    have hcanonical : Canonical (p.map digit) := by
      refine ⟨fun h => hne (map_eq_nil_iff.mp h), fun d hd => ?_, fun h => ?_⟩
      · obtain ⟨b, hb, rfl⟩ := mem_map.mp hd
        exact digit_lt (hall b hb)
      · cases p with
        | nil => exact absurd rfl hne
        | cons c cs =>
          have hc := isDigit_iff.mp (hall c (mem_cons_self ..))
          rw [map_cons, head?_cons, some.injEq, digit] at h
          exact absurd (UInt8.toNat_inj.mp (show c.toNat = 48 by omega)) (hhead c rfl)
    have hback : (p.map digit).map digitByte = p := by
      rw [map_map]
      exact (map_congr_left fun b hb => digitByte_digit (hall b hb)).trans (map_id p)
    refine ⟨value (p.map digit), Nat.pos_of_ne_zero fun hzero => ?_, ?_⟩
    · have hdigits := digits_value hcanonical
      rw [hzero] at hdigits
      rw [← hdigits] at hback
      rw [← hback] at hhead
      exact hhead 48 rfl rfl
    · rw [digits_value hcanonical, hback]
  · rintro ⟨n, hn, rfl⟩
    obtain ⟨hne, hlt, hleading⟩ := digits_canonical n
    refine ⟨fun h => hne (map_eq_nil_iff.mp h), ?_, fun c hc hz => ?_⟩
    · rw [all_eq_true]
      intro b hb
      obtain ⟨d, hd, rfl⟩ := mem_map.mp hb
      exact isDigit_digitByte (hlt d hd)
    · rw [head?_map, map_eq_some_iff] at hc
      obtain ⟨d, hd, rfl⟩ := hc
      have hd10 := hlt d (mem_of_mem_head? hd)
      have hzero : d = 0 := by
        have := congrArg UInt8.toNat hz
        rw [toNat_digitByte hd10] at this
        change 48 + d = 48 at this
        omega
      rw [hzero] at hd
      have hvalue := value_digits n
      rw [hleading hd] at hvalue
      change 0 = n at hvalue
      omega

theorem map_digit_digits (n : Nat) : ((digits n).map digitByte).map digit = digits n := by
  rw [map_map]
  exact (map_congr_left fun d hd => digit_digitByte ((digits_canonical n).lt_ten d hd)).trans
    (map_id _)

theorem accept_digits {n : Nat} (hn : 0 < n) :
    accept negative ((digits n).map digitByte) = finish negative n := by
  rw [accept, if_pos (plain_iff.mpr ⟨n, hn, rfl⟩).2, map_digit_digits, value_digits]

variable {v : Int} {s : List UInt8}

theorem decimal_neg {n : Nat} (h : 0 < n) : decimal (-n) = 45 :: (digits n).map digitByte := by
  rw [decimal, if_pos (by omega), Int.natAbs_neg, Int.natAbs_natCast, singleton_append]

theorem decimal_natCast (n : Nat) : decimal n = (digits n).map digitByte := by
  rw [decimal, if_neg (by omega), Int.natAbs_natCast, nil_append]

theorem length_decimal_le (h : -2 ^ 63 ≤ v ∧ v < 2 ^ 63) : (decimal v).length ≤ 20 := by
  have hdigits := length_digits_le (n := v.natAbs) (k := 19) (by decide) (by omega)
  rw [decimal, length_append, length_map]
  split
  · rw [length_singleton]
    omega
  · rw [length_nil]
    omega

theorem accept_eq_some {negative : Bool} {p : List UInt8} (hp : p ≠ [])
    (h : accept negative p = some v) :
    (-2 ^ 63 ≤ v ∧ v < 2 ^ 63) ∧ (if negative then 45 :: p else p) = decimal v := by
  have hplain : Plain p := by
    by_contra hnot
    rw [accept, if_neg hnot] at h
    cases h
  obtain ⟨n, hn, rfl⟩ := plain_iff.mp ⟨hp, hplain⟩
  rw [accept_digits negative hn] at h
  obtain ⟨hrange, rfl⟩ := finish_eq_some.mp h
  refine ⟨hrange, ?_⟩
  cases negative with
  | true => exact (decimal_neg hn).symm
  | false => exact (decimal_natCast n).symm

theorem parse_sound (h : parse s = some v) :
    (-2 ^ 63 ≤ v ∧ v < 2 ^ 63) ∧ s = decimal v := by
  cases s with
  | nil => cases h
  | cons c cs =>
    rw [parse] at h
    split at h
    · cases h
    · split at h
      · rename_i hone
        obtain ⟨rfl, hdigit⟩ := hone
        obtain rfl := some.inj h
        have hlt := digit_lt hdigit
        refine ⟨by omega, ?_⟩
        rw [decimal_natCast, digits_of_lt hlt, map_singleton, digitByte_digit hdigit]
      · split at h
        · rename_i hc
          split at h
          · cases h
          · rename_i hcs
            rw [hc]
            exact accept_eq_some hcs h
        · exact accept_eq_some (cons_ne_nil c cs) h

theorem parse_decimal (h : -2 ^ 63 ≤ v ∧ v < 2 ^ 63) : parse (decimal v) = some v := by
  have hlen := length_decimal_le h
  obtain rfl | hv := eq_or_ne v 0
  · decide +kernel
  obtain ⟨n, hn | hn⟩ := Int.eq_nat_or_neg v
  · have hpos : 0 < n := by omega
    have haccept := accept_digits false hpos
    rw [finish_of_small false (by omega), signed_false (by omega), ← decimal_natCast,
      ← hn] at haccept
    have hdigits : (decimal v).map digit = digits n := by rw [hn, decimal_natCast, map_digit_digits]
    have hplain := (plain_iff.mpr ⟨n, hpos, rfl⟩).2
    rw [← decimal_natCast, ← hn] at hplain
    cases hs : decimal v with
    | nil =>
      rw [hs] at hdigits
      exact absurd hdigits.symm (digits_canonical n).ne_nil
    | cons c cs =>
      rw [hs] at haccept hdigits hlen hplain
      rw [parse, if_neg (by rw [longStrSize]; omega)]
      split
      · rename_i hone
        rw [hone.1, map_singleton] at hdigits
        have hvalue := value_digits n
        rw [← hdigits, value, foldl_cons, foldl_nil, Nat.zero_mul, Nat.zero_add] at hvalue
        rw [hvalue, hn]
      · have hc : c ≠ 45 := by
          rintro rfl
          exact absurd (plain_cons.mp hplain).1.1 (by decide)
        rw [if_neg hc, haccept]
  · have hpos : 0 < n := by omega
    have hne : (digits n).map digitByte ≠ [] := fun hnil =>
      (digits_canonical n).ne_nil (map_eq_nil_iff.mp hnil)
    rw [hn, decimal_neg hpos] at hlen ⊢
    rw [parse, if_neg (by rw [longStrSize]; omega), if_neg fun hone => hne hone.1, if_pos rfl,
      if_neg hne, accept_digits true hpos, finish_eq_some]
    exact ⟨by omega, rfl⟩

theorem string2llScalar_eq_some :
    string2llScalar s = some v ↔ (-2 ^ 63 ≤ v ∧ v < 2 ^ 63) ∧ s = decimal v := by
  rw [string2llScalar_eq_parse]
  constructor
  · exact parse_sound
  · rintro ⟨hrange, rfl⟩
    exact parse_decimal hrange

/-! ### What is printed -/

theorem digits10_eq (v : Nat) : digits10 v = (digits v).length := by
  induction v using Nat.strongRecOn with
  | ind v ih =>
    rw [digits10]
    by_cases hlarge : v < 1000000000000
    · by_cases h10 : v < 10
      · rw [if_pos h10, digits_of_lt h10, length_singleton]
      · rw [if_neg h10, if_pos hlarge]
        -- each leaf names the number of digits
        split_ifs <;> exact (length_digits (by omega) (by omega)).symm
    · rw [if_neg (by omega), if_neg (by omega), if_neg (by omega), if_neg hlarge,
        ih _ (Nat.div_lt_self (by omega) (by decide))]
      exact (length_digits_div (by omega)).symm

theorem digitPairs_getD : ∀ i < 100, digitPairs.getD (i * 2) 0 = digitByte (i / 10)
    ∧ digitPairs.getD (i * 2 + 1) 0 = digitByte (i % 10) := by
  decide +kernel

variable {dst : List UInt8}

theorem put_eq {i : Nat} (h : i < dst.length) (b : UInt8) : put dst i b = some (dst.set i b) :=
  if_pos h

theorem drop_set_self (h : k < dst.length) (b : UInt8) :
    (dst.set k b).drop k = b :: dst.drop (k + 1) := by
  rw [drop_eq_getElem_cons (by rw [length_set]; exact h), getElem_set_self,
    drop_set_of_lt (by omega)]

theorem drop_set_set (h : k + 1 < dst.length) (a b : UInt8) :
    ((dst.set (k + 1) b).set k a).drop k = a :: b :: dst.drop (k + 2) := by
  rw [drop_set_self (by rw [length_set]; omega), drop_set_self h]

/-- Two digits are written at a time, from the last one on. -/
theorem putDigits_eq {value next : Nat} (hlen : (digits value).length = next + 1)
    (hnext : next < 2 ^ 32) (hdst : next < dst.length) :
    putDigits value next dst = some ((digits value).map digitByte ++ dst.drop (next + 1)) := by
  induction value using Nat.strongRecOn generalizing next dst with
  | ind value ih =>
    have hback : ∀ k, 0 < k → k ≤ next → u32 (next + 2 ^ 32 - k) = next - k := by
      intro k hpos hk
      rw [u32]
      omega
    rw [putDigits]
    by_cases h100 : 100 ≤ value
    · have hdigits := digits_of_hundred_le h100
      have hne := length_pos_iff.mpr (digits_canonical (value / 100)).ne_nil
      have hshort := hlen
      rw [hdigits, length_append] at hshort
      change _ + 2 = _ at hshort
      obtain ⟨k, rfl⟩ : ∃ k, next = k + 2 := ⟨next - 2, by omega⟩
      obtain ⟨hlow, hhigh⟩ := digitPairs_getD (value % 100) (Nat.mod_lt _ (by decide))
      rw [if_pos h100]
      dsimp only
      rw [put_eq hdst, bind_some, hback 1 (by decide) (by omega),
        put_eq (by rw [length_set]; omega), bind_some, hback 2 (by decide) (by omega),
        ih (value / 100) (Nat.div_lt_self (by omega) (by decide)) (by omega) (by omega)
          (by rw [length_set, length_set]; omega), hlow, hhigh]
      change some (_ ++ ((dst.set (k + 1 + 1) _).set (k + 1) _).drop (k + 1)) = _
      rw [drop_set_set hdst, hdigits, map_append, append_assoc]
      rfl
    · rw [if_neg h100]
      by_cases h10 : value < 10
      · rw [digits_of_lt h10, length_singleton] at hlen
        obtain rfl : next = 0 := by omega
        rw [if_pos h10, put_eq hdst, digits_of_lt h10]
        cases dst with
        | nil => exact absurd hdst (Nat.not_lt_zero 0)
        | cons x rest => rfl
      · have hdigits := digits_of_le (n := value) (by omega)
        rw [digits_of_lt (n := value / 10) (by omega)] at hdigits
        rw [hdigits] at hlen
        obtain rfl : next = 1 := by
          change 2 = _ at hlen
          omega
        obtain ⟨hlow, hhigh⟩ := digitPairs_getD value (by omega)
        rw [if_neg h10]
        dsimp only
        rw [put_eq hdst, bind_some, hback 1 (by decide) le_rfl,
          put_eq (by rw [length_set]; omega), hlow, hhigh, hdigits]
        exact congrArg some (drop_set_set hdst _ _)

theorem ull2string_eq {value : Nat} (hvalue : value < 2 ^ 64)
    (hdst : (digits value).length < dst.length) :
    ull2string dst value = some ((digits value).map digitByte
      ++ 0 :: dst.drop ((digits value).length + 1), (digits value).length) := by
  have hle := length_digits_le (n := value) (k := 20) (by decide) (by omega)
  have hpos := length_pos_iff.mpr (digits_canonical value).ne_nil
  obtain ⟨k, hk⟩ : ∃ k, (digits value).length = k + 1 := ⟨(digits value).length - 1, by omega⟩
  rw [ull2string]
  simp only [digits10_eq]
  rw [if_neg (by omega), hk, Nat.add_sub_cancel, put_eq (by omega), bind_some,
    putDigits_eq hk (by omega) (by rw [length_set]; omega), map_some, drop_set_self (by omega)]

theorem ll2string_eq (h : -2 ^ 63 ≤ v ∧ v < 2 ^ 63) (hdst : (decimal v).length < dst.length) :
    ll2string dst v = some (decimal v ++ 0 :: dst.drop ((decimal v).length + 1),
    (decimal v).length) := by
  by_cases hneg : v < 0
  · obtain ⟨n, hn⟩ : ∃ n : Nat, v = -n := ⟨v.natAbs, by omega⟩
    have hpos := length_pos_iff.mpr (digits_canonical n).ne_nil
    have habs : (if v ≠ -2 ^ 63 then v.natAbs else 2 ^ 63 - 1 + 1) = n := by
      split <;> omega
    rw [hn, decimal_neg (by omega), length_cons, length_map] at hdst
    rw [ll2string, if_pos hneg]
    simp only [habs]
    rw [if_neg (by omega), ull2string_eq (by omega) (by rw [length_drop]; omega), map_some,
      if_neg (by omega), hn, decimal_neg (by omega), length_cons, length_map, drop_drop,
      cons_append, Nat.add_comm 1]
  · obtain ⟨n, rfl⟩ : ∃ n : Nat, v = n := ⟨v.natAbs, by omega⟩
    rw [decimal_natCast] at hdst ⊢
    rw [length_map] at hdst ⊢
    rw [ll2string, if_neg hneg, Int.natAbs_natCast, ull2string_eq (by omega) hdst]

/-- Parsing accepts the canonical forms only, on either kind of processor, and printing
writes them. -/
theorem numbers_exact :
    (∀ s v, string2llScalar s = some v ↔ (-2 ^ 63 ≤ v ∧ v < 2 ^ 63) ∧ s = decimal v)
    ∧ (∀ s, string2llAVX512 s = string2llScalar s)
    ∧ (∀ v dst, -2 ^ 63 ≤ v → v < 2 ^ 63 → (decimal v).length < dst.length →
      ∃ out, ll2string dst v = some (out, (decimal v).length)
        ∧ out = decimal v ++ 0 :: dst.drop ((decimal v).length + 1)
        ∧ string2llScalar (out.take (decimal v).length) = some v)
    ∧ ∀ s v dst, string2llScalar s = some v → s.length < dst.length →
      ∃ out, ll2string dst v = some (out, s.length) ∧ out.take s.length = s := by
  refine ⟨fun s v => string2llScalar_eq_some, fun s => ?_, ?_, ?_⟩
  · rw [string2llAVX512_eq_parse, string2llScalar_eq_parse]
  · intro v dst hlow hhigh hroom
    refine ⟨_, ll2string_eq ⟨hlow, hhigh⟩ hroom, rfl, ?_⟩
    rw [take_left]
    exact string2llScalar_eq_some.mpr ⟨⟨hlow, hhigh⟩, rfl⟩
  · intro s v dst hs hroom
    obtain ⟨hrange, rfl⟩ := string2llScalar_eq_some.mp hs
    exact ⟨_, ll2string_eq hrange hroom, take_left⟩

/-- The smallest integer into a buffer of twenty-two bytes, and `"-42"` into one of five. -/
theorem numbers_exact_smallest :
    (∃ out, ll2string (replicate 22 255) (-2 ^ 63) = some (out, 20)
      ∧ string2llAVX512 (out.take 20) = some (-2 ^ 63))
    ∧ ∃ out, ll2string (replicate 5 255) (-42) = some (out, 3) ∧
    out.take 3 = [45, 52, 50] := by
  obtain ⟨-, hvector, hprint, hback⟩ := numbers_exact
  have hlen : (decimal (-2 ^ 63)).length = 20 := by decide +kernel
  constructor
  · obtain ⟨out, hout, -, hparse⟩ :=
      hprint (-2 ^ 63) (replicate 22 255) (by decide) (by decide)
      (by rw [hlen, length_replicate]; decide)
    rw [hlen] at hout hparse
    exact ⟨out, hout, by rw [hvector, hparse]⟩
  · exact hback [45, 52, 50] (-42) (replicate 5 255) (by decide +kernel) (by decide)

end NexCache.Util
