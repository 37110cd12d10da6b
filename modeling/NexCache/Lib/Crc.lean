import Mathlib.Data.Nat.Notation

/-!
# Cyclic redundancy checks from a table

A register of `w` bits that is shifted to the left: a bit that falls out puts the polynomial in.
`step` feeds one byte to the register with eight shifts, `tableStep` with one table lookup; the
two agree for the table of the polynomial (`tableStep_eq_step`).

A table with wrong entries gives the same register as long as only right entries are met, and the
first wrong one shows (`crc_prefixes_iff`).
-/

namespace Crc

open List

open BitVec (getLsbD_shiftLeft getLsbD_ushiftRight setWidth_xor)

variable {w : Nat}

def shift (poly s : BitVec w) : BitVec w := if s.msb then (s <<< 1) ^^^ poly else s <<< 1

def shifts (poly : BitVec w) : Nat → BitVec w → BitVec w
  | 0, s => s
  | n + 1, s => shift poly (shifts poly n s)

/-- A byte in the top of the register. -/
def put (b : BitVec 8) : BitVec w := b.setWidth w <<< (w - 8)

/-- The top byte of the register. -/
def top (s : BitVec w) : BitVec 8 := (s >>> (w - 8)).setWidth 8

/-- One byte, bit by bit. -/
def step (poly s : BitVec w) (b : BitVec 8) : BitVec w := shifts poly 8 (s ^^^ put b)

/-- One byte, from a table. -/
def tableStep (table : BitVec 8 → BitVec w) (s : BitVec w) (b : BitVec 8) : BitVec w :=
  (s <<< 8) ^^^ table (top s ^^^ b)

/-- The table of the polynomial. -/
def Tabulates (poly : BitVec w) (table : BitVec 8 → BitVec w) : Prop :=
  ∀ i, table i = shifts poly 8 (put i)

/-! ### Shifts are linear -/

theorem shift_xor (poly a b : BitVec w) : shift poly (a ^^^ b) = shift poly a ^^^ shift poly b := by
  have hcancel : a <<< 1 ^^^ b <<< 1 = a <<< 1 ^^^ poly ^^^ (b <<< 1 ^^^ poly) := by
    rw [BitVec.xor_comm (b <<< 1) poly, BitVec.xor_assoc, ← BitVec.xor_assoc poly, BitVec.xor_self,
      BitVec.zero_xor]
  simp only [shift, BitVec.msb_xor, BitVec.shiftLeft_xor_distrib]
  cases a.msb <;> cases b.msb
  · rfl
  · exact BitVec.xor_assoc ..
  · show a <<< 1 ^^^ b <<< 1 ^^^ poly = a <<< 1 ^^^ poly ^^^ b <<< 1
    rw [BitVec.xor_assoc, BitVec.xor_assoc, BitVec.xor_comm poly]
  · exact hcancel

variable (poly : BitVec w) {s : BitVec w}

theorem shifts_xor : ∀ (n : Nat) (a b : BitVec w),
    shifts poly n (a ^^^ b) = shifts poly n a ^^^ shifts poly n b := by
  intro n a b
  induction n with
  | zero => rfl
  | succ n ih => rw [shifts, shifts, shifts, ih, shift_xor]

/-- Clear bits at the top only move out. -/
theorem shifts_clear : ∀ n : Nat,
    (∀ i, w - n ≤ i → s.getLsbD i = false) → shifts poly n s = s <<< n := by
  intro n
  induction n with
  | zero => intro _; simp [shifts]
  | succ n ih =>
    intro hclear
    have hmsb : (s <<< n).msb = false := by
      rw [BitVec.msb_eq_getLsbD_last, getLsbD_shiftLeft,
        hclear (w - 1 - n) (by omega), Bool.and_false]
    rw [shifts, ih fun i hi => hclear i (by omega), shift, hmsb, if_neg Bool.false_ne_true,
      BitVec.shiftLeft_add]

/-! ### The table of the polynomial -/

theorem put_xor (a b : BitVec 8) : (put (a ^^^ b) : BitVec w) = put a ^^^ put b := by
  rw [put, put, put, setWidth_xor, BitVec.shiftLeft_xor_distrib]

/-- The register is its top byte and the rest. -/
theorem eq_put_top_xor (hw : 8 ≤ w) (s : BitVec w) : s = put (top s) ^^^ (s <<< 8) >>> 8 := by
  apply BitVec.eq_of_getLsbD_eq
  intro i hi
  rw [BitVec.getLsbD_xor, put, getLsbD_shiftLeft, BitVec.getLsbD_setWidth, top,
    BitVec.getLsbD_setWidth, getLsbD_ushiftRight, getLsbD_ushiftRight,
    getLsbD_shiftLeft]
  by_cases htop : i < w - 8
  · have hlow : 8 + i < w := by omega
    simp [htop, hlow]
  · have hbit : w - 8 + (i - (w - 8)) = i := by omega
    have hhigh : ¬8 + i < w := by omega
    have hbyte : i - (w - 8) < 8 := by omega
    have hwide : i - (w - 8) < w := by omega
    simp [htop, hhigh, hbyte, hbit, hi, hwide]

theorem tableStep_eq_step (hw : 8 ≤ w) {poly : BitVec w} {table : BitVec 8 → BitVec w}
    (h : Tabulates poly table) (s : BitVec w) (b : BitVec 8) :
    tableStep table s b = step poly s b := by
  have hlow : ∀ i, w - 8 ≤ i → ((s <<< 8) >>> 8).getLsbD i = false := by
    intro i hi
    rw [getLsbD_ushiftRight, BitVec.getLsbD_of_ge _ _ (by omega)]
  have hback : ((s <<< 8) >>> 8) <<< 8 = s <<< 8 := by
    apply BitVec.eq_of_getLsbD_eq
    intro i hi
    by_cases h8 : i < 8
    · simp [h8]
    · have hsub : 8 + (i - 8) = i := by omega
      simp [h8, hi, hsub]
  have hsplit : s ^^^ put b = put (top s ^^^ b) ^^^ (s <<< 8) >>> 8 := by
    rw [put_xor, BitVec.xor_assoc, BitVec.xor_comm (put b), ← BitVec.xor_assoc,
      ← eq_put_top_xor hw s]
  rw [step, hsplit, shifts_xor, shifts_clear poly 8 hlow, hback, tableStep, h, BitVec.xor_comm]

/-! ### A table with wrong entries -/

/-- The table indices that the polynomial's register meets on its way from `s`. -/
def indicesMet (poly : BitVec w) : BitVec w → List (BitVec 8) → List (BitVec 8)
  | _, [] => []
  | s, b :: bs => (top s ^^^ b) :: indicesMet poly (step poly s b) bs

section Wrong

variable {poly} {table right : BitVec 8 → BitVec w} (hw : 8 ≤ w) (h : Tabulates poly right)
include hw h

theorem tableStep_of_right {b : BitVec 8}
    (hentry : table (top s ^^^ b) = right (top s ^^^ b)) : tableStep table s b = step poly s b := by
  rw [← tableStep_eq_step hw h, tableStep, tableStep, hentry]

/-- **Wrong entries show**: if they show in the lower `m` bits, then the registers agree there on
every prefix exactly if only right entries are met. -/
theorem crc_prefixes_iff {m : Nat} (hlow : ∀ i, (table i).setWidth m = (right i).setWidth m →
    table i = right i) {bs : List (BitVec 8)} : ∀ {s : BitVec w},
    (∀ p, p <+: bs →
      (p.foldl (tableStep table) s).setWidth m = (p.foldl (step poly) s).setWidth m) ↔
      ∀ i ∈ indicesMet poly s bs, table i = right i := by
  induction bs with
  | nil => simp [indicesMet]
  | cons b bs ih =>
    intro s
    rw [indicesMet, forall_mem_cons, ← ih]
    constructor
    · intro hagree
      -- the prefix of one byte shows the first entry
      have hfirst := hagree [b] (by simp)
      rw [foldl_cons, foldl_nil, foldl_cons, foldl_nil,
        ← tableStep_eq_step hw h, tableStep, tableStep, setWidth_xor, setWidth_xor,
        BitVec.xor_right_inj] at hfirst
      have hentry := hlow _ hfirst
      refine ⟨hentry, fun p hp => ?_⟩
      have hrest := hagree (b :: p) (cons_prefix_cons.mpr ⟨rfl, hp⟩)
      rw [foldl_cons, foldl_cons, tableStep_of_right hw h hentry] at hrest
      exact hrest
    · rintro ⟨hentry, hrest⟩ p hp
      cases p with
      | nil => rfl
      | cons c p =>
        obtain ⟨rfl, hp'⟩ := cons_prefix_cons.mp hp
        rw [foldl_cons, foldl_cons, tableStep_of_right hw h hentry]
        exact hrest p hp'

end Wrong

end Crc
