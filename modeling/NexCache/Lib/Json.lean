import Mathlib.Data.List.Basic

/-!
# Reading JSON objects

A reader for objects whose values are strings and the three literal names, without white space, on
bytes.  A string is read to its `Item`s, a byte or a `\u` code unit each; `meaning` is the text they
stand for, where no code unit is half of a surrogate pair.

Every part of the reader takes its token off the front and leaves what follows, and takes no control
character (`object_printable`).
-/

namespace Json

open List Option

inductive Item where
  | byte (b : UInt8)
  | code (n : Nat)
  deriving DecidableEq, Repr

inductive Value where
  | string (is : List Item)
  | bool (b : Bool)
  | null
  deriving DecidableEq, Repr

def Item.meaning : Item → Option (List UInt8)
  | .byte b => some [b]
  | .code n => if n.isValidChar then some (String.utf8EncodeChar (Char.ofNat n)) else none

def meaning : List Item → Option (List UInt8)
  | [] => some []
  | i :: is => i.meaning.bind fun b => (meaning is).map (b ++ ·)

def hexValue (b : UInt8) : Option Nat :=
  if 48 ≤ b ∧ b ≤ 57 then some (b.toNat - 48)
  else if 97 ≤ b ∧ b ≤ 102 then some (b.toNat - 87)
  else if 65 ≤ b ∧ b ≤ 70 then some (b.toNat - 55)
  else none

def codeUnit (hs : List UInt8) : Option Nat :=
  hs.foldl (fun n h => n.bind fun n => (hexValue h).map (16 * n + ·)) (some 0)

/-- The escapes of two characters, by the second one. -/
def shortEscape (c : UInt8) : Option UInt8 :=
  ([(34, 34), (92, 92), (47, 47), (98, 8), (102, 12), (110, 10), (114, 13), (116, 9)] :
    List (UInt8 × UInt8)).lookup c

def push (i : Item) (r : List Item × List UInt8) : List Item × List UInt8 := (i :: r.1, r.2)

/-- A string behind its opening quote, up to the closing one. -/
def scan : List UInt8 → Option (List Item × List UInt8)
  | [] => none
  | b :: bs =>
    if b = 34 then some ([], bs)
    else if b < 32 then none
    else if b = 92 then
      match bs with
      | [] => none
      | c :: cs =>
        if c = 117 then
          match cs with
          | h₁ :: h₂ :: h₃ :: h₄ :: rest => (codeUnit [h₁, h₂, h₃, h₄]).bind fun n =>
            (scan rest).map (push (.code n))
          | _ => none
        else (shortEscape c).bind fun d => (scan cs).map (push (.byte d))
    else (scan bs).map (push (.byte b))

def expect (word text : List UInt8) : Option (List UInt8) :=
  if word <+: text then some (text.drop word.length) else none

def stringToken (text : List UInt8) : Option (List Item × List UInt8) :=
  (expect [34] text).bind scan

def value (text : List UInt8) : Option (Value × List UInt8) :=
  ((stringToken text).map fun r => (.string r.1, r.2)).or <|
  ((expect [116, 114, 117, 101] text).map (.bool true, ·)).or <|
  ((expect [102, 97, 108, 115, 101] text).map (.bool false, ·)).or <|
  (expect [110, 117, 108, 108] text).map (.null, ·)

def member (text : List UInt8) : Option ((List Item × Value) × List UInt8) :=
  (stringToken text).bind fun k => (expect [58] k.2).bind fun text => (value text).map fun v =>
    ((k.1, v.1), v.2)

/-- The members up to the brace that ends the text. -/
def members : Nat → List UInt8 → Option (List (List Item × Value))
  | 0, _ => none
  | n + 1, text => (member text).bind fun (m, text) =>
    if text = [125] then some [m] else (expect [44] text).bind fun text =>
      (members n text).map (m :: ·)

def object (text : List UInt8) : Option (List (List Item × Value)) :=
  (expect [123] text).bind fun text => members text.length text

/-! ## Strings -/

theorem scan_quote (rest : List UInt8) :
    scan (34 :: rest) = some ([], rest) := by rw [scan.eq_def]; exact if_pos rfl

variable {n : Nat} {h₁ h₂ h₃ h₄ : UInt8}

theorem scan_code (h : codeUnit [h₁, h₂, h₃, h₄] = some n) (rest : List UInt8) :
    scan (92 :: 117 :: h₁ :: h₂ :: h₃ :: h₄ :: rest) = (scan rest).map (push (.code n)) := by
  rw [scan.eq_def]
  dsimp only
  rw [if_neg (by decide), if_neg (by decide), if_pos rfl]
  rw [if_pos rfl, h, bind_some]

theorem scan_short {c d : UInt8} (h : shortEscape c = some d) (rest : List UInt8) :
    scan (92 :: c :: rest) = (scan rest).map (push (.byte d)) := by
  have hc : c ≠ 117 := by
    rintro rfl
    cases h
  rw [scan.eq_def]
  dsimp only
  rw [if_neg (by decide), if_neg (by decide), if_pos rfl]
  rw [if_neg hc, h, bind_some]

theorem scan_plain {b : UInt8} (hquote : b ≠ 34) (hcontrol : 32 ≤ b) (hback : b ≠ 92)
    (rest : List UInt8) : scan (b :: rest) = (scan rest).map (push (.byte b)) := by
  rw [scan.eq_def]
  dsimp only
  rw [if_neg hquote, if_neg (UInt8.not_lt.mpr hcontrol), if_neg hback]

def Printable (bs : List UInt8) : Prop := ∀ b ∈ bs, 32 ≤ b

theorem hexValue_small : ∀ n : Fin 32, hexValue (UInt8.ofNat n) = none ∧
    shortEscape (UInt8.ofNat n) = none := by
  decide

theorem le_of_isSome {α : Type} {f : UInt8 → Option α}
    (hsmall : ∀ n : Fin 32, f (UInt8.ofNat n) = none) {b : UInt8}
    {a : α} (h : f b = some a) : 32 ≤ b := by
  by_contra hb
  have hlt : b.toNat < 32 := UInt8.lt_iff_toNat_lt.mp (UInt8.not_le.mp hb)
  have hnone := hsmall ⟨b.toNat, hlt⟩
  rw [UInt8.ofNat_toNat, h] at hnone
  cases hnone

theorem printable_codeUnit (h : codeUnit [h₁, h₂, h₃, h₄] = some n) :
    Printable [h₁, h₂, h₃, h₄] := by
  simp only [codeUnit, foldl_cons, foldl_nil, bind_eq_some_iff, map_eq_some_iff] at h
  obtain ⟨_, ⟨_, ⟨_, ⟨_, -, _, hv₁, -⟩, _, hv₂, -⟩, _, hv₃, -⟩, _, hv₄, -⟩ := h
  have hhex := fun n => (hexValue_small n).1
  simp only [Printable, forall_mem_cons]
  exact ⟨le_of_isSome hhex hv₁, le_of_isSome hhex hv₂, le_of_isSome hhex hv₃,
    le_of_isSome hhex hv₄, by simp⟩

variable {is : List Item}

/-- A string is what stands before its closing quote, whatever follows. -/
theorem scan_spec {text rest : List UInt8} (h : scan text = some (is, rest)) :
    ∃ raw, text = raw ++ rest ∧ Printable raw ∧ ∀ more, scan (raw ++ more) = some (is, more) := by
  fun_induction scan text generalizing is with
  | case1 => cases h
  | case2 bs =>
    cases h
    exact ⟨[34], rfl, by simp [Printable], scan_quote⟩
  | case3 b bs hquote hcontrol => cases h
  | case4 => cases h
  | case5 h₁ h₂ h₃ h₄ bs _ _ ih =>
    obtain ⟨n, hn, h⟩ := bind_eq_some_iff.mp h
    obtain ⟨r, hr, he⟩ := map_eq_some_iff.mp h
    cases he
    obtain ⟨raw, rfl, hraw, hscan⟩ := ih hr
    refine ⟨92 :: 117 :: h₁ :: h₂ :: h₃ :: h₄ :: raw, rfl, ?_, fun more => ?_⟩
    · have hhex := printable_codeUnit hn
      simp only [Printable, forall_mem_cons] at hhex ⊢
      exact ⟨by decide, by decide, hhex.1, hhex.2.1, hhex.2.2.1, hhex.2.2.2.1, hraw⟩
    · rw [cons_append, cons_append, cons_append, cons_append, cons_append, cons_append,
        scan_code hn, hscan]
      rfl
  | case6 => cases h
  | case7 c bs _ _ _ ih =>
    obtain ⟨d, hd, h⟩ := bind_eq_some_iff.mp h
    obtain ⟨r, hr, he⟩ := map_eq_some_iff.mp h
    cases he
    obtain ⟨raw, rfl, hraw, hscan⟩ := ih hr
    refine ⟨92 :: c :: raw, rfl, ?_, fun more => ?_⟩
    · have hc := le_of_isSome (fun n => (hexValue_small n).2) hd
      simp only [Printable, forall_mem_cons]
      exact ⟨by decide, hc, hraw⟩
    · rw [cons_append, cons_append, scan_short hd, hscan]
      rfl
  | case8 b bs hquote hcontrol hback ih =>
    obtain ⟨r, hr, he⟩ := map_eq_some_iff.mp h
    cases he
    obtain ⟨raw, rfl, hraw, hscan⟩ := ih hr
    refine ⟨b :: raw, rfl, forall_mem_cons.mpr ⟨UInt8.not_lt.mp hcontrol, hraw⟩, fun more => ?_⟩
    rw [cons_append, scan_plain hquote (UInt8.not_lt.mp hcontrol) hback, hscan]
    rfl

/-! ## Objects -/

theorem expect_append (word rest : List UInt8) : expect word (word ++ rest) = some rest := by
  rw [expect, if_pos (prefix_append ..), drop_left]

theorem expect_cons (b : UInt8) (rest : List UInt8) : expect [b] (b :: rest) = some rest :=
  expect_append [b] rest

theorem eq_of_expect {word text rest : List UInt8} (h : expect word text = some rest) :
    text = word ++ rest := by
  rw [expect] at h
  split at h
  · next hpre =>
    obtain ⟨rest, rfl⟩ := hpre
    rw [drop_left] at h
    cases h
    rfl
  · cases h

theorem stringToken_spec {text rest : List UInt8} (h : stringToken text = some (is, rest)) :
    ∃ raw, text = raw ++ rest ∧ Printable raw ∧
    ∀ more, stringToken (raw ++ more) = some (is, more) := by
  obtain ⟨body, hbody, h⟩ := bind_eq_some_iff.mp h
  obtain ⟨raw, rfl, hraw, hscan⟩ := scan_spec h
  refine ⟨34 :: raw, (eq_of_expect hbody : text = [34] ++ (raw ++ rest)),
    forall_mem_cons.mpr ⟨by decide, hraw⟩, fun more => ?_⟩
  rw [stringToken, cons_append, expect_cons, bind_some, hscan]

theorem stringToken_append {raw : List UInt8} (h : stringToken raw = some (is, []))
    (more : List UInt8) : stringToken (raw ++ more) = some (is, more) := by
  obtain ⟨raw, rfl, -, htoken⟩ := stringToken_spec h
  rw [append_nil]
  exact htoken more

theorem value_string {raw rest : List UInt8} (h : stringToken raw = some (is, rest)) :
    value raw = some (.string is, rest) := by
  rw [value, h]
  rfl

/-- One member of an object, with another behind it or with the closing brace. -/
theorem members_cons {key tok : List UInt8} {v : Value} (n : Nat)
    (hkey : ∀ more, stringToken (key ++ more) = some (is, more))
    (htok : ∀ more, value (tok ++ more) = some (v, more)) :
    (∀ text, members (n + 1) (key ++ 58 :: (tok ++ 44 :: text))
        = (members n text).map ((is, v) :: ·)) ∧
      members (n + 1) (key ++ 58 :: (tok ++ [125])) = some [(is, v)] := by
  have hmember : ∀ more, member (key ++ 58 :: (tok ++ more)) = some ((is, v), more) := by
    intro more
    rw [member, hkey, bind_some, expect_cons, bind_some, htok]
    rfl
  refine ⟨fun text => ?_, ?_⟩
  · rw [members, hmember, bind_some]
    dsimp only
    rw [if_neg (by simp), expect_cons, bind_some]
  · rw [members, hmember, bind_some]
    exact if_pos rfl

theorem printable_expect {word text rest : List UInt8} (h : expect word text = some rest)
    (hword : Printable word) (hrest : Printable rest) : Printable text := by
  rw [eq_of_expect h]
  exact forall_mem_append.mpr ⟨hword, hrest⟩

variable {text : List UInt8} {ms : List (List Item × Value)}

theorem printable_stringToken {r : List Item × List UInt8} (h : stringToken text = some r)
    (hrest : Printable r.2) : Printable text := by
  obtain ⟨raw, rfl, hraw, -⟩ := stringToken_spec h
  exact forall_mem_append.mpr ⟨hraw, hrest⟩

theorem printable_value {r : Value × List UInt8} (h : value text = some r) (hrest : Printable r.2) :
    Printable text := by
  simp only [value, or_eq_some_iff, map_eq_some_iff] at h
  rcases h with ⟨q, hq, rfl⟩ | ⟨-, ⟨q, hq, rfl⟩ | ⟨-, ⟨q, hq, rfl⟩ | ⟨-, q, hq, rfl⟩⟩⟩
  · exact printable_stringToken hq hrest
  all_goals exact printable_expect hq (by simp [Printable]) hrest

theorem printable_members (h : members n text = some ms) :
    Printable text := by
  induction n generalizing text ms with
  | zero => cases h
  | succ n ih =>
    obtain ⟨⟨m, rest⟩, hm, h⟩ := bind_eq_some_iff.mp h
    have hrest : Printable rest := by
      dsimp only at h
      split at h
      · next hend => simp [hend, Printable]
      · obtain ⟨more, hmore, h⟩ := bind_eq_some_iff.mp h
        obtain ⟨ms', hms, -⟩ := map_eq_some_iff.mp h
        exact printable_expect hmore (by simp [Printable]) (ih hms)
    obtain ⟨k, hk, hm⟩ := bind_eq_some_iff.mp hm
    obtain ⟨body, hbody, hm⟩ := bind_eq_some_iff.mp hm
    obtain ⟨v, hv, he⟩ := map_eq_some_iff.mp hm
    cases he
    exact printable_stringToken hk (printable_expect hbody (by simp [Printable])
      (printable_value hv hrest))

theorem object_printable (h : object text = some ms) :
    Printable text := by
  obtain ⟨body, hbody, h⟩ := bind_eq_some_iff.mp h
  rw [eq_of_expect hbody]
  exact forall_mem_cons.mpr ⟨by decide, printable_members h⟩

end Json
