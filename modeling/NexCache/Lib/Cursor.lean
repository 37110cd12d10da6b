import Mathlib.Data.Nat.Bitwise

/-!
# Counting in bit-reversed order

A table of `2 ^ e` cells is indexed by the low `e` bits of a word.  Read from the
other end, the low `e` bits are the leading digits: the words of one cell are then
an interval of length `2 ^ (w - e)`, whatever `e` is, and a table of another size
only cuts the same line more or less finely.

`rank` is the place of a word on that line, `next` moves a word to the start of
the next interval.
-/

namespace Cursor

open BitVec Nat

variable {w e : Nat} {x y : BitVec w}

/-- The place of a word in bit-reversed order. -/
def rank (x : BitVec w) : Nat := x.reverse.toNat

/-- The low `e` bits set. -/
def mask (w e : Nat) : BitVec w := BitVec.ofNat w (2 ^ e - 1)

/-- The first word of the cell after that of `x`, in a table of the given mask. -/
def next (x m : BitVec w) : BitVec w := ((x ||| ~~~m).reverse + 1).reverse

theorem rank_lt (x : BitVec w) : rank x < 2 ^ w := x.reverse.isLt

theorem testBit_rank (x : BitVec w) {i : Nat} (hi : i < w) :
    (rank x).testBit i = x.toNat.testBit (w - 1 - i) := by
  rw [rank, testBit_toNat, getLsbD_reverse, getMsbD_eq_getLsbD,
    decide_eq_true hi, Bool.true_and, testBit_toNat]

@[simp] theorem rank_reverse (x : BitVec w) : rank x.reverse = x.toNat := by
  rw [rank, reverse_reverse_eq]

theorem rank_eq_zero {x : BitVec w} : rank x = 0 ↔ x = 0 := by
  constructor
  · intro h
    have hrev : x.reverse = 0 := eq_of_toNat_eq (by simpa [rank] using h)
    rw [← reverse_reverse_eq (x := x), hrev]
    exact eq_of_getLsbD_eq fun i hi => by simp [getLsbD_reverse]
  · rintro rfl
    apply eq_of_testBit_eq
    intro i
    by_cases hi : i < w
    · rw [testBit_rank _ hi]
      simp
    · rw [testBit_lt_two_pow (lt_of_lt_of_le (rank_lt _)
        (Nat.pow_le_pow_right (by decide) (by omega)))]
      simp

/-- Equal low bits are equal leading digits. -/
theorem mod_eq_iff (he : e ≤ w) (x y : BitVec w) :
    x.toNat % 2 ^ e = y.toNat % 2 ^ e ↔ rank x / 2 ^ (w - e) = rank y / 2 ^ (w - e) := by
  -- bit `i` below `e` is digit `e - 1 - i` from the front, and back
  have hlow : ∀ z : BitVec w, ∀ i < e, z.toNat.testBit i =
      (rank z / 2 ^ (w - e)).testBit (e - 1 - i) := by
    intro z i hi
    rw [testBit_div_two_pow, testBit_rank z (by omega)]
    congr 1
    omega
  have hhigh : ∀ z : BitVec w, ∀ j, e ≤ j → (rank z / 2 ^ (w - e)).testBit j = false := by
    intro z j hj
    refine Nat.testBit_lt_two_pow (lt_of_lt_of_le ?_ (Nat.pow_le_pow_right (by decide) hj))
    rw [Nat.div_lt_iff_lt_mul (Nat.two_pow_pos _), ← Nat.pow_add, Nat.add_sub_cancel' he]
    exact rank_lt z
  constructor
  · intro h
    apply eq_of_testBit_eq
    intro j
    by_cases hj : j < e
    · have hx := hlow x (e - 1 - j) (by omega)
      have hy := hlow y (e - 1 - j) (by omega)
      rw [show e - 1 - (e - 1 - j) = j by omega] at hx hy
      have hbit := congrArg (·.testBit (e - 1 - j)) h
      rw [← hx, ← hy]
      simpa [show e - 1 - j < e by omega] using hbit
    · rw [hhigh x j (by omega), hhigh y j (by omega)]
  · intro h
    apply eq_of_testBit_eq
    intro i
    rw [testBit_mod_two_pow, testBit_mod_two_pow]
    by_cases hi : i < e
    · rw [hlow x i hi, hlow y i hi, h]
    · simp [hi]

theorem toNat_mask (he : e ≤ w) : (mask w e).toNat = 2 ^ e - 1 := by
  rw [mask, toNat_ofNat, Nat.mod_eq_of_lt]
  have hle : 2 ^ e ≤ 2 ^ w := Nat.pow_le_pow_right (by decide) he
  have hpos := Nat.two_pow_pos e
  omega

theorem testBit_mask (he : e ≤ w) (i : Nat) : (mask w e).toNat.testBit i = decide (i < e) := by
  rw [toNat_mask he, testBit_two_pow_sub_one]

/-- Filling the bits above the index fills the digits behind the interval. -/
theorem rank_fill (he : e ≤ w) (x : BitVec w) :
    rank (x ||| ~~~(mask w e)) = 2 ^ (w - e) * (rank x / 2 ^ (w - e)) + (2 ^ (w - e) - 1) := by
  apply eq_of_testBit_eq
  intro i
  have hsmall : 2 ^ (w - e) - 1 < 2 ^ (w - e) := Nat.sub_lt (Nat.two_pow_pos _) (by decide)
  rw [testBit_two_pow_mul_add _ hsmall]
  by_cases hi : i < w
  · have hbit : (x ||| ~~~(mask w e)).toNat.testBit (w - 1 - i)
        = (x.toNat.testBit (w - 1 - i) || !decide (w - 1 - i < e)) := by
      rw [testBit_toNat, getLsbD_or, getLsbD_not,
        decide_eq_true (by omega : w - 1 - i < w), Bool.true_and, ← testBit_toNat,
        ← testBit_toNat, testBit_mask he]
    rw [testBit_rank _ hi, hbit]
    split
    · rename_i hlt
      rw [testBit_two_pow_sub_one, decide_eq_true hlt,
        decide_eq_false (by omega : ¬ w - 1 - i < e)]
      simp
    · rename_i hge
      rw [testBit_div_two_pow, decide_eq_true (by omega : w - 1 - i < e),
        testBit_rank x (by omega)]
      simp only [Bool.not_true, Bool.or_false]
      congr 1
      omega
  · have hfalse : ∀ y : BitVec w, (rank y).testBit i = false := fun y =>
      testBit_lt_two_pow (lt_of_lt_of_le (rank_lt y)
        (Nat.pow_le_pow_right (by decide) (by omega)))
    rw [hfalse, if_neg (by omega), testBit_div_two_pow, show i - (w - e) + (w - e) = i by omega,
      hfalse]

/-- Where the cell of `x` ends, in a table of `2 ^ e` cells. -/
def stop (e : Nat) (x : BitVec w) : Nat := (rank x / 2 ^ (w - e) + 1) * 2 ^ (w - e)

theorem lt_stop (e : Nat) (x : BitVec w) : rank x < stop e x := by
  rw [stop, mul_comm]
  exact Nat.lt_mul_div_succ _ (Nat.two_pow_pos _)

theorem stop_div (e : Nat) (x : BitVec w) : stop e x / 2 ^ (w - e) = rank x / 2 ^ (w - e) + 1 :=
  Nat.mul_div_cancel _ (Nat.two_pow_pos _)

theorem stop_le (he : e ≤ w) (x : BitVec w) : stop e x ≤ 2 ^ w := by
  have hsplit : 2 ^ w = 2 ^ e * 2 ^ (w - e) := by rw [← Nat.pow_add, Nat.add_sub_cancel' he]
  have hlt : rank x / 2 ^ (w - e) < 2 ^ e := by
    rw [Nat.div_lt_iff_lt_mul (Nat.two_pow_pos _), ← hsplit]
    exact rank_lt x
  rw [stop, hsplit]
  exact mul_le_mul_right _ hlt

/-- The step to the next interval, around the end of the line. -/
theorem rank_next (he : e ≤ w) (x : BitVec w) : rank (next x (mask w e)) = stop e x % 2 ^ w := by
  have hfill := rank_fill he x
  rw [rank] at hfill
  rw [next, rank_reverse, toNat_add, hfill, show (1 : BitVec w).toNat = 1 % 2 ^ w from rfl,
    Nat.add_mod_mod, stop]
  congr 1
  have hpos := Nat.two_pow_pos (w - e)
  rw [Nat.add_mul, Nat.one_mul, Nat.mul_comm, Nat.add_assoc, Nat.sub_add_cancel hpos]

/-- The end of a cell, read from the word that starts the next one; the end of the line is the
word `0`. -/
theorem le_stop_of_rank (h : rank y = stop e x % 2 ^ w) :
    (if y = 0 then 2 ^ w else rank y) ≤ stop e x := by
  split
  · rename_i hzero
    rw [rank_eq_zero.mpr hzero] at h
    have hpos := zero_lt_of_lt (lt_stop e x)
    exact le_of_dvd hpos (dvd_of_mod_eq_zero h.symm)
  · rw [h]
    exact mod_le _ _

/-- A word lies in the cell of `x` if it lies between `x` and the end of the cell. -/
theorem mod_eq_of_between (he : e ≤ w)
    (hle : rank x ≤ rank y) (hlt : rank y < stop e x) : y.toNat % 2 ^ e = x.toNat % 2 ^ e := by
  rw [mod_eq_iff he]
  refine le_antisymm ?_ (Nat.div_le_div_right hle)
  rw [← Nat.lt_succ_iff, Nat.div_lt_iff_lt_mul (Nat.two_pow_pos _)]
  exact hlt

/-! ### A coarse and a fine table -/

section Two

variable {s l : Nat}

/-- The bits between the two masks are zero at the start of a coarse cell. -/
theorem and_xor_eq_zero_iff (hsl : s ≤ l) (hl : l ≤ w) (x : BitVec w) :
    x &&& (mask w s ^^^ mask w l) = 0 ↔ rank x / 2 ^ (w - l) % 2 ^ (l - s) = 0 := by
  have hbit : ∀ i, (x &&& (mask w s ^^^ mask w l)).toNat.testBit i
      = (x.toNat.testBit i && (decide (i < s) ^^ decide (i < l))) := by
    intro i
    rw [toNat_and, toNat_xor, testBit_and, testBit_xor,
      testBit_mask (hsl.trans hl), testBit_mask hl]
  constructor
  · intro h
    apply eq_of_testBit_eq
    intro j
    rw [testBit_mod_two_pow, testBit_div_two_pow, zero_testBit]
    by_cases hj : j < l - s
    · have hx := hbit (l - 1 - j)
      rw [h, decide_eq_false (by omega : ¬ l - 1 - j < s),
        decide_eq_true (by omega : l - 1 - j < l)] at hx
      rw [testBit_rank x (by omega), show w - 1 - (j + (w - l)) = l - 1 - j by omega]
      simp only [Bool.false_bne, Bool.and_true] at hx
      rw [← hx]
      simp
    · simp [hj]
  · intro h
    apply eq_of_toNat_eq
    apply eq_of_testBit_eq
    intro i
    rw [hbit]
    by_cases hi : s ≤ i ∧ i < l
    · have hx := congrArg (·.testBit (l - 1 - i)) h
      simp only [testBit_mod_two_pow, testBit_div_two_pow, zero_testBit] at hx
      rw [testBit_rank x (by omega), show w - 1 - (l - 1 - i + (w - l)) = i by omega,
        decide_eq_true (by omega : l - 1 - i < l - s), Bool.true_and] at hx
      rw [hx]
      simp
    · have hxor : (decide (i < s) ^^ decide (i < l)) = false := by
        rcases not_and_or.mp hi with hi | hi
        · rw [decide_eq_true (by omega : i < s), decide_eq_true (by omega : i < l)]
          rfl
        · rw [decide_eq_false (by omega : ¬ i < s), decide_eq_false hi]
          rfl
      rw [hxor, Bool.and_false]
      simp

/-- What one step through the fine table does: either the coarse cell ends with the fine
one, or the next fine cell is in the same coarse cell. -/
theorem next_cases (hsl : s ≤ l) (hl : l ≤ w) (x : BitVec w) :
    (next x (mask w l) &&& (mask w s ^^^ mask w l) = 0 ∧ stop l x = stop s x)
      ∨ (next x (mask w l) &&& (mask w s ^^^ mask w l) ≠ 0 ∧ rank (next x (mask w l)) = stop l x
        ∧ stop s (next x (mask w l)) = stop s x) := by
  have hW : 0 < 2 ^ (w - l) := Nat.two_pow_pos _
  have hline : 2 ^ w = 2 ^ l * 2 ^ (w - l) := by rw [← Nat.pow_add, Nat.add_sub_cancel' hl]
  have hcoarse : 2 ^ (w - s) = 2 ^ (w - l) * 2 ^ (l - s) := by
    rw [← pow_add]
    congr 1
    omega
  have hdvd : 2 ^ (l - s) ∣ 2 ^ l := pow_dvd_pow 2 (sub_le l s)
  have hq : rank x / 2 ^ (w - l) < 2 ^ l := by
    rw [div_lt_iff_lt_mul hW, ← hline]
    exact rank_lt x
  have hnext : rank (next x (mask w l))
      = (rank x / 2 ^ (w - l) + 1) % 2 ^ l * 2 ^ (w - l) := by
    rw [rank_next hl, stop, hline, mul_mod_mul_right]
  have hstop : ∀ y : BitVec w, stop s y
      = (rank y / 2 ^ (w - l) / 2 ^ (l - s) + 1) * 2 ^ (l - s) * 2 ^ (w - l) := by
    intro y
    rw [stop, hcoarse, Nat.div_div_eq_div_mul, Nat.mul_assoc, Nat.mul_comm (2 ^ (l - s))]
  have hfine : stop l x = (rank x / 2 ^ (w - l) + 1) * 2 ^ (w - l) := rfl
  rw [Ne, and_xor_eq_zero_iff hsl hl, hstop (next x _), hnext, Nat.mul_div_cancel _ hW,
    mod_mod_of_dvd _ hdvd, hstop x, hfine]
  generalize rank x / 2 ^ (w - l) = q at hq
  by_cases hend : (q + 1) % 2 ^ (l - s) = 0
  · refine .inl ⟨hend, ?_⟩
    have hd := dvd_of_mod_eq_zero hend
    rw [← Nat.succ_div_of_dvd hd, Nat.div_mul_cancel hd]
  · have hlt : q + 1 < 2 ^ l := by
      refine lt_of_le_of_ne hq fun heq => hend ?_
      rw [heq]
      exact mod_eq_zero_of_dvd hdvd
    have hnd : ¬ 2 ^ (l - s) ∣ q + 1 := fun hd => hend (mod_eq_zero_of_dvd hd)
    refine .inr ⟨hend, by rw [mod_eq_of_lt hlt], ?_⟩
    rw [mod_eq_of_lt hlt, succ_div_of_not_dvd hnd]

end Two

end Cursor
