import Mathlib.Data.Nat.Digits.Lemmas

/-!
# Decimal numerals

Numerals are lists of digits, the leading one first.  `digits` is the canonical numeral of a number,
and `value` reads a numeral; on canonical numerals the two are inverse.

`val` reads the first `n` of a sequence of digits in any base.  Joining neighbours squares the base,
which is how several digits are read at once.
-/

namespace Decimal

open List Nat

/-- The number a numeral stands for. -/
def value (ds : List Nat) : Nat := ds.foldl (fun v d => v * 10 + d) 0

/-- Digits, at least one, without leading zeros. -/
structure Canonical (ds : List Nat) : Prop where
  ne_nil : ds ≠ []
  lt_ten : ∀ d ∈ ds, d < 10
  leading : ds.head? = some 0 → ds = [0]

/-- The canonical numeral. -/
def digits (n : Nat) : List Nat := if n = 0 then [0] else (Nat.digits 10 n).reverse

theorem value_eq (ds : List Nat) : value ds = ofDigits 10 ds.reverse := by
  induction ds using reverseRecOn with
  | nil => rfl
  | append_singleton ds d ih =>
    rw [value, foldl_append, reverse_append, reverse_singleton, singleton_append,
      ofDigits_cons, ← ih, value, foldl_cons, foldl_nil, mul_comm, add_comm]

theorem value_append_singleton (ds : List Nat) (d : Nat) :
    value (ds ++ [d]) = value ds * 10 + d := by
  rw [value, foldl_append]
  rfl

theorem value_digits (n : Nat) : value (digits n) = n := by
  rw [digits]
  split
  · rename_i h
    rw [h]
    rfl
  · rw [value_eq, reverse_reverse, Nat.ofDigits_digits]

theorem digits_canonical (n : Nat) : Canonical (digits n) := by
  rw [digits]
  split
  · exact ⟨cons_ne_nil _ _, by decide, fun _ => rfl⟩
  · rename_i hn
    have hne : Nat.digits 10 n ≠ [] := Nat.digits_ne_nil_iff_ne_zero.mpr hn
    refine ⟨fun h => hne (reverse_eq_nil_iff.mp h), fun d hd => ?_, fun h => ?_⟩
    · exact Nat.digits_lt_base (by decide) (mem_reverse.mp hd)
    · rw [head?_reverse, getLast?_eq_some_getLast hne] at h
      exact absurd (Option.some.inj h) (Nat.getLast_digit_ne_zero 10 hn)

theorem digits_value {ds : List Nat} (h : Canonical ds) : digits (value ds) = ds := by
  by_cases hzero : ds.head? = some 0
  · rw [h.leading hzero]
    rfl
  · have hlast : ∀ hne : ds.reverse ≠ [], ds.reverse.getLast hne ≠ 0 := by
      intro hne hlast
      refine hzero ?_
      rw [← getLast?_reverse, getLast?_eq_some_getLast hne, hlast]
    have hdigits : Nat.digits 10 (value ds) = ds.reverse := by
      rw [value_eq]
      exact Nat.digits_ofDigits 10 (by decide) _ (fun d hd => h.lt_ten d (mem_reverse.mp hd)) hlast
    have hne : value ds ≠ 0 := by
      intro hv
      rw [hv, Nat.digits_zero] at hdigits
      exact h.ne_nil (reverse_eq_nil_iff.mp hdigits.symm)
    rw [digits, if_neg hne, hdigits, reverse_reverse]

variable {n B : Nat} {d : Nat → Nat}

theorem digits_of_lt (h : n < 10) : digits n = [n] := by
  rw [digits]
  split
  · rename_i hn
    rw [hn]
  · rename_i hn
    rw [Nat.digits_of_lt 10 n hn h, reverse_singleton]

theorem digits_of_le (h : 10 ≤ n) : digits n = digits (n / 10) ++ [n % 10] := by
  have hn : n ≠ 0 := by omega
  have hdiv : n / 10 ≠ 0 := by omega
  rw [digits, if_neg hn, digits, if_neg hdiv, Nat.digits_def' (by decide) (by omega), reverse_cons]

/-- Two digits at a time. -/
theorem digits_of_hundred_le (h : 100 ≤ n) :
    digits n = digits (n / 100) ++ [n % 100 / 10, n % 100 % 10] := by
  rw [digits_of_le (by omega), digits_of_le (by omega), Nat.div_div_eq_div_mul, append_assoc]
  congr 1
  simp only [cons_append, nil_append, cons.injEq, and_true]
  omega

theorem length_digits {n k : Nat} (hlow : 10 ^ k ≤ n) (hhigh : n < 10 ^ (k + 1)) :
    (digits n).length = k + 1 := by
  have hn : n ≠ 0 := by
    omega
  rw [digits, if_neg hn, length_reverse, Nat.length_digits 10 n (by decide) hn,
    Nat.log_eq_of_pow_le_of_lt_pow hlow hhigh]

/-- Cutting off the last `k` digits. -/
theorem length_digits_div {n k : Nat} (h : 10 ^ k ≤ n) :
    (digits n).length = k + (digits (n / 10 ^ k)).length := by
  induction k generalizing n with
  | zero => rw [Nat.pow_zero, Nat.div_one, Nat.zero_add]
  | succ k ih =>
    have hpos : 0 < 10 ^ k := Nat.pow_pos (by decide)
    rw [pow_succ] at h
    have hdiv : 10 ^ k ≤ n / 10 := (le_div_iff_mul_le (by decide)).mpr h
    rw [digits_of_le (by omega), length_append, length_singleton, ih hdiv, Nat.div_div_eq_div_mul,
      pow_succ, mul_comm 10]
    omega

theorem length_digits_le {n k : Nat} (hk : 0 < k) (h : n < 10 ^ k) : (digits n).length ≤ k := by
  rw [digits]
  split
  · exact hk
  · rw [length_reverse]
    exact (Nat.digits_length_le_iff (by decide) n).mpr h

/-! ### Other bases -/

/-- The first `n` digits of the sequence, read in base `B`. -/
def val (B : Nat) (d : Nat → Nat) : Nat → Nat
  | 0 => 0
  | n + 1 => B * val B d n + d n

/-- Neighbours joined to one digit. -/
def pair (B : Nat) (d : Nat → Nat) (k : Nat) : Nat := B * d (2 * k) + d (2 * k + 1)

theorem pair_of_zeros {m : Nat} (h : ∀ j < 2 * m, d j = 0) :
    ∀ k < m, pair B d k = 0 := by
  intro k hk
  rw [pair, h (2 * k) (by omega), h (2 * k + 1) (by omega), mul_zero]

theorem val_pair (B : Nat) (d : Nat → Nat) (n : Nat) :
    val B d (2 * n) = val (B * B) (pair B d) n := by
  induction n with
  | zero => rfl
  | succ n ih =>
    rw [show 2 * (n + 1) = 2 * n + 1 + 1 by ring, val, val, val, ih, pair]
    ring

theorem val_of_zeros {m : Nat} (h : ∀ j < m, d j = 0) (n : Nat) :
    val B d (m + n) = val B (fun j => d (m + j)) n := by
  induction n with
  | zero =>
    have hzero : ∀ i, i ≤ m → val B d i = 0 := by
      intro i
      induction i with
      | zero => exact fun _ => rfl
      | succ i ih =>
        intro hi
        rw [val, ih (by omega), h i (by omega), mul_zero]
    exact hzero m le_rfl
  | succ n ih => rw [← add_assoc, val, ih, val]

theorem val_congr {d d' : Nat → Nat} (h : ∀ j < n, d j = d' j) :
    val B d n = val B d' n := by
  induction n with
  | zero => rfl
  | succ n ih => rw [val, val, ih fun j hj => h j (by omega), h n (by omega)]

theorem val_eq_value (ds : List Nat) : val 10 (fun j => ds.getD j 0) ds.length = value ds := by
  induction ds using reverseRecOn with
  | nil => rfl
  | append_singleton ds d ih =>
    rw [length_append, length_singleton, val, value_append_singleton, ← ih, mul_comm]
    congr 1
    · congr 1
      refine val_congr fun j hj => ?_
      simp [getD, getElem?_append_left hj]
    · simp [getD]

end Decimal
