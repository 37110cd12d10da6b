import Mathlib.NumberTheory.Padics.PadicVal.Basic

/-!
# Binary indexed trees

Node `i` of the tree sums the values at the places `i - low i, …, i - 1`, where `low i` is the
lowest set bit of `i`.  A place is covered by the nodes that one reaches from the place's own by
adding the lowest bit again and again, and by no others in between; a prefix is split into nodes by
taking the lowest bit away; and the search for a prefix sum halves a bracket around its target.
-/

namespace Fenwick

open Function Finset Nat

/-- The lowest set bit. -/
def low (i : Nat) : Nat := 2 ^ padicValNat 2 i

variable {i : Nat}

theorem exists_low (h : 0 < i) : ∃ k m, i = 2 ^ k * (2 * m + 1) := by
  obtain ⟨k, n, ⟨m, rfl⟩, hi⟩ := exists_eq_two_pow_mul_odd h.ne'
  exact ⟨k, m, hi⟩

theorem low_mul (k m : Nat) : low (2 ^ k * (2 * m + 1)) = 2 ^ k := by
  have hodd : ¬ 2 ∣ 2 * m + 1 := by omega
  rw [low, padicValNat.mul (Nat.two_pow_pos k).ne' (Nat.succ_ne_zero _), padicValNat.prime_pow,
    padicValNat.eq_zero_of_not_dvd hodd, add_zero]

theorem low_pos (i : Nat) : 0 < low i := Nat.two_pow_pos _

theorem low_le (h : 0 < i) : low i ≤ i := by
  obtain ⟨k, m, rfl⟩ := exists_low h
  rw [low_mul]
  exact Nat.le_mul_of_pos_right _ (Nat.succ_pos _)

/-- A multiple of a higher power keeps the lowest bit. -/
theorem low_add {k r : Nat} (hr : 0 < r) (h : r < 2 ^ k) (m : Nat) :
    low (2 ^ k * m + r) = low r := by
  obtain ⟨j, n, rfl⟩ := exists_low hr
  have hj : j < k := by
    by_contra hge
    have hpow := Nat.pow_le_pow_right (n := 2) (by decide) (Nat.le_of_not_lt hge)
    have hle := Nat.le_mul_of_pos_right (2 ^ j) (Nat.succ_pos (2 * n))
    simp only [succ_eq_add_one] at hle
    omega
  obtain ⟨c, rfl⟩ := Nat.exists_eq_add_of_lt hj
  have hsum : 2 ^ (j + c + 1) * m + 2 ^ j * (2 * n + 1) = 2 ^ j * (2 * (2 ^ c * m + n) + 1) := by
    rw [pow_succ, pow_add]
    ring
  rw [hsum, low_mul, low_mul]

/-- `i & -i` on machine words. -/
theorem toNat_and_neg {w i : Nat} (hi : 0 < i) (hw : i < 2 ^ w) :
    (BitVec.ofNat w i &&& -BitVec.ofNat w i).toNat = low i := by
  obtain ⟨k, m, rfl⟩ := exists_low hi
  have hk : 2 ^ k < 2 ^ w :=
    Nat.lt_of_le_of_lt (Nat.le_mul_of_pos_right _ (Nat.succ_pos _)) hw
  have hkw : k < w := (Nat.pow_lt_pow_iff_right (by decide)).mp hk
  have hbit : ∀ j, (2 ^ k * (2 * m + 1)).testBit j =
      (decide (k ≤ j) && (2 * m + 1).testBit (j - k)) := by
    intro j
    rw [testBit_two_pow_mul]
  have hword : BitVec.ofNat w (2 ^ k * (2 * m + 1)) &&& -BitVec.ofNat w (2 ^ k * (2 * m + 1))
      = BitVec.ofNat w (2 ^ k) := by
    apply BitVec.eq_of_getLsbD_eq
    intro j hj
    simp only [BitVec.getLsbD_and, BitVec.getLsbD_neg, BitVec.getLsbD_ofNat, hj, decide_true,
      Bool.true_and, hbit, testBit_two_pow]
    rcases lt_trichotomy j k with h | rfl | h
    · have h1 : decide (k ≤ j) = false := decide_eq_false (by omega)
      have h2 : decide (k = j) = false := decide_eq_false (by omega)
      rw [h1, h2, Bool.false_and, Bool.false_and]
    · have hnone : ¬ ∃ i < j, (decide (i < w) && (decide (j ≤ i) && (2 * m + 1).testBit (i - j))) =
          true := by
        rintro ⟨i, hij, h⟩
        have hfalse : decide (j ≤ i) = false := decide_eq_false (by omega)
        rw [hfalse, Bool.false_and, Bool.and_false] at h
        exact Bool.false_ne_true h
      rw [decide_eq_false hnone]
      simp
    · have hsome : ∃ i < j, (decide (i < w) && (decide (k ≤ i) && (2 * m + 1).testBit (i - k))) =
          true := by
        refine ⟨k, h, ?_⟩
        simp [hkw]
      have h2 : decide (k = j) = false := decide_eq_false (by omega)
      rw [decide_eq_true hsome, h2]
      cases (2 * m + 1).testBit (j - k) <;> simp
  rw [hword, low_mul, BitVec.toNat_ofNat, mod_eq_of_lt hk]

/-! ### Which nodes cover a place -/

/-- Node `i` sums over the place `d`. -/
def Covers (i d : Nat) : Prop := i - low i ≤ d ∧ d < i

instance (i d : Nat) : Decidable (Covers i d) := inferInstanceAs (Decidable (_ ∧ _))

theorem covers_self (d : Nat) : Covers (d + 1) d := by
  have := low_pos (d + 1)
  exact ⟨by omega, lt_succ_self d⟩

/-- Adding the lowest bit leads to a node over all that this one is over. -/
theorem Covers.next {i d : Nat} (h : Covers i d) : Covers (i + low i) d := by
  obtain ⟨hle, hlt⟩ := h
  obtain ⟨k, m, rfl⟩ := exists_low (zero_lt_of_lt hlt)
  have hnext : 2 ^ k * (2 * m + 1) + 2 ^ k = 2 ^ (k + 1) * (m + 1) := by
    rw [pow_succ]
    ring
  rw [low_mul] at hle ⊢
  rw [hnext]
  obtain ⟨j, n, hn⟩ := exists_low (succ_pos m)
  have hlow : 2 ^ (k + 1) ≤ low (2 ^ (k + 1) * (m + 1)) := by
    rw [show m + 1 = _ from hn, ← mul_assoc, ← pow_add, low_mul]
    exact Nat.pow_le_pow_right (by decide) (Nat.le_add_right _ _)
  exact ⟨by omega, by omega⟩

/-- No node between the two is over a place that the first is over. -/
theorem Covers.not_between {i d j : Nat} (h : Covers i d) (hij : i < j) (hj : j < i + low i) :
    ¬ Covers j d := by
  rintro ⟨hle, -⟩
  obtain ⟨-, hlt⟩ := h
  obtain ⟨k, m, rfl⟩ := exists_low (zero_lt_of_lt hlt)
  obtain ⟨r, rfl⟩ := Nat.exists_eq_add_of_lt hij
  rw [low_mul] at hj
  have hr : low (2 ^ k * (2 * m + 1) + (r + 1)) = low (r + 1) :=
    low_add (succ_pos r) (by omega) _
  rw [add_assoc, hr] at hle
  have := low_le (succ_pos r)
  simp only [succ_eq_add_one] at this
  omega

/-! ### Sums -/

section Sums

variable {M : Type*} [AddCommMonoid M]

/-- What node `i` sums. -/
def node (f : Nat → M) (i : Nat) : M := ∑ d ∈ Ico (i - low i) i, f d

/-- The sum of the first `n` values. -/
def below (f : Nat → M) (n : Nat) : M := ∑ d ∈ range n, f d

variable (f : Nat → M)

theorem below_succ (n : Nat) : below f (n + 1) = below f n + f n :=
  sum_range_succ f n

/-- A prefix is the node at its end and the prefix before that node. -/
theorem below_eq (i : Nat) : below f i = below f (i - low i) + node f i := by
  rw [below, below, node, range_eq_Ico, range_eq_Ico,
    sum_Ico_consecutive f (zero_le _) (sub_le _ _)]

/-- The value at a place changes the sums over the place. -/
theorem sum_update_add (s : Finset Nat) (d : Nat) (x : M) :
    ∑ i ∈ s, update f d (f d + x) i = ∑ i ∈ s, f i + if d ∈ s then x else 0 := by
  by_cases hmem : d ∈ s
  · rw [if_pos hmem, sum_update_of_mem hmem, sum_eq_add_sum_sdiff_singleton_of_mem hmem f,
      add_right_comm]
  · rw [if_neg hmem, add_zero, sum_update_of_notMem hmem]

theorem node_update (d : Nat) (x : M) (i : Nat) :
    node (update f d (f d + x)) i = node f i + if Covers i d then x else 0 :=
  (sum_update_add f _ d x).trans (congrArg _ (if_congr mem_Ico rfl rfl))

theorem below_update (d : Nat) (x : M) (n : Nat) :
    below (update f d (f d + x)) n = below f n + if d < n then x else 0 :=
  (sum_update_add f _ d x).trans (congrArg _ (if_congr mem_range rfl rfl))

/-- Values that are zero from `n` on add nothing. -/
theorem below_of_le {f : Nat → M} {n : Nat} (hzero : ∀ d, n ≤ d → f d = 0) (h : n ≤ i) :
    below f i = below f n :=
  (sum_subset (range_mono h) fun d _ hd => hzero d (by simpa using hd)).symm

theorem below_mono [PartialOrder M] [IsOrderedAddMonoid M] {f : Nat → M} (hf : ∀ d, 0 ≤ f d)
    {i j : Nat} (h : i ≤ j) : below f i ≤ below f j :=
  sum_le_sum_of_subset_of_nonneg (range_mono h) fun d _ _ => hf d

theorem le_node [PartialOrder M] [IsOrderedAddMonoid M] {f : Nat → M} (hf : ∀ d, 0 ≤ f d)
    {i d : Nat} (h : Covers i d) : f d ≤ node f i :=
  single_le_sum (fun j _ => hf j) (mem_Ico.mpr h)

end Sums

/-! ### Search -/

section Search

variable {M : Type*} [AddCommGroup M] [LinearOrder M] [IsOrderedAddMonoid M]

/-- The target lies above the first `result` values, `rest` above them, and not above the first
`result + width`. -/
structure Bracket (f : Nat → M) (target : M) (result : Nat) (rest : M) (width : Nat) : Prop where
  split : below f result + rest = target
  pos : 0 < rest
  within : target ≤ below f (result + width)

variable {f : Nat → M} {target rest : M} {result j : Nat}

omit [LinearOrder M] [IsOrderedAddMonoid M] in
/-- The node half a bracket further on sums that half. -/
theorem below_half (hmul : 2 ^ (j + 1) ∣ result) :
    below f (result + 2 ^ j) = below f result + node f (result + 2 ^ j) := by
  obtain ⟨a, rfl⟩ := hmul
  have hlow : low (2 ^ (j + 1) * a + 2 ^ j) = 2 ^ j := by
    have h := low_add (Nat.two_pow_pos j) (Nat.pow_lt_pow_succ Nat.one_lt_two) a
    rw [h]
    have hself := low_mul j 0
    rwa [mul_zero, zero_add, mul_one] at hself
  rw [below_eq f (2 ^ (j + 1) * a + 2 ^ j), hlow, Nat.add_sub_cancel]

theorem Bracket.take (h : Bracket f target result rest (2 ^ (j + 1)))
    (hmul : 2 ^ (j + 1) ∣ result) (hlt : node f (result + 2 ^ j) < rest) :
    Bracket f target (result + 2 ^ j) (rest - node f (result + 2 ^ j)) (2 ^ j) := by
  refine ⟨?_, sub_pos.mpr hlt, ?_⟩
  · rw [below_half hmul, add_assoc, add_sub_cancel]
    exact h.split
  · rw [add_assoc, ← two_mul, ← pow_succ']
    exact h.within

omit [IsOrderedAddMonoid M] in
theorem Bracket.stay (h : Bracket f target result rest (2 ^ (j + 1)))
    (hle : target ≤ below f (result + 2 ^ j)) : Bracket f target result rest (2 ^ j) :=
  ⟨h.split, h.pos, hle⟩

end Search

end Fenwick
