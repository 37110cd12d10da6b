import Mathlib.Data.List.GetD
import Mathlib.Data.Set.Function

/-!
# Hash rings

Entries with keys from a linear order, arranged in a circle.  The owner of a point `h` is the entry
that comes first when one goes round from `h`: the least key that is not below `h`, and the
least key of all if there is none.

An owner stays the owner when other entries are taken away (`Owner.of_subset`).  So two rings, one
of which has all entries of the other, give a point to the same entry or to one that only the
larger ring has (`Owner.eq_or_not_mem`).

`bisect` is the search for the owner in a sorted list.
-/

namespace HashRing

open List

/-! ### Owners -/

section Owner

variable {α K : Type*} [LinearOrder K] (key : α → K) (h : K)

/-- From `h` on, `a` comes before `b` or at the same place. -/
def Before (a b : α) : Prop := (h ≤ key a ∧ key b < h) ∨ ((h ≤ key a ↔ h ≤ key b) ∧ key a ≤ key b)

def Owner (s : Set α) (e : α) : Prop := e ∈ s ∧ ∀ e' ∈ s, Before key h e e'

variable {key h} {s t : Set α} {e e' : α}

theorem Before.antisymm {a b : α} (hab : Before key h a b) (hba : Before key h b a) :
    key a = key b := by
  rcases hab with ⟨ha, hb⟩ | ⟨hiff, hab⟩
  · rcases hba with ⟨hb', -⟩ | ⟨hiff, -⟩
    · exact absurd hb (not_lt_of_ge hb')
    · exact absurd hb (not_lt_of_ge (hiff.mpr ha))
  · rcases hba with ⟨hb, ha⟩ | ⟨-, hba⟩
    · exact absurd ha (not_lt_of_ge (hiff.mpr hb))
    · exact le_antisymm hab hba

theorem Owner.of_subset (howner : Owner key h t e) (hsub : s ⊆ t) (hmem : e ∈ s) :
    Owner key h s e :=
  ⟨hmem, fun e' he' => howner.2 e' (hsub he')⟩

theorem Owner.unique (hinj : Set.InjOn key s) (ha : Owner key h s e) (hb : Owner key h s e') :
    e = e' :=
  hinj ha.1 hb.1 ((ha.2 e' hb.1).antisymm (hb.2 e ha.1))

/-- **Few points move** between a ring and a larger one. -/
theorem Owner.eq_or_not_mem (hinj : Set.InjOn key s) (hsub : s ⊆ t)
    (hsmall : Owner key h s e) (hlarge : Owner key h t e') : e = e' ∨ e' ∉ s := by
  by_cases hmem : e' ∈ s
  · exact .inl (hsmall.unique hinj (hlarge.of_subset hsub hmem))
  · exact .inr hmem

end Owner

/-! ### Bisection -/

/-- Looks for the first place from `lo` to `hi` where `p` holds, and remembers the last one
it has seen. -/
def bisect (p : Nat → Bool) (lo hi : Int) (found : Nat) : Nat :=
  if lo ≤ hi then
    let mid := (lo + hi) / 2
    if p mid.toNat then bisect p lo (mid - 1) mid.toNat
    else bisect p (mid + 1) hi found
  else found
termination_by (hi - lo + 1).toNat

/-- The first place below `n` where `p` holds, or `d` if there is none. -/
def First (p : Nat → Bool) (n d r : Nat) : Prop :=
  (r < n ∧ p r = true ∧ ∀ i < r, p i = false) ∨ (r = d ∧ ∀ i < n, p i = false)

variable {p : Nat → Bool} {n d : Nat}

/-- The rounds keep: `p` fails below `lo`, and `found` is where it was, or right behind `hi` and
a place where `p` holds. -/
theorem bisect_first (hmono : ∀ i j, i ≤ j → j < n → p i = true → p j = true) :
    ∀ (lo hi : Int) (found : Nat), 0 ≤ lo → lo ≤ hi + 1 → hi < n →
      (∀ i : Nat, (i : Int) < lo → p i = false) →
      ((hi = n - 1 ∧ found = d) ∨ ((found : Int) = hi + 1 ∧ found < n ∧ p found = true)) →
      First p n d (bisect p lo hi found) := by
  intro lo hi found
  induction lo, hi, found using bisect.induct p with
  | case1 lo hi found hle mid hp ih =>
    intro hlo _ hhi hbelow _
    rw [bisect, if_pos hle]
    rw [if_pos hp]
    refine ih hlo (by omega) (by omega) hbelow (.inr ⟨by omega, by omega, hp⟩)
  | case2 lo hi found hle mid hp ih =>
    intro hlo _ hhi hbelow hfound
    rw [bisect, if_pos hle]
    dsimp only
    rw [if_neg hp]
    refine ih (by omega) (by omega) hhi (fun i hi' => ?_) hfound
    -- what holds at `i` would hold at the middle
    by_contra hpi
    rw [Bool.not_eq_false] at hpi
    exact hp (hmono i mid.toNat (by omega) (by omega) hpi)
  | case3 lo hi found hle =>
    intro hlo hle' hhi hbelow hfound
    rw [bisect, if_neg hle]
    rcases hfound with ⟨hend, rfl⟩ | ⟨hnext, hlt, hp⟩
    · exact .inr ⟨rfl, fun i hi => hbelow i (by omega)⟩
    · exact .inl ⟨hlt, hp, fun i hi => hbelow i (by omega)⟩

section Search

variable {α K : Type*} [LinearOrder K] {key : α → K} {h : K} {l : List α}

variable (hsorted : l.Pairwise fun a b => key a ≤ key b)
include hsorted

theorem key_getD_le (dflt : α) {i j : Nat}
    (hij : i ≤ j) (hj : j < l.length) : key (l.getD i dflt) ≤ key (l.getD j dflt) := by
  rw [getD_eq_getElem _ _ hj, getD_eq_getElem _ _ (Nat.lt_of_le_of_lt hij hj)]
  rcases Nat.lt_or_eq_of_le hij with hlt | rfl
  · exact pairwise_iff_getElem.mp hsorted i j _ hj hlt
  · exact le_refl _

/-- The first entry that is not below `h`, or the first one of all, is the owner of `h`. -/
theorem owner_of_first (hpos : 0 < l.length)
    (dflt : α) {r : Nat} (hr : First (fun i => decide (h ≤ key (l.getD i dflt))) l.length 0 r) :
    Owner key h {e | e ∈ l} (l.getD r dflt) := by
  have hmem : ∀ i, i < l.length → l.getD i dflt ∈ l := by
    intro i hi
    rw [getD_eq_getElem _ _ hi]
    exact getElem_mem hi
  have hentry : ∀ e ∈ l, ∃ j, j < l.length ∧ e = l.getD j dflt := by
    intro e he
    obtain ⟨j, hj, rfl⟩ := getElem_of_mem he
    exact ⟨j, hj, (getD_eq_getElem _ _ hj).symm⟩
  simp only [First, decide_eq_true_eq, decide_eq_false_iff_not, not_le] at hr
  rcases hr with ⟨hlt, hge, hbelow⟩ | ⟨rfl, hbelow⟩
  · refine ⟨hmem r hlt, fun e he => ?_⟩
    obtain ⟨j, hj, rfl⟩ := hentry e he
    rcases Nat.lt_or_ge j r with hjr | hrj
    · exact .inl ⟨hge, hbelow j hjr⟩
    · have hle := key_getD_le hsorted dflt hrj hj
      exact .inr ⟨iff_of_true hge (le_trans hge hle), hle⟩
  · refine ⟨hmem 0 hpos, fun e he => ?_⟩
    obtain ⟨j, hj, rfl⟩ := hentry e he
    exact .inr ⟨iff_of_false (not_le_of_gt (hbelow 0 hpos)) (not_le_of_gt (hbelow j hj)),
      key_getD_le hsorted dflt (Nat.zero_le j) hj⟩

omit hsorted in
theorem First.lt {p : Nat → Bool} {n r : Nat} (hr : First p n 0 r) (hpos : 0 < n) : r < n := by
  rcases hr with ⟨hlt, -⟩ | ⟨rfl, -⟩
  · exact hlt
  · exact hpos

/-- **The search** in a sorted list finds the owner. -/
theorem bisect_sorted (hpos : 0 < l.length)
    (dflt : α) : First (fun i => decide (h ≤ key (l.getD i dflt))) l.length 0
      (bisect (fun i => decide (h ≤ key (l.getD i dflt))) 0 (l.length - 1) 0) := by
  refine bisect_first ?_ 0 _ 0 (by omega) (by omega) (by omega) (fun i hi => by omega)
    (.inl ⟨rfl, rfl⟩)
  intro i j hij hj hi
  rw [decide_eq_true_eq] at hi ⊢
  exact le_trans hi (key_getD_le hsorted dflt hij hj)

omit hsorted

end Search

end HashRing
