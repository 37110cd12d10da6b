import Mathlib.Algebra.BigOperators.Group.Finset.Piecewise
import Mathlib.Algebra.Order.BigOperators.Group.Finset

/-!
# Arrays of optional cells

A table whose cells are free or hold a value is a function `c : ι → Option α`
read on a finite index set `U`.  What such a table stores, with the places
forgotten, is the multiset `contents U c`.

The three ways a cell changes are three equations on `contents`: filling a free
cell adds a value (`contents_fill`), clearing one removes it (`contents_clear`),
and rewriting one exchanges it (`contents_rewrite`).  Counters kept beside the
table are `Multiset.card` and sums over `contents`.
-/

namespace Cells

open Function List Option

variable {ι α : Type*} {U : Finset ι} {c : ι → Option α}

/-- The values held in the cells of `U`, with multiplicity. -/
def contents (U : Finset ι) (c : ι → Option α) : Multiset α :=
  ∑ i ∈ U, (c i).elim 0 (fun a => {a})

theorem mem_contents {a : α} : a ∈ contents U c ↔ ∃ i ∈ U, c i = some a := by
  rw [contents, Multiset.mem_sum]
  refine exists_congr fun i => and_congr_right fun _ => ?_
  cases hc : c i with
  | none => simp
  | some b => simp [eq_comm]

theorem contents_empty (U : Finset ι) : contents U (fun _ => (none : Option α)) = 0 := by
  simp [contents]

theorem filter_sum (s : Finset ι) (f : ι → Multiset α) (p : α → Prop) [DecidablePred p] :
    (∑ i ∈ s, f i).filter p = ∑ i ∈ s, (f i).filter p := by
  classical
  induction s using Finset.induction_on with
  | empty => simp
  | insert i s hi ih => rw [Finset.sum_insert hi, Finset.sum_insert hi, Multiset.filter_add, ih]

/-- Sorting values into rows and collecting the rows loses nothing. -/
theorem sum_filter_rows {m : Nat} {f : α → Nat} {M : Multiset α} (h : ∀ a ∈ M, f a < m) :
    ∑ j ∈ Finset.range m, M.filter (fun a => f a = j) = M := by
  induction M using Multiset.induction with
  | empty => simp
  | cons a M ih =>
    have ha : f a < m := h a (Multiset.mem_cons_self a M)
    have hrow : ∀ j, (a ::ₘ M).filter (fun b => f b = j)
        = (if f a = j then {a} else 0) + M.filter (fun b => f b = j) := by
      intro j
      rw [Multiset.filter_cons]
    rw [Finset.sum_congr rfl fun j _ => hrow j, Finset.sum_add_distrib,
      ih fun b hb => h b (Multiset.mem_cons_of_mem hb), Finset.sum_ite_eq,
      if_pos (Finset.mem_range.mpr ha), Multiset.singleton_add]

/-! ### Writing a cell -/

section Write

variable [DecidableEq ι] {i : ι}

/-- Reading the cells in any order gives the contents. -/
theorem contents_toFinset {l : List ι} (hl : l.Nodup) (c : ι → Option α) :
    contents l.toFinset c = (l.filterMap c : Multiset α) := by
  rw [contents, sum_toFinset _ hl]
  clear hl
  induction l with
  | nil => rfl
  | cons i l ih =>
    rw [map_cons, sum_cons, ih, filterMap_cons]
    cases c i with
    | none => simp
    | some a => simp

theorem contents_erase_add (c : ι → Option α) (hi : i ∈ U) :
    contents (U.erase i) c + (c i).elim 0 (fun a => {a}) = contents U c :=
  Finset.sum_erase_add U _ hi

theorem contents_erase_update (c : ι → Option α) (i : ι) (x : Option α) :
    contents (U.erase i) (update c i x) = contents (U.erase i) c := by
  refine Finset.sum_congr rfl fun j hj => ?_
  rw [update_of_ne (Finset.ne_of_mem_erase hj)]

/-- What one write to a cell does to the contents. -/
theorem contents_update (c : ι → Option α) (hi : i ∈ U) (x : Option α) :
    contents U (update c i x) = contents (U.erase i) c + x.elim 0 (fun a => {a}) := by
  rw [← contents_erase_add (update c i x) hi, contents_erase_update,
    update_self]

theorem contents_rewrite (hi : i ∈ U) (b : α) :
    contents U (update c i (some b))
      = b ::ₘ contents U (update c i none) := by
  rw [contents_update c hi, contents_update c hi]
  simp only [elim_some, elim_none, add_zero]
  rw [add_comm, Multiset.singleton_add]

theorem contents_fill (hi : i ∈ U) (hc : c i = none)
    (a : α) : contents U (update c i (some a)) = a ::ₘ contents U c := by
  rw [contents_rewrite hi, ← hc, update_eq_self]

theorem contents_clear (hi : i ∈ U) {a : α}
    (hc : c i = some a) : contents U c = a ::ₘ contents U (update c i none) := by
  rw [← contents_rewrite hi, ← hc, update_eq_self]

end Write

/-! ### Counting -/

theorem card_contents (U : Finset ι) (c : ι → Option α) :
    (contents U c).card = ∑ i ∈ U, (c i).elim 0 (fun _ => 1) := by
  rw [contents, Multiset.card_sum]
  refine Finset.sum_congr rfl fun i _ => ?_
  cases c i <;> simp

theorem card_contents_le (U : Finset ι) (c : ι → Option α) : (contents U c).card ≤ U.card := by
  rw [card_contents, Finset.card_eq_sum_ones]
  refine Finset.sum_le_sum fun i _ => ?_
  cases c i <;> simp

/-- A table with fewer values than cells has a free cell. -/
theorem exists_free_of_card_lt (h : (contents U c).card < U.card) : ∃ i ∈ U, c i = none := by
  by_contra hfull
  push Not at hfull
  have hall : (contents U c).card = U.card := by
    rw [card_contents, Finset.card_eq_sum_ones]
    refine Finset.sum_congr rfl fun i hi => ?_
    obtain ⟨a, ha⟩ := ne_none_iff_exists'.mp (hfull i hi)
    simp [ha]
  omega

/-- A free cell is the reason for fewer values than cells. -/
theorem card_contents_lt_iff [DecidableEq ι] :
    (contents U c).card < U.card ↔ ∃ i ∈ U, c i = none := by
  constructor
  · exact exists_free_of_card_lt
  · rintro ⟨i, hi, hfree⟩
    have hle := card_contents_le (U.erase i) c
    rw [Finset.card_erase_of_mem hi] at hle
    have hpos : 0 < U.card := Finset.card_pos.mpr ⟨i, hi⟩
    rw [← contents_erase_add c hi, hfree, elim_none, add_zero]
    omega

end Cells
