import Mathlib.Data.List.Nodup

/-!
# Arrays without an order

An array of `count` items in cells, to which one appends at the end and from which one removes by
moving the last item into the gap.  `items` is the list of what it holds; a removal at `i` takes
exactly one item away, the one at `i` or the last one (`perm_swapRemove`).
-/

/-- The cells behind `count` keep what was written there. -/
structure Bag (α : Type*) where
  cells : Nat → α
  count : Nat

namespace Bag

open Function List

variable {α β : Type*}

def items (b : Bag α) : List α := (range b.count).map b.cells

def push (b : Bag α) (a : α) : Bag α := ⟨update b.cells b.count a, b.count + 1⟩

def set (b : Bag α) (i : Nat) (a : α) : Bag α := { b with cells := update b.cells i a }

/-- `cells[i] = cells[--count]`. -/
def swapRemove (b : Bag α) (i : Nat) : Bag α :=
  ⟨update b.cells i (b.cells (b.count - 1)), b.count - 1⟩

/-- The first place of an item with `p`. -/
def find (b : Bag α) (p : α → Bool) : Option Nat :=
  (range b.count).find? fun i => p (b.cells i)

variable {b : Bag α} {a : α} {i : Nat} {p : α → Bool}

theorem mem_items : a ∈ b.items ↔ ∃ i < b.count, b.cells i = a := by
  simp only [items, mem_map, mem_range]

theorem find_eq_some (h : b.find p = some i) : i < b.count ∧ p (b.cells i) = true := by
  have hp := find?_some h
  exact ⟨mem_range.mp (mem_of_find?_eq_some h), hp⟩

theorem find_eq_none (h : b.find p = none) : ∀ a ∈ b.items, p a = false := by
  intro a ha
  obtain ⟨i, hi, rfl⟩ := mem_items.mp ha
  exact Bool.eq_false_iff.mpr (find?_eq_none.mp h i (mem_range.mpr hi))

theorem map_update_range {n : Nat} (cells : Nat → α) (hi : n ≤ i) :
    (range n).map (update cells i a) = (range n).map cells := by
  refine map_congr_left fun j hj => ?_
  have hlt := mem_range.mp hj
  exact update_of_ne (by omega) _ _

theorem items_push (b : Bag α) (a : α) : (b.push a).items = b.items ++ [a] := by
  rw [items, push, range_succ, map_append, map_update_range _ (Nat.le_refl _),
    map_singleton]
  exact congrArg (b.items ++ [·]) (update_self ..)

/-- The other items of a list of places. -/
theorem perm_update {n : Nat} (cells : Nat → α) (hi : i < n) (a : α) :
    ∃ rest, ((range n).map cells).Perm (cells i :: rest) ∧
      ((range n).map (update cells i a)).Perm (a :: rest) := by
  have hperm : (range n).Perm (i :: (range n).erase i) :=
    perm_cons_erase (mem_range.mpr hi)
  refine ⟨((range n).erase i).map cells, hperm.map cells, ?_⟩
  have hrest : ((range n).erase i).map (update cells i a)
      = ((range n).erase i).map cells := by
    refine map_congr_left fun j hj => update_of_ne ?_ _ _
    rintro rfl
    exact nodup_range.not_mem_erase hj
  have := hperm.map (update cells i a)
  rwa [map_cons, update_self, hrest] at this

/-- **A removal** takes the item at `i` away, or the last one if `i` is behind it. -/
theorem perm_swapRemove (hpos : 0 < b.count) (i : Nat) :
    b.items.Perm (b.cells (min i (b.count - 1)) :: (b.swapRemove i).items) := by
  obtain ⟨n, hn⟩ : ∃ n, b.count = n + 1 := ⟨b.count - 1, by omega⟩
  have hlast : b.items = (range n).map b.cells ++ [b.cells n] := by
    rw [items, hn, range_succ, map_append, map_singleton]
  have hrem : (b.swapRemove i).items = (range n).map (update b.cells i (b.cells n)) := by
    rw [items, swapRemove, hn, Nat.add_sub_cancel]
  rw [hlast, hrem, hn, Nat.add_sub_cancel]
  rcases Nat.lt_or_ge i n with hlt | hge
  · rw [Nat.min_eq_left (Nat.le_of_lt hlt)]
    obtain ⟨rest, hold, hnew⟩ := perm_update b.cells hlt (b.cells n)
    -- both hold the item at `i`, the last one and the rest
    have hbefore : ((range n).map b.cells ++ [b.cells n]).Perm
        (b.cells n :: b.cells i :: rest) :=
      perm_append_comm.trans (hold.cons _)
    exact hbefore.trans ((Perm.swap ..).trans (hnew.symm.cons _))
  · rw [Nat.min_eq_right hge, map_update_range _ hge]
    exact perm_append_comm

theorem perm_swapRemove_of_lt (hi : i < b.count) :
    b.items.Perm (b.cells i :: (b.swapRemove i).items) := by
  have h := perm_swapRemove (Nat.lt_of_le_of_lt (Nat.zero_le i) hi) i
  rwa [Nat.min_eq_left (by omega)] at h

end Bag
