import Mathlib.Tactic.Common

/-!
# Buckets with an occupancy mask

A bucket is a row of slots beside an eight-bit mask of those in use.  Slots are
written and bits are set and cleared separately; `cell` is what the two say
together, and the three combined writes are `Function.update`s of it.
-/

/-- Up to eight slots and the mask of those in use. -/
structure Masked (α : Type) where
  slots : Nat → α
  occupancy : BitVec 8

namespace Masked

open Function BitVec

variable {α : Type} {s : Nat}

/-- `(occupancy >> s) & 1`. -/
def occupied (b : Masked α) (s : Nat) : Bool := b.occupancy.getLsbD s

/-- Writes a slot without touching the mask. -/
def setSlot (b : Masked α) (s : Nat) (sl : α) : Masked α :=
  { b with slots := Function.update b.slots s sl }

/-- `occupancy |= (1U << s)`. -/
def mark (b : Masked α) (s : Nat) : Masked α :=
  { b with occupancy := b.occupancy ||| (1#8 <<< s) }

/-- `occupancy &= ~(1U << s)`. -/
def unmark (b : Masked α) (s : Nat) : Masked α :=
  { b with occupancy := b.occupancy &&& ~~~(1#8 <<< s) }

/-- The slot at `s` if its bit is set. -/
def cell (b : Masked α) (s : Nat) : Option α :=
  if b.occupied s then some (b.slots s) else none

variable (b : Masked α)

/-- A bucket that differs at one slot and its bit. -/
theorem cell_eq_update {b' : Masked α} (hocc : ∀ j ≠ s, b'.occupied j = b.occupied j)
    (hslot : ∀ j ≠ s, b'.slots j = b.slots j) : b'.cell = update b.cell s (b'.cell s) := by
  refine eq_update_iff.mpr ⟨rfl, fun j hj => ?_⟩
  rw [cell, cell, hocc j hj, hslot j hj]

variable (hs : s < 8)
include hs

theorem occupied_mark (j : Nat) : (b.mark s).occupied j = (decide (j = s) || b.occupied j) := by
  simp only [occupied, mark, getLsbD_or, getLsbD_shiftLeft, getLsbD_one]
  by_cases hj : j = s
  · subst hj; simp [hs]
  · cases b.occupancy.getLsbD j <;> simp [hj]
    omega

theorem occupied_unmark (j : Nat) :
    (b.unmark s).occupied j = (!decide (j = s) && b.occupied j) := by
  simp only [occupied, unmark, getLsbD_and, getLsbD_not, getLsbD_shiftLeft,
    getLsbD_one]
  by_cases hj : j = s
  · subst hj; simp [hs]
  · by_cases hj8 : j < 8
    · simp only [hj8, hj, decide_true, decide_false, Bool.true_and, Bool.not_false]
      cases b.occupancy.getLsbD j <;> simp
      omega
    · simp [getLsbD_of_ge _ _ (Nat.le_of_not_lt hj8)]

/-- Writing a slot and setting its bit fills the cell. -/
theorem cell_mark_setSlot (sl : α) :
    ((b.setSlot s sl).mark s).cell = update b.cell s (some sl) := by
  have hself : ((b.setSlot s sl).mark s).cell s = some sl := by
    rw [cell, occupied_mark _ hs]
    simp [mark, setSlot]
  rw [← hself]
  refine b.cell_eq_update (fun j hj => ?_) fun j hj => update_of_ne hj ..
  rw [occupied_mark _ hs, decide_eq_false hj]
  rfl

/-- Whatever is left in the slot, clearing its bit empties the cell. -/
theorem cell_unmark_setSlot (sl : α) : ((b.setSlot s sl).unmark s).cell = update b.cell s none := by
  have hself : ((b.setSlot s sl).unmark s).cell s = none := by
    rw [cell, occupied_unmark _ hs]
    simp
  rw [← hself]
  refine b.cell_eq_update (fun j hj => ?_) fun j hj => update_of_ne hj ..
  rw [occupied_unmark _ hs, decide_eq_false hj]
  rfl

theorem cell_unmark : (b.unmark s).cell = update b.cell s none := by
  have h := b.cell_unmark_setSlot hs (b.slots s)
  rwa [setSlot, update_eq_self] at h

omit hs

/-- The mask has eight bits. -/
theorem lt_of_occupied {b : Masked α} (h : b.occupied s = true) : s < 8 := by
  by_contra hs
  rw [occupied, getLsbD_of_ge _ _ (Nat.le_of_not_lt hs)] at h
  cases h

theorem cell_eq_some_iff {b : Masked α} {a : α} :
    b.cell s = some a ↔ b.occupied s = true ∧ b.slots s = a := by
  rw [cell]
  cases b.occupied s <;> simp

theorem cell_eq_none_iff {b : Masked α} : b.cell s = none ↔ b.occupied s = false := by
  rw [cell]
  cases b.occupied s <;> simp

/-- Rewriting a slot in use rewrites its cell. -/
theorem cell_setSlot (h : b.occupied s = true) (sl : α) :
    (b.setSlot s sl).cell = update b.cell s (some sl) := by
  have hself : (b.setSlot s sl).cell s = some sl := cell_eq_some_iff.mpr ⟨h, update_self ..⟩
  rw [← hself]
  exact b.cell_eq_update (fun _ _ => rfl) fun j hj => update_of_ne hj ..

end Masked
