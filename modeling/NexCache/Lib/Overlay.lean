import Mathlib.Logic.Function.Basic

/-!
# One map over another

`overlay upper lower` is what a reader sees who asks `upper` first and `lower` only if
`upper` has nothing.  A write to `upper` is a write to the overlay; a write to `lower` is
one only where `upper` holds nothing, and a removal from `upper` only where `lower` does.
-/

namespace Overlay

open Function

variable {K V : Type*}

/-- What `upper` holds, and below it what `lower` holds. -/
def overlay (upper lower : K → Option V) (k : K) : Option V := (upper k).or (lower k)

variable {upper lower : K → Option V} {k : K}

theorem overlay_of_none (h : upper k = none) : overlay upper lower k = lower k := by
  rw [overlay, h, Option.none_or]

theorem overlay_of_some {v : V} (h : upper k = some v) : overlay upper lower k = some v := by
  rw [overlay, h, Option.some_or]

theorem overlay_eq_none : overlay upper lower k = none ↔ upper k = none ∧ lower k = none :=
  Option.or_eq_none_iff

variable [DecidableEq K]

/-- Maps that agree outside `k` have overlays that agree outside `k`. -/
theorem overlay_update {upper' lower' : K → Option V} {o : Option V}
    (hupper : ∀ k', k' ≠ k → upper' k' = upper k') (hlower : ∀ k', k' ≠ k → lower' k' = lower k')
    (hk : overlay upper' lower' k = o) :
    overlay upper' lower' = update (overlay upper lower) k o := by
  funext k'
  by_cases hne : k' = k
  · subst hne
    rw [update_self, hk]
  · rw [update_of_ne hne, overlay, overlay, hupper k' hne, hlower k' hne]

theorem overlay_update_upper (v : V) : overlay (update upper k (some v)) lower
    = update (overlay upper lower) k (some v) :=
  overlay_update (fun _ hne => update_of_ne hne ..) (fun _ _ => rfl)
    (overlay_of_some (update_self ..))

theorem overlay_update_lower (h : upper k = none) (o : Option V) :
    overlay upper (update lower k o) = update (overlay upper lower) k o := by
  refine overlay_update (fun _ _ => rfl) (fun _ hne => update_of_ne hne ..) ?_
  rw [overlay_of_none h, update_self]

/-- Removal from `upper` uncovers what `lower` holds. -/
theorem overlay_update_none (h : lower k = none) : overlay (update upper k none) lower
    = update (overlay upper lower) k none := by
  refine overlay_update (fun _ hne => update_of_ne hne ..) (fun _ _ => rfl) ?_
  rw [overlay_of_none (update_self ..), h]

end Overlay
