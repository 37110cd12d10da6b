import NexCache.NexDash.Contents

/-!
# Directory doubling loses nothing

An entry lives in the segment `keyHash mod dirSize` (`Shape.home`).  Doubling the
directory sends it to `keyHash mod 2 * dirSize`, and

    (h mod 2n) mod n = h mod n,

so a new segment only receives entries of one old segment: at most 224, which is
what a segment holds.  The branch of `nd_resize` that drops an entry is never
taken, and the new table has the contents of the old one (`ndResize_spec`).

The rehash counts every moved entry in `item_count` once more: the third clause of
`ndResize_spec`.
-/

namespace NexCache.NexDash

open Machine Function NexDashSegment List

/-- What every operation keeps, whatever it is given: entries are in their home
segment, and the segment counters are exact. -/
structure Shape (t : NexDashTable) : Prop where
  dirPos : 0 < t.dirSize
  home : ∀ p ∈ positions t.dirSize, ∀ sl, t.cell p = some sl → sl.keyHash % t.dirSize = p.1
  counts : ∀ si < t.dirSize, (t.directory si).itemCount = (t.directory si).contents.card

/-! ### Segment counters -/

variable {seg : NexDashSegment} {i : Nat × Nat}

theorem counts_removedSegment (hi : i ∈ slotIdx) {sl : NexDashSlot} (hc : seg.cell i = some sl)
    (h : seg.itemCount = seg.contents.card) :
    (removedSegment seg i).itemCount = (removedSegment seg i).contents.card := by
  have hcons : seg.contents = sl ::ₘ (removedSegment seg i).contents := by
    rw [contents, contents, cell_removedSegment seg hi]
    exact Cells.contents_clear hi hc
  rw [hcons, Multiset.card_cons] at h
  rw [removedSegment, decr32, h, if_neg (Nat.succ_ne_zero _)]
  rfl

theorem contents_filledSegment (hi : i ∈ slotIdx) (hc : seg.cell i = none) (sl : NexDashSlot) :
    (filledSegment seg i sl).contents = sl ::ₘ seg.contents := by
  rw [contents, contents, cell_filledSegment seg hi]
  exact Cells.contents_fill hi hc sl

theorem counts_filledSegment (hi : i ∈ slotIdx) (hc : seg.cell i = none) (sl : NexDashSlot)
    (h : seg.itemCount = seg.contents.card) :
    (filledSegment seg i sl).itemCount = (filledSegment seg i sl).contents.card := by
  have hle := seg.card_contents_le
  rw [NEXDASH_SEGMENT_ITEMS, NEXDASH_BUCKET_COUNT, NEXDASH_SLOT_COUNT] at hle
  rw [contents_filledSegment hi hc, Multiset.card_cons]
  show incr32 seg.itemCount = _
  rw [h, incr32, u32_of_lt (by omega)]

/-! ### Home segments -/

variable {t : NexDashTable}

/-- The entries whose hash leads to segment `i` are the entries of segment `i`. -/
theorem Shape.filter_home (hs : Shape t) {i : Nat} (hi : i < t.dirSize) :
    t.contents.filter (fun sl => sl.keyHash % t.dirSize = i) = (t.directory i).contents := by
  have hseg : ∀ si ∈ Finset.range t.dirSize, ∀ sl ∈ (t.directory si).contents,
      sl.keyHash % t.dirSize = si := by
    intro si hsi sl hsl
    obtain ⟨j, hj, hcell⟩ := Cells.mem_contents.mp hsl
    exact hs.home (si, j) (mem_positions.mpr ⟨Finset.mem_range.mp hsi, hj⟩) sl hcell
  rw [t.contents_eq_sum, Cells.filter_sum,
    Finset.sum_eq_single_of_mem i (Finset.mem_range.mpr hi)]
  · rw [Multiset.filter_eq_self]
    exact hseg i (Finset.mem_range.mpr hi)
  · intro si hsi hne
    rw [Multiset.filter_eq_nil]
    intro sl hsl he
    exact hne ((hseg si hsi sl hsl).symm.trans he)

/-- **The arithmetic behind the rehash**: what one new segment receives fits. -/
theorem Shape.filter_double_le (hs : Shape t) (j : Nat) :
    (t.contents.filter (fun sl => sl.keyHash % (t.dirSize * 2) = j)).card
      ≤ NEXDASH_SEGMENT_ITEMS := by
  have hsub : t.contents.filter (fun sl => sl.keyHash % (t.dirSize * 2) = j)
      ≤ t.contents.filter (fun sl => sl.keyHash % t.dirSize = j % t.dirSize) := by
    refine Multiset.monotone_filter_right _ fun sl he => ?_
    rw [← he, Nat.mod_mul_right_mod]
  refine (Multiset.card_le_card hsub).trans ?_
  rw [hs.filter_home (Nat.mod_lt _ hs.dirPos)]
  exact card_contents_le _

/-! ### The rehash loop -/

/-- The state of the rehash after the entries `done`. -/
structure Rehashed (t : NexDashTable) (newDirSize : Nat) (done : List NexDashSlot)
    (acc : NexDashTable × (Nat → NexDashSegment)) : Prop where
  table : acc.1 = { t with itemCount := incr32^[done.length] t.itemCount }
  contents : ∀ j, (acc.2 j).contents
    = (done.filter (fun sl => sl.keyHash % newDirSize = j) : Multiset NexDashSlot)
  counts : ∀ j, (acc.2 j).itemCount = (acc.2 j).contents.card

theorem rehashed_nil (t : NexDashTable) (newDirSize : Nat) :
    Rehashed t newDirSize [] (t, fun _ => .zero) where
  table := rfl
  contents := fun _ => contents_zero
  counts := fun _ => by
    rw [contents_zero]
    rfl

theorem contents_setSlot_filled (hi : i ∈ slotIdx) (hc : seg.cell i = none)
    (fresh sl : NexDashSlot) :
    ((filledSegment seg i fresh).setSlot i sl).contents = sl ::ₘ seg.contents := by
  have hfill := cell_filledSegment seg hi fresh
  have hocc : ((filledSegment seg i fresh).buckets i.1).occupied i.2 = true := by
    have h := congrFun hfill i
    rw [update_self, cell, Masked.cell] at h
    by_contra hn
    rw [if_neg hn] at h
    simp at h
  rw [contents, contents, cell_setSlot hocc, hfill,
    update_idem]
  exact Cells.contents_fill hi hc sl

variable {n : Nat} {arenaOk : Bool}

/-- One more entry, as long as its new segment is not full. -/
theorem Rehashed.step {done : List NexDashSlot} {acc : NexDashTable × (Nat → NexDashSegment)}
    (h : Rehashed t n done acc) (sl : NexDashSlot)
    (hroom : (done.filter (fun s => s.keyHash % n = sl.keyHash % n)).length
      < NEXDASH_SEGMENT_ITEMS) :
    Rehashed t n (done ++ [sl]) (ndRehashSlot n acc sl) := by
  have hcard : (acc.2 (sl.keyHash % n)).contents.card < slotIdx.card := by
    rw [h.contents, card_slotIdx, Multiset.coe_card]
    exact hroom
  obtain ⟨free, hfree, hnone⟩ := Cells.exists_free_of_card_lt hcard
  cases hins : ndInsertIntoSegment acc.1 (acc.2 (sl.keyHash % n)) (bktStartOf sl.keyHash)
      sl.keyHash none with
  | diverges => exact absurd hins (ndInsertIntoSegment_none_ne_diverges _ _ _ _)
  | full => exact absurd hnone (ndInsertIntoSegment_full.mp hins free hfree)
  | placed t' seg' i =>
    obtain ⟨hi, hempty, rfl, cap, rfl, _⟩ := ndInsertIntoSegment_placed hins
    have hnew := contents_setSlot_filled hi hempty
      (ndFreshSlot acc.1.keyPool.length sl.keyHash none) sl
    have hstep : ndRehashSlot n acc sl = (insertedTable acc.1 sl.keyHash none cap,
        update acc.2 (sl.keyHash % n)
          ((filledSegment (acc.2 (sl.keyHash % n)) i
            (ndFreshSlot acc.1.keyPool.length sl.keyHash none)).setSlot i sl)) := by
      rw [ndRehashSlot, hins]
    rw [hstep]
    refine ⟨?_, fun j => ?_, fun j => ?_⟩
    · rw [insertedTable, h.table, length_append, length_singleton,
        Function.iterate_succ_apply']
    · by_cases hj : j = sl.keyHash % n
      · subst hj
        simp only [update_self]
        rw [hnew, h.contents, filter_append]
        simp [← Multiset.coe_add, Multiset.add_comm]
      · simp only [update_of_ne hj]
        rw [h.contents, filter_append]
        simp [Ne.symm hj]
    · by_cases hj : j = sl.keyHash % n
      · subst hj
        simp only [update_self]
        rw [hnew, ← contents_filledSegment hi hempty sl,
          ← counts_filledSegment hi hempty sl (h.counts _)]
        rfl
      · simp only [update_of_ne hj]
        exact h.counts j

theorem Rehashed.run (todo : List NexDashSlot) :
    ∀ {done : List NexDashSlot} {acc : NexDashTable × (Nat → NexDashSegment)},
      Rehashed t n done acc →
      (∀ j, ((done ++ todo).filter (fun s => s.keyHash % n = j)).length
        ≤ NEXDASH_SEGMENT_ITEMS) →
      Rehashed t n (done ++ todo) (todo.foldl (ndRehashSlot n) acc) := by
  induction todo with
  | nil => intro done acc h _; rw [append_nil]; exact h
  | cons sl rest ih =>
    intro done acc h hfit
    have hroom : (done.filter (fun s => s.keyHash % n = sl.keyHash % n)).length
        < NEXDASH_SEGMENT_ITEMS := by
      have := hfit (sl.keyHash % n)
      rw [filter_append, filter_cons_of_pos (by simp), length_append,
        length_cons] at this
      omega
    have hnext := ih (h.step sl hroom) (by rwa [append_assoc, singleton_append])
    rwa [append_assoc, singleton_append] at hnext

/-! ### The doubled table -/

theorem ndRehash_eq (t : NexDashTable) (n : Nat) :
    ndRehash t n = ((slotOrder t.dirSize).filterMap t.cell).foldl (ndRehashSlot n)
      (t, fun _ => .zero) := by
  rw [ndRehash, foldl_filterMap]
  refine congrArg (fun f => List.foldl f _ _) ?_
  funext acc p
  cases t.cell p <;> rfl

theorem rehashed_ndRehash (hs : Shape t) :
    Rehashed t (t.dirSize * 2) ((slotOrder t.dirSize).filterMap t.cell)
      (ndRehash t (t.dirSize * 2)) := by
  have hfit : ∀ j, (([] ++ (slotOrder t.dirSize).filterMap t.cell).filter
      (fun s : NexDashSlot => s.keyHash % (t.dirSize * 2) = j)).length
        ≤ NEXDASH_SEGMENT_ITEMS := by
    intro j
    have := hs.filter_double_le j
    rw [t.contents_eq_slotOrder, Multiset.filter_coe, Multiset.coe_card] at this
    exact this
  have hrun := Rehashed.run _ (rehashed_nil t (t.dirSize * 2)) hfit
  rw [nil_append, ← ndRehash_eq] at hrun
  exact hrun

/-- The overflow guard leaves only a true doubling. -/
theorem u32_double_of_gt (h : n < u32 (n * 2)) : u32 (n * 2) = n * 2 := by
  rw [u32] at h ⊢
  omega

/-- **`nd_resize` keeps every entry.** -/
theorem ndResize_spec {t t' : NexDashTable} (hs : Shape t) (h : ndResize t arenaOk = some t') :
    t'.contents = t.contents ∧ Shape t' ∧
      t' = { t with
        directory := t'.directory
        dirSize := t.dirSize * 2
        itemCount := incr32^[t.contents.card] t.itemCount
        stats := { t.stats with resizes := t.stats.resizes + 1 } } := by
  have hlist := t.contents_eq_slotOrder
  have hrun := rehashed_ndRehash hs
  have hpos : 0 < t.dirSize * 2 := by have := hs.dirPos; omega
  have hrows : ∀ j, ((ndRehash t (t.dirSize * 2)).2 j).contents
      = t.contents.filter (fun sl => sl.keyHash % (t.dirSize * 2) = j) := by
    intro j
    rw [hrun.contents, hlist, Multiset.filter_coe]
  unfold ndResize at h
  simp only at h
  split at h
  · simp at h
  · rename_i hgt
    split at h
    · simp at h
    · rw [u32_double_of_gt (Nat.lt_of_not_le hgt)] at h
      obtain rfl := Option.some.inj h
      refine ⟨?_, ⟨hpos, ?_, ?_⟩, ?_⟩
      · rw [NexDashTable.contents_eq_sum]
        simp only [hrows]
        exact Cells.sum_filter_rows fun sl _ => Nat.mod_lt _ hpos
      · intro p hp sl hcell
        have hmem : sl ∈ ((ndRehash t (t.dirSize * 2)).2 p.1).contents :=
          Cells.mem_contents.mpr ⟨p.2, (mem_positions.mp hp).2, hcell⟩
        rw [hrows, Multiset.mem_filter] at hmem
        exact hmem.2
      · intro si _
        exact hrun.counts si
      · simp only [hrun.table, hlist, Multiset.coe_card]

/-- The directory doubles unless the size would wrap or the arena refuses. -/
theorem ndResize_isSome :
    (ndResize t arenaOk).isSome ↔ t.dirSize < u32 (t.dirSize * 2) ∧ arenaOk = true := by
  unfold ndResize
  simp only
  split
  · rename_i hle
    exact ⟨nofun, fun h => absurd h.1 (Nat.not_lt_of_le hle)⟩
  · rename_i hgt
    cases arenaOk with
    | false => simp
    | true => simpa using hgt

end NexCache.NexDash
