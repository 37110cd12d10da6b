import NexCache.Lib.Cells
import NexCache.NexDash.Table

/-!
# What a table holds

The places of the entries matter to lookups only.  For everything else a table
is the multiset of its occupied slots, `NexDashTable.contents`, and this file
says what each writing primitive does to the cells:

* `cell_ndRemoveSlot`: an entry leaves its cell;
* `ndInsertIntoSegment_placed`: a fresh slot enters a free cell;
* `cell_setSlot`: a slot in use is rewritten.
-/

namespace NexCache.NexDash

open Machine Bloom Function NexDashSegment List

/-! ### Index sets -/

/-- The slots of one segment. -/
def slotIdx : Finset (Nat × Nat) :=
  Finset.range NEXDASH_BUCKET_COUNT ×ˢ Finset.range NEXDASH_SLOT_COUNT

/-- The slots of a directory of `n` segments. -/
def positions (n : Nat) : Finset Pos := Finset.range n ×ˢ slotIdx

variable {i : Nat × Nat}

theorem mem_slotIdx : i ∈ slotIdx ↔ i.1 < NEXDASH_BUCKET_COUNT ∧ i.2 < NEXDASH_SLOT_COUNT := by
  rw [slotIdx, Finset.mem_product, Finset.mem_range, Finset.mem_range]

theorem card_slotIdx : slotIdx.card = NEXDASH_SEGMENT_ITEMS := by
  rw [slotIdx, Finset.card_product, Finset.card_range, Finset.card_range, NEXDASH_SEGMENT_ITEMS]

-- unfolding the set would enumerate its 224 members
attribute [irreducible] slotIdx

variable {p : Pos}

theorem mem_positions {n : Nat} : p ∈ positions n ↔ p.1 < n ∧ p.2 ∈ slotIdx := by
  simp [positions]

theorem slot_lt_eight (h : i ∈ slotIdx) : i.2 < 8 := by
  have := (mem_slotIdx.mp h).2
  rw [NEXDASH_SLOT_COUNT] at this
  omega

variable {start : Nat}

/-- Probing visits every slot of the segment, wherever it starts. -/
theorem mem_probeOrder : i ∈ probeOrder start ↔ i ∈ slotIdx := by
  obtain ⟨b, s⟩ := i
  simp only [probeOrder, mem_flatMap, mem_range, mem_map, Prod.mk.injEq,
    mem_slotIdx]
  constructor
  · rintro ⟨probe, _, s', hs', rfl, rfl⟩
    exact ⟨Nat.mod_lt _ (by decide), hs'⟩
  · rintro ⟨hb, hs⟩
    rw [NEXDASH_BUCKET_COUNT] at hb ⊢
    refine ⟨(b + 56 - start % 56) % 56, Nat.mod_lt _ (by decide), s, hs, ?_, rfl⟩
    omega

theorem mem_slotOrder {n : Nat} : p ∈ slotOrder n ↔ p ∈ positions n := by
  obtain ⟨si, bi, s⟩ := p
  rw [mem_positions, mem_slotIdx]
  simp only [slotOrder, mem_flatMap, mem_range, mem_map, Prod.mk.injEq]
  constructor
  · rintro ⟨si', hsi, bi', hbi, s', hs, rfl, rfl, rfl⟩
    exact ⟨hsi, hbi, hs⟩
  · rintro ⟨hsi, hbi, hs⟩
    exact ⟨si, hsi, bi, hbi, s, hs, rfl, rfl, rfl⟩

theorem nodup_slotOrder (n : Nat) : (slotOrder n).Nodup := by
  have hrow : ∀ si bi, ((range NEXDASH_SLOT_COUNT).map fun s => ((si, bi, s) : Pos)).Nodup :=
    fun si bi => nodup_range.map fun s s' h => by simpa using h
  refine nodup_flatMap.mpr ⟨fun si _ => nodup_flatMap.mpr ⟨fun bi _ => hrow si bi, ?_⟩, ?_⟩
  · refine nodup_range.imp fun {b b'} hne => ?_
    intro p hp hp'
    simp only [mem_map] at hp hp'
    obtain ⟨s, _, rfl⟩ := hp
    obtain ⟨s', _, he⟩ := hp'
    simp only [Prod.mk.injEq] at he
    exact hne he.2.1.symm
  · refine nodup_range.imp fun {a a'} hne => ?_
    intro p hp hp'
    simp only [mem_flatMap, mem_map] at hp hp'
    obtain ⟨b, _, s, _, rfl⟩ := hp
    obtain ⟨b', _, s', _, he⟩ := hp'
    simp only [Prod.mk.injEq] at he
    exact hne he.1.symm

theorem toFinset_slotOrder (n : Nat) : (slotOrder n).toFinset = positions n := by
  ext p
  rw [mem_toFinset, mem_slotOrder]

/-! ### Contents -/

/-- The occupied slots of a segment. -/
def NexDashSegment.contents (seg : NexDashSegment) : Multiset NexDashSlot :=
  Cells.contents slotIdx seg.cell

/-- The occupied slots of a table. -/
def NexDashTable.contents (t : NexDashTable) : Multiset NexDashSlot :=
  Cells.contents (positions t.dirSize) t.cell

theorem NexDashTable.contents_eq_sum (t : NexDashTable) :
    t.contents = ∑ si ∈ Finset.range t.dirSize, (t.directory si).contents :=
  Finset.sum_product ..

theorem NexDashTable.contents_eq_slotOrder (t : NexDashTable) :
    t.contents = ((slotOrder t.dirSize).filterMap t.cell : Multiset NexDashSlot) := by
  rw [NexDashTable.contents, ← toFinset_slotOrder, Cells.contents_toFinset (nodup_slotOrder _)]

variable {t : NexDashTable} {x : Option NexDashSlot} {sl : NexDashSlot}

theorem NexDashTable.mem_contents :
    sl ∈ t.contents ↔ ∃ p ∈ positions t.dirSize, t.cell p = some sl := Cells.mem_contents

theorem NexDashSegment.contents_zero : zero.contents = 0 := by
  have : zero.cell = fun _ => none := by
    funext i
    simp [cell, zero, Masked.cell, Masked.occupied]
  rw [contents, this, Cells.contents_empty]

theorem NexDashSegment.card_contents_le (seg : NexDashSegment) :
    seg.contents.card ≤ NEXDASH_SEGMENT_ITEMS := by
  rw [← card_slotIdx]
  exact Cells.card_contents_le _ _

theorem NexDashTable.occupied_of_cell (h : t.cell p = some sl) :
    ((t.directory p.1).buckets p.2.1).occupied p.2.2 = true ∧ t.slotAt p = sl := by
  unfold NexDashTable.cell NexDashSegment.cell Masked.cell at h
  split at h
  · rename_i hocc
    exact ⟨hocc, Option.some.inj h⟩
  · cases h

theorem NexDashTable.cell_of_occupied
    (h : ((t.directory p.1).buckets p.2.1).occupied p.2.2 = true) :
    t.cell p = some (t.slotAt p) := by
  rw [NexDashTable.cell, NexDashSegment.cell, Masked.cell, if_pos h]
  rfl

/-! ### Writing a segment, writing a slot -/

/-- The counter of a segment plays no part in its cells. -/
theorem NexDashSegment.cell_congr {seg seg' : NexDashSegment} (h : seg.buckets = seg'.buckets) :
    seg.cell = seg'.cell := by
  funext i
  rw [cell, cell, h]

/-- A write in one row of a table. -/
theorem update_row {α β γ : Type*} [DecidableEq α] [DecidableEq β] {f g : α → β → γ} {i : α × β}
    {x : γ} (hrow : g i.1 = update (f i.1) i.2 x) (hother : ∀ a ≠ i.1, g a = f a) :
    (fun j : α × β => g j.1 j.2) = update (fun j => f j.1 j.2) i x := by
  refine eq_update_iff.mpr ⟨by rw [hrow, update_self], fun j hj => ?_⟩
  by_cases h1 : j.1 = i.1
  · rw [h1, hrow, update_of_ne fun h2 => hj (Prod.ext h1 h2)]
  · rw [hother _ h1]

theorem NexDashSegment.cell_setBucket (seg : NexDashSegment) {b : NexDashBucket}
    (hb : b.cell = update (seg.buckets i.1).cell i.2 x) :
    (seg.setBucket i.1 b).cell = update seg.cell i x :=
  update_row (f := fun b => (seg.buckets b).cell)
    (g := fun b => ((seg.setBucket i.1 _).buckets b).cell)
    (by simp [setBucket, hb]) fun b hb => by simp [setBucket, hb]

variable {seg : NexDashSegment}

theorem NexDashTable.cell_setSegment (t : NexDashTable)
    (hseg : seg.cell = update (t.directory p.1).cell p.2 x) :
    (t.setSegment p.1 seg).cell = update t.cell p x :=
  update_row (f := fun s => (t.directory s).cell)
    (g := fun s => ((t.setSegment p.1 seg).directory s).cell)
    (by simp [setSegment, hseg]) fun s hs => by simp [setSegment, hs]

theorem NexDashSegment.cell_setSlot (h : (seg.buckets i.1).occupied i.2 = true) (sl : NexDashSlot) :
    (seg.setSlot i sl).cell = update seg.cell i (some sl) :=
  seg.cell_setBucket (Masked.cell_setSlot _ h sl)

theorem NexDashTable.cell_setSlot {old : NexDashSlot} (h : t.cell p = some old) (sl : NexDashSlot) :
    (t.setSlot p sl).cell = update t.cell p (some sl) :=
  t.cell_setSegment (NexDashSegment.cell_setSlot (NexDashTable.occupied_of_cell h).1 sl)

/-! ### Removing an entry -/

theorem callFreeCb_eq (t : NexDashTable) (vp : TaggedPtr) :
    ∃ freed, callFreeCb t vp = { t with freed := freed } := by
  unfold callFreeCb
  split
  · exact ⟨_, rfl⟩
  · exact ⟨t.freed, rfl⟩

theorem chargeBack_callFreeCb (t : NexDashTable) (vp : TaggedPtr) (amount : Nat) :
    ∃ freed, chargeBack (callFreeCb t vp) amount =
      { t with
        freed := freed
        usedMemory := satSub t.usedMemory amount
        clipped := t.clipped || decide (t.usedMemory < amount) } := by
  obtain ⟨freed, h⟩ := callFreeCb_eq t vp
  exact ⟨freed, by rw [h, chargeBack]⟩

/-- What `ndRemoveSlot` leaves in the segment. -/
def removedSegment (seg : NexDashSegment) (i : Nat × Nat) : NexDashSegment :=
  { seg.setBucket i.1 (((seg.buckets i.1).setSlot i.2
      { (seg.buckets i.1).slots i.2 with
        valuePtr := tagSetMeta 0#48 0#8 ntypeDeleted Eviction2QTier.tierProbatory.code 0#2
        valueSize := 0#32 }).unmark i.2) with
    itemCount := decr32 seg.itemCount }

/-- **Everything a removal does.** -/
theorem ndRemoveSlot_eq (t : NexDashTable) (p : Pos) :
    ∃ freed, ndRemoveSlot t p =
      { t with
        directory := update t.directory p.1 (removedSegment (t.directory p.1) p.2)
        freed := freed
        usedMemory := satSub t.usedMemory (t.slotAt p).cost
        clipped := t.clipped || decide (t.usedMemory < (t.slotAt p).cost)
        itemCount := decr32 t.itemCount } := by
  obtain ⟨freed, h⟩ := chargeBack_callFreeCb t (t.slotAt p).valuePtr (t.slotAt p).cost
  refine ⟨freed, ?_⟩
  unfold ndRemoveSlot ndReleaseSlot
  simp only [NexDashTable.slotAt] at h
  simp only [h, NexDashTable.setSegment, NexDashTable.slotAt, removedSegment]

theorem cell_removedSegment (seg : NexDashSegment) (hi : i ∈ slotIdx) :
    (removedSegment seg i).cell = update seg.cell i none := by
  rw [← seg.cell_setBucket (Masked.cell_unmark_setSlot _ (slot_lt_eight hi) _)]
  exact cell_congr rfl

theorem cell_ndRemoveSlot (t : NexDashTable) (hp : p.2 ∈ slotIdx) :
    (ndRemoveSlot t p).cell = update t.cell p none := by
  obtain ⟨freed, h⟩ := ndRemoveSlot_eq t p
  rw [h]
  exact t.cell_setSegment (cell_removedSegment (t.directory p.1) hp)

/-! ### Inserting an entry -/

variable {hash : Nat} {key : Option Key}

/-- **A full segment is the only reason for `NULL`.** -/
theorem ndInsertIntoSegment_full :
    ndInsertIntoSegment t seg start hash key = .full ↔ ∀ i ∈ slotIdx, seg.cell i ≠ none := by
  unfold ndInsertIntoSegment
  constructor
  · intro h
    split at h
    · rename_i hfind
      rw [find?_eq_none] at hfind
      intro i hi hcell
      have := hfind i (mem_probeOrder.mpr hi)
      rw [cell, Masked.cell] at hcell
      simp_all
    · cases key with
      | none => simp at h
      | some k =>
        simp only at h
        split at h <;> simp at h
  · intro h
    have hfind : (probeOrder start).find? (fun i => !(seg.buckets i.1).occupied i.2) = none := by
      rw [find?_eq_none]
      intro i hi
      have := h i (mem_probeOrder.mp hi)
      rw [cell, Masked.cell] at this
      simp_all
    rw [hfind]

/-- With a key, the insertion spins if there is a free slot but the pool cannot grow
enough. -/
theorem ndInsertIntoSegment_diverges {k : Key} :
    ndInsertIntoSegment t seg start hash (some k) = .diverges
      ↔ (∃ i ∈ slotIdx, seg.cell i = none) ∧
        doubleTo (u32 (t.keyPool.length + k.len + 1)) 33 t.keyPoolCap = none := by
  cases hfind : (probeOrder start).find? (fun i => !(seg.buckets i.1).occupied i.2) with
  | none =>
    have hfull : ndInsertIntoSegment t seg start hash (some k) = .full := by
      rw [ndInsertIntoSegment, hfind]
    rw [hfull]
    constructor
    · intro h
      cases h
    · rintro ⟨⟨i, hi, hfree⟩, _⟩
      exact absurd hfree (ndInsertIntoSegment_full.mp hfull i hi)
  | some i =>
    have hfree : ∃ i ∈ slotIdx, seg.cell i = none := by
      refine ⟨i, mem_probeOrder.mp (mem_of_find?_eq_some hfind), ?_⟩
      have := find?_some hfind
      rw [cell, Masked.cell]
      simp_all
    rw [ndInsertIntoSegment, hfind]
    simp only
    cases doubleTo (u32 (t.keyPool.length + k.len + 1)) 33 t.keyPoolCap with
    | none => simpa using hfree
    | some cap => simp

/-- What an insertion leaves in the segment. -/
def filledSegment (seg : NexDashSegment) (i : Nat × Nat) (sl : NexDashSlot) : NexDashSegment :=
  { seg.setBucket i.1 (((seg.buckets i.1).setSlot i.2 sl).mark i.2) with
    itemCount := incr32 seg.itemCount }

theorem cell_filledSegment (seg : NexDashSegment) (hi : i ∈ slotIdx)
    (sl : NexDashSlot) : (filledSegment seg i sl).cell = update seg.cell i (some sl) := by
  rw [← seg.cell_setBucket (Masked.cell_mark_setSlot _ (slot_lt_eight hi) _)]
  exact cell_congr rfl

/-- What an insertion does to the rest of the table. -/
def insertedTable (t : NexDashTable) (hash : Nat) (key : Option Key) (cap : Nat) : NexDashTable :=
  match key with
  | none => { t with itemCount := incr32 t.itemCount }
  | some k =>
    { t with
      itemCount := incr32 t.itemCount
      keyPool := t.keyPool ++ k.bytes ++ [0]
      keyPoolCap := cap
      bloom := nexbloomAdd t.bloom hash }

/-- **Everything a successful insertion does.** -/
theorem ndInsertIntoSegment_placed {t t' : NexDashTable} {seg seg' : NexDashSegment}
    (h : ndInsertIntoSegment t seg start hash key = .placed t' seg' i) :
    i ∈ slotIdx ∧ seg.cell i = none ∧
      seg' = filledSegment seg i (ndFreshSlot t.keyPool.length hash key) ∧
      ∃ cap, t' = insertedTable t hash key cap ∧
        ∀ k, key = some k → doubleTo (u32 (t.keyPool.length + k.len + 1)) 33 t.keyPoolCap =
        some cap := by
  unfold ndInsertIntoSegment at h
  split at h
  · simp at h
  · rename_i j hfind
    have hj : j ∈ slotIdx := mem_probeOrder.mp (mem_of_find?_eq_some hfind)
    have hfree : seg.cell j = none := by
      have := find?_some hfind
      rw [cell, Masked.cell]
      simp_all
    cases key with
    | none =>
      obtain ⟨rfl, rfl, rfl⟩ := h
      exact ⟨hj, hfree, rfl, 0, rfl, fun k hk => by simp at hk⟩
    | some k =>
      simp only at h
      split at h
      · simp at h
      · rename_i cap hcap
        obtain ⟨rfl, rfl, rfl⟩ := h
        refine ⟨hj, hfree, rfl, cap, rfl, fun k' hk' => ?_⟩
        rw [← Option.some.inj hk']
        exact hcap

/-- A rehash never touches the pool, so it cannot spin. -/
theorem ndInsertIntoSegment_none_ne_diverges (t : NexDashTable) (seg : NexDashSegment)
    (start hash : Nat) : ndInsertIntoSegment t seg start hash none ≠ .diverges := by
  unfold ndInsertIntoSegment
  split <;> simp

end NexCache.NexDash
