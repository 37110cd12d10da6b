import NexCache.NexDash.Moves

/-!
# What every reachable table satisfies

What each move does to the multiset of entries, and two facts that every move
keeps whatever the calls are given: `Shape`, and `PoolOk` about the key pool.
The pool only grows, by at least two bytes for each entry, inside a capacity that
is a power of two and at most `2^31`.  So a table has at most `2^30` entries, and
neither the 32-bit counters nor the 64-bit memory total can wrap
(`PoolOk.card_le`).

`Sound.step_keeps` is the rule by which an invariant of the moves becomes one of
the calls.
-/

namespace NexCache.NexDash

open Machine Bloom Runs Function List Multiset Option Nat

variable {S : Key → Addr → BitVec 32 → Prop} {R : Prop}

/-! ### Fields that a step leaves alone -/

section Frame

variable (t : NexDashTable) (p : Pos)

@[simp] theorem keyPool_ndRemoveSlot : (ndRemoveSlot t p).keyPool = t.keyPool := by
  obtain ⟨freed, h⟩ := ndRemoveSlot_eq t p
  rw [h]

@[simp] theorem keyPoolCap_ndRemoveSlot : (ndRemoveSlot t p).keyPoolCap = t.keyPoolCap := by
  obtain ⟨freed, h⟩ := ndRemoveSlot_eq t p
  rw [h]

@[simp] theorem bloom_ndRemoveSlot : (ndRemoveSlot t p).bloom = t.bloom := by
  obtain ⟨freed, h⟩ := ndRemoveSlot_eq t p
  rw [h]

theorem itemCount_ndRemoveSlot : (ndRemoveSlot t p).itemCount = decr32 t.itemCount := by
  obtain ⟨freed, h⟩ := ndRemoveSlot_eq t p
  rw [h]

variable (key : Key) (value : Addr) (valueSize type : BitVec 32) (expireUs : Nat)

@[simp] theorem dirSize_ndStore :
    (ndStore t p key value valueSize type expireUs).dirSize = t.dirSize := by
  obtain ⟨freed, h⟩ := ndStore_eq t p key value valueSize type expireUs
  rw [h]
  rfl

@[simp] theorem keyPool_ndStore :
    (ndStore t p key value valueSize type expireUs).keyPool = t.keyPool := by
  obtain ⟨freed, h⟩ := ndStore_eq t p key value valueSize type expireUs
  rw [h]
  rfl

@[simp] theorem keyPoolCap_ndStore :
    (ndStore t p key value valueSize type expireUs).keyPoolCap = t.keyPoolCap := by
  obtain ⟨freed, h⟩ := ndStore_eq t p key value valueSize type expireUs
  rw [h]
  rfl

@[simp] theorem bloom_ndStore :
    (ndStore t p key value valueSize type expireUs).bloom = t.bloom := by
  obtain ⟨freed, h⟩ := ndStore_eq t p key value valueSize type expireUs
  rw [h]
  rfl

@[simp] theorem itemCount_ndStore :
    (ndStore t p key value valueSize type expireUs).itemCount = t.itemCount := by
  obtain ⟨freed, h⟩ := ndStore_eq t p key value valueSize type expireUs
  rw [h]
  rfl

end Frame

/-! ### Contents -/

variable {t : NexDashTable} {p : Pos} {sl : NexDashSlot}

variable (hp : p ∈ positions t.dirSize)
include hp

theorem contents_ndRemoveSlot (hc : t.cell p = some sl) :
    t.contents = sl ::ₘ (ndRemoveSlot t p).contents := by
  rw [NexDashTable.contents, NexDashTable.contents, dirSize_ndRemoveSlot,
    cell_ndRemoveSlot t (mem_positions.mp hp).2]
  exact Cells.contents_clear hp hc

variable {t' : NexDashTable}

/-- A rewritten slot is exchanged in the contents, next to the same other entries. -/
theorem contents_rewritten {sl sl' : NexDashSlot} (hc : t.cell p = some sl)
    (hdir : t'.dirSize = t.dirSize) (hcell : t'.cell = update t.cell p (some sl')) :
    ∃ rest, t.contents = sl ::ₘ rest ∧ t'.contents = sl' ::ₘ rest := by
  refine ⟨_, Cells.contents_clear hp hc, ?_⟩
  rw [NexDashTable.contents, hdir, hcell]
  exact Cells.contents_rewrite hp sl'

variable (hc : t.cell p = some sl)
include hc

theorem contents_setSlot (sl' : NexDashSlot) :
    ∃ rest, t.contents = sl ::ₘ rest ∧ (t.setSlot p sl').contents = sl' ::ₘ rest :=
  contents_rewritten hp hc rfl (NexDashTable.cell_setSlot hc sl')

theorem card_setSlot (sl' : NexDashSlot) : (t.setSlot p sl').contents.card = t.contents.card := by
  obtain ⟨rest, hold, hnew⟩ := contents_setSlot hp hc sl'
  rw [hold, hnew, card_cons, card_cons]

theorem contents_ndStore (key : Key) (value : Addr) (valueSize type : BitVec 32) (expireUs : Nat) :
    ∃ rest, t.contents = sl ::ₘ rest ∧
      (ndStore t p key value valueSize type expireUs).contents
        = storedSlot sl key value valueSize type expireUs ::ₘ rest :=
  contents_rewritten hp hc (dirSize_ndStore ..) (cell_ndStore hc ..)

omit hc

omit hp

/-- The slot of a new key, once its value has been stored. -/
def newSlot (t : NexDashTable) (key : Key) (value : Addr) (valueSize type : BitVec 32)
    (expireUs : Nat) : NexDashSlot :=
  storedSlot (ndFreshSlot t.keyPool.length (fnv1a64 key) (some key)) key value valueSize type
    expireUs

variable {key : Key}

theorem contents_create (hs : 0 < t.dirSize)
    (hcreate : ndCreateSlot t key (fnv1a64 key) = some (some (t', p))) (value : Addr)
    (valueSize type : BitVec 32) (expireUs : Nat) :
    (ndStore t' p key value valueSize type expireUs).contents
      = newSlot t key value valueSize type expireUs ::ₘ t.contents := by
  have hcell := cell_ndCreateSlot hcreate
  obtain ⟨hseg, hi, hfree, cap, _, ht'⟩ := ndCreateSlot_some hcreate
  have hdir : t'.dirSize = t.dirSize := by rw [ht']; rfl
  have hp : p ∈ positions t.dirSize := by
    rw [mem_positions, hseg]
    exact ⟨mod_lt _ hs, hi⟩
  rw [NexDashTable.contents, dirSize_ndStore, hdir,
    cell_ndStore (cell_self_ndCreateSlot hcreate), hcell, update_idem]
  exact Cells.contents_fill hp hfree _

/-! ### Shape -/

/-- A write to one cell keeps the shape if it keeps the hash and the counter of its
segment. -/
theorem Shape.write (hs : Shape t) {x : Option NexDashSlot} (hp : p ∈ positions t.dirSize)
    (hdir : t'.dirSize = t.dirSize) (hcell : t'.cell = update t.cell p x)
    (hhash : ∀ sl, x = some sl → sl.keyHash % t.dirSize = p.1)
    (hother : ∀ si, si ≠ p.1 → t'.directory si = t.directory si)
    (hcount : (t'.directory p.1).itemCount = (t'.directory p.1).contents.card) : Shape t' := by
  refine ⟨by rw [hdir]; exact hs.dirPos, ?_, ?_⟩
  · intro q hq sl hc
    rw [hdir] at hq ⊢
    rw [hcell] at hc
    by_cases hqp : q = p
    · subst hqp
      rw [update_self] at hc
      exact hhash sl hc
    · rw [update_of_ne hqp] at hc
      exact hs.home q hq sl hc
  · intro si hsi
    rw [hdir] at hsi
    by_cases hsp : si = p.1
    · rw [hsp]
      exact hcount
    · rw [hother si hsp]
      exact hs.counts si hsi

theorem card_contents_setSlot {seg : NexDashSegment} {i : Nat × Nat} {old : NexDashSlot}
    (hi : i ∈ slotIdx) (hc : seg.cell i = some old)
    (hocc : (seg.buckets i.1).occupied i.2 = true) (sl : NexDashSlot) :
    (seg.setSlot i sl).contents.card = seg.contents.card := by
  rw [NexDashSegment.contents, NexDashSegment.contents, NexDashSegment.cell_setSlot hocc,
    Cells.contents_rewrite hi, Cells.contents_clear hi hc, card_cons,
    card_cons]

variable (hs : Shape t)
include hs

/-- Rewriting an entry under its old hash keeps the shape. -/
theorem Shape.setSlot {old sl : NexDashSlot} (hp : p ∈ positions t.dirSize)
    (hc : t.cell p = some old) (hhash : sl.keyHash = old.keyHash) :
    Shape (t.setSlot p sl) := by
  obtain ⟨hlt, hi⟩ := mem_positions.mp hp
  refine hs.write hp rfl (NexDashTable.cell_setSlot hc sl) ?_ ?_ ?_
  · intro sl' he
    rw [← some.inj he, hhash]
    exact hs.home p hp old hc
  · intro si hne
    exact update_of_ne hne _ _
  · show ((update t.directory p.1 _) p.1).itemCount
      = ((update t.directory p.1 _) p.1).contents.card
    rw [update_self,
      card_contents_setSlot hi hc (NexDashTable.occupied_of_cell hc).1]
    exact hs.counts p.1 hlt

theorem Shape.of_eq (hdir : t'.directory = t.directory)
    (hsize : t'.dirSize = t.dirSize) : Shape t' := by
  obtain ⟨h1, h2, h3⟩ := hs
  refine ⟨by rw [hsize]; exact h1, ?_, ?_⟩
  · rw [hsize]
    intro p hp sl hc
    rw [NexDashTable.cell, hdir] at hc
    exact h2 p hp sl hc
  · rw [hsize, hdir]
    exact h3

theorem Shape.ndStore (hp : p ∈ positions t.dirSize) (hc : t.cell p = some sl)
    (key : Key) (value : Addr) (valueSize type : BitVec 32) (expireUs : Nat) :
    Shape (ndStore t p key value valueSize type expireUs) := by
  obtain ⟨freed, h⟩ := ndStore_eq t p key value valueSize type expireUs
  have hslot : Shape (t.setSlot p (storedSlot (t.slotAt p) key value valueSize type expireUs)) := by
    refine hs.setSlot hp hc ?_
    rw [(NexDashTable.occupied_of_cell hc).2]
    rfl
  rw [h]
  exact hslot.of_eq rfl rfl

theorem Shape.ndRemoveSlot (hp : p ∈ positions t.dirSize)
    (hc : t.cell p = some sl) : Shape (ndRemoveSlot t p) := by
  obtain ⟨hlt, hi⟩ := mem_positions.mp hp
  obtain ⟨freed, h⟩ := ndRemoveSlot_eq t p
  refine hs.write hp (dirSize_ndRemoveSlot t p) (cell_ndRemoveSlot t hi) ?_ ?_ ?_
  · intro sl' he
    simp at he
  · intro si hne
    rw [h]
    exact update_of_ne hne _ _
  · rw [h]
    simp only [update_self]
    exact counts_removedSegment hi hc (hs.counts p.1 hlt)

theorem Shape.ndCreateSlot (hcreate : ndCreateSlot t key (fnv1a64 key) = some (some (t', p))) :
    Shape t' ∧ p ∈ positions t'.dirSize := by
  have hcell := cell_ndCreateSlot hcreate
  obtain ⟨hseg, hi, hfree, cap, _, ht'⟩ := ndCreateSlot_some hcreate
  have hlt : p.1 < t.dirSize := by rw [hseg]; exact mod_lt _ hs.dirPos
  have hdir : t'.dirSize = t.dirSize := by rw [ht']; rfl
  have hp : p ∈ positions t.dirSize := mem_positions.mpr ⟨hlt, hi⟩
  refine ⟨hs.write hp hdir hcell ?_ ?_ ?_, by rw [hdir]; exact hp⟩
  · intro sl he
    rw [← some.inj he, hseg]
    rfl
  · intro si hne
    rw [ht']
    exact update_of_ne hne _ _
  · rw [ht']
    simp only [update_self]
    exact counts_filledSegment hi hfree _ (hs.counts p.1 hlt)

theorem Shape.move (h : NdMove S R t t') : Shape t' := by
  cases h with
  | count stats => exact hs.of_eq rfl rfl
  | remove hp hc => exact hs.ndRemoveSlot hp hc
  | reexpire hp hc enc | promote hp hc hm => exact hs.setSlot hp hc rfl
  | store hp hc hm hS valueSize expireUs => exact hs.ndStore hp hc _ _ _ _ _
  | create hkey hnew hcreate hS valueSize expireUs =>
    obtain ⟨hs', hp⟩ := hs.ndCreateSlot hcreate
    exact hs'.ndStore hp (cell_self_ndCreateSlot hcreate) ..
  | resize hR h => exact (ndResize_spec hs h).2.1

omit hs

/-! ### The key pool -/

structure PoolOk (t : NexDashTable) : Prop where
  cap : ∃ j ≤ 31, t.keyPoolCap = 2 ^ j
  fits : t.keyPool.length ≤ t.keyPoolCap
  /-- Each entry has brought a key of at least one byte and its terminator. -/
  entries : 2 * t.contents.card ≤ t.keyPool.length

theorem PoolOk.length_le (h : PoolOk t) : t.keyPool.length ≤ 2 ^ 31 := by
  obtain ⟨j, hj, hcap⟩ := h.cap
  have hpow : 2 ^ j ≤ 2 ^ 31 := Nat.pow_le_pow_right (by decide) hj
  have := h.fits
  omega

theorem PoolOk.card_le (h : PoolOk t) : t.contents.card ≤ 2 ^ 30 := by
  have := h.length_le
  have := h.entries
  omega

/-- What the pool must hold after the key is appended does not wrap. -/
theorem PoolOk.need_eq (h : PoolOk t) (key : Key) :
    u32 (t.keyPool.length + key.len + 1) = t.keyPool.length + key.len + 1 := by
  have := h.length_le
  have := key.len_lt
  exact u32_of_lt (by omega)

/-- **When the growth loop spins**: beyond `2^31` bytes, and only there. -/
theorem PoolOk.spins_iff (h : PoolOk t) (key : Key) :
    doubleTo (u32 (t.keyPool.length + key.len + 1)) 33 t.keyPoolCap = none
      ↔ 2 ^ 31 < t.keyPool.length + key.len + 1 := by
  obtain ⟨j, hj, hcap⟩ := h.cap
  rw [h.need_eq, hcap]
  constructor
  · intro hnone
    by_contra hle
    obtain ⟨k, _, _, _, hsome⟩ := doubleTo_pow (Nat.le_of_not_lt hle) 33 hj (by omega)
    rw [hsome] at hnone
    simp at hnone
  · intro hgt
    exact doubleTo_spins hgt 33 hj

theorem PoolOk.grown (h : PoolOk t) {cap : Nat}
    (hcap : doubleTo (u32 (t.keyPool.length + key.len + 1)) 33 t.keyPoolCap = some cap) :
    (∃ j ≤ 31, cap = 2 ^ j) ∧ t.keyPool.length + key.len + 1 ≤ cap := by
  have hle : t.keyPool.length + key.len + 1 ≤ 2 ^ 31 := by
    by_contra hgt
    rw [(h.spins_iff key).mpr (Nat.lt_of_not_le hgt)] at hcap
    simp at hcap
  obtain ⟨j, hj, hj'⟩ := h.cap
  rw [h.need_eq, hj'] at hcap
  obtain ⟨k, _, hk, hfit, hsome⟩ := doubleTo_pow hle 33 hj (by omega)
  rw [hsome] at hcap
  rw [← some.inj hcap]
  exact ⟨⟨k, hk, rfl⟩, hfit⟩

theorem PoolOk.shrink (h : PoolOk t) (hpool : t'.keyPool = t.keyPool)
    (hcap : t'.keyPoolCap = t.keyPoolCap) (hcard : t'.contents.card ≤ t.contents.card) :
    PoolOk t' := by
  obtain ⟨h1, h2, h3⟩ := h
  refine ⟨by rw [hcap]; exact h1, by rw [hpool, hcap]; exact h2, ?_⟩
  rw [hpool]
  omega

theorem PoolOk.move (hs : Shape t) (hp : PoolOk t) (h : NdMove S R t t') : PoolOk t' := by
  cases h with
  | count stats => exact hp.shrink rfl rfl (le_refl _)
  | remove hpos hc =>
    refine hp.shrink (keyPool_ndRemoveSlot t _) (keyPoolCap_ndRemoveSlot t _) ?_
    rw [contents_ndRemoveSlot hpos hc, card_cons]
    omega
  | reexpire hpos hc enc | promote hpos hc hm =>
    exact hp.shrink rfl rfl (card_setSlot hpos hc _).le
  | store hpos hc hm hS valueSize expireUs =>
    obtain ⟨rest, hold, hnew⟩ := contents_ndStore hpos hc _ _ valueSize _ expireUs
    exact hp.shrink (keyPool_ndStore ..) (keyPoolCap_ndStore ..)
      (by rw [hold, hnew, card_cons, card_cons])
  | @create _ _ key _ _ hkey hnew hcreate hS valueSize expireUs =>
    obtain ⟨_, _, _, cap, hcap, ht'⟩ := ndCreateSlot_some hcreate
    obtain ⟨hpow, hfit⟩ := hp.grown hcap
    have hentries := hp.entries
    refine ⟨?_, ?_, ?_⟩
    · rw [keyPoolCap_ndStore, ht']
      exact hpow
    · rw [keyPool_ndStore, keyPoolCap_ndStore, ht']
      simp only [insertedTable, length_append, length_singleton]
      exact hfit
    · rw [contents_create hs.dirPos hcreate, keyPool_ndStore, ht', card_cons]
      simp only [insertedTable, length_append, length_singleton]
      have : key.bytes.length ≠ 0 := hkey
      omega
  | resize hR h =>
    obtain ⟨hcont, _, ht'⟩ := ndResize_spec hs h
    exact hp.shrink (by rw [ht']) (by rw [ht']) (by rw [hcont])

/-! ### The empty table -/

/-- `nexdash_create` returns for a requested size up to `2^31`, and only then. -/
theorem nexdashCreate_isSome (initialSegments : Nat) (bloomSized : NumBlocks) (freeCb : Bool) :
    (nexdashCreate initialSegments bloomSized freeCb).isSome ↔ initialSegments ≤ 2 ^ 31 := by
  rw [nexdashCreate, isSome_map]
  constructor
  · intro h
    by_contra hgt
    have hspin := doubleTo_spins (Nat.lt_of_not_le hgt) 33 (j := 2) (by decide)
    rw [show (4 : Nat) = 2 ^ 2 from rfl, hspin] at h
    simp at h
  · intro hle
    obtain ⟨k, _, _, _, hk⟩ := doubleTo_pow hle 33 (j := 2) (by decide) (by decide)
    rw [show (4 : Nat) = 2 ^ 2 from rfl, hk]
    rfl

theorem exists_nexdashCreate : ∃ t, nexdashCreate 4 1 false = some t :=
  isSome_iff_exists.mp ((nexdashCreate_isSome 4 1 false).mpr (by decide))

variable {initialSegments : Nat} {bloomSized : NumBlocks} {freeCb : Bool}

variable (h : nexdashCreate initialSegments bloomSized freeCb = some t)
include h

theorem dirSize_create_pos : 0 < t.dirSize := by
  have hle := (nexdashCreate_isSome initialSegments bloomSized freeCb).mp (by rw [h]; rfl)
  obtain ⟨k, _, _, _, hk⟩ := doubleTo_pow hle 33 (j := 2) (by decide) (by decide)
  rw [nexdashCreate, show (4 : Nat) = 2 ^ 2 from rfl, hk, map_some] at h
  rw [← some.inj h]
  exact Nat.two_pow_pos k

/-- A created table, apart from its size. -/
theorem nexdashCreate_eq :
    t = { directory := fun _ => .zero, dirSize := t.dirSize, itemCount := 0, keyPool := [],
          keyPoolCap := 65536, usedMemory := 0, bloom := Bloom.nexbloomCreate bloomSized,
          freeCb := freeCb, freed := [], stats := {}, clipped := false } := by
  rw [nexdashCreate, map_eq_some_iff] at h
  obtain ⟨nsegs, _, rfl⟩ := h
  rfl

theorem contents_create_eq_zero : t.contents = 0 := by
  rw [t.contents_eq_sum, nexdashCreate_eq h]
  exact Finset.sum_eq_zero fun _ _ => NexDashSegment.contents_zero

theorem shape_create : Shape t := by
  refine ⟨dirSize_create_pos h, ?_, ?_⟩
  · intro p hp sl hc
    have hmem : sl ∈ t.contents := NexDashTable.mem_contents.mpr ⟨p, hp, hc⟩
    rw [contents_create_eq_zero h] at hmem
    simp at hmem
  · intro si _
    rw [nexdashCreate_eq h, NexDashSegment.contents_zero]
    rfl

theorem poolOk_create : PoolOk t := by
  refine ⟨⟨16, by decide, ?_⟩, ?_, ?_⟩
  · rw [nexdashCreate_eq h]
    rfl
  · rw [nexdashCreate_eq h]
    exact zero_le _
  · rw [contents_create_eq_zero h]
    exact zero_le _

omit h

/-! ### Invariants of the moves are invariants of the calls -/

/-- What every reachable table satisfies. -/
structure Sound (t : NexDashTable) : Prop where
  shape : Shape t
  pool : PoolOk t

theorem Sound.move (h : Sound t) (hm : NdMove S R t t') : Sound t' :=
  ⟨h.shape.move hm, h.pool.move h.shape hm⟩

theorem sound_create (h : nexdashCreate initialSegments bloomSized freeCb = some t) : Sound t :=
  ⟨shape_create h, poolOk_create h⟩

/-- A property kept by the moves of a sound table is kept by a call. -/
theorem Sound.step_keeps {I : NexDashTable → Prop}
    (hmove : ∀ t t', Sound t → NdMove S R t t' → I t → I t') (hsound : Sound t) (hi : I t)
    {e : NdEvent} {r : NdReply} (hS : e.call.Obeys S) (hR : e.call.Doubles t → R)
    (h : ndStep t e = some (t', r)) : Sound t' ∧ I t' := by
  refine closed_of_step (I := fun t => Sound t ∧ I t) ?_ (ndStep_moves hsound.shape hS hR h)
    ⟨hsound, hi⟩
  rintro s s' hm ⟨hs, his⟩
  exact ⟨hs.move hm, hmove s s' hs hm his⟩

end NexCache.NexDash
