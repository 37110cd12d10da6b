import NexCache.NexDash.Refine

/-!
# The entry counters

The table and each segment count their entries beside the occupancy masks.  The
segment counters are always exact (`Shape.counts`).  The table counter is exact as
long as the directory does not double (`itemCount_exact`): the rehash inserts the
entries into the new segments with the routine that also counts them, and nothing
takes the old count back.

A table that is filled with more distinct keys than its first directory holds has
doubled, so its counter is too large from then on (`filled_overcounts`).
-/

namespace NexCache.NexDash

open Machine Bloom Runs List
open Multiset (card_cons card_sum)

variable {S : Key → Addr → BitVec 32 → Prop} {R : Prop} {arenaOk : Bool}

/-! ### The entry counter -/

/-- Without a doubling, every move keeps the entry counter exact. -/
theorem itemCount_move {t t' : NexDashTable} (hsound : Sound t) (h : NdMove S False t t')
    (hi : t.itemCount = t.contents.card) : t'.itemCount = t'.contents.card := by
  cases h with
  | count stats => exact hi
  | remove hp hc =>
    rw [contents_ndRemoveSlot hp hc, card_cons] at hi
    rw [itemCount_ndRemoveSlot, decr32, if_neg (by omega), hi, Nat.add_sub_cancel]
  | reexpire hp hc enc | promote hp hc hm => rw [card_setSlot hp hc]; exact hi
  | store hp hc hm hS valueSize expireUs =>
    obtain ⟨rest, hold, hnew⟩ := contents_ndStore hp hc _ _ valueSize _ expireUs
    rw [hold, card_cons] at hi
    rw [itemCount_ndStore, hnew, card_cons]
    exact hi
  | create hkey hnew hcreate hS valueSize expireUs =>
    obtain ⟨_, _, _, cap, _, ht'⟩ := ndCreateSlot_some hcreate
    have hcard := hsound.pool.card_le
    rw [itemCount_ndStore, contents_create hsound.shape.dirPos hcreate, card_cons, ht']
    show incr32 t.itemCount = _
    rw [hi, incr32, u32_of_lt (by omega)]
  | resize hR _ => exact hR.elim

/-- The segment counters add up to the number of entries, doublings or not. -/
theorem Shape.sum_itemCount {t : NexDashTable} (hs : Shape t) :
    ∑ si ∈ Finset.range t.dirSize, (t.directory si).itemCount = t.contents.card := by
  rw [t.contents_eq_sum, card_sum]
  exact Finset.sum_congr rfl fun si hsi => hs.counts si (Finset.mem_range.mp hsi)

/-- **The entry counters are exact in every run without a directory doubling.** -/
theorem itemCount_exact {initialSegments : Nat} {bloomSized : NumBlocks} {freeCb : Bool}
    {t₀ t : NexDashTable} {es : List NdEvent} {rs : List NdReply}
    (hcreate : nexdashCreate initialSegments bloomSized freeCb = some t₀)
    (hkeeps : Along ndStep (fun t e => ¬ e.call.Doubles t) t₀ es)
    (hrun : run ndStep t₀ es = some (t, rs)) :
    t.itemCount = ∑ si ∈ Finset.range t.dirSize, (t.directory si).itemCount ∧
      t.itemCount = t.contents.card := by
  have hinv : Sound t ∧ t.itemCount = t.contents.card := by
    refine run_invariant (I := fun t => Sound t ∧ t.itemCount = t.contents.card) ?_ ?_ hkeeps hrun
    · rintro s e s' r ⟨hsound, hi⟩ hno hstep
      refine Sound.step_keeps (S := fun _ _ _ => True) (fun _ _ hs hm => itemCount_move hs hm)
        hsound hi ?_ hno hstep
      cases e.call <;> trivial
    · refine ⟨sound_create hcreate, ?_⟩
      rw [contents_create_eq_zero hcreate, nexdashCreate_eq hcreate]
      rfl
  rw [hinv.1.shape.sum_itemCount]
  exact ⟨hinv.2, hinv.2⟩

instance decidableDoubles (t : NexDashTable) : (c : NdCall) → Decidable (c.Doubles t)
  | .set _ _ _ _ _ _ => inferInstanceAs (Decidable (_ ∧ _ ∧ _ ∧ _ ∧ _))
  | .get _ | .del _ | .expire _ _ | .evict _ | .scanExpired => .isFalse id

theorem itemCount_exact_sets :
    ∃ t₀ t rs, nexdashCreate 4 1 false = some t₀ ∧ run ndStep t₀ setsAndDel = some (t, rs) ∧
      t.itemCount = 2 ∧ t.contents.card = 2 := by
  have heval : (nexdashCreate 4 1 false).bind (fun t₀ => (run ndStep t₀ setsAndDel).map fun r =>
      (decide (Along ndStep (fun t e => ¬ e.call.Doubles t) t₀ setsAndDel), r.1.itemCount))
      = some (true, 2) := by
    decide +kernel
  obtain ⟨t₀, hcreate, heval⟩ := Option.bind_eq_some_iff.mp heval
  obtain ⟨⟨t, rs⟩, hrun, heval⟩ := Option.map_eq_some_iff.mp heval
  obtain ⟨hkeeps, hcount⟩ := Prod.mk.inj heval
  have hexact := (itemCount_exact hcreate (of_decide_eq_true hkeeps) hrun).2
  exact ⟨t₀, t, rs, hcreate, hrun, hcount, hexact.symm.trans hcount⟩

/-! ### Filling a table -/

theorem incr32_iterate {n x : Nat} (h : x + n < 2 ^ 32) : incr32^[n] x = x + n := by
  induction n with
  | zero => rfl
  | succ n ih =>
    rw [Function.iterate_succ_apply', ih (by omega), incr32, u32_of_lt (by omega)]
    rfl

theorem NexDashTable.card_contents_le (t : NexDashTable) :
    t.contents.card ≤ t.dirSize * NEXDASH_SEGMENT_ITEMS := by
  rw [t.contents_eq_sum, card_sum]
  calc ∑ si ∈ Finset.range t.dirSize, (t.directory si).contents.card
      ≤ ∑ _si ∈ Finset.range t.dirSize, NEXDASH_SEGMENT_ITEMS :=
        Finset.sum_le_sum fun si _ => (t.directory si).card_contents_le
    _ = t.dirSize * NEXDASH_SEGMENT_ITEMS := by
        rw [Finset.sum_const_nat fun _ _ => rfl, Finset.card_range]

/-- Storing a value of no size under the key. -/
def fillSet (key : Key) : NdEvent := ⟨0, .set key 1#48 0#32 0#32 0 true⟩

/-- A doubling adds the number of entries to the counter. -/
theorem itemCount_ndResize {t t' : NexDashTable} (hs : Shape t)
    (h : ndResize t arenaOk = some t') (hsmall : t.itemCount + t.contents.card < 2 ^ 32) :
    t'.itemCount = t.itemCount + t.contents.card := by
  obtain ⟨_, _, ht'⟩ := ndResize_spec hs h
  rw [ht']
  exact incr32_iterate hsmall

theorem itemCount_create {t t' : NexDashTable} {key : Key} {hash : Nat} {p : Pos}
    (hcreate : ndCreateSlot t key hash = some (some (t', p))) (hsmall : t.itemCount + 1 < 2 ^ 32) :
    t'.itemCount = t.itemCount + 1 := by
  obtain ⟨_, _, _, cap, _, ht'⟩ := ndCreateSlot_some hcreate
  rw [ht']
  show incr32 t.itemCount = _
  rw [incr32, u32_of_lt hsmall]

/-- A table with a full segment is not empty. -/
theorem card_pos_of_full {t : NexDashTable} (hs : Shape t) {hash : Nat}
    (hfull : HomeFull t hash) :
    0 < t.contents.card := by
  by_contra hzero
  have hempty : t.contents = 0 := Multiset.card_eq_zero.mp (by omega)
  obtain ⟨i, hi, hc⟩ := (hs.hasRoom_iff hash).mp (hasRoom_of_empty hempty _ _)
  exact hfull i hi hc

theorem StoresTyped.fill (key : Key) : StoresTyped key 1#48 0#32 := ⟨by decide, by decide⟩

/-- A table of `n` segments at first, after a `set` of each of the keys `ks`; its entry
counter is at most `b`. -/
structure Filled (n : Nat) (ks : List Key) (b : Nat) (t : NexDashTable) : Prop where
  good : Good t
  keys : ∀ key, absMap t key ≠ none → key ∈ ks
  pool : t.keyPool.length ≤ 256 * ks.length
  card : t.contents.card ≤ ks.length
  bound : t.itemCount ≤ b
  drift : (t.dirSize = n ∧ t.contents.card = ks.length ∧ t.itemCount = t.contents.card) ∨
    t.contents.card < t.itemCount

section Filled

variable {n b : Nat} {ks : List Key} {key : Key} {t t' : NexDashTable}

variable (h : Filled n ks b t)
include h

theorem Filled.mono {b' : Nat} (hle : b ≤ b') : Filled n ks b' t :=
  ⟨h.good, h.keys, h.pool, h.card, h.bound.trans hle, h.drift⟩

/-- A key may be left out once the counter is too large. -/
theorem Filled.skip (hdrift : t.contents.card < t.itemCount) (key : Key) :
    Filled n (key :: ks) b t := by
  have hpool := h.pool
  have hcard := h.card
  refine ⟨h.good, fun k hk => mem_cons_of_mem _ (h.keys k hk), ?_, ?_, h.bound, .inr hdrift⟩
  · rw [length_cons]
    omega
  · rw [length_cons]
    omega

theorem Filled.absent (hnew : key ∉ ks) : ndProbe t key (fnv1a64 key) = none := by
  cases hprobe : ndProbe t key (fnv1a64 key) with
  | none => rfl
  | some p =>
    refine absurd (h.keys key ?_) hnew
    rw [absMap, hprobe]
    simp

theorem Filled.create {p : Pos} (hkey : key.len ≠ 0) (hnew : ndProbe t key (fnv1a64 key) = none)
    (hcreate : ndCreateSlot t key (fnv1a64 key) = some (some (t', p))) (hsmall : b + 1 < 2 ^ 32) :
    Filled n (key :: ks) (b + 1) (ndStore t' p key 1#48 0#32 0#32 0) := by
  have hS := StoresTyped.fill key
  have hbound := h.bound
  have hpool := h.pool
  have hcard := h.card
  have hkeylen : key.bytes.length < 2 ^ 8 := key.len_lt
  have hcount := itemCount_create hcreate (by omega)
  have hcont := contents_create h.good.sound.shape.dirPos hcreate 1#48 0#32 0#32 0
  refine ⟨h.good.move (R := True) (.create hkey hnew hcreate hS _ _), ?_, ?_, ?_, ?_, ?_⟩
  · rw [h.good.absMap_create hkey hnew hcreate hS]
    intro k hk
    by_cases hkk : k = key
    · rw [hkk]
      exact mem_cons_self
    · rw [Function.update_of_ne hkk] at hk
      exact mem_cons_of_mem _ (h.keys k hk)
  · rw [keyPool_ndStore, (pool_create hcreate).1, length_append, length_append,
      length_singleton, length_cons]
    omega
  · rw [hcont, card_cons, length_cons]
    omega
  · rw [itemCount_ndStore, hcount]
    omega
  · rw [itemCount_ndStore, hcount, hcont, card_cons, dirSize_ndStore, length_cons]
    obtain ⟨_, _, _, cap, _, ht'⟩ := ndCreateSlot_some hcreate
    have hdir : t'.dirSize = t.dirSize := by rw [ht']; rfl
    rcases h.drift with ⟨hn, hc, hi⟩ | hlt
    · exact .inl ⟨hdir.trans hn, by omega, by omega⟩
    · exact .inr (by omega)

/-- **The doubling counts every entry once more.** -/
theorem Filled.double (hpos : 0 < t.contents.card)
    (hresize : ndResize t arenaOk = some t') (hsmall : b + ks.length < 2 ^ 32) :
    Filled n ks (b + ks.length) t' ∧ t'.contents.card < t'.itemCount := by
  have hbound := h.bound
  have hcard := h.card
  obtain ⟨hcont, _, ht'⟩ := ndResize_spec h.good.sound.shape hresize
  have hcount := itemCount_ndResize h.good.sound.shape hresize (by omega)
  have hpool : t'.keyPool = t.keyPool := by rw [ht']
  have hdrift : t'.contents.card < t'.itemCount := by
    rw [hcont, hcount]
    rcases h.drift with ⟨_, _, hi⟩ | hlt
    · omega
    · omega
  refine ⟨⟨h.good.move (.resize trivial hresize), ?_, ?_, ?_, ?_, .inr hdrift⟩, hdrift⟩
  · rw [h.good.absMap_resize hresize]
    exact h.keys
  · rw [hpool]
    exact h.pool
  · rw [hcont]
    exact hcard
  · rw [hcount]
    omega

omit h

theorem Filled.step (hn : n < 2 ^ 31) (h : Filled n ks b t) (hkey : key.len ≠ 0)
    (hnew : key ∉ ks) (hlen : ks.length ≤ 2 ^ 15) (hsmall : b + 2 ^ 15 + 1 < 2 ^ 32) :
    ∃ t' r, ndStep t (fillSet key) = some (t', r) ∧
      Filled n (key :: ks) (b + 2 ^ 15 + 1) t' := by
  have hvalid : (fillSet key).call.Valid := ⟨hkey, StoresTyped.fill key⟩
  have hs := h.good.sound.shape
  have habsent := h.absent hnew
  have hsome : (ndStep t (fillSet key)).isSome := by
    rw [h.good.sound.ndStep_isSome hvalid]
    intro _
    show t.keyPool.length + key.len + 1 ≤ 2 ^ 31
    have hpool := h.pool
    have hkeylen := key.len_lt
    omega
  obtain ⟨⟨t', r⟩, hstep⟩ := Option.isSome_iff_exists.mp hsome
  refine ⟨t', r, hstep, ?_⟩
  simp only [fillSet, ndStep] at hstep
  obtain ⟨⟨t₁, rc⟩, hset, rfl, _⟩ := Runs.map_result hstep
  have hcase := nexdashSet_case hs hkey 1#48 0#32 0#32 0 0 true
  rw [hset] at hcase
  cases hcase with
  | expired hp hc hm | overwrite hp hc hm =>
    have hno := ndProbe_none hs habsent _ (NexDashTable.mem_contents.mpr ⟨_, hp, hc⟩)
    rw [hm] at hno
    simp at hno
  | created _ hcreate => exact (h.create hkey habsent hcreate (by omega)).mono (by omega)
  | refused _ hfull hresize =>
    rcases h.drift with ⟨hdir, _, _⟩ | hlt
    · -- the first directory is small enough to double
      have hpos := hs.dirPos
      have hcan : (ndResize t true).isSome := ndResize_isSome.mpr
        ⟨by rw [hdir, u32_of_lt (by omega)]; omega, rfl⟩
      rw [hresize] at hcan
      simp at hcan
    · exact (h.skip hlt key).mono (by omega)
  | doubled _ hfull hresize hnew₂ hcreate =>
    obtain ⟨h₂, _⟩ := h.double (card_pos_of_full hs hfull) hresize (by omega)
    exact (h₂.create hkey hnew₂ hcreate (by omega)).mono (by omega)
  | stillFull _ hfull hresize _ =>
    obtain ⟨h₂, hdrift⟩ := h.double (card_pos_of_full hs hfull) hresize (by omega)
    exact (h₂.skip hdrift key).mono (by omega)

theorem Filled.run (hn : n < 2 ^ 31) (todo : List Key) :
    ∀ {ks : List Key} {b : Nat} {t : NexDashTable}, Filled n ks b t →
      (∀ key ∈ todo, key.len ≠ 0) → todo.Nodup → (∀ key ∈ todo, key ∉ ks) →
      ks.length + todo.length ≤ 2 ^ 15 → b + todo.length * (2 ^ 15 + 1) < 2 ^ 32 →
      ∃ t' rs b', Runs.run ndStep t (todo.map fillSet) = some (t', rs) ∧
        Filled n (todo.reverse ++ ks) b' t' := by
  induction todo with
  | nil =>
    intro ks b t h _ _ _ _ _
    exact ⟨t, [], b, rfl, h⟩
  | cons key todo ih =>
    intro ks b t h hkeys hnodup hfresh hlen hsmall
    rw [length_cons] at hlen hsmall
    obtain ⟨hnot, hnodup'⟩ := nodup_cons.mp hnodup
    obtain ⟨t₁, r, hstep, h₁⟩ := h.step hn (hkeys key (by simp)) (hfresh key (by simp))
      (by omega) (by omega)
    have hfresh' : ∀ k ∈ todo, k ∉ key :: ks := by
      intro k hk hmem
      rcases mem_cons.mp hmem with rfl | hin
      · exact hnot hk
      · exact hfresh k (by simp [hk]) hin
    obtain ⟨t', rs, b', hrun, h'⟩ := ih h₁ (fun k hk => hkeys k (by simp [hk])) hnodup' hfresh'
      (by rw [length_cons]; omega) (by omega)
    refine ⟨t', r :: rs, b', ?_, ?_⟩
    · rw [map_cons, Runs.run, hstep]
      simp only
      rw [hrun]
      rfl
    · rw [reverse_cons, append_assoc]
      exact h'

end Filled

/-- **More distinct keys than the first directory holds make the counter too large.** -/
theorem filled_overcounts {initialSegments : Nat} {bloomSized : NumBlocks} {freeCb : Bool}
    {t₀ : NexDashTable} (hcreate : nexdashCreate initialSegments bloomSized freeCb = some t₀)
    (hsmall : t₀.dirSize < 2 ^ 31) {keys : List Key} (hkeys : ∀ key ∈ keys, key.len ≠ 0)
    (hnodup : keys.Nodup) (hmany : t₀.dirSize * NEXDASH_SEGMENT_ITEMS < keys.length)
    (hlen : keys.length ≤ 2 ^ 15) :
    ∃ t rs, run ndStep t₀ (keys.map fillSet) = some (t, rs) ∧
      t.contents.card < t.itemCount := by
  obtain ⟨hgood, hmap⟩ := good_create hcreate
  have hempty := contents_create_eq_zero hcreate
  have hcount : t₀.itemCount = 0 := by rw [nexdashCreate_eq hcreate]
  have hpool : t₀.keyPool = [] := by rw [nexdashCreate_eq hcreate]
  have hstart : Filled t₀.dirSize [] 0 t₀ := by
    refine ⟨hgood, ?_, ?_, ?_, ?_, .inl ⟨rfl, ?_, ?_⟩⟩
    · intro key hne
      rw [hmap] at hne
      exact absurd rfl hne
    · rw [hpool]
      exact Nat.le_refl _
    · rw [hempty]
      exact Nat.le_refl _
    · rw [hcount]
    · rw [hempty]
      rfl
    · rw [hempty, hcount]
      rfl
  obtain ⟨t, rs, b, hrun, hfilled⟩ := hstart.run hsmall keys hkeys hnodup
    nofun (by rw [length_nil]; omega) (by omega)
  refine ⟨t, rs, hrun, ?_⟩
  rcases hfilled.drift with ⟨hdir, hcard, _⟩ | hlt
  · have hle := t.card_contents_le
    rw [hdir, hcard, append_nil, length_reverse] at hle
    omega
  · exact hlt

/-- The two-byte key of a number. -/
def numKey (i : Nat) : Key :=
  ⟨[UInt8.ofNat i, UInt8.ofNat (i / 256)], (by decide : 2 < 2 ^ 8)⟩

/-- **897 keys in a table of four segments.** -/
theorem itemCount_drifts :
    ∃ t₀ t rs, nexdashCreate 4 1 false = some t₀ ∧
      run ndStep t₀ (((range 897).map numKey).map fillSet) = some (t, rs) ∧
      t.itemCount ≠ t.contents.card := by
  obtain ⟨t₀, hcreate⟩ := exists_nexdashCreate
  have hdir : t₀.dirSize = 4 := by
    rw [← Option.some.inj hcreate]
  have hnodup : ((range 897).map numKey).Nodup := by
    refine Nodup.map_on ?_ nodup_range
    intro i hi j hj heq
    have hbytes := congrArg Subtype.val heq
    simp only [numKey, cons.injEq, and_true] at hbytes
    have h0 := congrArg UInt8.toNat hbytes.1
    have h1 := congrArg UInt8.toNat hbytes.2
    simp only [UInt8.toNat_ofNat'] at h0 h1
    rw [mem_range] at hi hj
    omega
  have hkeys : ∀ key ∈ (range 897).map numKey, key.len ≠ 0 := by
    intro key hkey
    obtain ⟨i, _, rfl⟩ := mem_map.mp hkey
    show 2 ≠ 0
    decide
  have hlen : ((range 897).map numKey).length = 897 := by
    rw [length_map, length_range]
  obtain ⟨t, rs, hrun, hlt⟩ := filled_overcounts hcreate (by rw [hdir]; decide) hkeys hnodup
    (by rw [hdir, hlen]; decide) (by rw [hlen]; decide)
  exact ⟨t₀, t, rs, hcreate, hrun, by omega⟩

end NexCache.NexDash
