import NexCache.NexDash.Keys

/-!
# The operations on the map

What each operation does to `absMap t`, one theorem for each.  A lookup may drop the
entry it finds expired, and a scan drops all of them, so those operations keep the
map up to entries that have expired: `Drops now m m'`.
-/

namespace NexCache.NexDash

open Machine Bloom Function List Option

/-! ### Moves on the map -/

section Moves

variable {t t' : NexDashTable} {p : Pos} {sl : NexDashSlot} {key : Key}

/-- A promotion changes the tier only. -/
theorem entry_promotedSlot (sl : NexDashSlot) (key : Key) :
    (promotedSlot sl key).entry = sl.entry := by
  rw [promotedSlot, NexDashSlot.entry, NexDashSlot.entry, tagGetAddr_setMeta, tagGetType_setMeta]
  congr 2
  simp

variable {value : Addr} {type : BitVec 32}

theorem entry_storedSlot (sl : NexDashSlot) (key : Key) (htype : type.toNat < 16) (value : Addr)
    (valueSize : BitVec 32) (expireUs : Nat) :
    (storedSlot sl key value valueSize type expireUs).entry
      = ⟨value, type, encodeExpire expireUs⟩ := by
  rw [storedSlot, NexDashSlot.entry, tagGetAddr_setMeta, tagGetType_setMeta]
  have hback : (type.setWidth 4).setWidth 32 = type := by
    apply BitVec.eq_of_toNat_eq
    rw [BitVec.toNat_setWidth, BitVec.toNat_setWidth]
    omega
  rw [hback]

theorem StoresTyped.lt (h : StoresTyped key value type) :
    type.toNat < 16 := Nat.lt_succ_of_le (Nat.le_succ_of_le h.2)

variable (h : Good t)
include h

theorem Good.absMap_create (hkey : key.len ≠ 0) (hnew : ndProbe t key (fnv1a64 key) = none)
    (hcreate : ndCreateSlot t key (fnv1a64 key) = some (some (t', p)))
    (hS : StoresTyped key value type) (valueSize : BitVec 32) (expireUs : Nat) :
    absMap (ndStore t' p key value valueSize type expireUs)
      = update (absMap t) key (some ⟨value, type, encodeExpire expireUs⟩) := by
  have h' : Good (ndStore t' p key value valueSize type expireUs) :=
    h.move (R := True) (.create hkey hnew hcreate hS valueSize expireUs)
  have hcont := contents_create h.sound.shape.dirPos hcreate value valueSize type expireUs
  have hsame := sameKey_newSlot t key hS.lt value valueSize expireUs
  have hpool := (pool_create hcreate).1
  have hslot : slotKey (ndStore t' p key value valueSize type expireUs).keyPool
      (newSlot t key value valueSize type expireUs) = key.bytes := by
    rw [keyPool_ndStore, hpool, hsame.slotKey_eq, slotKey_fresh]
  rw [absMap_cons h h' hcont hslot, newSlot, entry_storedSlot _ _ hS.lt]
  intro key' _ e
  rw [keyPool_ndStore, hpool, append_assoc]
  refine exists_congr fun s => and_congr_right fun hs => ?_
  rw [slotKey_append (h.keyed.keys s hs).range]

theorem Good.absMap_resize {arenaOk : Bool} (hresize : ndResize t arenaOk = some t') :
    absMap t' = absMap t := by
  have h' : Good t' := h.move (.resize trivial hresize)
  obtain ⟨hcont, _, ht'⟩ := ndResize_spec h.sound.shape hresize
  have hpool : t'.keyPool = t.keyPool := by rw [ht']
  ext key e
  rw [h'.absMap_eq_some, h.absMap_eq_some, hcont, hpool]

variable (hp : p ∈ positions t.dirSize) (hc : t.cell p = some sl)
include hp hc

theorem Good.key_of_cell : ∃ key : Key, slotKey t.keyPool sl = key.bytes := by
  have hlen := (h.keyed.keys sl (NexDashTable.mem_contents.mpr ⟨p, hp, hc⟩)).length_slotKey
  exact ⟨⟨slotKey t.keyPool sl, by omega⟩, rfl⟩

theorem Good.absMap_remove (hkey : slotKey t.keyPool sl = key.bytes) :
    absMap (ndRemoveSlot t p) = update (absMap t) key none := by
  have h' : Good (ndRemoveSlot t p) := h.move (R := True) (.remove hp hc)
  exact NexDash.absMap_remove h h' (contents_ndRemoveSlot hp hc) (keyPool_ndRemoveSlot t p) hkey

theorem Good.absMap_reexpire (hkey : slotKey t.keyPool sl = key.bytes) (enc : Nat) :
    absMap (t.setSlot p { sl with expireUs32 := enc })
      = update (absMap t) key (some { sl.entry with deadline := enc }) := by
  have h' : Good (t.setSlot p { sl with expireUs32 := enc }) :=
    h.move (R := True) (.reexpire hp hc enc)
  obtain ⟨rest, hold, hnew⟩ := contents_setSlot hp hc { sl with expireUs32 := enc }
  exact absMap_rewrite h h' hold hnew rfl ⟨rfl, rfl, rfl⟩ hkey

variable (hm : slotMatches t key (fnv1a64 key) sl = true)
include hm

theorem Good.key_of_match : slotKey t.keyPool sl = key.bytes :=
  (KeyOk.slotMatches_iff (h.keyed.keys sl (NexDashTable.mem_contents.mpr ⟨p, hp, hc⟩)) key).mp hm

theorem Good.absMap_promote : absMap (t.setSlot p (promotedSlot sl key)) = absMap t := by
  have h' : Good (t.setSlot p (promotedSlot sl key)) := h.move (R := True) (.promote hp hc hm)
  obtain ⟨rest, hold, hnew⟩ := contents_setSlot hp hc (promotedSlot sl key)
  have hkey := h.key_of_match hp hc hm
  rw [absMap_rewrite h h' hold hnew rfl (sameKey_promotedSlot (len_of_slotMatches hm)) hkey,
    entry_promotedSlot, ← h.absMap_of_cell hp hc hkey, update_eq_self]

theorem Good.absMap_store (hS : StoresTyped key value type) (valueSize : BitVec 32)
    (expireUs : Nat) : absMap (ndStore t p key value valueSize type expireUs)
      = update (absMap t) key (some ⟨value, type, encodeExpire expireUs⟩) := by
  have h' : Good (ndStore t p key value valueSize type expireUs) :=
    h.move (R := True) (.store hp hc hm hS valueSize expireUs)
  obtain ⟨rest, hold, hnew⟩ := contents_ndStore hp hc key value valueSize type expireUs
  rw [absMap_rewrite h h' hold hnew (keyPool_ndStore ..)
    (sameKey_storedSlot (len_of_slotMatches hm) hS.lt value valueSize expireUs)
    (h.key_of_match hp hc hm), entry_storedSlot _ _ hS.lt]

end Moves

/-! ### Expired entries -/

/-- `m'` is `m` without some entries that have expired. -/
def Drops (now : Nat) (m m' : Key → Option Entry) : Prop :=
  ∀ key, m' key = m key ∨ m' key = none ∧ ∃ e, m key = some e ∧ e.expired now = true

/-- The entry of a key, unless it has expired. -/
def liveAt (m : Key → Option Entry) (now : Nat) (key : Key) : Option Entry :=
  (m key).filter fun e => !e.expired now

section Drops

variable {now : Nat} {m m' m'' : Key → Option Entry}

theorem Drops.refl (now : Nat) (m : Key → Option Entry) : Drops now m m := fun _ => .inl rfl

theorem Drops.trans (h : Drops now m m') (h' : Drops now m' m'') : Drops now m m'' := by
  intro key
  rcases h' key with heq' | ⟨hnone, e, he, hexp⟩
  · rw [heq']
    exact h key
  · rcases h key with heq | ⟨hnone', _⟩
    · exact .inr ⟨hnone, e, by rw [← heq]; exact he, hexp⟩
    · rw [hnone'] at he
      simp at he

theorem Entry.expired_mono {e : Entry} {now' : Nat} (hle : now ≤ now')
    (h : e.expired now = true) : e.expired now' = true := by
  simp only [Entry.expired, Bool.and_eq_true, decide_eq_true_eq] at h ⊢
  exact ⟨h.1, h.2.trans hle⟩

theorem Drops.later {now' : Nat} (h : Drops now m m') (hle : now ≤ now') : Drops now' m m' := by
  intro key
  rcases h key with heq | ⟨hnone, e, he, hexp⟩
  · exact .inl heq
  · exact .inr ⟨hnone, e, he, Entry.expired_mono hle hexp⟩

theorem Drops.update (h : Drops now m m') (key : Key) (x : Option Entry) :
    Drops now (update m key x) (update m' key x) := by
  intro key'
  by_cases hk : key' = key
  · subst hk
    exact .inl (by rw [update_self, update_self])
  · rw [update_of_ne hk, update_of_ne hk]
    exact h key'

theorem drops_update_none {key : Key} {e : Entry} (he : m key = some e)
    (hexp : e.expired now = true) : Drops now m (update m key none) := by
  intro key'
  by_cases hk : key' = key
  · subst hk
    exact .inr ⟨by rw [update_self], e, he, hexp⟩
  · exact .inl (update_of_ne hk _ _)

/-- What has been dropped was not live. -/
theorem Drops.liveAt_eq (h : Drops now m m') (key : Key) :
    liveAt m' now key = liveAt m now key := by
  rw [liveAt, liveAt]
  rcases h key with heq | ⟨hnone, e, he, hexp⟩
  · rw [heq]
  · rw [hnone, he]
    simp [Option.filter, hexp]

end Drops

/-! ### The calls -/

variable {t : NexDashTable} {key : Key}

theorem absMap_of_ndProbe_none (h : ndProbe t key (fnv1a64 key) = none) : absMap t key = none := by
  rw [absMap, h]
  rfl

variable {e : Entry}

/-- A key in the table passes the Bloom check. -/
theorem Good.bloom_of_absMap (h : Good t)
    (he : absMap t key = some e) : nexbloomCheck t.bloom (fnv1a64 key) = true := by
  obtain ⟨sl, hsl, hkey, _⟩ := h.absMap_eq_some.mp he
  have hbloom := h.keyed.bloom sl hsl
  rw [(h.keyed.keys sl hsl).hash, hkey] at hbloom
  exact hbloom

/-- The three outcomes of a lookup, on the map. -/
theorem Good.ndFindExisting_cases (h : Good t) (key : Key) (now : Nat) :
    (ndFindExisting t key now = (t, none) ∧ absMap t key = none) ∨
    (∃ t' e, ndFindExisting t key now = (t', none) ∧ absMap t key = some e ∧
      e.expired now = true ∧ absMap t' = update (absMap t) key none) ∨
    (∃ p sl, p ∈ positions t.dirSize ∧ t.cell p = some sl ∧ t.slotAt p = sl ∧
      slotMatches t key (fnv1a64 key) sl = true ∧ ndFindExisting t key now = (t, some p) ∧
      absMap t key = some sl.entry ∧ sl.entry.expired now = false) := by
  rcases NexDash.ndFindExisting_cases h.sound.shape.dirPos key now with ⟨hf, hnone⟩ |
    ⟨p, sl, hp, hc, hm, hexp, hf⟩ | ⟨p, sl, hp, hc, hat, hm, hexp, hf⟩
  · exact .inl ⟨hf, absMap_of_ndProbe_none hnone⟩
  · have hkey := h.key_of_match hp hc hm
    exact .inr (.inl ⟨_, sl.entry, hf, h.absMap_of_cell hp hc hkey, hexp,
      h.absMap_remove hp hc hkey⟩)
  · exact .inr (.inr ⟨p, sl, hp, hc, hat, hm, hf,
      h.absMap_of_cell hp hc (h.key_of_match hp hc hm), hexp⟩)

variable {m : Key → Option Entry} {now : Nat}

theorem liveAt_none (h : m key = none) : liveAt m now key = none := by
  rw [liveAt, h]
  rfl

theorem liveAt_expired (h : m key = some e)
    (hexp : e.expired now = true) : liveAt m now key = none := by
  rw [liveAt, h]
  simp [Option.filter, hexp]

theorem liveAt_some (h : m key = some e)
    (hexp : e.expired now = false) : liveAt m now key = some e := by
  rw [liveAt, h]
  simp [Option.filter, hexp]

/-- **`get` returns the live entry of the key.** -/
theorem Good.nexdashGet (h : Good t) (hkey : key.len ≠ 0) (now : Nat) :
    (nexdashGet t key now).2 = (liveAt (absMap t) now key).map (fun e => (e.value, e.type)) ∧
      Drops now (absMap t) (absMap (nexdashGet t key now).1) := by
  unfold NexDash.nexdashGet
  rw [if_neg hkey]
  cases hbloom : nexbloomCheck t.bloom (fnv1a64 key) with
  | false =>
    have hnone : absMap t key = none := by
      cases he : absMap t key with
      | none => rfl
      | some e => rw [h.bloom_of_absMap he] at hbloom; simp at hbloom
    rw [if_pos rfl, liveAt_none hnone]
    exact ⟨rfl, .refl _ _⟩
  | true =>
    rw [if_neg (by simp)]
    rcases h.ndFindExisting_cases key now with ⟨hf, hnone⟩ | ⟨t', e, hf, he, hexp, hmap⟩ |
      ⟨p, sl, hp, hc, hat, hm, hf, he, hexp⟩
    · rw [hf, liveAt_none hnone]
      exact ⟨rfl, .refl _ _⟩
    · rw [hf, liveAt_expired he hexp]
      refine ⟨rfl, ?_⟩
      show Drops now (absMap t) (absMap t')
      rw [hmap]
      exact drops_update_none he hexp
    · rw [hf, liveAt_some he hexp]
      simp only [hat]
      refine ⟨rfl, ?_⟩
      split
      · have hprom := h.absMap_promote hp hc hm
        show Drops now (absMap t) (absMap (t.setSlot p (promotedSlot sl key)))
        rw [hprom]
        exact .refl _ _
      · exact .refl _ _

/-- **`del` unbinds the key.** -/
theorem Good.nexdashDel (h : Good t) (hkey : key.len ≠ 0) :
    absMap (nexdashDel t key).1 = update (absMap t) key none ∧
      (nexdashDel t key).2 = if (absMap t key).isSome then 1 else 0 := by
  unfold NexDash.nexdashDel
  rw [if_neg hkey]
  cases hprobe : ndProbe t key (fnv1a64 key) with
  | none =>
    have hnone := absMap_of_ndProbe_none hprobe
    refine ⟨?_, by rw [hnone]; rfl⟩
    show absMap t = _
    rw [← hnone, update_eq_self]
  | some p =>
    obtain ⟨hp, hc, hm⟩ := ndProbe_some h.sound.shape.dirPos hprobe
    have hkeyof := h.key_of_match hp hc hm
    refine ⟨h.absMap_remove hp hc hkeyof, ?_⟩
    rw [h.absMap_of_cell hp hc hkeyof]
    rfl

/-- **`expire` gives a live key a new deadline.** -/
theorem Good.nexdashExpire (h : Good t) (key : Key) (expireUs now : Nat) :
    (∃ e, liveAt (absMap t) now key = some e ∧ (nexdashExpire t key expireUs now).2 = 1 ∧
      absMap (nexdashExpire t key expireUs now).1
        = update (absMap t) key
            (some { e with deadline := encodeExpire expireUs })) ∨
    (liveAt (absMap t) now key = none ∧ (nexdashExpire t key expireUs now).2 = 0 ∧
      Drops now (absMap t) (absMap (nexdashExpire t key expireUs now).1)) := by
  unfold NexDash.nexdashExpire
  rcases h.ndFindExisting_cases key now with ⟨hf, hnone⟩ | ⟨t', e, hf, he, hexp, hmap⟩ |
    ⟨p, sl, hp, hc, hat, hm, hf, he, hexp⟩
  · rw [hf]
    exact .inr ⟨liveAt_none hnone, rfl, .refl _ _⟩
  · rw [hf]
    refine .inr ⟨liveAt_expired he hexp, rfl, ?_⟩
    rw [hmap]
    exact drops_update_none he hexp
  · rw [hf]
    refine .inl ⟨sl.entry, liveAt_some he hexp, rfl, ?_⟩
    simp only [hat]
    exact h.absMap_reexpire hp hc (h.key_of_match hp hc hm) _

/-- **A `set` that returns binds the key, or changes nothing that is live.** -/
theorem Good.nexdashSet {t t' : NexDashTable} (h : Good t) (hkey : key.len ≠ 0) {value : Addr}
    {type : BitVec 32} (hS : StoresTyped key value type) {valueSize : BitVec 32}
    {expireUs now rc : Nat} {arenaOk : Bool}
    (hset : nexdashSet t key value valueSize type expireUs now arenaOk = some (t', rc)) :
    (rc = 1 ∧ absMap t'
      = update (absMap t) key (some ⟨value, type, encodeExpire expireUs⟩)) ∨
    (rc = 0 ∧ Drops now (absMap t) (absMap t')) := by
  have hcase := nexdashSet_case h.sound.shape hkey value valueSize type expireUs now arenaOk
  rw [hset] at hcase
  cases hcase with
  | expired hp hc hm hexp =>
    have hkeyof := h.key_of_match hp hc hm
    refine .inr ⟨rfl, ?_⟩
    rw [h.absMap_remove hp hc hkeyof]
    exact drops_update_none (h.absMap_of_cell hp hc hkeyof) hexp
  | overwrite hp hc hm hexp => exact .inl ⟨rfl, h.absMap_store hp hc hm hS valueSize expireUs⟩
  | created hnew hcreate =>
    exact .inl ⟨rfl, h.absMap_create hkey hnew hcreate hS valueSize expireUs⟩
  | refused => exact .inr ⟨rfl, .refl _ _⟩
  | doubled hnew hfull hresize hnew₂ hcreate =>
    have h₂ : Good _ := h.move (.resize trivial hresize)
    refine .inl ⟨rfl, ?_⟩
    rw [h₂.absMap_create hkey hnew₂ hcreate hS, h.absMap_resize hresize]
  | stillFull hnew hfull hresize =>
    refine .inr ⟨rfl, ?_⟩
    rw [h.absMap_resize hresize]
    exact .refl _ _

/-- A created slot has passed the growth loop. -/
theorem PoolOk.fits_of_created {t' : NexDashTable} (h : PoolOk t) {hash : Nat} {p : Pos}
    (hcreate : ndCreateSlot t key hash = some (some (t', p))) :
    t.keyPool.length + key.len + 1 ≤ 2 ^ 31 := by
  obtain ⟨_, _, _, cap, hcap, _⟩ := ndCreateSlot_some hcreate
  obtain ⟨⟨j, hj, hpow⟩, hfit⟩ := h.grown hcap
  have : 2 ^ j ≤ 2 ^ 31 := Nat.pow_le_pow_right (by decide) hj
  omega

/-- A `set` with a slot for its key stores unless the old entry has expired or the pool
spins. -/
theorem Good.nexdashSet_one (h : Good t) (hkey : key.len ≠ 0) (hslot : absMap t key ≠ none ∨
      ∃ i ∈ slotIdx, (t.directory (fnv1a64 key % t.dirSize)).cell i = none) (value : Addr)
    (valueSize type : BitVec 32) (expireUs now : Nat) (arenaOk : Bool) :
    (∃ t', NexDash.nexdashSet t key value valueSize type expireUs now arenaOk = some (t', 1)) ↔
      (∀ e, absMap t key = some e → e.expired now = false) ∧
        (absMap t key = none → t.keyPool.length + key.len + 1 ≤ 2 ^ 31) := by
  have hcase := nexdashSet_case h.sound.shape hkey value valueSize type expireUs now arenaOk
  have hroom : ndProbe t key (fnv1a64 key) = none → ¬ HomeFull t (fnv1a64 key) := by
    intro hnew hfull
    obtain ⟨i, hi, hc⟩ := hslot.resolve_left (not_not_intro (absMap_of_ndProbe_none hnew))
    exact hfull i hi hc
  generalize NexDash.nexdashSet t key value valueSize type expireUs now arenaOk = r at hcase
  cases hcase with
  | expired hp hc hm hexp =>
    have hsl := h.absMap_of_cell hp hc (h.key_of_match hp hc hm)
    refine ⟨fun hone => by simp at hone, fun hlive => ?_⟩
    have hno := hlive.1 _ hsl
    rw [← slotExpired_eq, hexp] at hno
    cases hno
  | overwrite hp hc hm hexp =>
    have hsl := h.absMap_of_cell hp hc (h.key_of_match hp hc hm)
    refine ⟨fun _ => ⟨fun e he => ?_, fun hnone => ?_⟩, fun _ => ⟨_, rfl⟩⟩
    · obtain rfl := mem_unique hsl he
      exact hexp
    · rw [hsl] at hnone
      cases hnone
  | created hnew hcreate =>
    refine ⟨fun _ => ⟨fun e he => ?_, fun _ => h.sound.pool.fits_of_created hcreate⟩,
      fun _ => ⟨_, rfl⟩⟩
    rw [absMap_of_ndProbe_none hnew] at he
    cases he
  | spins hnew hcreate =>
    have hbig := (h.sound.pool.spins_iff key).mp (ndCreateSlot_none.mp hcreate).2
    refine ⟨nofun, fun hfits => ?_⟩
    have hle := hfits.2 (absMap_of_ndProbe_none hnew)
    omega
  | refused hnew hfull | doubled hnew hfull | doubledSpins hnew hfull | stillFull hnew hfull =>
    exact absurd hfull (hroom hnew)

theorem Good.nexdashSet_live (h : Good t) (hkey : key.len ≠ 0)
    (hlive : liveAt (absMap t) now key = some e) (value : Addr) (valueSize type : BitVec 32)
    (expireUs : Nat) (arenaOk : Bool) :
    ∃ t', NexDash.nexdashSet t key value valueSize type expireUs now arenaOk = some (t', 1) := by
  obtain ⟨he, hno⟩ := filter_eq_some_iff.mp hlive
  have hthere : absMap t key ≠ none := by
    rw [he]
    simp
  refine (h.nexdashSet_one hkey (.inl hthere) value valueSize type expireUs now arenaOk).mpr
    ⟨fun e' he' => ?_, fun hnone => absurd hnone hthere⟩
  obtain rfl := mem_unique he he'
  simpa using hno

/-- **A scan drops expired entries only.** -/
theorem Good.nexdashScanExpired (h : Good t) (now : Nat) :
    Drops now (absMap t) (absMap (nexdashScanExpired t now)) := by
  have hfold : Good (NexDash.nexdashScanExpired t now) ∧
      (NexDash.nexdashScanExpired t now).dirSize = t.dirSize ∧
      Drops now (absMap t) (absMap (NexDash.nexdashScanExpired t now)) := by
    refine List.foldlRecOn (slotOrder t.dirSize) (ndScanExpiredSlot now)
      (motive := fun s => Good s ∧ s.dirSize = t.dirSize ∧ Drops now (absMap t) (absMap s))
      ⟨h, rfl, .refl _ _⟩ ?_
    rintro s ⟨hs, hdir, hdrops⟩ p hp
    have hp' : p ∈ positions s.dirSize := by rw [hdir]; exact mem_slotOrder.mp hp
    unfold ndScanExpiredSlot
    cases hc : s.cell p with
    | none => exact ⟨hs, hdir, hdrops⟩
    | some sl =>
      simp only
      split
      · rename_i hexp
        obtain ⟨key, hkey⟩ := hs.key_of_cell hp' hc
        have hgood : Good (ndRemoveSlot s p) := hs.move (R := True) (.remove hp' hc)
        refine ⟨hgood.move (R := True) (.count _ _), (dirSize_ndRemoveSlot s p).trans hdir, ?_⟩
        refine hdrops.trans ?_
        show Drops now (absMap s) (absMap (ndRemoveSlot s p))
        rw [hs.absMap_remove hp' hc hkey]
        exact drops_update_none (hs.absMap_of_cell hp' hc hkey) hexp
      · exact ⟨hs, hdir, hdrops⟩
  exact hfold.2.2

/-! ### Eviction -/

/-- `m` without the keys `ks`. -/
def without (m : Key → Option Entry) (ks : List Key) (key : Key) : Option Entry :=
  if key ∈ ks then none else m key

/-- The state of an eviction that has removed the keys `ks` from `m`. -/
structure Unbinding (m : Key → Option Entry) (n : Nat) (ks : List Key)
    (acc : NexDashTable × List NexDashSlot) : Prop where
  good : Good acc.1
  dirSize : acc.1.dirSize = n
  length : ks.length = acc.2.length
  nodup : ks.Nodup
  bound : ∀ key ∈ ks, m key ≠ none
  map : absMap acc.1 = without m ks

section Evict

variable {n : Nat} {ks : List Key} {acc : NexDashTable × List NexDashSlot}
  (h : Unbinding m n ks acc) (target : Nat) (want : Eviction2QTier)
include h

theorem Unbinding.slot {p : Pos} (hp : p ∈ positions n) :
    ∃ ks', Unbinding m n ks' (ndEvictSlot target want acc p) := by
  have hp' : p ∈ positions acc.1.dirSize := by rw [h.dirSize]; exact hp
  unfold ndEvictSlot
  split
  · cases hc : acc.1.cell p with
    | none => exact ⟨ks, h⟩
    | some sl =>
      simp only
      split
      · exact ⟨ks, h⟩
      · obtain ⟨key, hkey⟩ := h.good.key_of_cell hp' hc
        have hentry := h.good.absMap_of_cell hp' hc hkey
        have hmap := h.good.absMap_remove hp' hc hkey
        have hgood : Good (ndRemoveSlot acc.1 p) := h.good.move (R := True) (.remove hp' hc)
        rw [h.map, without] at hentry
        have hnot : key ∉ ks := by
          intro hin
          rw [if_pos hin] at hentry
          simp at hentry
        rw [if_neg hnot] at hentry
        refine ⟨key :: ks, ⟨hgood.move (R := True) (.count _ _),
          (dirSize_ndRemoveSlot _ _).trans h.dirSize, ?_, nodup_cons.mpr ⟨hnot, h.nodup⟩,
          ?_, ?_⟩⟩
        · rw [length_cons, length_append, length_singleton, h.length]
        · refine forall_mem_cons.mpr ⟨?_, h.bound⟩
          rw [hentry]
          simp
        · show absMap (ndRemoveSlot acc.1 p) = _
          rw [hmap, h.map]
          ext key' e
          by_cases hk : key' = key
          · subst hk
            rw [update_self, without, if_pos (by simp)]
          · rw [update_of_ne hk, without, without]
            simp [hk]
  · exact ⟨ks, h⟩

theorem Unbinding.pass : ∃ ks', Unbinding m n ks' (ndEvictPass target acc want) := by
  unfold ndEvictPass
  rw [h.dirSize]
  refine List.foldlRecOn (slotOrder n) (ndEvictSlot target want)
    (motive := fun acc => ∃ ks', Unbinding m n ks' acc) ⟨ks, h⟩ ?_
  rintro acc' ⟨ks', h'⟩ p hp
  exact h'.slot target want (mem_slotOrder.mp hp)

end Evict

/-- **An eviction unbinds as many keys as it reports.** -/
theorem Good.ndEvict (h : Good t) (target : Nat) :
    ∃ ks : List Key, ks.length = (ndEvict t target).2.length ∧ ks.Nodup ∧
      (∀ key ∈ ks, absMap t key ≠ none) ∧
      absMap (ndEvict t target).1 = without (absMap t) ks := by
  have hstart : Unbinding (absMap t) t.dirSize [] (t, []) :=
    ⟨h, rfl, rfl, nodup_nil, nofun, by ext; simp [without]⟩
  obtain ⟨ks₁, h₁⟩ := hstart.pass target .tierProbatory
  obtain ⟨ks₂, h₂⟩ := h₁.pass target .tierProtected
  exact ⟨ks₂, h₂.length, h₂.nodup, h₂.bound, h₂.map⟩

end NexCache.NexDash
