import NexCache.NexDash.Memory

/-!
# Storing under a deadline

What a reachable table makes of one `set`: whether the value can be read back
(`set_then_get`), what the key pool does (`pool_grows`), and when the three readers of
a deadline take the entry for expired (`deadline_kept`).

A `set` that finds the key expired drops the entry and stores nothing.
-/

namespace NexCache.NexDash

open Machine Bloom Runs Function List Option

/-! ### Reachable tables -/

/-- The table after some valid calls. -/
def Reachable (t : NexDashTable) : Prop :=
  ∃ initialSegments bloomSized freeCb t₀ es rs,
    nexdashCreate initialSegments bloomSized freeCb = some t₀ ∧
      (∀ e ∈ es, e.call.Valid) ∧ run ndStep t₀ es = some (t, rs)

/-- No entry has the type of a deleted one. -/
def Typed (m : Key → Option Entry) : Prop := ∀ key e, m key = some e → e.type.toNat ≤ 14

variable {t t' : NexDashTable} {key : Key} {now : Nat}

theorem Typed.update {m : Key → Option Entry} (h : Typed m) {x : Option Entry}
    (hx : ∀ e, x = some e → e.type.toNat ≤ 14) : Typed (update m key x) :=
  (forall_update_iff m fun _ o => ∀ e, o = some e → e.type.toNat ≤ 14).mpr ⟨hx,
    fun key' _ => h key'⟩

theorem Good.typed_move {R : Prop} (h : Good t) (hm : NdMove StoresTyped R t t')
    (ht : Typed (absMap t)) : Typed (absMap t') := by
  cases hm with
  | count stats => exact ht
  | remove hp hc =>
    obtain ⟨key, hkey⟩ := h.key_of_cell hp hc
    rw [h.absMap_remove hp hc hkey]
    exact ht.update nofun
  | @reexpire p sl hp hc enc =>
    obtain ⟨key, hkey⟩ := h.key_of_cell hp hc
    rw [h.absMap_reexpire hp hc hkey]
    refine ht.update ?_
    rintro e ⟨⟩
    exact ht key sl.entry (h.absMap_of_cell hp hc hkey)
  | promote hp hc hm =>
    rw [h.absMap_promote hp hc hm]
    exact ht
  | store hp hc hm hS valueSize expireUs =>
    rw [h.absMap_store hp hc hm hS]
    refine ht.update ?_
    rintro e ⟨⟩
    exact hS.2
  | create hkey hnew hcreate hS valueSize expireUs =>
    rw [h.absMap_create hkey hnew hcreate hS]
    refine ht.update ?_
    rintro e ⟨⟩
    exact hS.2
  | resize hR hresize =>
    rw [h.absMap_resize hresize]
    exact ht

theorem Reachable.good (h : Reachable t) : Good t ∧ Typed (absMap t) := by
  obtain ⟨_, _, _, t₀, es, rs, hcreate, hvalid, hrun⟩ := h
  obtain ⟨hgood, hempty⟩ := good_create hcreate
  have hstart : Typed (absMap t₀) := by
    rw [hempty]
    intro _ _ he
    cases he
  refine run_invariant (I := fun t => Good t ∧ Typed (absMap t)) ?_
    ⟨hgood, hstart⟩ (along_of_forall fun e he _ => hvalid e he) hrun
  rintro s e s' r ⟨hs, ht⟩ hv hstep
  obtain ⟨hsound, hkeyed, ht'⟩ := Sound.step_keeps
    (I := fun t => Keyed t ∧ Typed (absMap t))
    (fun _ _ hs hm hi => ⟨hi.1.move hs hm, Good.typed_move ⟨hs, hi.1⟩ hm hi.2⟩)
    hs.sound ⟨hs.keyed, ht⟩ hv.obeys (fun _ => trivial) hstep
  exact ⟨⟨hsound, hkeyed⟩, ht'⟩

theorem Reachable.step (h : Reachable t) {e : NdEvent} {r : NdReply} (hvalid : e.call.Valid)
    (hstep : ndStep t e = some (t', r)) : Reachable t' := by
  obtain ⟨n, b, cb, t₀, es, rs, hcreate, hes, hrun⟩ := h
  exact ⟨n, b, cb, t₀, es ++ [e], _, hcreate,
    forall_mem_append.mpr ⟨hes, forall_mem_singleton.mpr hvalid⟩, run_middle hrun hstep rfl⟩

theorem reachable_create {initialSegments : Nat} {bloomSized : NumBlocks} {freeCb : Bool}
    (h : nexdashCreate initialSegments bloomSized freeCb = some t) : Reachable t :=
  ⟨_, _, _, t, [], [], h, by simp, rfl⟩

/-! ### A value set is read back -/

variable {value : Addr} {valueSize type : BitVec 32} {expireUs : Nat} {arenaOk : Bool}

theorem Good.nexdashGet_stored (h : Good t) (hkey : key.len ≠ 0) (hS : StoresTyped key value type)
    (hset : NexDash.nexdashSet t key value valueSize type expireUs now arenaOk = some (t', 1)) :
    Good t' ∧ absMap t' key = some ⟨value, type, encodeExpire expireUs⟩ := by
  refine ⟨h.step (e := ⟨now, .set key value valueSize type expireUs arenaOk⟩) (r := .rc 1)
    ⟨hkey, hS⟩ (by simp only [ndStep, hset, map_some]), ?_⟩
  rcases h.nexdashSet hkey hS hset with ⟨_, hmap⟩ | ⟨h0, _⟩
  · rw [hmap, update_self]
  · cases h0

/-- **When a `set` is read back.** -/
theorem set_then_get (ht : Reachable t) (hvalid : (NdCall.set key value valueSize type expireUs
      arenaOk).Valid) (hslot : absMap t key ≠ none ∨ HasRoom t t.dirSize (fnv1a64 key))
    (now now' : Nat) :
    (∃ t', nexdashSet t key value valueSize type expireUs now arenaOk = some (t', 1) ∧
      (nexdashGet t' key now').2 = some (value, type)) ↔
    (∀ e, absMap t key = some e → e.expired now = false) ∧
      (absMap t key = none → t.keyPool.length + key.len + 1 ≤ 2 ^ 31) ∧
      (encodeExpire expireUs = 0 ∨ now' < decodeExpire (encodeExpire expireUs)) := by
  obtain ⟨hgood, _⟩ := ht.good
  have hone := hgood.nexdashSet_one hvalid.1 (hslot.imp_right (hgood.sound.shape.hasRoom_iff _).mp)
    value valueSize type expireUs now arenaOk
  have hget : ∀ t', nexdashSet t key value valueSize type expireUs now arenaOk = some (t', 1) →
      ((nexdashGet t' key now').2 = some (value, type) ↔
        (encodeExpire expireUs = 0 ∨ now' < decodeExpire (encodeExpire expireUs))) := by
    intro t' hset
    obtain ⟨hgood', hmap⟩ := hgood.nexdashGet_stored hvalid.1 hvalid.2 hset
    rw [(hgood'.nexdashGet hvalid.1 now').1]
    cases hexp : Entry.expired ⟨value, type, encodeExpire expireUs⟩ now' with
    | true =>
      rw [liveAt_expired hmap hexp]
      simp only [Entry.expired, Bool.and_eq_true, bne_iff_ne, decide_eq_true_eq] at hexp
      simp only [map_none, reduceCtorEq, false_iff, not_or, not_lt]
      exact hexp
    | false =>
      rw [liveAt_some hmap hexp]
      simp only [Entry.expired, Bool.and_eq_false_iff, bne_eq_false_iff_eq,
        decide_eq_false_iff_not, not_le] at hexp
      exact ⟨fun _ => hexp, fun _ => rfl⟩
  constructor
  · rintro ⟨t', hset, hread⟩
    obtain ⟨hlive, hfits⟩ := hone.mp ⟨t', hset⟩
    exact ⟨hlive, hfits, (hget t' hset).mp hread⟩
  · rintro ⟨hlive, hfits, hdead⟩
    obtain ⟨t', hset⟩ := hone.mpr ⟨hlive, hfits⟩
    exact ⟨t', hset, (hget t' hset).mpr hdead⟩

def shortKey : Key := ⟨[97], by decide⟩

/-- A created table takes the key. -/
theorem exists_stored (expireUs now : Nat) : ∃ t t', Reachable t ∧ absMap t shortKey = none ∧
    t.keyPool = [] ∧ HasRoom t t.dirSize (fnv1a64 shortKey) ∧
    nexdashSet t shortKey 1#48 5#32 2#32 expireUs now true = some (t', 1) ∧ Reachable t' ∧
      absMap t' shortKey = some ⟨1#48, 2#32, encodeExpire expireUs⟩ := by
  obtain ⟨t, hcreate⟩ := exists_nexdashCreate
  obtain ⟨hgood, hempty⟩ := good_create hcreate
  have hnone : absMap t shortKey = none := by rw [hempty]
  have hroom := hasRoom_of_empty (contents_create_eq_zero hcreate) t.dirSize (fnv1a64 shortKey)
  have hpool : t.keyPool = [] := by rw [nexdashCreate_eq hcreate]
  have hkey : shortKey.len ≠ 0 := by decide
  obtain ⟨t', hset⟩ :=
    (hgood.nexdashSet_one hkey (.inr ((hgood.sound.shape.hasRoom_iff _).mp hroom)) 1#48 5#32 2#32
      expireUs now true).mpr
    ⟨fun e he => absurd (hnone.symm.trans he) (by simp), fun _ => by rw [hpool]; decide⟩
  have hS : StoresTyped shortKey 1#48 2#32 := ⟨by decide, by decide⟩
  refine ⟨t, t', reachable_create hcreate, hnone, hpool, hroom, hset,
    (reachable_create hcreate).step (e := ⟨now, .set shortKey 1#48 5#32 2#32 expireUs true⟩)
      (r := .rc 1) ⟨hkey, hS⟩ (by simp only [ndStep, hset, map_some]),
    (hgood.nexdashGet_stored hkey hS hset).2⟩

theorem set_then_get_fresh : ∃ t t', Reachable t ∧ absMap t shortKey = none ∧
    nexdashSet t shortKey 1#48 5#32 2#32 0 0 true = some (t', 1) ∧
      (nexdashGet t' shortKey 0).2 = some (1#48, 2#32) := by
  obtain ⟨t, _, ht, hnone, hpool, hroom, _⟩ := exists_stored 0 0
  have hvalid : (NdCall.set shortKey 1#48 5#32 2#32 0 true).Valid :=
    ⟨by decide, by decide, by decide⟩
  obtain ⟨t', hset, hget⟩ := (set_then_get ht hvalid (.inr hroom) 0 0).mpr
    ⟨fun e he => absurd (hnone.symm.trans he) (by simp), fun _ => by rw [hpool]; decide, .inl rfl⟩
  exact ⟨t, t', ht, hnone, hset, hget⟩

/-- A `set` over an entry that expired at this very moment is lost. -/
theorem set_on_expired_lost : ∃ t, Reachable t ∧ absMap t shortKey ≠ none ∧
    ¬ ∃ t', nexdashSet t shortKey 1#48 5#32 2#32 0 (2 ^ 20) true = some (t', 1) := by
  obtain ⟨_, t, _, _, _, _, _, ht, hmap⟩ := exists_stored (2 ^ 20) 0
  have hthere : absMap t shortKey ≠ none := by rw [hmap]; simp
  refine ⟨t, ht, hthere, fun hone => ?_⟩
  obtain ⟨hlive, _⟩ := (ht.good.1.nexdashSet_one (by decide) (.inl hthere) ..).mp hone
  cases hlive _ hmap

/-! ### The key pool -/

/-- **The pool grows to hold the key exactly as long as `2^31` bytes suffice.** -/
theorem pool_grows (ht : Reachable t) (seg : NexDashSegment)
    (hfree : ∃ i ∈ slotIdx, seg.cell i = none) (key : Key) (bktStart hash : Nat) :
    (∃ t' seg' i, ndInsertIntoSegment t seg bktStart hash (some key) = .placed t' seg' i ∧
      t.keyPool.length + key.len + 1 ≤ t'.keyPoolCap ∧
      ∀ sl ∈ t.contents, slotKey t'.keyPool sl = slotKey t.keyPool sl) ↔
    t.keyPool.length + key.len + 1 ≤ 2 ^ 31 := by
  obtain ⟨hgood, _⟩ := ht.good
  have hpool := hgood.sound.pool
  cases hins : ndInsertIntoSegment t seg bktStart hash (some key) with
  | diverges =>
    have hbig := (hpool.spins_iff key).mp (ndInsertIntoSegment_diverges.mp hins).2
    refine ⟨nofun, fun hle => ?_⟩
    omega
  | full =>
    obtain ⟨i, hi, hc⟩ := hfree
    exact absurd hc (ndInsertIntoSegment_full.mp hins i hi)
  | placed t' seg' i =>
    obtain ⟨_, _, _, cap, rfl, hcap⟩ := ndInsertIntoSegment_placed hins
    obtain ⟨⟨j, hj, hpow⟩, hfit⟩ := hpool.grown (hcap key rfl)
    have hle : 2 ^ j ≤ 2 ^ 31 := Nat.pow_le_pow_right (by decide) hj
    refine ⟨fun _ => by omega, fun _ => ⟨_, _, _, rfl, hfit, fun sl hsl => ?_⟩⟩
    show slotKey (t.keyPool ++ key.bytes ++ [0]) sl = _
    rw [append_assoc, slotKey_append (hgood.keyed.keys sl hsl).range]

/-- Rounds of `set` and `del` leave an empty table with 256 bytes for each in its pool. -/
theorem exists_churned {n : Nat} (hn : 256 * n ≤ 2 ^ 31) :
    ∃ t, Reachable t ∧ t.contents = 0 ∧ t.keyPool.length = 256 * n := by
  have hkey : churnKey.len ≠ 0 := by rw [len_churnKey]; decide
  induction n with
  | zero =>
    obtain ⟨t, hcreate⟩ := exists_nexdashCreate
    refine ⟨t, reachable_create hcreate, contents_create_eq_zero hcreate, ?_⟩
    rw [nexdashCreate_eq hcreate]
    rfl
  | succ n ih =>
    obtain ⟨t, ht, hempty, hlen⟩ := ih (by omega)
    obtain ⟨t₁, r₁, hset, hone, hbound, hlen₁⟩ := ht.good.1.churnSet_step hempty (by omega)
    have ht₁ := ht.step (e := churnSet) ⟨hkey, by decide, by decide⟩ hset
    obtain ⟨t₂, r₂, hdel, hempty₂, hpool₂⟩ := ht₁.good.1.churnDel_step hone hbound
    exact ⟨t₂, ht₁.step (e := churnDel) hkey hdel, hempty₂, by rw [hpool₂]; omega⟩

/-- A pool that was created with 65536 bytes and has used them all is made larger. -/
theorem pool_grows_doubled : ∃ t t' seg' i, Reachable t ∧ t.keyPool.length = 65536 ∧
    ndInsertIntoSegment t .zero 0 0 (some shortKey) = .placed t' seg' i ∧
    65536 < t'.keyPoolCap := by
  obtain ⟨t, ht, _, hpool⟩ := exists_churned (show 256 * 256 ≤ 2 ^ 31 by decide)
  obtain ⟨t', seg', i, hplaced, hcap, _⟩ :=
    (pool_grows ht .zero ⟨(0, 0), mem_slotIdx.mpr (by decide), rfl⟩ shortKey 0 0).mpr
      (by rw [hpool]; decide)
  exact ⟨t, t', seg', i, ht, hpool, hplaced, by omega⟩

/-- After `2^23` rounds of `set` and `del` the loop never ends. -/
theorem pool_spins : ∃ t, Reachable t ∧ ndStep t churnSet = none := by
  obtain ⟨t₀, hcreate⟩ := exists_nexdashCreate
  have hnone := (good_create hcreate).1.run_churn (2 ^ 23) (contents_create_eq_zero hcreate)
    (by rw [nexdashCreate_eq hcreate]; norm_num)
  obtain ⟨es, e, es', t, rs, hes, hrun, hstep⟩ := run_none hnone
  have hmem : ∀ e' ∈ es ++ e :: es', e' = churnSet ∨ e' = churnDel :=
    fun e' he' => mem_churn (by rw [hes]; exact he')
  refine ⟨t, ⟨4, 1, false, t₀, es, rs, hcreate, fun e' he' => ?_, hrun⟩, ?_⟩
  · rcases hmem e' (by simp [he']) with rfl | rfl
    · exact ⟨by rw [len_churnKey]; decide, by decide, by decide⟩
    · show churnKey.len ≠ 0
      rw [len_churnKey]
      decide
  · rcases hmem e (by simp) with rfl | rfl
    · exact hstep
    · cases hstep

/-! ### The readers of a deadline -/

/-- One iteration of `nexdash_scan`: the arguments of the callback. -/
def ndScanSlot (t : NexDashTable) (now : Nat) (p : Pos) : Option (List UInt8 × Addr × BitVec 4) :=
  match t.cell p with
  | none => none
  | some sl =>
    if tagGetType sl.valuePtr = ntypeDeleted.setWidth 4 then none
    else if slotExpired sl now then none
    else some (slotKey t.keyPool sl, tagGetAddr sl.valuePtr, tagGetType sl.valuePtr)

/-- `nexdash_scan`: the calls of the callback, in order. -/
def nexdashScan (t : NexDashTable) (now : Nat) : List (List UInt8 × Addr × BitVec 4) :=
  (slotOrder t.dirSize).filterMap (ndScanSlot t now)

theorem ndScanExpiredSlot_passed {p : Pos} (hp : p ∈ positions t.dirSize) (now : Nat) :
    Visited t (ndScanExpiredSlot now t p) ∧
      ∀ sl, (ndScanExpiredSlot now t p).cell p = some sl → slotExpired sl now = false := by
  unfold ndScanExpiredSlot
  cases hc : t.cell p with
  | none => exact ⟨.refl t, fun sl hsl => by rw [hc] at hsl; cases hsl⟩
  | some sl =>
    simp only
    cases hexp : slotExpired sl now with
    | true =>
      rw [if_pos rfl]
      have hv := visited_ndRemoveSlot hp
      refine ⟨⟨hv.dirSize, hv.used, hv.cells⟩, fun sl' hsl' => ?_⟩
      change (ndRemoveSlot t p).cell p = some sl' at hsl'
      rw [cell_ndRemoveSlot t (mem_positions.mp hp).2, update_self] at hsl'
      cases hsl'
    | false =>
      rw [if_neg (by simp)]
      refine ⟨.refl t, fun sl' hsl' => ?_⟩
      obtain rfl := mem_unique hc hsl'
      exact hexp

theorem foldl_scanExpired (now : Nat) (ps : List Pos) : ∀ t : NexDashTable,
    (∀ p ∈ ps, p ∈ positions t.dirSize) → Visited t (ps.foldl (ndScanExpiredSlot now) t) ∧
      ∀ p ∈ ps, ∀ sl, (ps.foldl (ndScanExpiredSlot now) t).cell p = some sl →
        slotExpired sl now = false := by
  induction ps with
  | nil => exact fun t _ => ⟨.refl t, by simp⟩
  | cons p ps ih =>
    intro t hps
    obtain ⟨hv, hpassed⟩ := ndScanExpiredSlot_passed (hps p (by simp)) now
    obtain ⟨hv', hrest⟩ := ih (ndScanExpiredSlot now t p)
      fun q hq => by rw [hv.dirSize]; exact hps q (by simp [hq])
    exact ⟨hv.trans hv', forall_mem_cons.mpr
      ⟨fun sl hsl => hpassed sl (hv'.cells p sl hsl), hrest⟩⟩

/-- Lookup and scan pass over the entry, and the expiry scan drops it. -/
def TakenExpired (t : NexDashTable) (key : Key) (now : Nat) : Prop :=
  (nexdashGet t key now).2 = none ∧ (∀ r ∈ nexdashScan t now, r.1 ≠ key.bytes) ∧
    absMap (nexdashScanExpired t now) key = none

/-- Lookup and scan report the entry, and the expiry scan keeps it. -/
def TakenLive (t : NexDashTable) (key : Key) (now : Nat) : Prop :=
  (nexdashGet t key now).2 ≠ none ∧ (∃ r ∈ nexdashScan t now, r.1 = key.bytes) ∧
    absMap (nexdashScanExpired t now) key ≠ none

/-- **The three readers agree.** -/
theorem Good.taken (h : Good t) (ht : Typed (absMap t)) (hkey : key.len ≠ 0) {e : Entry}
    (he : absMap t key = some e) (now : Nat) :
    if e.expired now then TakenExpired t key now else TakenLive t key now := by
  have hget := (h.nexdashGet hkey now).1
  have hdrops := h.nexdashScanExpired now key
  have hslots : ∀ p ∈ positions t.dirSize, ∀ sl, t.cell p = some sl →
      slotKey t.keyPool sl = key.bytes → sl.entry = e := fun p hp sl hc hsl =>
    some.inj ((h.absMap_of_cell hp hc hsl).symm.trans he)
  split
  · rename_i hexp
    refine ⟨by rw [hget, liveAt_expired he hexp]; rfl, ?_, ?_⟩
    · intro r hr hrkey
      obtain ⟨p, hp, hr⟩ := mem_filterMap.mp hr
      rw [ndScanSlot] at hr
      split at hr
      · cases hr
      · rename_i sl hc
        split at hr
        · cases hr
        · split at hr
          · cases hr
          · rename_i hlive
            obtain rfl := some.inj hr
            rw [slotExpired_eq, hslots p (mem_slotOrder.mp hp) sl hc hrkey] at hlive
            exact hlive hexp
    · rcases hdrops with heq | ⟨hnone, _⟩
      · have h' := h.step (e := ⟨now, .scanExpired⟩) trivial rfl
        rw [he] at heq
        obtain ⟨sl, hsl, _, rfl⟩ := h'.absMap_eq_some.mp heq
        obtain ⟨p, hp, hc⟩ := NexDashTable.mem_contents.mp hsl
        obtain ⟨hv, hpassed⟩ := foldl_scanExpired now (slotOrder t.dirSize) t
          fun p hp => mem_slotOrder.mp hp
        rw [show (NexDash.nexdashScanExpired t now).dirSize = _ from hv.dirSize] at hp
        have hno := hpassed p (mem_slotOrder.mpr hp) sl hc
        rw [slotExpired_eq, hexp] at hno
        cases hno
      · exact hnone
  · rename_i hlive
    refine ⟨by rw [hget, liveAt_some he (by simpa using hlive)]; simp, ?_, ?_⟩
    · obtain ⟨sl, hsl, hslkey, rfl⟩ := h.absMap_eq_some.mp he
      obtain ⟨p, hp, hc⟩ := NexDashTable.mem_contents.mp hsl
      have htype : tagGetType sl.valuePtr ≠ ntypeDeleted.setWidth 4 := by
        intro hdel
        have hle : ((tagGetType sl.valuePtr).setWidth 32).toNat ≤ 14 := ht key _ he
        rw [hdel] at hle
        exact absurd hle (by decide)
      have hscan : ndScanSlot t now p = some (slotKey t.keyPool sl, tagGetAddr sl.valuePtr,
          tagGetType sl.valuePtr) := by
        rw [ndScanSlot, hc]
        simp only
        rw [if_neg htype, if_neg (by rw [slotExpired_eq]; exact hlive)]
      exact ⟨_, mem_filterMap.mpr ⟨p, mem_slotOrder.mpr hp, hscan⟩, hslkey⟩
    · rcases hdrops with heq | ⟨_, e', he', hexp⟩
      · rw [heq, he]
        simp
      · obtain rfl := mem_unique he he'
        exact absurd hexp hlive

/-- `nexdash_set` or `nexdash_expire` has taken the deadline. -/
def Accepted (t : NexDashTable) (key : Key) (expireUs : Nat) (t' : NexDashTable) : Prop :=
  ∃ now, (∃ value valueSize type arenaOk, StoresTyped key value type ∧
      nexdashSet t key value valueSize type expireUs now arenaOk = some (t', 1)) ∨
    nexdashExpire t key expireUs now = (t', 1)

theorem Reachable.accepted (ht : Reachable t) (hkey : key.len ≠ 0)
    (h : Accepted t key expireUs t') : Reachable t' ∧
      ∃ e, absMap t' key = some e ∧ e.deadline = encodeExpire expireUs := by
  obtain ⟨hgood, _⟩ := ht.good
  obtain ⟨now, ⟨value, valueSize, type, arenaOk, hS, hset⟩ | hexp⟩ := h
  · refine ⟨ht.step (e := ⟨now, .set key value valueSize type expireUs arenaOk⟩) (r := .rc 1)
      ⟨hkey, hS⟩ (by simp only [ndStep, hset, map_some]), _,
      (hgood.nexdashGet_stored hkey hS hset).2, rfl⟩
  · refine ⟨ht.step (e := ⟨now, .expire key expireUs⟩) (r := .rc 1) hkey
      (by simp only [ndStep, hexp]), ?_⟩
    rcases hgood.nexdashExpire key expireUs now with ⟨e, _, _, hmap⟩ | ⟨_, h0, _⟩
    · rw [hexp] at hmap
      exact ⟨_, by rw [hmap, update_self], rfl⟩
    · rw [hexp] at h0
      cases h0

/-- **A deadline is kept to within `2^20` microseconds if and only if it is from `2^20` on
and below `2^52`.** -/
theorem deadline_kept (ht : Reachable t) (hkey : key.len ≠ 0) (hpos : expireUs ≠ 0)
    (hacc : Accepted t key expireUs t') :
    ((∀ now, (expireUs ≤ now → TakenExpired t' key now) ∧
      (now + 2 ^ 20 < expireUs → TakenLive t' key now)) ∧
      ∀ e, absMap t' key = some e → e.deadline ≠ 0) ↔ 2 ^ 20 ≤ expireUs ∧ expireUs < 2 ^ 52 := by
  obtain ⟨ht', e, he, hdead⟩ := ht.accepted hkey hacc
  obtain ⟨hgood, htyped⟩ := ht'.good
  have htaken := hgood.taken htyped hkey he
  have hexpired : ∀ now, e.expired now = true ↔
      encodeExpire expireUs ≠ 0 ∧ decodeExpire (encodeExpire expireUs) ≤ now := by
    intro now
    rw [Entry.expired, hdead, Bool.and_eq_true, bne_iff_ne, decide_eq_true_eq]
  constructor
  · rintro ⟨hall, hne⟩
    have henc := hne e he
    rw [hdead] at henc
    have hval : encodeExpire expireUs = expireUs / 2 ^ 20 % 2 ^ 32 := by
      rw [encodeExpire, if_neg hpos, Nat.shiftRight_eq_div_pow, u32]
    refine ⟨by rw [hval] at henc; omega, ?_⟩
    by_contra hbig
    -- the deadline has wrapped: at the decoded time the entry is taken for expired
    have hdec : decodeExpire (encodeExpire expireUs) = expireUs / 2 ^ 20 % 2 ^ 32 * 2 ^ 20 := by
      rw [decodeExpire, if_neg henc, Nat.shiftLeft_eq, hval]
    have hnow := htaken (decodeExpire (encodeExpire expireUs))
    rw [if_pos ((hexpired _).mpr ⟨henc, Nat.le_refl _⟩)] at hnow
    exact ((hall _).2 (by rw [hdec]; omega)).1 hnow.1
  · intro henc
    have hround := decode_encode henc
    have hne := encodeExpire_ne_zero henc
    refine ⟨fun now => ⟨fun hle => ?_, fun hlt => ?_⟩, fun e' he' => ?_⟩
    · have hnow := htaken now
      rwa [if_pos ((hexpired now).mpr ⟨hne, hround.1.trans hle⟩)] at hnow
    · have hnow := htaken now
      rwa [if_neg (fun hexp => by have := ((hexpired now).mp hexp).2; omega)] at hnow
    · obtain rfl := mem_unique he he'
      rwa [hdead]

theorem deadline_kept_second : ∃ t, Reachable t ∧ TakenExpired t shortKey (2 ^ 20) := by
  obtain ⟨t, t', ht, _, _, _, hset, ht', _⟩ := exists_stored (2 ^ 20) 0
  exact ⟨t', ht', (((deadline_kept ht (by decide) (by decide)
    ⟨0, .inl ⟨1#48, 5#32, 2#32, true, ⟨by decide, by decide⟩, hset⟩⟩).mpr
    (by decide)).1 (2 ^ 20)).1 (Nat.le_refl _)⟩

/-- A deadline of one microsecond is stored as none. -/
theorem deadline_dropped : ∃ t t', Reachable t ∧
    nexdashSet t shortKey 1#48 5#32 2#32 1 0 true = some (t', 1) ∧
      ∀ now, TakenLive t' shortKey now := by
  obtain ⟨t, t', ht, _, _, _, hset, ht', hmap⟩ := exists_stored 1 0
  refine ⟨t, t', ht, hset, fun now => ?_⟩
  obtain ⟨hgood, htyped⟩ := ht'.good
  exact hgood.taken htyped (by decide) hmap now

end NexCache.NexDash
