import NexCache.NexDash.Operations

/-!
# The table refines a finite map

`MapStep` is the map: a `set` that returns `1` binds its key, `del` and eviction
unbind, `expire` renews the deadline of a live key, and `get` answers with the
binding unless its encoded deadline has passed.  `nexdash_refines_map` says that the
replies of a run of the table are a history of the map.

The runs that have no replies are those in which a `set` spins: the key pool is
never compacted, and once it holds so much that the next key does not fit into
`2^31` bytes the capacity is doubled to `0` for ever.  `churn_spins` is such a run.
-/

namespace NexCache.NexDash

open Machine Bloom Runs List Option Function

/-! ### When a call does not return -/

/-- A directory of `n` segments has room for one more entry with this hash. -/
def HasRoom (t : NexDashTable) (n hash : Nat) : Prop :=
  (t.contents.filter fun sl => sl.keyHash % n = hash % n).card < NEXDASH_SEGMENT_ITEMS

/-- The call is a `set` that appends its key to the pool: the key is absent and its home
segment has room, now or after a doubling. -/
def NdCall.Appends (t : NexDashTable) : NdCall → Prop
  | .set key _ _ _ _ arenaOk => key.len ≠ 0 ∧ ndProbe t key (fnv1a64 key) = none ∧
      (HasRoom t t.dirSize (fnv1a64 key) ∨
        (t.dirSize < u32 (t.dirSize * 2) ∧ arenaOk = true) ∧
          HasRoom t (t.dirSize * 2) (fnv1a64 key))
  | _ => False

/-- The key the call would append. -/
def NdCall.keyLen : NdCall → Nat
  | .set key _ _ _ _ _ => key.len
  | _ => 0

/-- A key that is appended fits into `2^31` bytes of pool. -/
def KeyFits (t : NexDashTable) (e : NdEvent) : Prop :=
  e.call.Appends t → t.keyPool.length + e.call.keyLen + 1 ≤ 2 ^ 31

variable {t : NexDashTable}

theorem Shape.hasRoom_iff (hs : Shape t) (hash : Nat) :
    HasRoom t t.dirSize hash
      ↔ ∃ i ∈ slotIdx, (t.directory (hash % t.dirSize)).cell i = none := by
  rw [HasRoom, hs.filter_home (Nat.mod_lt _ hs.dirPos), ← card_slotIdx]
  exact Cells.card_contents_lt_iff

theorem Shape.hasRoom_double {t t₂ : NexDashTable} (hs : Shape t) {arenaOk : Bool}
    (hresize : ndResize t arenaOk = some t₂) (hash : Nat) :
    HasRoom t (t.dirSize * 2) hash
      ↔ ∃ i ∈ slotIdx, (t₂.directory (hash % t₂.dirSize)).cell i = none := by
  obtain ⟨hcont, hs₂, ht₂⟩ := ndResize_spec hs hresize
  have hdir : t₂.dirSize = t.dirSize * 2 := by rw [ht₂]
  rw [← hs₂.hasRoom_iff, HasRoom, HasRoom, hcont, hdir]

variable {t' : NexDashTable}

/-- **When `set` spins.** -/
theorem Sound.nexdashSet_isSome (h : Sound t) {key : Key} (hkey : key.len ≠ 0) (value : Addr)
    (valueSize type : BitVec 32) (expireUs now : Nat) (arenaOk : Bool) :
    (nexdashSet t key value valueSize type expireUs now arenaOk).isSome
      ↔ KeyFits t ⟨now, .set key value valueSize type expireUs arenaOk⟩ := by
  have hcase := nexdashSet_case h.shape hkey value valueSize type expireUs now arenaOk
  have hmatch : ∀ {p : Pos} {sl : NexDashSlot}, p ∈ positions t.dirSize → t.cell p = some sl →
      slotMatches t key (fnv1a64 key) sl = true → ndProbe t key (fnv1a64 key) ≠ none := by
    intro p sl hp hc hm hnone
    have hno := ndProbe_none h.shape hnone sl (NexDashTable.mem_contents.mpr ⟨p, hp, hc⟩)
    rw [hm] at hno
    simp at hno
  have hpool₂ : ∀ {t₂ : NexDashTable}, ndResize t arenaOk = some t₂ →
      PoolOk t₂ ∧ t₂.keyPool = t.keyPool := by
    intro t₂ hresize
    obtain ⟨_, _, ht₂⟩ := ndResize_spec h.shape hresize
    refine ⟨(h.move (S := fun _ _ _ => True) (.resize trivial hresize)).pool, ?_⟩
    rw [ht₂]
  generalize nexdashSet t key value valueSize type expireUs now arenaOk = r at hcase
  cases hcase with
  | expired hp hc hm hexp | overwrite hp hc hm hexp =>
    exact ⟨fun _ happ => absurd happ.2.1 (hmatch hp hc hm), fun _ => rfl⟩
  | created hnew hcreate =>
    exact ⟨fun _ _ => h.pool.fits_of_created hcreate, fun _ => rfl⟩
  | spins hnew hcreate =>
    obtain ⟨hfree, hspin⟩ := ndCreateSlot_none.mp hcreate
    have hbig := (h.pool.spins_iff key).mp hspin
    refine ⟨nofun, fun hfits => ?_⟩
    have hle : t.keyPool.length + key.len + 1 ≤ 2 ^ 31 :=
      hfits ⟨hkey, hnew, .inl ((h.shape.hasRoom_iff _).mpr hfree)⟩
    omega
  | refused hnew hfull hresize =>
    refine ⟨fun _ happ => ?_, fun _ => rfl⟩
    rcases happ.2.2 with hroom | ⟨hguard, _⟩
    · obtain ⟨i, hi, hfree⟩ := (h.shape.hasRoom_iff _).mp hroom
      exact absurd hfree (hfull i hi)
    · have hsome := ndResize_isSome.mpr hguard
      rw [hresize] at hsome
      simp at hsome
  | doubled hnew hfull hresize hnew₂ hcreate =>
    obtain ⟨hok, hpool⟩ := hpool₂ hresize
    refine ⟨fun _ _ => ?_, fun _ => rfl⟩
    have hle := hok.fits_of_created hcreate
    rw [hpool] at hle
    exact hle
  | doubledSpins hnew hfull hresize hcreate =>
    obtain ⟨hok, hpool⟩ := hpool₂ hresize
    obtain ⟨hfree, hspin⟩ := ndCreateSlot_none.mp hcreate
    have hbig := (hok.spins_iff key).mp hspin
    rw [hpool] at hbig
    refine ⟨fun hf => by simp at hf, fun hfits => ?_⟩
    have hle : t.keyPool.length + key.len + 1 ≤ 2 ^ 31 :=
      hfits ⟨hkey, hnew, .inr ⟨ndResize_isSome.mp (by rw [hresize]; rfl),
        (h.shape.hasRoom_double hresize _).mpr hfree⟩⟩
    omega
  | stillFull hnew hfull hresize hfull₂ =>
    refine ⟨fun _ happ => ?_, fun _ => rfl⟩
    rcases happ.2.2 with hroom | ⟨_, hroom⟩
    · obtain ⟨i, hi, hfree⟩ := (h.shape.hasRoom_iff _).mp hroom
      exact absurd hfree (hfull i hi)
    · obtain ⟨i, hi, hfree⟩ := (h.shape.hasRoom_double hresize _).mp hroom
      exact absurd hfree (hfull₂ i hi)

/-! ### The map -/

/-- One call of the map, with its reply. -/
inductive MapStep : (Key → Option Entry) → NdEvent → NdReply → (Key → Option Entry) → Prop
  | set (m : Key → Option Entry) (now : Nat) (key : Key) (value : Addr)
      (valueSize type : BitVec 32) (expireUs : Nat) (arenaOk : Bool) :
      MapStep m ⟨now, .set key value valueSize type expireUs arenaOk⟩ (.rc 1)
        (update m key (some ⟨value, type, encodeExpire expireUs⟩))
  | setFails (m : Key → Option Entry) (now : Nat) (key : Key) (value : Addr)
      (valueSize type : BitVec 32) (expireUs : Nat) (arenaOk : Bool) :
      MapStep m ⟨now, .set key value valueSize type expireUs arenaOk⟩ (.rc 0) m
  | get (m : Key → Option Entry) (now : Nat) (key : Key) :
      MapStep m ⟨now, .get key⟩
        (.value ((liveAt m now key).map fun e => (e.value, e.type))) m
  | del {m : Key → Option Entry} {now : Nat} {key : Key} {rc : Nat}
      (hlive : liveAt m now key ≠ none → rc = 1) (habsent : m key = none → rc = 0) :
      MapStep m ⟨now, .del key⟩ (.rc rc) (update m key none)
  | expire {m : Key → Option Entry} {now : Nat} {key : Key} {e : Entry}
      (hlive : liveAt m now key = some e) (expireUs : Nat) :
      MapStep m ⟨now, .expire key expireUs⟩ (.rc 1)
        (update m key (some { e with deadline := encodeExpire expireUs }))
  | expireMiss {m : Key → Option Entry} {now : Nat} {key : Key}
      (hlive : liveAt m now key = none) (expireUs : Nat) :
      MapStep m ⟨now, .expire key expireUs⟩ (.rc 0) m
  | evict {m : Key → Option Entry} {ks : List Key} (hnodup : ks.Nodup)
      (hbound : ∀ key ∈ ks, m key ≠ none) (now target : Nat) :
      MapStep m ⟨now, .evict target⟩ (.rc ks.length) (without m ks)
  | scanExpired (m : Key → Option Entry) (now : Nat) :
      MapStep m ⟨now, .scanExpired⟩ .done m

/-- Keys of 1 to 255 bytes, values other than `NULL`, types `0` to `14`. -/
def NdCall.Valid : NdCall → Prop
  | .set key value _ type _ _ => key.len ≠ 0 ∧ StoresTyped key value type
  | .get key => key.len ≠ 0
  | .del key => key.len ≠ 0
  | .expire key _ => key.len ≠ 0
  | .evict _ => True
  | .scanExpired => True

theorem NdCall.Valid.obeys {call : NdCall} (h : call.Valid) : call.Obeys StoresTyped := by
  cases call with
  | set key value valueSize type expireUs arenaOk => exact h.2
  | _ => trivial

variable {e : NdEvent}

theorem Good.step (h : Good t) {r : NdReply} (hvalid : e.call.Valid)
    (hstep : ndStep t e = some (t', r)) : Good t' := by
  obtain ⟨hsound, hkeyed⟩ := Sound.step_keeps
    (fun _ _ hs hm hk => Keyed.move hs hm hk) h.sound h.keyed hvalid.obeys (fun _ => trivial) hstep
  exact ⟨hsound, hkeyed⟩

theorem Drops.without {now : Nat} {m m' : Key → Option Entry} (h : Drops now m m')
    (ks : List Key) : Drops now (without m ks) (without m' ks) := by
  intro key
  rw [NexDash.without, NexDash.without]
  by_cases hk : key ∈ ks
  · rw [if_pos hk, if_pos hk]
    exact .inl rfl
  · rw [if_neg hk, if_neg hk]
    exact h key

/-- **One call.**  `M` is the map, and the table holds `M` up to expired entries. -/
theorem Good.simulates (h : Good t) {r : NdReply} (hvalid : e.call.Valid) {M : Key → Option Entry}
    (hM : Drops e.now M (absMap t)) (hstep : ndStep t e = some (t', r)) :
    ∃ M', MapStep M e r M' ∧ Drops e.now M' (absMap t') := by
  obtain ⟨now, call⟩ := e
  cases call with
  | set key value valueSize type expireUs arenaOk =>
    obtain ⟨⟨t₁, rc⟩, hset, rfl, rfl⟩ := map_result hstep
    rcases h.nexdashSet hvalid.1 hvalid.2 hset with ⟨rfl, hmap⟩ | ⟨rfl, hdrops⟩
    · refine ⟨_, .set M now key value valueSize type expireUs arenaOk, ?_⟩
      rw [hmap]
      exact hM.update key _
    · exact ⟨M, .setFails M now key value valueSize type expireUs arenaOk, hM.trans hdrops⟩
  | get key =>
    obtain ⟨rfl, rfl⟩ := result_inj hstep
    obtain ⟨hreply, hdrops⟩ := h.nexdashGet hvalid now
    refine ⟨M, ?_, hM.trans hdrops⟩
    rw [hreply, hM.liveAt_eq]
    exact .get M now key
  | del key =>
    obtain ⟨rfl, rfl⟩ := result_inj hstep
    obtain ⟨hmap, hrc⟩ := h.nexdashDel hvalid
    refine ⟨update M key none, .del ?_ ?_, ?_⟩
    · intro hlive
      rw [← hM.liveAt_eq] at hlive
      have hsome : (absMap t key).isSome := by
        cases he : absMap t key with
        | none => exact absurd (liveAt_none he) hlive
        | some e => rfl
      rw [hrc, if_pos hsome]
    · intro habsent
      rcases hM key with heq | ⟨hnone, _⟩
      · rw [hrc, heq, habsent]
        rfl
      · rw [hrc, hnone]
        rfl
    · rw [hmap]
      exact hM.update key none
  | expire key expireUs =>
    obtain ⟨rfl, rfl⟩ := result_inj hstep
    rcases h.nexdashExpire key expireUs now with ⟨e, hlive, hrc, hmap⟩ | ⟨hlive, hrc, hdrops⟩
    · rw [hM.liveAt_eq] at hlive
      rw [hrc, hmap]
      exact ⟨_, .expire hlive expireUs, hM.update key _⟩
    · rw [hM.liveAt_eq] at hlive
      rw [hrc]
      exact ⟨M, .expireMiss hlive expireUs, hM.trans hdrops⟩
  | evict target =>
    obtain ⟨rfl, rfl⟩ := result_inj hstep
    dsimp only [nexdashEvictToTarget]
    obtain ⟨ks, hlen, hnodup, hbound, hmap⟩ := h.ndEvict target
    refine ⟨without M ks, ?_, ?_⟩
    · rw [← hlen]
      refine .evict hnodup ?_ now target
      intro key hk hnone
      rcases hM key with heq | ⟨hno, _⟩
      · exact hbound key hk (heq.trans hnone)
      · exact hbound key hk hno
    · rw [hmap]
      exact hM.without ks
  | scanExpired =>
    obtain ⟨rfl, rfl⟩ := result_inj hstep
    exact ⟨M, .scanExpired M now, hM.trans (h.nexdashScanExpired now)⟩

/-! ### Runs -/

theorem Good.run_traces {es : List NdEvent} : ∀ {t t' : NexDashTable} {rs : List NdReply}
    {M : Key → Option Entry} {clock : Nat}, Good t → Drops clock M (absMap t) →
      (∀ e ∈ es, e.call.Valid) → (∀ e ∈ es, clock ≤ e.now) →
      es.Pairwise (fun e e' => e.now ≤ e'.now) → run ndStep t es = some (t', rs) →
      ∃ M', Traces MapStep M es rs M' := by
  induction es with
  | nil =>
    intro t t' rs M clock _ _ _ _ _ hrun
    simp only [run, some.injEq, Prod.mk.injEq] at hrun
    rw [← hrun.2]
    exact ⟨M, .nil M⟩
  | cons e es ih =>
    intro t t' rs M clock h hM hvalid hclock hsorted hrun
    obtain ⟨t₁, r, rs', hstep, hrest, rfl⟩ := run_cons hrun
    have hve := hvalid e (by simp)
    obtain ⟨M₁, hspec, hM₁⟩ := h.simulates hve (hM.later (hclock e (by simp))) hstep
    obtain ⟨hlater, hsorted'⟩ := pairwise_cons.mp hsorted
    obtain ⟨M', htrace⟩ := ih (h.step hve hstep) hM₁ (fun e' he' => hvalid e' (by simp [he']))
      hlater hsorted' hrest
    exact ⟨M', .cons hspec htrace⟩

theorem Sound.ndStep_isSome (h : Sound t)
    (hvalid : e.call.Valid) : (ndStep t e).isSome ↔ KeyFits t e := by
  obtain ⟨now, call⟩ := e
  cases call with
  | set key value valueSize type expireUs arenaOk =>
    rw [← h.nexdashSet_isSome hvalid.1]
    simp only [ndStep, isSome_map]
  | _ => exact ⟨fun _ happ => happ.elim, fun _ => rfl⟩

theorem good_create {initialSegments : Nat} {bloomSized : NumBlocks} {freeCb : Bool}
    (h : nexdashCreate initialSegments bloomSized freeCb = some t) :
    Good t ∧ absMap t = fun _ => none := by
  have hcont := contents_create_eq_zero h
  have hkeyed : Keyed t := by
    refine ⟨?_, ?_, ?_⟩ <;> rw [hcont] <;> simp
  refine ⟨⟨sound_create h, hkeyed⟩, ?_⟩
  ext key : 1
  rw [Good.absMap_eq_none ⟨sound_create h, hkeyed⟩, hcont]
  simp

/-- **The table is a map in every run whose keys fit the pool, and only those runs
return.** -/
theorem nexdash_refines_map (initialSegments : Nat) (bloomSized : NumBlocks) (freeCb : Bool)
    (es : List NdEvent) (hvalid : ∀ e ∈ es, e.call.Valid)
    (hclock : es.Pairwise fun e e' => e.now ≤ e'.now) :
    (∃ t₀ t rs M, nexdashCreate initialSegments bloomSized freeCb = some t₀ ∧
      run ndStep t₀ es = some (t, rs) ∧ Traces MapStep (fun _ => none) es rs M) ↔
    initialSegments ≤ 2 ^ 31 ∧
      ∀ t₀, nexdashCreate initialSegments bloomSized freeCb = some t₀ →
        Along ndStep KeyFits t₀ es := by
  rw [← nexdashCreate_isSome initialSegments bloomSized freeCb]
  have hreturns : ∀ t₀, nexdashCreate initialSegments bloomSized freeCb = some t₀ →
      ((run ndStep t₀ es).isSome ↔ Along ndStep KeyFits t₀ es) := by
    intro t₀ hcreate
    exact run_isSome_iff
      (fun _ _ _ _ h hv hstep => h.step hv hstep) (fun _ _ h hv => h.sound.ndStep_isSome hv)
      (good_create hcreate).1 hvalid
  constructor
  · rintro ⟨t₀, t, rs, M, hcreate, hrun, _⟩
    refine ⟨by rw [hcreate]; rfl, fun t₁ hcreate₁ => ?_⟩
    obtain rfl : t₀ = t₁ := mem_unique hcreate hcreate₁
    exact (hreturns t₀ hcreate).mp (by rw [hrun]; rfl)
  · rintro ⟨hsome, hal⟩
    obtain ⟨t₀, hcreate⟩ := isSome_iff_exists.mp hsome
    obtain ⟨⟨t, rs⟩, hrun⟩ :=
      isSome_iff_exists.mp ((hreturns t₀ hcreate).mpr (hal t₀ hcreate))
    obtain ⟨hgood, hempty⟩ := good_create hcreate
    have hstart : Drops 0 (fun _ => none) (absMap t₀) := by
      rw [hempty]
      exact .refl _ _
    obtain ⟨M, htrace⟩ := hgood.run_traces hstart hvalid (fun _ _ => Nat.zero_le _) hclock hrun
    exact ⟨t₀, t, rs, M, hcreate, hrun, htrace⟩

/-- A short history: a key is stored and read back. -/
theorem nexdash_refines_map_set_get :
    ∃ t₀ t rs M, nexdashCreate 4 1 false = some t₀ ∧
      run ndStep t₀ [⟨0, .set ⟨[97], by decide⟩ 1#48 5#32 2#32 0 true⟩, ⟨1, .get ⟨[97], by decide⟩⟩]
        = some (t, rs) ∧
      Traces MapStep (fun _ => none)
        [⟨0, .set ⟨[97], by decide⟩ 1#48 5#32 2#32 0 true⟩, ⟨1, .get ⟨[97], by decide⟩⟩] rs M := by
  refine (nexdash_refines_map 4 1 false _ ?_ (by simp)).mpr ⟨by decide, fun t₀ hcreate => ?_⟩
  · intro e he
    simp only [mem_cons, not_mem_nil, or_false] at he
    rcases he with rfl | rfl
    · exact ⟨by decide, by decide, by decide⟩
    · show SizedBytes.len _ ≠ 0
      decide
  · refine ⟨fun _ => ?_, fun _ _ _ => ⟨fun happ => happ.elim, fun _ _ _ => trivial⟩⟩
    rw [nexdashCreate_eq hcreate]
    show 0 + 1 + 1 ≤ 2 ^ 31
    decide

/-! ### A run that spins -/

/-- 255 times the letter `a`. -/
def byteKey (b : UInt8) : Key := ⟨[b], by rw [length_singleton]; decide⟩

/-- Three keys are set, one of them twice, and another one is deleted. -/
def setsAndDel : List NdEvent :=
  [⟨0, .set (byteKey 97) 1#48 5#32 0#32 0 true⟩, ⟨0, .set (byteKey 98) 2#48 6#32 0#32 0 true⟩,
    ⟨0, .set (byteKey 97) 3#48 7#32 0#32 0 true⟩, ⟨0, .set (byteKey 99) 4#48 8#32 0#32 0 true⟩,
    ⟨0, .del (byteKey 98)⟩]

def churnKey : Key := ⟨List.replicate 255 97, by rw [length_replicate]; decide⟩

def churnSet : NdEvent := ⟨0, .set churnKey 1#48 0#32 0#32 0 true⟩

def churnDel : NdEvent := ⟨0, .del churnKey⟩

/-- `n` times `set` and `del` of one key, and a last `set`. -/
def churn : Nat → List NdEvent
  | 0 => [churnSet]
  | n + 1 => churnSet :: churnDel :: churn n

theorem mem_churn {n : Nat} (h : e ∈ churn n) : e = churnSet ∨ e = churnDel := by
  induction n with
  | zero => exact .inl (by simpa [churn] using h)
  | succ n ih =>
    simp only [churn, mem_cons] at h
    rcases h with h | h | h
    · exact .inl h
    · exact .inr h
    · exact ih h

theorem len_churnKey : churnKey.len = 255 := length_replicate

theorem hasRoom_of_empty (hempty : t.contents = 0) (n hash : Nat) : HasRoom t n hash := by
  rw [HasRoom, hempty, Multiset.filter_zero, Multiset.card_zero]
  decide

/-- An empty table lacks every key and has room in every segment. -/
theorem appends_of_empty (hs : 0 < t.dirSize) (hempty : t.contents = 0) :
    churnSet.call.Appends t := by
  refine ⟨by rw [len_churnKey]; decide, ndProbe_eq_none_of hs ?_,
    .inl (hasRoom_of_empty hempty _ _)⟩
  rw [hempty]
  simp

/-- One `set` into an empty table whose pool has room. -/
theorem Good.churnSet_step (h : Good t) (hempty : t.contents = 0)
    (hfit : t.keyPool.length + 256 ≤ 2 ^ 31) :
    ∃ t' r, ndStep t churnSet = some (t', r) ∧ t'.contents.card = 1 ∧
      absMap t' churnKey ≠ none ∧ t'.keyPool.length = t.keyPool.length + 256 := by
  have hkey : churnKey.len ≠ 0 := by rw [len_churnKey]; decide
  have hS : StoresTyped churnKey 1#48 0#32 := ⟨by decide, by decide⟩
  have hnone : ∀ {p : Pos} {sl : NexDashSlot}, p ∈ positions t.dirSize → t.cell p ≠ some sl := by
    intro p sl hp hc
    have hmem := NexDashTable.mem_contents.mpr ⟨p, hp, hc⟩
    rw [hempty] at hmem
    simp at hmem
  have hroom : ¬ HomeFull t (fnv1a64 churnKey) := by
    obtain ⟨i, hi, hc⟩ := (h.sound.shape.hasRoom_iff (fnv1a64 churnKey)).mp
      (hasRoom_of_empty hempty _ _)
    exact fun hfull => hfull i hi hc
  have hsome : (ndStep t churnSet).isSome := by
    rw [h.sound.ndStep_isSome (show churnSet.call.Valid from ⟨hkey, hS⟩)]
    intro _
    show t.keyPool.length + churnKey.len + 1 ≤ 2 ^ 31
    rw [len_churnKey]
    omega
  obtain ⟨⟨t', r⟩, hstep⟩ := isSome_iff_exists.mp hsome
  refine ⟨t', r, hstep, ?_⟩
  simp only [churnSet, ndStep] at hstep
  obtain ⟨⟨t₁, rc⟩, hset, rfl, _⟩ := map_result hstep
  have hcase := nexdashSet_case h.sound.shape hkey 1#48 0#32 0#32 0 0 true
  rw [hset] at hcase
  cases hcase with
  | expired hp hc | overwrite hp hc => exact absurd hc (hnone hp)
  | created hnew hcreate =>
    refine ⟨?_, ?_, ?_⟩
    · rw [contents_create h.sound.shape.dirPos hcreate, hempty]
      rfl
    · rw [h.absMap_create hkey hnew hcreate hS, update_self]
      simp
    · rw [keyPool_ndStore, (pool_create hcreate).1, length_append, length_append]
      show t.keyPool.length + churnKey.len + 1 = _
      rw [len_churnKey]
  | refused hnew hfull | doubled hnew hfull | stillFull hnew hfull => exact absurd hfull hroom

/-- `del` of the only entry empties the table; the pool keeps its bytes. -/
theorem Good.churnDel_step (h : Good t) (hone : t.contents.card = 1)
    (hbound : absMap t churnKey ≠ none) :
    ∃ t' r, ndStep t churnDel = some (t', r) ∧ t'.contents = 0 ∧ t'.keyPool = t.keyPool := by
  refine ⟨_, _, rfl, ?_⟩
  unfold NexDash.nexdashDel
  rw [if_neg (by rw [len_churnKey]; decide)]
  cases hprobe : ndProbe t churnKey (fnv1a64 churnKey) with
  | none => exact absurd (absMap_of_ndProbe_none hprobe) hbound
  | some p =>
    obtain ⟨hp, hc, _⟩ := ndProbe_some h.sound.shape.dirPos hprobe
    refine ⟨?_, keyPool_ndRemoveSlot t p⟩
    rw [contents_ndRemoveSlot hp hc, Multiset.card_cons] at hone
    show (ndRemoveSlot t p).contents = 0
    exact Multiset.card_eq_zero.mp (by omega)

/-- Each round leaves 256 bytes in the pool, until a `set` spins. -/
theorem Good.run_churn (n : Nat) : ∀ {t : NexDashTable}, Good t → t.contents = 0 →
    t.keyPool.length + 256 * n = 2 ^ 31 → run ndStep t (churn n) = none := by
  have hvalid : churnSet.call.Valid := ⟨by rw [len_churnKey]; decide, by decide, by decide⟩
  induction n with
  | zero =>
    intro t h hempty hlen
    have hspin : ndStep t churnSet = none := by
      rw [← not_isSome_iff_eq_none, h.sound.ndStep_isSome hvalid]
      intro hfits
      have hle : t.keyPool.length + churnKey.len + 1 ≤ 2 ^ 31 :=
        hfits (appends_of_empty h.sound.shape.dirPos hempty)
      rw [len_churnKey] at hle
      omega
    rw [churn, run, hspin]
  | succ n ih =>
    intro t h hempty hlen
    obtain ⟨t₁, r₁, hset, hone, hbound, hlen₁⟩ := h.churnSet_step hempty (by omega)
    have h₁ := h.step hvalid hset
    obtain ⟨t₂, r₂, hdel, hempty₂, hpool₂⟩ := h₁.churnDel_step hone hbound
    have h₂ := h₁.step (by show churnKey.len ≠ 0; rw [len_churnKey]; decide) hdel
    have hrest := ih h₂ hempty₂ (by rw [hpool₂]; omega)
    rw [churn, run, hset]
    simp only
    rw [run, hdel]
    simp only
    rw [hrest]
    rfl

/-- **After `2^23` rounds the next `set` never returns.** -/
theorem churn_spins :
    (∀ e ∈ churn (2 ^ 23), e.call.Valid) ∧
      (churn (2 ^ 23)).Pairwise (fun e e' => e.now ≤ e'.now) ∧
      ∃ t₀, nexdashCreate 4 1 false = some t₀ ∧ run ndStep t₀ (churn (2 ^ 23)) = none := by
  have hzero : ∀ e ∈ churn (2 ^ 23), e.now = 0 := by
    intro e he
    rcases mem_churn he with rfl | rfl <;> rfl
  refine ⟨?_, ?_, ?_⟩
  · intro e he
    rcases mem_churn he with rfl | rfl
    · exact ⟨by rw [len_churnKey]; decide, by decide, by decide⟩
    · show churnKey.len ≠ 0
      rw [len_churnKey]
      decide
  · refine pairwise_of_forall_mem_list fun e he e' he' => ?_
    rw [hzero e he]
    exact Nat.zero_le _
  · obtain ⟨t₀, hcreate⟩ := exists_nexdashCreate
    refine ⟨t₀, hcreate, (good_create hcreate).1.run_churn _ (contents_create_eq_zero hcreate) ?_⟩
    rw [nexdashCreate_eq hcreate]
    norm_num

end NexCache.NexDash
