import NexCache.Storage.RoundTrip

/-!
# The server's store

`global_nexstorage`: the segment cache as main store and the hash table as object store.
This module says what a read and a read-modify-write do to one key that the main store
does not hold.
-/

namespace NexCache.Storage

open Machine Bloom Option
open NexDash (Addr Good absMap KeyFits Key)
open Segcache (NexSegcache Served)

abbrev ServerStore := NexStorage nexSegcacheAPI nexDashTableAPI

/-- `nexstorage_create("segcache", ...)`; the object store gets `ndapi_create`. -/
def nexstorageCreate (maxMem : Nat) (bloomSized : NumBlocks) : Option ServerStore :=
  (ndapiCreate bloomSized).map fun object => ⟨scapiCreate maxMem, object⟩

/-- `malloc` returns a block, and it is not in use when the value has been looked up. -/
def MallocWorks (b : NdBackend) (env : Env) (key : Bytes) : Prop :=
  ∃ block, env.block = some block ∧ block ≠ 0#48 ∧
    (ndLookup b (key.cut 8) env.now).1.allocated block = false

instance (b : NdBackend) (env : Env) (key : Bytes) : Decidable (MallocWorks b env key) :=
  match hblock : env.block with
  | none => .isFalse fun ⟨_, h, _⟩ => by rw [hblock] at h; cases h
  | some block =>
    decidable_of_iff (block ≠ 0#48 ∧ (ndLookup b (key.cut 8) env.now).1.allocated block = false)
      ⟨fun h => ⟨block, hblock, h⟩, fun ⟨_, h, hok⟩ => by
        rw [hblock] at h
        cases h
        exact hok⟩

/-- The table of the object store can take the key: it does not spin. -/
def PoolFits (b : NdBackend) (env : Env) (key : Bytes) : Prop :=
  KeyFits (ndLookup b (key.cut 8) env.now).1.table
    ⟨env.now, .set (key.cut 8) 0#48 0#32 0#32 0 env.arenaOk⟩

/-! ### Writing -/

section Writing

variable {b : NdBackend} {env : Env} {key : Bytes}

theorem Owned.ndPut_live (h : Owned b) {key : Key} {s : Held}
    (hlive : HeldMap.liveAt (ndView b) env.now key = some s) {block : Addr}
    (hblock : env.block = some block) (value : Bytes) (type : NexDataType) (ttlMs : Int) :
    ∃ b', Storage.ndPutAt b env.still key value type ttlMs = some (b', true) := by
  rw [liveAt_ndView, map_eq_some_iff] at hlive
  obtain ⟨e, he, _⟩ := hlive
  have hkey : key.len ≠ 0 := h.nonempty key e (filter_eq_some_iff.mp he).1
  obtain ⟨t', hset⟩ := h.good.nexdashSet_live hkey he block (BitVec.ofNat 32 (32 + value.len))
    type.code (ndExpireArg env.now ttlMs) env.arenaOk
  refine ⟨(b.malloc block ⟨value, type, ndExpireUs env.now ttlMs, env.now⟩).settle t', ?_⟩
  simp only [Storage.ndPutAt, Env.still, hblock, NdBackend.malloc, hset]
  rfl

theorem Owned.ndPut_returns (h : Owned b) {key : Key}
    (hfits : KeyFits b.table ⟨env.now, .set key 0#48 0#32 0#32 0 env.arenaOk⟩) (value : Bytes)
    (type : NexDataType) (ttlMs : Int) :
    ∃ r, Storage.ndPutAt b env.still key value type ttlMs = some r := by
  cases hblock : env.block with
  | none =>
    simp only [Storage.ndPutAt, Env.still, hblock]
    exact ⟨_, rfl⟩
  | some block =>
    have hsome : (NexDash.nexdashSet b.table key block (BitVec.ofNat 32 (32 + value.len)) type.code
        (ndExpireArg env.now ttlMs) env.now env.arenaOk).isSome := by
      by_cases hkey : key.len = 0
      · rw [NexDash.nexdashSet, if_pos hkey]
        rfl
      · exact (h.good.sound.nexdashSet_isSome hkey ..).mpr hfits
    obtain ⟨⟨t', rc⟩, hset⟩ := isSome_iff_exists.mp hsome
    simp only [Storage.ndPutAt, Env.still, hblock, NdBackend.malloc, hset]
    split <;> exact ⟨_, rfl⟩

/-- A key that is live needs no room. -/
theorem Owned.poolFits_of_live (h : Owned b) {s : Held}
    (hlive : HeldMap.liveAt (ndView b) env.now (key.cut 8) = some s) : PoolFits b env key := by
  obtain ⟨_, hdrops, _⟩ := h.ndLookup (key.cut 8) env.now
  obtain ⟨e, he, _⟩ := map_eq_some_iff.mp (hdrops.liveAt hlive)
  rintro ⟨_, hnew, _⟩
  rw [absMap, hnew] at he
  cases he

/-- **The outcomes of a read-modify-write** with a `malloc` that works.  A key that is
live is never refused. -/
inductive RmwOutcome (b : NdBackend) (env : Env) (key : Key) (cb : NexRMWCallback) :
    NexStorageResult → HeldMap → Prop
  | declined {m' : HeldMap} (hno : (cb (rmwEntry b env key)).1 ≠ .ok)
      (hdrops : (ndView b).Drops env.now m') :
      RmwOutcome b env key cb (cb (rmwEntry b env key)).1 m'
  | stored {entry : NexEntry} {m' : HeldMap} (hcb : cb (rmwEntry b env key) = (.ok, entry))
      (hkey : m' key = some (storedAt env.now entry.value entry.type entry.ttlMs)) :
      RmwOutcome b env key cb .ok m'
  | refused {m' : HeldMap} (habsent : HeldMap.liveAt (ndView b) env.now key = none)
      (hdrops : (ndView b).Drops env.now m') : RmwOutcome b env key cb .error m'

theorem Owned.ndapiRmw_outcome (h : Owned b) (hlen : key.len ≤ ND_MAX_KEY_LEN)
    (cb : NexRMWCallback) (htype : (cb (rmwEntry b env (key.cut 8))).2.type ≠ .unknown)
    (hmalloc : MallocWorks b env key)
    (hfits : (cb (rmwEntry b env (key.cut 8))).1 = .ok → PoolFits b env key) :
    ∃ b' res, ndapiRmw b env key cb = some (b', res) ∧ Owned b' ∧
      RmwOutcome b env (key.cut 8) cb res (ndView b') := by
  obtain ⟨hown, hdrops, _⟩ := h.ndLookup (key.cut 8) env.now
  obtain ⟨block, hblock, hnull, hfresh⟩ := hmalloc
  have hok : MallocOk (Storage.ndLookup b (key.cut 8) env.now).1 env := by
    intro block' hblock'
    obtain rfl := mem_unique hblock hblock'
    exact ⟨hnull, hfresh⟩
  have hreturns : ∃ r, ndapiRmw b env key cb = some r := by
    simp only [ndapiRmw, ndapiRmwAt, if_neg (Nat.not_lt.mpr hlen), h.entry_ndLookupAt]
    split
    · rename_i hcb
      obtain ⟨r, hr⟩ := hown.ndPut_returns (hfits hcb) ..
      exact ⟨_, congrArg (Option.map _) hr⟩
    · exact ⟨_, rfl⟩
  obtain ⟨⟨b', res⟩, hrmw⟩ := hreturns
  refine ⟨b', res, hrmw, ?_⟩
  rcases h.ndapiRmwAt_cases (c := env.still) hrmw with ⟨hlong, _⟩ | ⟨rfl, rfl, hno⟩
    | ⟨done, hput, hcb, rfl⟩
  · exact absurd hlong (Nat.not_lt.mpr hlen)
  · exact ⟨hown, .declined hno hdrops⟩
  · obtain ⟨hown', hview⟩ := hown.ndPutAt hok htype hput
    refine ⟨hown', ?_⟩
    cases done with
    | true =>
      rw [if_pos rfl] at hview
      rw [if_pos rfl, hview]
      exact .stored (Prod.ext hcb rfl) (Function.update_self ..)
    | false =>
      rw [if_neg (by decide)] at hview ⊢
      refine .refused ?_ (hdrops.trans hview)
      -- a live key stays through the lookup and is then overwritten
      by_contra hne
      obtain ⟨s, hs⟩ := ne_none_iff_exists'.mp hne
      have hs' : HeldMap.liveAt (ndView (Storage.ndLookup b (key.cut 8) env.now).1) env.now
          (key.cut 8) = some s :=
        filter_eq_some_iff.mpr ⟨hdrops.liveAt hs, (filter_eq_some_iff.mp hs).2⟩
      obtain ⟨_, hput'⟩ := hown.ndPut_live hs' hblock ..
      cases (Prod.mk.inj (some.inj (hput.symm.trans hput'))).2

end Writing

/-! ### Reading -/

theorem Owned.ndapiGet_keeps {b : NdBackend} (h : Owned b) (env : Env) (key : Bytes)
    (out : NexEntry) : Owned (ndapiGet b env key out).1 ∧
      (ndView b).Drops env.now (ndView (ndapiGet b env key out).1) := by
  obtain ⟨hown, hdrops, _⟩ := h.ndLookup (key.cut 8) env.now
  have hfst : (ndapiGet b env key out).1 = b ∨
      (ndapiGet b env key out).1 = (Storage.ndLookup b (key.cut 8) env.now).1 :=
    fst_ndapiGetAt b env.still key out
  rcases hfst with heq | heq
  · rw [heq]
    exact ⟨h, .refl _ _⟩
  · rw [heq]
    exact ⟨hown, hdrops⟩

/-- The main store does not hold the key. -/
def MainLacks (sc : NexSegcache) (key : Bytes) : Prop := ∃ m, Served sc m ∧ m (key.cut 16) = none

variable {sc : NexSegcache} {ns : ServerStore}

theorem scapiGet_none {m : Segcache.Bytes → Option Segcache.Bytes}
    (h : Served sc m) (hnone : m (key.cut 16) = none) (env : Env) (out : NexEntry) :
    ∃ sc', scapiGet sc env key out = (sc', .notFound, out) ∧ Served sc' m := by
  obtain ⟨hserved', hfound⟩ := h.htFind (key.cut 16) (segNow env)
  cases hfind : Segcache.htFind sc (key.cut 16) (segNow env) with
  | mk sc' found =>
    rw [hfind] at hserved' hfound
    cases found with
    | none =>
      refine ⟨sc', ?_, hserved'⟩
      simp only [scapiGet, Segcache.segcacheGet, hfind]
    | some e =>
      obtain ⟨_, _, r, _, _, _, hm⟩ := hfound e rfl
      rw [hnone] at hm
      cases hm

theorem MainLacks.scapiGet (h : MainLacks sc key) (env : Env)
    (out : NexEntry) : ∃ sc', scapiGet sc env key out = (sc', .notFound, out) ∧
    MainLacks sc' key := by
  obtain ⟨m, hserved, hnone⟩ := h
  obtain ⟨sc', hget, hserved'⟩ := scapiGet_none hserved hnone env out
  exact ⟨sc', hget, m, hserved', hnone⟩

/-- A read of a key that the main store does not hold is answered by the object store. -/
theorem MainLacks.nexstorageGet (h : MainLacks ns.mainBackend key) (env : Env) (out : NexEntry) :
    ∃ sc', MainLacks sc' key ∧ nexstorageGet ns env key out
      = (⟨sc', (ndapiGet ns.objectBackend env key out).1⟩,
          (ndapiGet ns.objectBackend env key out).2) := by
  obtain ⟨sc', hget, hlacks⟩ := h.scapiGet env out
  refine ⟨sc', hlacks, ?_⟩
  have hmain : nexSegcacheAPI.get ns.mainBackend env key out = (sc', .notFound, out) := hget
  simp only [Storage.nexstorageGet, hmain]
  rfl

/-- A store without the key. -/
structure KeyAbsent (ns : ServerStore) (key : Bytes) : Prop where
  own : Owned ns.objectBackend
  main : key.len ≤ ND_MAX_KEY_LEN → MainLacks ns.mainBackend key
  object : key.len ≤ ND_MAX_KEY_LEN → ndView ns.objectBackend (key.cut 8) = none

theorem keyAbsent_create {maxMem : Nat} {bloomSized : NumBlocks}
    (hcreate : nexstorageCreate maxMem bloomSized = some ns) (key : Bytes) : KeyAbsent ns key := by
  obtain ⟨b, hb, rfl⟩ := map_eq_some_iff.mp hcreate
  obtain ⟨hown, hview⟩ := owned_create hb
  exact ⟨hown, fun _ => ⟨_, Segcache.served_create _ _, rfl⟩, fun _ => by rw [hview]⟩

end NexCache.Storage
