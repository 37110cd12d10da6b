import NexCache.Lib.Machine
import NexCache.Lib.Overlay
import NexCache.Lib.Runs

/-!
# The dual store

`core/nexstorage.h`: a table of operations that every backend offers, and the store
that is built from two backends, a main store for strings and an object store for all
other types.  Reads try the main store first, a delete stops at the first store that had
the key, and a read-modify-write always goes to the object store.

The environment `ε` of a call is what it finds outside the store, the clock and the
allocator.  The pointers to the two operation tables never change after
`nexstorage_create`, so they are parameters of the store and not part of its state; a
missing table cannot be built.

`dual_store_is_map`: over two backends that are maps the dual store is a map, in every
run in which no call meets a key in the wrong store (`Routed`).

Not modelled: the other entries of the operation table (expiry, scans, snapshots,
statistics) and the operation log, which no function below uses.
-/

namespace NexCache.Storage

open Machine Overlay Runs Option Function

/-- A key or a value: `key_len` and `value_len` are `uint32_t`. -/
abbrev Bytes := SizedBytes 32

theorem nil_length_lt : ([] : List UInt8).length < 2 ^ 32 := by decide

inductive NexStorageResult
  | ok
  | notFound
  | expired
  | error
  | full
  | tooLarge
  | pending
  deriving DecidableEq

inductive NexDataType
  | string
  | hash
  | list
  | set
  | zset
  | stream
  | json
  | vector
  | crdt
  | unknown
  deriving DecidableEq

structure NexEntry where
  value : Bytes
  type : NexDataType
  ttlMs : Int
  version : Nat
  deriving DecidableEq

/-- The callback of a read-modify-write changes the entry in place; its input, output and
context are its own. -/
abbrev NexRMWCallback := NexEntry → NexStorageResult × NexEntry

/-- The operations of a backend with states `σ`.  `get` receives the entry that it fills
in.  A `set` or `rmw` that does not return is `none`. -/
structure NexStorageAPI (ε σ : Type) where
  get : σ → ε → Bytes → NexEntry → σ × NexStorageResult × NexEntry
  set : σ → ε → Bytes → Bytes → NexDataType → Int → Option (σ × NexStorageResult)
  del : σ → ε → Bytes → σ × NexStorageResult
  «exists» : σ → ε → Bytes → σ × Bool
  rmw : Option (σ → ε → Bytes → NexRMWCallback → Option (σ × NexStorageResult))

structure NexStorage {ε σ τ : Type} (mainApi : NexStorageAPI ε σ)
    (objectApi : NexStorageAPI ε τ) where
  mainBackend : σ
  objectBackend : τ

/-! ### The wrappers -/

section Wrappers

variable {ε σ τ : Type} {mainApi : NexStorageAPI ε σ} {objectApi : NexStorageAPI ε τ}

def nexstorageGet (ns : NexStorage mainApi objectApi) (env : ε) (key : Bytes) (out : NexEntry) :
    NexStorage mainApi objectApi × NexStorageResult × NexEntry :=
  let (main, res, out) := mainApi.get ns.mainBackend env key out
  let ns := { ns with mainBackend := main }
  if res = .ok then (ns, .ok, out)
  else
    let (object, res, out) := objectApi.get ns.objectBackend env key out
    ({ ns with objectBackend := object }, res, out)

def nexstorageSet (ns : NexStorage mainApi objectApi) (env : ε) (key value : Bytes)
    (type : NexDataType) (ttlMs : Int) :
    Option (NexStorage mainApi objectApi × NexStorageResult) :=
  if type = .string then
    (mainApi.set ns.mainBackend env key value type ttlMs).map fun r =>
      ({ ns with mainBackend := r.1 }, r.2)
  else
    (objectApi.set ns.objectBackend env key value type ttlMs).map fun r =>
      ({ ns with objectBackend := r.1 }, r.2)

def nexstorageDel (ns : NexStorage mainApi objectApi) (env : ε) (key : Bytes) :
    NexStorage mainApi objectApi × NexStorageResult :=
  let (main, r1) := mainApi.del ns.mainBackend env key
  let ns := { ns with mainBackend := main }
  if r1 = .ok then (ns, .ok)
  else
    let (object, r2) := objectApi.del ns.objectBackend env key
    ({ ns with objectBackend := object }, if r2 = .ok then .ok else .notFound)

def nexstorageRmw (ns : NexStorage mainApi objectApi) (env : ε) (key : Bytes)
    (cb : NexRMWCallback) : Option (NexStorage mainApi objectApi × NexStorageResult) :=
  match objectApi.rmw with
  | some rmw =>
    (rmw ns.objectBackend env key cb).map fun r => ({ ns with objectBackend := r.1 }, r.2)
  | none => some (ns, .error)

def nexstorageExists (ns : NexStorage mainApi objectApi) (env : ε) (key : Bytes) :
    NexStorage mainApi objectApi × Bool :=
  let (main, found) := mainApi.exists ns.mainBackend env key
  let ns := { ns with mainBackend := main }
  if found then (ns, true)
  else
    let (object, found) := objectApi.exists ns.objectBackend env key
    ({ ns with objectBackend := object }, found)

end Wrappers

/-! ### Calls -/

inductive NsCall
  | get (key : Bytes) (out : NexEntry)
  | set (key value : Bytes) (type : NexDataType) (ttlMs : Int)
  | del (key : Bytes)
  | exists (key : Bytes)
  | rmw (key : Bytes) (cb : NexRMWCallback)

inductive NsReply
  | result (res : NexStorageResult)
  | entry (res : NexStorageResult) (out : NexEntry)
  | found (present : Bool)
  deriving DecidableEq

/-- A call with the environment it is made in. -/
structure NsEvent (ε : Type) where
  env : ε
  call : NsCall

def nsStep {ε σ τ : Type} {mainApi : NexStorageAPI ε σ} {objectApi : NexStorageAPI ε τ}
    (ns : NexStorage mainApi objectApi) (e : NsEvent ε) :
    Option (NexStorage mainApi objectApi × NsReply) :=
  match e.call with
  | .get key out =>
    let r := nexstorageGet ns e.env key out
    some (r.1, .entry r.2.1 r.2.2)
  | .set key value type ttlMs =>
    (nexstorageSet ns e.env key value type ttlMs).map fun r => (r.1, .result r.2)
  | .del key =>
    let r := nexstorageDel ns e.env key
    some (r.1, .result r.2)
  | .exists key =>
    let r := nexstorageExists ns e.env key
    some (r.1, .found r.2)
  | .rmw key cb => (nexstorageRmw ns e.env key cb).map fun r => (r.1, .result r.2)

/-! ### Maps

What a key-value map without expiry answers, operation by operation.  The same
specification is asked of each backend and shown of the dual store. -/

/-- What a map holds for a key. -/
structure Item where
  value : Bytes
  type : NexDataType
  deriving DecidableEq

def NexEntry.item (entry : NexEntry) : Item := ⟨entry.value, entry.type⟩

/-- The item of an entry that is all zero. -/
def Item.zero : Item := ⟨⟨[], nil_length_lt⟩, .string⟩

abbrev ItemMap := Bytes → Option Item

/-- A read answers `OK` with the item, or something else if there is none. -/
def GetSpec (m : ItemMap) (key : Bytes) (res : NexStorageResult) (out : NexEntry) : Prop :=
  match m key with
  | some item => res = .ok ∧ out.item = item
  | none => res ≠ .ok

/-- A write that answers `OK` is made, any other is not. -/
def SetSpec (m : ItemMap) (key : Bytes) (item : Item) (res : NexStorageResult) (m' : ItemMap) :
    Prop :=
  m' = if res = .ok then update m key (some item) else m

def DelSpec (m : ItemMap) (key : Bytes) (res : NexStorageResult) (m' : ItemMap) : Prop :=
  (res = .ok ↔ m key ≠ none) ∧ m' = update m key none

/-- The callback sees what the map holds; if the answer is `OK`, the callback agreed and
what it left is written. -/
def RmwSpec (m : ItemMap) (key : Bytes) (cb : NexRMWCallback) (res : NexStorageResult)
    (m' : ItemMap) : Prop :=
  ∃ entry : NexEntry, entry.item = (m key).getD .zero ∧ (res = .ok → (cb entry).1 = .ok) ∧
    SetSpec m key (cb entry).2.item res m'

/-- **A key-value map**, as a specification of the calls. -/
def MapSpec {ε : Type} (m : ItemMap) (e : NsEvent ε) (r : NsReply) (m' : ItemMap) : Prop :=
  match e.call, r with
  | .get key _, .entry res out => GetSpec m key res out ∧ m' = m
  | .set key value type _, .result res => SetSpec m key ⟨value, type⟩ res m'
  | .del key, .result res => DelSpec m key res m'
  | .exists key, .found present => (present = true ↔ m key ≠ none) ∧ m' = m
  | .rmw key cb, .result res => RmwSpec m key cb res m'
  | _, _ => False

/-- The call gives no key a deadline. -/
def NsCall.NoExpiry : NsCall → Prop
  | .set _ _ _ ttlMs => ttlMs < 0
  | .rmw _ cb => ∀ entry, entry.ttlMs < 0 → (cb entry).2.ttlMs < 0
  | _ => True

/-- A backend whose states `view` reads as maps, for items of the given types. -/
structure IsMap {ε σ : Type} (api : NexStorageAPI ε σ) (types : NexDataType → Prop)
    (view : σ → ItemMap) : Prop where
  get : ∀ s env key out,
    GetSpec (view s) key (api.get s env key out).2.1 (api.get s env key out).2.2 ∧
      view (api.get s env key out).1 = view s
  set : ∀ s env key value type ttlMs, types type → ttlMs < 0 →
    ∃ s' res, api.set s env key value type ttlMs = some (s', res) ∧
      SetSpec (view s) key ⟨value, type⟩ res (view s')
  del : ∀ s env key, DelSpec (view s) key (api.del s env key).2 (view (api.del s env key).1)
  «exists» : ∀ s env key, ((api.exists s env key).2 = true ↔ view s key ≠ none) ∧
    view (api.exists s env key).1 = view s

/-- A backend whose read-modify-write, if it has one, is that of a map. -/
def HasRmw {ε σ : Type} (api : NexStorageAPI ε σ) (view : σ → ItemMap) : Prop :=
  ∀ rmw, api.rmw = some rmw → ∀ s env key cb, (NsCall.rmw key cb).NoExpiry →
    ∃ s' res, rmw s env key cb = some (s', res) ∧ RmwSpec (view s) key cb res (view s')

/-! ### The dual store as a map -/

section Dual

variable {ε σ τ : Type} {mainApi : NexStorageAPI ε σ} {objectApi : NexStorageAPI ε τ}
  {mainView : σ → ItemMap} {objectView : τ → ItemMap}

/-- What a client of the dual store sees. -/
def dualView (mainView : σ → ItemMap) (objectView : τ → ItemMap)
    (ns : NexStorage mainApi objectApi) : ItemMap :=
  overlay (mainView ns.mainBackend) (objectView ns.objectBackend)

/-- **No call meets a key in the wrong store**: a write to the object store is of a key
that the main store does not hold, and a delete is of a key that at most one of them
holds. -/
def Routed (mainView : σ → ItemMap) (objectView : τ → ItemMap)
    (ns : NexStorage mainApi objectApi) (e : NsEvent ε) : Prop :=
  match e.call with
  | .set key _ type _ => type = .string ∨ mainView ns.mainBackend key = none
  | .rmw key _ => mainView ns.mainBackend key = none
  | .del key => mainView ns.mainBackend key = none ∨ objectView ns.objectBackend key = none
  | _ => True

section Dispatch

variable (ns : NexStorage mainApi objectApi) (env : ε) {key : Bytes}

theorem nexstorageRmw_spec (hrmw : HasRmw objectApi objectView) {cb : NexRMWCallback}
    (hcb : (NsCall.rmw key cb).NoExpiry) (hroute : mainView ns.mainBackend key = none) :
    ∃ ns' res, nexstorageRmw ns env key cb = some (ns', res) ∧
      RmwSpec (dualView mainView objectView ns) key cb res (dualView mainView objectView ns') := by
  have hview : dualView mainView objectView ns key = objectView ns.objectBackend key :=
    overlay_of_none hroute
  cases hapi : objectApi.rmw with
  | none =>
    refine ⟨ns, .error, ?_, ⟨⟨_, _, 0, 0⟩, rfl, nofun, rfl⟩⟩
    rw [nexstorageRmw, hapi]
  | some rmw =>
    obtain ⟨s', res, hdone, entry, hentry, hok, hspec⟩ :=
      hrmw rmw hapi ns.objectBackend env key cb hcb
    refine ⟨{ ns with objectBackend := s' }, res, ?_, entry, ?_, hok, ?_⟩
    · rw [nexstorageRmw, hapi]
      simp only [hdone, map_some]
    · rw [hview, hentry]
    · rw [SetSpec] at hspec
      rw [SetSpec, dualView, hspec, dualView]
      split
      · exact overlay_update_lower hroute _
      · rfl

variable (hmain : IsMap mainApi (· = .string) mainView)
  (hobject : IsMap objectApi (fun _ => True) objectView)
include hmain hobject

theorem nexstorageGet_spec (key : Bytes) (out : NexEntry) :
    GetSpec (dualView mainView objectView ns) key (nexstorageGet ns env key out).2.1
        (nexstorageGet ns env key out).2.2 ∧
      dualView mainView objectView (nexstorageGet ns env key out).1
        = dualView mainView objectView ns := by
  obtain ⟨hget, hview⟩ := hmain.get ns.mainBackend env key out
  cases hfound : mainView ns.mainBackend key with
  | some item =>
    rw [GetSpec, hfound] at hget
    have hdual : dualView mainView objectView ns key = some item := overlay_of_some hfound
    simp only [nexstorageGet, hget.1, if_true, GetSpec, hdual]
    refine ⟨⟨trivial, hget.2⟩, ?_⟩
    rw [dualView, hview, dualView]
  | none =>
    rw [GetSpec, hfound] at hget
    have hdual : dualView mainView objectView ns key = objectView ns.objectBackend key :=
      overlay_of_none hfound
    obtain ⟨hget', hview'⟩ := hobject.get ns.objectBackend env key
      (mainApi.get ns.mainBackend env key out).2.2
    simp only [nexstorageGet, if_neg hget]
    refine ⟨?_, ?_⟩
    · rw [GetSpec, hdual]
      exact hget'
    · rw [dualView, hview, hview', dualView]

theorem nexstorageSet_spec (value : Bytes) {type : NexDataType} {ttlMs : Int}
    (httl : ttlMs < 0) (hroute : type = .string ∨ mainView ns.mainBackend key = none) :
    ∃ ns' res, nexstorageSet ns env key value type ttlMs = some (ns', res) ∧
      SetSpec (dualView mainView objectView ns) key ⟨value, type⟩ res
        (dualView mainView objectView ns') := by
  by_cases htype : type = .string
  · obtain ⟨s', res, hset, hspec⟩ :=
      hmain.set ns.mainBackend env key value type ttlMs htype httl
    refine ⟨{ ns with mainBackend := s' }, res, ?_, ?_⟩
    · rw [nexstorageSet, if_pos htype, hset, map_some]
    · rw [SetSpec] at hspec
      rw [SetSpec, dualView, hspec, dualView]
      split
      · exact overlay_update_upper _
      · rfl
  · obtain ⟨s', res, hset, hspec⟩ :=
      hobject.set ns.objectBackend env key value type ttlMs trivial httl
    have hnone := hroute.resolve_left htype
    refine ⟨{ ns with objectBackend := s' }, res, ?_, ?_⟩
    · rw [nexstorageSet, if_neg htype, hset, map_some]
    · rw [SetSpec] at hspec
      rw [SetSpec, dualView, hspec, dualView]
      split
      · exact overlay_update_lower hnone _
      · rfl

theorem nexstorageDel_spec
    (hroute : mainView ns.mainBackend key = none ∨ objectView ns.objectBackend key = none) :
    DelSpec (dualView mainView objectView ns) key (nexstorageDel ns env key).2
      (dualView mainView objectView (nexstorageDel ns env key).1) := by
  obtain ⟨hfound, hview⟩ := hmain.del ns.mainBackend env key
  by_cases hnone : mainView ns.mainBackend key = none
  · -- The main store had nothing, and its map is what it was.
    have hr1 : (mainApi.del ns.mainBackend env key).2 ≠ .ok := fun h => hfound.mp h hnone
    have hsame : mainView (mainApi.del ns.mainBackend env key).1 = mainView ns.mainBackend := by
      rw [hview, ← hnone, update_eq_self]
    obtain ⟨hfound', hview'⟩ := hobject.del ns.objectBackend env key
    simp only [nexstorageDel, if_neg hr1]
    refine ⟨?_, ?_⟩
    · rw [show dualView mainView objectView ns key = objectView ns.objectBackend key from
        overlay_of_none hnone, ← hfound']
      split <;> simp_all
    · rw [dualView, hsame, hview', dualView]
      exact overlay_update_lower hnone none
  · have hr1 : (mainApi.del ns.mainBackend env key).2 = .ok := hfound.mpr hnone
    simp only [nexstorageDel, if_pos hr1]
    refine ⟨⟨fun _ h => hnone (overlay_eq_none.mp h).1, fun _ => rfl⟩, ?_⟩
    rw [dualView, hview, dualView]
    exact overlay_update_none (hroute.resolve_left hnone)

theorem nexstorageExists_spec (key : Bytes) :
    ((nexstorageExists ns env key).2 = true ↔ dualView mainView objectView ns key ≠ none) ∧
      dualView mainView objectView (nexstorageExists ns env key).1
        = dualView mainView objectView ns := by
  obtain ⟨hfound, hview⟩ := hmain.exists ns.mainBackend env key
  obtain ⟨hfound', hview'⟩ := hobject.exists ns.objectBackend env key
  rw [show (dualView mainView objectView ns key ≠ none) = ¬ (_ ∧ _) from
    congrArg Not (propext overlay_eq_none)]
  simp only [nexstorageExists]
  split
  · rename_i h
    refine ⟨⟨fun _ hn => hfound.mp h hn.1, fun _ => rfl⟩, ?_⟩
    rw [dualView, hview, dualView]
  · rename_i h
    rw [hfound, not_not] at h
    refine ⟨hfound'.trans ⟨fun h' hn => h' hn.2, fun h' hn => h' ⟨h, hn⟩⟩, ?_⟩
    rw [dualView, hview, hview', dualView]

theorem nsStep_spec (hrmw : HasRmw objectApi objectView) {e : NsEvent ε} (hplain : e.call.NoExpiry)
    (hroute : Routed mainView objectView ns e) :
    ∃ ns' r, nsStep ns e = some (ns', r) ∧
      MapSpec (dualView mainView objectView ns) e r (dualView mainView objectView ns') := by
  obtain ⟨env, call⟩ := e
  cases call with
  | get key out => exact ⟨_, _, rfl, nexstorageGet_spec ns env hmain hobject key out⟩
  | set key value type ttlMs =>
    obtain ⟨ns', res, hset, hspec⟩ := nexstorageSet_spec ns env hmain hobject value hplain hroute
    exact ⟨ns', .result res, by simp only [nsStep, hset, map_some], hspec⟩
  | del key => exact ⟨_, _, rfl, nexstorageDel_spec ns env hmain hobject hroute⟩
  | «exists» key => exact ⟨_, _, rfl, nexstorageExists_spec ns env hmain hobject key⟩
  | rmw key cb =>
    obtain ⟨ns', res, hdone, hspec⟩ := nexstorageRmw_spec ns env hrmw hplain hroute
    exact ⟨ns', .result res, by simp only [nsStep, hdone, map_some], hspec⟩

end Dispatch

/-- **The dual store is one key-value map**: over backends that are maps, every run
without expiry in which no call meets a key in the wrong store is a history of a map. -/
theorem dual_store_is_map (hmain : IsMap mainApi (· = .string) mainView)
    (hobject : IsMap objectApi (fun _ => True) objectView) (hrmw : HasRmw objectApi objectView)
    (ns : NexStorage mainApi objectApi) (es : List (NsEvent ε)) (hplain : ∀ e ∈ es, e.call.NoExpiry)
    (hroute : Along nsStep (Routed mainView objectView) ns es) :
    ∃ ns' replies, run nsStep ns es = some (ns', replies) ∧
      Traces MapSpec (dualView mainView objectView ns) es replies
        (dualView mainView objectView ns') := by
  have hstep : ∀ (ns : NexStorage mainApi objectApi) (e : NsEvent ε) (m : ItemMap),
      m = dualView mainView objectView ns → Routed mainView objectView ns e ∧ e.call.NoExpiry →
      ∃ ns' r m', nsStep ns e = some (ns', r) ∧ MapSpec m e r m' ∧
        m' = dualView mainView objectView ns' := by
    rintro ns e m rfl ⟨hr, hp⟩
    obtain ⟨ns', r, hstep, hspec⟩ := nsStep_spec ns hmain hobject hrmw hp hr
    exact ⟨ns', r, _, hstep, hspec, rfl⟩
  obtain ⟨ns', replies, m, hrun, htrace, rfl⟩ :=
    run_traces hstep rfl (hroute.and_forall hplain)
  exact ⟨ns', replies, hrun, htrace⟩

end Dual

/-! ### Two maps that are not one -/

/-- The map itself as a backend. -/
def mapApi : NexStorageAPI Unit ItemMap where
  get m _ key out :=
    match m key with
    | some item => (m, .ok, ⟨item.value, item.type, -1, 0⟩)
    | none => (m, .notFound, out)
  set m _ key value type _ := some (update m key (some ⟨value, type⟩), .ok)
  del m _ key := (update m key none, if (m key).isSome then .ok else .notFound)
  «exists» m _ key := (m, (m key).isSome)
  rmw := some fun m _ key cb =>
    let item := (m key).getD .zero
    let (res, entry) := cb ⟨item.value, item.type, -1, 0⟩
    some (if res = .ok then update m key (some entry.item) else m, res)

theorem mapApi_isMap (types : NexDataType → Prop) : IsMap mapApi types id where
  get m _ key out := by
    cases hm : m key with
    | some item => simp [mapApi, GetSpec, hm, NexEntry.item]
    | none => simp [mapApi, GetSpec, hm]
  set m _ key value type _ _ _ := ⟨_, _, rfl, rfl⟩
  del m _ key := by cases hm : m key <;> simp [mapApi, DelSpec, hm]
  «exists» m _ key := by cases hm : m key <;> simp [mapApi, hm]

theorem mapApi_hasRmw : HasRmw mapApi id := by
  intro rmw hrmw m env key cb _
  obtain rfl := some.inj hrmw
  exact ⟨_, _, rfl, _, rfl, id, rfl⟩

/-- A string of one byte. -/
def oneByte (b : UInt8) : Bytes := ⟨[b], by rw [List.length_singleton]; decide⟩

def emptyStores : NexStorage mapApi mapApi := ⟨fun _ => none, fun _ => none⟩

/-- A hash under a key, then a string under the same key, which is read. -/
def hashThenString : List (NsEvent Unit) :=
  [⟨(), .set (oneByte 107) (oneByte 104) .hash (-1)⟩,
    ⟨(), .set (oneByte 107) (oneByte 115) .string (-1)⟩,
    ⟨(), .get (oneByte 107) ⟨oneByte 0, .unknown, 0, 0⟩⟩]

theorem dual_store_is_map_hash_then_string :
    ∃ ns' replies, run nsStep emptyStores hashThenString = some (ns', replies) ∧
      Traces MapSpec (dualView id id emptyStores) hashThenString replies (dualView id id ns') := by
  refine dual_store_is_map (mapApi_isMap _) (mapApi_isMap _) mapApi_hasRmw emptyStores _ ?_ ?_
  · intro e he
    simp only [hashThenString, List.mem_cons, List.not_mem_nil, or_false] at he
    rcases he with rfl | rfl | rfl
    · exact (by decide : (-1 : Int) < 0)
    · exact (by decide : (-1 : Int) < 0)
    · trivial
  · exact ⟨.inr rfl, fun _ _ _ => ⟨.inl rfl, fun _ _ _ => ⟨trivial, fun _ _ _ => trivial⟩⟩⟩

/-- **A stale read and a delete that uncovers**: after a string and then a hash are set
under one key, a read returns the string; after a hash and then a string, a delete answers
`OK` and the hash is read and reported as present. -/
theorem dual_store_serves_stale :
    (run nsStep emptyStores
        [⟨(), .set (oneByte 107) (oneByte 115) .string (-1)⟩,
          ⟨(), .set (oneByte 107) (oneByte 104) .hash (-1)⟩,
          ⟨(), .get (oneByte 107) ⟨oneByte 0, .unknown, 0, 0⟩⟩]).map Prod.snd
      = some [.result .ok, .result .ok, .entry .ok ⟨oneByte 115, .string, -1, 0⟩] ∧
    (run nsStep emptyStores
        (hashThenString ++ [⟨(), .del (oneByte 107)⟩,
          ⟨(), .get (oneByte 107) ⟨oneByte 0, .unknown, 0, 0⟩⟩,
          ⟨(), .exists (oneByte 107)⟩])).map (fun r => r.2.drop 3)
      = some [.result .ok, .entry .ok ⟨oneByte 104, .hash, -1, 0⟩, .found true] := by
  decide +kernel

end NexCache.Storage
