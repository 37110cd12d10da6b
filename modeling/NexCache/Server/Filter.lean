import NexCache.Server.Keyspace
import NexCache.Crdt.Commands

/-!
# What the filter says

The bit of every key in a table is set, except while `dbAddInternal` calls the listeners
of `new`: it has inserted the key by then and puts it into the filter only when they have
returned.  `Filtered` is the invariant, kept by every event (`Filtered.dbStep`).

`lookupKey` is compared with the same function without the test in
`lookupKey_transparent_iff`: a clear bit hides keys that only NexStorage holds, and the
early return leaves the counters and the event of a miss out.
-/

namespace NexCache.Server

open Machine Storage Runs List Option

/-! ### The tables -/

theorem keys_setKey (s : ServerState) (d d' : DbId) (k k' : Sds) (o : Option Robj) :
    ((s.setKey d k o).db d').keys k'
      = if d' = d ∧ k' = k then o else (s.db d').keys k' := by
  by_cases hd : d' = d
  · subst hd
    by_cases hk : k' = k
    · subst hk
      simp [ServerState.setKey]
    · simp [ServerState.setKey, hk]
  · simp [ServerState.setKey, hd]

@[simp]
theorem keys_setExpires (s : ServerState) (d d' : DbId) (k : Sds) (b : Bool) :
    ((s.setExpires d k b).db d').keys = (s.db d').keys := by
  by_cases hd : d' = d
  · subst hd
    simp [ServerState.setExpires]
  · simp [ServerState.setExpires, hd]

theorem keys_addKey_self (s : ServerState) (d : DbId) (k : Sds) (o : Robj) :
    ((s.addKey d k o).db d).keys k ≠ none := by
  rw [ServerState.addKey]
  split
  · simp [keys_setKey]
  · rename_i hold
    simp [hold]

/-- A key of the table was there before or is the one that is added. -/
theorem keys_addKey (s : ServerState) (d : DbId) (k : Sds) (o : Robj) {d' : DbId} {k' : Sds}
    (h : ((s.addKey d k o).db d').keys k' ≠ none) : k' = k ∨ (s.db d').keys k' ≠ none := by
  rw [ServerState.addKey] at h
  split at h
  · rw [keys_setKey] at h
    by_cases hk : d' = d ∧ k' = k
    · exact .inl hk.2
    · rw [if_neg hk] at h
      exact .inr h
  · exact .inr h

theorem addKey_rest (s : ServerState) (d : DbId) (k : Sds) (o : Robj) :
    (s.addKey d k o).filter = s.filter ∧ (s.addKey d k o).recorded = s.recorded ∧
      (s.addKey d k o).pending = s.pending := by
  rw [ServerState.addKey]
  split <;> exact ⟨rfl, rfl, rfl⟩

theorem keys_deleteExpiredKey (s : ServerState) (d : DbId) (k : Sds) (env : Storage.Env) :
    ((deleteExpiredKey s d k env).db d).keys k = none := by
  show ((dbUnlink _ d k).db d).keys k = none
  rw [dbUnlink]
  split
  · split <;> simp [keys_setKey]
  · assumption

/-- The tables of `s'` have no key that those of `s` have not. -/
def Within (s s' : ServerState) : Prop := ∀ d k, (s'.db d).keys k ≠ none → (s.db d).keys k ≠ none

/-- `s'` has no key that `s` has not, and the same filter. -/
structure NoNewKeys (s s' : ServerState) : Prop where
  keys : ∀ d k, (s'.db d).keys k ≠ none → ∃ d', (s.db d').keys k ≠ none
  filter : s'.filter = s.filter
  recorded : s'.recorded = s.recorded
  pending : s'.pending = s.pending

section NoNewKeys

variable {s s' s'' : ServerState} {d : DbId} {k : Sds}

theorem within_of_db (h : s'.db = s.db) : Within s s' := by
  intro d k hk
  rwa [h] at hk

theorem Within.trans (h : Within s s') (h' : Within s' s'') : Within s s'' :=
  fun d k hk => h d k (h' d k hk)

variable {o : Option Robj}

theorem within_setKey (ho : o ≠ none → (s.db d).keys k ≠ none) :
    Within s (s.setKey d k o) := by
  intro d' k' hk'
  rw [keys_setKey] at hk'
  split_ifs at hk' with heq
  · rw [heq.1, heq.2]
    exact ho hk'
  · exact hk'

theorem within_setExpires (b : Bool) : Within s (s.setExpires d k b) := by
  intro d' k' hk'
  rwa [keys_setExpires] at hk'

theorem within_dbUnlink : Within s (dbUnlink s d k) := by
  have hgone : Within s (s.setKey d k none) := within_setKey nofun
  rw [dbUnlink]
  split
  · split_ifs
    · exact hgone.trans (within_setExpires false)
    · exact hgone
  · exact within_of_db rfl

theorem dbUnlink_rest :
    (dbUnlink s d k).store = s.store ∧ (dbUnlink s d k).filter = s.filter ∧
      (dbUnlink s d k).recorded = s.recorded ∧ (dbUnlink s d k).pending = s.pending := by
  rw [dbUnlink]
  split
  · split_ifs <;> exact ⟨rfl, rfl, rfl, rfl⟩
  · exact ⟨rfl, rfl, rfl, rfl⟩

theorem Within.noNewKeys (h : Within s s') (hfilter : s'.filter = s.filter)
    (hrecorded : s'.recorded = s.recorded) (hpending : s'.pending = s.pending) :
    NoNewKeys s s' :=
  ⟨fun d k hk => ⟨d, h d k hk⟩, hfilter, hrecorded, hpending⟩

theorem NoNewKeys.of_db (hdb : s'.db = s.db) (hfilter : s'.filter = s.filter)
    (hrecorded : s'.recorded = s.recorded) (hpending : s'.pending = s.pending) :
    NoNewKeys s s' :=
  (within_of_db hdb).noNewKeys hfilter hrecorded hpending

theorem NoNewKeys.refl (s : ServerState) : NoNewKeys s s := .of_db rfl rfl rfl rfl

theorem NoNewKeys.trans (h : NoNewKeys s s') (h' : NoNewKeys s' s'') : NoNewKeys s s'' where
  keys d k hk :=
    let ⟨d', hk'⟩ := h'.keys d k hk
    h.keys d' k hk'
  filter := h'.filter.trans h.filter
  recorded := h'.recorded.trans h.recorded
  pending := h'.pending.trans h.pending

theorem noNewKeys_setKey (ho : o ≠ none → (s.db d).keys k ≠ none) :
    NoNewKeys s (s.setKey d k o) :=
  (within_setKey ho).noNewKeys rfl rfl rfl

theorem noNewKeys_setExpires (b : Bool) : NoNewKeys s (s.setExpires d k b) :=
  (within_setExpires b).noNewKeys rfl rfl rfl

theorem noNewKeys_setExpire (hk : (s.db d).keys k ≠ none) (o : Robj) (when_ : Int) :
    NoNewKeys s (setExpire s d k o when_).1 :=
  (noNewKeys_setKey fun _ => hk).trans (noNewKeys_setExpires true)

theorem noNewKeys_dbUnlink : NoNewKeys s (dbUnlink s d k) :=
  have ⟨_, hfilter, hrecorded, hpending⟩ := dbUnlink_rest
  within_dbUnlink.noNewKeys hfilter hrecorded hpending

theorem noNewKeys_deleteExpiredKey (env : Storage.Env) :
    NoNewKeys s (deleteExpiredKey s d k env) := by
  have hstore : NoNewKeys s
      { s with store := s.store.map fun ns => (nexstorageDel ns env (.ofList 32 k)).1 } :=
    .of_db rfl rfl rfl rfl
  exact (hstore.trans noNewKeys_dbUnlink).trans (.of_db rfl rfl rfl rfl)

end NoNewKeys

/-! ### The parts of a lookup -/

section Lookup

variable {s s' : ServerState} {d : DbId} {key : KeyObj} {flags : LookupFlags} {env : LookupEnv}

theorem lookupFind_noNewKeys (h : lookupFind s d key flags env = some (s', o)) :
    NoNewKeys s s' ∧ (o ≠ none → (s'.db d).keys key.decoded ≠ none) := by
  rw [lookupFind] at h
  split at h
  · obtain ⟨rfl, rfl⟩ := result_inj h
    exact ⟨.refl s, absurd rfl⟩
  · rename_i old hold
    split at h
    · obtain ⟨rfl, rfl⟩ := result_inj h
      exact ⟨.refl s, fun _ => by simp [hold]⟩
    · obtain ⟨rfl, rfl⟩ := result_inj h
      exact ⟨.refl s, absurd rfl⟩
    · split at h
      · cases h
      · obtain ⟨rfl, rfl⟩ := result_inj h
        exact ⟨noNewKeys_deleteExpiredKey env.store, absurd rfl⟩

variable {k : Sds} {found : Option Found}

variable (h : ∀ o, found = some (o, true) → (s.db d).keys k ≠ none)
include h

theorem within_lookupFinish : Within s (lookupFinish s d k flags env found).1 := by
  match found, h with
  | none, _ =>
    simp only [lookupFinish]
    split_ifs <;> exact within_of_db rfl
  | some (o, false), _ => exact within_of_db rfl
  | some (o, true), h => exact within_setKey fun _ => h o rfl

omit h in
theorem lookupFinish_rest :
    (lookupFinish s d k flags env found).1.store = s.store ∧
      (lookupFinish s d k flags env found).1.filter = s.filter ∧
      (lookupFinish s d k flags env found).1.recorded = s.recorded ∧
      (lookupFinish s d k flags env found).1.pending = s.pending := by
  match found with
  | none =>
    simp only [lookupFinish]
    split_ifs <;> exact ⟨rfl, rfl, rfl, rfl⟩
  | some (o, false) | some (o, true) => exact ⟨rfl, rfl, rfl, rfl⟩

theorem lookupFinish_noNewKeys : NoNewKeys s (lookupFinish s d k flags env found).1 :=
  have ⟨_, hfilter, hrecorded, hpending⟩ := lookupFinish_rest
  (within_lookupFinish h).noNewKeys hfilter hrecorded hpending

omit h

end Lookup

/-! ### The invariant -/

/-- Every key in a table is in the filter or about to be put there, and the bits of the
filter are those of the keys that were put there. -/
structure Filtered (hash : Sds → Nat) (s : ServerState) : Prop where
  covered : ∀ d k, (s.db d).keys k ≠ none → k ∈ s.recorded ∨ k ∈ s.pending
  bits : ∃ f, s.filter = some f ∧
    ∀ b, f b = true ↔ ∃ k ∈ s.recorded, hash k % FILTER_SIZE = b

namespace Filtered

variable {hash : Sds → Nat} {s s' : ServerState}

theorem start (store : Option ServerStore) : Filtered hash (.start store) :=
  ⟨nofun, _, rfl, fun _ => by simp [ServerState.start, Filter.clear]⟩

theorem noNewKeys (h : Filtered hash s) (hn : NoNewKeys s s') : Filtered hash s' := by
  refine ⟨fun d k hk => ?_, ?_⟩
  · obtain ⟨d', hk'⟩ := hn.keys d k hk
    rw [hn.recorded, hn.pending]
    exact h.covered d' k hk'
  · rw [hn.filter, hn.recorded]
    exact h.bits

/-- A key that is put into the filter may have been added just before. -/
theorem record (hbits : ∃ f, s.filter = some f ∧
      ∀ b, f b = true ↔ ∃ k ∈ s.recorded, hash k % FILTER_SIZE = b) {k : Sds} {pending : List Sds}
    (hcovered : ∀ d k', (s.db d).keys k' ≠ none →
      k' = k ∨ k' ∈ s.recorded ∨ k' ∈ pending) :
    Filtered hash { s.record hash k with pending := pending } := by
  obtain ⟨f, hf, hbits⟩ := hbits
  refine ⟨fun d k' hk' => ?_, _, rfl, fun b => ?_⟩
  · rcases hcovered d k' hk' with rfl | hr | hp
    · exact .inl mem_cons_self
    · exact .inl (mem_cons_of_mem _ hr)
    · exact .inr hp
  · simp only [hf, getD_some, ServerState.record, exists_mem_cons_iff]
    by_cases hb : b = hash k % FILTER_SIZE
    · subst hb
      simp
    · rw [Function.update_of_ne hb, hbits b]
      exact ⟨.inr, fun h => h.resolve_left fun heq => hb heq.symm⟩

variable (h : Filtered hash s)
include h

theorem addKey_record (d : DbId) (k : Sds) (o : Robj) :
    Filtered hash ((s.addKey d k o).record hash k) := by
  obtain ⟨hfilter, hrecorded, hpending⟩ := addKey_rest s d k o
  refine record (by rw [hfilter, hrecorded]; exact h.bits) fun d' k' hk' => ?_
  rw [hrecorded, hpending]
  exact (keys_addKey s d k o hk').imp_right fun hold => h.covered d' k' hold

theorem promote (d : DbId) (k : Sds) (entry : NexEntry) (env : LookupEnv) :
    Filtered hash (Server.promote hash s d k entry env).1 ∧
      ((Server.promote hash s d k entry env).1.db d).keys k ≠ none := by
  have hadd := h.addKey_record d k (promotedObj entry env.lruInit)
  have hself : (((s.addKey d k (promotedObj entry env.lruInit)).record hash k).db d).keys k ≠
      none :=
    keys_addKey_self s d k _
  rw [Server.promote]
  split
  · refine ⟨hadd.noNewKeys (noNewKeys_setExpire hself _ _), ?_⟩
    simp [Server.setExpire, keys_setKey]
  · exact ⟨hadd, hself⟩

variable {d : DbId} {key : KeyObj} {flags : LookupFlags} {env : LookupEnv}
    {r : ServerState × Option Found × LookupFlags}

variable (hl : Server.lookupPromote hash s d key flags env = some r) {reply : DbReply}
include hl

theorem lookupPromote :
    Filtered hash r.1 ∧ (r.2.1 ≠ none → (r.1.db d).keys key.decoded ≠ none) := by
  rw [Server.lookupPromote] at hl
  split at hl
  · obtain rfl := some.inj hl
    exact ⟨h, absurd rfl⟩
  · rename_i ns _
    dsimp only at hl
    have hstore : Filtered hash { s with
        store := some (nexstorageGet ns env.store (.ofList 32 key.decoded) .zero).1 } :=
      h.noNewKeys (.of_db rfl rfl rfl rfl)
    split at hl
    · obtain rfl := some.inj hl
      exact ⟨hstore, absurd rfl⟩
    · split at hl
      · cases hl
      · have hpromote := hstore.promote d key.decoded
          (nexstorageGet ns env.store (.ofList 32 key.decoded) .zero).2.2 env
        generalize Server.promote hash _ d key.decoded _ env = p at hl hpromote
        split at hl
        · obtain rfl := some.inj hl
          exact ⟨hpromote.1.noNewKeys (.of_db rfl rfl rfl rfl), fun _ => hpromote.2⟩
        · obtain rfl := some.inj hl
          exact ⟨hpromote.1, fun _ => hpromote.2⟩

theorem lookupPromote_finish :
    Filtered hash (lookupFinish r.1 d key.decoded r.2.2 env r.2.1).1 := by
  obtain ⟨hr, hfound⟩ := h.lookupPromote hl
  exact hr.noNewKeys (lookupFinish_noNewKeys fun o ho => hfound (by rw [ho]; simp))

omit hl

theorem lookupKey {r : ServerState × Option Robj}
    (hl : Server.lookupKey hash s d key flags env = some r) : Filtered hash r.1 := by
  rw [Server.lookupKey] at hl
  split at hl
  · obtain rfl := some.inj hl
    exact h
  · rw [lookupKeyUnfiltered] at hl
    split at hl
    · cases hl
    · rename_i s₁ o hfind
      obtain rfl := some.inj hl
      obtain ⟨hn, hkey⟩ := lookupFind_noNewKeys hfind
      exact h.noNewKeys (hn.trans (lookupFinish_noNewKeys fun _ _ => hkey (by simp)))
    · rename_i s₁ hfind
      obtain ⟨r', hpromote, rfl⟩ := map_eq_some_iff.mp hl
      exact (h.noNewKeys (lookupFind_noNewKeys hfind).1).lookupPromote_finish hpromote

theorem dbSetValue {val : Robj} {inPlace : Bool}
    (hset : Server.dbSetValue s d key val inPlace = some s') : Filtered hash s' := by
  rw [Server.dbSetValue] at hset
  split at hset
  · cases hset
  · rename_i old hold
    split at hset
    · cases hset
    · obtain rfl := some.inj hset
      exact h.noNewKeys (noNewKeys_setKey fun _ => by simp [hold])

/-- The key is in the table now and not in the filter: it becomes pending. -/
theorem dbAddNew (d : DbId) (key : KeyObj) (val : Robj) (lruInit : Nat) :
    Filtered hash (Server.dbAddNew s d key val lruInit) := by
  obtain ⟨hfilter, hrecorded, hpending⟩ :=
    addKey_rest s d key.decoded { val with expire := -1, lru := lruInit }
  refine ⟨fun d' k hk => ?_, ?_⟩
  · change k ∈ (s.addKey d key.decoded _).recorded ∨
      k ∈ key.decoded :: (s.addKey d key.decoded _).pending
    rw [hrecorded, hpending, mem_cons]
    rcases keys_addKey s d key.decoded _ hk with rfl | hold
    · exact .inr (.inl rfl)
    · exact (h.covered d' k hold).imp_right .inr
  · change ∃ f, (s.addKey d key.decoded _).filter = some f ∧
      ∀ b, f b = true ↔ ∃ k ∈ (s.addKey d key.decoded _).recorded, _
    rw [hfilter, hrecorded]
    exact h.bits

theorem dbAddReturn (hret : Server.dbAddReturn hash s = some s') : Filtered hash s' := by
  rw [Server.dbAddReturn] at hret
  split at hret
  · cases hret
  · rename_i k rest hpending
    obtain rfl := some.inj hret
    refine record h.bits fun d k' hk' => ?_
    have hcovered := h.covered d k' hk'
    rw [hpending, mem_cons] at hcovered
    tauto

theorem dbAddRDBLoad (d : DbId) (k : Sds) (val : Robj) (lruInit : Nat) :
    Filtered hash (Server.dbAddRDBLoad hash s d k val lruInit).1 := by
  rw [Server.dbAddRDBLoad]
  split
  · exact h
  · rename_i hnew
    have hadd := h.addKey_record d k { val with expire := -1, lru := lruInit }
    rw [ServerState.addKey, hnew] at hadd
    exact hadd

theorem removeExpire (hremove : Server.removeExpire s d key = some s') : Filtered hash s' := by
  rw [Server.removeExpire] at hremove
  split at hremove
  · cases hremove
  · split at hremove
    · obtain rfl := some.inj hremove
      have hold : NoNewKeys s (s.setKey d key.decoded
          (((s.db d).keys key.decoded).map fun o => { o with expire := -1 })) :=
        noNewKeys_setKey fun ho hnone => ho (by rw [hnone]; rfl)
      exact h.noNewKeys (hold.trans (noNewKeys_setExpires false))
    · obtain rfl := some.inj hremove
      exact h

theorem emptyDbStructure (aside : Bool) (dbnum : Option Nat) :
    Filtered hash (Server.emptyDbStructure s aside dbnum) := by
  refine h.noNewKeys ⟨fun d k hk => ⟨d, ?_⟩, rfl, rfl, rfl⟩
  simp only [Server.emptyDbStructure] at hk
  split at hk
  · exact absurd rfl hk
  · exact hk

omit h

theorem eq_some_of_map_reply {x : Option ServerState}
    (h : x.map (·, (none : DbReply)) = some (s', reply)) : x = some s' := by
  obtain ⟨s₁, hx, rfl, -⟩ := map_result h
  exact hx

/-- **Every event keeps the invariant.** -/
theorem dbStep (h : Filtered hash s) {e : DbEvent}
    (hstep : Server.dbStep hash s e = some (s', reply)) : Filtered hash s' := by
  cases e with
  | lookup d key flags env =>
    obtain ⟨r, hl, rfl, -⟩ := map_result hstep
    exact h.lookupKey hl
  | promote d key flags env =>
    obtain ⟨r, hl, rfl, -⟩ := map_result hstep
    exact h.lookupPromote_finish hl
  | add d key val lruInit update inPlace =>
    have hadd : dbAddInternal s d key val lruInit update inPlace = some s' :=
      eq_some_of_map_reply hstep
    rw [dbAddInternal] at hadd
    split at hadd
    · exact h.dbSetValue hadd
    · obtain rfl := some.inj hadd
      exact h.dbAddNew d key val lruInit
  | addReturn =>
    exact h.dbAddReturn (eq_some_of_map_reply hstep)
  | rdbLoad d k val lruInit =>
    obtain ⟨rfl, -⟩ := result_inj hstep
    exact h.dbAddRDBLoad d k val lruInit
  | setValue d key val inPlace =>
    exact h.dbSetValue (eq_some_of_map_reply hstep)
  | setExpire d key when_ =>
    obtain ⟨o, ho, rfl⟩ := map_eq_some_iff.mp (eq_some_of_map_reply hstep)
    exact h.noNewKeys (noNewKeys_setExpire (by simp [ho]) o when_)
  | removeExpire d key =>
    exact h.removeExpire (eq_some_of_map_reply hstep)
  | storeDel k env | storeWrite store =>
    obtain ⟨rfl, -⟩ := result_inj hstep
    exact h.noNewKeys (.of_db rfl rfl rfl rfl)
  | unlink d k =>
    obtain ⟨rfl, -⟩ := result_inj hstep
    exact h.noNewKeys noNewKeys_dbUnlink
  | empty aside dbnum =>
    obtain ⟨rfl, -⟩ := result_inj hstep
    exact h.emptyDbStructure aside dbnum
  | swap id1 id2 =>
    obtain ⟨rfl, -⟩ := result_inj hstep
    exact h.noNewKeys ⟨fun d k hk => ⟨_, hk⟩, rfl, rfl, rfl⟩
  | swapTemp =>
    obtain ⟨rfl, -⟩ := result_inj hstep
    refine h.noNewKeys ⟨fun d k hk => ?_, rfl, rfl, rfl⟩
    cases d with
    | main n => exact ⟨.temp n, hk⟩
    | temp n => exact ⟨.main n, hk⟩

theorem run {store : Option ServerStore} {es : List DbEvent} {replies : List DbReply}
    (hrun : Runs.run (Server.dbStep hash) (.start store) es = some (s, replies)) :
    Filtered hash s :=
  run_invariant (fun _ _ _ _ h _ hstep => h.dbStep hstep)
    (start store) (along_of_forall fun _ _ _ => trivial) hrun

end Filtered

theorem hashKey_eq (hash : Sds → Nat) (key : KeyObj) : hashKey hash key = hash key.decoded := by
  cases key <;> rfl

/-- **The filter on a key that is present**: it reports no miss, unless the key is still
being added and no key with the same bit was put into the filter before. -/
theorem speculativeMiss_present_iff {hash : Sds → Nat} {store : Option ServerStore}
    {es : List DbEvent} {s : ServerState} {replies : List DbReply}
    (hrun : run (dbStep hash) (.start store) es = some (s, replies)) {d : DbId} {key : KeyObj}
    (hpresent : (s.db d).keys key.decoded ≠ none) :
    speculativeMissByHash s.filter (hashKey hash key) = false ↔
      (key.decoded ∈ s.pending → ∃ k ∈ s.recorded,
        hash k % FILTER_SIZE = hash key.decoded % FILTER_SIZE) := by
  have hinv := Filtered.run hrun
  obtain ⟨f, hf, hbits⟩ := hinv.bits
  rw [hashKey_eq, hf, speculativeMissByHash, Bool.not_eq_false', hbits]
  refine ⟨fun h _ => h, fun h => ?_⟩
  rcases hinv.covered d key.decoded hpresent with hrecorded | hpending
  · exact ⟨key.decoded, hrecorded, rfl⟩
  · exact h hpending

/-- A string that a client sets. -/
def plainString (bytes : Sds) : Robj := ⟨.string, some bytes, -1, 1, 0, 255⟩

theorem speculativeMiss_present_added :
    ∃ s replies, run (dbStep fun _ => 0) (.start none)
        [.add (.main 0) (.raw [107]) (plainString [118]) 0 false false, .addReturn]
          = some (s, replies) ∧ (s.db (.main 0)).keys [107] ≠ none ∧
      speculativeMissByHash s.filter (hashKey (fun _ => 0) (.raw [107])) = false := by
  have heval : (run (dbStep fun _ => 0) (.start none)
      [.add (.main 0) (.raw [107]) (plainString [118]) 0 false false, .addReturn]).map
        (fun r => (((r.1.db (.main 0)).keys [107]).isSome, r.1.pending)) = some (true, []) := by
    decide +kernel
  obtain ⟨⟨s, replies⟩, hrun, hsome, hpending⟩ := map_result heval
  have hpresent : (s.db (.main 0)).keys [107] ≠ none := isSome_iff_ne_none.mp hsome
  refine ⟨s, replies, hrun, hpresent, (speculativeMiss_present_iff hrun hpresent).mpr ?_⟩
  intro h
  rw [show s.pending = [] from hpending] at h
  cases h

/-- **A listener of `new` that looks the key up**: the key is in the table, and the lookup
returns `NULL`. -/
theorem new_listener_misses :
    (run (dbStep fun _ => 0) (.start none)
        [.add (.main 0) (.raw [107]) (plainString [118]) 0 false false,
          .lookup (.main 0) (.raw [107]) LOOKUP_NONE (.idle 1)]).map
        (fun r => (((r.1.db (.main 0)).keys [107]).isSome,
          speculativeMissByHash r.1.filter (hashKey (fun _ => 0) (.raw [107])), r.2))
      = some (true, true, [none, some none]) := by
  decide +kernel

/-! ### Lookups without the filter -/

/-- What a caller and the listeners see of a lookup: its result, the databases, the two
counters and the events of misses. -/
def observe (r : ServerState × Option Robj) :
    Option Robj × (DbId → ServerDb) × Nat × Nat × List Notification :=
  (r.2, r.1.db, r.1.hits, r.1.misses, r.1.events.filter fun n => n.event = .keymiss)

/-- NexStorage does not find the key. -/
def Unstored (s : ServerState) (key : KeyObj) (env : LookupEnv) : Prop :=
  ∀ ns, s.store = some ns →
    (nexstorageGet ns env.store (.ofList 32 key.decoded) .zero).2.1 ≠ .ok

/-- A miss that leaves no trace: the key is in no store, or has expired in place, and the
flags ask for neither the counter nor the event. -/
structure SilentMiss (s : ServerState) (d : DbId) (key : KeyObj) (flags : LookupFlags)
    (env : LookupEnv) : Prop where
  absent : ∀ o, (s.db d).keys key.decoded = some o → expireIfNeeded env flags o = .expired
  unstored : Unstored s key env
  quiet : flags.write = true ∨ (flags.nonotify = true ∧ flags.nostats = true)

section Transparent

variable {hash : Sds → Nat} {s : ServerState} {d : DbId} {key : KeyObj} {flags : LookupFlags}
  {env : LookupEnv}

theorem observe_found_ne {s s' : ServerState} {k : Sds} {flags : LookupFlags} {found : Found} :
    observe (lookupFinish s d k flags env (some found)) ≠ observe (s', none) :=
  fun h => nomatch congrArg Prod.fst h

theorem db_eq_of_observe {s s' : ServerState} {k : Sds} {flags : LookupFlags}
    (h : observe (lookupFinish s d k flags env none) = observe (s', none)) : s.db = s'.db := by
  have hdb : (lookupFinish s d k flags env none).1.db = s.db := by
    rw [lookupFinish]
    split <;> rfl
  exact hdb.symm.trans (Prod.mk.inj (Prod.mk.inj h).2).1

/-- The counter and the event of a miss stay as they are only if the flags say so. -/
theorem observe_finish_missing_iff (s : ServerState) (k : Sds) (flags : LookupFlags)
    (store : Option ServerStore) :
    observe (lookupFinish { s with store := store } d k flags env none) = observe (s, none) ↔
      flags.write = true ∨ (flags.nonotify = true ∧ flags.nostats = true) := by
  cases hwrite : flags.write <;> cases hnonotify : flags.nonotify <;>
    cases hnostats : flags.nostats <;>
    simp [observe, lookupFinish, ServerState.notify, hwrite, hnonotify, hnostats]

theorem lookupPromote_missing (hash : Sds → Nat) (d : DbId) (flags : LookupFlags)
    (h : Unstored s key env) :
    ∃ store, lookupPromote hash s d key flags env
      = some ({ s with store := store }, none, flags) := by
  rw [lookupPromote]
  split
  · exact ⟨s.store, rfl⟩
  · rename_i ns hns
    refine ⟨some (nexstorageGet ns env.store (.ofList 32 key.decoded) .zero).1, ?_⟩
    dsimp only
    rw [if_pos (h ns hns)]

theorem lookupPromote_found (h : ¬ Unstored s key env)
    (hl : lookupPromote hash s d key flags env = some r) : ∃ found, r.2.1 = some found := by
  simp only [Unstored, not_forall, not_not] at h
  obtain ⟨ns, hns, hok⟩ := h
  rw [lookupPromote, hns] at hl
  dsimp only at hl
  rw [if_neg (not_not.mpr hok)] at hl
  split at hl
  · cases hl
  · split at hl
    all_goals
      obtain rfl := some.inj hl
      exact ⟨_, rfl⟩

/-- A lookup that has not found the key in the table leaves no trace iff NexStorage does
not have it either and the miss is not to be told. -/
theorem promote_silent_iff (s : ServerState) :
    (lookupPromote hash s d key flags env).map
        (fun r => observe (lookupFinish r.1 d key.decoded r.2.2 env r.2.1))
        = some (observe (s, none)) ↔
      Unstored s key env ∧
        (flags.write = true ∨ (flags.nonotify = true ∧ flags.nostats = true)) := by
  by_cases hun : Unstored s key env
  · obtain ⟨store, hl⟩ := lookupPromote_missing hash d flags hun
    rw [hl, map_some, some.injEq, observe_finish_missing_iff]
    exact ⟨fun h => ⟨hun, h⟩, And.right⟩
  · refine ⟨fun h => ?_, fun h => absurd h.1 hun⟩
    obtain ⟨r, hl, hobs⟩ := map_eq_some_iff.mp h
    obtain ⟨found, hfound⟩ := lookupPromote_found hun hl
    rw [hfound] at hobs
    exact absurd hobs observe_found_ne

/-- An expired key that is deleted leaves a trace: it is gone from the table, or the lookup
has found it in NexStorage. -/
theorem promote_deleted_ne (hpresent : (s.db d).keys key.decoded ≠ none) :
    (lookupPromote hash (deleteExpiredKey s d key.decoded env.store) d key flags env).map
      (fun r => observe (lookupFinish r.1 d key.decoded r.2.2 env r.2.1))
      ≠ some (observe (s, none)) := by
  intro h
  obtain ⟨r, hl, hobs⟩ := map_eq_some_iff.mp h
  by_cases hun : Unstored (deleteExpiredKey s d key.decoded env.store) key env
  · obtain ⟨store, hl'⟩ := lookupPromote_missing hash d flags hun
    obtain rfl := mem_unique hl hl'
    have hdb : (deleteExpiredKey s d key.decoded env.store).db = s.db :=
      (db_eq_of_observe hobs :)
    exact hpresent (by rw [← hdb, keys_deleteExpiredKey])
  · obtain ⟨found, hfound⟩ := lookupPromote_found hun hl
    rw [hfound] at hobs
    exact absurd hobs observe_found_ne

theorem map_observe_of_find {s₁ : ServerState}
    (hfind : lookupFind s d key flags env = some (s₁, none)) :
    (lookupKeyUnfiltered hash s d key flags env).map observe
      = (lookupPromote hash s₁ d key flags env).map
        fun r => observe (lookupFinish r.1 d key.decoded r.2.2 env r.2.1) := by
  rw [lookupKeyUnfiltered, hfind]
  exact map_map ..

/-- **The whole lookup without the filter** leaves no trace iff the miss is silent. -/
theorem lookupKeyUnfiltered_silent_iff :
    (lookupKeyUnfiltered hash s d key flags env).map observe = some (observe (s, none)) ↔
      SilentMiss s d key flags env := by
  cases hold : (s.db d).keys key.decoded with
  | none =>
    have hfind : lookupFind s d key flags env = some (s, none) := by
      rw [lookupFind, hold]
    rw [map_observe_of_find hfind, promote_silent_iff]
    refine ⟨fun h => ⟨fun o ho => ?_, h.1, h.2⟩, fun h => ⟨h.unstored, h.quiet⟩⟩
    rw [hold] at ho
    cases ho
  | some o =>
    -- only a key that has expired in place makes a silent miss
    have hsilent : SilentMiss s d key flags env → expireIfNeeded env flags o = .expired :=
      fun h => h.absent o hold
    cases hstatus : expireIfNeeded env flags o with
    | valid =>
      have hfind : lookupFind s d key flags env = some (s, some o) := by
        simp only [lookupFind, hold, hstatus]
      rw [lookupKeyUnfiltered, hfind]
      refine ⟨fun h => absurd (some.inj h) observe_found_ne, fun h => ?_⟩
      cases hstatus.symm.trans (hsilent h)
    | expired =>
      have hfind : lookupFind s d key flags env = some (s, none) := by
        simp only [lookupFind, hold, hstatus]
      rw [map_observe_of_find hfind, promote_silent_iff]
      refine ⟨fun h => ⟨fun o' ho' => ?_, h.1, h.2⟩, fun h => ⟨h.unstored, h.quiet⟩⟩
      obtain rfl := mem_unique hold ho'
      exact hstatus
    | deleted =>
      refine ⟨fun h => ?_, fun h => absurd (hstatus.symm.trans (hsilent h)) (by decide)⟩
      by_cases hint : key.isInt = true
      · have hfind : lookupFind s d key flags env = none := by
          simp only [lookupFind, hold, hstatus, if_pos hint]
        rw [lookupKeyUnfiltered, hfind] at h
        cases h
      · have hfind : lookupFind s d key flags env
            = some (deleteExpiredKey s d key.decoded env.store, none) := by
          simp only [lookupFind, hold, hstatus, if_neg hint]
        rw [map_observe_of_find hfind] at h
        exact absurd h (promote_deleted_ne (by simp [hold]))

end Transparent

/-- **When the filter cannot be seen**: it reports no miss, or the miss is silent. -/
theorem lookupKey_transparent_iff (hash : Sds → Nat) (s : ServerState) (d : DbId) (key : KeyObj)
    (flags : LookupFlags) (env : LookupEnv) :
    (lookupKey hash s d key flags env).map observe
        = (lookupKeyUnfiltered hash s d key flags env).map observe ↔
      speculativeMissByHash s.filter (hashKey hash key) = false ∨
        SilentMiss s d key flags env := by
  rw [lookupKey]
  cases hmiss : speculativeMissByHash s.filter (hashKey hash key) with
  | false => simp
  | true =>
    rw [if_pos rfl, map_some, eq_comm, lookupKeyUnfiltered_silent_iff]
    exact ⟨.inr, fun h => h.resolve_left (by decide)⟩

/-- The runs of the next theorem end with a lookup of the key `k`. -/
def thenLookup (store : ServerStore) (es : List DbEvent) : Option (List (Option Bool)) :=
  (run (dbStep fun _ => 0) (.start (some store))
    (es ++ [.lookup (.main 0) (.raw [107]) LOOKUP_NONE (.idle 2)])).map
      fun r => r.2.map fun reply => reply.map Option.isSome

/-- **A counter that comes and goes**: after `GINCR` on `k`, a lookup of `k` finds nothing,
though it would without the filter; when another key with the same bit has been added and
deleted, it finds the counter.  A miss that the filter reports is not counted. -/
theorem filter_hides_counter :
    ((nexstorageCreate 0 1).bind fun ns₀ =>
        (Crdt.crdtStep 0 ns₀ (Crdt.onKey 1 (.gincr (some 1#64)))).map fun r =>
          (thenLookup r.1 [],
            (lookupKeyUnfiltered (fun _ => 0) (.start (some r.1)) (.main 0) (.raw [107]) LOOKUP_NONE
              (.idle 2)).map fun q => q.2.isSome,
            thenLookup r.1
              [.add (.main 0) (.raw [106]) (plainString []) 0 false false, .addReturn,
                .storeDel [106] (LookupEnv.idle 1).store, .unlink (.main 0) [106]]))
      = some (some [some false], some true, some [none, none, none, none, some true]) ∧
    (lookupKey (fun _ => 0) (.start none) (.main 0) (.raw [107]) LOOKUP_NONE (.idle 1)).map
        (fun r => r.1.misses) = some 0 ∧
    (lookupKeyUnfiltered (fun _ => 0) (.start none) (.main 0) (.raw [107]) LOOKUP_NONE
        (.idle 1)).map (fun r => r.1.misses) = some 1 := by
  decide +kernel

end NexCache.Server
