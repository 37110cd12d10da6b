import NexCache.Storage.ServerStore

/-!
# Lookups and the speculative filter

`db.c`: the tables of the databases and `lookupKey`, which brings a key that only
NexStorage holds into the database that asks for it.

`sovereign.c`: the filter is an array of bits, one of which is set for every key that is
inserted.  `lookupKey` begins with it and returns `NULL` where the bit of the key is clear.

`hash` stands for `dictGenHashFunction`, whose seed is fixed when the server starts.  The
tables of a database are one map: the shard of a key is a function of the key.

Not modelled: the contents of values other than strings, which no function here reads,
and the watches, the propagation to replicas and the prefetches, which change nothing that
a lookup reads.
-/

namespace NexCache.Server

open Machine Storage Function

abbrev Sds := List UInt8

/-! ### Key objects -/

/-- A key object in each of its encodings. -/
inductive KeyObj
  | raw (s : Sds)
  | embstr (s : Sds)
  | int (n : Int)
  deriving DecidableEq

def ll2string (n : Int) : Sds := (toString n).toList.map fun c => UInt8.ofNat c.toNat

namespace KeyObj

/-- The string of `getDecodedObject`. -/
def decoded : KeyObj → Sds
  | raw s => s
  | embstr s => s
  | int n => ll2string n

def isInt : KeyObj → Bool
  | int _ => true
  | _ => false

end KeyObj

/-- `hash_key`. -/
def hashKey (hash : Sds → Nat) : KeyObj → Nat
  | .raw s => hash s
  | .embstr s => hash s
  | .int n => hash (ll2string n)

/-! ### The filter -/

def FILTER_SIZE : Nat := 1024 * 1024

abbrev Filter := Nat → Bool

/-- The bits after `Sovereign_Init`. -/
def Filter.clear : Filter := fun _ => false

/-- `Sovereign_UpdateFilter` with the hash of the key; it allocates a missing filter. -/
def updateFilter (filter : Option Filter) (h : Nat) : Option Filter :=
  some (update (filter.getD .clear) (h % FILTER_SIZE) true)

/-- `Sovereign_SpeculativeMissByHash`. -/
def speculativeMissByHash (filter : Option Filter) (h : Nat) : Bool :=
  match filter with
  | none => false
  | some f => !f (h % FILTER_SIZE)

/-! ### The server -/

inductive ObjType
  | string
  | list
  | set
  | zset
  | hash
  | module
  | stream
  deriving DecidableEq

/-- A value; `bytes` is the contents of a string.  `expire` is `-1` for none. -/
structure Robj where
  type : ObjType
  bytes : Option Sds
  expire : Int
  refcount : Nat
  lru : Nat
  vitality : Nat
  deriving DecidableEq

/-- `expires` holds pointers to the values in `keys`. -/
structure ServerDb where
  keys : Sds → Option Robj
  expires : Sds → Bool

def ServerDb.empty : ServerDb := ⟨fun _ => none, fun _ => false⟩

/-- The databases of the server, and those that a full resynchronisation loads aside. -/
inductive DbId
  | main (n : Nat)
  | temp (n : Nat)
  deriving DecidableEq

namespace DbId

def isTemp : DbId → Bool
  | main _ => false
  | temp _ => true

def num : DbId → Nat
  | main n => n
  | temp n => n

end DbId

inductive NotifyEvent
  | new
  | expired
  | keymiss
  deriving DecidableEq

structure Notification where
  event : NotifyEvent
  key : Sds
  db : DbId
  deriving DecidableEq

structure ServerState where
  db : DbId → ServerDb
  filter : Option Filter
  /-- `global_nexstorage`. -/
  store : Option ServerStore
  hits : Nat
  misses : Nat
  expiredKeys : Nat
  events : List Notification
  /-- The keys that `dbAddInternal` has inserted and not yet put into the filter, the
  innermost call first: its callbacks may add keys of their own. -/
  pending : List Sds
  /-- A history variable: the keys that were put into the filter. -/
  recorded : List Sds

namespace ServerState

def setKey (s : ServerState) (d : DbId) (k : Sds) (o : Option Robj) : ServerState :=
  { s with db := update s.db d
            { s.db d with keys := update (s.db d).keys k o } }

/-- `kvstoreHashtableAdd`: a key that is there is not replaced. -/
def addKey (s : ServerState) (d : DbId) (k : Sds) (o : Robj) : ServerState :=
  match (s.db d).keys k with
  | none => s.setKey d k (some o)
  | some _ => s

def setExpires (s : ServerState) (d : DbId) (k : Sds) (b : Bool) : ServerState :=
  { s with db := update s.db d
            { s.db d with expires := update (s.db d).expires k b } }

def notify (s : ServerState) (event : NotifyEvent) (k : Sds) (d : DbId) : ServerState :=
  { s with events := s.events ++ [⟨event, k, d⟩] }

def record (hash : Sds → Nat) (s : ServerState) (k : Sds) : ServerState :=
  { s with filter := updateFilter s.filter (hash k), recorded := k :: s.recorded }

end ServerState

/-! ### Expiry -/

/-- What a call finds outside the tables. -/
structure LookupEnv where
  /-- `commandTimeSnapshot()`. -/
  now : Int
  store : Storage.Env
  loading : Bool
  lazyExpireDisabled : Bool
  /-- `server.primary_host != NULL`. -/
  hasPrimary : Bool
  replicaRo : Bool
  importMode : Bool
  clientPrimary : Bool
  clientImportSource : Bool
  clientSlotMigration : Bool
  expirePaused : Bool
  /-- The client has `no_touch` set and its command is not `TOUCH`. -/
  clientNoTouch : Bool
  activeChild : Bool
  lruInit : Nat
  lruTouch : Nat → Nat

structure LookupFlags where
  notouch : Bool
  nonotify : Bool
  nostats : Bool
  write : Bool
  noexpire : Bool
  deriving DecidableEq

def LOOKUP_NONE : LookupFlags := ⟨false, false, false, false, false⟩

/-- A primary that is not loading, with no child process, at the time `t`. -/
def LookupEnv.idle (t : Nat) : LookupEnv :=
  ⟨t, ⟨t, some (BitVec.ofNat 48 t), true⟩, false, false, false, true, false, false, false, false,
    false, false, false, t, id⟩

inductive ExpirationPolicy
  | ignoreExpire
  | keepExpired
  | deleteExpired
  deriving DecidableEq

inductive KeyStatus
  | valid
  | expired
  | deleted
  deriving DecidableEq

def objectIsExpired (env : LookupEnv) (o : Robj) : Bool :=
  if env.loading then false
  else if ¬ (0 ≤ o.expire ∧ env.now > o.expire) then false
  else !(!env.hasPrimary && env.importMode && env.clientImportSource)

/-- `force` and `avoid` are the two flags of `expire.h`. -/
def getExpirationPolicyWithFlags (env : LookupEnv) (force avoid : Bool) : ExpirationPolicy :=
  let rest :=
    if avoid then .keepExpired else if env.expirePaused then .keepExpired else .deleteExpired
  if env.loading then .ignoreExpire
  else if env.hasPrimary then
    if env.clientPrimary then .ignoreExpire else if !force then .keepExpired else rest
  else if env.clientSlotMigration then .ignoreExpire
  else if env.importMode then
    if env.clientImportSource then .ignoreExpire else if !force then .keepExpired else rest
  else rest

/-- `expireIfNeededWithDictIndex` without the deletion. -/
def expireIfNeeded (env : LookupEnv) (flags : LookupFlags) (o : Robj) : KeyStatus :=
  let isRoReplica := env.hasPrimary && env.replicaRo
  if env.lazyExpireDisabled then .valid
  else if !objectIsExpired env o then .valid
  else
    match getExpirationPolicyWithFlags env (flags.write && !isRoReplica) flags.noexpire with
    | .ignoreExpire => .valid
    | .keepExpired => .expired
    | .deleteExpired => .deleted

/-- The part of `dbGenericDelete` after the callbacks of the modules. -/
def dbUnlink (s : ServerState) (d : DbId) (k : Sds) : ServerState :=
  match (s.db d).keys k with
  | some o =>
    let s := s.setKey d k none
    if o.expire ≠ -1 then s.setExpires d k false else s
  | none => s

/-- `dbGenericDelete`: the key also leaves NexStorage. -/
def dbGenericDelete (s : ServerState) (d : DbId) (k : Sds) (env : Storage.Env) : ServerState :=
  dbUnlink { s with store := s.store.map fun ns => (nexstorageDel ns env (.ofList 32 k)).1 } d k

def deleteExpiredKey (s : ServerState) (d : DbId) (k : Sds) (env : Storage.Env) : ServerState :=
  let s := (dbGenericDelete s d k env).notify .expired k d
  { s with expiredKeys := s.expiredKeys + 1 }

/-! ### Lookups -/

/-- The first part: the value in the table, unless it has expired.  An integer key object
cannot be deleted: its number is read as the address of a string. -/
def lookupFind (s : ServerState) (d : DbId) (key : KeyObj) (flags : LookupFlags) (env : LookupEnv) :
    Option (ServerState × Option Robj) :=
  match (s.db d).keys key.decoded with
  | none => some (s, none)
  | some o =>
    match expireIfNeeded env flags o with
    | .valid => some (s, some o)
    | .expired => some (s, none)
    | .deleted =>
      if key.isInt then none else some (deleteExpiredKey s d key.decoded env.store, none)

/-- The object that is made for an entry of NexStorage. -/
def promotedObj (entry : NexEntry) (lruInit : Nat) : Robj :=
  let stub (type : ObjType) : Robj := ⟨type, none, -1, 1, lruInit, 255⟩
  match entry.type with
  | .hash => stub .hash
  | .list => stub .list
  | .set => stub .set
  | .zset => stub .zset
  | _ => ⟨.string, some entry.value.bytes, -1, 1, lruInit, 255⟩

/-- `setExpire` on a key of the table. -/
def setExpire (s : ServerState) (d : DbId) (k : Sds) (o : Robj) (when_ : Int) :
    ServerState × Robj :=
  let o := { o with expire := when_ }
  ((s.setKey d k (some o)).setExpires d k true, o)

/-- What a lookup holds: a value, and whether it is the one in the table. -/
abbrev Found := Robj × Bool

/-- The promotion of an entry.  A key that has expired but stays in the table is not
replaced: the new object is then in no table, unless the entry has a TTL. -/
def promote (hash : Sds → Nat) (s : ServerState) (d : DbId) (k : Sds) (entry : NexEntry)
    (env : LookupEnv) : ServerState × Found :=
  let o := promotedObj entry env.lruInit
  let inTable := ((s.db d).keys k).isNone
  let s := (s.addKey d k o).record hash k
  if entry.ttlMs > 0 then
    let r := setExpire s d k (((s.db d).keys k).getD o) (env.now + entry.ttlMs)
    (r.1, r.2, true)
  else (s, o, inTable)

/-- The second part: a key that was not found is looked for in NexStorage.  The decoded
form of an integer key object is released twice after a promotion. -/
def lookupPromote (hash : Sds → Nat) (s : ServerState) (d : DbId) (key : KeyObj)
    (flags : LookupFlags) (env : LookupEnv) :
    Option (ServerState × Option Found × LookupFlags) :=
  match s.store with
  | none => some (s, none, flags)
  | some ns =>
    let (ns, res, entry) := nexstorageGet ns env.store (.ofList 32 key.decoded) .zero
    let s := { s with store := some ns }
    if res ≠ .ok then some (s, none, flags)
    else if key.isInt then none
    else
      let (s, found) := promote hash s d key.decoded entry env
      if !(flags.nostats || flags.write) then
        some ({ s with hits := s.hits + 1 }, some found, { flags with nostats := true })
      else some (s, some found, flags)

/-- `lrulfu_touch` and `Sovereign_ReinforceSynapse`. -/
def touchObj (env : LookupEnv) (o : Robj) : Robj :=
  { o with lru := env.lruTouch o.lru
           vitality := if o.vitality < 255 then o.vitality + 1 else o.vitality }

/-- The third part: the access time, the counters and the event. -/
def lookupFinish (s : ServerState) (d : DbId) (k : Sds) (flags : LookupFlags) (env : LookupEnv) :
    Option Found → ServerState × Option Robj
  | some (o, inTable) =>
    let notouch := flags.notouch || env.clientNoTouch
    let o' := if !env.activeChild && !notouch then touchObj env o else o
    let s := if inTable then s.setKey d k (some o') else s
    let counted := !(flags.nostats || flags.write) && decide (o.refcount > 1)
    ({ s with hits := s.hits + if counted then 1 else 0 }, some o')
  | none =>
    let s := if !(flags.nonotify || flags.write) then s.notify .keymiss k d else s
    ({ s with misses := s.misses + if !(flags.nostats || flags.write) then 1 else 0 }, none)

/-- `lookupKey` without its first test. -/
def lookupKeyUnfiltered (hash : Sds → Nat) (s : ServerState) (d : DbId) (key : KeyObj)
    (flags : LookupFlags) (env : LookupEnv) : Option (ServerState × Option Robj) :=
  match lookupFind s d key flags env with
  | none => none
  | some (s, some o) => some (lookupFinish s d key.decoded flags env (some (o, true)))
  | some (s, none) =>
    (lookupPromote hash s d key flags env).map fun r =>
      lookupFinish r.1 d key.decoded r.2.2 env r.2.1

/-- `lookupKey`: the value, or `NULL`.  `none` where the behaviour is not defined. -/
def lookupKey (hash : Sds → Nat) (s : ServerState) (d : DbId) (key : KeyObj) (flags : LookupFlags)
    (env : LookupEnv) : Option (ServerState × Option Robj) :=
  if speculativeMissByHash s.filter (hashKey hash key) then some (s, none)
  else lookupKeyUnfiltered hash s d key flags env

end NexCache.Server
