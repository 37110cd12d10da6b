import NexCache.NexDash.Table
import NexCache.Segcache.Segcache
import NexCache.Storage.NexStorage

/-!
# The two adapters

`core/nexstorage.c`: the hash table and the segment cache behind the operation table of
the store.

The hash table stores pointers.  Each value is one block of `malloc`, an `NDValue` with
its bytes behind it; the table frees a block through `ndvalue_free_cb`.  The model keeps
the contents of the blocks (`heap`) and which of them are allocated.  A block keeps its
contents when it is freed, so a read through a dangling pointer is visible as a read of
a block that is not allocated.

A call takes at most one block.  The functions of the hash table whose names end in `At` take
every reading of the clock that a call makes, in microseconds since the epoch; the others are
these at a clock that stands still during the call.

Not modelled: `ndapi_scan`, the snapshot functions, `ndapi_stats`, `scapi_stats` and the
stubs that only return a constant.
-/

namespace NexCache.Storage

open Machine Bloom Function
open NexDash (Addr NexDashTable)
open Segcache (NexSegcache)

/-- What a call finds outside the store. -/
structure Env where
  now : Nat
  /-- The block that `malloc` returns; `none` is `NULL`. -/
  block : Option Addr
  /-- Whether the arena has room for a doubled directory. -/
  arenaOk : Bool

/-- The readings of the clock that one call makes, one for each place that makes one.  `now` is
the one of the table that looks the key up. -/
structure Clock extends Env where
  /-- for the TTL of the entry -/
  entry : Nat
  /-- for the version of a new value -/
  version : Nat
  /-- for the deadline of a new value -/
  value : Nat
  /-- for the deadline in the slot -/
  slot : Nat
  /-- of the table that stores the value -/
  write : Nat

def Env.still (env : Env) : Clock := ⟨env, env.now, env.now, env.now, env.now, env.now⟩

/-- The `enum` value of a type. -/
def NexDataType.code : NexDataType → BitVec 32
  | string => 0#32
  | hash => 1#32
  | list => 2#32
  | set => 3#32
  | zset => 4#32
  | stream => 5#32
  | json => 6#32
  | vector => 7#32
  | crdt => 8#32
  | unknown => 255#32

/-- `NexEntry entry = {0}`. -/
def NexEntry.zero : NexEntry := ⟨⟨[], nil_length_lt⟩, .string, 0, 0⟩

/-! ### The hash table -/

def ND_MAX_KEY_LEN : Nat := 255

/-- The scratch buffer of `ndapi_get`. -/
def ND_BUF_LEN : Nat := 1024 * 1024

/-- `NDValue`; `data` is `data` and `data_len`. -/
structure NDValue where
  data : Bytes
  type : NexDataType
  /-- Absolute, in microseconds; `-1` is no expiry. -/
  expireUs : Int
  version : Nat

structure NdBackend where
  table : NexDashTable
  heap : Addr → NDValue
  allocated : Addr → Bool

namespace NdBackend

/-- A new block with its contents. -/
def malloc (b : NdBackend) (block : Addr) (val : NDValue) : NdBackend :=
  { b with heap := update b.heap block val
           allocated := update b.allocated block true }

def free (b : NdBackend) (block : Addr) : NdBackend :=
  { b with allocated := update b.allocated block false }

/-- The table after a call, with the blocks released that the call handed to
`ndvalue_free_cb`. -/
def settle (b : NdBackend) (t : NexDashTable) : NdBackend :=
  { b with table := t
           allocated := fun a =>
            b.allocated a && !(t.freed.drop b.table.freed.length).contains a }

end NdBackend

/-- `ndapi_create`. -/
def ndapiCreate (bloomSized : NumBlocks) : Option NdBackend :=
  (NexDash.nexdashCreate 4 bloomSized true).map fun t =>
    ⟨t, fun _ => ⟨⟨[], nil_length_lt⟩, .string, 0, 0⟩, fun _ => false⟩

/-- `ttl_ms >= 0 ? (int64_t)(now + (uint64_t)ttl_ms * 1000) : -1`. -/
def ndExpireUs (now : Nat) (ttlMs : Int) : Int :=
  if 0 ≤ ttlMs then i64 (u64 (now + ttlMs.toNat * 1000)) else -1

/-- `ttl_ms >= 0 ? now + (uint64_t)ttl_ms * 1000 : 0`. -/
def ndExpireArg (now : Nat) (ttlMs : Int) : Nat :=
  if 0 ≤ ttlMs then u64 (now + ttlMs.toNat * 1000) else 0

/-- The `ttl_ms` of an entry: `-1` without expiry, `-2` if the deadline has passed. -/
def ndTtlMs (expireUs : Int) (now : Nat) : Int :=
  if expireUs < 0 then -1
  else
    let remaining := expireUs - now
    if remaining > 0 then remaining / 1000 else -2

/-- The entry that `ndapi_get` and `ndapi_rmw` fill in. -/
def ndEntry (val : NDValue) (now : Nat) : NexEntry :=
  ⟨val.data, val.type, ndTtlMs val.expireUs now, val.version⟩

/-- The value that `nexdash_get_nolock` leads to. -/
def ndLookup (b : NdBackend) (key : NexDash.Key) (now : Nat) : NdBackend × Option NDValue :=
  let r := NexDash.nexdashGet b.table key now
  (b.settle r.1,
    match r.2 with
    | some (addr, _) => if addr = 0#48 then none else some (b.heap addr)
    | none => none)

/-- The second half of `ndapi_set` and of `ndapi_rmw`: a new block is filled and handed to
the table, and freed if the table does not take it.  `true` is success. -/
def ndPutAt (b : NdBackend) (c : Clock) (key : NexDash.Key) (value : Bytes) (type : NexDataType)
    (ttlMs : Int) : Option (NdBackend × Bool) :=
  match c.block with
  | none => some (b, false)
  | some block =>
    let b := b.malloc block ⟨value, type, ndExpireUs c.value ttlMs, c.version⟩
    -- `sizeof(NDValue)` is 32
    match NexDash.nexdashSet b.table key block (BitVec.ofNat 32 (32 + value.len)) type.code
        (ndExpireArg c.slot ttlMs) c.write c.arenaOk with
    | none => none
    | some (t, rc) =>
      let b := b.settle t
      if rc = 0 then some (b.free block, false) else some (b, true)

def ndapiGetAt (b : NdBackend) (c : Clock) (key : Bytes) (out : NexEntry) :
    NdBackend × NexStorageResult × NexEntry :=
  if key.len > ND_MAX_KEY_LEN then (b, .tooLarge, out)
  else
    match ndLookup b (key.cut 8) c.now with
    | (b, none) => (b, .notFound, out)
    | (b, some val) =>
      if val.data.len > ND_BUF_LEN then (b, .tooLarge, out)
      else (b, .ok, ndEntry val c.entry)

def ndapiGet (b : NdBackend) (env : Env) (key : Bytes) (out : NexEntry) :
    NdBackend × NexStorageResult × NexEntry :=
  ndapiGetAt b env.still key out

def ndapiSetAt (b : NdBackend) (c : Clock) (key value : Bytes) (type : NexDataType) (ttlMs : Int) :
    Option (NdBackend × NexStorageResult) :=
  if key.len > ND_MAX_KEY_LEN then some (b, .tooLarge)
  else
    (ndPutAt b c (key.cut 8) value type ttlMs).map fun r =>
      (r.1, if r.2 then .ok else .error)

def ndapiSet (b : NdBackend) (env : Env) (key value : Bytes) (type : NexDataType) (ttlMs : Int) :
    Option (NdBackend × NexStorageResult) :=
  ndapiSetAt b env.still key value type ttlMs

def ndapiDel (b : NdBackend) (_ : Env) (key : Bytes) : NdBackend × NexStorageResult :=
  if key.len > ND_MAX_KEY_LEN then (b, .notFound)
  else
    let r := NexDash.nexdashDel b.table (key.cut 8)
    (b.settle r.1, if r.2 > 0 then .ok else .notFound)

def ndapiExists (b : NdBackend) (env : Env) (key : Bytes) : NdBackend × Bool :=
  if key.len > ND_MAX_KEY_LEN then (b, false)
  else
    let r := NexDash.nexdashExists b.table (key.cut 8) env.now
    (b.settle r.1, r.2)

def ndapiRmwAt (b : NdBackend) (c : Clock) (key : Bytes) (cb : NexRMWCallback) :
    Option (NdBackend × NexStorageResult) :=
  if key.len > ND_MAX_KEY_LEN then some (b, .tooLarge)
  else
    let (b, found) := ndLookup b (key.cut 8) c.now
    let entry := found.elim { NexEntry.zero with ttlMs := -1 } fun val => ndEntry val c.entry
    let (res, entry) := cb entry
    if res = .ok then
      (ndPutAt b c (key.cut 8) entry.value entry.type entry.ttlMs).map fun r =>
        (r.1, if r.2 then res else .error)
    else some (b, res)

def ndapiRmw (b : NdBackend) (env : Env) (key : Bytes) (cb : NexRMWCallback) :
    Option (NdBackend × NexStorageResult) :=
  ndapiRmwAt b env.still key cb

def ndapiExpireAt (b : NdBackend) (c : Clock) (key : Bytes) (ttlMs : Int) :
    NdBackend × NexStorageResult :=
  if key.len > ND_MAX_KEY_LEN then (b, .notFound)
  else
    let r := NexDash.nexdashExpire b.table (key.cut 8) (ndExpireArg c.slot ttlMs) c.now
    (b.settle r.1, if r.2 > 0 then .ok else .notFound)

def ndapiTtlAt (b : NdBackend) (c : Clock) (key : Bytes) : NdBackend × Int :=
  let r := ndapiGetAt b c key .zero
  (r.1, if r.2.1 ≠ .ok then -2 else r.2.2.ttlMs)

def nexDashTableAPI : NexStorageAPI Env NdBackend where
  get := ndapiGet
  set := ndapiSet
  del := ndapiDel
  «exists» := ndapiExists
  rmw := some ndapiRmw

/-! ### The segment cache

The lengths are cast to `uint16_t` on the way in. -/

/-- `(uint32_t)time(NULL)`. -/
def segNow (env : Env) : Nat := u32 (env.now / 1000000)

/-- The scratch buffer of `scapi_get`. -/
def SC_BUF_LEN : Nat := 65535

def scapiCreate (maxMem : Nat) : NexSegcache :=
  Segcache.segcacheCreate maxMem Segcache.SEG_DEFAULT_SIZE

/-- `scapi_get` leaves the `version` of the entry as it is. -/
def scapiGet (sc : NexSegcache) (env : Env) (key : Bytes) (out : NexEntry) :
    NexSegcache × NexStorageResult × NexEntry :=
  match Segcache.segcacheGet sc (key.cut 16) SC_BUF_LEN (segNow env) with
  | (sc, .hit value) =>
    (sc, .ok, { out with value := .ofList 32 value, type := .string, ttlMs := -1 })
  | (sc, _) => (sc, .notFound, out)

/-- `ttl_ms >= 0 ? (uint32_t)(ttl_ms / 1000) : 0`. -/
def scTtlSeconds (ttlMs : Int) : Nat := if 0 ≤ ttlMs then u32 (ttlMs / 1000).toNat else 0

/-- `scapi_set` has no use for the type. -/
def scapiSet (sc : NexSegcache) (env : Env) (key value : Bytes) (_ : NexDataType)
    (ttlMs : Int) : NexSegcache × NexStorageResult :=
  let r := Segcache.segcacheSet sc (key.cut 16) (value.cut 16) (scTtlSeconds ttlMs) (segNow env)
  (r.1, if r.2 then .ok else .error)

def scapiDel (sc : NexSegcache) (_ : Env) (key : Bytes) : NexSegcache × NexStorageResult :=
  let r := Segcache.segcacheDel sc (key.cut 16)
  (r.1, if r.2 then .ok else .notFound)

def scapiExists (sc : NexSegcache) (env : Env) (key : Bytes) : NexSegcache × Bool :=
  Segcache.segcacheExists sc (key.cut 16) (segNow env)

/-- `scapi_rmw`: the result of the write is not looked at. -/
def scapiRmw (sc : NexSegcache) (env : Env) (key : Bytes) (cb : NexRMWCallback) :
    NexSegcache × NexStorageResult :=
  let (sc, _, entry) := scapiGet sc env key { NexEntry.zero with ttlMs := -1 }
  let (res, entry) := cb entry
  if res = .ok then ((scapiSet sc env key entry.value entry.type entry.ttlMs).1, res)
  else (sc, res)

def nexSegcacheAPI : NexStorageAPI Env NexSegcache where
  get := scapiGet
  set sc env key value type ttlMs := some (scapiSet sc env key value type ttlMs)
  del := scapiDel
  «exists» := scapiExists
  rmw := some fun sc env key cb => some (scapiRmw sc env key cb)

end NexCache.Storage
