import NexCache.Object.Layout

/-!
# The tables of a database as pointers

`db.c`: `keys`, `expires` and `keys_with_volatile_items` hold pointers to objects, and every
function that gives an object a key, a value or a deadline may allocate another one in its place or
exchange the contents of two.  Objects are here addresses into a memory, with the byte layout of
`NexCache.Object.Layout` and with reference counts.  An object that gets a key may end behind its
allocation, in the memory of another one; such a call has no next state.

* `Inv`: every object in `keys` has the key that it is found under, and `expires` has exactly the
  objects with a deadline, each at the address that `keys` has.
* `Calm`: what a step must leave of the objects in the tables.  Allocating, releasing, touching and
  exchanging contents are calm; the tables change only in the last step of each function.

A table is a map.  NexStorage is empty, and modules and subscribers do nothing.  Not modelled: the
debug assertions, which are off, and the list of keys that a writable replica remembers.
-/

namespace NexCache.Tables

open Object Runs Buffer Function
open Server (Sds Filter LookupEnv LookupFlags KeyStatus updateFilter speculativeMissByHash)

def OBJ_SHARED_REFCOUNT : Nat := 2 ^ 29 - 1

def OBJ_STATIC_REFCOUNT : Nat := 2 ^ 29 - 2

structure Db where
  /-- The memory: the objects that are allocated, by address. -/
  objs : Nat → Option ServerObject
  /-- No address from here on was given out. -/
  next : Nat
  keys : Sds → Option Nat
  expires : Sds → Option Nat
  keysWithVolatileItems : Sds → Option Nat
  filter : Option Filter

/-- What a call finds outside the tables. -/
structure Env where
  heap : Heap
  lruInit : Nat
  lookup : LookupEnv

namespace Db

def setObj (s : Db) (id : Nat) (o : ServerObject) : Db :=
  { s with objs := update s.objs id (some o) }

def free (s : Db) (id : Nat) : Db := { s with objs := update s.objs id none }

def alloc (s : Db) (o : ServerObject) : Db :=
  { s with objs := update s.objs s.next (some o), next := s.next + 1 }

end Db

/-- `kvstoreHashtableAdd`: an entry that is there is not replaced. -/
def tableAdd (t : Sds → Option Nat) (k : Sds) (id : Nat) : Sds → Option Nat :=
  if t k = none then update t k (some id) else t

/-! ### Reference counts -/

/-- `none` where the server stops, also for memory that is not allocated. -/
def incrRefCount (s : Db) (id : Nat) : Option Db :=
  match s.objs id with
  | none => none
  | some o =>
    if o.refcount < OBJ_STATIC_REFCOUNT then
      some (s.setObj id { o with refcount := o.refcount + 1 })
    else if o.refcount = OBJ_SHARED_REFCOUNT then some s
    else none

def decrRefCount (s : Db) (id : Nat) : Option Db :=
  match s.objs id with
  | none => none
  | some o =>
    if o.refcount = 1 then some (s.free id)
    else if o.refcount = 0 then none
    else if o.refcount ≠ OBJ_SHARED_REFCOUNT then
      some (s.setObj id { o with refcount := o.refcount - 1 })
    else some s

/-- What the callbacks of the modules are run between. -/
def holdDuringCallbacks (s : Db) (id : Nat) : Option Db :=
  (incrRefCount s id).bind fun s => decrRefCount s id

/-! ### Objects in memory -/

/-- Every part of the object lies in its own allocation. -/
def inside (o : ServerObject) : Bool := o.regions.all fun r => decide (r.stop ≤ o.room)

/-- `objectSetKeyAndExpire`: the new object and its address. -/
def setKeyAndExpire (heap : Heap) (s : Db) (id : Nat) (key : Option Sds) (expire : Int64) :
    Option (Db × Nat) := do
  let o ← s.objs id
  let new ← (objectSetKeyAndExpire heap o key expire).filter inside
  let s' ← decrRefCount (s.alloc new) id
  return (s', s.next)

/-- An object with another deadline in its slot. -/
def withExpire (o : ServerObject) (expire : Int64) : ServerObject :=
  { o with payload := putExpire true expire o.payload }

def objectSetExpire (heap : Heap) (s : Db) (id : Nat) (expire : Int64) : Option (Db × Nat) := do
  let o ← s.objs id
  if o.hasexpire then return (s.setObj id (withExpire o expire), id)
  else if expire = EXPIRY_NONE then return (s, id)
  else setKeyAndExpire heap s id o.keyText expire

/-- `initObjectLRUOrLFU`. -/
def initLru (s : Db) (id lru : Nat) : Option Db :=
  (s.objs id).map fun o =>
    if o.refcount = OBJ_SHARED_REFCOUNT then s else s.setObj id { o with lru := lru }

/-! ### Hashes with volatile fields

`vset` says of the contents of a hash whether its set of volatile fields is there and not empty. -/

section Functions

variable (hash : Sds → Nat) (vset : Nat → Bool)

def hashTypeHasVolatileFields (o : ServerObject) : Bool :=
  decide (o.encoding = .hashtable) &&
    match o.ptr with
    | .other id => vset id
    | _ => false

def isVolatileHash (o : ServerObject) : Bool :=
  decide (o.type = .hash) && hashTypeHasVolatileFields vset o

/-- `none` for an object without a key, where `sdslen` is called on `NULL`. -/
def dbTrackKeyWithVolatileItems (s : Db) (id : Nat) : Option Db := do
  let o ← s.objs id
  if isVolatileHash vset o then
    let k ← o.keyText
    return { s with keysWithVolatileItems := tableAdd s.keysWithVolatileItems k id }
  else return s

def dbUntrackKeyWithVolatileItems (s : Db) (id : Nat) : Option Db := do
  let o ← s.objs id
  let k ← o.keyText
  return { s with keysWithVolatileItems := update s.keysWithVolatileItems k none }

/-! ### `dbSetValue` -/

/-- Both objects have one reference and their values have allocations of their own. -/
def contentsMovable (old val : ServerObject) : Bool :=
  (decide (old.refcount = 1) && decide (old.encoding ≠ .embstr)) &&
    (decide (val.refcount = 1) && decide (val.encoding ≠ .embstr))

def withContents (o c : ServerObject) : ServerObject :=
  { o with type := c.type, encoding := c.encoding, ptr := c.ptr }

/-- The old object stays and gets the contents of the new one.  `objectSetVal` asserts that no
value is embedded. -/
def swapContents (s : Db) (old val : Nat) (oldObj valObj : ServerObject) : Option Db :=
  if oldObj.hasembval || valObj.hasembval then none
  else some ((s.setObj old (withContents oldObj valObj)).setObj val (withContents valObj oldObj))

/-- The value gets the key and the deadline, and its address goes into both tables. -/
def replaceObject (env : Env) (s : Db) (k : Sds) (val : Nat) (oldObj valObj : ServerObject) :
    Option (Db × Nat) := do
  let s := s.setObj val { valObj with lru := oldObj.lru }
  let expire := objectGetExpire oldObj
  let (s, new) ← setKeyAndExpire env.heap s val (some k) expire
  let s := { s with keys := update s.keys k (some new) }
  if 0 ≤ expire then
    let _ ← s.expires k
    return ({ s with expires := update s.expires k (some new) }, new)
  else return (s, new)

/-- The object to be released leaves the tracking, or the one that keeps the key does. -/
def untrackReleased (s : Db) (new old : Nat) : Option Db := do
  let o ← s.objs old
  if isVolatileHash vset o then
    dbUntrackKeyWithVolatileItems s (if o.hasembkey then old else new)
  else return s

/-- The end of `dbSetValue`: `old` is released, by whichever thread. -/
def finishSetValue (s : Db) (new old : Nat) : Option (Db × Nat) := do
  let s ← untrackReleased vset s new old
  let s ← dbTrackKeyWithVolatileItems vset s new
  let s ← decrRefCount s old
  return (s, new)

def dbSetValue (env : Env) (s : Db) (k : Sds) (val : Nat) (overwrite : Bool) :
    Option (Db × Nat) := do
  let old ← s.keys k
  let s ← (if overwrite then holdDuringCallbacks s old else some s)
  let oldObj ← s.objs old
  let valObj ← s.objs val
  if contentsMovable oldObj valObj then
    let s ← swapContents s old val oldObj valObj
    finishSetValue vset s old val
  else
    let (s, new) ← replaceObject env s k val oldObj valObj
    finishSetValue vset s new old

/-! ### The other functions -/

def dbAddInternal (env : Env) (s : Db) (k : Sds) (val : Nat) (updateIfExisting : Bool) :
    Option (Db × Nat) := do
  if updateIfExisting && (s.keys k).isSome then dbSetValue vset env s k val true
  else
    let (s, new) ← setKeyAndExpire env.heap s val (some k) EXPIRY_NONE
    let s ← dbTrackKeyWithVolatileItems vset s new
    let s ← initLru s new env.lruInit
    return ({ s with keys := tableAdd s.keys k new, filter := updateFilter s.filter (hash k) }, new)

def dbAdd (env : Env) (s : Db) (k : Sds) (val : Nat) : Option (Db × Nat) :=
  dbAddInternal hash vset env s k val false

def dbReplaceValue (env : Env) (s : Db) (k : Sds) (val : Nat) : Option (Db × Nat) :=
  dbSetValue vset env s k val false

def getExpireWithDictIndex (s : Db) (k : Sds) : Int64 :=
  match (s.expires k).bind s.objs with
  | none => EXPIRY_NONE
  | some o => objectGetExpire o

/-- The object is asserted to stay where it is. -/
def removeExpire (env : Env) (s : Db) (k : Sds) : Option Db :=
  match s.expires k with
  | none => some s
  | some id => do
    let s := { s with expires := update s.expires k none }
    let (s, new) ← objectSetExpire env.heap s id EXPIRY_NONE
    if new = id then return s else none

/-- `hashtableReplaceReallocatedEntry` on the tracking, which is asserted to succeed. -/
def replaceTracked (s : Db) (id new : Nat) : Option Db := do
  let o ← s.objs new
  if isVolatileHash vset o then
    let k ← o.keyText
    if s.keysWithVolatileItems k = some id then
      return { s with keysWithVolatileItems :=
        Function.update s.keysWithVolatileItems k (some new) }
    else none
  else return s

def setExpire (env : Env) (s : Db) (k : Sds) (when_ : Int64) : Option (Db × Nat) := do
  let id ← s.keys k
  let o ← s.objs id
  let (s, new) ← objectSetExpire env.heap s id when_
  let s ← replaceTracked vset s id new
  if objectGetExpire o ≠ EXPIRY_NONE then
    if new = id then return (s, id) else none
  else
    let s := { s with keys := Function.update s.keys k (some new) }
    if s.expires k = none then
      return ({ s with expires := Function.update s.expires k (some new) }, new)
    else none

def dbGenericDelete (s : Db) (k : Sds) : Option (Db × Bool) :=
  match s.keys k with
  | none => some (s, false)
  | some id => do
    let s ← holdDuringCallbacks s id
    let o ← s.objs id
    let s := { s with keys := update s.keys k none }
    let s ← (if objectGetExpire o ≠ EXPIRY_NONE then
        (s.expires k).map fun _ => { s with expires := update s.expires k none }
      else some s)
    let s ← (if isVolatileHash vset o then dbUntrackKeyWithVolatileItems s id else some s)
    let s ← decrRefCount s id
    return (s, true)

/-- What `expireIfNeeded` reads of an object. -/
def asRobj (o : ServerObject) : Server.Robj :=
  ⟨o.type, none, (objectGetExpire o).toInt, o.refcount, o.lru, o.vitality⟩

def LOOKUP_WRITE : LookupFlags := ⟨false, false, false, true, false⟩

/-- `lrulfu_touch` and `Sovereign_ReinforceSynapse`. -/
def touchObject (env : Env) (o : ServerObject) : ServerObject :=
  { o with lru := env.lookup.lruTouch o.lru
           vitality := if o.vitality < 255 then o.vitality + 1 else o.vitality }

/-- Whether the key is there, for a write; it may be deleted. -/
def lookupKeyWrite (env : Env) (s : Db) (k : Sds) : Option (Db × Bool) :=
  if speculativeMissByHash s.filter (hash k) then some (s, false)
  else
    match s.keys k with
    | none => some (s, false)
    | some id => do
      let o ← s.objs id
      match Server.expireIfNeeded env.lookup LOOKUP_WRITE (asRobj o) with
      | .valid =>
        if !env.lookup.activeChild && !env.lookup.clientNoTouch then
          return (s.setObj id (touchObject env o), true)
        else return (s, true)
      | .expired => return (s, false)
      | .deleted =>
        let (s, _) ← dbGenericDelete vset s k
        return (s, false)

structure SetKeyFlags where
  keepttl : Bool
  noSignal : Bool
  alreadyExist : Bool
  doesntExist : Bool
  addOrUpdate : Bool
  deriving DecidableEq

/-- The variable `keyfound`: 0, 1, or -1 for a key that may be there. -/
def setKeyFound (env : Env) (s : Db) (k : Sds) (flags : SetKeyFlags) : Option (Db × Int) :=
  if flags.alreadyExist then some (s, 1)
  else if flags.addOrUpdate then some (s, -1)
  else if !flags.doesntExist then
    (lookupKeyWrite hash vset env s k).map fun r => (r.1, if r.2 then 1 else 0)
  else some (s, 0)

def setKey (env : Env) (s : Db) (k : Sds) (val : Nat) (flags : SetKeyFlags) :
    Option (Db × Nat) := do
  let (s, keyfound) ← setKeyFound hash vset env s k flags
  let (s, new) ← (if keyfound = 0 then dbAdd hash vset env s k val
    else if keyfound < 0 then dbAddInternal hash vset env s k val true
    else dbSetValue vset env s k val true)
  let s ← (if !flags.keepttl then removeExpire env s k else some s)
  return (s, new)

/-! ### Calls -/

/-- The calls on a database, and what callers do with the objects that they refer to. -/
inductive Call
  | create (o : ServerObject)
  | retain (id : Nat)
  | release (id : Nat)
  | dbAdd (env : Env) (k : Text) (val : Nat)
  | setKey (env : Env) (k : Text) (val : Nat) (flags : SetKeyFlags)
  | dbReplaceValue (env : Env) (k : Text) (val : Nat)
  | setExpire (env : Env) (k : Text) (when_ : Int64)
  | removeExpire (env : Env) (k : Text)
  | dbGenericDelete (k : Text)

/-- A call with the address that it returns, or 0. -/
def step (s : Db) : Call → Option (Db × Nat)
  | .create o => some (s.alloc o, s.next)
  | .retain id => (incrRefCount s id).map (·, id)
  | .release id => (decrRefCount s id).map (·, 0)
  | .dbAdd env k val => dbAdd hash vset env s k.bytes val
  | .setKey env k val flags => setKey hash vset env s k.bytes val flags
  | .dbReplaceValue env k val => dbReplaceValue vset env s k.bytes val
  | .setExpire env k when_ => setExpire vset env s k.bytes when_
  | .removeExpire env k => (removeExpire env s k.bytes).map (·, 0)
  | .dbGenericDelete k => (dbGenericDelete vset s k.bytes).map fun r => (r.1, 0)

end Functions

def Db.empty (filter : Option Filter) : Db :=
  ⟨fun _ => none, 0, fun _ => none, fun _ => none, fun _ => none, filter⟩

end NexCache.Tables
