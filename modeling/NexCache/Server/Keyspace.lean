import NexCache.Server.Lookup

/-!
# The keyspace as a machine

Every change of the tables in `db.c` is one event.  `dbAddInternal` is two: it inserts the
key and calls whoever listens to `new`, and when they have returned it puts the key into
the filter.  What a callback does is the events in between, so a run is any nesting of
calls.

`setKey` is a lookup, then `add` or `setValue`, then `removeExpire`; a rename is two
lookups, two deletions, `add` and `setExpire`.  A deletion is also two events: NexStorage
forgets the key before the modules are told, the table afterwards.
-/

namespace NexCache.Server

open Machine Storage Runs

/-- The object of `dbSetValue`.  In place, only the contents of the old one change. -/
def overwritten (old val : Robj) (inPlace : Bool) : Robj :=
  if inPlace then { old with type := val.type, bytes := val.bytes }
  else { val with lru := old.lru, expire := old.expire }

/-- `dbSetValue`.  `inPlace`: both objects have one reference and are not embedded.
Otherwise an integer key object is read as a string. -/
def dbSetValue (s : ServerState) (d : DbId) (key : KeyObj) (val : Robj) (inPlace : Bool) :
    Option ServerState :=
  match (s.db d).keys key.decoded with
  | none => none
  | some old =>
    if key.isInt ∧ ¬ inPlace then none
    else some (s.setKey d key.decoded (some (overwritten old val inPlace)))

/-- `dbAddInternal` as far as its callbacks, for a key that is new or `update` is off. -/
def dbAddNew (s : ServerState) (d : DbId) (key : KeyObj) (val : Robj) (lruInit : Nat) :
    ServerState :=
  let s := s.addKey d key.decoded { val with expire := -1, lru := lruInit }
  { s.notify .new key.decoded d with pending := key.decoded :: s.pending }

/-- `dbAddInternal` as far as its callbacks. -/
def dbAddInternal (s : ServerState) (d : DbId) (key : KeyObj) (val : Robj) (lruInit : Nat)
    (update inPlace : Bool) : Option ServerState :=
  if update ∧ (s.db d).keys key.decoded ≠ none then dbSetValue s d key val inPlace
  else some (dbAddNew s d key val lruInit)

/-- The rest of the innermost `dbAddInternal`. -/
def dbAddReturn (hash : Sds → Nat) (s : ServerState) : Option ServerState :=
  match s.pending with
  | [] => none
  | k :: rest => some { s.record hash k with pending := rest }

/-- `dbAddRDBLoad` and whether it added the key. -/
def dbAddRDBLoad (hash : Sds → Nat) (s : ServerState) (d : DbId) (k : Sds) (val : Robj)
    (lruInit : Nat) : ServerState × Bool :=
  match (s.db d).keys k with
  | some _ => (s, false)
  | none => ((s.setKey d k (some { val with expire := -1, lru := lruInit })).record hash k, true)

/-- `setExpire` asserts that the key is there. -/
def setExpireKey (s : ServerState) (d : DbId) (key : KeyObj) (when_ : Int) : Option ServerState :=
  ((s.db d).keys key.decoded).map fun o => (setExpire s d key.decoded o when_).1

/-- `removeExpire` reads an integer key object as a string. -/
def removeExpire (s : ServerState) (d : DbId) (key : KeyObj) : Option ServerState :=
  if key.isInt then none
  else if (s.db d).expires key.decoded then
    some ((s.setKey d key.decoded
      (((s.db d).keys key.decoded).map fun o => { o with expire := -1 })).setExpires
        d key.decoded false)
  else some s

/-- `emptyDbStructure` on the databases of the server or on those loaded aside; `none` is
the number `-1`. -/
def emptyDbStructure (s : ServerState) (aside : Bool) (dbnum : Option Nat) : ServerState :=
  { s with db := fun d =>
      if d.isTemp = aside ∧ (dbnum = none ∨ dbnum = some d.num) then .empty else s.db d }

/-- `dbSwapDatabases`. -/
def dbSwapDatabases (s : ServerState) (id1 id2 : Nat) : ServerState :=
  { s with db := fun d => s.db (Equiv.swap (.main id1) (.main id2) d) }

def swapMainDbWithTempDb (s : ServerState) : ServerState :=
  { s with db := fun
      | .main n => s.db (.temp n)
      | .temp n => s.db (.main n) }

/-! ### Events -/

inductive DbEvent
  | lookup (d : DbId) (key : KeyObj) (flags : LookupFlags) (env : LookupEnv)
  /-- The rest of a lookup that has deleted an expired key and told the modules. -/
  | promote (d : DbId) (key : KeyObj) (flags : LookupFlags) (env : LookupEnv)
  | add (d : DbId) (key : KeyObj) (val : Robj) (lruInit : Nat) (update inPlace : Bool)
  | addReturn
  | rdbLoad (d : DbId) (k : Sds) (val : Robj) (lruInit : Nat)
  | setValue (d : DbId) (key : KeyObj) (val : Robj) (inPlace : Bool)
  | setExpire (d : DbId) (key : KeyObj) (when_ : Int)
  | removeExpire (d : DbId) (key : KeyObj)
  | storeDel (k : Sds) (env : Storage.Env)
  | unlink (d : DbId) (k : Sds)
  | empty (aside : Bool) (dbnum : Option Nat)
  | swap (id1 id2 : Nat)
  | swapTemp
  /-- Any command on NexStorage alone. -/
  | storeWrite (store : Option ServerStore)

/-- The reply of an event: the value that a lookup returns, if it is one. -/
abbrev DbReply := Option (Option Robj)

def dbStep (hash : Sds → Nat) (s : ServerState) : DbEvent → Option (ServerState × DbReply)
  | .lookup d key flags env => (lookupKey hash s d key flags env).map fun r => (r.1, some r.2)
  | .promote d key flags env => (lookupPromote hash s d key flags env).map fun r =>
      let r := lookupFinish r.1 d key.decoded r.2.2 env r.2.1
      (r.1, some r.2)
  | .add d key val lruInit update inPlace =>
      (dbAddInternal s d key val lruInit update inPlace).map (·, none)
  | .addReturn => (dbAddReturn hash s).map (·, none)
  | .rdbLoad d k val lruInit => some ((dbAddRDBLoad hash s d k val lruInit).1, none)
  | .setValue d key val inPlace => (dbSetValue s d key val inPlace).map (·, none)
  | .setExpire d key when_ => (setExpireKey s d key when_).map (·, none)
  | .removeExpire d key => (removeExpire s d key).map (·, none)
  | .storeDel k env =>
      some ({ s with store := s.store.map fun ns => (nexstorageDel ns env (.ofList 32 k)).1 }, none)
  | .unlink d k => some (dbUnlink s d k, none)
  | .empty aside dbnum => some (emptyDbStructure s aside dbnum, none)
  | .swap id1 id2 => some (dbSwapDatabases s id1 id2, none)
  | .swapTemp => some (swapMainDbWithTempDb s, none)
  | .storeWrite store => some ({ s with store := store }, none)

/-- The server after `Sovereign_Init`. -/
def ServerState.start (store : Option ServerStore) : ServerState :=
  ⟨fun _ => .empty, some .clear, store, 0, 0, 0, [], [], []⟩

end NexCache.Server
