import NexCache.Server.Filter
import NexCache.Server.Tables

/-!
# What a lookup counts

`db.c`, `lookupKey`: the counters of hits and misses, and the reference count of the caller's key
object.  A miss that the filter reports is not counted, nor is a hit on a value with one
reference, and a promotion keeps a reference to the key that nothing releases.  The deletion of
an expired key keeps references to it as well, until what waits for it is done.
-/

namespace NexCache.Server

open Storage Runs
open Tables (OBJ_SHARED_REFCOUNT OBJ_STATIC_REFCOUNT)

def LookupFlags.counts (flags : LookupFlags) : Bool := !(flags.nostats || flags.write)

def ServerState.counters (s : ServerState) : Nat × Nat := (s.hits, s.misses)

/-- The counters from `s` to `s'` for a lookup that returned `val`. -/
def Counted (flags : LookupFlags) (s s' : ServerState) (val : Option Robj) : Prop :=
  s'.counters =
    if ¬flags.counts then s.counters
    else if val.isSome then (s.hits + 1, s.misses) else (s.hits, s.misses + 1)

variable {hash : Sds → Nat} {s : ServerState} {d : DbId} {key : KeyObj} {flags : LookupFlags}
  {env : LookupEnv} (k : Sds) {told : DeletionEnv}

end NexCache.Server
