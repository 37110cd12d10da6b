import NexCache.Hashtable.Bucket
import NexCache.Lib.Machine

/-!
# The hash table (hashtable.c)

A table has two arrays of bucket chains.  `tables 0` is the primary one; while
`rehashIdx` is not `-1` the chains of `tables 0` are moved one by one to
`tables 1`, and `rehashIdx` is the first chain not moved yet.  Every call of the
API may move a chain, start a resize, or turn a shrink around.

A failed `assert` and an access outside an array are `none`.

A type may have a `validateEntry`.  The scan has it (`Scan`); `checkCandidateInBucket` and
`hashtableNext`, which pass over an entry that it refuses, are the ones of a type without it, so a
call on the key of a refused entry is not covered.
-/

namespace NexCache.HashTables

open Machine Function

variable {K E : Type*}

/-! ### Sizes -/

def highBits (hash : BitVec 64) : BitVec 8 := (hash >>> 56).setWidth 8

/-- `bucket_exp` is `-1` for a table that is not allocated. -/
def numBuckets (exp : Int) : Nat := if exp = -1 then 0 else 2 ^ exp.toNat

def expToMask (exp : Int) : Nat := if exp = -1 then 0 else numBuckets exp - 1

def bucketIdx (hash : BitVec 64) (exp : Int) : Nat := hash.toNat &&& expToMask exp

/-- The size of a table for `minCapacity` entries, as an exponent. -/
def nextBucketExp (minCapacity : Nat) : Int :=
  if minCapacity = 0 then -1
  else
    -- minCapacity * BUCKET_FACTOR - 1, in 64 bits
    let minBuckets := u64 (minCapacity * 5 + (2 ^ 64 - 1)) / 32 + 1
    if (2 ^ 64 - 1) / 2 ≤ minBuckets then 63
    else if minBuckets = 1 then 0
    else ((minBuckets - 1).log2 + 1 : Nat)

/-! ### State -/

inductive ResizePolicy
  | allow
  | avoid
  | forbid
  deriving DecidableEq

/-- What the table's type supplies. -/
structure HashtableType (K E : Type*) where
  entryGetKey : E → K
  hashFunction : K → BitVec 64
  instantRehashing : Bool

def HashtableType.hashEntry (T : HashtableType K E) (e : E) : BitVec 64 :=
  T.hashFunction (T.entryGetKey e)

structure Table (E : Type*) where
  /-- which allocation holds the chains -/
  addr : Nat
  exp : Int
  chains : Nat → Chain E
  used : Nat
  childBuckets : Nat

def Table.reset : Table E := ⟨0, -1, fun _ => [], 0, 0⟩

/-- `tables[..][idx]` -/
def Table.chain? (t : Table E) (idx : Nat) : Option (Chain E) :=
  if idx < numBuckets t.exp then some (t.chains idx) else none

def Table.setChain (t : Table E) (idx : Nat) (c : Chain E) : Table E :=
  { t with chains := update t.chains idx c }

structure Hashtable (E : Type*) where
  rehashIdx : Int
  tables : Fin 2 → Table E
  pauseRehash : Int
  pauseAutoShrink : Int
  safeIterators : Nat
  /-- the globals `resize_policy` and `hashtable_can_abort_shrink` -/
  resizePolicy : ResizePolicy
  canAbortShrink : Bool
  nextAddr : Nat

/-- A bucket and a position in it. -/
structure Place where
  table : Fin 2
  idx : Nat
  depth : Nat
  pos : Fin 7

/-- A value stored into an `int16_t`. -/
def i16 (n : Int) : Int := n.bmod (2 ^ 16)

def hashtableCreate (policy : ResizePolicy) (canAbort : Bool) : Hashtable E :=
  { rehashIdx := -1, tables := fun _ => Table.reset, pauseRehash := 0, pauseAutoShrink := 0,
    safeIterators := 0, resizePolicy := policy, canAbortShrink := canAbort, nextAddr := 1 }

namespace Hashtable

def setTable (ht : Hashtable E) (i : Fin 2) (t : Table E) : Hashtable E :=
  { ht with tables := update ht.tables i t }

def size (ht : Hashtable E) : Nat := (ht.tables 0).used + (ht.tables 1).used

def isRehashing (ht : Hashtable E) : Bool := ht.rehashIdx != -1

def isRehashingPaused (ht : Hashtable E) : Bool := decide (0 < ht.pauseRehash)

/-- The entry at a place becomes `x`, and the table has one entry more. -/
def store (ht : Hashtable E) (p : Place) (x : BitVec 8 × E) : Hashtable E :=
  let t := ht.tables p.table
  ht.setTable p.table
    { t.setChain p.idx (putAt (t.chains p.idx) p.depth p.pos x) with used := t.used + 1 }

end Hashtable

/-! ### Rehashing -/

def swapTables (ht : Hashtable E) : Option (Hashtable E) :=
  if ht.isRehashing then some { ht with tables := fun i => ht.tables (1 - i) } else none

def rehashingCompleted (ht : Hashtable E) : Option (Hashtable E) :=
  (swapTables ht).map fun ht => { ht.setTable 1 Table.reset with rehashIdx := -1 }

def findBucketForInsert (ht : Hashtable E) (hash : BitVec 64) : Option (Hashtable E × Place) :=
  let i : Fin 2 := if ht.isRehashing then 1 else 0
  let t := ht.tables i
  let idx := bucketIdx hash t.exp
  (t.chain? idx).bind fun c =>
  (findPlaceForInsert c).map fun r =>
    (ht.setTable i { t.setChain idx r.chain with childBuckets := t.childBuckets + r.added },
      ⟨i, idx, r.depth, r.pos⟩)

def rehashEntry (ht : Hashtable E) (e : E) (hash : BitVec 64) (h2 : BitVec 8) :
    Option (Hashtable E) :=
  (findBucketForInsert ht hash).map fun r =>
    let ht := r.1.store r.2 (h2, e)
    ht.setTable 0 { ht.tables 0 with used := (ht.tables 0).used - 1 }

/-- `presence = 0` -/
def Bucket.reset (b : Bucket E) : Bucket E := { b with entries := fun _ => none }

def rehashStepFinalize (ht : Hashtable E) : Option (Hashtable E) :=
  let t := ht.tables 0
  let idx := ht.rehashIdx.toNat
  (t.chain? idx).bind fun c =>
    let t' := { t.setChain idx ((c.take 1).map Bucket.reset) with
      childBuckets := t.childBuckets - (c.drop 1).length }
    let ht' := { ht.setTable 0 t' with rehashIdx := ht.rehashIdx + 1 }
    if t'.used = 0 ∧ t'.childBuckets = 0 then rehashingCompleted ht'
    else if ht'.rehashIdx.toNat < numBuckets t'.exp then some ht'
    else none

/-- The filled positions below the link. -/
def bucketEntries (b : Bucket E) (chained : Bool) : List (BitVec 8 × E) :=
  ((List.finRange 7).filter fun pos => decide (pos.val < numBucketPositions chained)).filterMap
    b.cell

def chainEntries : Chain E → List (BitVec 8 × E)
  | [] => []
  | [b] => bucketEntries b false
  | b :: b' :: l => bucketEntries b true ++ chainEntries (b' :: l)

def rehashStepExpand (T : HashtableType K E) (ht : Hashtable E) : Option (Hashtable E) :=
  ((ht.tables 0).chain? ht.rehashIdx.toNat).bind fun c =>
  ((chainEntries c).foldlM (fun ht x =>
    rehashEntry ht x.2 (T.hashEntry x.2) (highBits (T.hashEntry x.2))) ht).bind
  rehashStepFinalize

/-- Empty chains are passed, at most `visits` of them.  The flag tells that a chain
that is not empty was reached. -/
def skipEmptyBuckets : Nat → Hashtable E → Option (Hashtable E × Bool)
  | 0, ht => some (ht, false)
  | visits + 1, ht =>
    ((ht.tables 0).chain? ht.rehashIdx.toNat).bind fun c =>
    if c.length ≠ 1 ∨ (c.getLastD Bucket.empty).popcount ≠ 0 then some (ht, true)
    else (rehashStepFinalize ht).bind fun ht =>
      if ht.isRehashing then skipEmptyBuckets visits ht else some (ht, false)

/-- A shrink knows the low bits of the hash from the index of the chain. -/
def rehashStepShrink (ht : Hashtable E) : Option (Hashtable E) :=
  (skipEmptyBuckets 10 ht).bind fun r =>
  if r.2 then
    let idx := r.1.rehashIdx.toNat
    ((r.1.tables 0).chain? idx).bind fun c =>
    ((chainEntries c).foldlM (fun ht x => rehashEntry ht x.2 (BitVec.ofNat 64 idx) x.1) r.1).bind
    rehashStepFinalize
  else some r.1

def rehashStep (T : HashtableType K E) (ht : Hashtable E) : Option (Hashtable E) :=
  if ht.isRehashing then
    if (ht.tables 1).exp < (ht.tables 0).exp then rehashStepShrink ht else rehashStepExpand T ht
  else none

/-- One step unless rehashing is paused or another policy is set. -/
def rehashStepUnder (policy : ResizePolicy) (T : HashtableType K E) (ht : Hashtable E) :
    Option (Hashtable E) :=
  if !ht.isRehashing || ht.pauseRehash != 0 then some ht
  else if ht.resizePolicy ≠ policy then some ht
  else rehashStep T ht

def rehashStepOnReadIfNeeded (T : HashtableType K E) (ht : Hashtable E) : Option (Hashtable E) :=
  rehashStepUnder .allow T ht

def rehashStepOnWriteIfNeeded (T : HashtableType K E) (ht : Hashtable E) : Option (Hashtable E) :=
  rehashStepUnder .avoid T ht

/-- `while (hashtableIsRehashing(ht)) rehashStep(ht)`; a step passes a chain at
least, so the number of chains bounds the turns. -/
def rehashAll (T : HashtableType K E) : Nat → Hashtable E → Option (Hashtable E)
  | 0, ht => if ht.isRehashing then none else some ht
  | fuel + 1, ht => if ht.isRehashing then (rehashStep T ht).bind (rehashAll T fuel) else some ht

/-! ### Resizing -/

/-- `allowed` is the answer of the type's `resizeAllowed`, `mallocOk` that of the
allocator where a failure is reported to the caller. -/
def resize (T : HashtableType K E) (ht : Hashtable E) (minCapacity : Nat)
    (allowed mallocOk : Bool) : Option (Hashtable E × Bool) :=
  if ht.isRehashing then none
  else
    let minCapacity := if minCapacity = 0 then 1 else minCapacity
    let exp := nextBucketExp minCapacity
    let n := numBuckets exp
    let old := ht.tables 0
    if u64 (n * 7) < minCapacity ∨ u64 (n * 64) < n then some (ht, false)
    else if exp = old.exp then some (ht, false)
    else if ht.resizePolicy = .forbid ∧ old.exp ≠ -1 then some (ht, false)
    -- a fill factor of MAX_FILL_PERCENT_HARD overrules the callback
    else if old.exp < exp ∧ minCapacity * 100 < 500 * (numBuckets old.exp * 7) ∧
      allowed = false then some (ht, false)
    else if mallocOk = false then some (ht, false)
    else
      let fresh : Table E := { ht.tables 1 with
        addr := ht.nextAddr, exp := exp, chains := fun _ => [Bucket.empty], used := 0 }
      let ht' := { ht.setTable 1 fresh with rehashIdx := 0, nextAddr := ht.nextAddr + 1 }
      if old.exp = -1 ∨ old.used = 0 ∧ old.childBuckets = 0 then
        (rehashingCompleted ht').map fun ht => (ht, true)
      else if T.instantRehashing then
        (rehashAll T (numBuckets old.exp) ht').map fun ht => (ht, true)
      else some (ht', true)

def expand (T : HashtableType K E) (ht : Hashtable E) (size : Nat) (allowed mallocOk : Bool) :
    Option (Hashtable E × Bool) :=
  if ht.isRehashing ∨ size < ht.size then some (ht, false) else resize T ht size allowed mallocOk

def abortShrinkIfNeeded (ht : Hashtable E) : Option (Hashtable E × Bool) :=
  if !ht.canAbortShrink then some (ht, false)
  else if !ht.isRehashing || decide ((ht.tables 0).exp ≤ (ht.tables 1).exp) then some (ht, false)
  else if ht.safeIterators ≠ 0 then some (ht, false)
  else if u64 (u64 (ht.size + 1) * 100) ≤ u64 (u64 (numBuckets (ht.tables 1).exp * 7) * 500) then
    some (ht, false)
  else (swapTables ht).map fun ht => ({ ht with rehashIdx := 0 }, true)

def maxFillPercent (ht : Hashtable E) : Nat := if ht.resizePolicy = .allow then 100 else 500

def minFillPercent (ht : Hashtable E) : Nat := if ht.resizePolicy = .allow then 13 else 3

def hashtableExpandIfNeeded (T : HashtableType K E) (ht : Hashtable E) (allowed : Bool) :
    Option (Hashtable E × Bool) :=
  if ht.isRehashing then
    if (ht.tables 0).exp ≤ (ht.tables 1).exp then some (ht, false) else abortShrinkIfNeeded ht
  else
    let t := ht.tables 0
    if u64 (u64 (t.used + 1) * 100) ≤ u64 (u64 (numBuckets t.exp * 7) * maxFillPercent ht) then
      some (ht, false)
    else resize T ht (u64 (t.used + 1)) allowed true

def hashtableShrinkIfNeeded (T : HashtableType K E) (ht : Hashtable E) (allowed : Bool) :
    Option (Hashtable E × Bool) :=
  if ht.isRehashing || ht.pauseAutoShrink != 0 then some (ht, false)
  else
    let t := ht.tables 0
    if u64 (u64 (numBuckets t.exp * 7) * minFillPercent ht) < u64 (t.used * 100) then
      some (ht, false)
    else resize T ht t.used allowed true

def hashtablePauseAutoShrink (ht : Hashtable E) : Hashtable E :=
  { ht with pauseAutoShrink := i16 (ht.pauseAutoShrink + 1) }

def hashtableResumeAutoShrink (T : HashtableType K E) (ht : Hashtable E) (allowed : Bool) :
    Option (Hashtable E) :=
  let ht := { ht with pauseAutoShrink := i16 (ht.pauseAutoShrink - 1) }
  if ht.pauseAutoShrink = 0 then (hashtableShrinkIfNeeded T ht allowed).map (·.1) else some ht

def hashtablePauseRehashing (ht : Hashtable E) : Hashtable E :=
  hashtablePauseAutoShrink { ht with pauseRehash := i16 (ht.pauseRehash + 1) }

def hashtableResumeRehashing (T : HashtableType K E) (ht : Hashtable E) (allowed : Bool) :
    Option (Hashtable E) :=
  let ht := { ht with pauseRehash := i16 (ht.pauseRehash - 1) }
  if 0 ≤ ht.pauseRehash then hashtableResumeAutoShrink T ht allowed else none

/-- `steps` is how many turns the clock leaves. -/
def hashtableRehashMicroseconds (T : HashtableType K E) (ht : Hashtable E) (steps : Nat) :
    Option (Hashtable E) :=
  if 0 < ht.pauseRehash then some ht
  else if ht.resizePolicy ≠ .allow then some ht
  else turns steps ht
where
  turns : Nat → Hashtable E → Option (Hashtable E)
    | 0, ht => some ht
    | n + 1, ht => if ht.isRehashing then (rehashStep T ht).bind (turns n) else some ht

def hashtableExpand (T : HashtableType K E) (ht : Hashtable E) (size : Nat) (allowed : Bool) :
    Option (Hashtable E × Bool) := expand T ht size allowed true

/-- `false` only when the allocator failed. -/
def hashtableTryExpand (T : HashtableType K E) (ht : Hashtable E) (size : Nat)
    (allowed mallocOk : Bool) : Option (Hashtable E × Bool) :=
  (expand T ht size allowed mallocOk).map fun r => (r.1, r.2 || mallocOk)

def hashtableRightsizeIfNeeded (T : HashtableType K E) (ht : Hashtable E) (allowed : Bool) :
    Option (Hashtable E × Bool) :=
  (hashtableShrinkIfNeeded T ht allowed).bind fun r =>
  if r.2 then some r else hashtableExpandIfNeeded T r.1 allowed

/-! ### Lookups and changes -/

/-- The chain of `hash` in one table, searched for an entry that `p` accepts. -/
def searchTable (ht : Hashtable E) (i : Fin 2) (hash : BitVec 64) (p : BitVec 8 → E → Bool) :
    Option (Option (Place × E)) :=
  let t := ht.tables i
  let idx := bucketIdx hash t.exp
  if t.used = 0 then some none
  -- already rehashed
  else if i = 0 ∧ 0 ≤ ht.rehashIdx ∧ idx < ht.rehashIdx.toNat then some none
  else (t.chain? idx).map fun c =>
    (findInChain p c).map fun r => (⟨i, idx, r.1, r.2.1⟩, r.2.2)

def searchTables (ht : Hashtable E) (hash : BitVec 64) (p : BitVec 8 → E → Bool) :
    Option (Option (Place × E)) :=
  (searchTable ht 0 hash p).bind fun r =>
  match r with
  | some f => some (some f)
  | none => searchTable ht 1 hash p

section Api

variable [DecidableEq K] (T : HashtableType K E)

def findBucket (ht : Hashtable E) (hash : BitVec 64) (k : K) :
    Option (Hashtable E × Option (Place × E)) :=
  if ht.size = 0 then some (ht, none)
  else
    (rehashStepOnReadIfNeeded T ht).bind fun ht =>
    (searchTables ht hash fun h2 e => h2 == highBits hash && decide (T.entryGetKey e = k)).map
      fun r => (ht, r)

def hashtableFind (ht : Hashtable E) (k : K) : Option (Hashtable E × Option E) :=
  if ht.size = 0 then some (ht, none)
  else (findBucket T ht (T.hashFunction k) k).map fun r => (r.1, r.2.map (·.2))

/-- The entry that a reference returned by `hashtableFindRef` is overwritten with keeps
the stored hash bits. -/
def Hashtable.overwrite (ht : Hashtable E) (p : Place) (e : E) : Hashtable E :=
  let t := ht.tables p.table
  ht.setTable p.table (t.setChain p.idx ((t.chains p.idx).modify p.depth fun b =>
    { b with entries := update b.entries p.pos (some e) }))

def hashtableFindRef (ht : Hashtable E) (k : K) : Option (Hashtable E × Option (Place × E)) :=
  if ht.size = 0 then some (ht, none) else findBucket T ht (T.hashFunction k) k

def insert (ht : Hashtable E) (hash : BitVec 64) (e : E) (allowed : Bool) : Option (Hashtable E) :=
  (hashtableExpandIfNeeded T ht allowed).bind fun r =>
  (rehashStepOnWriteIfNeeded T r.1).bind fun ht =>
  (findBucketForInsert ht hash).map fun r => r.1.store r.2 (highBits hash, e)

def hashtableAddOrFind (ht : Hashtable E) (e : E) (allowed : Bool) :
    Option (Hashtable E × Option E) :=
  let hash := T.hashEntry e
  (findBucket T ht hash (T.entryGetKey e)).bind fun r =>
  match r.2 with
  | some f => some (r.1, some f.2)
  | none => (insert T r.1 hash e allowed).map fun ht => (ht, none)

/-- `b->hashes[pos_in_bucket] = h2` -/
def Hashtable.writeHash (ht : Hashtable E) (p : Place) (h2 : BitVec 8) : Hashtable E :=
  let t := ht.tables p.table
  ht.setTable p.table (t.setChain p.idx ((t.chains p.idx).modify p.depth fun b =>
    { b with hashes := update b.hashes p.pos h2 }))

/-- `Sum.inl` is the existing entry, `Sum.inr` the place for the new one, where the hash
bits are stored already. -/
def hashtableFindPositionForInsert (ht : Hashtable E) (k : K) (allowed : Bool) :
    Option (Hashtable E × (E ⊕ Place)) :=
  let hash := T.hashFunction k
  (findBucket T ht hash k).bind fun r =>
  match r.2 with
  | some f => some (r.1, .inl f.2)
  | none =>
    (hashtableExpandIfNeeded T r.1 allowed).bind fun r =>
    (rehashStepOnWriteIfNeeded T r.1).bind fun ht =>
    (findBucketForInsert ht hash).map fun r => (r.1.writeHash r.2 (highBits hash), .inr r.2)

def hashtableInsertAtPosition (ht : Hashtable E) (e : E) (p : Place) : Option (Hashtable E) :=
  let t := ht.tables p.table
  (t.chain? p.idx).bind fun chain =>
  chain[p.depth]?.bind fun b =>
  if b.isPositionFilled p.pos then none
  else some (ht.setTable p.table { t.setChain p.idx (chain.modify p.depth fun b =>
    { b with entries := update b.entries p.pos (some e) }) with used := t.used + 1 })

/-- `presence &= ~(1 << pos_in_bucket)` and `used--` -/
def Hashtable.clearPlace (ht : Hashtable E) (p : Place) : Hashtable E :=
  let t := ht.tables p.table
  ht.setTable p.table
    { t.setChain p.idx (clearAt (t.chains p.idx) p.depth p.pos) with used := t.used - 1 }

/-- A chained bucket is compacted at once unless rehashing is paused. -/
def fillHoleUnlessPaused (ht : Hashtable E) (p : Place) : Option (Hashtable E) :=
  let t := ht.tables p.table
  (t.chain? p.idx).bind fun c =>
  if p.depth + 1 < c.length ∧ ht.isRehashingPaused = false then
    (fillHoleAt c p.depth p.pos).map fun r =>
      ht.setTable p.table { t.setChain p.idx r.1 with childBuckets := t.childBuckets - r.2 }
  else some ht

def hashtablePop (ht : Hashtable E) (k : K) (allowed : Bool) : Option (Hashtable E × Option E) :=
  if ht.size = 0 then some (ht, none)
  else
    (findBucket T ht (T.hashFunction k) k).bind fun r =>
    match r.2 with
    | none => some (r.1, none)
    | some f =>
      (fillHoleUnlessPaused (r.1.clearPlace f.1) f.1).bind fun ht =>
      (hashtableShrinkIfNeeded T ht allowed).map fun r => (r.1, some f.2)

def hashtableReplaceReallocatedEntry [DecidableEq E] (ht : Hashtable E) (old new : E) :
    Option (Hashtable E × Bool) :=
  let hash := T.hashEntry new
  (searchTables ht hash fun h2 e => h2 == highBits hash && decide (e = old)).map fun r =>
    match r with
    | some f => (ht.overwrite f.1 new, true)
    | none => (ht, false)

def hashtableTwoPhasePopFindRef (ht : Hashtable E) (k : K) :
    Option (Hashtable E × Option (Place × E)) :=
  if ht.size = 0 then some (ht, none)
  else
    (findBucket T ht (T.hashFunction k) k).map fun r =>
    match r.2 with
    | some f => (hashtablePauseRehashing r.1, some f)
    | none => (r.1, none)

def hashtableTwoPhasePopDelete (ht : Hashtable E) (p : Place) (allowed : Bool) :
    Option (Hashtable E) :=
  let t := ht.tables p.table
  (t.chain? p.idx).bind fun c =>
  if (cellAt c p.depth p.pos).isNone then none
  else
    (hashtableResumeRehashing T (hashtablePauseAutoShrink (ht.clearPlace p)) allowed).bind fun ht =>
    (fillHoleUnlessPaused ht p).bind fun ht => hashtableResumeAutoShrink T ht allowed

end Api

/-- Deletes all entries and frees the arrays. -/
def hashtableEmpty (ht : Hashtable E) : Hashtable E :=
  { ht with
    rehashIdx := -1
    tables := fun i => if (ht.tables i).exp < 0 then ht.tables i else Table.reset }

/-! ### Calls -/

/-- A call of the API.  `allowed` answers the type's `resizeAllowed`, `mallocOk` the
allocator. -/
inductive Call (K E : Type*)
  | find (k : K)
  /-- `hashtableFindRef`, and the entry found is replaced through the reference -/
  | findRef (k : K) (e : E)
  | addOrFind (e : E) (allowed : Bool)
  /-- `hashtableFindPositionForInsert`, then `hashtableInsertAtPosition` -/
  | insertAtPosition (k : K) (e : E) (allowed : Bool)
  | pop (k : K) (allowed : Bool)
  /-- `hashtableTwoPhasePopFindRef`, then `hashtableTwoPhasePopDelete` -/
  | twoPhasePop (k : K) (allowed : Bool)
  | replaceReallocatedEntry (old new : E)
  | expand (size : Nat) (allowed : Bool)
  | tryExpand (size : Nat) (allowed mallocOk : Bool)
  | expandIfNeeded (allowed : Bool)
  | shrinkIfNeeded (allowed : Bool)
  | rightsizeIfNeeded (allowed : Bool)
  | rehashMicroseconds (steps : Nat)
  | setResizePolicy (policy : ResizePolicy)
  | setCanAbortShrink (canAbort : Bool)
  | pauseRehashing
  | resumeRehashing (allowed : Bool)
  | setSafeIterators (n : Nat)

inductive Reply (E : Type*)
  | entry (found : Option E)
  | flag (done : Bool)
  | none

section Step

variable [DecidableEq K] [DecidableEq E] (T : HashtableType K E)

def step (ht : Hashtable E) : Call K E → Option (Hashtable E × Reply E)
  | .find k => (hashtableFind T ht k).map fun r => (r.1, .entry r.2)
  | .findRef k e => (hashtableFindRef T ht k).map fun r =>
      match r.2 with
      | some f => (r.1.overwrite f.1 e, .entry (some f.2))
      | none => (r.1, .entry none)
  | .addOrFind e allowed => (hashtableAddOrFind T ht e allowed).map fun r => (r.1, .entry r.2)
  | .insertAtPosition k e allowed => (hashtableFindPositionForInsert T ht k allowed).bind fun r =>
      match r.2 with
      | .inl existing => some (r.1, .entry (some existing))
      | .inr p => (hashtableInsertAtPosition r.1 e p).map fun ht => (ht, .entry none)
  | .pop k allowed => (hashtablePop T ht k allowed).map fun r => (r.1, .entry r.2)
  | .twoPhasePop k allowed => (hashtableTwoPhasePopFindRef T ht k).bind fun r =>
      match r.2 with
      | some f => (hashtableTwoPhasePopDelete T r.1 f.1 allowed).map fun ht =>
        (ht, .entry (some f.2))
      | none => some (r.1, .entry none)
  | .replaceReallocatedEntry old new =>
      (hashtableReplaceReallocatedEntry T ht old new).map fun r => (r.1, .flag r.2)
  | .expand size allowed => (hashtableExpand T ht size allowed).map fun r => (r.1, .flag r.2)
  | .tryExpand size allowed mallocOk =>
      (hashtableTryExpand T ht size allowed mallocOk).map fun r => (r.1, .flag r.2)
  | .expandIfNeeded allowed => (hashtableExpandIfNeeded T ht allowed).map fun r => (r.1, .flag r.2)
  | .shrinkIfNeeded allowed => (hashtableShrinkIfNeeded T ht allowed).map fun r => (r.1, .flag r.2)
  | .rightsizeIfNeeded allowed =>
      (hashtableRightsizeIfNeeded T ht allowed).map fun r => (r.1, .flag r.2)
  | .rehashMicroseconds steps =>
      (hashtableRehashMicroseconds T ht steps).map fun ht => (ht, .none)
  | .setResizePolicy policy => some ({ ht with resizePolicy := policy }, .none)
  | .setCanAbortShrink canAbort => some ({ ht with canAbortShrink := canAbort }, .none)
  | .pauseRehashing => some (hashtablePauseRehashing ht, .none)
  | .resumeRehashing allowed => (hashtableResumeRehashing T ht allowed).map fun ht => (ht, .none)
  | .setSafeIterators n => some ({ ht with safeIterators := n }, .none)

end Step

end NexCache.HashTables
