import NexCache.Hashtable.Refine

/-!
# The array of hash tables

`kvstore.c`: the hash tables of one store, numbered from `0`, with counts of their keys.  A binary
indexed tree over the sizes, `hashtable_size_index`, answers which table holds the `t`-th key.
Tables that are being imported are left out of the counts and of the tree.

`none` stands for a failed assertion, an access outside an array, or a signed overflow.  Counts are
integers without a bound; those of the source have 64 bits, and a store has fewer than `2 ^ 63`
keys.
-/

namespace NexCache.Kvstores

open HashTables

variable {K E : Type*}

structure Kvstore (E : Type*) where
  /-- `KVSTORE_FREE_EMPTY_HASHTABLES` -/
  freeEmpty : Bool
  hashtables : Nat → Option (Hashtable E)
  numHashtables : Nat
  numHashtablesBits : Nat
  allocatedHashtables : Int
  nonEmptyHashtables : Int
  keyCount : Int
  hashtableSizeIndex : Nat → Int
  /-- the set of indexes that are being imported -/
  importing : Finset Nat
  importingKeyCount : Int
  /-- the globals of `hashtable.c` -/
  resizePolicy : ResizePolicy
  canAbortShrink : Bool

/-! ### Helpers -/

def kvstoreGetHashtable (kvs : Kvstore E) (didx : Nat) : Option (Hashtable E) :=
  if didx < kvs.numHashtables then kvs.hashtables didx else none

def kvstoreHashtableSize (kvs : Kvstore E) (didx : Nat) : Nat :=
  match kvstoreGetHashtable kvs didx with
  | none => 0
  | some ht => ht.size

def Kvstore.setHashtable (kvs : Kvstore E) (didx : Nat) (ht : Option (Hashtable E)) : Kvstore E :=
  { kvs with hashtables := Function.update kvs.hashtables didx ht }

def kvstoreSize (kvs : Kvstore E) : Int :=
  if kvs.numHashtables ≠ 1 then kvs.keyCount
  else
    match kvs.hashtables 0 with
    | some ht => ht.size
    | none => 0

/-- `idx & -idx` on an `int` -/
def lowbit (idx : Nat) : Nat := (BitVec.ofNat 32 idx &&& -BitVec.ofNat 32 idx).toNat

/-- A value of an `int` that is not negative. -/
def int (n : Nat) : Option Nat := if n < 2 ^ 31 then some n else none

/-- `hashtable_size_index[idx]` -/
def Kvstore.indexAt (kvs : Kvstore E) (idx : Nat) : Option Int :=
  if idx ≤ 2 ^ kvs.numHashtablesBits then some (kvs.hashtableSizeIndex idx) else none

/-- `while (idx > 0)` of `cumulativeKeyCountRead` -/
def readLoop (kvs : Kvstore E) : Nat → Nat → Int → Option Int
  | 0, _, _ => none
  | fuel + 1, idx, sum =>
    if 0 < idx then (kvs.indexAt idx).bind fun v => readLoop kvs fuel (idx - lowbit idx) (sum + v)
    else some sum

def cumulativeKeyCountRead (kvs : Kvstore E) (didx : Nat) : Option Int :=
  if kvs.numHashtables = 1 then if didx = 0 then some (kvstoreSize kvs) else none
  else readLoop kvs (didx + 2) (didx + 1) 0

def kvstoreIsImporting (kvs : Kvstore E) (didx : Nat) : Option Bool :=
  if kvs.numHashtables = 1 then some false
  else if didx < kvs.numHashtables then some (decide (didx ∈ kvs.importing))
  else none

/-- `while (idx <= max_idx)` of `cumulativeKeyCountAdd`, with its assertion -/
def addLoop (maxIdx : Nat) (delta : Int) : Nat → Nat → (Nat → Int) → Option (Nat → Int)
  | 0, _, _ => none
  | fuel + 1, idx, index =>
    if idx ≤ maxIdx then
      if delta < 0 ∧ index idx < |delta| then none
      else (int (idx + lowbit idx)).bind fun next =>
        addLoop maxIdx delta fuel next (Function.update index idx (index idx + delta))
    else some index

def cumulativeKeyCountAdd (kvs : Kvstore E) (didx : Nat) (delta : Int) : Option (Kvstore E) :=
  (kvstoreIsImporting kvs didx).bind fun imp =>
  if imp then some { kvs with importingKeyCount := kvs.importingKeyCount + delta }
  else
    (kvstoreGetHashtable kvs didx).bind fun ht =>
    let kvs := { kvs with
      keyCount := kvs.keyCount + delta
      nonEmptyHashtables :=
        if delta < 0 ∧ ht.size = 0 then kvs.nonEmptyHashtables - 1
        else if 0 < delta ∧ (ht.size : Int) = delta then kvs.nonEmptyHashtables + 1
        else kvs.nonEmptyHashtables }
    if kvs.numHashtables = 1 then some kvs
    else
      (int (1 <<< kvs.numHashtablesBits)).bind fun maxIdx =>
      (addLoop maxIdx delta (maxIdx + 1) (didx + 1) kvs.hashtableSizeIndex).map fun index =>
      { kvs with hashtableSizeIndex := index }

/-- The store, and the table at the index. -/
def createHashtableIfNeeded (kvs : Kvstore E) (didx : Nat) : Option (Kvstore E × Hashtable E) :=
  match kvstoreGetHashtable kvs didx with
  | some ht => some (kvs, ht)
  | none =>
    if didx < kvs.numHashtables then
      let ht := hashtableCreate kvs.resizePolicy kvs.canAbortShrink
      some ({ kvs.setHashtable didx (some ht) with
        allocatedHashtables := kvs.allocatedHashtables + 1 }, ht)
    else none

def freeHashtableIfNeeded (kvs : Kvstore E) (didx : Nat) : Kvstore E :=
  match kvstoreGetHashtable kvs didx with
  | none => kvs
  | some ht =>
    if kvs.freeEmpty = false ∨ ht.size ≠ 0 ∨ ht.isRehashingPaused then kvs
    else { kvs.setHashtable didx none with allocatedHashtables := kvs.allocatedHashtables - 1 }

/-! ### Creation and emptying -/

/-- `while ((1 << bits) < num_hashtables) bits++` -/
def bitsLoop (num : Nat) : Nat → Nat → Option Nat
  | 0, _ => none
  | fuel + 1, bits => (int (1 <<< bits)).bind fun p =>
    if p < num then bitsLoop num fuel (bits + 1) else some bits

/-- `for (int i = 0; i < num_hashtables; i++) createHashtableIfNeeded(kvs, i)` -/
def createAll (kvs : Kvstore E) : Nat → Option (Kvstore E)
  | 0 => some kvs
  | n + 1 => (createAll kvs n).bind fun kvs => (createHashtableIfNeeded kvs n).map (·.1)

/-- `num` tables, none of them allocated. -/
def Kvstore.empty (num bits : Nat) (freeEmpty : Bool) (policy : ResizePolicy) (canAbort : Bool) :
    Kvstore E :=
  { freeEmpty, hashtables := fun _ => none, numHashtables := num, numHashtablesBits := bits,
    allocatedHashtables := 0, nonEmptyHashtables := 0, keyCount := 0,
    hashtableSizeIndex := fun _ => 0,
    importing := ∅, importingKeyCount := 0, resizePolicy := policy, canAbortShrink := canAbort }

/-- The flags are `KVSTORE_FREE_EMPTY_HASHTABLES` and `KVSTORE_ALLOCATE_HASHTABLES_ON_DEMAND`. -/
def kvstoreCreate (num : Nat) (freeEmpty onDemand : Bool) (policy : ResizePolicy)
    (canAbort : Bool) : Option (Kvstore E) :=
  (bitsLoop num 32 0).bind fun bits =>
  let kvs := Kvstore.empty num bits freeEmpty policy canAbort
  if onDemand then some kvs else createAll kvs num

/-- `for (int didx = 0; didx < num_hashtables; didx++)` of `kvstoreEmpty` -/
def emptyAll (kvs : Kvstore E) : Nat → Kvstore E
  | 0 => kvs
  | n + 1 =>
    let kvs := emptyAll kvs n
    match kvstoreGetHashtable kvs n with
    | none => kvs
    | some ht => freeHashtableIfNeeded (kvs.setHashtable n (some (hashtableEmpty ht))) n

/-- The `memset` reaches the nodes up to `num_hashtables`, not those behind. -/
def kvstoreEmpty (kvs : Kvstore E) : Kvstore E :=
  { emptyAll kvs kvs.numHashtables with
    importing := ∅
    importingKeyCount := 0
    keyCount := 0
    nonEmptyHashtables := 0
    hashtableSizeIndex := fun i => if i ≤ kvs.numHashtables then 0 else kvs.hashtableSizeIndex i }

/-! ### Searching -/

/-- `for (int i = bit_mask; i != 0; i >>= 1)`, with `i = 2 ^ j` in step `j + 1` -/
def findLoop (kvs : Kvstore E) : Nat → Nat → Int → Option Nat
  | 0, result, _ => some result
  | j + 1, result, target =>
    (kvs.indexAt (result + 2 ^ j)).bind fun v =>
    if target > v then findLoop kvs j (result + 2 ^ j) (target - v)
      else findLoop kvs j result target

/-- The inner `none` is `KVSTORE_INDEX_NOT_FOUND`. -/
def kvstoreFindHashtableIndexByKeyIndex (kvs : Kvstore E) (target : Int) : Option (Option Nat) :=
  if kvs.numHashtables = 1 then some (some 0)
  else if kvstoreSize kvs = 0 ∨ target = 0 then some none
  else if target ≤ kvstoreSize kvs then
    (int (1 <<< kvs.numHashtablesBits)).bind fun _ =>
    (findLoop kvs (kvs.numHashtablesBits + 1) 0 target).map some
  else none

def kvstoreGetNextNonEmptyHashtableIndex (kvs : Kvstore E) (didx : Nat) : Option (Option Nat) :=
  if kvs.numHashtables = 1 then if didx = 0 then some none else none
  else
    (cumulativeKeyCountRead kvs didx).bind fun sum =>
    if sum + 1 ≤ kvstoreSize kvs then kvstoreFindHashtableIndexByKeyIndex kvs (sum + 1)
      else some none

/-! ### Operations on one table -/

section Operations

variable [DecidableEq K] (T : HashtableType K E)

def kvstoreHashtableAdd (kvs : Kvstore E) (didx : Nat) (e : E) (allowed : Bool) :
    Option (Kvstore E × Bool) :=
  (createHashtableIfNeeded kvs didx).bind fun r =>
  (hashtableAddOrFind T r.2 e allowed).bind fun a =>
  let kvs := r.1.setHashtable didx (some a.1)
  if a.2.isNone then (cumulativeKeyCountAdd kvs didx 1).map fun kvs => (kvs, true)
    else some (kvs, false)

def kvstoreHashtableFindPositionForInsert (kvs : Kvstore E) (didx : Nat) (k : K) (allowed : Bool) :
    Option (Kvstore E × (E ⊕ Place)) :=
  (createHashtableIfNeeded kvs didx).bind fun r =>
  (hashtableFindPositionForInsert T r.2 k allowed).map fun a =>
    (r.1.setHashtable didx (some a.1), a.2)

def kvstoreHashtableInsertAtPosition (kvs : Kvstore E) (didx : Nat) (e : E) (p : Place) :
    Option (Kvstore E) :=
  (kvstoreGetHashtable kvs didx).bind fun ht =>
  (hashtableInsertAtPosition ht e p).bind fun ht =>
  cumulativeKeyCountAdd (kvs.setHashtable didx (some ht)) didx 1

/-- What follows a removal that found its key. -/
def countRemoval (kvs : Kvstore E) (didx : Nat) : Option (Kvstore E) :=
  (cumulativeKeyCountAdd kvs didx (-1)).map fun kvs => freeHashtableIfNeeded kvs didx

def kvstoreHashtablePop (kvs : Kvstore E) (didx : Nat) (k : K) (allowed : Bool) :
    Option (Kvstore E × Option E) :=
  if didx < kvs.numHashtables then
    match kvstoreGetHashtable kvs didx with
    | none => some (kvs, none)
    | some ht =>
      (hashtablePop T ht k allowed).bind fun r =>
      let kvs := kvs.setHashtable didx (some r.1)
      if r.2.isSome then (countRemoval kvs didx).map fun kvs => (kvs, r.2) else some (kvs, none)
  else none

/-- `hashtableDelete` is `hashtablePop` and the release of the entry. -/
def kvstoreHashtableDelete (kvs : Kvstore E) (didx : Nat) (k : K) (allowed : Bool) :
    Option (Kvstore E × Bool) :=
  (kvstoreHashtablePop T kvs didx k allowed).map fun r => (r.1, r.2.isSome)

def kvstoreHashtableTwoPhasePopFindRef (kvs : Kvstore E) (didx : Nat) (k : K) :
    Option (Kvstore E × Option (Place × E)) :=
  match kvstoreGetHashtable kvs didx with
  | none => some (kvs, none)
  | some ht => (hashtableTwoPhasePopFindRef T ht k).map fun r =>
    (kvs.setHashtable didx (some r.1), r.2)

def kvstoreHashtableTwoPhasePopDelete (kvs : Kvstore E) (didx : Nat) (p : Place) (allowed : Bool) :
    Option (Kvstore E) :=
  (kvstoreGetHashtable kvs didx).bind fun ht =>
  (hashtableTwoPhasePopDelete T ht p allowed).bind fun ht =>
    countRemoval (kvs.setHashtable didx (some ht)) didx

end Operations

def kvstoreSetIsImporting (kvs : Kvstore E) (didx : Nat) (isImporting : Bool) :
    Option (Kvstore E) :=
  if kvs.numHashtables = 1 then some kvs
  else if didx < kvs.numHashtables then
    if isImporting then
      if kvstoreHashtableSize kvs didx = 0 then
        some { kvs with importing := insert didx kvs.importing }
      else none
    else
      let size := kvstoreHashtableSize kvs didx
      let deleted := { kvs with importing := kvs.importing.erase didx }
      if didx ∈ kvs.importing ∧ size ≠ 0 then
        (cumulativeKeyCountAdd deleted didx size).map fun kvs =>
        { kvs with importingKeyCount := kvs.importingKeyCount - size }
      else some deleted
  else none

/-! ### Runs -/

inductive Op (K E : Type*)
  | add (didx : Nat) (e : E) (allowed : Bool)
  /-- `kvstoreHashtableFindPositionForInsert`, then `kvstoreHashtableInsertAtPosition` -/
  | insertAtPosition (didx : Nat) (k : K) (e : E) (allowed : Bool)
  | pop (didx : Nat) (k : K) (allowed : Bool)
  | delete (didx : Nat) (k : K) (allowed : Bool)
  /-- `kvstoreHashtableTwoPhasePopFindRef`, then `kvstoreHashtableTwoPhasePopDelete` -/
  | twoPhaseDelete (didx : Nat) (k : K) (allowed : Bool)
  | setIsImporting (didx : Nat) (isImporting : Bool)
  | empty

section Step

variable [DecidableEq K] (T : HashtableType K E)

/-- The reply says whether a key was added or removed. -/
def step (kvs : Kvstore E) : Op K E → Option (Kvstore E × Bool)
  | .add didx e allowed => kvstoreHashtableAdd T kvs didx e allowed
  | .insertAtPosition didx k e allowed =>
    (kvstoreHashtableFindPositionForInsert T kvs didx k allowed).bind fun r =>
      match r.2 with
      | .inl _ => some (r.1, false)
      | .inr p => (kvstoreHashtableInsertAtPosition r.1 didx e p).map fun kvs => (kvs, true)
  | .pop didx k allowed => (kvstoreHashtablePop T kvs didx k allowed).map fun r => (r.1, r.2.isSome)
  | .delete didx k allowed => kvstoreHashtableDelete T kvs didx k allowed
  | .twoPhaseDelete didx k allowed =>
    (kvstoreHashtableTwoPhasePopFindRef T kvs didx k).bind fun r =>
      match r.2 with
      | none => some (r.1, false)
      | some f => (kvstoreHashtableTwoPhasePopDelete T r.1 didx f.1 allowed).map fun kvs =>
        (kvs, true)
  | .setIsImporting didx isImporting => (kvstoreSetIsImporting kvs didx isImporting).map fun kvs =>
    (kvs, true)
  | .empty => some (kvstoreEmpty kvs, true)

end Step

end NexCache.Kvstores
