import NexCache.Hashtable.Edits
import NexCache.Lib.Cursor

/-!
# Scanning (hashtable.c)

A scan call passes the entries of the chains at its cursor to a callback and returns the
cursor for the next call.  The cursor is counted in bit-reversed order, so that it keeps its
meaning when the table changes its size between two calls.

The callback may call the table.  A callback is given by the calls it makes, one list for
each time it is called; so the walk over a chain is stated on addresses of buckets, which the
calls of the callback may make stale.  Reading a stale address is `none`, as is an access
outside an array.

A type may have a `validateEntry`, which a scan asks before it passes an entry on; `valid` is what
it answers during a call.
-/

namespace NexCache.HashTables

open BitVec

variable {K E : Type*}

/-! ### The cursor -/

/-- Swaps neighbouring groups of `d` bits; `m` has the lower group of each pair set. -/
def swapBits (d : Nat) (m v : BitVec 64) : BitVec 64 := ((v >>> d) &&& m) ||| ((v &&& m) <<< d)

def bswap64 (v : BitVec 64) : BitVec 64 :=
  swapBits 32 0x00000000FFFFFFFF (swapBits 16 0x0000FFFF0000FFFF (swapBits 8 0x00FF00FF00FF00FF v))

def rev (v : BitVec 64) : BitVec 64 :=
  bswap64 (swapBits 4 0x0F0F0F0F0F0F0F0F
    (swapBits 2 0x3333333333333333 (swapBits 1 0x5555555555555555 v)))

def nextCursor (v mask : BitVec 64) : BitVec 64 := rev (rev (v ||| ~~~mask) + 1)

/-- The bit that `swapBits` puts at `i`. -/
def swapIndex (d i : Nat) : Nat := if i / d % 2 = 0 then i + d else i - d

theorem getLsbD_swapBits {d : Nat} {m v : BitVec 64} {i : Nat} (hi : i < 64) (hd : 0 < d)
    (hm : ∀ i : Fin 64, m.getLsbD i = decide (i.val / d % 2 = 0)) :
    (swapBits d m v).getLsbD i = v.getLsbD (swapIndex d i) := by
  have hmi : m.getLsbD i = decide (i / d % 2 = 0) := hm ⟨i, hi⟩
  rw [swapBits, swapIndex, getLsbD_or, getLsbD_and, getLsbD_ushiftRight,
    getLsbD_shiftLeft, getLsbD_and, hmi, decide_eq_true hi, Bool.true_and]
  -- the shifted half reads the mask `d` places below, in the other group of the pair
  have hother : d ≤ i → m.getLsbD (i - d) = decide (¬ i / d % 2 = 0) := by
    intro hle
    have hdiv : i / d = (i - d) / d + 1 := Nat.div_eq_sub_div hd hle
    rw [hm ⟨i - d, by omega⟩]
    exact decide_eq_decide.mpr (by simp only [hdiv]; omega)
  by_cases hgroup : i / d % 2 = 0
  · rw [if_pos hgroup, decide_eq_true hgroup, Bool.and_true, Nat.add_comm d i]
    by_cases hle : d ≤ i
    · simp [hother hle, hgroup]
    · simp [not_le.mp hle]
  · have hle : d ≤ i := by
      by_contra hlt
      exact hgroup (by rw [Nat.div_eq_of_lt (not_le.mp hlt)])
    rw [if_neg hgroup, decide_eq_false hgroup, hother hle, decide_eq_true hgroup]
    simp [hle]

theorem rev_eq_reverse (v : BitVec 64) : rev v = v.reverse := by
  have hindex : ∀ i : Fin 64, swapIndex 32 i < 64 ∧ swapIndex 16 (swapIndex 32 i) < 64
      ∧ swapIndex 8 (swapIndex 16 (swapIndex 32 i)) < 64
      ∧ swapIndex 4 (swapIndex 8 (swapIndex 16 (swapIndex 32 i))) < 64
      ∧ swapIndex 2 (swapIndex 4 (swapIndex 8 (swapIndex 16 (swapIndex 32 i)))) < 64
      ∧ swapIndex 1 (swapIndex 2 (swapIndex 4 (swapIndex 8 (swapIndex 16 (swapIndex 32 i)))))
        = 63 - i := by decide +kernel
  apply eq_of_getLsbD_eq
  intro i hi
  obtain ⟨h32, h16, h8, h4, h2, h1⟩ := hindex ⟨i, hi⟩
  rw [rev, bswap64, getLsbD_swapBits hi, getLsbD_swapBits h32, getLsbD_swapBits h16,
    getLsbD_swapBits h8, getLsbD_swapBits h4, getLsbD_swapBits h2, h1, getLsbD_reverse,
    getMsbD_eq_getLsbD, decide_eq_true hi, Bool.true_and]
  -- the masks
  all_goals decide +kernel

theorem nextCursor_eq (v mask : BitVec 64) : nextCursor v mask = Cursor.next v mask := by
  rw [nextCursor, rev_eq_reverse, rev_eq_reverse, Cursor.next]

/-! ### Callbacks -/

/-- A call that a scan callback makes.  It may delete the entry passed to it and insert or
replace any entry. -/
inductive Action (T : HashtableType K E)
  | find (k : K)
  | delete (allowed : Bool)
  | deleteTwoPhase (allowed : Bool)
  | add (e : E) (allowed : Bool)
  | addAtPosition (e : E) (allowed : Bool)
  | replace (e : E)
  | reallocate (old new : E) (same : T.entryGetKey old = T.entryGetKey new)

namespace Action

variable {T : HashtableType K E}

def toCall (passed : E) : Action T → Call K E
  | .find k => .find k
  | .delete allowed => .pop (T.entryGetKey passed) allowed
  | .deleteTwoPhase allowed => .twoPhasePop (T.entryGetKey passed) allowed
  | .add e allowed => .addOrFind e allowed
  | .addAtPosition e allowed => .insertAtPosition (T.entryGetKey e) e allowed
  | .replace e => .findRef (T.entryGetKey e) e
  | .reallocate old new _ => .replaceReallocatedEntry old new

/-- The entries that may stand where another one stood. -/
def replacement : Action T → Option E
  | .replace e => some e
  | .reallocate _ new _ => some new
  | _ => none

/-- A lookup modifies nothing while rehashing is paused. -/
def modifies : Action T → Bool
  | .find _ => false
  | _ => true

end Action

/-- The table during a scan call, the calls that the callback will make, the entries that are
valid, those passed to the callback, and the chains that were walked and compacted, by array and
index. -/
structure Walk (T : HashtableType K E) where
  ht : Hashtable E
  script : List (List (Action T))
  valid : E → Bool
  emitted : List E
  scanned : List (Nat × Nat)
  compacted : List (Nat × Nat)

namespace Walk

variable {T : HashtableType K E}

/-- The calls still to come. -/
def actions (w : Walk T) : List (Action T) := w.script.flatten

end Walk

/-! ### One scan call -/

/-- The chain at `idx` of the array at an address. -/
def Hashtable.chainAt (ht : Hashtable E) (addr idx : Nat) : Option (Chain E) :=
  if (ht.tables 0).addr = addr then (ht.tables 0).chain? idx
  else if (ht.tables 1).addr = addr then (ht.tables 1).chain? idx
  else none

def compactBucketChain (ht : Hashtable E) (i : Fin 2) (idx : Nat) : Option (Hashtable E) :=
  let t := ht.tables i
  (t.chain? idx).bind fun c =>
  (compactChain c).map fun r =>
    ht.setTable i { t.setChain idx r.1 with childBuckets := t.childBuckets - r.2 }

section Model

variable [DecidableEq K] [DecidableEq E] {T : HashtableType K E}

/-- `fn(privdata, emit)` -/
def emit (w : Walk T) (e : E) : Option (Walk T) :=
  (Runs.run (step T) w.ht ((w.script.headD []).map (Action.toCall e))).map fun r =>
    { w with ht := r.1, script := w.script.tail, emitted := w.emitted ++ [e] }

/-- The loop over the positions of a bucket, which reads the bucket again after each call of
the callback. -/
def emitBucket (addr idx depth : Nat) : List (Fin 7) → Walk T → Option (Walk T)
  | [], w => some w
  | pos :: ps, w =>
    (w.ht.chainAt addr idx).bind fun chain =>
    chain[depth]?.bind fun b =>
    match b.cell pos with
    | none => emitBucket addr idx depth ps w
    | some x =>
      if w.valid x.2 then (emit w x.2).bind (emitBucket addr idx depth ps)
      else emitBucket addr idx depth ps w

/-- The loop over the buckets of a chain.  The chain gets at most one bucket longer with each
call that the callback makes, which bounds the turns. -/
def emitChain (addr idx : Nat) : Nat → Nat → Walk T → Option (Walk T)
  | 0, _, _ => none
  | fuel + 1, depth, w =>
    (w.ht.chainAt addr idx).bind fun chain =>
    chain[depth]?.bind fun b =>
    (if b.popcount = 0 then some w else emitBucket addr idx depth (List.finRange 7) w).bind fun w =>
    (w.ht.chainAt addr idx).bind fun c =>
    if depth + 1 < c.length then emitChain addr idx fuel (depth + 1) w else some w

/-- The chain at one index is walked, and compacted if entries were deleted. -/
def scanIndex (w : Walk T) (i : Fin 2) (idx : Nat) : Option (Walk T) :=
  let t := w.ht.tables i
  (t.chain? idx).bind fun c =>
  (emitChain t.addr idx (c.length + w.actions.length) 0
    { w with scanned := w.scanned ++ [(t.addr, idx)] }).bind fun w =>
  if (w.ht.tables i).used < t.used then
    (compactBucketChain w.ht i idx).map fun ht =>
      { w with ht := ht, compacted := w.compacted ++ [((w.ht.tables i).addr, idx)] }
  else some w

def scanUnlessMoved (w : Walk T) (i : Fin 2) (idx : Nat) : Option (Walk T) :=
  if i = 1 ∨ w.ht.rehashIdx = -1 ∨ w.ht.rehashIdx.toNat ≤ idx then scanIndex w i idx else some w

/-- The loop over the indices of the larger table that expand one of the smaller.  There are no
more of them than chains. -/
def scanExpansion (large : Fin 2) (maskSmall maskLarge : BitVec 64) :
    Nat → BitVec 64 → Walk T → Option (BitVec 64 × Walk T)
  | 0, _, _ => none
  | fuel + 1, cursor, w =>
    (scanUnlessMoved w large (cursor &&& maskLarge).toNat).bind fun w =>
    let cursor := nextCursor cursor maskLarge
    if cursor &&& (maskSmall ^^^ maskLarge) ≠ 0 then
      scanExpansion large maskSmall maskLarge fuel cursor w
    else some (cursor, w)

def scanTables (w : Walk T) (cursor : BitVec 64) : Option (BitVec 64 × Walk T) :=
  if w.ht.isRehashing then
    let small : Fin 2 := if (w.ht.tables 0).exp ≤ (w.ht.tables 1).exp then 0 else 1
    let large : Fin 2 := 1 - small
    let maskSmall := BitVec.ofNat 64 (expToMask (w.ht.tables small).exp)
    let maskLarge := BitVec.ofNat 64 (expToMask (w.ht.tables large).exp)
    (scanUnlessMoved w small (cursor &&& maskSmall).toNat).bind
      (scanExpansion large maskSmall maskLarge (numBuckets (w.ht.tables large).exp) cursor)
  else
    let mask := BitVec.ofNat 64 (expToMask (w.ht.tables 0).exp)
    (scanIndex w 0 (cursor &&& mask).toNat).map fun w => (nextCursor cursor mask, w)

/-- `allowed` answers the type's `resizeAllowed` when the pause ends. -/
def hashtableScan (ht : Hashtable E) (cursor : BitVec 64) (script : List (List (Action T)))
    (valid : E → Bool) (allowed : Bool) : Option (BitVec 64 × Walk T) :=
  if ht.size = 0 then some (0, ⟨ht, script, valid, [], [], []⟩)
  else
    (scanTables (⟨hashtablePauseRehashing ht, script, valid, [], [], []⟩ : Walk T)
        cursor).bind fun r =>
    (hashtableResumeRehashing T r.2.ht allowed).map fun ht => (r.1, { r.2 with ht := ht })

end Model

end NexCache.HashTables
