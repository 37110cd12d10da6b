import NexCache.Bloom.NexBloom
import NexCache.NexDash.Slot

/-!
# The table and its operations

`hashtable/nexdash.c`, function by function.  A table is a directory of
segments; a segment has 56 buckets of four slots.  A key lives in the segment
`hash mod dirSize`, anywhere in it: buckets are probed linearly from
`(hash >> 10) mod 56` and all 56 are probed.

Every call runs under the table's mutex, so one call is one step.  The clock
reading of a call is its argument `now`; no call uses two readings.  Allocation
succeeds, except that the arena may refuse a directory doubling (`arenaOk`).

One loop of the source need not end: the key pool doubles its capacity in a
32-bit variable until the new key fits (`Machine.doubleTo`).  A call that would spin there
has no result, hence the `Option` around `nexdashSet`.

Not modelled, since no function below reads it: the segment version and
timestamp, the snapshot and 2Q queue fields, the ML weights, and the callback
of `nexdash_scan_expired`.
-/

namespace NexCache.NexDash

open Machine Bloom Function

/-- A key of at most 255 bytes: `key_len` is a `uint8_t`. -/
abbrev Key := SizedBytes 8

structure NexDashSegment where
  buckets : Nat → NexDashBucket
  itemCount : Nat

/-- The counters of `NexDashStats` that the operations write. -/
structure NexDashStats where
  gets : Nat := 0
  sets : Nat := 0
  dels : Nat := 0
  hits : Nat := 0
  misses : Nat := 0
  evictionsProbatory : Nat := 0
  evictionsProtected : Nat := 0
  resizes : Nat := 0

structure NexDashTable where
  directory : Nat → NexDashSegment
  dirSize : Nat
  itemCount : Nat
  /-- The bytes `[0, key_pool_size)` of the pool. -/
  keyPool : List UInt8
  keyPoolCap : Nat
  usedMemory : Nat
  bloom : NexBloom
  /-- Whether a `free_cb` is registered. -/
  freeCb : Bool
  /-- The values handed to `free_cb`, oldest first. -/
  freed : List Addr
  stats : NexDashStats
  /-- Ghost: a saturating subtraction on `usedMemory` has clipped. -/
  clipped : Bool

/-- Segment, then bucket and slot. -/
abbrev Pos := Nat × Nat × Nat

def fnv1a64 (key : Key) : Nat := fnv1a key.bytes

def encodeExpire (expireUs : Nat) : Nat :=
  if expireUs = 0 then 0 else u32 (expireUs >>> 20)

def decodeExpire (enc : Nat) : Nat :=
  if enc = 0 then 0 else enc <<< 20

/-- A deadline that a slot can hold: below `2^20` it is encoded as none, from `2^52` on it wraps. -/
def Encodes (d : Nat) : Prop := 2 ^ 20 ≤ d ∧ d < 2 ^ 52

section Encodes

variable {d : Nat} (h : Encodes d)
include h

theorem encodeExpire_of : encodeExpire d = d / 2 ^ 20 := by
  have hne : d ≠ 0 := by have := h.1; omega
  rw [encodeExpire, if_neg hne, Nat.shiftRight_eq_div_pow]
  exact u32_of_lt (by have := h.2; omega)

theorem encodeExpire_ne_zero : encodeExpire d ≠ 0 := by
  rw [encodeExpire_of h]
  have := h.1
  omega

/-- The slot rounds down, by less than `2^20`. -/
theorem decode_encode :
    decodeExpire (encodeExpire d) ≤ d ∧ d < decodeExpire (encodeExpire d) + 2 ^ 20 := by
  rw [decodeExpire, if_neg (encodeExpire_ne_zero h), encodeExpire_of h, Nat.shiftLeft_eq]
  omega

end Encodes

namespace NexDashSegment

/-- A zeroed segment. -/
def zero : NexDashSegment := ⟨fun _ => ⟨fun _ => .zero, 0#8⟩, 0⟩

def cell (seg : NexDashSegment) (i : Nat × Nat) : Option NexDashSlot :=
  (seg.buckets i.1).cell i.2

def setBucket (seg : NexDashSegment) (bi : Nat) (b : NexDashBucket) : NexDashSegment :=
  { seg with buckets := update seg.buckets bi b }

/-- Writes a slot without touching the mask. -/
def setSlot (seg : NexDashSegment) (i : Nat × Nat) (sl : NexDashSlot) : NexDashSegment :=
  seg.setBucket i.1 ((seg.buckets i.1).setSlot i.2 sl)

end NexDashSegment

namespace NexDashTable

def cell (t : NexDashTable) (p : Pos) : Option NexDashSlot := (t.directory p.1).cell p.2

def slotAt (t : NexDashTable) (p : Pos) : NexDashSlot :=
  ((t.directory p.1).buckets p.2.1).slots p.2.2

def setSegment (t : NexDashTable) (si : Nat) (seg : NexDashSegment) : NexDashTable :=
  { t with directory := update t.directory si seg }

/-- Writes through a slot pointer. -/
def setSlot (t : NexDashTable) (p : Pos) (sl : NexDashSlot) : NexDashTable :=
  t.setSegment p.1 ((t.directory p.1).setSlot p.2 sl)

end NexDashTable

/-! ### Creation -/

/-- `nexdash_create`: `while (nsegs < initial_segments) nsegs <<= 1` from `4`.
`bloomSized` is the block count that the floating-point
formula of `nexbloom_create` gives; `freeCb` says whether the caller registers a
callback before it uses the table. -/
def nexdashCreate (initialSegments : Nat) (bloomSized : NumBlocks) (freeCb : Bool) :
    Option NexDashTable :=
  (doubleTo initialSegments 33 4).map fun nsegs =>
    { directory := fun _ => .zero
      dirSize := nsegs
      itemCount := 0
      keyPool := []
      keyPoolCap := 65536
      usedMemory := 0
      bloom := nexbloomCreate bloomSized
      freeCb := freeCb
      freed := []
      stats := {}
      clipped := false }

/-! ### Releasing a slot -/

/-- `used > amount ? used - amount : 0`. -/
def satSub (used amount : Nat) : Nat := if used > amount then used - amount else 0

/-- Subtracts from `used_memory` and records whether the subtraction clipped. -/
def chargeBack (t : NexDashTable) (amount : Nat) : NexDashTable :=
  { t with usedMemory := satSub t.usedMemory amount
           clipped := t.clipped || decide (t.usedMemory < amount) }

/-- `if (old && old_type != NTYPE_DELETED && t->free_cb) t->free_cb(old)`. -/
def callFreeCb (t : NexDashTable) (vp : TaggedPtr) : NexDashTable :=
  if tagGetAddr vp ≠ 0#48 ∧ tagGetType vp ≠ ntypeDeleted.setWidth 4 ∧ t.freeCb = true then
    { t with freed := t.freed ++ [tagGetAddr vp] }
  else t

/-- `nd_release_slot`: frees the value and zeroes the entry. -/
def ndReleaseSlot (t : NexDashTable) (sl : NexDashSlot) : NexDashTable × NexDashSlot :=
  (chargeBack (callFreeCb t sl.valuePtr) sl.cost,
    { sl with
      valuePtr := tagSetMeta 0#48 0#8 ntypeDeleted Eviction2QTier.tierProbatory.code 0#2
      valueSize := 0#32 })

/-- The four lines by which every caller removes an entry: release the slot,
clear its bit, decrement both counters. -/
def ndRemoveSlot (t : NexDashTable) (p : Pos) : NexDashTable :=
  let seg := t.directory p.1
  let bkt := seg.buckets p.2.1
  let released := ndReleaseSlot t (bkt.slots p.2.2)
  let seg' := seg.setBucket p.2.1 ((bkt.setSlot p.2.2 released.2).unmark p.2.2)
  { released.1.setSegment p.1 { seg' with itemCount := decr32 seg.itemCount } with
    itemCount := decr32 released.1.itemCount }

/-! ### Insertion -/

/-- The slots of a segment in probing order. -/
def probeOrder (bktStart : Nat) : List (Nat × Nat) :=
  (List.range NEXDASH_BUCKET_COUNT).flatMap fun probe =>
    (List.range NEXDASH_SLOT_COUNT).map fun s =>
      ((bktStart + probe) % NEXDASH_BUCKET_COUNT, s)

/-- `(uint32_t)((hash >> 10) % NEXDASH_BUCKET_COUNT)`. -/
def bktStartOf (hash : Nat) : Nat := (hash >>> 10) % NEXDASH_BUCKET_COUNT

inductive NdInsert
  /-- The pool growth loop spins. -/
  | diverges
  /-- `NULL`: no free slot in the segment. -/
  | full
  | placed (t : NexDashTable) (seg : NexDashSegment) (slot : Nat × Nat)

/-- The slot that `nd_insert_into_segment` sets up: zeroed, then hash, pool offset
and the base tag. -/
def ndFreshSlot (poolSize hash : Nat) (key : Option Key) : NexDashSlot :=
  { NexDashSlot.zero with
    keyHash := hash
    keyOffset := if key.isSome then poolSize else 0
    valuePtr := tagSetMeta 0#48 (BitVec.ofNat 8 (key.elim 0 SizedBytes.len)) ntypeString
      Eviction2QTier.tierProbatory.code 0#2 }

/-- `nd_insert_into_segment`.  A rehash passes no key: the bytes are in the pool
already.  Both counters go up in either case.  With a key, the pool first grows by
`while (key_pool_size + key_len + 1 > key_pool_cap) key_pool_cap *= 2`. -/
def ndInsertIntoSegment (t : NexDashTable) (seg : NexDashSegment) (bktStart hash : Nat)
    (key : Option Key) : NdInsert :=
  match (probeOrder bktStart).find? fun i => !(seg.buckets i.1).occupied i.2 with
  | none => .full
  | some i =>
    let sl := ndFreshSlot t.keyPool.length hash key
    let seg' := seg.setBucket i.1 (((seg.buckets i.1).setSlot i.2 sl).mark i.2)
    let t' := { t with itemCount := incr32 t.itemCount }
    let seg' := { seg' with itemCount := incr32 seg.itemCount }
    match key with
    | none => .placed t' seg' i
    | some k =>
      match doubleTo (u32 (t.keyPool.length + k.len + 1)) 33 t.keyPoolCap with
      | none => .diverges
      | some cap =>
        .placed
          { t' with
            keyPool := t.keyPool ++ k.bytes ++ [0]
            keyPoolCap := cap
            bloom := nexbloomAdd t.bloom hash }
          seg' i

/-! ### Directory doubling -/

/-- Every slot of a directory of `n` segments, in the order of the three nested
loops. -/
def slotOrder (n : Nat) : List Pos :=
  (List.range n).flatMap fun si =>
    (List.range NEXDASH_BUCKET_COUNT).flatMap fun bi =>
      (List.range NEXDASH_SLOT_COUNT).map fun s => (si, bi, s)

/-- One iteration of the rehash: an entry of the old directory is inserted into the
new one and its other fields are copied over. -/
def ndRehashSlot (newDirSize : Nat) (acc : NexDashTable × (Nat → NexDashSegment))
    (oldSl : NexDashSlot) : NexDashTable × (Nat → NexDashSegment) :=
  let nsegIdx := oldSl.keyHash % newDirSize
  match ndInsertIntoSegment acc.1 (acc.2 nsegIdx) (bktStartOf oldSl.keyHash) oldSl.keyHash
      none with
  | .placed t seg i =>
    let placed : NexDashSlot :=
      { keyHash := oldSl.keyHash
        valuePtr := oldSl.valuePtr
        keyOffset := oldSl.keyOffset
        expireUs32 := oldSl.expireUs32
        valueSize := oldSl.valueSize }
    (t, update acc.2 nsegIdx (seg.setSlot i placed))
  | _ => acc  -- "WARNING: resize rehash overflow": the entry is dropped

/-- The three nested loops of the rehash, from a directory of zeroed segments. -/
def ndRehash (t : NexDashTable) (newDirSize : Nat) : NexDashTable × (Nat → NexDashSegment) :=
  (slotOrder t.dirSize).foldl
    (fun acc p =>
      match t.cell p with
      | some oldSl => ndRehashSlot newDirSize acc oldSl
      | none => acc)
    (t, fun _ => .zero)

/-- `nd_resize`; `none` is the return value `0`. -/
def ndResize (t : NexDashTable) (arenaOk : Bool) : Option NexDashTable :=
  let newDirSize := u32 (t.dirSize * 2)
  if newDirSize ≤ t.dirSize then none
  else if arenaOk = false then none
  else
    let acc := ndRehash t newDirSize
    some { acc.1 with
      directory := acc.2
      dirSize := newDirSize
      stats := { acc.1.stats with resizes := acc.1.stats.resizes + 1 } }

/-! ### Lookup -/

/-- The slot holds `key`: equal hash, equal length, equal bytes in the pool. -/
def slotMatches (t : NexDashTable) (key : Key) (hash : Nat) (sl : NexDashSlot) : Bool :=
  sl.keyHash == hash && tagGetLen sl.valuePtr == BitVec.ofNat 8 key.len
    && (t.keyPool.drop sl.keyOffset).take key.len == key.bytes

/-- The probing loop of `nd_find_slot` and `nexdash_del`. -/
def ndProbe (t : NexDashTable) (key : Key) (hash : Nat) : Option Pos :=
  let segIdx := hash % t.dirSize
  ((probeOrder (bktStartOf hash)).find? fun i =>
    ((t.directory segIdx).buckets i.1).occupied i.2
      && slotMatches t key hash (t.slotAt (segIdx, i))).map fun i => (segIdx, i)

/-- `expire_us32 != 0 && decode_expire(expire_us32) <= now`. -/
def slotExpired (sl : NexDashSlot) (now : Nat) : Bool :=
  sl.expireUs32 != 0 && decide (decodeExpire sl.expireUs32 ≤ now)

/-- Inserts `key` into the segment of the current directory. -/
def ndCreateSlot (t : NexDashTable) (key : Key) (hash : Nat) :
    Option (Option (NexDashTable × Pos)) :=
  let segIdx := hash % t.dirSize
  match ndInsertIntoSegment t (t.directory segIdx) (bktStartOf hash) hash (some key) with
  | .diverges => none
  | .full => some none
  | .placed t' seg i => some (some (t'.setSegment segIdx seg, (segIdx, i)))

/-- `nd_find_slot`.  The outer `Option` is divergence, the inner one `NULL`. -/
def ndFindSlot (t : NexDashTable) (key : Key) (hash : Nat) (createIfMissing : Bool)
    (now : Nat) (arenaOk : Bool) : Option (NexDashTable × Option Pos) :=
  match ndProbe t key hash with
  | some p =>
    if slotExpired (t.slotAt p) now then some (ndRemoveSlot t p, none) else some (t, some p)
  | none =>
    if createIfMissing = false then some (t, none)
    else
      match ndCreateSlot t key hash with
      | none => none
      | some (some (t', p)) => some (t', some p)
      | some none =>
        -- the segment is full: double the directory and try once more
        match ndResize t arenaOk with
        | none => some (t, none)
        | some t₂ =>
          match ndCreateSlot t₂ key hash with
          | none => none
          | some none => some (t₂, none)
          | some (some (t', p)) => some (t', some p)

/-! ### The public operations -/

/-- The overwrite of a found slot in `nexdash_set_nolock`. -/
def ndStore (t : NexDashTable) (p : Pos) (key : Key) (value : Addr) (valueSize type : BitVec 32)
    (expireUs : Nat) : NexDashTable :=
  let sl := t.slotAt p
  let oldCost := if tagGetAddr sl.valuePtr ≠ 0#48 then sl.cost else 0
  let t' := chargeBack (callFreeCb t sl.valuePtr) oldCost
  let t' := t'.setSlot p
    { sl with
      valuePtr := tagSetMeta value (BitVec.ofNat 8 key.len) type (tagGetTier sl.valuePtr)
        (tagGetVer sl.valuePtr)
      expireUs32 := encodeExpire expireUs
      valueSize := valueSize }
  { t' with
    usedMemory := u64 (t'.usedMemory + valueSize.toNat + NEXDASH_ENTRY_OVERHEAD)
    stats := { t'.stats with sets := t'.stats.sets + 1 } }

/-- `nexdash_set`: the table and the return code, `none` if the call spins. -/
def nexdashSet (t : NexDashTable) (key : Key) (value : Addr) (valueSize type : BitVec 32)
    (expireUs now : Nat) (arenaOk : Bool) : Option (NexDashTable × Nat) :=
  if key.len = 0 then some (t, 0)
  else
    match ndFindSlot t key (fnv1a64 key) true now arenaOk with
    | none => none
    | some (t', none) => some (t', 0)
    | some (t', some p) => some (ndStore t' p key value valueSize type expireUs, 1)

def countMiss (t : NexDashTable) : NexDashTable :=
  { t with stats := { t.stats with misses := t.stats.misses + 1 } }

def countHit (t : NexDashTable) : NexDashTable :=
  { t with stats := { t.stats with hits := t.stats.hits + 1, gets := t.stats.gets + 1 } }

/-- The lookups with `create_if_missing = 0` of `nd_find_slot`. -/
def ndFindExisting (t : NexDashTable) (key : Key) (now : Nat) : NexDashTable × Option Pos :=
  match ndProbe t key (fnv1a64 key) with
  | some p =>
    if slotExpired (t.slotAt p) now then (ndRemoveSlot t p, none) else (t, some p)
  | none => (t, none)

/-- `nexdash_get`: the pointer and the type of a hit, `none` for `NULL`.  A first
hit promotes the entry to the protected tier. -/
def nexdashGet (t : NexDashTable) (key : Key) (now : Nat) :
    NexDashTable × Option (Addr × BitVec 32) :=
  if key.len = 0 then (countMiss t, none)
  else if nexbloomCheck t.bloom (fnv1a64 key) = false then (countMiss t, none)
  else
    match ndFindExisting t key now with
    | (t', none) => (countMiss t', none)
    | (t', some p) =>
      let sl := t'.slotAt p
      let type := (tagGetType sl.valuePtr).setWidth 32
      let t'' :=
        if tagGetTier sl.valuePtr = Eviction2QTier.tierProbatory.code then
          t'.setSlot p { sl with
            valuePtr := tagSetMeta (tagGetAddr sl.valuePtr) (BitVec.ofNat 8 key.len)
              type Eviction2QTier.tierProtected.code (tagGetVer sl.valuePtr) }
        else t'
      (countHit t'', some (tagGetAddr sl.valuePtr, type))

/-- `nexdash_exists`. -/
def nexdashExists (t : NexDashTable) (key : Key) (now : Nat) : NexDashTable × Bool :=
  ((nexdashGet t key now).1,
    ((nexdashGet t key now).2.elim false fun r => decide (r.1 ≠ 0#48)))

/-- `nexdash_del`: no expiry check. -/
def nexdashDel (t : NexDashTable) (key : Key) : NexDashTable × Nat :=
  if key.len = 0 then (t, 0)
  else
    match ndProbe t key (fnv1a64 key) with
    | none => (t, 0)
    | some p =>
      let t' := ndRemoveSlot t p
      ({ t' with stats := { t'.stats with dels := t'.stats.dels + 1 } }, 1)

/-- `nexdash_expire`. -/
def nexdashExpire (t : NexDashTable) (key : Key) (expireUs now : Nat) : NexDashTable × Nat :=
  match ndFindExisting t key now with
  | (t', none) => (t', 0)
  | (t', some p) =>
    (t'.setSlot p { t'.slotAt p with expireUs32 := encodeExpire expireUs }, 1)

/-- One iteration of `nexdash_scan_expired`. -/
def ndScanExpiredSlot (now : Nat) (t : NexDashTable) (p : Pos) : NexDashTable :=
  match t.cell p with
  | none => t
  | some sl =>
    if slotExpired sl now then
      let t' := ndRemoveSlot t p
      { t' with stats := { t'.stats with dels := t'.stats.dels + 1 } }
    else t

def nexdashScanExpired (t : NexDashTable) (now : Nat) : NexDashTable :=
  (slotOrder t.dirSize).foldl (ndScanExpiredSlot now) t

/-- One iteration of the innermost loop of `nexdash_evict_to_target`.  All four
loops stop as soon as `used_memory` has reached the target, and nothing but a
release changes it, so testing it at every slot is the same.  The source counts
its victims; here they are listed. -/
def ndEvictSlot (target : Nat) (want : Eviction2QTier) (acc : NexDashTable × List NexDashSlot)
    (p : Pos) : NexDashTable × List NexDashSlot :=
  if acc.1.usedMemory > target then
    match acc.1.cell p with
    | none => acc
    | some sl =>
      if tagGetTier sl.valuePtr ≠ want.code then acc
      else
        let t' := ndRemoveSlot acc.1 p
        let stats' :=
          if want = .tierProbatory then
            { t'.stats with evictionsProbatory := t'.stats.evictionsProbatory + 1 }
          else { t'.stats with evictionsProtected := t'.stats.evictionsProtected + 1 }
        ({ t' with stats := stats' }, acc.2 ++ [sl])
  else acc

/-- One pass over the table. -/
def ndEvictPass (target : Nat) (acc : NexDashTable × List NexDashSlot) (want : Eviction2QTier) :
    NexDashTable × List NexDashSlot :=
  (slotOrder acc.1.dirSize).foldl (ndEvictSlot target want) acc

/-- The probatory pass, then the protected one; with the evicted slots in order. -/
def ndEvict (t : NexDashTable) (target : Nat) : NexDashTable × List NexDashSlot :=
  ndEvictPass target (ndEvictPass target (t, []) .tierProbatory) .tierProtected

/-- `nexdash_evict_to_target`: the table and the number of evicted entries. -/
def nexdashEvictToTarget (t : NexDashTable) (target : Nat) : NexDashTable × Nat :=
  ((ndEvict t target).1, (ndEvict t target).2.length)

/-! ### Runs -/

/-- One call of the public interface. -/
inductive NdCall
  | set (key : Key) (value : Addr) (valueSize type : BitVec 32) (expireUs : Nat) (arenaOk : Bool)
  | get (key : Key)
  | del (key : Key)
  | expire (key : Key) (expireUs : Nat)
  | evict (target : Nat)
  | scanExpired

/-- What a call returns. -/
inductive NdReply
  | rc (code : Nat)
  | value (found : Option (Addr × BitVec 32))
  | done
  deriving DecidableEq

/-- A call with its clock reading. -/
structure NdEvent where
  now : Nat
  call : NdCall

/-- One call; `none` if it never returns. -/
def ndStep (t : NexDashTable) (e : NdEvent) : Option (NexDashTable × NdReply) :=
  match e.call with
  | .set key value valueSize type expireUs arenaOk =>
      (nexdashSet t key value valueSize type expireUs e.now arenaOk).map fun r => (r.1, .rc r.2)
  | .get key => some ((nexdashGet t key e.now).1, .value (nexdashGet t key e.now).2)
  | .del key => some ((nexdashDel t key).1, .rc (nexdashDel t key).2)
  | .expire key expireUs =>
      some ((nexdashExpire t key expireUs e.now).1, .rc (nexdashExpire t key expireUs e.now).2)
  | .evict target =>
      some ((nexdashEvictToTarget t target).1, .rc (nexdashEvictToTarget t target).2)
  | .scanExpired => some (nexdashScanExpired t e.now, .done)

end NexCache.NexDash
