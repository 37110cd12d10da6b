import NexCache.Lib.Buffer
import NexCache.Lib.Masked
import NexCache.Lockfree.Mpsc

/-!
# The segment cache

`segcache/segcache.c`, function by function.  Items are appended to segments, byte
buffers that hold items of one TTL bucket; the segments of a shard and TTL bucket
form a doubly linked list whose head receives the writes.  An index of buckets with
eight slots each leads from a key to the segment and offset of its item.  A lookup
parses the bytes it finds there.

Segments are named by their position in the array.  Every call holds the lock of its
shard; calls are taken as atomic, with the clock reading `now` as an argument.  A
buffer is a total function, so a write beyond `dataSize` is visible in the model and
`dataSize` says where the allocation ends.

Not modelled, since no function below reads it: the statistics, `used_memory`, the
reaper thread (a caller of `segcache_expire_segments`), `evict_age` and `pool_node`.
-/

namespace NexCache.Segcache

open Machine Buffer Lockfree Function

def NEX_RCU_SHARDS : Nat := 16
def SEG_DEFAULT_SIZE : Nat := 1024 * 1024
def SEG_MAX_SEGMENTS : Nat := 65536
def SEG_TTL_BUCKETS : Nat := 1024
def SEG_BUCKETS_PER_SHARD : Nat := 8192
def SEG_ITEMS_PER_BUCKET : Nat := 8

/-- A key or a value: `key_len` and `value_len` are `uint16_t`. -/
abbrev Bytes := SizedBytes 16

/-! ### Item headers -/

/-- `key_fp << 48 | key_len << 32 | value_len << 16 | ttl_bucket`. -/
def segHdr (keyFp keyLen valLen ttlBucket : Nat) : Nat :=
  keyFp <<< 48 ||| keyLen <<< 32 ||| valLen <<< 16 ||| ttlBucket

def segHdrKeyLen (hdr : Nat) : Nat := (hdr >>> 32) &&& 0xFFFF

def segHdrValLen (hdr : Nat) : Nat := (hdr >>> 16) &&& 0xFFFF

/-! ### State -/

structure NexSegment where
  data : Nat → UInt8
  dataSize : Nat
  writeOffset : Nat
  nItems : Nat
  ttlBucket : Nat
  createTime : Nat
  next : Option Nat
  prev : Option Nat

structure SegHashEntry where
  keyFp : Nat
  segIdx : Nat
  itemOffset : Nat
  deriving DecidableEq

/-- Eight entries and the mask of those in use. -/
abbrev SegHashBucket := Masked SegHashEntry

structure NexSegcache where
  segments : Nat → NexSegment
  nSegments : Nat
  nFree : Nat
  freeQueue : MpscQueue
  /-- The list heads, by shard and TTL bucket. -/
  ttlShards : Nat → Nat → Option Nat
  hashTable : Nat → SegHashBucket

/-- A table of tables with one cell written. -/
def update₂ {α : Type} (f : Nat → Nat → α) (a b : Nat) (x : α) : Nat → Nat → α :=
  update f a (update (f a) b x)

namespace NexSegcache

def setSegment (sc : NexSegcache) (i : Nat) (seg : NexSegment) : NexSegcache :=
  { sc with segments := update sc.segments i seg }

/-- `segments[i].next = o`. -/
def setNext (sc : NexSegcache) (i : Nat) (o : Option Nat) : NexSegcache :=
  sc.setSegment i { sc.segments i with next := o }

/-- `segments[i].prev = o`. -/
def setPrev (sc : NexSegcache) (i : Nat) (o : Option Nat) : NexSegcache :=
  sc.setSegment i { sc.segments i with prev := o }

def setHead (sc : NexSegcache) (shard b : Nat) (head : Option Nat) : NexSegcache :=
  { sc with ttlShards := update₂ sc.ttlShards shard b head }

def setBucket (sc : NexSegcache) (g : Nat) (bkt : SegHashBucket) : NexSegcache :=
  { sc with hashTable := update sc.hashTable g bkt }

end NexSegcache

/-! ### Hashes and TTL buckets -/

def segHash (key : Bytes) : Nat := fnv1a key.bytes

def shardId (hash : Nat) : Nat := hash % NEX_RCU_SHARDS

/-- The bucket of the index: the shard's part of the table, then the local bucket. -/
def globalIdx (hash : Nat) : Nat :=
  shardId hash * SEG_BUCKETS_PER_SHARD + hash / NEX_RCU_SHARDS % SEG_BUCKETS_PER_SHARD

def keyFp (hash : Nat) : Nat := hash >>> 48

def ttlToBucket (ttlSeconds : Nat) : Nat :=
  if ttlSeconds = 0 then 0
  else if ttlSeconds < 60 then ttlSeconds
  else if ttlSeconds < 600 then 60 + (ttlSeconds - 60) / 10
  else if ttlSeconds < 3600 then 60 + 54 + (ttlSeconds - 600) / 60
  else (60 + 54 + 50 + (ttlSeconds - 3600) / 3600) % SEG_TTL_BUCKETS

def bucketToTtlSeconds (b : Nat) : Nat :=
  if b = 0 then 0
  else if b < 60 then b
  else if b < 114 then 60 + (b - 60) * 10
  else if b < 164 then 600 + (b - 114) * 60
  else 3600 + (b - 164) * 3600

/-- `ttl_s > 0 && create_time + ttl_s <= now`, the sum in 32 bits. -/
def ttlExpired (ttlSeconds createTime now : Nat) : Bool :=
  decide (0 < ttlSeconds) && decide (u32 (createTime + ttlSeconds) ≤ now)

/-! ### Creation -/

/-- `segcache_create`; every allocation succeeds. -/
def segcacheCreate (maxMemory segmentSize : Nat) : NexSegcache :=
  let segmentSize := if segmentSize = 0 then SEG_DEFAULT_SIZE else segmentSize
  let n := u32 (maxMemory / segmentSize)
  let n := if n = 0 then 16 else n
  let n := if n < NEX_RCU_SHARDS then NEX_RCU_SHARDS else n
  let n := if n > SEG_MAX_SEGMENTS then SEG_MAX_SEGMENTS else n
  { segments := fun _ =>
      { data := fun _ => 0, dataSize := segmentSize, writeOffset := 0, nItems := 0,
        ttlBucket := 0, createTime := 0, next := none, prev := none }
    nSegments := n
    nFree := n
    freeQueue := (List.range n).foldl mpscPush mpscInit
    ttlShards := fun _ _ => none
    hashTable := fun _ => ⟨fun _ => ⟨0, 0, 0⟩, 0#8⟩ }

/-! ### Segments -/

/-- `seg_alloc`: takes a segment from the free queue and resets it. -/
def segAlloc (sc : NexSegcache) (ttlBucket now : Nat) : NexSegcache × Option Nat :=
  match mpscDequeue sc.freeQueue with
  | (none, q) => ({ sc with freeQueue := q }, none)
  | (some node, q) =>
    let idx := u32 (q.data node)
    let seg := sc.segments idx
    ({ sc with
        freeQueue := q
        nFree := decr32 sc.nFree
        segments := update sc.segments idx
          { seg with
            data := fun _ => 0
            writeOffset := 0
            nItems := 0
            ttlBucket := ttlBucket
            createTime := now
            next := none
            prev := none } },
      some idx)

/-- Puts a fresh segment in front of its list. -/
def segLink (sc : NexSegcache) (shard b idx : Nat) : NexSegcache :=
  let head := sc.ttlShards shard b
  let sc := sc.setNext idx head
  let sc :=
    match head with
    | some h => sc.setPrev h (some idx)
    | none => sc
  sc.setHead shard b (some idx)

/-- `seg_alloc` and the linking that follows it. -/
def segFresh (sc : NexSegcache) (shard b now : Nat) : NexSegcache × Option Nat :=
  match segAlloc sc b now with
  | (sc, none) => (sc, none)
  | (sc, some idx) => (segLink sc shard b idx, some idx)

/-- The segment that a set writes to: the head of its list, or a fresh segment if the
list is empty or the head has no room. -/
def segAcquire (sc : NexSegcache) (shard b itemSize now : Nat) : NexSegcache × Option Nat :=
  match sc.ttlShards shard b with
  | none => segFresh sc shard b now
  | some i =>
    if u32 ((sc.segments i).writeOffset + itemSize) > (sc.segments i).dataSize then
      segFresh sc shard b now
    else (sc, some i)

/-- The bytes of an item: header, key, value. -/
def segItem (key value : Bytes) (ttlBucket : Nat) : List UInt8 :=
  toLE 8 (segHdr (keyFp (segHash key)) key.len value.len ttlBucket) ++ key.bytes ++ value.bytes

/-- `sizeof(SegItemHeader) + key_len + value_len`. -/
def itemSize (key value : Bytes) : Nat := 8 + key.len + value.len

/-- Appends the item to the segment. -/
def segAppend (sc : NexSegcache) (idx : Nat) (key value : Bytes) (ttlBucket : Nat) : NexSegcache :=
  let seg := sc.segments idx
  sc.setSegment idx
    { seg with
      data := writeBytes seg.data seg.writeOffset (segItem key value ttlBucket)
      writeOffset := u32 (seg.writeOffset + itemSize key value)
      nItems := incr32 seg.nItems }

/-- `write_offset -= item_size; n_items--`, in 32 bits. -/
def segRollback (sc : NexSegcache) (idx itemSize : Nat) : NexSegcache :=
  let seg := sc.segments idx
  sc.setSegment idx
    { seg with
      writeOffset := u32 (seg.writeOffset + 2 ^ 32 - itemSize)
      nItems := decr32 seg.nItems }

/-! ### The index -/

/-- The bytes at the entry's place are an item with this key: fingerprint, then key
length in the header, then the key bytes. -/
def entryMatches (sc : NexSegcache) (key : Bytes) (e : SegHashEntry) : Bool :=
  let seg := sc.segments e.segIdx
  e.keyFp == keyFp (segHash key)
    && segHdrKeyLen (ofLE (readBytes seg.data e.itemOffset 8)) == key.len
    && readBytes seg.data (e.itemOffset + 8) key.len == key.bytes

/-- The first slot in use whose entry matches the key. -/
def htScan (sc : NexSegcache) (key : Bytes) : Option Nat :=
  let bkt := sc.hashTable (globalIdx (segHash key))
  (List.range SEG_ITEMS_PER_BUCKET).find? fun s =>
    bkt.occupied s && entryMatches sc key (bkt.slots s)

/-- `ht_insert`; `none` is the return value `-1`. -/
def htInsert (sc : NexSegcache) (key : Bytes) (segIdx itemOffset : Nat) : Option NexSegcache :=
  let g := globalIdx (segHash key)
  let bkt := sc.hashTable g
  match htScan sc key with
  | some s =>
    some (sc.setBucket g
      (bkt.setSlot s { bkt.slots s with segIdx := segIdx % 2 ^ 16, itemOffset := itemOffset }))
  | none =>
    match (List.range SEG_ITEMS_PER_BUCKET).find? fun s => !bkt.occupied s with
    | some s =>
      some (sc.setBucket g
        ((bkt.setSlot s ⟨keyFp (segHash key), segIdx % 2 ^ 16, itemOffset⟩).mark s))
    | none => none

/-- Clears a slot of the key's bucket. -/
def htClear (sc : NexSegcache) (key : Bytes) (s : Nat) : NexSegcache :=
  let g := globalIdx (segHash key)
  sc.setBucket g ((sc.hashTable g).unmark s)

/-- `ht_find`: an entry whose segment has expired is cleared. -/
def htFind (sc : NexSegcache) (key : Bytes) (now : Nat) : NexSegcache × Option SegHashEntry :=
  match htScan sc key with
  | none => (sc, none)
  | some s =>
    let e := (sc.hashTable (globalIdx (segHash key))).slots s
    let seg := sc.segments e.segIdx
    if ttlExpired (bucketToTtlSeconds seg.ttlBucket) seg.createTime now then
      (htClear sc key s, none)
    else (sc, some e)

/-! ### The public operations -/

/-- `segcache_set` once it has its segment: the item is appended and indexed, and
taken back if the index has no room. -/
def segWrite (sc : NexSegcache) (idx : Nat) (key value : Bytes) (ttlBucket : Nat) :
    NexSegcache × Bool :=
  let itemOffset := (sc.segments idx).writeOffset
  let sc := segAppend sc idx key value ttlBucket
  match htInsert sc key idx itemOffset with
  | some sc => (sc, true)
  | none => (segRollback sc idx (itemSize key value), false)

/-- `segcache_set`; `true` is the return value `0` and `false` is `-1`. -/
def segcacheSet (sc : NexSegcache) (key value : Bytes) (ttlSeconds now : Nat) :
    NexSegcache × Bool :=
  let b := ttlToBucket ttlSeconds
  match segAcquire sc (shardId (segHash key)) b (itemSize key value) now with
  | (sc, none) => (sc, false)
  | (sc, some idx) => segWrite sc idx key value b

/-- What `segcache_get` returns: `-1`, `-2` with the length, or `0` with the bytes. -/
inductive ScGet
  | miss
  | tooLong (valueLen : Nat)
  | hit (value : List UInt8)
  deriving DecidableEq

/-- The value of the item at an entry, into a buffer of `bufLen` bytes. -/
def segRead (sc : NexSegcache) (e : SegHashEntry) (bufLen : Nat) : ScGet :=
  let seg := sc.segments e.segIdx
  let hdr := ofLE (readBytes seg.data e.itemOffset 8)
  if segHdrValLen hdr > bufLen then .tooLong (segHdrValLen hdr)
  else .hit (readBytes seg.data (e.itemOffset + 8 + segHdrKeyLen hdr) (segHdrValLen hdr))

def segcacheGet (sc : NexSegcache) (key : Bytes) (bufLen now : Nat) : NexSegcache × ScGet :=
  match htFind sc key now with
  | (sc, none) => (sc, .miss)
  | (sc, some e) => (sc, segRead sc e bufLen)

/-- `segcache_del`: no expiry check. -/
def segcacheDel (sc : NexSegcache) (key : Bytes) : NexSegcache × Bool :=
  match htScan sc key with
  | none => (sc, false)
  | some s => (htClear sc key s, true)

/-- `segcache_exists`: the loop of `ht_find`, down to clearing an expired entry. -/
def segcacheExists (sc : NexSegcache) (key : Bytes) (now : Nat) : NexSegcache × Bool :=
  ((htFind sc key now).1, (htFind sc key now).2.isSome)

/-! ### Expiry of segments -/

/-- Takes a segment out of its list and returns it to the free queue. -/
def segUnlink (sc : NexSegcache) (shard b i : Nat) : NexSegcache :=
  let seg := sc.segments i
  let sc :=
    match seg.prev with
    | some p => sc.setNext p seg.next
    | none => sc.setHead shard b seg.next
  let sc :=
    match seg.next with
    | some n => sc.setPrev n seg.prev
    | none => sc
  { sc with freeQueue := mpscPush sc.freeQueue i, nFree := incr32 sc.nFree }

/-- The inner loop of `segcache_expire_segments`, from the segment `cur` on, within
`fuel` iterations; it counts the items of the segments it frees. -/
def expireList (shard b now : Nat) : Nat → NexSegcache → Option Nat → Nat →
    Option (NexSegcache × Nat)
  | _, sc, none, total => some (sc, total)
  | 0, _, some _, _ => none
  | fuel + 1, sc, some i, total =>
    let seg := sc.segments i
    if ttlExpired (bucketToTtlSeconds b) seg.createTime now then
      expireList shard b now fuel (segUnlink sc shard b i) seg.next (u32 (total + seg.nItems))
    else expireList shard b now fuel sc seg.next total

/-- All lists, in the order of the two outer loops. -/
def ttlLists : List (Nat × Nat) :=
  (List.range NEX_RCU_SHARDS).flatMap fun shard =>
    (List.range SEG_TTL_BUCKETS).map fun b => (shard, b)

/-- `segcache_expire_segments`; `none` if a list is longer than there are segments. -/
def segcacheExpireSegments (sc : NexSegcache) (now : Nat) : Option (NexSegcache × Nat) :=
  ttlLists.foldlM
    (fun acc l => expireList l.1 l.2 now acc.1.nSegments acc.1 (acc.1.ttlShards l.1 l.2) acc.2)
    (sc, 0)

/-! ### Runs -/

inductive ScCall
  | set (key value : Bytes) (ttlSeconds : Nat)
  | get (key : Bytes) (bufLen : Nat)
  | del (key : Bytes)
  | exists (key : Bytes)
  | expireSegments

inductive ScReply
  | ok (done : Bool)
  | value (found : ScGet)
  | expired (total : Nat)
  deriving DecidableEq

/-- A call with its clock reading. -/
structure ScEvent where
  now : Nat
  call : ScCall

def scStep (sc : NexSegcache) (e : ScEvent) : Option (NexSegcache × ScReply) :=
  match e.call with
  | .set key value ttlSeconds =>
      some ((segcacheSet sc key value ttlSeconds e.now).1,
        .ok (segcacheSet sc key value ttlSeconds e.now).2)
  | .get key bufLen =>
      some ((segcacheGet sc key bufLen e.now).1, .value (segcacheGet sc key bufLen e.now).2)
  | .del key => some ((segcacheDel sc key).1, .ok (segcacheDel sc key).2)
  | .exists key => some ((segcacheExists sc key e.now).1, .ok (segcacheExists sc key e.now).2)
  | .expireSegments => (segcacheExpireSegments sc e.now).map fun r => (r.1, .expired r.2)

end NexCache.Segcache
