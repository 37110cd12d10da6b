import NexCache.Segcache.Moves

/-!
# The records of a segment

A segment is a log: from offset `0` to `write_offset` it consists of records, each a
header, a key and a value (`Filled`).  A set appends one and may take it back; a fresh
segment has none.

`SetFits` is the condition under which a set stays inside the buffer it writes to.  The
code tests the head of the list only, in 32 bits; a fresh segment is not tested.
`segments_filled`: if every set of a run fits, then all segments are logs within their
buffers, and what a set writes lies inside its segment exactly if it fits.
`segments_placed`: each segment is in one place after a run exactly if every set of it fits.
-/

namespace NexCache.Segcache

open Machine Buffer Lockfree Runs Function List Option Nat

/-! ### Headers -/

variable {keyLen valLen ttlBucket : Nat}

section Header

variable (keyFp : Nat) (hkey : keyLen < 2 ^ 16) (hval : valLen < 2 ^ 16) (hb : ttlBucket < 2 ^ 16)
include hkey hval hb

theorem segHdr_eq :
    segHdr keyFp keyLen valLen ttlBucket
      = keyFp * 2 ^ 48 + (keyLen * 2 ^ 32 + (valLen * 2 ^ 16 + ttlBucket)) := by
  have hlow : valLen <<< 16 + ttlBucket < 2 ^ 32 := by rw [Nat.shiftLeft_eq]; omega
  have hmid : keyLen <<< 32 + (valLen <<< 16 + ttlBucket) < 2 ^ 48 := by
    rw [Nat.shiftLeft_eq keyLen]
    omega
  rw [segHdr, Nat.or_assoc, Nat.or_assoc, ← Nat.shiftLeft_add_eq_or_of_lt hb,
    ← Nat.shiftLeft_add_eq_or_of_lt hlow, ← Nat.shiftLeft_add_eq_or_of_lt hmid]
  simp only [Nat.shiftLeft_eq]

theorem segHdrKeyLen_segHdr : segHdrKeyLen (segHdr keyFp keyLen valLen ttlBucket) = keyLen := by
  rw [segHdr_eq keyFp hkey hval hb, segHdrKeyLen, shiftRight_eq_div_pow,
    show (0xFFFF : Nat) = 2 ^ 16 - 1 from rfl, and_two_pow_sub_one_eq_mod]
  omega

theorem segHdrValLen_segHdr : segHdrValLen (segHdr keyFp keyLen valLen ttlBucket) = valLen := by
  rw [segHdr_eq keyFp hkey hval hb, segHdrValLen, shiftRight_eq_div_pow,
    show (0xFFFF : Nat) = 2 ^ 16 - 1 from rfl, and_two_pow_sub_one_eq_mod]
  omega

end Header

theorem keyFp_lt (key : Bytes) : keyFp (segHash key) < 2 ^ 16 := by
  have := fnv1a_lt key.bytes
  rw [keyFp, segHash, shiftRight_eq_div_pow]
  omega

/-! ### Records -/

/-- A record of a segment. -/
structure SegRecord where
  key : Bytes
  value : Bytes
  bucket : Nat
  bucket_lt : bucket < SEG_TTL_BUCKETS

namespace SegRecord

/-- The header word. -/
def hdr (r : SegRecord) : Nat :=
  segHdr (keyFp (segHash r.key)) r.key.len r.value.len r.bucket

def bytes (r : SegRecord) : List UInt8 := segItem r.key r.value r.bucket

def size (r : SegRecord) : Nat := itemSize r.key r.value

variable (r : SegRecord)

theorem bytes_eq : r.bytes = toLE 8 r.hdr ++ (r.key.bytes ++ r.value.bytes) := by
  rw [bytes, segItem, append_assoc]
  rfl

theorem length_bytes : r.bytes.length = r.size := by
  rw [bytes_eq, length_append, length_append, length_toLE, size, itemSize, add_assoc]
  rfl

theorem bucket_lt_word : r.bucket < 2 ^ 16 :=
  lt_trans r.bucket_lt (by decide)

/-- The header comes back from its bytes. -/
theorem ofLE_hdr : ofLE (toLE 8 r.hdr) = r.hdr := by
  refine ofLE_toLE ?_
  have hfp := keyFp_lt r.key
  have hkey := r.key.len_lt
  have hval := r.value.len_lt
  have hb := r.bucket_lt_word
  rw [hdr, segHdr_eq _ hkey hval hb]
  omega

theorem keyLen_hdr : segHdrKeyLen r.hdr = r.key.len :=
  segHdrKeyLen_segHdr _ r.key.len_lt r.value.len_lt r.bucket_lt_word

theorem valLen_hdr : segHdrValLen r.hdr = r.value.len :=
  segHdrValLen_segHdr _ r.key.len_lt r.value.len_lt r.bucket_lt_word

end SegRecord

/-- The segment is the log `rs`, inside its buffer. -/
structure Filled (seg : NexSegment) (rs : List SegRecord) : Prop where
  bytes : readBytes seg.data 0 seg.writeOffset = rs.flatMap SegRecord.bytes
  inside : seg.writeOffset ≤ seg.dataSize

variable {rs : List SegRecord}

theorem Filled.sameBody {seg seg' : NexSegment} (h : Filled seg rs)
    (hb : seg.SameBody seg') : Filled seg' rs := by
  obtain ⟨next, prev, rfl⟩ := hb
  exact ⟨h.bytes, h.inside⟩

theorem filled_freshSegment (seg : NexSegment) (b now : Nat) :
    Filled (freshSegment seg b now) [] := ⟨rfl, zero_le _⟩

/-- The segment after an append. -/
def appended (seg : NexSegment) (r : SegRecord) : NexSegment :=
  { seg with
    data := writeBytes seg.data seg.writeOffset r.bytes
    writeOffset := u32 (seg.writeOffset + r.size)
    nItems := incr32 seg.nItems }

/-- The segment after an append that is taken back: the bytes stay behind. -/
def takenBack (seg : NexSegment) (r : SegRecord) : NexSegment :=
  { appended seg r with
    writeOffset := u32 ((appended seg r).writeOffset + 2 ^ 32 - r.size)
    nItems := decr32 (appended seg r).nItems }

variable {seg : NexSegment} {r : SegRecord}

section Append

variable (hword : seg.writeOffset + r.size < 2 ^ 32)
include hword

theorem writeOffset_appended : (appended seg r).writeOffset = seg.writeOffset + r.size :=
  u32_of_lt hword

theorem writeOffset_takenBack : (takenBack seg r).writeOffset = seg.writeOffset := by
  show u32 ((appended seg r).writeOffset + 2 ^ 32 - r.size) = _
  rw [writeOffset_appended hword, u32]
  omega

theorem Filled.appended (h : Filled seg rs) (hfits : seg.writeOffset + r.size ≤ seg.dataSize) :
    Filled (appended seg r) (rs ++ [r]) := by
  refine ⟨?_, ?_⟩
  · rw [writeOffset_appended hword, readBytes_append, zero_add, flatMap_append]
    refine congrArg₂ (· ++ ·) ?_ ?_
    · rw [← h.bytes]
      exact readBytes_write_disjoint _ _ (.inl (by omega))
    · rw [← r.length_bytes, flatMap_singleton]
      exact readBytes_write ..
  · rw [writeOffset_appended hword]
    exact hfits

theorem Filled.takenBack (h : Filled seg rs) : Filled (takenBack seg r) rs := by
  refine ⟨?_, ?_⟩
  · rw [writeOffset_takenBack hword, ← h.bytes]
    exact readBytes_write_disjoint _ _ (.inl (by omega))
  · rw [writeOffset_takenBack hword]
    exact h.inside

end Append

/-! ### What a set writes -/

variable {sc sc' : NexSegcache} {key : Bytes}

theorem segments_htInsert {idx off : Nat}
    (h : htInsert sc key idx off = some sc') : sc'.segments = sc.segments := by
  simp only [htInsert] at h
  split at h
  · rw [← some.inj h]
    rfl
  · split at h
    · rw [← some.inj h]
      rfl
    · cases h

/-- Writing an item appends a record to the segment, or leaves one behind. -/
inductive Writes (sc : NexSegcache) (idx : Nat) (r : SegRecord) : NexSegcache × Bool → Prop
  | stored {sc' : NexSegcache}
      (hins : htInsert (sc.setSegment idx (appended (sc.segments idx) r)) r.key idx
        (sc.segments idx).writeOffset = some sc') : Writes sc idx r (sc', true)
  | full
      (hins : htInsert (sc.setSegment idx (appended (sc.segments idx) r)) r.key idx
        (sc.segments idx).writeOffset = none) :
      Writes sc idx r (sc.setSegment idx (takenBack (sc.segments idx) r), false)

theorem writes_segWrite (sc : NexSegcache) (idx : Nat) (r : SegRecord) :
    Writes sc idx r (segWrite sc idx r.key r.value r.bucket) := by
  have happ : segAppend sc idx r.key r.value r.bucket
      = sc.setSegment idx (appended (sc.segments idx) r) := rfl
  simp only [segWrite, happ]
  cases hins : htInsert (sc.setSegment idx (appended (sc.segments idx) r)) r.key idx
      (sc.segments idx).writeOffset with
  | some sc' => exact .stored hins
  | none =>
    have hback : segRollback (sc.setSegment idx (appended (sc.segments idx) r)) idx
        (itemSize r.key r.value) = sc.setSegment idx (takenBack (sc.segments idx) r) := by
      simp only [segRollback, NexSegcache.setSegment, update_self, update_idem]
      rfl
    rw [hback]
    exact .full hins

/-! ### Room -/

/-- The segment that `seg_alloc` would hand out. -/
def nextFree (sc : NexSegcache) : Option Nat :=
  (mpscDequeue sc.freeQueue).1.map fun n => u32 (sc.freeQueue.data n)

variable {place : Place} {free : List Nat} {lists : Nat → Nat → List Nat}

theorem Placed.nextFree (h : Placed sc place free lists) : nextFree sc = free.head? := by
  unfold Segcache.nextFree
  cases free with
  | nil =>
    rw [h.queue.dequeue_nil]
    rfl
  | cons idx free =>
    obtain ⟨n, q, hdeq, hval, _, _⟩ := h.queue.dequeue
    have hlt : idx < 2 ^ 32 := by
      have := h.lt_size ((h.mem_free idx).mp (by simp)).1
      omega
    rw [hdeq, map_some, hval, u32_of_lt hlt]
    rfl

/-- **The set stays inside its segment**: the offset of the head does not wrap, and a
fresh segment, if one is needed, is large enough for the item. -/
structure SetFits (sc : NexSegcache) (key value : Bytes) (ttlSeconds : Nat) : Prop where
  head : ∀ i, sc.ttlShards (shardId (segHash key)) (ttlToBucket ttlSeconds) = some i →
    (sc.segments i).writeOffset + itemSize key value < 2 ^ 32
  fresh : needsFresh sc (shardId (segHash key)) (ttlToBucket ttlSeconds) (itemSize key value)
      = true →
    ∀ i, nextFree sc = some i → itemSize key value ≤ (sc.segments i).dataSize

/-- What the set writes lies inside the buffer of the segment it writes to. -/
def WritesInside (sc : NexSegcache) (key value : Bytes) (ttlSeconds now : Nat) : Prop :=
  ∀ sc' idx, segAcquire sc (shardId (segHash key)) (ttlToBucket ttlSeconds)
      (itemSize key value) now = (sc', some idx) →
    (sc'.segments idx).writeOffset + itemSize key value ≤ (sc'.segments idx).dataSize

theorem itemSize_lt (key value : Bytes) : itemSize key value < 2 ^ 18 := by
  have hkey := key.len_lt
  have hval := value.len_lt
  rw [itemSize]
  omega

theorem Freshened.writeOffset {idx b now : Nat}
    (h : Freshened sc sc' idx b now) : (sc'.segments idx).writeOffset = 0 := by
  obtain ⟨next, prev, heq⟩ := h.fresh
  rw [heq]
  rfl

theorem Freshened.dataSize {idx b now : Nat} (h : Freshened sc sc' idx b now) :
    (sc'.segments idx).dataSize = (sc.segments idx).dataSize := by
  obtain ⟨next, prev, heq⟩ := h.fresh
  rw [heq]
  rfl

theorem needsFresh_eq_false_iff {shard b size i : Nat}
    (hhead : sc.ttlShards shard b = some i) : needsFresh sc shard b size = false ↔
      u32 ((sc.segments i).writeOffset + size) ≤ (sc.segments i).dataSize := by
  rw [needsFresh, hhead]
  simp

variable {value : Bytes} {now idx ttlSeconds : Nat}

/-- A set that fits stays inside its segment, and its offset does not wrap. -/
theorem SetFits.inside (hfits : SetFits sc key value ttlSeconds) (hp : Placed sc place free lists)
    (hacq : Acquires sc place free lists (shardId (segHash key)) (ttlToBucket ttlSeconds)
      (itemSize key value) now (sc', some idx)) :
    (sc'.segments idx).writeOffset + itemSize key value < 2 ^ 32 ∧
      (sc'.segments idx).writeOffset + itemSize key value ≤ (sc'.segments idx).dataSize := by
  cases hacq with
  | head hneeds hhead =>
    have hword := hfits.head idx hhead
    have hroom := (needsFresh_eq_false_iff hhead).mp hneeds
    rw [u32_of_lt hword] at hroom
    exact ⟨hword, hroom⟩
  | fresh hneeds hfree hfresh _ =>
    have hroom := hfits.fresh hneeds idx (by rw [hp.nextFree, hfree]; rfl)
    have hsmall := itemSize_lt key value
    rw [hfresh.writeOffset, hfresh.dataSize]
    omega

/-- A set that does not fit writes past the end. -/
theorem setFits_of_writesInside {ttlSeconds now : Nat} (hp : Placed sc place free lists)
    (hinside : ∀ i, (sc.segments i).writeOffset ≤ (sc.segments i).dataSize)
    (hword : ∀ i, (sc.segments i).dataSize < 2 ^ 32)
    (hw : WritesInside sc key value ttlSeconds now) : SetFits sc key value ttlSeconds := by
  refine ⟨fun i hhead => ?_, fun hneeds i hnext => ?_⟩
  · by_contra hwrap
    -- the wrapped sum is small, so the head passes the test
    have hsmall := itemSize_lt key value
    have hin := hinside i
    have hds := hword i
    have hneeds : needsFresh sc (shardId (segHash key)) (ttlToBucket ttlSeconds)
        (itemSize key value) = false := by
      rw [needsFresh_eq_false_iff hhead, u32]
      omega
    have hle := hw sc i (by rw [segAcquire_eq, hneeds, hhead]; rfl)
    omega
  · rw [hp.nextFree] at hnext
    obtain ⟨free', rfl⟩ : ∃ free', free = i :: free' := by
      cases free with
      | nil => cases hnext
      | cons j free' => exact ⟨free', by rw [some.inj hnext]⟩
    obtain ⟨sc', heq, hfresh, _⟩ :=
      hp.segFresh_cons (shardId_lt (segHash key)) (ttlToBucket_lt ttlSeconds) now
    have hle := hw sc' i (by rw [segAcquire_eq, hneeds, if_pos rfl, heq])
    rw [hfresh.writeOffset, hfresh.dataSize] at hle
    omega

/-! ### Runs -/

/-- Every segment is a log within its buffer of `size` bytes. -/
structure Logged (size : Nat) (sc : NexSegcache) : Prop where
  arranged : Arranged sc
  filled : ∀ i, ∃ rs, Filled (sc.segments i) rs
  dataSize : ∀ i, (sc.segments i).dataSize = size

variable {size : Nat} {e : ScEvent}

theorem Logged.inside (h : Logged size sc) (i : Nat) :
    (sc.segments i).writeOffset ≤ (sc.segments i).dataSize := by
  obtain ⟨rs, hrs⟩ := h.filled i
  exact hrs.inside

theorem NexSegment.SameBody.dataSize {seg seg' : NexSegment} (h : seg.SameBody seg') :
    seg'.dataSize = seg.dataSize := by
  obtain ⟨n, p, rfl⟩ := h
  rfl

/-- Acquiring a segment changes no record of the others, and a fresh one has none. -/
theorem Acquires.filled {shard b size now : Nat} {r : NexSegcache × Option Nat}
    (h : Acquires sc place free lists shard b size now r)
    (hf : ∀ i, ∃ rs, Filled (sc.segments i) rs) (i : Nat) :
    (∃ rs, Filled (r.1.segments i) rs) ∧
      (r.1.segments i).dataSize = (sc.segments i).dataSize := by
  cases h with
  | empty _ _ | head _ _ => exact ⟨hf i, rfl⟩
  | @fresh idx _ sc' _ _ hfresh _ =>
    by_cases hi : i = idx
    · subst hi
      exact ⟨⟨[], (filled_freshSegment ..).sameBody hfresh.fresh⟩, hfresh.dataSize⟩
    · obtain ⟨rs, hrs⟩ := hf i
      exact ⟨⟨rs, hrs.sameBody (hfresh.other i hi)⟩, (hfresh.other i hi).dataSize⟩

theorem Writes.filled {w : NexSegcache × Bool} (h : Writes sc idx r w)
    (hf : ∀ i, ∃ rs, Filled (sc.segments i) rs)
    (hword : (sc.segments idx).writeOffset + r.size < 2 ^ 32)
    (hfits : (sc.segments idx).writeOffset + r.size ≤ (sc.segments idx).dataSize) (i : Nat) :
    (∃ rs, Filled (w.1.segments i) rs) ∧
      (w.1.segments i).dataSize = (sc.segments i).dataSize := by
  obtain ⟨rs, hrs⟩ := hf i
  have hset : ∀ seg, i ≠ idx → (sc.setSegment idx seg).segments i = sc.segments i :=
    fun seg hi => update_of_ne hi _ _
  have hself : ∀ seg, (sc.setSegment i seg).segments i = seg :=
    fun seg => update_self ..
  cases h with
  | stored hins =>
    rw [segments_htInsert hins]
    by_cases hi : i = idx
    · subst hi
      rw [hself]
      exact ⟨⟨_, hrs.appended hword hfits⟩, rfl⟩
    · rw [hset _ hi]
      exact ⟨⟨rs, hrs⟩, rfl⟩
  | full hins =>
    by_cases hi : i = idx
    · subst hi
      rw [hself]
      exact ⟨⟨_, hrs.takenBack hword⟩, rfl⟩
    · rw [hset _ hi]
      exact ⟨⟨rs, hrs⟩, rfl⟩

/-- The condition on a call: a set fits. -/
def CallFits (sc : NexSegcache) (e : ScEvent) : Prop :=
  match e.call with
  | .set key value ttlSeconds => SetFits sc key value ttlSeconds
  | _ => True

theorem segments_htFind (sc : NexSegcache) (key : Bytes) (now : Nat) :
    (htFind sc key now).1.segments = sc.segments := by
  unfold htFind
  split
  · rfl
  · dsimp only
    split <;> rfl

theorem segments_segcacheDel (sc : NexSegcache) (key : Bytes) :
    (segcacheDel sc key).1.segments = sc.segments := by
  unfold segcacheDel
  split <;> rfl

theorem Logged.step (h : Logged size sc)
    (hfits : CallFits sc e) : ∃ sc' r, scStep sc e = some (sc', r) ∧ Logged size sc' := by
  obtain ⟨sc', r, hstep, harr, _⟩ := h.arranged.step e
  refine ⟨sc', r, hstep, ?_⟩
  suffices hbodies : ∀ i, (∃ rs, Filled (sc'.segments i) rs) ∧
      (sc'.segments i).dataSize = (sc.segments i).dataSize by
    refine ⟨harr, fun i => (hbodies i).1, fun i => ?_⟩
    rw [(hbodies i).2]
    exact h.dataSize i
  have hsame : sc'.segments = sc.segments → ∀ i, (∃ rs, Filled (sc'.segments i) rs) ∧
      (sc'.segments i).dataSize = (sc.segments i).dataSize := by
    intro heq i
    rw [heq]
    exact ⟨h.filled i, rfl⟩
  obtain ⟨place, free, lists, hp⟩ := h.arranged
  obtain ⟨now, call⟩ := e
  cases call with
  | set key value ttlSeconds =>
    obtain rfl : (segcacheSet sc key value ttlSeconds now).1 = sc' :=
      congrArg Prod.fst (some.inj hstep)
    rcases hp.set_cases key value ttlSeconds now with ⟨sc₁, hacq, heq⟩ | ⟨sc₁, idx, -, hacq, heq⟩
    · rw [heq]
      exact hacq.filled h.filled
    · rw [heq]
      obtain ⟨hword, hin⟩ := SetFits.inside hfits hp hacq
      intro i
      have hw := (writes_segWrite sc₁ idx ⟨key, value, _, ttlToBucket_lt ttlSeconds⟩).filled
        (fun j => (hacq.filled h.filled j).1) hword hin i
      exact ⟨hw.1, hw.2.trans (hacq.filled h.filled i).2⟩
  | get key bufLen =>
    obtain rfl : (segcacheGet sc key bufLen now).1 = sc' :=
      congrArg Prod.fst (some.inj hstep)
    exact hsame (by rw [segcacheGet_fst, segments_htFind])
  | del key =>
    obtain rfl : (segcacheDel sc key).1 = sc' := congrArg Prod.fst (some.inj hstep)
    exact hsame (segments_segcacheDel sc key)
  | «exists» key =>
    obtain rfl : (segcacheExists sc key now).1 = sc' := congrArg Prod.fst (some.inj hstep)
    exact hsame (segments_htFind sc key now)
  | expireSegments =>
    obtain ⟨sc₁, total, place', free', lists', heq, _, hexp⟩ := hp.expireSegments now
    simp only [scStep, heq, map_some, some.injEq, Prod.mk.injEq] at hstep
    obtain ⟨rfl, _⟩ := hstep
    intro i
    obtain ⟨rs, hrs⟩ := h.filled i
    exact ⟨⟨rs, hrs.sameBody (hexp.body i)⟩, (hexp.body i).dataSize⟩

theorem Logged.stepped (h : Logged size sc) {r : ScReply} (hfits : CallFits sc e)
    (hstep : scStep sc e = some (sc', r)) :
    Logged size sc' := by
  obtain ⟨sc₁, r₁, hstep₁, hlogged⟩ := h.step hfits
  obtain ⟨rfl, -⟩ := result_inj (hstep₁.symm.trans hstep)
  exact hlogged

/-- The size of the segments: `0` stands for the default. -/
def segmentBytes (segmentSize : Nat) : Nat :=
  if segmentSize = 0 then SEG_DEFAULT_SIZE else segmentSize

theorem logged_create (maxMemory segmentSize : Nat) :
    Logged (segmentBytes segmentSize) (segcacheCreate maxMemory segmentSize) :=
  ⟨⟨_, _, _, placed_create maxMemory segmentSize⟩, fun _ => ⟨[], rfl, zero_le _⟩, fun _ => rfl⟩

theorem segmentBytes_lt {segmentSize : Nat} (hsize : segmentSize < 2 ^ 32) :
    segmentBytes segmentSize < 2 ^ 32 := by
  rw [segmentBytes]
  split
  · decide
  · exact hsize

/-- A set writes inside the buffer exactly if it fits. -/
theorem Logged.writesInside_iff (h : Logged size sc) (hsize : size < 2 ^ 32) :
    WritesInside sc key value ttlSeconds now ↔ SetFits sc key value ttlSeconds := by
  obtain ⟨place, free, lists, hp⟩ := h.arranged
  constructor
  · refine setFits_of_writesInside hp h.inside fun i => ?_
    rw [h.dataSize i]
    exact hsize
  · intro hset sc' idx hacq
    have hacq' := hp.acquires (shardId_lt (segHash key)) (ttlToBucket_lt ttlSeconds)
      (itemSize key value) now
    rw [hacq] at hacq'
    exact (hset.inside hp hacq').2

/-- In a new cache a set fits if its item does. -/
theorem setFits_create {maxMemory segmentSize : Nat} (ttlSeconds : Nat)
    (hitem : itemSize key value ≤ segmentBytes segmentSize) :
    SetFits (segcacheCreate maxMemory segmentSize) key value ttlSeconds :=
  ⟨fun _ hhead => (by cases hhead), fun _ _ _ => hitem⟩

/-- **The segments are logs, and sets stay inside them, as long as every set fits.**  A
set writes inside the buffer exactly if it fits. -/
theorem segments_filled (maxMemory segmentSize : Nat) (hsize : segmentSize < 2 ^ 32)
    (es : List ScEvent) (hfits : Along scStep CallFits (segcacheCreate maxMemory segmentSize) es) :
    ∃ sc replies, run scStep (segcacheCreate maxMemory segmentSize) es = some (sc, replies) ∧
      (∀ i, (sc.segments i).writeOffset ≤ (sc.segments i).dataSize ∧
        ∃ rs : List SegRecord,
          readBytes (sc.segments i).data 0 (sc.segments i).writeOffset
            = rs.flatMap SegRecord.bytes) ∧
      ∀ key value ttlSeconds now,
        WritesInside sc key value ttlSeconds now ↔ SetFits sc key value ttlSeconds := by
  obtain ⟨sc, replies, hrun, hlog⟩ := run_total (I := Logged (segmentBytes segmentSize))
    (fun sc e h hc => h.step hc) (logged_create maxMemory segmentSize) hfits
  refine ⟨sc, replies, hrun, fun i => ⟨hlog.inside i, ?_⟩, fun key value ttlSeconds now =>
    hlog.writesInside_iff (segmentBytes_lt hsize)⟩
  obtain ⟨rs, hrs⟩ := hlog.filled i
  exact ⟨rs, hrs.bytes⟩

/-! ### Placement

A buffer of the model is a function on all offsets, so a write past its end harms nothing there.
In the program it harms what the allocator has put behind the buffer, the nodes of the free queue
among others; `memStep` has no next state then. -/

/-- Whether what a call writes lies inside the buffer of the segment it writes to. -/
def callInside (sc : NexSegcache) (e : ScEvent) : Bool :=
  match e.call with
  | .set key value ttlSeconds =>
    match segAcquire sc (shardId (segHash key)) (ttlToBucket ttlSeconds) (itemSize key value)
        e.now with
    | (sc', some idx) =>
      decide ((sc'.segments idx).writeOffset + itemSize key value ≤ (sc'.segments idx).dataSize)
    | (_, none) => true
  | _ => true

def memStep (sc : NexSegcache) (e : ScEvent) : Option (NexSegcache × ScReply) :=
  if callInside sc e then scStep sc e else none

theorem callInside_set :
    callInside sc ⟨now, .set key value ttlSeconds⟩ = true ↔
      WritesInside sc key value ttlSeconds now := by
  rw [callInside, WritesInside]
  dsimp only
  split
  · rename_i sc' idx heq
    rw [heq, decide_eq_true_iff]
    constructor
    · rintro hle _ _ ⟨⟩
      exact hle
    · intro hw
      exact hw sc' idx rfl
  · rename_i sc' heq
    rw [heq]
    simp

theorem Logged.callInside_iff (h : Logged size sc) (hsize : size < 2 ^ 32) (e : ScEvent) :
    callInside sc e = true ↔ CallFits sc e := by
  obtain ⟨now, call⟩ := e
  cases call with
  | set key value ttlSeconds =>
    exact callInside_set.trans (h.writesInside_iff hsize)
  | _ => exact iff_of_true rfl trivial

theorem Logged.memStep_isSome_iff (h : Logged size sc) (hsize : size < 2 ^ 32) (e : ScEvent) :
    (memStep sc e).isSome ↔ CallFits sc e := by
  rw [← h.callInside_iff hsize e, memStep]
  obtain ⟨sc', r, hstep, -⟩ := h.arranged.step e
  split
  · rename_i hin
    rw [hstep]
    exact iff_of_true rfl hin
  · rename_i hout
    exact iff_of_false (by simp) hout

theorem Logged.memStep (h : Logged size sc) (hsize : size < 2 ^ 32) {r : ScReply}
    (hstep : memStep sc e = some (sc', r)) : Logged size sc' ∧ sc'.nSegments = sc.nSegments := by
  have hfits : CallFits sc e := (h.memStep_isSome_iff hsize e).mp (by rw [hstep]; rfl)
  rw [Segcache.memStep, if_pos ((h.callInside_iff hsize e).mpr hfits)] at hstep
  obtain ⟨sc₁, r₁, hstep₁, -, hn⟩ := h.arranged.step e
  obtain ⟨rfl, -⟩ := result_inj (hstep₁.symm.trans hstep)
  exact ⟨h.stepped hfits hstep, hn⟩

/-- **Each segment is in one place**: once in the free queue, or once in one list, that
of its TTL bucket; the lists are well formed and `n_free` is the length of the queue.  A run gets
there exactly if every set of it fits. -/
theorem segments_placed (maxMemory segmentSize : Nat) (hsize : segmentSize < 2 ^ 32)
    (es : List ScEvent) :
    (∃ sc replies, run memStep (segcacheCreate maxMemory segmentSize) es = some (sc, replies) ∧
      sc.nSegments = (segcacheCreate maxMemory segmentSize).nSegments ∧
      ∃ place free lists, Placed sc place free lists) ↔
    Along memStep CallFits (segcacheCreate maxMemory segmentSize) es := by
  have hword := segmentBytes_lt hsize
  have hlog := logged_create maxMemory segmentSize
  have hreturns := run_isSome_iff (D := fun _ => True)
    (fun sc e sc' r h _ hstep => (Logged.memStep h hword hstep).1)
    (fun sc e h _ => h.memStep_isSome_iff hword e) hlog fun _ (_ : _ ∈ es) => trivial
  constructor
  · rintro ⟨sc, replies, hrun, -⟩
    exact hreturns.mp (by rw [hrun]; rfl)
  · intro hfits
    obtain ⟨⟨sc, replies⟩, hrun⟩ := Option.isSome_iff_exists.mp (hreturns.mpr hfits)
    obtain ⟨hlog', hn⟩ := run_invariant
      (I := fun sc => Logged (segmentBytes segmentSize) sc ∧
        sc.nSegments = (segcacheCreate maxMemory segmentSize).nSegments)
      (fun sc e sc' r h _ hstep => by
        obtain ⟨hnext, hn⟩ := h.1.memStep hword hstep
        exact ⟨hnext, hn.trans h.2⟩) ⟨hlog, rfl⟩ hfits hrun
    exact ⟨sc, replies, hrun, hn, hlog'.arranged⟩

/-- A key or value of one byte. -/
def oneByte (c : UInt8) : Bytes := ⟨[c], by rw [length_singleton]; decide⟩

instance (sc : NexSegcache) (key value : Bytes) (ttlSeconds : Nat) :
    Decidable (SetFits sc key value ttlSeconds) :=
  decidable_of_iff
    ((∀ i ∈ sc.ttlShards (shardId (segHash key)) (ttlToBucket ttlSeconds),
        (sc.segments i).writeOffset + itemSize key value < 2 ^ 32) ∧
      (needsFresh sc (shardId (segHash key)) (ttlToBucket ttlSeconds) (itemSize key value) = true →
        ∀ i ∈ nextFree sc, itemSize key value ≤ (sc.segments i).dataSize))
    ⟨fun h => ⟨h.1, h.2⟩, fun h => ⟨h.head, h.fresh⟩⟩

instance (sc : NexSegcache) (e : ScEvent) : Decidable (CallFits sc e) := by
  unfold CallFits
  split <;> infer_instance

/-- Two items in one segment, and one with another time to live. -/
def twoSegments : List ScEvent :=
  [⟨0, .set (oneByte 107) (oneByte 118) 60⟩, ⟨1, .set (oneByte 108) (oneByte 119) 60⟩,
    ⟨2, .set (oneByte 109) (oneByte 120) 7200⟩]

theorem segments_filled_two_segments :
    ∃ sc replies, run scStep (segcacheCreate 1024 64) twoSegments = some (sc, replies) ∧
      (∀ i, (sc.segments i).writeOffset ≤ (sc.segments i).dataSize) := by
  have hfits : Along scStep CallFits (segcacheCreate 1024 64) twoSegments := by decide +kernel
  obtain ⟨sc, replies, hrun, hlogs, _⟩ := segments_filled 1024 64 (by decide) twoSegments hfits
  exact ⟨sc, replies, hrun, fun i => (hlogs i).1⟩

theorem segments_placed_two_segments :
    ∃ sc replies, run memStep (segcacheCreate 1024 64) twoSegments = some (sc, replies) ∧
      sc.nSegments = 16 ∧ ∃ place free lists, Placed sc place free lists := by
  have hfits : Along memStep CallFits (segcacheCreate 1024 64) twoSegments := by decide +kernel
  exact (segments_placed 1024 64 (by decide) twoSegments).mpr hfits

/-- With segments of one byte, the item of ten bytes is written all the same. -/
theorem fresh_segment_overrun :
    (run scStep (segcacheCreate 16 1) [⟨0, .set (oneByte 107) (oneByte 118) 0⟩]).map
        (fun r => (r.2, (r.1.segments 0).writeOffset, (r.1.segments 0).dataSize))
      = some ([.ok true], 10, 1) := by
  decide +kernel

/-- A set of a thousand bytes into a segment of one: what lies behind the buffer is lost. -/
theorem segment_overrun_not_placed :
    run memStep (segcacheCreate 16 1)
      [⟨0, .set (oneByte 107) (.ofList 16 (List.replicate 1000 118)) 0⟩] = none := by
  decide +kernel

end NexCache.Segcache
