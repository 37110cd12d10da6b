import NexCache.Lib.Runs
import NexCache.Segcache.Lists

/-!
# What the calls do to the segments

A set writes to the head of its list or to a fresh segment (`Acquires`); expiry sends
segments whose time has come back to the queue (`Expires`); the other calls only read
segments.  From these two, `Arranged.step`: every call returns and leaves each segment in one
place.
-/

namespace NexCache.Segcache

open Machine Links Lockfree Runs Function List

/-! ### A fresh segment -/

/-- What `seg_alloc` makes of a segment. -/
def freshSegment (seg : NexSegment) (b now : Nat) : NexSegment :=
  { seg with
    data := fun _ => 0, writeOffset := 0, nItems := 0, ttlBucket := b, createTime := now,
    next := none, prev := none }

/-- In `sc'` segment `idx` is fresh; the others and the index are those of `sc`. -/
structure Freshened (sc sc' : NexSegcache) (idx b now : Nat) : Prop where
  nSegments : sc'.nSegments = sc.nSegments
  hashTable : sc'.hashTable = sc.hashTable
  fresh : (freshSegment (sc.segments idx) b now).SameBody (sc'.segments idx)
  other : ∀ i, i ≠ idx → (sc.segments i).SameBody (sc'.segments i)

variable {sc : NexSegcache} {place : Place} {free : List Nat} {lists : Nat → Nat → List Nat}
  {shard b : Nat}

/-- **The first segment of the queue is handed out.** -/
theorem Placed.segAlloc_cons {idx : Nat} (h : Placed sc place (idx :: free) lists) (b now : Nat) :
    ∃ q, Holds q free ∧ segAlloc sc b now =
      ({ sc with
          freeQueue := q
          nFree := free.length
          segments := update sc.segments idx (freshSegment (sc.segments idx) b now) },
        some idx) := by
  obtain ⟨n, q, hdeq, hval, hdata, hq⟩ := h.queue.dequeue
  have hlt : idx < 2 ^ 32 := by
    have := h.lt_size ((h.mem_free idx).mp (by simp)).1
    omega
  have hnfree : decr32 sc.nFree = free.length := by
    rw [h.nFree, length_cons, decr32, if_neg (by omega), Nat.add_sub_cancel]
  refine ⟨q, hq, ?_⟩
  rw [segAlloc, hdeq]
  simp only [hdata, hval, u32_of_lt hlt, hnfree, freshSegment]

theorem Placed.segFresh_nil (h : Placed sc place [] lists)
    (shard b now : Nat) : segFresh sc shard b now = (sc, none) := by
  rw [segFresh, segAlloc, h.queue.dequeue_nil]

/-- **A segment moves from the queue to the front of a list.** -/
theorem Placed.segFresh_cons {idx : Nat} (h : Placed sc place (idx :: free) lists)
    (hshard : shard < NEX_RCU_SHARDS) (hb : b < SEG_TTL_BUCKETS) (now : Nat) :
    ∃ sc', segFresh sc shard b now = (sc', some idx) ∧ Freshened sc sc' idx b now ∧
      Placed sc' (update place idx (some (shard, b))) free
        (update₂ lists shard b (idx :: lists shard b)) := by
  obtain ⟨q, hq, halloc⟩ := h.segAlloc_cons b now
  rw [segFresh, halloc]
  -- the state after `seg_alloc`
  generalize hsc₁ : ({ sc with
    freeQueue := q, nFree := free.length
    segments := update sc.segments idx (freshSegment (sc.segments idx) b now) } :
    NexSegcache) = sc₁
  have hself : sc₁.segments idx = freshSegment (sc.segments idx) b now := by
    rw [← hsc₁]
    exact update_self ..
  have hother : ∀ i, i ≠ idx → sc₁.segments i = sc.segments i := by
    intro i hi
    rw [← hsc₁]
    exact update_of_ne hi _ _
  have hheads : sc₁.ttlShards = sc.ttlShards := by rw [← hsc₁]
  obtain ⟨hn, hf, hfq, hht, hts⟩ := segLink_frame sc₁ shard b idx
  have hbody := sameBody_segLink sc₁ shard b idx
  have hnSeg : (segLink sc₁ shard b idx).nSegments = sc.nSegments := by rw [hn, ← hsc₁]
  refine ⟨segLink sc₁ shard b idx, rfl, ⟨hnSeg, ?_, ?_, ?_⟩, ?_⟩
  · rw [hht, ← hsc₁]
  · rw [← hself]
    exact hbody idx
  · intro i hi
    rw [← hother i hi]
    exact hbody i
  refine h.push hshard hb hnSeg ?_ ?_ ?_ ?_ ?_ ?_
  · rw [hfq, ← hsc₁]
    exact hq
  · rw [hf, ← hsc₁]
  · rw [hts, hheads]
  · intro i
    rw [next_segLink, hheads]
    by_cases hi : i = idx
    · rw [if_pos hi, if_pos hi]
    · rw [if_neg hi, if_neg hi, hother i hi]
  · intro i
    rw [prev_segLink, hheads]
    by_cases hi : i = idx
    · rw [if_pos hi, hi, hself]
      rfl
    · rw [if_neg hi, hother i hi]
  · intro i
    rw [(hbody i).ttlBucket]
    by_cases hi : i = idx
    · rw [if_pos hi, hi, hself]
      rfl
    · rw [if_neg hi, hother i hi]

/-- The set has no room in the head of its list. -/
def needsFresh (sc : NexSegcache) (shard b itemSize : Nat) : Bool :=
  match sc.ttlShards shard b with
  | none => true
  | some i => decide (u32 ((sc.segments i).writeOffset + itemSize) > (sc.segments i).dataSize)

theorem segAcquire_eq (sc : NexSegcache) (shard b itemSize now : Nat) :
    segAcquire sc shard b itemSize now
      = if needsFresh sc shard b itemSize then segFresh sc shard b now
        else (sc, sc.ttlShards shard b) := by
  unfold segAcquire needsFresh
  cases sc.ttlShards shard b with
  | none => rfl
  | some i => simp only [decide_eq_true_eq]

/-- **Where a set writes**: nowhere, to the head of its list, or to a fresh segment. -/
inductive Acquires (sc : NexSegcache) (place : Place) (free : List Nat)
    (lists : Nat → Nat → List Nat) (shard b itemSize now : Nat) :
    NexSegcache × Option Nat → Prop
  | empty (hneeds : needsFresh sc shard b itemSize = true) (hfree : free = []) :
      Acquires sc place free lists shard b itemSize now (sc, none)
  | head {i : Nat} (hneeds : needsFresh sc shard b itemSize = false)
      (hhead : sc.ttlShards shard b = some i) :
      Acquires sc place free lists shard b itemSize now (sc, some i)
  | fresh {idx : Nat} {free' : List Nat} {sc' : NexSegcache}
      (hneeds : needsFresh sc shard b itemSize = true) (hfree : free = idx :: free')
      (hfresh : Freshened sc sc' idx b now)
      (hplaced : Placed sc' (Function.update place idx (some (shard, b))) free'
        (update₂ lists shard b (idx :: lists shard b))) :
      Acquires sc place free lists shard b itemSize now (sc', some idx)

theorem Placed.acquires (h : Placed sc place free lists)
    (hshard : shard < NEX_RCU_SHARDS) (hb : b < SEG_TTL_BUCKETS) (itemSize now : Nat) :
    Acquires sc place free lists shard b itemSize now (segAcquire sc shard b itemSize now) := by
  rw [segAcquire_eq]
  cases hneeds : needsFresh sc shard b itemSize with
  | false =>
    rw [if_neg (by simp)]
    cases hhead : sc.ttlShards shard b with
    | none => simp [needsFresh, hhead] at hneeds
    | some i => exact .head hneeds hhead
  | true =>
    rw [if_pos rfl]
    cases hfree : free with
    | nil =>
      subst hfree
      rw [h.segFresh_nil]
      exact .empty hneeds rfl
    | cons idx free' =>
      subst hfree
      obtain ⟨sc', heq, hfresh, hplaced⟩ := h.segFresh_cons hshard hb now
      rw [heq]
      exact .fresh hneeds rfl hfresh hplaced

/-! ### Expiry -/

/-- What an expiry does: segments whose time has come go to the queue, and nothing
happens to their bodies or to the index. -/
structure Expires (now : Nat) (sc : NexSegcache) (place : Place) (sc' : NexSegcache)
    (place' : Place) : Prop where
  nSegments : sc'.nSegments = sc.nSegments
  hashTable : sc'.hashTable = sc.hashTable
  body : ∀ i, (sc.segments i).SameBody (sc'.segments i)
  place : ∀ i, place' i = place i ∨ place' i = none ∧ ∃ shard b, place i = some (shard, b) ∧
    ttlExpired (bucketToTtlSeconds b) (sc.segments i).createTime now = true

theorem Expires.refl (now : Nat) (sc : NexSegcache) (place : Place) :
    Expires now sc place sc place :=
  ⟨rfl, rfl, fun _ => .refl _, fun _ => .inl rfl⟩

theorem Expires.trans {now : Nat} {sc sc' sc'' : NexSegcache} {place place' place'' : Place}
    (h : Expires now sc place sc' place') (h' : Expires now sc' place' sc'' place'') :
    Expires now sc place sc'' place'' := by
  refine ⟨h'.nSegments.trans h.nSegments, h'.hashTable.trans h.hashTable,
    fun i => (h.body i).trans (h'.body i), fun i => ?_⟩
  rcases h'.place i with hi' | ⟨hnone, shard, b, hi', hexp⟩
  · rw [hi']
    exact h.place i
  · rw [(h.body i).createTime] at hexp
    rcases h.place i with hi | ⟨hi, _⟩
    · exact .inr ⟨hnone, shard, b, hi ▸ hi', hexp⟩
    · rw [hi] at hi'
      cases hi'

/-- The inner loop, from a point in the list on: what it has left behind stays. -/
theorem Placed.expireList (shard b now : Nat) {todo : List Nat} :
    ∀ (kept : List Nat) {free : List Nat} {sc : NexSegcache} {place : Place}
      {lists : Nat → Nat → List Nat} {fuel : Nat} (total : Nat), Placed sc place free lists →
      lists shard b = kept ++ todo →
      todo.length ≤ fuel →
      ∃ sc' total' place' free' lists',
        Segcache.expireList shard b now fuel sc todo.head? total = some (sc', total') ∧
        Placed sc' place' free' lists' ∧ Expires now sc place sc' place' := by
  induction todo with
  | nil =>
    intro kept free sc place lists fuel total h _ _
    refine ⟨sc, total, place, free, lists, ?_, h, .refl now sc place⟩
    cases fuel <;> rfl
  | cons i todo ih =>
    intro kept free sc place lists fuel total h hsplit hfuel
    obtain ⟨fuel, rfl⟩ : ∃ n, fuel = n + 1 := ⟨fuel - 1, by rw [length_cons] at hfuel; omega⟩
    have hfuel' : todo.length ≤ fuel := by rw [length_cons] at hfuel; omega
    have hnext : (sc.segments i).next = todo.head? := by
      obtain ⟨last, hseg⟩ := h.dll shard b
      rw [hsplit] at hseg
      obtain ⟨_, _, _, _, _, hy⟩ := seg_append.mp hseg
      exact hy.head_eq
    rw [List.head?_cons, Segcache.expireList, hnext]
    by_cases hexp : ttlExpired (bucketToTtlSeconds b) (sc.segments i).createTime now = true
    · -- the segment is unlinked; the rest of the list is as it was
      rw [if_pos hexp]
      have hplace : place i = some (shard, b) :=
        ((h.mem_list shard b i).mp (by rw [hsplit]; simp)).2
      obtain ⟨hn, _, _, hht, _⟩ := segUnlink_frame sc shard b i
      have hunlink : Expires now sc place (segUnlink sc shard b i)
          (update place i none) := by
        refine ⟨hn, hht, sameBody_segUnlink sc shard b i, fun x => ?_⟩
        by_cases hx : x = i
        · subst hx
          exact .inr ⟨update_self .., shard, b, hplace, hexp⟩
        · exact .inl (update_of_ne hx _ _)
      obtain ⟨sc', total', place', free', lists', heq, hplaced, hexpires⟩ :=
        ih kept (u32 (total + (sc.segments i).nItems)) (h.unlink hsplit)
          (update₂_self ..) hfuel'
      exact ⟨sc', total', place', free', lists', heq, hplaced, hunlink.trans hexpires⟩
    · rw [if_neg hexp]
      exact ih (kept ++ [i]) total h (by rw [hsplit, append_assoc]; rfl) hfuel'

/-- **Expiry of segments returns**, and only moves segments whose time has come. -/
theorem Placed.expireSegments (h : Placed sc place free lists) (now : Nat) :
    ∃ sc' total place' free' lists', segcacheExpireSegments sc now = some (sc', total) ∧
      Placed sc' place' free' lists' ∧ Expires now sc place sc' place' := by
  have hloop : ∀ (ls : List (Nat × Nat)) {sc : NexSegcache} {place : Place} {free : List Nat}
      {lists : Nat → Nat → List Nat} (total : Nat), Placed sc place free lists →
      ∃ sc' total' place' free' lists', ls.foldlM (fun acc l =>
          Segcache.expireList l.1 l.2 now acc.1.nSegments acc.1 (acc.1.ttlShards l.1 l.2) acc.2)
          (sc, total) = some (sc', total') ∧
        Placed sc' place' free' lists' ∧ Expires now sc place sc' place' := by
    intro ls
    induction ls with
    | nil =>
      intro sc place free lists total h
      exact ⟨sc, total, place, free, lists, rfl, h, .refl now sc place⟩
    | cons l ls ih =>
      intro sc place free lists total h
      obtain ⟨last, hseg⟩ := h.dll l.1 l.2
      obtain ⟨sc₁, total₁, place₁, free₁, lists₁, heq, hplaced, hexp⟩ :=
        Placed.expireList l.1 l.2 now [] total h rfl (h.list_length l.1 l.2)
      obtain ⟨sc', total', place', free', lists', heq', hplaced', hexp'⟩ := ih total₁ hplaced
      refine ⟨sc', total', place', free', lists', ?_, hplaced', hexp.trans hexp'⟩
      rw [foldlM_cons, hseg.head_eq, heq]
      exact heq'
  exact hloop ttlLists 0 h

/-! ### The other calls -/

theorem sameLinks_htInsert {sc sc' : NexSegcache} {key : Bytes} {idx off : Nat}
    (h : htInsert sc key idx off = some sc') : SameLinks sc sc' := by
  simp only [htInsert] at h
  split at h
  · rw [← Option.some.inj h]
    exact .setBucket ..
  · split at h
    · rw [← Option.some.inj h]
      exact .setBucket ..
    · cases h

theorem sameLinks_segWrite (sc : NexSegcache) (idx : Nat) (key value : Bytes) (b : Nat) :
    SameLinks sc (segWrite sc idx key value b).1 := by
  have happ : SameLinks sc (segAppend sc idx key value b) := .setSegment sc idx rfl rfl rfl
  simp only [segWrite]
  cases hins : htInsert (segAppend sc idx key value b) key idx (sc.segments idx).writeOffset with
  | none => exact happ.trans (.setSegment _ idx rfl rfl rfl)
  | some sc' => exact happ.trans (sameLinks_htInsert hins)

theorem sameLinks_htFind (sc : NexSegcache) (key : Bytes) (now : Nat) :
    SameLinks sc (htFind sc key now).1 := by
  unfold htFind
  split
  · exact .refl sc
  · dsimp only
    split
    · exact .setBucket ..
    · exact .refl sc

theorem segcacheGet_fst (sc : NexSegcache) (key : Bytes) (bufLen now : Nat) :
    (segcacheGet sc key bufLen now).1 = (htFind sc key now).1 := by
  unfold segcacheGet
  split <;> rename_i h <;> rw [h]

theorem sameLinks_segcacheDel (sc : NexSegcache) (key : Bytes) :
    SameLinks sc (segcacheDel sc key).1 := by
  unfold segcacheDel
  split
  · exact .refl sc
  · exact .setBucket ..

/-! ### Runs -/

theorem ttlToBucket_lt (ttlSeconds : Nat) : ttlToBucket ttlSeconds < SEG_TTL_BUCKETS := by
  unfold ttlToBucket SEG_TTL_BUCKETS
  split_ifs <;> omega

theorem shardId_lt (hash : Nat) : shardId hash < NEX_RCU_SHARDS := Nat.mod_lt _ (by decide)

/-- What a set does: nothing, or it writes an item to the segment it acquires. -/
theorem Placed.set_cases (h : Placed sc place free lists) (key value : Bytes)
    (ttlSeconds now : Nat) :
    (∃ sc', Acquires sc place free lists (shardId (segHash key)) (ttlToBucket ttlSeconds)
        (itemSize key value) now (sc', none) ∧
      segcacheSet sc key value ttlSeconds now = (sc', false)) ∨
    ∃ sc' idx, segAcquire sc (shardId (segHash key)) (ttlToBucket ttlSeconds)
        (itemSize key value) now = (sc', some idx) ∧
      Acquires sc place free lists (shardId (segHash key)) (ttlToBucket ttlSeconds)
        (itemSize key value) now (sc', some idx) ∧
      segcacheSet sc key value ttlSeconds now
        = segWrite sc' idx key value (ttlToBucket ttlSeconds) := by
  have hacq := h.acquires (shardId_lt (segHash key)) (ttlToBucket_lt ttlSeconds)
    (itemSize key value) now
  simp only [segcacheSet]
  split
  · rename_i sc' hsc'
    exact .inl ⟨sc', hsc' ▸ hacq, rfl⟩
  · rename_i sc' idx hsc'
    exact .inr ⟨sc', idx, hsc', hsc' ▸ hacq, rfl⟩

theorem placed_create (maxMemory segmentSize : Nat) :
    Placed (segcacheCreate maxMemory segmentSize) (fun _ => none)
      (List.range (segcacheCreate maxMemory segmentSize).nSegments) (fun _ _ => []) := by
  refine ⟨?_, ?_, ?_, nodup_range, ?_, fun _ _ => nodup_nil, ?_, ?_, ?_, ?_⟩
  · simp only [segcacheCreate]
    split_ifs <;> omega
  · exact holds_init.pushes _
  · rw [length_range]
    rfl
  · intro i
    simp
  · intro shard b i
    simp
  · intro i shard b h
    cases h
  · intro shard b
    exact ⟨none, rfl, rfl⟩
  · intro shard b i hi
    cases hi

theorem Arranged.step (h : Arranged sc) (e : ScEvent) :
    ∃ sc' r, scStep sc e = some (sc', r) ∧ Arranged sc' ∧ sc'.nSegments = sc.nSegments := by
  obtain ⟨place, free, lists, hp⟩ := h
  obtain ⟨now, call⟩ := e
  cases call with
  | set key value ttlSeconds =>
    refine ⟨_, _, rfl, ?_⟩
    rcases hp.set_cases key value ttlSeconds now with ⟨sc', hacq, heq⟩ | ⟨sc', idx, -, hacq, heq⟩
    · rw [heq]
      cases hacq with
      | empty hneeds hfree => exact ⟨⟨place, free, lists, hp⟩, rfl⟩
    · rw [heq]
      have hw := sameLinks_segWrite sc' idx key value (ttlToBucket ttlSeconds)
      cases hacq with
      | head hneeds hhead => exact ⟨⟨place, free, lists, hp.congr hw⟩, hw.nSegments⟩
      | fresh hneeds hfree hfresh hplaced =>
        exact ⟨⟨_, _, _, hplaced.congr hw⟩, hw.nSegments.trans hfresh.nSegments⟩
  | get key bufLen =>
    refine ⟨_, _, rfl, ?_⟩
    have hs := sameLinks_htFind sc key now
    rw [segcacheGet_fst]
    exact ⟨⟨place, free, lists, hp.congr hs⟩, hs.nSegments⟩
  | del key =>
    have hs := sameLinks_segcacheDel sc key
    exact ⟨_, _, rfl, ⟨place, free, lists, hp.congr hs⟩, hs.nSegments⟩
  | «exists» key =>
    have hs := sameLinks_htFind sc key now
    exact ⟨_, _, rfl, ⟨place, free, lists, hp.congr hs⟩, hs.nSegments⟩
  | expireSegments =>
    obtain ⟨sc', total, place', free', lists', heq, hp', hexp⟩ := hp.expireSegments now
    refine ⟨sc', .expired total, ?_, ⟨place', free', lists', hp'⟩, hexp.nSegments⟩
    simp only [scStep, heq, Option.map_some]

end NexCache.Segcache
