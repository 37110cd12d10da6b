import Mathlib.Data.List.Perm.Subperm
import NexCache.Segcache.Segcache

/-!
# Where the segments are

Every segment is in the free queue or in the list of one shard and TTL bucket, once
(`Placed`).  Linking puts the first segment of the queue in front of a list
(`Placed.push`), unlinking takes one out of the middle of its list
(`Placed.unlink`), and a change that leaves queue and lists alone (`SameLinks`)
leaves the arrangement alone (`Placed.congr`).
-/

namespace NexCache.Segcache

open Machine Links Lockfree Function List Option

/-! ### The invariant -/

/-- `none` is the free queue, `some (shard, b)` the list of that shard and bucket. -/
abbrev Place := Nat → Option (Nat × Nat)

structure Placed (sc : NexSegcache) (place : Place) (free : List Nat)
    (lists : Nat → Nat → List Nat) : Prop where
  size : sc.nSegments ≤ SEG_MAX_SEGMENTS
  queue : Holds sc.freeQueue free
  nFree : sc.nFree = free.length
  freeNodup : free.Nodup
  mem_free : ∀ i, i ∈ free ↔ i < sc.nSegments ∧ place i = none
  listNodup : ∀ shard b, (lists shard b).Nodup
  mem_list : ∀ shard b i, i ∈ lists shard b ↔ i < sc.nSegments ∧ place i = some (shard, b)
  shard_lt : ∀ i shard b, place i = some (shard, b) → shard < NEX_RCU_SHARDS ∧ b < SEG_TTL_BUCKETS
  dll : ∀ shard b, Dll (fun i => (sc.segments i).next) (fun i => (sc.segments i).prev)
    (sc.ttlShards shard b) (lists shard b)
  bucket : ∀ shard b, ∀ i ∈ lists shard b, (sc.segments i).ttlBucket = b

/-- Some arrangement of the segments. -/
def Arranged (sc : NexSegcache) : Prop := ∃ place free lists, Placed sc place free lists

/-- The two states have the same queue and the same lists. -/
structure SameLinks (sc sc' : NexSegcache) : Prop where
  nSegments : sc'.nSegments = sc.nSegments
  nFree : sc'.nFree = sc.nFree
  freeQueue : sc'.freeQueue = sc.freeQueue
  ttlShards : sc'.ttlShards = sc.ttlShards
  next : ∀ i, (sc'.segments i).next = (sc.segments i).next
  prev : ∀ i, (sc'.segments i).prev = (sc.segments i).prev
  ttlBucket : ∀ i, (sc'.segments i).ttlBucket = (sc.segments i).ttlBucket

variable (sc : NexSegcache) {seg seg' : NexSegment} {α : Type}

theorem SameLinks.refl : SameLinks sc sc :=
  ⟨rfl, rfl, rfl, rfl, fun _ => rfl, fun _ => rfl, fun _ => rfl⟩

theorem SameLinks.trans {sc sc' sc'' : NexSegcache} (h : SameLinks sc sc')
    (h' : SameLinks sc' sc'') : SameLinks sc sc'' where
  nSegments := h'.nSegments.trans h.nSegments
  nFree := h'.nFree.trans h.nFree
  freeQueue := h'.freeQueue.trans h.freeQueue
  ttlShards := h'.ttlShards.trans h.ttlShards
  next := fun i => (h'.next i).trans (h.next i)
  prev := fun i => (h'.prev i).trans (h.prev i)
  ttlBucket := fun i => (h'.ttlBucket i).trans (h.ttlBucket i)

theorem SameLinks.setBucket (g : Nat) (bkt : SegHashBucket) : SameLinks sc (sc.setBucket g bkt) :=
  ⟨rfl, rfl, rfl, rfl, fun _ => rfl, fun _ => rfl, fun _ => rfl⟩

theorem SameLinks.setSegment (idx : Nat) {seg : NexSegment}
    (hnext : seg.next = (sc.segments idx).next) (hprev : seg.prev = (sc.segments idx).prev)
    (hbucket : seg.ttlBucket = (sc.segments idx).ttlBucket) :
    SameLinks sc (sc.setSegment idx seg) := by
  have hsame := (forall_update_iff sc.segments fun i seg' => seg'.next = (sc.segments i).next
    ∧ seg'.prev = (sc.segments i).prev ∧ seg'.ttlBucket = (sc.segments i).ttlBucket).mpr
    ⟨⟨hnext, hprev, hbucket⟩, fun _ _ => ⟨rfl, rfl, rfl⟩⟩
  exact ⟨rfl, rfl, rfl, rfl, fun i => (hsame i).1, fun i => (hsame i).2.1, fun i => (hsame i).2.2⟩

section Placed

variable {sc sc' : NexSegcache} {place : Place} {free : List Nat} {lists : Nat → Nat → List Nat}

theorem Placed.congr (h : Placed sc place free lists) (hs : SameLinks sc sc') :
    Placed sc' place free lists := by
  refine ⟨?_, ?_, ?_, h.freeNodup, ?_, h.listNodup, ?_, h.shard_lt, ?_, ?_⟩
  · rw [hs.nSegments]
    exact h.size
  · rw [hs.freeQueue]
    exact h.queue
  · rw [hs.nFree]
    exact h.nFree
  · rw [hs.nSegments]
    exact h.mem_free
  · rw [hs.nSegments]
    exact h.mem_list
  · intro shard b
    rw [hs.ttlShards]
    exact (h.dll shard b).congr (fun i _ => hs.next i) (fun i _ => hs.prev i)
  · intro shard b i hi
    rw [hs.ttlBucket]
    exact h.bucket shard b i hi

theorem length_le_of_nodup {l : List Nat} {n : Nat} (hnd : l.Nodup) (hlt : ∀ i ∈ l, i < n) :
    l.length ≤ n := by
  rw [← length_range (n := n)]
  exact (List.Nodup.subperm hnd fun i hi => mem_range.mpr (hlt i hi)).length_le

variable (h : Placed sc place free lists)
include h

theorem Placed.free_length : free.length ≤ sc.nSegments :=
  length_le_of_nodup h.freeNodup fun i hi => ((h.mem_free i).mp hi).1

theorem Placed.list_length (shard b : Nat) : (lists shard b).length ≤ sc.nSegments :=
  length_le_of_nodup (h.listNodup shard b) fun i hi => ((h.mem_list shard b i).mp hi).1

theorem Placed.lt_size {i : Nat} (hi : i < sc.nSegments) :
    i < 65536 := Nat.lt_of_lt_of_le hi h.size

theorem Placed.head_mem {shard b i : Nat}
    (hhead : sc.ttlShards shard b = some i) : i ∈ lists shard b := by
  obtain ⟨last, hseg⟩ := h.dll shard b
  rw [hseg.head_eq] at hhead
  exact mem_of_head? hhead

omit h

end Placed

theorem update₂_self (f : Nat → Nat → α) (a b : Nat) (x : α) :
    update₂ f a b x a b = x := by
  rw [update₂, update_self, update_self]

theorem update₂_of_ne (f : Nat → Nat → α) {a b a' b' : Nat} (x : α)
    (h : (a', b') ≠ (a, b)) : update₂ f a b x a' b' = f a' b' := by
  rw [update₂]
  by_cases ha : a' = a
  · subst ha
    rw [update_self, update_of_ne]
    exact fun hb => h (by rw [hb])
  · rw [update_of_ne ha]

theorem forall_update₂ {P : Nat → Nat → α → Prop} {f : Nat → Nat → α} {a b : Nat} {x : α}
    (h : ∀ s b', P s b' (f s b')) (hx : P a b x) (s b' : Nat) : P s b' (update₂ f a b x s b') := by
  by_cases hsb : (s, b') = (a, b)
  · obtain ⟨rfl, rfl⟩ := Prod.mk.inj hsb
    rwa [update₂_self]
  · rw [update₂_of_ne _ _ hsb]
    exact h s b'

/-! ### Bodies

What a segment is beside its two links. -/

def NexSegment.SameBody (seg seg' : NexSegment) : Prop :=
  ∃ next prev, seg' = { seg with next := next, prev := prev }

theorem NexSegment.SameBody.refl (seg : NexSegment) : seg.SameBody seg := ⟨seg.next, seg.prev, rfl⟩

theorem NexSegment.SameBody.trans {seg seg' seg'' : NexSegment} (h : seg.SameBody seg')
    (h' : seg'.SameBody seg'') : seg.SameBody seg'' := by
  obtain ⟨n, p, rfl⟩ := h
  obtain ⟨n', p', rfl⟩ := h'
  exact ⟨n', p', rfl⟩

theorem NexSegment.SameBody.ttlBucket (h : seg.SameBody seg') :
    seg'.ttlBucket = seg.ttlBucket := by
  obtain ⟨n, p, rfl⟩ := h
  rfl

theorem NexSegment.SameBody.createTime (h : seg.SameBody seg') :
    seg'.createTime = seg.createTime := by
  obtain ⟨n, p, rfl⟩ := h
  rfl

/-! ### Pointer writes -/

section Pointers

variable (sc : NexSegcache) (i x : Nat) (o : Option Nat)

@[simp]
theorem next_setNext : ((sc.setNext i o).segments x).next
    = if x = i then o else (sc.segments x).next := by
  by_cases hx : x = i <;> simp [NexSegcache.setNext, NexSegcache.setSegment, hx]

@[simp]
theorem prev_setNext : ((sc.setNext i o).segments x).prev = (sc.segments x).prev := by
  by_cases hx : x = i <;> simp [NexSegcache.setNext, NexSegcache.setSegment, hx]

@[simp]
theorem next_setPrev : ((sc.setPrev i o).segments x).next = (sc.segments x).next := by
  by_cases hx : x = i <;> simp [NexSegcache.setPrev, NexSegcache.setSegment, hx]

@[simp]
theorem prev_setPrev : ((sc.setPrev i o).segments x).prev
    = if x = i then o else (sc.segments x).prev := by
  by_cases hx : x = i <;> simp [NexSegcache.setPrev, NexSegcache.setSegment, hx]

@[simp]
theorem segments_setHead (shard b : Nat) : (sc.setHead shard b o).segments = sc.segments := rfl

theorem sameBody_setNext : (sc.segments x).SameBody ((sc.setNext i o).segments x) :=
  (forall_update_iff sc.segments fun x seg => (sc.segments x).SameBody seg).mpr
    ⟨⟨o, (sc.segments i).prev, rfl⟩, fun _ _ => .refl _⟩ x

theorem sameBody_setPrev : (sc.segments x).SameBody ((sc.setPrev i o).segments x) :=
  (forall_update_iff sc.segments fun x seg => (sc.segments x).SameBody seg).mpr
    ⟨⟨(sc.segments i).next, o, rfl⟩, fun _ _ => .refl _⟩ x

end Pointers

/-! ### Linking a segment -/

section Link

variable (sc : NexSegcache) (shard b idx : Nat)

theorem next_segLink (i : Nat) : ((segLink sc shard b idx).segments i).next
    = if i = idx then sc.ttlShards shard b else (sc.segments i).next := by
  simp only [segLink, segments_setHead]
  cases sc.ttlShards shard b with
  | none => rw [next_setNext]
  | some h => rw [next_setPrev, next_setNext]

theorem prev_segLink (i : Nat) : ((segLink sc shard b idx).segments i).prev
    = if sc.ttlShards shard b = some i then some idx else (sc.segments i).prev := by
  simp only [segLink, segments_setHead]
  cases sc.ttlShards shard b with
  | none => simp
  | some h => simp [eq_comm]

theorem sameBody_segLink (i : Nat) :
    (sc.segments i).SameBody ((segLink sc shard b idx).segments i) := by
  simp only [segLink, segments_setHead]
  cases sc.ttlShards shard b with
  | none => exact sameBody_setNext sc idx i none
  | some h => exact (sameBody_setNext sc idx i (some h)).trans (sameBody_setPrev _ h i _)

theorem segLink_frame : (segLink sc shard b idx).nSegments = sc.nSegments ∧
    (segLink sc shard b idx).nFree = sc.nFree ∧
    (segLink sc shard b idx).freeQueue = sc.freeQueue ∧
    (segLink sc shard b idx).hashTable = sc.hashTable ∧
    (segLink sc shard b idx).ttlShards = update₂ sc.ttlShards shard b (some idx) := by
  unfold segLink
  cases sc.ttlShards shard b with
  | none | some h => exact ⟨rfl, rfl, rfl, rfl, rfl⟩

end Link

/-! ### Unlinking a segment -/

section Unlink

variable (sc : NexSegcache) (shard b i : Nat)

theorem next_segUnlink (x : Nat) : ((segUnlink sc shard b i).segments x).next
    = if (sc.segments i).prev = some x then (sc.segments i).next else (sc.segments x).next := by
  simp only [segUnlink]
  cases (sc.segments i).prev with
  | none => cases (sc.segments i).next <;> simp
  | some p => cases (sc.segments i).next <;> simp [eq_comm]

theorem prev_segUnlink (x : Nat) : ((segUnlink sc shard b i).segments x).prev
    = if (sc.segments i).next = some x then (sc.segments i).prev else (sc.segments x).prev := by
  simp only [segUnlink]
  cases (sc.segments i).next with
  | none => cases (sc.segments i).prev <;> simp
  | some n => cases (sc.segments i).prev <;> simp [eq_comm]

theorem sameBody_segUnlink (x : Nat) :
    (sc.segments x).SameBody ((segUnlink sc shard b i).segments x) := by
  simp only [segUnlink]
  cases (sc.segments i).next with
  | none =>
    cases (sc.segments i).prev with
    | none => exact .refl _
    | some p => exact sameBody_setNext sc p x none
  | some n =>
    cases (sc.segments i).prev with
    | none => exact sameBody_setPrev (sc.setHead shard b (some n)) n x none
    | some p => exact (sameBody_setNext sc p x (some n)).trans (sameBody_setPrev _ n x _)

theorem segUnlink_frame : (segUnlink sc shard b i).nSegments = sc.nSegments ∧
    (segUnlink sc shard b i).nFree = incr32 sc.nFree ∧
    (segUnlink sc shard b i).freeQueue = mpscPush sc.freeQueue i ∧
    (segUnlink sc shard b i).hashTable = sc.hashTable ∧
    (segUnlink sc shard b i).ttlShards =
      if (sc.segments i).prev = none then update₂ sc.ttlShards shard b (sc.segments i).next
      else sc.ttlShards := by
  simp only [segUnlink]
  cases (sc.segments i).prev with
  | none | some p => cases (sc.segments i).next <;> exact ⟨rfl, rfl, rfl, rfl, rfl⟩

end Unlink

/-! ### Rearranging -/

variable {sc : NexSegcache} {place : Place} {free : List Nat} {lists : Nat → Nat → List Nat}

variable (h : Placed sc place free lists)
include h

theorem Placed.ne_of_list {i j shard b : Nat} (hi : place i = none)
    (hj : j ∈ lists shard b) : j ≠ i := by
  rintro rfl
  rw [((h.mem_list shard b j).mp hj).2] at hi
  cases hi

/-- A segment is in one list. -/
theorem Placed.eq_of_mem {i s b s' b' : Nat} (hi : i ∈ lists s b)
    (hi' : i ∈ lists s' b') : (s, b) = (s', b') := by
  have hplace := ((h.mem_list _ _ i).mp hi).2
  rw [((h.mem_list _ _ i).mp hi').2] at hplace
  exact (some.inj hplace).symm

omit h in
/-- The arrangement after the first segment of the queue is put in front of a list. -/
theorem Placed.push {sc sc' : NexSegcache} {idx : Nat} (h : Placed sc place (idx :: free) lists)
    {shard b : Nat} (hshard : shard < NEX_RCU_SHARDS) (hb : b < SEG_TTL_BUCKETS)
    (hn : sc'.nSegments = sc.nSegments) (hq : Holds sc'.freeQueue free)
    (hf : sc'.nFree = free.length)
    (hheads : sc'.ttlShards = update₂ sc.ttlShards shard b (some idx))
    (hnext : ∀ i, (sc'.segments i).next
      = if i = idx then sc.ttlShards shard b else (sc.segments i).next)
    (hprev : ∀ i, (sc'.segments i).prev = if sc.ttlShards shard b = some i then some idx
      else if i = idx then none else (sc.segments i).prev)
    (hbucket : ∀ i, (sc'.segments i).ttlBucket = if i = idx then b else (sc.segments i).ttlBucket) :
    Placed sc' (update place idx (some (shard, b))) free
      (update₂ lists shard b (idx :: lists shard b)) := by
  obtain ⟨hidx, hnone⟩ := (h.mem_free idx).mp (by simp)
  obtain ⟨hidxfree, hfree⟩ := nodup_cons.mp h.freeNodup
  have hne : ∀ {s b' i}, i ∈ lists s b' → i ≠ idx := h.ne_of_list hnone
  have hhead : ∀ {i}, sc.ttlShards shard b = some i → i ∈ lists shard b := h.head_mem
  refine ⟨by rw [hn]; exact h.size, hq, hf, hfree, ?_, ?_, ?_, ?_, ?_, ?_⟩
  · intro i
    rw [hn]
    by_cases hi : i = idx
    · subst hi
      simp [hidxfree]
    · rw [update_of_ne hi, ← h.mem_free i]
      simp [hi]
  · exact forall_update₂ h.listNodup
      (nodup_cons.mpr ⟨fun hmem => hne hmem rfl, h.listNodup shard b⟩)
  · intro s b' i
    rw [hn]
    by_cases hsb : (s, b') = (shard, b)
    · obtain ⟨rfl, rfl⟩ := Prod.mk.inj hsb
      rw [update₂_self, mem_cons, h.mem_list]
      by_cases hi : i = idx
      · subst hi
        simp [hidx]
      · simp [hi]
    · rw [update₂_of_ne _ _ hsb, h.mem_list]
      by_cases hi : i = idx
      · subst hi
        rw [update_self, hnone]
        simp only [some.injEq, Ne.symm hsb, reduceCtorEq]
      · rw [update_of_ne hi]
  · intro i s b' hi
    by_cases hi' : i = idx
    · rw [hi', update_self] at hi
      obtain ⟨rfl, rfl⟩ := Prod.mk.inj (some.inj hi)
      exact ⟨hshard, hb⟩
    · rw [update_of_ne hi'] at hi
      exact h.shard_lt i s b' hi
  · intro s b'
    rw [hheads]
    by_cases hsb : (s, b') = (shard, b)
    · obtain ⟨rfl, rfl⟩ := Prod.mk.inj hsb
      rw [update₂_self, update₂_self]
      refine (h.dll s b').push (h.listNodup s b') ?_ ?_ ?_ ?_
      · rw [hnext, if_pos rfl]
      · rw [hprev, if_neg (fun e => hne (hhead e) rfl), if_pos rfl]
      · intro x hx
        rw [hnext, if_neg (hne hx)]
      · intro x hx
        rw [hprev, if_neg (hne hx)]
    · rw [update₂_of_ne _ _ hsb, update₂_of_ne _ _ hsb]
      refine (h.dll s b').congr ?_ ?_
      · intro x hx
        rw [hnext, if_neg (hne hx)]
      · intro x hx
        rw [hprev, if_neg, if_neg (hne hx)]
        -- the old head is in another list
        exact fun e => hsb (h.eq_of_mem hx (hhead e))
  · have hold : ∀ s b', ∀ i ∈ lists s b', (sc'.segments i).ttlBucket = b' := by
      intro s b' i hi
      rw [hbucket, if_neg (hne hi)]
      exact h.bucket s b' i hi
    refine forall_update₂ (P := fun _ b' l => ∀ i ∈ l, (sc'.segments i).ttlBucket = b') hold ?_
    exact forall_mem_cons.mpr ⟨by rw [hbucket, if_pos rfl], hold shard b⟩

/-- **A segment moves from the middle of its list to the end of the queue.** -/
theorem Placed.unlink {shard b i : Nat} {xs ys : List Nat}
    (hsplit : lists shard b = xs ++ i :: ys) :
    Placed (segUnlink sc shard b i) (update place i none) (free ++ [i])
      (update₂ lists shard b (xs ++ ys)) := by
  have himem : i ∈ lists shard b := by rw [hsplit]; simp
  obtain ⟨hi, hplace⟩ := (h.mem_list shard b i).mp himem
  have hifree : i ∉ free := by
    intro hmem
    rw [((h.mem_free i).mp hmem).2] at hplace
    cases hplace
  have hnd : (xs ++ i :: ys).Nodup := hsplit ▸ h.listNodup shard b
  obtain ⟨hxy, hixy⟩ : (xs ++ ys).Nodup ∧ i ∉ xs ++ ys := by
    have := nodup_middle.mp hnd
    exact ⟨(nodup_cons.mp this).2, (nodup_cons.mp this).1⟩
  have hdll : Dll (fun x => (sc.segments x).next) (fun x => (sc.segments x).prev)
      (sc.ttlShards shard b) (xs ++ i :: ys) := hsplit ▸ h.dll shard b
  -- the neighbours are in the same list
  have hnextmem : ∀ {x}, (sc.segments i).next = some x → x ∈ lists shard b := by
    intro x hx
    rw [hsplit]
    exact mem_append_right xs (mem_cons_of_mem i (hdll.next_mem hx))
  have hprevmem : ∀ {x}, (sc.segments i).prev = some x → x ∈ lists shard b := by
    intro x hx
    rw [hsplit]
    exact mem_append_left _ (hdll.prev_mem hx)
  obtain ⟨hn, hf, hfq, hht, hts⟩ := segUnlink_frame sc shard b i
  refine ⟨by rw [hn]; exact h.size, by rw [hfq]; exact h.queue.push i, ?_, ?_, ?_, ?_, ?_, ?_, ?_,
    ?_⟩
  · have := h.free_length
    have := h.size
    rw [SEG_MAX_SEGMENTS] at this
    rw [hf, h.nFree, length_append, length_singleton, incr32, u32_of_lt]
    omega
  · exact nodup_append.mpr ⟨h.freeNodup, by simp, fun a ha b hb he => by
      rw [mem_singleton] at hb
      rw [← hb, ← he] at hifree
      exact hifree ha⟩
  · intro x
    rw [hn, mem_append, mem_singleton, h.mem_free]
    by_cases hxi : x = i
    · subst hxi
      simp [hi]
    · rw [update_of_ne hxi]
      simp [hxi]
  · exact forall_update₂ h.listNodup hxy
  · intro s b' x
    rw [hn]
    by_cases hsb : (s, b') = (shard, b)
    · obtain ⟨rfl, rfl⟩ := Prod.mk.inj hsb
      rw [update₂_self]
      by_cases hxi : x = i
      · subst hxi
        simp [hixy]
      · rw [update_of_ne hxi, ← h.mem_list, hsplit]
        simp [hxi]
    · rw [update₂_of_ne _ _ hsb, h.mem_list]
      by_cases hxi : x = i
      · subst hxi
        rw [update_self, hplace]
        simp only [some.injEq, Ne.symm hsb, reduceCtorEq]
      · rw [update_of_ne hxi]
  · intro x s b' hx'
    by_cases hxi : x = i
    · rw [hxi, update_self] at hx'
      cases hx'
    · rw [update_of_ne hxi] at hx'
      exact h.shard_lt x s b' hx'
  · intro s b'
    by_cases hsb : (s, b') = (shard, b)
    · obtain ⟨rfl, rfl⟩ := Prod.mk.inj hsb
      have hhead : (segUnlink sc s b' i).ttlShards s b'
          = if (sc.segments i).prev = none then (sc.segments i).next else sc.ttlShards s b' := by
        rw [hts]
        split
        · exact update₂_self ..
        · rfl
      rw [hhead, update₂_self]
      exact hdll.unlink hnd (fun x _ => next_segUnlink sc s b' i x)
        (fun x _ => prev_segUnlink sc s b' i x)
    · have hhead : (segUnlink sc shard b i).ttlShards s b' = sc.ttlShards s b' := by
        rw [hts]
        split
        · exact update₂_of_ne _ _ hsb
        · rfl
      rw [hhead, update₂_of_ne _ _ hsb]
      refine (h.dll s b').congr ?_ ?_
      · intro x hx'
        rw [next_segUnlink, if_neg fun e => hsb (h.eq_of_mem hx' (hprevmem e))]
      · intro x hx'
        rw [prev_segUnlink, if_neg fun e => hsb (h.eq_of_mem hx' (hnextmem e))]
  · simp only [(sameBody_segUnlink sc shard b i _).ttlBucket]
    refine forall_update₂ (P := fun _ b' l => ∀ x ∈ l, (sc.segments x).ttlBucket = b') h.bucket ?_
    intro x hx
    refine h.bucket shard b x ?_
    rw [hsplit, mem_append, mem_cons]
    exact (mem_append.mp hx).imp_right .inr

omit h

end NexCache.Segcache
