import NexCache.Segcache.Refine

/-!
# How long an item stays

Expiry is decided per segment: an item lives until the TTL of its bucket has passed since
its *segment* was created, which may be long before the item was appended.  Until then it
is found by every lookup: `stored_until_segment_expires`.

`Stored` says that the index leads from the key to an item with the value in a segment
that is still in its list.  Calls that neither overwrite nor delete the key keep it while
the segment has not expired.
-/

namespace NexCache.Segcache

open Machine Buffer Lockfree Runs Function Option Nat

/-! ### A stored item -/

structure Stored (key value : Bytes) (idx b created : Nat) (sc : NexSegcache) : Prop where
  entry : ∃ s e r, sc.cell (globalIdx (segHash key)) s = some e ∧ e.segIdx = idx ∧
    Points sc (globalIdx (segHash key)) e r ∧ r.key = key ∧ r.value = value
  created : (sc.segments idx).createTime = created
  placed : ∃ place free lists, Placed sc place free lists ∧
    place idx = some (shardId (segHash key), b)

section Stored

variable {sc sc' : NexSegcache} {m : Bytes → Option Bytes} {key value : Bytes}
  {idx b created : Nat}

variable (h : Stored key value idx b created sc)
include h

theorem Stored.ttlBucket : (sc.segments idx).ttlBucket = b := by
  obtain ⟨s, e, r, _, hidx, hp, _⟩ := h.entry
  obtain ⟨place, free, lists, hplaced, hin⟩ := h.placed
  refine hplaced.bucket _ b idx ((hplaced.mem_list _ _ idx).mpr ⟨?_, hin⟩)
  rw [← hidx]
  exact hp.seg_lt

/-- The slot of the item is the one that a search for its key finds. -/
theorem Stored.scan (hserved : Served sc m) :
    ∃ s e r, htScan sc key = some s ∧
      sc.cell (globalIdx (segHash key)) s = some e ∧ e.segIdx = idx ∧
      Points sc (globalIdx (segHash key)) e r ∧ r.key = key ∧ r.value = value := by
  obtain ⟨s, e, r, hc, hidx, hp, hkey, hval⟩ := h.entry
  exact ⟨s, e, r, hserved.htScan_eq hc ((hp.entryMatches_iff key).mpr hkey), hc, hidx, hp, hkey,
    hval⟩

variable {now : Nat}

/-- **A lookup finds the item** while its segment has not expired. -/
theorem Stored.htFind (hserved : Served sc m)
    (hlive : ttlExpired (bucketToTtlSeconds b) created now = false) :
    ∃ e r, Segcache.htFind sc key now = (sc, some e) ∧
      Points sc (globalIdx (segHash key)) e r ∧ r.value = value := by
  obtain ⟨s, e, r, hscan, hc, hidx, hp, _, hval⟩ := h.scan hserved
  refine ⟨e, r, ?_, hp, hval⟩
  rw [htFind_of_scan now hscan (Masked.cell_eq_some_iff.mp hc).2, if_neg]
  rw [hidx, h.ttlBucket, h.created, hlive]
  simp

theorem Stored.htFind_expired (hserved : Served sc m)
    (hexp : ttlExpired (bucketToTtlSeconds b) created now = true) :
    ∃ sc', Segcache.htFind sc key now = (sc', none) := by
  obtain ⟨s, e, r, hscan, hc, hidx, _⟩ := h.scan hserved
  rw [htFind_of_scan now hscan (Masked.cell_eq_some_iff.mp hc).2, if_pos]
  · exact ⟨_, rfl⟩
  · rw [hidx, h.ttlBucket, h.created, hexp]

/-- The segments, their arrangement and the item's slot are all that matters. -/
theorem Stored.sub (hlinks : SameLinks sc sc') (hseg : sc'.segments = sc.segments)
    (hcell : ∀ s e r, sc.cell (globalIdx (segHash key)) s = some e →
      Points sc (globalIdx (segHash key)) e r → r.key = key → e.segIdx = idx →
      sc'.cell (globalIdx (segHash key)) s = some e) :
    Stored key value idx b created sc' := by
  obtain ⟨s, e, r, hc, hidx, hp, hkey, hval⟩ := h.entry
  obtain ⟨place, free, lists, hplaced, hin⟩ := h.placed
  refine ⟨⟨s, e, r, hcell s e r hc hp hkey hidx, hidx, hp.congr hlinks.nSegments hseg, hkey, hval⟩,
    ?_, ⟨place, free, lists, hplaced.congr hlinks, hin⟩⟩
  rw [hseg]
  exact h.created

variable {s : Nat} {key' : Bytes}

/-- Clearing the slot that a search for another key finds. -/
theorem Stored.htClear (hne : key' ≠ key) (hscan : htScan sc key' = some s) :
    Stored key value idx b created (htClear sc key' s) := by
  obtain ⟨hs, e', hc', _, hm'⟩ := htScan_some hscan
  refine h.sub (.setBucket ..) rfl fun s₁ e r hc hp hkey _ => ?_
  rw [cell_htClear sc key' hs, if_neg, hc]
  rintro ⟨hg, rfl⟩
  rw [hg] at hc
  obtain rfl := mem_unique hc hc'
  exact hne ((hp.entryMatches_iff key').mp hm' ▸ hkey)

/-- A lookup of any key leaves the item. -/
theorem Stored.after_htFind (hserved : Served sc m)
    (hlive : ttlExpired (bucketToTtlSeconds b) created now = false) (key' : Bytes) :
    Stored key value idx b created (Segcache.htFind sc key' now).1 := by
  by_cases hkey : key' = key
  · subst hkey
    obtain ⟨e, r, hfind, _⟩ := h.htFind hserved hlive
    rw [hfind]
    exact h
  · cases hscan : htScan sc key' with
    | none =>
      simp only [Segcache.htFind, hscan]
      exact h
    | some s =>
      obtain ⟨_, e, _, hslot, _⟩ := htScan_some hscan
      rw [htFind_of_scan now hscan hslot]
      split
      · exact h.htClear hkey hscan
      · exact h

theorem Stored.after_del
    (hne : key' ≠ key) : Stored key value idx b created (segcacheDel sc key').1 := by
  cases hscan : htScan sc key' with
  | none =>
    simp only [segcacheDel, hscan]
    exact h
  | some s =>
    simp only [segcacheDel, hscan]
    exact h.htClear hne hscan

/-- What is indexed stays, and so does the place of the segment. -/
theorem Stored.keeps (hk : Keeps sc sc')
    (hplaced : ∃ place free lists, Placed sc' place free lists ∧
      place idx = some (shardId (segHash key), b)) : Stored key value idx b created sc' := by
  obtain ⟨s, e, r, hc, hidx, hp, hkey, hval⟩ := h.entry
  refine ⟨⟨s, e, r, ?_, hidx, hk.points hc hp, hkey, hval⟩, ?_, hplaced⟩
  · rw [hk.cell, hc]
  · have hage := (hk.age hc).2
    rw [hidx] at hage
    rw [hage, h.created]

theorem Stored.after_set {place : Place}
    (hin : place idx = some (shardId (segHash key), b)) {r : SegRecord} {out : NexSegcache × Bool}
    (hout : SetOutcome sc place r now out)
    (hne : out.2 = true → r.key ≠ key) : Stored key value idx b created out.1 := by
  have hsome : place idx ≠ none := by rw [hin]; simp
  cases hout with
  | failed hkeeps hplace _ =>
    obtain ⟨⟨free', lists', hp'⟩, hstay⟩ := hplace
    exact h.keeps hkeeps ⟨_, free', lists', hp', (hstay idx hsome).trans hin⟩
  | @stored sc₁ sc₂ sc' place' i _ _ hkeeps hplace _ _ _ hins =>
    obtain ⟨⟨free', lists', hp'⟩, hstay⟩ := hplace
    obtain ⟨hseg, hn, _⟩ := htInsert_some hins
    obtain ⟨s, e, r', hc, hidx, hpt, hkey, hval⟩ := h.entry
    have hc₂ : sc₂.cell (globalIdx (segHash key)) s = some e := by rw [hkeeps.cell, hc]
    have hpt₂ := hkeeps.points hc hpt
    refine ⟨⟨s, e, r', ?_, hidx, hpt₂.congr hn hseg, hkey, hval⟩, ?_,
      ⟨_, free', lists', hp', (hstay idx hsome).trans hin⟩⟩
    · exact cell_htInsert_other hins hc₂ hpt₂ (hkey ▸ Ne.symm (hne rfl))
    · have hage := (hkeeps.age hc).2
      rw [hidx] at hage
      rw [hseg, hage, h.created]

omit h

end Stored

/-! ### Steps and runs -/

/-- The call, with its reply, overwrites or deletes the key. -/
def Overwrites (key : Bytes) (e : ScEvent) (r : ScReply) : Prop :=
  match e.call with
  | .set k _ _ => k = key ∧ r = .ok true
  | .del k => k = key
  | _ => False

variable {sc sc' : NexSegcache} {key value : Bytes} {e : ScEvent} {r : ScReply}

theorem Stored.step {m : Bytes → Option Bytes} {idx b created : Nat}
    (h : Stored key value idx b created sc) (hserved : Served sc m) (hsafe : CallSafe sc e)
    (hlive : ttlExpired (bucketToTtlSeconds b) created e.now = false) (hkept : ¬ Overwrites key e r)
    (hstep : scStep sc e = some (sc', r)) :
    Stored key value idx b created sc' := by
  obtain ⟨place, free, lists, hp, hin⟩ := h.placed
  obtain ⟨now, call⟩ := e
  cases call with
  | set k v ttlSeconds =>
    obtain ⟨rfl, rfl⟩ := result_inj hstep
    refine h.after_set hin (hserved.set_outcome hp hsafe now) fun hdone hkey => hkept ⟨hkey, ?_⟩
    rw [hdone]
  | get k bufLen =>
    obtain ⟨rfl, rfl⟩ := result_inj hstep
    rw [segcacheGet_fst]
    exact h.after_htFind hserved hlive k
  | del k =>
    obtain ⟨rfl, rfl⟩ := result_inj hstep
    exact h.after_del hkept
  | «exists» k =>
    obtain ⟨rfl, rfl⟩ := result_inj hstep
    exact h.after_htFind hserved hlive k
  | expireSegments =>
    obtain ⟨sc₁, total, place', free', lists', heq, hp', hexp⟩ := hp.expireSegments now
    simp only [scStep, heq, map_some, some.injEq, Prod.mk.injEq] at hstep
    obtain ⟨rfl, _⟩ := hstep
    refine h.keeps hexp.keeps ⟨place', free', lists', hp', ?_⟩
    rcases hexp.place idx with hsame | ⟨_, shard, b', hplace, hold⟩
    · rw [hsame, hin]
    · -- its time has not come
      rw [hin] at hplace
      obtain ⟨rfl, rfl⟩ := result_inj hplace
      rw [h.created, hlive] at hold
      cases hold

theorem Stored.run {idx b created : Nat} {es : List ScEvent} :
    ∀ {sc sc' : NexSegcache} {m : Bytes → Option Bytes} {rs : List ScReply},
      Stored key value idx b created sc → Served sc m → Along scStep CallSafe sc es →
      (∀ e ∈ es, ttlExpired (bucketToTtlSeconds b) created e.now = false) →
      (∀ p ∈ es.zip rs, ¬ Overwrites key p.1 p.2) → run scStep sc es = some (sc', rs) →
      Stored key value idx b created sc' ∧ ∃ m', Served sc' m' := by
  induction es with
  | nil =>
    intro sc sc' m rs h hserved _ _ _ hrun
    obtain ⟨rfl, _⟩ := result_inj hrun
    exact ⟨h, m, hserved⟩
  | cons e es ih =>
    intro sc sc' m rs h hserved hal hlive hkept hrun
    obtain ⟨sc₁, r, rs', hstep, hrest, rfl⟩ := run_cons hrun
    have hstored := h.step hserved hal.1 (hlive e (by simp)) (hkept (e, r) (by simp)) hstep
    obtain ⟨place, free, lists, hp, _⟩ := h.placed
    obtain ⟨-, m', hserved'⟩ := hserved.stepped ⟨place, free, lists, hp⟩ hal.1 hstep
    exact ih hstored hserved' (hal.2 _ _ hstep) (fun e' he' => hlive e' (by simp [he']))
      (fun p hp => hkept p (by simp [hp])) hrest

/-- What the set of the item leaves. -/
theorem stored_of_set {sc sc' sc₁ : NexSegcache} {m : Bytes → Option Bytes}
    {ttlSeconds now idx : Nat} (harr : Arranged sc) (hserved : Served sc m)
    (hsafe : SetSafe sc key value ttlSeconds)
    (hset : segcacheSet sc key value ttlSeconds now = (sc₁, true))
    (hacq : segAcquire sc (shardId (segHash key)) (ttlToBucket ttlSeconds) (itemSize key value) now
      = (sc', some idx)) :
    Stored key value idx (ttlToBucket ttlSeconds) (sc'.segments idx).createTime sc₁ := by
  obtain ⟨place, free, lists, hp⟩ := harr
  have hout := hserved.set_outcome hp hsafe now
  rw [hset] at hout
  cases hout with
  | @stored sc₂ sc₃ _ place' i hacq' happ _ hplace hin hidx hpoints hins =>
    obtain ⟨rfl, hi⟩ := Prod.mk.inj (hacq.symm.trans hacq')
    obtain rfl := some.inj hi
    obtain ⟨⟨free', lists', hp'⟩, _⟩ := hplace
    obtain ⟨hseg, hn, s₀, hcell, _⟩ := htInsert_some hins
    refine ⟨⟨s₀, _, setRecord key value ttlSeconds, ?_, rfl, hpoints.congr hn hseg, rfl, rfl⟩, ?_,
      ⟨place', free', lists', hp', hin⟩⟩
    · rw [hcell, if_pos ⟨rfl, rfl⟩, mod_eq_of_lt hidx]
    · rw [hseg, happ]
      show (update sc'.segments idx _ idx).createTime = _
      rw [update_self]
      rfl

/-! ### Creation times -/

theorem Acquires.createTime {place : Place} {free : List Nat} {lists : Nat → Nat → List Nat}
    {shard b size now : Nat} {r : NexSegcache × Option Nat}
    (h : Acquires sc place free lists shard b size now r) (i : Nat) :
    (r.1.segments i).createTime = (sc.segments i).createTime ∨
      (r.1.segments i).createTime = now := by
  cases h with
  | empty _ _ | head _ _ => exact .inl rfl
  | @fresh idx _ sc' _ _ hfresh _ =>
    by_cases hi : i = idx
    · subst hi
      exact .inr hfresh.fresh.createTime
    · exact .inl (hfresh.other i hi).createTime

theorem createTime_segWrite (sc : NexSegcache) (idx : Nat) (r : SegRecord) (i : Nat) :
    ((segWrite sc idx r.key r.value r.bucket).1.segments i).createTime
      = (sc.segments i).createTime := by
  have hset : ∀ seg : NexSegment, seg.createTime = (sc.segments idx).createTime →
      ((sc.setSegment idx seg).segments i).createTime = (sc.segments i).createTime := by
    intro seg hseg
    show (update sc.segments idx seg i).createTime = _
    by_cases hi : i = idx
    · rw [hi, update_self, hseg]
    · rw [update_of_ne hi]
  have hw := writes_segWrite sc idx r
  generalize segWrite sc idx r.key r.value r.bucket = out at hw ⊢
  cases hw with
  | stored hins =>
    rw [segments_htInsert hins]
    exact hset _ rfl
  | full _ => exact hset _ rfl

/-- A segment was created at the time of some call. -/
theorem createTime_step (harr : Arranged sc) (hstep : scStep sc e = some (sc', r)) (i : Nat) :
    (sc'.segments i).createTime = (sc.segments i).createTime ∨
      (sc'.segments i).createTime = e.now := by
  obtain ⟨place, free, lists, hp⟩ := harr
  obtain ⟨now, call⟩ := e
  cases call with
  | set key value ttlSeconds =>
    obtain ⟨rfl, _⟩ := result_inj hstep
    rcases hp.set_cases key value ttlSeconds now with ⟨sc₁, hacq, heq⟩ | ⟨sc₁, idx, -, hacq, heq⟩
    · rw [heq]
      exact hacq.createTime i
    · rw [heq]
      have hw := createTime_segWrite sc₁ idx (setRecord key value ttlSeconds) i
      rw [show segWrite sc₁ idx key value (ttlToBucket ttlSeconds) = segWrite sc₁ idx
        (setRecord key value ttlSeconds).key (setRecord key value ttlSeconds).value
        (setRecord key value ttlSeconds).bucket from rfl, hw]
      exact hacq.createTime i
  | get key bufLen =>
    obtain ⟨rfl, _⟩ := result_inj hstep
    rw [segcacheGet_fst, segments_htFind]
    exact .inl rfl
  | del key =>
    obtain ⟨rfl, _⟩ := result_inj hstep
    rw [segments_segcacheDel]
    exact .inl rfl
  | «exists» key =>
    obtain ⟨rfl, _⟩ := result_inj hstep
    refine .inl ?_
    show ((htFind sc key now).1.segments i).createTime = _
    rw [segments_htFind]
  | expireSegments =>
    obtain ⟨sc₁, total, _, _, _, heq, _, hexp⟩ := hp.expireSegments now
    simp only [scStep, heq, map_some, some.injEq, Prod.mk.injEq] at hstep
    obtain ⟨rfl, _⟩ := hstep
    exact .inl (hexp.body i).createTime

/-- The state before the item is set: nothing is younger than the clock. -/
structure Before (t : Nat) (sc : NexSegcache) : Prop where
  arranged : Arranged sc
  served : ∃ m, Served sc m
  created : ∀ i, (sc.segments i).createTime ≤ t

theorem Before.step {t : Nat} (h : Before t sc) (hcall : CallSafe sc e ∧ e.now ≤ t)
    (hstep : scStep sc e = some (sc', r)) :
    Before t sc' := by
  obtain ⟨m, hserved⟩ := h.served
  obtain ⟨harr, hserved'⟩ := hserved.stepped h.arranged hcall.1 hstep
  refine ⟨harr, hserved', fun i => ?_⟩
  rcases createTime_step h.arranged hstep i with hi | hi
  · rw [hi]
    exact h.created i
  · rw [hi]
    exact hcall.2

theorem before_create (t maxMemory segmentSize : Nat) :
    Before t (segcacheCreate maxMemory segmentSize) :=
  ⟨⟨_, _, _, placed_create maxMemory segmentSize⟩, ⟨_, served_create maxMemory segmentSize⟩,
    fun _ => zero_le t⟩

/-- Not expired before the deadline, if the deadline fits its 32 bits. -/
theorem ttlExpired_eq_false {ttlSeconds created now : Nat} (hword : created + ttlSeconds < 2 ^ 32)
    (hnow : now < created + ttlSeconds) : ttlExpired ttlSeconds created now = false := by
  rw [ttlExpired, u32_of_lt hword]
  simp [not_le.mpr hnow]

/-- **An item stays until its segment expires.**  In a run of safe sets with a clock that
does not run backwards, an item that is neither overwritten nor deleted is found at every
time before the creation of its segment plus the TTL of its bucket.  The segment may be
older than the item. -/
theorem stored_until_segment_expires (maxMemory segmentSize : Nat) (before after : List ScEvent)
    {key value : Bytes} {ttlSeconds t T : Nat}
    (hsafe : Along scStep CallSafe (segcacheCreate maxMemory segmentSize)
      (before ++ ⟨t, .set key value ttlSeconds⟩ :: after))
    (hclock : (before ++ ⟨t, .set key value ttlSeconds⟩ :: after).Pairwise
      fun e e' => e.now ≤ e'.now) (hlast : ∀ e ∈ after, e.now ≤ T)
    {sc₀ sc₁ sc sc' : NexSegcache} {rs₀ rs : List ScReply} {idx : Nat}
    (hbefore : run scStep (segcacheCreate maxMemory segmentSize) before = some (sc₀, rs₀))
    (hset : segcacheSet sc₀ key value ttlSeconds t = (sc₁, true))
    (hafter : run scStep sc₁ after = some (sc, rs))
    (hkept : ∀ p ∈ after.zip rs, ¬ Overwrites key p.1 p.2)
    (hacq : segAcquire sc₀ (shardId (segHash key)) (ttlToBucket ttlSeconds) (itemSize key value) t
      = (sc', some idx))
    (hword : (sc'.segments idx).createTime + bucketToTtlSeconds (ttlToBucket ttlSeconds) < 2 ^ 32)
    (hT : T < (sc'.segments idx).createTime + bucketToTtlSeconds (ttlToBucket ttlSeconds)) :
    (sc'.segments idx).createTime ≤ t ∧ (segcacheExists sc key T).2 = true ∧
      ∀ bufLen, (segcacheGet sc key bufLen T).2
        = if value.len > bufLen then .tooLong value.len else .hit value.bytes := by
  obtain ⟨hsafe₀, hset₀, hsafe₁⟩ := hsafe.split hbefore
  have hbefore_t : ∀ e ∈ before, e.now ≤ t :=
    fun e he => (List.pairwise_append.mp hclock).2.2 e he ⟨t, .set key value ttlSeconds⟩ (by simp)
  -- the state in which the item is set
  have hstate : Before t sc₀ := by
    refine run_invariant
      (fun _ _ _ _ h hc hstep => h.step hc hstep) (before_create t maxMemory segmentSize) ?_ hbefore
    exact hsafe₀.and_forall hbefore_t
  obtain ⟨m, hserved⟩ := hstate.served
  have hstep : scStep sc₀ ⟨t, .set key value ttlSeconds⟩ = some (sc₁, .ok true) := by
    simp only [scStep, hset]
  have hstored := stored_of_set hstate.arranged hserved hset₀ hset hacq
  have hserved₁ : ∃ m₁, Served sc₁ m₁ :=
    (hstate.step ⟨hset₀, le_refl t⟩ hstep).served
  obtain ⟨m₁, hserved₁⟩ := hserved₁
  have hlive : ∀ now ≤ T, ttlExpired (bucketToTtlSeconds (ttlToBucket ttlSeconds))
      (sc'.segments idx).createTime now = false :=
    fun now hnow => ttlExpired_eq_false hword (lt_of_le_of_lt hnow hT)
  obtain ⟨hstored', m', hserved'⟩ := hstored.run hserved₁ (hsafe₁ _ _ hstep)
    (fun e he => hlive e.now (hlast e he)) hkept hafter
  refine ⟨?_, ?_, fun bufLen => ?_⟩
  · obtain ⟨place, free, lists, hp⟩ := hstate.arranged
    have h := hp.acquires (shardId_lt (segHash key)) (ttlToBucket_lt ttlSeconds)
      (itemSize key value) t
    rw [hacq] at h
    rcases h.createTime idx with hi | hi
    · rw [hi]
      exact hstate.created idx
    · exact le_of_eq hi
  · obtain ⟨e, r, hfind, _⟩ := hstored'.htFind hserved' (hlive T (le_refl T))
    show (htFind sc key T).2.isSome = true
    rw [hfind]
    rfl
  · obtain ⟨e, r, hfind, hp, hval⟩ := hstored'.htFind hserved' (hlive T (le_refl T))
    simp only [segcacheGet, hfind]
    rw [hp.segRead, hval]

/-- `q` opens a segment at time 0; `a` is set in it at time 5 and is there at time 9. -/
theorem stored_until_segment_expires_shared :
    ∃ sc₀ sc rs₀, run scStep (segcacheCreate 0 64) [⟨0, .set (oneByte 113) (oneByte 1) 10⟩]
        = some (sc₀, rs₀) ∧ segcacheSet sc₀ (oneByte 97) (oneByte 65) 10 5 = (sc, true) ∧
      (segcacheGet sc (oneByte 97) 16 9).2 = .hit [65] := by
  have heval : (run scStep (segcacheCreate 0 64) [⟨0, .set (oneByte 113) (oneByte 1) 10⟩]).map
      (fun r => ((segcacheSet r.1 (oneByte 97) (oneByte 65) 10 5).2,
        needsFresh r.1 (shardId (segHash (oneByte 97))) (ttlToBucket 10)
          (itemSize (oneByte 97) (oneByte 65)),
        r.1.ttlShards (shardId (segHash (oneByte 97))) (ttlToBucket 10),
        (r.1.segments 0).writeOffset, (r.1.segments 0).createTime))
      = some (true, false, some 0, 10, 0) := by
    decide +kernel
  obtain ⟨⟨sc₀, rs₀⟩, hrun, heval⟩ := map_eq_some_iff.mp heval
  simp only [Prod.mk.injEq] at heval
  obtain ⟨hok, hfresh, hhead, hoffset, hcreated⟩ := heval
  obtain ⟨sc, hset⟩ : ∃ sc, segcacheSet sc₀ (oneByte 97) (oneByte 65) 10 5 = (sc, true) :=
    ⟨_, Prod.ext rfl hok⟩
  have hacq : segAcquire sc₀ (shardId (segHash (oneByte 97))) (ttlToBucket 10)
      (itemSize (oneByte 97) (oneByte 65)) 5 = (sc₀, some 0) := by
    rw [segAcquire_eq, hfresh, hhead]
    rfl
  have hsafe : SetSafe sc₀ (oneByte 97) (oneByte 65) 10 := by
    have hno := fun h => Bool.false_ne_true (hfresh.symm.trans h)
    refine ⟨⟨fun i hi => ?_, fun h => absurd h hno⟩, fun h => absurd h hno⟩
    obtain rfl := mem_unique hhead hi
    rw [hoffset]
    decide
  refine ⟨sc₀, sc, rs₀, hrun, hset, ?_⟩
  refine (stored_until_segment_expires 0 64 [⟨0, .set (oneByte 113) (oneByte 1) 10⟩] []
    ⟨setSafe_create 10 (by decide),
    fun sc₁ r₁ h₁ => ⟨?_, fun _ _ _ => trivial⟩⟩ (by simp) (by simp) hrun hset rfl (by simp) hacq
    (by rw [hcreated]; decide) (by rw [hcreated]; decide)).2.2 16
  rw [run, h₁] at hrun
  obtain ⟨rfl, -⟩ := result_inj hrun
  exact hsafe

/-- **An item that expires early**: `a` is set at time 9 with a TTL of 10 seconds, in the
segment that `q` opened at time 0, and is gone at time 10. -/
theorem shared_segment_expires_early :
    (run scStep (segcacheCreate 0 64) [⟨0, .set (oneByte 113) (oneByte 1) 10⟩,
        ⟨9, .set (oneByte 97) (oneByte 65) 10⟩, ⟨10, .get (oneByte 97) 16⟩]).map (fun r => r.2)
      = some [.ok true, .ok true, .value .miss] ∧
    10 < 9 + bucketToTtlSeconds (ttlToBucket 10) := by
  decide +kernel

/-! ### TTL buckets -/

def bucketWidth (s : Nat) : Nat :=
  if s < 60 then 1 else if s < 600 then 10 else if s < 3600 then 60 else 3600

/-- Below 861 hours a TTL is rounded down to a multiple of its bucket's width. -/
theorem bucketToTtl_ttlToBucket (h : s < 3099600) :
    bucketToTtlSeconds (ttlToBucket s) = s / bucketWidth s * bucketWidth s := by
  unfold ttlToBucket bucketToTtlSeconds bucketWidth SEG_TTL_BUCKETS
  split_ifs <;> omega

theorem bucketToTtl_mono {s s' : Nat} (hle : s' ≤ s) (h : s < 3099600) :
    bucketToTtlSeconds (ttlToBucket s') ≤ bucketToTtlSeconds (ttlToBucket s) := by
  rw [bucketToTtl_ttlToBucket h, bucketToTtl_ttlToBucket (lt_of_le_of_lt hle h)]
  unfold bucketWidth
  split_ifs <;> omega

/-- From 861 hours on the bucket has wrapped. -/
theorem bucketToTtl_wrapped (h : 3099600 ≤ s) :
    bucketToTtlSeconds (ttlToBucket s) + 3600 ≤ s := by
  have hlt := ttlToBucket_lt s
  unfold SEG_TTL_BUCKETS at hlt
  unfold bucketToTtlSeconds
  split_ifs <;> omega

theorem bucketToTtl_le (s : Nat) : bucketToTtlSeconds (ttlToBucket s) ≤ s := by
  rcases lt_or_ge s 3099600 with h | h
  · rw [bucketToTtl_ttlToBucket h]
    exact div_mul_le_self s _
  · exact (le_add_right _ _).trans (bucketToTtl_wrapped h)

theorem bucketToTtl_pos {b : Nat} : 0 < bucketToTtlSeconds b ↔ b ≠ 0 := by
  unfold bucketToTtlSeconds
  split_ifs <;> omega

/-- **TTLs are quantised**, without loss of order below 861 hours; from there on they alias. -/
theorem ttl_quantised (s : Nat) (hpos : 0 < s) :
    ttlToBucket s < SEG_TTL_BUCKETS ∧
    (s < 3099600 → ttlToBucket s ≠ 0 ∧ 0 < bucketToTtlSeconds (ttlToBucket s) ∧
      bucketToTtlSeconds (ttlToBucket s) ≤ s ∧
      s < bucketToTtlSeconds (ttlToBucket s) + bucketWidth s ∧
      ∀ s' ≤ s, bucketToTtlSeconds (ttlToBucket s') ≤ bucketToTtlSeconds (ttlToBucket s)) ∧
    (3099600 ≤ s → ttlToBucket s ≠ 0 → 0 < bucketToTtlSeconds (ttlToBucket s) ∧
      bucketToTtlSeconds (ttlToBucket s) + bucketWidth s ≤ s) := by
  refine ⟨ttlToBucket_lt s, fun hs => ?_, fun hs hne => ⟨bucketToTtl_pos.mpr hne, ?_⟩⟩
  · have hne : ttlToBucket s ≠ 0 := by
      unfold ttlToBucket SEG_TTL_BUCKETS
      split_ifs <;> omega
    have hround := bucketToTtl_ttlToBucket hs
    have hwidth : 0 < bucketWidth s := by
      unfold bucketWidth
      split_ifs <;> decide
    refine ⟨hne, bucketToTtl_pos.mpr hne, bucketToTtl_le s, ?_,
      fun s' hle => bucketToTtl_mono hle hs⟩
    rw [hround]
    exact lt_div_mul_add hwidth
  · have hwidth : bucketWidth s = 3600 := by
      unfold bucketWidth
      rw [if_neg (by omega), if_neg (by omega), if_neg (by omega)]
    rw [hwidth]
    exact bucketToTtl_wrapped hs

theorem ttl_quantised_day : bucketToTtlSeconds (ttlToBucket 86400) ≤ 86400 :=
  ((ttl_quantised 86400 (by decide)).2.1 (by decide)).2.2.1

/-- 861 hours are stored as no TTL, 862 hours as one second. -/
theorem ttl_wraps : ttlToBucket 3099600 = 0 ∧ bucketToTtlSeconds (ttlToBucket 3103200) = 1 := by
  decide

end NexCache.Segcache
