import NexCache.Segcache.Refine

/-!
# When a set fails

A set that returns `-1` found no free segment, or its bucket full of other keys
(`set_fails_only_when_full`).  `ht_insert` takes a slot of the bucket only if its bit is
clear, and does not clear the bits of entries whose segment has expired as the lookups
do; `BucketLive` is the condition that the bucket is not blocked by such entries.

`callSafe_of_no_expiry`: as long as no segments are returned to the queue, every set
whose item fits a segment is safe.
-/

namespace NexCache.Segcache

open Machine Buffer Lockfree Runs Option

/-! ### What a client sees -/

theorem segcacheGet_snd (sc : NexSegcache) (key : Bytes) (bufLen now : Nat) :
    (segcacheGet sc key bufLen now).2
      = ((htFind sc key now).2.map fun e => segRead sc e bufLen).getD .miss := by
  have hseg := segments_htFind sc key now
  unfold segcacheGet
  split
  · rename_i h
    rw [h]
    rfl
  · rename_i sc' e h
    rw [h] at hseg ⊢
    have hseg : sc'.segments = sc.segments := hseg
    simp only [segRead, hseg, map_some, getD_some]

variable {sc sc' : NexSegcache} {m : Bytes → Option Bytes}

variable (h : Served sc m)
include h

theorem Served.htFind_keeps (hk : Keeps sc sc') (key : Bytes) (now : Nat) :
    (Segcache.htFind sc' key now).2 = (Segcache.htFind sc key now).2 := by
  have hscan' := h.htScan_keeps hk key
  cases hscan : htScan sc key with
  | none =>
    rw [hscan] at hscan'
    simp only [Segcache.htFind, hscan, hscan']
  | some s =>
    rw [hscan] at hscan'
    obtain ⟨_, e, hc, hslot, _⟩ := htScan_some hscan
    have hslot' : (sc'.hashTable (globalIdx (segHash key))).slots s = e := by
      rw [hk.hashTable, hslot]
    rw [htFind_of_scan now hscan hslot, htFind_of_scan now hscan' hslot', (hk.age hc).1,
      (hk.age hc).2]
    split <;> dsimp only

/-- **Nothing observable changes** if what is indexed stays. -/
theorem Served.observe_keeps (hk : Keeps sc sc') (key : Bytes) (bufLen now : Nat) :
    (segcacheGet sc' key bufLen now).2 = (segcacheGet sc key bufLen now).2 ∧
      (segcacheExists sc' key now).2 = (segcacheExists sc key now).2 := by
  have hfind := h.htFind_keeps hk key now
  refine ⟨?_, ?_⟩
  · rw [segcacheGet_snd, segcacheGet_snd, hfind]
    cases hfound : (Segcache.htFind sc key now).2 with
    | none => rw [map_none, map_none]
    | some e =>
      obtain ⟨_, s, r, hc, hp, _, _⟩ := (h.htFind key now).2 e hfound
      show segRead sc' e bufLen = segRead sc e bufLen
      rw [hp.segRead, (hk.points hc hp).segRead]
  · show (Segcache.htFind sc' key now).2.isSome = (Segcache.htFind sc key now).2.isSome
    rw [hfind]

variable {key : Bytes} {r : SegRecord}

/-- Indexing a record of another key. -/
theorem Served.htScan_insert {idx off : Nat}
    (hp : Points sc (globalIdx (segHash r.key)) ⟨keyFp (segHash r.key), idx, off⟩ r)
    (hidx : idx < 2 ^ 16) (hins : Segcache.htInsert sc r.key idx off = some sc')
    (hne : key ≠ r.key) :
    htScan sc' key = htScan sc key ∧ ∀ s, htScan sc key = some s →
      sc'.cell (globalIdx (segHash key)) s = sc.cell (globalIdx (segHash key)) s := by
  obtain ⟨hseg, _⟩ := htInsert_some hins
  have hmatches : ∀ e, entryMatches sc' key e = entryMatches sc key e := by
    intro e
    simp only [entryMatches, hseg]
  have hsame : ∀ s, htScan sc key = some s →
      sc'.cell (globalIdx (segHash key)) s = sc.cell (globalIdx (segHash key)) s := by
    intro s hscan
    obtain ⟨_, e, hc, _, hm⟩ := htScan_some hscan
    obtain ⟨r', hp', _⟩ := h.points _ _ e hc
    rw [hc]
    exact cell_htInsert_other hins hc hp' ((hp'.entryMatches_iff key).mp hm ▸ hne)
  refine ⟨?_, hsame⟩
  cases hscan : htScan sc key with
  | some s =>
    obtain ⟨_, e, hc, _, hm⟩ := htScan_some hscan
    refine (h.htInsert hp hidx hins).htScan_eq (e := e) ?_ ?_
    · rw [hsame s hscan, hc]
    · rw [hmatches, hm]
  | none =>
    cases hscan' : htScan sc' key with
    | none => rfl
    | some s =>
      obtain ⟨_, e, hc, _, hm⟩ := htScan_some hscan'
      rw [hmatches] at hm
      rw [htScan_none hscan (cell_of_htInsert hp hidx hins hne hc hm)] at hm
      cases hm

variable {value : Bytes}

/-- **A set leaves the other keys as they are.** -/
theorem Served.observe_set (harr : Arranged sc) {ttlSeconds now : Nat}
    (hsafe : SetSafe sc key value ttlSeconds)
    (hset : segcacheSet sc key value ttlSeconds now = (sc', true)) {key' : Bytes} (hne : key' ≠ key)
    (bufLen now' : Nat) :
    (segcacheGet sc' key' bufLen now').2 = (segcacheGet sc key' bufLen now').2 := by
  obtain ⟨place, free, lists, hp⟩ := harr
  have hout := h.set_outcome hp hsafe now
  rw [hset] at hout
  cases hout with
  | @stored sc₁ sc₂ _ place' i _ _ hkeeps _ _ hidx hpoints hins =>
    have h₂ := h.keeps hkeeps
    obtain ⟨hscan, hcell⟩ := h₂.htScan_insert hpoints hidx hins hne
    obtain ⟨hseg, _, _⟩ := htInsert_some hins
    rw [← (h.observe_keeps hkeeps key' bufLen now').1, segcacheGet_snd, segcacheGet_snd]
    have hread : ∀ e, segRead sc' e bufLen = segRead sc₂ e bufLen := by
      intro e
      simp only [segRead, hseg]
    have hfind : (Segcache.htFind sc' key' now').2 = (Segcache.htFind sc₂ key' now').2 := by
      cases hs : htScan sc₂ key' with
      | none =>
        rw [hs] at hscan
        simp only [Segcache.htFind, hs, hscan]
      | some s =>
        obtain ⟨_, e, hc, hslot, _⟩ := htScan_some hs
        have hc' := (hcell s hs).trans hc
        rw [hs] at hscan
        rw [htFind_of_scan now' hs hslot,
          htFind_of_scan now' hscan (Masked.cell_eq_some_iff.mp hc').2, hseg]
        split <;> dsimp only
    rw [hfind]
    simp only [hread]

omit h

/-! ### Failures -/

/-- The segment that the entry leads into has expired, as the lookups test it. -/
def entryExpired (sc : NexSegcache) (e : SegHashEntry) (now : Nat) : Bool :=
  ttlExpired (bucketToTtlSeconds (sc.segments e.segIdx).ttlBucket)
    (sc.segments e.segIdx).createTime now

/-- If the bucket of the key is full without the key, none of its entries has expired. -/
def BucketLive (sc : NexSegcache) (key : Bytes) (now : Nat) : Prop :=
  htScan sc key = none →
    (∀ s < 8, (sc.cell (globalIdx (segHash key)) s).isSome = true) →
    ∀ s < 8, ∀ e ∈ sc.cell (globalIdx (segHash key)) s, entryExpired sc e now = false

instance (sc : NexSegcache) (key : Bytes) (now : Nat) : Decidable (BucketLive sc key now) :=
  inferInstanceAs (Decidable (_ → _))

variable {g s now : Nat} {e : SegHashEntry}

/-- A live entry's key exists. -/
theorem Served.exists_of_cell (h : Served sc m) (hc : sc.cell g s = some e)
    (hp : Points sc g e r) (hlive : entryExpired sc e now = false) :
    (segcacheExists sc r.key now).2 = true := by
  have hhome := hp.home
  subst hhome
  have hscan := h.htScan_eq hc ((hp.entryMatches_iff r.key).mpr rfl)
  have hslot := (Masked.cell_eq_some_iff.mp hc).2
  show (Segcache.htFind sc r.key now).2.isSome = true
  rw [htFind_of_scan now hscan hslot, if_neg]
  · rfl
  · show ¬ entryExpired sc e now = true
    rw [hlive]
    simp

/-- Eight other keys, all of them stored and unexpired, share the bucket of the key. -/
def FullOfOthers (sc : NexSegcache) (key : Bytes) (now : Nat) : Prop :=
  ∃ keys : Fin SEG_ITEMS_PER_BUCKET → Bytes, Function.Injective keys ∧ ∀ s,
    keys s ≠ key ∧ globalIdx (segHash (keys s)) = globalIdx (segHash key) ∧
      (segcacheExists sc (keys s) now).2 = true

theorem Served.fullOfOthers (h : Served sc m) (hlive : BucketLive sc key now)
    (hscan : htScan sc key = none)
    (hfull : ∀ s < 8, ∃ e, sc.cell (globalIdx (segHash key)) s = some e) :
    FullOfOthers sc key now := by
  have hrec : ∀ s : Fin 8, ∃ r : SegRecord, ∃ e,
      sc.cell (globalIdx (segHash key)) s = some e ∧ Points sc (globalIdx (segHash key)) e r := by
    intro s
    obtain ⟨e, hc⟩ := hfull s s.isLt
    obtain ⟨r, hp, _⟩ := h.points _ _ e hc
    exact ⟨r, e, hc, hp⟩
  choose recs hrecs using hrec
  refine ⟨fun s => (recs s).key, fun s s' heq => ?_, fun s => ?_⟩
  · obtain ⟨e, hc, hp⟩ := hrecs s
    obtain ⟨e', hc', hp'⟩ := hrecs s'
    have heq : (recs s).key = (recs s').key := heq
    have hm := (hp.entryMatches_iff (recs s).key).mpr rfl
    have hm' := (hp'.entryMatches_iff (recs s).key).mpr heq.symm
    rw [← hp.home] at hc hc'
    exact Fin.ext (h.unique _ _ _ e e' hc hc' hm hm')
  · obtain ⟨e, hc, hp⟩ := hrecs s
    have hsome : ∀ s < 8, (sc.cell (globalIdx (segHash key)) s).isSome = true := by
      intro s hs
      obtain ⟨e, hc⟩ := hfull s hs
      rw [hc]
      rfl
    refine ⟨fun hkey => ?_, hp.home, h.exists_of_cell hc hp (hlive hscan hsome s s.isLt e hc)⟩
    have hno := htScan_none hscan hc
    rw [(hp.entryMatches_iff key).mpr hkey] at hno
    cases hno

/-! ### Runs without expiry -/

/-- The indexed segments are in lists, none of them in the queue. -/
structure Housed (size : Nat) (sc : NexSegcache) : Prop where
  logged : Logged size sc
  served : ∃ m, Served sc m
  housed : ∃ place free lists, Placed sc place free lists ∧
    ∀ g s e, sc.cell g s = some e → place e.segIdx ≠ none

variable {size : Nat}

/-- A set fits if its item fits a segment. -/
theorem Logged.setFits (h : Logged size sc) (ttlSeconds : Nat) (hword : size + 2 ^ 18 ≤ 2 ^ 32)
    (hitem : itemSize key value ≤ size) :
    SetFits sc key value ttlSeconds := by
  have hsmall := itemSize_lt key value
  refine ⟨fun i _ => ?_, fun _ i _ => ?_⟩
  · have hin := h.inside i
    rw [h.dataSize i] at hin
    omega
  · rw [h.dataSize i]
    exact hitem

theorem Housed.setSafe (h : Housed size sc) (ttlSeconds : Nat) (hword : size + 2 ^ 18 ≤ 2 ^ 32)
    (hitem : itemSize key value ≤ size) :
    SetSafe sc key value ttlSeconds := by
  obtain ⟨place, free, lists, hp, hhouse⟩ := h.housed
  refine ⟨h.logged.setFits ttlSeconds hword hitem, fun _ i hnext g s e hc hi => ?_⟩
  rw [hp.nextFree] at hnext
  exact hhouse g s e hc (hi ▸ ((hp.mem_free i).mp (List.mem_of_head? hnext)).2)

theorem cell_of_htFind (h : (htFind sc key now).1.cell g s = some e) : sc.cell g s = some e := by
  cases hscan : htScan sc key with
  | none =>
    simp only [htFind, hscan] at h
    exact h
  | some s' =>
    obtain ⟨hs', _, _, hslot, _⟩ := htScan_some hscan
    rw [htFind_of_scan now hscan hslot] at h
    split at h
    · exact (cell_of_htClear hs' h).1
    · exact h

theorem cell_of_segcacheDel (h : (segcacheDel sc key).1.cell g s = some e) :
    sc.cell g s = some e := by
  cases hscan : htScan sc key with
  | none =>
    simp only [segcacheDel, hscan] at h
    exact h
  | some s' =>
    simp only [segcacheDel, hscan] at h
    exact (cell_of_htClear (htScan_some hscan).1 h).1

/-- A call that returns no segments to the queue and whose item fits a segment. -/
def Plain (size : Nat) (e : ScEvent) : Prop :=
  match e.call with
  | .set key value _ => itemSize key value ≤ size
  | .expireSegments => False
  | _ => True

theorem Housed.callSafe (hword : size + 2 ^ 18 ≤ 2 ^ 32) (h : Housed size sc) {e : ScEvent}
    (hplain : Plain size e) : CallSafe sc e := by
  obtain ⟨now, call⟩ := e
  cases call with
  | set key value ttlSeconds => exact h.setSafe ttlSeconds hword hplain
  | _ => trivial

theorem CallSafe.fits {e : ScEvent} (h : CallSafe sc e) : CallFits sc e := by
  obtain ⟨now, call⟩ := e
  cases call with
  | set key value ttlSeconds => exact SetSafe.fits h
  | _ => trivial

theorem Housed.step (hword : size + 2 ^ 18 ≤ 2 ^ 32) {e : ScEvent} {r : ScReply}
    (h : Housed size sc) (hplain : Plain size e)
    (hstep : scStep sc e = some (sc', r)) : Housed size sc' := by
  have hsafe := h.callSafe hword hplain
  obtain ⟨m, hserved⟩ := h.served
  obtain ⟨place, free, lists, hp, hhouse⟩ := h.housed
  have hlogged : Logged size sc' := h.logged.stepped hsafe.fits hstep
  have hserved' : ∃ m', Served sc' m' := (hserved.stepped h.logged.arranged hsafe hstep).2
  refine ⟨hlogged, hserved', ?_⟩
  obtain ⟨now, call⟩ := e
  cases call with
  | set key value ttlSeconds =>
    have hout := hserved.set_outcome hp hsafe now
    obtain rfl : (segcacheSet sc key value ttlSeconds now).1 = sc' :=
      congrArg Prod.fst (some.inj hstep)
    generalize segcacheSet sc key value ttlSeconds now = out at hout
    cases hout with
    | failed hkeeps hplace _ =>
      obtain ⟨⟨free', lists', hp'⟩, hstay⟩ := hplace
      refine ⟨_, free', lists', hp', fun g s e hc => ?_⟩
      rw [hkeeps.cell] at hc
      have hne := hhouse g s e hc
      rwa [hstay _ hne]
    | stored _ _ hkeeps hplace hin hidx _ hins =>
      obtain ⟨⟨free', lists', hp'⟩, hstay⟩ := hplace
      obtain ⟨_, _, s₀, hcell, _⟩ := htInsert_some hins
      refine ⟨_, free', lists', hp', fun g s e hc => ?_⟩
      rw [hcell] at hc
      split at hc
      · obtain rfl := some.inj hc
        simp only [Nat.mod_eq_of_lt hidx, hin]
        simp
      · rw [hkeeps.cell] at hc
        have hne := hhouse g s e hc
        rwa [hstay _ hne]
  | get key bufLen =>
    obtain rfl : (segcacheGet sc key bufLen now).1 = sc' :=
      congrArg Prod.fst (some.inj hstep)
    rw [segcacheGet_fst]
    exact ⟨place, free, lists, hp.congr (sameLinks_htFind sc key now),
      fun g s e hc => hhouse g s e (cell_of_htFind hc)⟩
  | del key =>
    obtain rfl : (segcacheDel sc key).1 = sc' := congrArg Prod.fst (some.inj hstep)
    exact ⟨place, free, lists, hp.congr (sameLinks_segcacheDel sc key),
      fun g s e hc => hhouse g s e (cell_of_segcacheDel hc)⟩
  | «exists» key =>
    obtain rfl : (segcacheExists sc key now).1 = sc' := congrArg Prod.fst (some.inj hstep)
    exact ⟨place, free, lists, hp.congr (sameLinks_htFind sc key now),
      fun g s e hc => hhouse g s e (cell_of_htFind hc)⟩
  | expireSegments => exact hplain.elim

theorem housed_create (maxMemory segmentSize : Nat) :
    Housed (segmentBytes segmentSize) (segcacheCreate maxMemory segmentSize) := by
  refine ⟨logged_create maxMemory segmentSize, ⟨_, served_create maxMemory segmentSize⟩, _, _, _,
    placed_create maxMemory segmentSize, fun g s e hc => ?_⟩
  rw [cell_create] at hc
  cases hc

/-- **Without expiry all sets are safe**: it takes a recycled segment for an entry to lead
astray. -/
theorem callSafe_of_no_expiry (maxMemory : Nat) {segmentSize : Nat} {es : List ScEvent}
    (hword : segmentBytes segmentSize + 2 ^ 18 ≤ 2 ^ 32)
    (hes : ∀ e ∈ es, Plain (segmentBytes segmentSize) e) :
    Along scStep CallSafe (segcacheCreate maxMemory segmentSize) es :=
  along_of_invariant (fun _ _ h hplain => h.callSafe hword hplain)
    (fun _ _ _ _ h hplain hstep => h.step hword hplain hstep)
    (housed_create maxMemory segmentSize) hes

/-! ### Why a set fails -/

/-- **Why a set fails, and that a failed set changes nothing**: in every run of safe sets,
a set whose bucket is not blocked by expired entries fails only if no free segment is
left or its bucket is full of other live keys. -/
theorem set_fails_only_when_full (maxMemory segmentSize : Nat) (es : List ScEvent)
    (hsafe : Along scStep CallSafe (segcacheCreate maxMemory segmentSize) es)
    {sc : NexSegcache} {replies : List ScReply}
    (hrun : run scStep (segcacheCreate maxMemory segmentSize) es = some (sc, replies))
    {key value : Bytes} {ttlSeconds now : Nat} (hset : SetSafe sc key value ttlSeconds)
    (hlive : BucketLive sc key now) (hfail : (segcacheSet sc key value ttlSeconds now).2 = false) :
    (nextFree sc = none ∨ FullOfOthers sc key now) ∧
      ∀ k bufLen now',
        (segcacheGet (segcacheSet sc key value ttlSeconds now).1 k bufLen now').2
            = (segcacheGet sc k bufLen now').2 ∧
          (segcacheExists (segcacheSet sc key value ttlSeconds now).1 k now').2
            = (segcacheExists sc k now').2 := by
  obtain ⟨⟨place, free, lists, hp⟩, m, hserved⟩ :
      Arranged sc ∧ ∃ m, Served sc m := by
    refine run_invariant (I := fun sc => Arranged sc ∧ ∃ m, Served sc m) ?_
      ⟨⟨_, _, _, placed_create maxMemory segmentSize⟩, _, served_create maxMemory segmentSize⟩
      hsafe hrun
    rintro sc e sc' r ⟨harr, m, hserved⟩ hcall hstep
    exact hserved.stepped harr hcall hstep
  have hout := hserved.set_outcome hp hset now
  generalize segcacheSet sc key value ttlSeconds now = out at hout hfail ⊢
  cases hout with
  | stored _ _ _ _ _ _ _ _ => cases hfail
  | failed hkeeps _ hwhy =>
    refine ⟨?_, hserved.observe_keeps hkeeps⟩
    rcases hwhy with ⟨_, hnone⟩ | ⟨hscan, hfull⟩
    · exact .inl hnone
    · exact .inr (hserved.fullOfOthers hlive hscan hfull)

/-- Eight keys whose hashes agree in the bits that select the bucket. -/
def sameBucket : List Bytes :=
  [⟨[122, 100, 119], by decide⟩, ⟨[100, 105, 102, 100], by decide⟩, ⟨[101, 98, 108, 98], by decide⟩,
    ⟨[102, 99, 116, 114], by decide⟩, ⟨[103, 100, 122, 104], by decide⟩,
    ⟨[104, 104, 108, 111], by decide⟩, ⟨[104, 112, 106, 97], by decide⟩,
    ⟨[104, 114, 120, 121], by decide⟩]

/-- A ninth. -/
def ninthKey : Bytes := ⟨[105, 99, 102, 101], by decide⟩

/-- The eight keys are stored at time 0. -/
def fillBucket (ttlSeconds : Nat) : List ScEvent :=
  sameBucket.map fun key => ⟨0, .set key (oneByte 1) ttlSeconds⟩

theorem plain_fillBucket (ttlSeconds : Nat) :
    ∀ e ∈ fillBucket ttlSeconds, Plain (segmentBytes 1024) e := by
  intro e he
  obtain ⟨key, hkey, rfl⟩ := List.mem_map.mp he
  have hall : ∀ key ∈ sameBucket, itemSize key (oneByte 1) ≤ segmentBytes 1024 := by
    decide +kernel
  exact hall key hkey

theorem set_fails_only_when_full_ninth_key :
    ∃ sc replies, run scStep (segcacheCreate 0 1024) (fillBucket 0) = some (sc, replies) ∧
      (segcacheSet sc ninthKey (oneByte 1) 0 1).2 = false ∧
      (nextFree sc = none ∨ FullOfOthers sc ninthKey 1) := by
  have heval : (run scStep (segcacheCreate 0 1024) (fillBucket 0)).map (fun r =>
      ((segcacheSet r.1 ninthKey (oneByte 1) 0 1).2, decide (BucketLive r.1 ninthKey 1)))
        = some (false, true) := by
    decide +kernel
  obtain ⟨⟨sc, replies⟩, hrun, hval⟩ := map_eq_some_iff.mp heval
  obtain ⟨hfail, hlive⟩ := Prod.mk.inj hval
  have hword : segmentBytes 1024 + 2 ^ 18 ≤ 2 ^ 32 := by decide
  refine ⟨sc, replies, hrun, hfail, ?_⟩
  refine (set_fails_only_when_full 0 1024 (fillBucket 0) ?_ hrun ?_ (of_decide_eq_true hlive)
    hfail).1
  · exact callSafe_of_no_expiry 0 hword (plain_fillBucket 0)
  · have hhoused : Housed (segmentBytes 1024) sc :=
      run_invariant (C := fun _ e => Plain (segmentBytes 1024) e)
        (fun _ _ _ _ h hp hstep => h.step hword hp hstep) (housed_create 0 1024)
        (along_of_forall fun e he _ => plain_fillBucket 0 e he) hrun
    exact hhoused.setSafe 0 hword (by decide)

/-- **Expired entries block a bucket**: segments are free and none of the eight keys
exists any more, and the set fails. -/
theorem expired_bucket_blocks :
    (run scStep (segcacheCreate 0 1024) (fillBucket 1)).map (fun r =>
        (r.2, nextFree r.1, sameBucket.map fun key => (segcacheExists r.1 key 100).2,
          (segcacheSet r.1 ninthKey (oneByte 1) 1 100).2))
      = some (List.replicate 8 (.ok true), some 1, List.replicate 8 false, false) := by
  decide +kernel

end NexCache.Segcache
