import NexCache.Segcache.Index

/-!
# What the segment cache serves

`Serves` is what a client may rely on: a hit is the value of the last successful set of
the key, and the key has not been deleted since.  The cache keeps to it as long as no
set takes a segment that the index still leads into (`SetSafe`): expiry returns segments
to the free queue without clearing the entries of their records, and `seg_alloc` hands
them out again.

`get_serves_latest`: in every run whose sets are safe, every reply is as `Serves` says.
-/

namespace NexCache.Segcache

open Machine Buffer Lockfree Runs Function List Option

/-! ### Safe sets -/

/-- The set fits, and a fresh segment, if one is needed, is not indexed any more. -/
structure SetSafe (sc : NexSegcache) (key value : Bytes) (ttlSeconds : Nat) : Prop where
  fits : SetFits sc key value ttlSeconds
  unindexed : needsFresh sc (shardId (segHash key)) (ttlToBucket ttlSeconds)
      (itemSize key value) = true →
    ∀ i, nextFree sc = some i → ∀ g s e, sc.cell g s = some e → e.segIdx ≠ i

def CallSafe (sc : NexSegcache) (e : ScEvent) : Prop :=
  match e.call with
  | .set key value ttlSeconds => SetSafe sc key value ttlSeconds
  | _ => True

variable {sc sc' : NexSegcache} {place : Place} {free : List Nat} {lists : Nat → Nat → List Nat}

theorem Acquires.lt (hp : Placed sc place free lists) {shard b size now idx : Nat}
    (h : Acquires sc place free lists shard b size now (sc', some idx)) :
    idx < sc'.nSegments ∧ idx < 2 ^ 16 := by
  have hlt : idx < sc.nSegments := by
    cases h with
    | head _ hhead => exact ((hp.mem_list _ _ idx).mp (hp.head_mem hhead)).1
    | fresh _ hfree _ _ => exact ((hp.mem_free idx).mp (by rw [hfree]; simp)).1
  refine ⟨?_, hp.lt_size hlt⟩
  cases h with
  | head _ _ => exact hlt
  | fresh _ _ hfresh _ =>
    rw [hfresh.nSegments]
    exact hlt

variable {key value : Bytes} {now ttlSeconds : Nat} {r : SegRecord}

theorem SetSafe.acquire_keeps (hsafe : SetSafe sc key value ttlSeconds)
    (hp : Placed sc place free lists) {r : NexSegcache × Option Nat}
    (hacq : Acquires sc place free lists (shardId (segHash key)) (ttlToBucket ttlSeconds)
      (itemSize key value) now r) : Keeps sc r.1 := by
  cases hacq with
  | empty _ _ | head _ _ => exact .refl sc
  | fresh hneeds hfree hfresh _ =>
    exact hfresh.keeps (hsafe.unindexed hneeds _ (by rw [hp.nextFree, hfree]; rfl))

/-- The segments in `sc'` are arranged so that those in a list stay where `place` has them. -/
def StaysPlaced (place : Place) (sc' : NexSegcache) (place' : Place) : Prop :=
  (∃ free lists, Placed sc' place' free lists) ∧ ∀ i, place i ≠ none → place' i = place i

/-- **What a safe set does.**  It fails and what is indexed stays, or it appends a record
and indexes it. -/
inductive SetOutcome (sc : NexSegcache) (place : Place) (r : SegRecord) (now : Nat) :
    NexSegcache × Bool → Prop
  | failed {sc' : NexSegcache} {place' : Place} (hkeeps : Keeps sc sc')
      (hplace : StaysPlaced place sc' place')
      (hwhy : needsFresh sc (shardId (segHash r.key)) r.bucket r.size = true ∧
          nextFree sc = none ∨
        htScan sc r.key = none ∧
          ∀ s < 8, ∃ e, sc.cell (globalIdx (segHash r.key)) s = some e) :
      SetOutcome sc place r now (sc', false)
  | stored {sc₁ sc₂ sc' : NexSegcache} {place' : Place} {idx : Nat}
      (hacq : segAcquire sc (shardId (segHash r.key)) r.bucket r.size now = (sc₁, some idx))
      (happ : sc₂ = sc₁.setSegment idx (appended (sc₁.segments idx) r))
      (hkeeps : Keeps sc sc₂) (hplace : StaysPlaced place sc' place')
      (hin : place' idx = some (shardId (segHash r.key), r.bucket)) (hidx : idx < 2 ^ 16)
      (hpoints : Points sc₂ (globalIdx (segHash r.key))
        ⟨keyFp (segHash r.key), idx, (sc₁.segments idx).writeOffset⟩ r)
      (hins : htInsert sc₂ r.key idx (sc₁.segments idx).writeOffset = some sc') :
      SetOutcome sc place r now (sc', true)

/-- Acquiring a segment does not move the others. -/
theorem Acquires.staysPlaced {sc sc' sc'' : NexSegcache} (hp : Placed sc place free lists)
    {shard b size now idx : Nat} (h : Acquires sc place free lists shard b size now (sc', some idx))
    (hlinks : SameLinks sc' sc'') :
    ∃ place', StaysPlaced place sc'' place' ∧ place' idx = some (shard, b) := by
  cases h with
  | head _ hhead =>
    exact ⟨place, ⟨⟨free, lists, hp.congr hlinks⟩, fun _ _ => rfl⟩,
      ((hp.mem_list _ _ idx).mp (hp.head_mem hhead)).2⟩
  | fresh _ hfree _ hplaced =>
    refine ⟨_, ⟨⟨_, _, hplaced.congr hlinks⟩, fun i hi => ?_⟩, update_self ..⟩
    refine update_of_ne ?_ _ _
    rintro rfl
    exact hi ((hp.mem_free i).mp (by rw [hfree]; simp)).2

/-- The record that a set writes. -/
def setRecord (key value : Bytes) (ttlSeconds : Nat) : SegRecord :=
  ⟨key, value, ttlToBucket ttlSeconds, ttlToBucket_lt ttlSeconds⟩

theorem points_appended {idx : Nat} (hlt : idx < sc.nSegments)
    (hword : (sc.segments idx).writeOffset + r.size < 2 ^ 32) :
    Points (sc.setSegment idx (appended (sc.segments idx) r)) (globalIdx (segHash r.key))
      ⟨keyFp (segHash r.key), idx, (sc.segments idx).writeOffset⟩ r := by
  have hself : (sc.setSegment idx (appended (sc.segments idx) r)).segments idx
      = appended (sc.segments idx) r := update_self ..
  refine ⟨hlt, rfl, rfl, ?_, ?_⟩
  · rw [hself, ← r.length_bytes]
    exact readBytes_write ..
  · rw [hself, writeOffset_appended hword]

variable {m : Bytes → Option Bytes}

theorem Served.set_outcome (h : Served sc m) (hp : Placed sc place free lists)
    (hsafe : SetSafe sc key value ttlSeconds) (now : Nat) :
    SetOutcome sc place (setRecord key value ttlSeconds) now
      (segcacheSet sc key value ttlSeconds now) := by
  rcases hp.set_cases key value ttlSeconds now with ⟨sc₁, hacq, heq⟩ | ⟨sc₁, idx, hsc₁, hacq, heq⟩
  · rw [heq]
    have hkeeps := hsafe.acquire_keeps hp hacq
    cases hacq with
    | empty hneeds hfree =>
      refine .failed hkeeps ⟨⟨free, lists, hp⟩, fun _ _ => rfl⟩ (.inl ⟨hneeds, ?_⟩)
      rw [hp.nextFree, hfree]
      rfl
  · rw [heq]
    obtain ⟨hlt, hidx⟩ := hacq.lt hp
    have hword := (hsafe.fits.inside hp hacq).1
    have hkeeps : Keeps sc sc₁ := hsafe.acquire_keeps hp hacq
    set r := setRecord key value ttlSeconds
    have hwrites := writes_segWrite sc₁ idx r
    obtain ⟨place', hplace, hin⟩ := hacq.staysPlaced hp
      (sameLinks_segWrite sc₁ idx key value (ttlToBucket ttlSeconds))
    show SetOutcome _ _ _ _ (segWrite sc₁ idx r.key r.value r.bucket)
    change StaysPlaced _ (segWrite sc₁ idx r.key r.value r.bucket).1 _ at hplace
    generalize segWrite sc₁ idx _ _ _ = out at hwrites hplace ⊢
    cases hwrites with
    | stored hins =>
      exact .stored hsc₁ rfl (hkeeps.trans (keeps_appended sc₁ hword)) hplace hin hidx
        (points_appended hlt hword) hins
    | full hins =>
      obtain ⟨hscan, hfull⟩ := htInsert_none hins
      have hall := hkeeps.trans (keeps_appended sc₁ (r := r) hword)
      refine .failed (hkeeps.trans (keeps_takenBack sc₁ hword)) hplace
        (.inr ⟨?_, fun s hs => ?_⟩)
      · rw [← h.htScan_keeps hall]
        exact hscan
      · obtain ⟨e, he⟩ := hfull s hs
        rw [hall.cell] at he
        exact ⟨e, he⟩

theorem Served.of_outcome (h : Served sc m) {out : NexSegcache × Bool}
    (hout : SetOutcome sc place r now out) :
    Served out.1 (if out.2 = true then update m r.key (some r.value) else m) := by
  cases hout with
  | failed hkeeps _ _ => exact h.keeps hkeeps
  | stored _ _ hkeeps _ _ hidx hpoints hins => exact (h.keeps hkeeps).htInsert hpoints hidx hins

/-! ### Lookups -/

theorem htFind_of_scan {s : Nat} {e : SegHashEntry} (now : Nat) (hscan : htScan sc key = some s)
    (hslot : (sc.hashTable (globalIdx (segHash key))).slots s = e) :
    htFind sc key now
      = if ttlExpired (bucketToTtlSeconds (sc.segments e.segIdx).ttlBucket)
            (sc.segments e.segIdx).createTime now = true
        then (htClear sc key s, none) else (sc, some e) := by
  simp only [htFind, hscan, hslot]

variable (h : Served sc m)
include h

/-- What a lookup returns, and what it leaves. -/
theorem Served.htFind (key : Bytes) (now : Nat) :
    Served (htFind sc key now).1 m ∧
      ∀ e, (htFind sc key now).2 = some e → (Segcache.htFind sc key now).1 = sc ∧
        ∃ s r, sc.cell (globalIdx (segHash key)) s = some e ∧
          Points sc (globalIdx (segHash key)) e r ∧ r.key = key ∧ m key = some r.value := by
  cases hscan : htScan sc key with
  | none =>
    have hfind : Segcache.htFind sc key now = (sc, none) := by simp only [Segcache.htFind, hscan]
    rw [hfind]
    exact ⟨h, nofun⟩
  | some s =>
    obtain ⟨hs, e, hc, hslot, hm⟩ := htScan_some hscan
    rw [htFind_of_scan now hscan hslot]
    split
    · exact ⟨h.htClear key hs, nofun⟩
    · refine ⟨h, fun e' he => ⟨rfl, ?_⟩⟩
      obtain rfl := some.inj he
      obtain ⟨r, hp, hmr⟩ := h.points _ s e hc
      obtain rfl := (hp.entryMatches_iff key).mp hm
      exact ⟨s, r, hc, hp, rfl, hmr⟩

/-- A hit is the value of the record, if the buffer is long enough. -/
theorem Served.get (key : Bytes) (bufLen now : Nat) :
    (segcacheGet sc key bufLen now).2 = .miss ∨
      ∃ value, m key = some value ∧ (segcacheGet sc key bufLen now).2
        = if value.len > bufLen then .tooLong value.len else .hit value.bytes := by
  obtain ⟨_, hfound⟩ := h.htFind key now
  cases hfind : Segcache.htFind sc key now with
  | mk sc' found =>
    rw [hfind] at hfound
    cases found with
    | none =>
      refine .inl ?_
      simp only [segcacheGet, hfind]
    | some e =>
      obtain ⟨rfl, _, r, _, hp, rfl, hm⟩ := hfound e rfl
      refine .inr ⟨r.value, hm, ?_⟩
      simp only [segcacheGet, hfind]
      exact hp.segRead bufLen

theorem Served.exists (hfound : (segcacheExists sc key now).2 = true) : (m key).isSome := by
  obtain ⟨e, he⟩ := isSome_iff_exists.mp hfound
  obtain ⟨_, _, r, _, _, _, hm⟩ := (h.htFind key now).2 e he
  rw [hm]
  rfl

theorem Served.del (key : Bytes) : Served (segcacheDel sc key).1 (update m key none) := by
  cases hscan : htScan sc key with
  | none =>
    simp only [segcacheDel, hscan]
    exact h.forget fun s e hc => htScan_none hscan hc
  | some s =>
    simp only [segcacheDel, hscan]
    exact (h.htClear key (htScan_some hscan).1).forget fun s' e hc => h.htClear_none hscan hc

omit h

/-! ### Runs -/

/-- **What a client may rely on.**  `m` holds for each key the value of the last set that
succeeded, unless the key was deleted since. -/
def Serves (m : Bytes → Option Bytes) (e : ScEvent) (r : ScReply) (m' : Bytes → Option Bytes) :
    Prop :=
  match e.call, r with
  | .set key value _, .ok done =>
      m' = if done = true then update m key (some value) else m
  | .get key bufLen, .value found => m' = m ∧
      (found = .miss ∨ ∃ value, m key = some value ∧
        found = if value.len > bufLen then .tooLong value.len else .hit value.bytes)
  | .del key, .ok _ => m' = update m key none
  | .exists key, .ok found => m' = m ∧ (found = true → (m key).isSome)
  | .expireSegments, .expired _ => m' = m
  | _, _ => False

theorem Served.step (harr : Arranged sc) (h : Served sc m) {e : ScEvent} (hsafe : CallSafe sc e) :
    ∃ sc' r m', scStep sc e = some (sc', r) ∧ Serves m e r m' ∧ Arranged sc' ∧ Served sc' m' := by
  obtain ⟨sc', r, hstep, harr', _⟩ := harr.step e
  obtain ⟨place, free, lists, hp⟩ := harr
  obtain ⟨now, call⟩ := e
  cases call with
  | set key value ttlSeconds =>
    obtain ⟨rfl, rfl⟩ := result_inj hstep
    have hserved := h.of_outcome (h.set_outcome hp hsafe now)
    exact ⟨_, _, _, rfl, rfl, harr', hserved⟩
  | get key bufLen =>
    obtain ⟨rfl, rfl⟩ := result_inj hstep
    refine ⟨_, _, m, rfl, ⟨rfl, h.get key bufLen now⟩, harr', ?_⟩
    rw [segcacheGet_fst]
    exact (h.htFind key now).1
  | del key =>
    obtain ⟨rfl, rfl⟩ := result_inj hstep
    exact ⟨_, _, _, rfl, rfl, harr', h.del key⟩
  | «exists» key =>
    obtain ⟨rfl, rfl⟩ := result_inj hstep
    exact ⟨_, _, m, rfl, ⟨rfl, h.exists⟩, harr', (h.htFind key now).1⟩
  | expireSegments =>
    obtain ⟨sc₁, total, place', free', lists', heq, _, hexp⟩ := hp.expireSegments now
    have hstep' : scStep sc ⟨now, .expireSegments⟩ = some (sc₁, .expired total) := by
      simp only [scStep, heq, map_some]
    rw [hstep] at hstep'
    obtain ⟨rfl, rfl⟩ := result_inj hstep'
    exact ⟨_, _, m, hstep, rfl, harr', h.keeps hexp.keeps⟩

theorem Served.stepped (harr : Arranged sc) (h : Served sc m) {e : ScEvent} {r : ScReply}
    (hsafe : CallSafe sc e)
    (hstep : scStep sc e = some (sc', r)) : Arranged sc' ∧ ∃ m', Served sc' m' := by
  obtain ⟨sc₁, r₁, m', hstep₁, -, harr', hserved⟩ := h.step harr hsafe
  obtain ⟨rfl, -⟩ := result_inj (hstep₁.symm.trans hstep)
  exact ⟨harr', m', hserved⟩

theorem cell_create (maxMemory segmentSize g s : Nat) :
    (segcacheCreate maxMemory segmentSize).cell g s = none := by
  simp [NexSegcache.cell, segcacheCreate, Masked.cell, Masked.occupied]

theorem served_create (maxMemory segmentSize : Nat) :
    Served (segcacheCreate maxMemory segmentSize) (fun _ => none) := by
  refine ⟨fun g s e hc => ?_, fun key s s' e e' hc _ _ _ => ?_⟩
  all_goals
    rw [cell_create] at hc
    cases hc

/-- **Never a wrong value**: in every run whose sets are safe, a hit is the value of the
last successful set of the key, and the key has not been deleted since. -/
theorem get_serves_latest (maxMemory segmentSize : Nat) (es : List ScEvent)
    (hsafe : Along scStep CallSafe (segcacheCreate maxMemory segmentSize) es) :
    ∃ sc replies m, run scStep (segcacheCreate maxMemory segmentSize) es = some (sc, replies) ∧
      Traces Serves (fun _ => none) es replies m := by
  have hstep : ∀ sc e m, Arranged sc ∧ Served sc m → CallSafe sc e →
      ∃ sc' r m', scStep sc e = some (sc', r) ∧ Serves m e r m' ∧ Arranged sc' ∧ Served sc' m' :=
    fun sc e m hj hc => hj.2.step hj.1 hc
  obtain ⟨sc, replies, m, hrun, htrace, _⟩ := run_traces
    hstep
    ⟨⟨_, _, _, placed_create maxMemory segmentSize⟩, served_create maxMemory segmentSize⟩ hsafe
  exact ⟨sc, replies, m, hrun, htrace⟩

/-- In a new cache a set is safe if its item fits. -/
theorem setSafe_create {maxMemory segmentSize : Nat} (ttlSeconds : Nat)
    (hitem : itemSize key value ≤ segmentBytes segmentSize) :
    SetSafe (segcacheCreate maxMemory segmentSize) key value ttlSeconds := by
  refine ⟨setFits_create ttlSeconds hitem, fun _ i _ g s e hc => ?_⟩
  rw [cell_create] at hc
  cases hc

theorem get_serves_latest_set_get :
    ∃ sc replies m, run scStep (segcacheCreate 1024 64)
        [⟨0, .set (oneByte 107) (oneByte 118) 0⟩, ⟨1, .get (oneByte 107) 16⟩]
          = some (sc, replies) ∧
      Traces Serves (fun _ => none)
        [⟨0, .set (oneByte 107) (oneByte 118) 0⟩, ⟨1, .get (oneByte 107) 16⟩] replies m :=
  get_serves_latest 1024 64 _
    ⟨setSafe_create 0 (by decide), fun _ _ _ => ⟨trivial, fun _ _ _ => trivial⟩⟩

/-! ### A recycled segment answers

`q` and `a` are stored in segment 0 and expire.  Fifteen sets later segment 0 is handed
out again, while the entry of `a` still leads to offset 10 of it; there the next value
of `z` happens to look like an item with key `a`. -/

theorem nodup_pairs {as bs : List Nat} (ha : as.Nodup) (hb : bs.Nodup) :
    (as.flatMap fun a => bs.map fun b => (a, b)).Nodup := ha.product hb

/-- Expiry when a single list is not empty. -/
theorem expireSegments_single {now total : Nat} (shard b : Nat) (hmem : (shard, b) ∈ ttlLists)
    (hempty : ∀ s b', (s, b') ≠ (shard, b) → sc.ttlShards s b' = none)
    (hlist : expireList shard b now sc.nSegments sc (sc.ttlShards shard b) 0 = some (sc', total))
    (hempty' : ∀ s b', (s, b') ≠ (shard, b) → sc'.ttlShards s b' = none) :
    segcacheExpireSegments sc now = some (sc', total) := by
  have hskip : ∀ (ls : List (Nat × Nat)) (sc : NexSegcache) (total : Nat),
      (∀ l ∈ ls, sc.ttlShards l.1 l.2 = none) → ls.foldlM (fun acc l =>
        expireList l.1 l.2 now acc.1.nSegments acc.1 (acc.1.ttlShards l.1 l.2) acc.2)
        (sc, total) = some (sc, total) := by
    intro ls sc total h
    induction ls with
    | nil => rfl
    | cons l ls ih =>
      have hl : expireList l.1 l.2 now sc.nSegments sc none total = some (sc, total) := by
        cases sc.nSegments <;> rfl
      rw [foldlM_cons, h l (by simp), hl]
      exact ih fun l' hl' => h l' (by simp [hl'])
  have hnodup : ttlLists.Nodup := nodup_pairs nodup_range nodup_range
  obtain ⟨pre, post, hsplit⟩ := append_of_mem hmem
  rw [hsplit, nodup_append] at hnodup
  obtain ⟨_, hpost, hpre⟩ := hnodup
  rw [segcacheExpireSegments, hsplit, foldlM_append, hskip pre sc 0]
  · rw [bind_eq_bind, bind_some, foldlM_cons, hlist]
    exact hskip post sc' total fun l hl =>
      hempty' l.1 l.2 fun he => (nodup_cons.mp hpost).1 (he ▸ hl)
  · exact fun l hl => hempty l.1 l.2 fun he => hpre l hl _ (by simp) he

/-- The bytes of an item with key `a` and value `X`, after one byte. -/
def itemInside : Bytes := ⟨0 :: segItem (oneByte 97) (oneByte 88) 0, by decide +kernel⟩

/-- The calls before the expiry and those after it. -/
def storeTwo : List ScEvent :=
  [⟨0, .set (oneByte 113) (oneByte 1) 1⟩, ⟨0, .set (oneByte 97) (oneByte 65) 1⟩]

def reuseSegment : List ScEvent :=
  (range 15).map (fun i => ⟨5, .set (oneByte 122) (oneByte 0) (10 + i)⟩) ++
    [⟨5, .set (oneByte 122) itemInside 50⟩, ⟨6, .get (oneByte 97) 16⟩]

/-- The value that a call sets for a key. -/
def setsFor (key : Bytes) (e : ScEvent) : Option Bytes :=
  match e.call with
  | .set k value _ => if k = key then some value else none
  | _ => none

/-- The state after the two sets. -/
def twoStored : NexSegcache :=
  (segcacheSet (segcacheSet (segcacheCreate 0 64) (oneByte 113) (oneByte 1) 1 0).1
    (oneByte 97) (oneByte 65) 1 0).1

theorem expire_twoStored :
    segcacheExpireSegments twoStored 5 = some (segUnlink twoStored 12 1 0, 2) := by
  have hheads : twoStored.ttlShards = update₂ (fun _ _ => none) 12 1 (some 0) := rfl
  have hlinks : (twoStored.segments 0).next = none ∧ (twoStored.segments 0).prev = none := by
    decide +kernel
  have hsize : twoStored.nSegments = 15 + 1 := by decide +kernel
  have hage : ttlExpired (bucketToTtlSeconds 1) (twoStored.segments 0).createTime 5 = true ∧
      u32 (0 + (twoStored.segments 0).nItems) = 2 := by
    decide +kernel
  refine expireSegments_single 12 1 ?_ ?_ ?_ ?_
  · simp [ttlLists, NEX_RCU_SHARDS, SEG_TTL_BUCKETS]
  · intro s b' hne
    rw [hheads, update₂_of_ne _ _ hne]
  · rw [hsize, hheads, update₂_self, expireList, if_pos hage.1, hlinks.1, hage.2, expireList]
  · intro s b' hne
    rw [(segUnlink_frame twoStored 12 1 0).2.2.2.2, if_pos hlinks.2, update₂_of_ne _ _ hne, hheads,
      update₂_of_ne _ _ hne]

/-- **A wrong value**: the last and only value set for `a` is `A`, and `get` returns `X`. -/
theorem recycled_segment_answers :
    (run scStep (segcacheCreate 0 64) (storeTwo ++ ⟨5, .expireSegments⟩ :: reuseSegment)).map
        (fun r => r.2.getLast?) = some (some (.value (.hit [88]))) ∧
      (storeTwo ++ ⟨5, .expireSegments⟩ :: reuseSegment).filterMap (setsFor (oneByte 97))
        = [oneByte 65] := by
  refine ⟨?_, by decide +kernel⟩
  obtain ⟨rs, htwo⟩ : ∃ rs, run scStep (segcacheCreate 0 64) storeTwo = some (twoStored, rs) := by
    simp only [storeTwo, run, scStep, map_some, twoStored, some.injEq,
      Prod.mk.injEq, true_and, exists_eq']
  have hexpire : scStep twoStored ⟨5, .expireSegments⟩
      = some (segUnlink twoStored 12 1 0, .expired 2) := by
    simp only [scStep, expire_twoStored, map_some]
  have hreuse : (run scStep (segUnlink twoStored 12 1 0) reuseSegment).map
      (fun r => r.2.getLast?) = some (some (.value (.hit [88]))) := by
    decide +kernel
  obtain ⟨⟨sc, replies⟩, hrun, hlast⟩ := map_eq_some_iff.mp hreuse
  have hlast : replies.getLast? = some (.value (.hit [88])) := hlast
  rw [run_middle htwo hexpire hrun, map_some, getLast?_append, getLast?_cons,
    hlast]
  rfl

end NexCache.Segcache
