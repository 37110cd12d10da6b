import Mathlib.Algebra.GroupWithZero.Nat
import Mathlib.Algebra.Order.Group.Int
import Mathlib.Algebra.Ring.Rat
import Mathlib.Data.List.Basic
import Mathlib.Data.List.Induction

/-!
# Time series

`nexts.c`: samples are kept in chunks of 128, in the order they are added.  A chunk knows the
timestamps of its first and its last sample, and retention, queries and aggregates judge a chunk by
these two alone.

The values are doubles; what the aggregates need of them is `DoubleOps`.
-/

namespace NexCache.TimeSeries

open List

/-- `CHUNK_MAX_SAMPLES` -/
def chunkMaxSamples : Nat := 128

structure NexSample (V : Type) where
  timestamp : Int
  value : V
  deriving DecidableEq, Repr

/-- `samples` is the part of `data` that is written, `count` cells. -/
structure NexTSChunk (V : Type) where
  startTime : Int
  endTime : Int
  samples : List (NexSample V)
  deriving DecidableEq, Repr

structure NexTS (V : Type) where
  chunks : List (NexTSChunk V)
  totalSamples : Nat
  retentionMs : Int
  deriving DecidableEq, Repr

class DoubleOps (V : Type) where
  zero : V
  add : V → V → V
  div : V → V → V
  lt : V → V → Bool
  /-- The cast of a `uint64_t`. -/
  ofCount : Nat → V
  ofCount_zero : ofCount 0 = zero

instance : DoubleOps ℚ := ⟨0, (· + ·), (· / ·), fun a b => decide (a < b), Nat.cast, Nat.cast_zero⟩

variable {V β : Type}

def NexTSChunk.count (c : NexTSChunk V) : Nat := c.samples.length

def nextsCreate (retentionMs : Int) : NexTS V := ⟨[], 0, retentionMs⟩

def chunkCreate (startTime : Int) : NexTSChunk V := ⟨startTime, 0, []⟩

/-- The loop of `nexts_apply_retention`. -/
def dropDead (cutoff : Int) : List (NexTSChunk V) → Nat → List (NexTSChunk V) × Nat
  | [], total => ([], total)
  | c :: cs, total => if c.endTime < cutoff then dropDead cutoff cs (total - c.count)
    else (c :: cs, total)

def nextsApplyRetention (ts : NexTS V) (now : Int) : NexTS V :=
  if ts.retentionMs ≤ 0 then ts
  else
    -- the difference of two `int64_t`
    let r := dropDead (Int.bmod (now - ts.retentionMs) (2 ^ 64)) ts.chunks ts.totalSamples
    { ts with chunks := r.1, totalSamples := r.2 }

def NexTSChunk.write (s : NexSample V) (c : NexTSChunk V) : NexTSChunk V :=
  { c with endTime := s.timestamp, samples := c.samples ++ [s] }

/-- The new sample goes to the tail, behind a new one if there is none or it is full. -/
def place (s : NexSample V) (cs : List (NexTSChunk V)) : List (NexTSChunk V) :=
  match cs.getLast? with
  | none => [(chunkCreate s.timestamp).write s]
  | some tail =>
    if chunkMaxSamples ≤ tail.count then cs ++ [(chunkCreate s.timestamp).write s]
    else cs.dropLast ++ [tail.write s]

def nextsAdd (ts : NexTS V) (s : NexSample V) : NexTS V :=
  let ts := nextsApplyRetention ts s.timestamp
  { ts with chunks := place s ts.chunks, totalSamples := ts.totalSamples + 1 }

def inside (start stop : Int) (s : NexSample V) : Bool := start ≤ s.timestamp ∧ s.timestamp ≤ stop

section Walk

variable (start stop : Int) (full : β → Bool) (visit : β → NexSample V → β)

/-- The loop over the samples of a chunk. -/
def walkSamples : List (NexSample V) → β → β
  | [], acc => acc
  | s :: ss, acc =>
    if full acc then acc else walkSamples ss (if inside start stop s then visit acc s else acc)

/-- The loop over the chunks that `nexts_query` and `nexts_aggregate` have in common. -/
def walk : List (NexTSChunk V) → β → β
  | [], acc => acc
  | c :: cs, acc =>
    if full acc then acc
    else if c.endTime < start then walk cs acc
    else if stop < c.startTime then acc
    else walk cs (walkSamples start stop full visit c.samples acc)

end Walk

def nextsQuery (ts : NexTS V) (start stop : Int) : List (NexSample V) :=
  let maxOut := if ts.totalSamples < 1000 then ts.totalSamples else 1000
  walk start stop (fun res => maxOut ≤ res.length) (fun res s => res ++ [s]) ts.chunks []

inductive NexTSAggType where
  | avg
  | sum
  | min
  | max
  | count
  deriving DecidableEq, Repr

structure Agg (V : Type) where
  sum : V
  min : V
  max : V
  count : Nat

section Aggregate

variable [D : DoubleOps V]

def Agg.visit (a : Agg V) (s : NexSample V) : Agg V where
  sum := D.add a.sum s.value
  min := if a.count = 0 then s.value else if D.lt s.value a.min then s.value else a.min
  max := if a.count = 0 then s.value else if D.lt a.max s.value then s.value else a.max
  count := a.count + 1

def nextsAggregate (ts : NexTS V) (start stop : Int) (type : NexTSAggType) : V :=
  let a := walk start stop (fun _ => false) Agg.visit ts.chunks ⟨D.zero, D.zero, D.zero, 0⟩
  if a.count = 0 then D.zero
  else
    match type with
    | .sum => a.sum
    | .min => a.min
    | .max => a.max
    | .count => D.ofCount a.count
    | .avg => D.div a.sum (D.ofCount a.count)

end Aggregate

def run (retentionMs : Int) (adds : List (NexSample V)) : NexTS V :=
  adds.foldl nextsAdd (nextsCreate retentionMs)

def held (cs : List (NexTSChunk V)) : List (NexSample V) := cs.flatMap NexTSChunk.samples

/-- What a series is for. -/
structure Faithful [D : DoubleOps V] (retentionMs : Int) (adds : List (NexSample V)) : Prop where
  kept : held (run retentionMs adds).chunks <:+ adds
  dropped : ∀ s later, s :: later <:+ adds → (held (run retentionMs adds).chunks).length ≤
    later.length → ∃ l ∈ later, s.timestamp < l.timestamp - retentionMs
  total : (run retentionMs adds).totalSamples =
    ((run retentionMs adds).chunks.map NexTSChunk.count).sum
  query : ∀ start stop, nextsQuery (run retentionMs adds) start stop
    = ((held (run retentionMs adds).chunks).filter (inside start stop)).take 1000
  count : ∀ start stop, nextsAggregate (run retentionMs adds) start stop .count
    = D.ofCount ((held (run retentionMs adds).chunks).filter (inside start stop)).length

/-! ## Walks over chunks in order -/

/-- Every chunk's two timestamps enclose its samples, and the chunks follow each other by their
first one. -/
structure InOrder (cs : List (NexTSChunk V)) : Prop where
  spans : ∀ c ∈ cs, c.startTime ≤ c.endTime
  encloses : ∀ c ∈ cs, ∀ s ∈ c.samples, c.startTime ≤ s.timestamp ∧ s.timestamp ≤ c.endTime
  starts : cs.Pairwise fun c d => c.startTime ≤ d.startTime

theorem InOrder.sublist {cs ds : List (NexTSChunk V)} (h : InOrder cs) (hsub : ds.Sublist cs) :
    InOrder ds where
  spans := fun c hc => h.spans c (hsub.subset hc)
  encloses := fun c hc => h.encloses c (hsub.subset hc)
  starts := h.starts.sublist hsub

variable {cs : List (NexTSChunk V)} {c : NexTSChunk V} {s : NexSample V}

theorem InOrder.start_le (h : InOrder (c :: cs))
    (hs : s ∈ held (c :: cs)) : c.startTime ≤ s.timestamp := by
  obtain ⟨d, hd, hs⟩ := mem_flatMap.mp hs
  have hds := (h.encloses d hd s hs).1
  rcases mem_cons.mp hd with rfl | hd
  · exact hds
  · exact ((pairwise_cons.mp h.starts).1 d hd).trans hds

/-- The samples in question are visited one after another, until there is enough. -/
def feed (full : β → Bool) (visit : β → NexSample V → β) : List (NexSample V) → β → β
  | [], acc => acc
  | s :: ss, acc => if full acc then acc else feed full visit ss (visit acc s)

section Feed

variable {start stop : Int} {full : β → Bool} {visit : β → NexSample V → β}

theorem feed_full {acc : β} (h : full acc) (ss : List (NexSample V)) :
    feed full visit ss acc = acc := by
  cases ss with
  | nil => rfl
  | cons s ss => rw [feed, if_pos h]

theorem feed_append (ss ts : List (NexSample V)) (acc : β) :
    feed full visit (ss ++ ts) acc = feed full visit ts (feed full visit ss acc) := by
  induction ss generalizing acc with
  | nil => rfl
  | cons s ss ih =>
    rw [cons_append, feed, feed]
    split
    · next h => rw [feed_full h]
    · exact ih _

theorem walkSamples_eq (ss : List (NexSample V)) (acc : β) :
    walkSamples start stop full visit ss acc =
    feed full visit (ss.filter (inside start stop)) acc := by
  induction ss generalizing acc with
  | nil => rfl
  | cons s ss ih =>
    rw [walkSamples]
    by_cases hfull : full acc
    · rw [if_pos hfull, feed_full hfull]
    · rw [if_neg hfull, ih]
      by_cases hs : inside start stop s
      · rw [if_pos hs, filter_cons_of_pos hs, feed, if_neg hfull]
      · rw [if_neg hs, filter_cons_of_neg hs]

/-- A chunk that is skipped has no sample in the interval, nor has any behind the one that ends the
walk. -/
theorem walk_eq (h : InOrder cs) (acc : β) :
    walk start stop full visit cs acc
      = feed full visit ((held cs).filter (inside start stop)) acc := by
  induction cs generalizing acc with
  | nil => rfl
  | cons c cs ih =>
    have hrest := h.sublist (sublist_cons_self c cs)
    have hheld : held (c :: cs) = c.samples ++ held cs := flatMap_cons
    rw [walk]
    split_ifs with hfull hend hstart
    · rw [feed_full hfull]
    · have hnone : c.samples.filter (inside start stop) = [] := by
        rw [filter_eq_nil_iff]
        intro s hs
        have hle := (h.encloses c (mem_cons_self ..) s hs).2
        simp only [inside, decide_eq_true_eq]
        omega
      rw [ih hrest, hheld, filter_append, hnone, nil_append]
    · have hnone : (held (c :: cs)).filter (inside start stop) = [] := by
        rw [filter_eq_nil_iff]
        intro s hs
        have hle := h.start_le hs
        simp only [inside, decide_eq_true_eq]
        omega
      rw [hnone, feed]
    · rw [ih hrest, walkSamples_eq, hheld, filter_append, feed_append]

end Feed

theorem feed_collect (n : Nat) (ss res : List (NexSample V)) (h : res.length ≤ n) :
    feed (fun res => decide (n ≤ res.length)) (fun res s => res ++ [s]) ss res =
    (res ++ ss).take n := by
  induction ss generalizing res with
  | nil => rw [feed, append_nil, take_of_length_le h]
  | cons s ss ih =>
    rw [feed]
    by_cases hfull : n ≤ res.length
    · rw [if_pos (decide_eq_true hfull), take_append_of_le_length hfull, take_of_length_le h]
    · rw [if_neg (by simpa using hfull), ih _ (by simp; omega), append_assoc, singleton_append]

theorem count_feed [DoubleOps V] (ss : List (NexSample V)) (a : Agg V) :
    (feed (fun _ => false) Agg.visit ss a).count = a.count + ss.length := by
  induction ss generalizing a with
  | nil => rfl
  | cons s ss ih =>
    rw [feed, if_neg Bool.false_ne_true, ih, length_cons]
    exact Nat.add_right_comm a.count 1 ss.length

theorem length_held (cs : List (NexTSChunk V)) : (held cs).length = (cs.map NexTSChunk.count).sum :=
  length_flatMap

variable {ts : NexTS V} {adds : List (NexSample V)} {retentionMs : Int}

theorem nextsQuery_eq (h : InOrder ts.chunks) (htotal : ts.totalSamples = (held ts.chunks).length)
    (start stop : Int) :
    nextsQuery ts start stop = ((held ts.chunks).filter (inside start stop)).take 1000 := by
  rw [nextsQuery, walk_eq h, feed_collect _ _ _ (Nat.zero_le _), nil_append]
  have hle := length_filter_le (inside start stop) (held ts.chunks)
  split
  · rw [take_of_length_le (by omega), take_of_length_le (by omega)]
  · rfl

theorem nextsAggregate_count [D : DoubleOps V] (h : InOrder ts.chunks) (start stop : Int) :
    nextsAggregate ts start stop .count
      = D.ofCount ((held ts.chunks).filter (inside start stop)).length := by
  have hcount := count_feed ((held ts.chunks).filter (inside start stop)) ⟨D.zero, D.zero, D.zero,
    0⟩
  rw [nextsAggregate, walk_eq h]
  rw [Nat.zero_add] at hcount
  rw [hcount]
  split
  · next hzero => rw [hzero, D.ofCount_zero]
  · rfl

/-! ## Adding samples -/

theorem dropDead_spec (cutoff : Int) (cs : List (NexTSChunk V)) (total : Nat)
    (h : (held cs).length ≤ total) :
    ∃ dead, cs = dead ++ (dropDead cutoff cs total).1 ∧ (∀ c ∈ dead, c.endTime < cutoff) ∧
      total = (dropDead cutoff cs total).2 + (held dead).length := by
  induction cs generalizing total with
  | nil => exact ⟨[], rfl, nofun, rfl⟩
  | cons c cs ih =>
    have hheld : (held (c :: cs)).length = c.count + (held cs).length := by
      rw [length_held, length_held, map_cons, sum_cons]
    rw [dropDead]
    split
    · next hc =>
      obtain ⟨dead, hcs, hdead, htotal⟩ := ih (total - c.count) (by omega)
      refine ⟨c :: dead, congrArg (c :: ·) hcs, forall_mem_cons.mpr ⟨hc, hdead⟩, ?_⟩
      rw [length_held, map_cons, sum_cons, ← length_held]
      omega
    · exact ⟨[], rfl, nofun, rfl⟩

/-- The timestamp is not before the last one of the open chunk, or, if the tail is full, not before
its first one; and the retention window does not begin before the smallest `int64_t`. -/
def Fits (ts : NexTS V) (t : Int) : Prop :=
  (∀ tail ∈ ts.chunks.getLast?, (if chunkMaxSamples ≤ tail.count then tail.startTime
    else tail.endTime) ≤ t) ∧
    (0 < ts.retentionMs → -2 ^ 63 ≤ t - ts.retentionMs ∧ t - ts.retentionMs < 2 ^ 63)

theorem nextsApplyRetention_spec {t : Int} (htotal : ts.totalSamples = (held ts.chunks).length)
    (hfits : Fits ts t) :
    ∃ dead, ts.chunks = dead ++ (nextsApplyRetention ts t).chunks ∧
      (∀ c ∈ dead, c.endTime < t - ts.retentionMs) ∧
      (nextsApplyRetention ts t).totalSamples = (held (nextsApplyRetention ts t).chunks).length ∧
      (nextsApplyRetention ts t).retentionMs = ts.retentionMs := by
  rw [nextsApplyRetention]
  split
  · exact ⟨[], rfl, nofun, htotal, rfl⟩
  · next hret =>
    obtain ⟨hlow, hhigh⟩ := hfits.2 (not_le.mp hret)
    have hcut : Int.bmod (t - ts.retentionMs) (2 ^ 64) = t - ts.retentionMs :=
      Int.bmod_eq_of_le (by simpa using hlow) (by simpa using hhigh)
    rw [hcut]
    obtain ⟨dead, hcs, hdead, hsum⟩ :=
      dropDead_spec (t - ts.retentionMs) ts.chunks ts.totalSamples htotal.ge
    refine ⟨dead, hcs, hdead, ?_, rfl⟩
    have hlen := congrArg (fun cs => (held cs).length) hcs
    simp only [held, flatMap_append, length_append] at hlen htotal hsum ⊢
    omega

theorem held_place (s : NexSample V) (cs : List (NexTSChunk V)) :
    held (place s cs) = held cs ++ [s] := by
  rcases eq_nil_or_concat' cs with rfl | ⟨init, tail, rfl⟩
  · rfl
  · simp only [place, getLast?_concat, dropLast_concat]
    split <;> simp [held, NexTSChunk.write, chunkCreate]

theorem InOrder.snoc (h : InOrder cs) (hspan : c.startTime ≤ c.endTime)
    (hin : ∀ s ∈ c.samples, c.startTime ≤ s.timestamp ∧ s.timestamp ≤ c.endTime)
    (hlast : ∀ d ∈ cs, d.startTime ≤ c.startTime) : InOrder (cs ++ [c]) where
  spans := forall_mem_append.mpr ⟨h.spans, forall_mem_singleton.mpr hspan⟩
  encloses := forall_mem_append.mpr ⟨h.encloses, forall_mem_singleton.mpr hin⟩
  starts := pairwise_append.mpr ⟨h.starts, pairwise_singleton _ _,
    fun d hd => forall_mem_singleton.mpr (hlast d hd)⟩

theorem InOrder.place (h : InOrder cs) (hs : ∀ tail ∈ cs.getLast?,
      (if chunkMaxSamples ≤ tail.count then tail.startTime else tail.endTime) ≤ s.timestamp) :
    InOrder (place s cs) := by
  have hnew : ∀ r ∈ ((chunkCreate s.timestamp).write s).samples, s.timestamp ≤ r.timestamp ∧
      r.timestamp ≤ s.timestamp :=
    forall_mem_singleton.mpr ⟨le_rfl, le_rfl⟩
  rcases eq_nil_or_concat' cs with rfl | ⟨init, tail, rfl⟩
  · exact h.snoc le_rfl hnew nofun
  · have hinit := pairwise_append.mp h.starts
    have hmem : tail ∈ init ++ [tail] := by simp
    have hle : ∀ d ∈ init, d.startTime ≤ tail.startTime := fun d hd => hinit.2.2 d hd tail (by simp)
    have hspan := h.spans tail hmem
    specialize hs tail getLast?_concat
    simp only [TimeSeries.place, getLast?_concat, dropLast_concat]
    split
    · next hfull =>
      rw [if_pos hfull] at hs
      exact h.snoc le_rfl hnew (forall_mem_append.mpr
        ⟨fun d hd => (hle d hd).trans hs, forall_mem_singleton.mpr hs⟩)
    · next hopen =>
      rw [if_neg hopen] at hs
      refine (h.sublist (sublist_append_left ..)).snoc (hspan.trans hs) (forall_mem_append.mpr
        ⟨fun r hr => ?_, forall_mem_singleton.mpr ⟨hspan.trans hs, le_rfl⟩⟩) hle
      have hin := h.encloses tail hmem r hr
      exact ⟨hin.1, hin.2.trans hs⟩

/-! ## Runs -/

/-- Every sample fits the series it is added to. -/
def Fitting (retentionMs : Int) (adds : List (NexSample V)) : Prop :=
  ∀ before s, before ++ [s] <+: adds → Fits (run retentionMs before) s.timestamp

structure Sound (retentionMs : Int) (adds : List (NexSample V)) (ts : NexTS V) : Prop where
  retention : ts.retentionMs = retentionMs
  order : InOrder ts.chunks
  total : ts.totalSamples = (held ts.chunks).length
  kept : held ts.chunks <:+ adds
  dropped : ∀ s later, s :: later <:+ adds → (held ts.chunks).length ≤ later.length →
    ∃ l ∈ later, s.timestamp < l.timestamp - retentionMs

theorem Sound.nextsAdd (h : Sound retentionMs adds ts)
    {a : NexSample V} (hfits : Fits ts a.timestamp) :
    Sound retentionMs (adds ++ [a]) (nextsAdd ts a) := by
  obtain ⟨dead, hcs, hdead, htotal, hret⟩ := nextsApplyRetention_spec h.total hfits
  set kept := (nextsApplyRetention ts a.timestamp).chunks with hkept
  have hchunks : (TimeSeries.nextsAdd ts a).chunks = place a kept := rfl
  have hheld : held ts.chunks = held dead ++ held kept := by rw [hcs, held, flatMap_append]; rfl
  refine ⟨hret.trans h.retention, ?_, ?_, ?_, ?_⟩
  · refine (h.order.sublist (hcs ▸ sublist_append_right ..)).place fun tail htail => hfits.1 tail ?_
    rw [hcs]
    exact mem_getLast?_append_of_mem_getLast? htail
  · rw [hchunks, held_place, length_append, ← htotal]
    rfl
  · rw [hchunks, held_place]
    obtain ⟨pre, hpre⟩ : held kept <:+ adds := (hheld ▸ suffix_append ..).trans h.kept
    exact ⟨pre, by rw [← hpre, append_assoc]⟩
  · intro s later hsuf hlen
    rw [hchunks, held_place, length_append, length_singleton] at hlen
    obtain ⟨init, l, rfl⟩ := eq_nil_or_concat' later |>.resolve_left (by rintro rfl; simp at hlen)
    obtain ⟨hinit, rfl⟩ : s :: init <:+ adds ∧ l = a := by
      obtain ⟨pre, hpre⟩ := hsuf
      rw [← cons_append, ← append_assoc] at hpre
      obtain ⟨hpre, hl⟩ := append_inj' hpre rfl
      exact ⟨⟨pre, hpre⟩, by simpa using hl⟩
    by_cases hold : (held ts.chunks).length ≤ init.length
    · obtain ⟨k, hk, hlt⟩ := h.dropped s init hinit hold
      exact ⟨k, by simp [hk], hlt⟩
    · -- the sample was still held: it is in a chunk that goes now
      refine ⟨l, by simp, ?_⟩
      have hin : s :: init <:+ held ts.chunks :=
        suffix_of_suffix_length_le hinit h.kept (by simp; omega)
      obtain ⟨pre, hpre⟩ := hin
      rw [hheld] at hpre
      rw [length_append, length_singleton] at hlen
      have hs : s ∈ held dead := by
        have hat := congrArg (·[pre.length]?) hpre
        have hsum := congrArg length hpre
        simp only [length_append, length_cons] at hsum
        simp only [getElem?_append_right (le_refl pre.length), Nat.sub_self,
          getElem?_cons_zero] at hat
        rw [getElem?_append_left (by omega)] at hat
        exact mem_of_getElem? hat.symm
      obtain ⟨c, hc, hsc⟩ := mem_flatMap.mp hs
      have hle := (h.order.encloses c (hcs ▸ mem_append_left _ hc) s hsc).2
      have hlt := hdead c hc
      rw [h.retention] at hlt
      omega

theorem sound_run (h : Fitting retentionMs adds) :
    Sound retentionMs adds (run retentionMs adds) := by
  induction adds using reverseRecOn with
  | nil =>
    exact ⟨rfl, ⟨by simp [run, nextsCreate], by simp [run, nextsCreate], Pairwise.nil⟩, rfl,
      suffix_rfl, fun s later hs => absurd hs (by simp)⟩
  | append_singleton adds a ih =>
    have hadds := ih fun before s hpre => h before s (hpre.trans (prefix_append ..))
    rw [run, foldl_concat]
    exact hadds.nextsAdd (h adds a prefix_rfl)

theorem series_faithful [DoubleOps V] (retentionMs : Int) (adds : List (NexSample V))
    (h : Fitting retentionMs adds) : Faithful retentionMs adds := by
  have hsound := sound_run h
  exact ⟨hsound.kept, hsound.dropped, hsound.total.trans (length_held _),
    nextsQuery_eq hsound.order hsound.total, nextsAggregate_count hsound.order⟩

theorem series_faithful_two : Faithful (V := ℚ) 10 [⟨0, 1⟩, ⟨50, 2⟩] := by
  refine series_faithful 10 _ fun before s hpre => ?_
  match before with
  | [] =>
    obtain ⟨rfl, -⟩ := cons_prefix_cons.mp hpre
    exact ⟨by decide, by decide⟩
  | [r] =>
    obtain ⟨rfl, hrest⟩ := cons_prefix_cons.mp hpre
    obtain ⟨rfl, -⟩ := cons_prefix_cons.mp hrest
    exact ⟨by decide, by decide⟩
  | r :: q :: rest =>
    have hlen := hpre.length_le
    simp at hlen

/-- A sample that comes late hides the one before it in the same chunk. -/
theorem earlier_sample_hidden : ¬ Faithful (V := ℚ) 0 [⟨10, 1⟩, ⟨0, 2⟩] := by
  intro h
  cases h.query 5 20

end NexCache.TimeSeries
