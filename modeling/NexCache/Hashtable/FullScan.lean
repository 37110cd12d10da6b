import NexCache.Hashtable.Coverage

/-!
# A full scan

A full scan starts at the cursor `0` and goes on with each cursor returned until `0` is
returned again; in between anything may happen to the table.  What it has covered is an
initial part of the line of bit-reversed hashes, up to the rank of the cursor (`covered`).
That part does not depend on the size of the table, so no call in between can take anything
away from it.
-/

namespace NexCache.HashTables

open Runs List
open Cursor (rank rank_lt)

variable {K E : Type*} {T : HashtableType K E} {ht : Hashtable E}

/-- What happens during a full scan.  The callback of a scan call may look up keys, and the entries
that `validateEntry` accepts may be others at each call. -/
inductive ScanEvent (K E : Type*)
  | call (c : Call K E)
  | scan (reads : List (List K)) (valid : E → Bool) (allowed : Bool)

structure FullScan (E : Type*) where
  ht : Hashtable E
  cursor : BitVec 64
  started : Bool
  emitted : List E

def FullScan.start (policy : ResizePolicy) (canAbort : Bool) : FullScan E :=
  ⟨hashtableCreate policy canAbort, 0, false, []⟩

/-- A callback that only looks up keys. -/
def lookups (T : HashtableType K E) (reads : List (List K)) : List (List (Action T)) :=
  reads.map fun ks => ks.map Action.find

def fullScanStep [DecidableEq K] [DecidableEq E] (T : HashtableType K E) (s : FullScan E) :
    ScanEvent K E → Option (FullScan E × Unit)
  | .call c => (step T s.ht c).map fun r => ({ s with ht := r.1 }, ())
  | .scan reads valid allowed =>
    (hashtableScan s.ht s.cursor (lookups T reads) valid allowed).map fun r =>
      (⟨r.2.ht, r.1, true, s.emitted ++ r.2.emitted⟩, ())

/-- What the callers owe. -/
def Fair (T : HashtableType K E) (s : FullScan E) : ScanEvent K E → Prop
  | .call c => Proper T s.ht c
  | .scan _ _ _ => 0 ≤ s.ht.pauseRehash

/-- The entry is in the table whenever the scan is called. -/
def Present (e : E) (s : FullScan E) : ScanEvent K E → Prop
  | .call _ => True
  | .scan _ _ _ => e ∈ s.ht.items.map Prod.snd

/-- The entry is in the table and accepted whenever the scan is called. -/
def Stays (e : E) (s : FullScan E) : ScanEvent K E → Prop
  | .call _ => True
  | .scan _ valid _ => e ∈ s.ht.items.map Prod.snd ∧ valid e = true

instance decidableProper [DecidableEq K] (T : HashtableType K E) (ht : Hashtable E) :
    (c : Call K E) → Decidable (Proper T ht c)
  | .findRef k e => inferInstanceAs (Decidable (T.entryGetKey e = k))
  | .insertAtPosition k e _ => inferInstanceAs (Decidable (T.entryGetKey e = k))
  | .replaceReallocatedEntry old new =>
    inferInstanceAs (Decidable (T.entryGetKey old = T.entryGetKey new))
  | .twoPhasePop _ _ => inferInstanceAs (Decidable (0 ≤ ht.pauseRehash))
  | .resumeRehashing _ => inferInstanceAs (Decidable (0 < ht.pauseRehash))
  | .find _ | .addOrFind _ _ | .pop _ _ | .expand _ _ | .tryExpand _ _ _ | .expandIfNeeded _
  | .shrinkIfNeeded _ | .rightsizeIfNeeded _ | .rehashMicroseconds _ | .setResizePolicy _
  | .setCanAbortShrink _ | .pauseRehashing | .setSafeIterators _ => .isTrue trivial

instance decidableFair [DecidableEq K] (T : HashtableType K E) (s : FullScan E) :
    (ev : ScanEvent K E) → Decidable (Fair T s ev)
  | .call c => inferInstanceAs (Decidable (Proper T s.ht c))
  | .scan _ _ _ => inferInstanceAs (Decidable (0 ≤ s.ht.pauseRehash))

instance decidablePresent [DecidableEq E] (e : E) (s : FullScan E) :
    (ev : ScanEvent K E) → Decidable (Present e s ev)
  | .call _ => .isTrue trivial
  | .scan _ _ _ => inferInstanceAs (Decidable (e ∈ s.ht.items.map Prod.snd))

instance decidableStays [DecidableEq E] (e : E) (s : FullScan E) :
    (ev : ScanEvent K E) → Decidable (Stays e s ev)
  | .call _ => .isTrue trivial
  | .scan _ valid _ => inferInstanceAs (Decidable (e ∈ s.ht.items.map Prod.snd ∧ valid e = true))

/-! ### What is covered -/

/-- The hashes below this rank were covered. -/
def FullScan.covered (s : FullScan E) : Nat :=
  if s.started then (if s.cursor = 0 then 2 ^ 64 else rank s.cursor) else 0

/-- Every entry that stays and whose hash was covered was passed to the callback. -/
structure Covering (T : HashtableType K E) (e : E) (s : FullScan E) : Prop where
  fresh : s.started = false → s.cursor = 0
  emitted : rank (T.hashEntry e) < s.covered → e ∈ s.emitted

theorem Covering.rank_le {e : E} {s : FullScan E} (h : Covering T e s) :
    rank s.cursor ≤ s.covered := by
  rw [FullScan.covered]
  cases hstarted : s.started with
  | false => simp [Cursor.rank_eq_zero.mpr (h.fresh hstarted)]
  | true =>
    simp only [if_true]
    split
    · exact (rank_lt _).le
    · exact le_rfl

theorem passive_lookups (reads : List (List K)) : Passive (lookups T reads).flatten := by
  intro a ha
  obtain ⟨as, has, hmem⟩ := mem_flatten.mp ha
  obtain ⟨ks, -, rfl⟩ := mem_map.mp has
  obtain ⟨k, -, rfl⟩ := mem_map.mp hmem
  rfl

theorem replacements_lookups (reads : List (List K)) : replacements (lookups T reads) = [] := by
  rw [replacements, filterMap_eq_nil_iff]
  intro a ha
  have hmod := passive_lookups reads a ha
  cases a with
  | find k => rfl
  | _ => cases hmod

/-- The chain of an entry, by its hash. -/
theorem Inv.mem_chain (h : Inv T ht) {h2 : BitVec 8} {e : E} (hmem : (h2, e) ∈ ht.items) :
    ∃ i, Captured ht i ∧
      (h2, e) ∈ stored ((ht.tables i).chains (bucketIdx (T.hashEntry e) (ht.tables i).exp)) := by
  obtain ⟨i, hi⟩ := mem_items.mp hmem
  refine ⟨i, ?_, ?_⟩
  · by_contra hcap
    obtain ⟨hne, hidle⟩ := not_or.mp hcap
    obtain rfl : i = 1 := by omega
    rw [h.idle (not_not.mp hidle)] at hi
    exact Multiset.notMem_zero _ hi
  · exact ((h.ok i).mem_chain hi).2

section Run

variable [DecidableEq K] [DecidableEq E] {m : K → Option E}

/-- **One scan call of a full scan.**  It covers the line up to the cursor it returns. -/
theorem scan_covering {s : FullScan E} (hrep : Represents T s.ht m)
    (hpause : 0 ≤ s.ht.pauseRehash) (reads : List (List K)) (valid : E → Bool) (allowed : Bool) :
    ∃ s', fullScanStep T s (.scan reads valid allowed) = some (s', ()) ∧ Represents T s'.ht m
      ∧ s'.started = true
      ∧ ∀ e, e ∈ s.ht.items.map Prod.snd → valid e = true → Covering T e s → Covering T e s' := by
  obtain ⟨c, w, hscan, -, ⟨m', hrep', hsame⟩, hempty, hcover⟩ := hashtableScan_spec hrep hpause
    (lookups T reads) (fun hact => absurd (passive_lookups reads) hact) s.cursor valid allowed
  obtain rfl := hsame (passive_lookups reads)
  refine ⟨⟨w.ht, c, true, s.emitted ++ w.emitted⟩, by rw [fullScanStep, hscan]; rfl, hrep', rfl, ?_⟩
  intro e hmem hvalid hcov
  have hself : ∀ e', Stands T (replacements (lookups T reads)) e e' → e' = e := by
    rintro e' ⟨-, heq⟩
    rw [replacements_lookups] at heq
    exact heq.resolve_right not_mem_nil
  refine ⟨Bool.noConfusion, fun hlt => ?_⟩
  obtain ⟨⟨h2, a⟩, hitem, rfl⟩ := Multiset.mem_map.mp hmem
  have hsize : s.ht.size ≠ 0 := fun hzero => notMem_items hrep.inv hzero _ hitem
  obtain ⟨hc, hem⟩ := hcover hsize
  -- the new part of the line ends at `stop`
  have hstop : rank (T.hashEntry a) < Cursor.stop (scanExp s.ht) s.cursor :=
    lt_of_lt_of_le hlt (Cursor.le_stop_of_rank hc)
  rcases Nat.lt_or_ge (rank (T.hashEntry a)) (rank s.cursor) with hold | hnew
  · exact mem_append_left _ (hcov.emitted (lt_of_lt_of_le hold hcov.rank_le))
  · obtain ⟨i, hi, hchain⟩ := hrep.inv.mem_chain hitem
    obtain ⟨e', he', hs⟩ :=
      hem i hi _ hnew hstop h2 a hchain fun e' hs => by rw [hself e' hs, hvalid]
    obtain rfl := hself e' hs
    exact mem_append_right _ he'

/-- **One event of a full scan.** -/
theorem fullScanStep_spec {s : FullScan E} (hrep : Represents T s.ht m)
    (ev : ScanEvent K E) (hfair : Fair T s ev) :
    ∃ s' m', fullScanStep T s ev = some (s', ()) ∧ Represents T s'.ht m'
      ∧ ∀ e, Stays e s ev → Covering T e s → Covering T e s' := by
  cases ev with
  | call c =>
    obtain ⟨ht', r, m', hstep, -, hrep'⟩ := step_spec hrep c hfair
    refine ⟨{ s with ht := ht' }, m', by rw [fullScanStep, hstep]; rfl, hrep', ?_⟩
    intro e _ hcov
    exact ⟨hcov.fresh, hcov.emitted⟩
  | scan reads valid allowed =>
    obtain ⟨s', hstep, hrep', -, hcov⟩ := scan_covering hrep hfair reads valid allowed
    exact ⟨s', m, hstep, hrep', fun e hstays => hcov e hstays.1 hstays.2⟩

/-- **The scan guarantee.**  When the cursor is back at `0`, every entry that was in the table and
accepted whenever the scan was called has been passed to the callback. -/
theorem full_scan_emits (T : HashtableType K E) (policy : ResizePolicy) (canAbort : Bool)
    (events : List (ScanEvent K E))
    (hfair : Runs.Along (fullScanStep T) (Fair T) (.start policy canAbort) events) :
    ∃ s us, Runs.run (fullScanStep T) (.start policy canAbort) events = some (s, us)
      ∧ (s.started = true → s.cursor = 0 →
        ∀ e, Runs.Along (fullScanStep T) (Stays e) (.start policy canAbort) events →
        e ∈ s.emitted) := by
  obtain ⟨s, us, hrun, -⟩ := run_total (I := fun s => ∃ m, Represents T s.ht m)
    (fun s ev hi hc => by
      obtain ⟨m, hrep⟩ := hi
      obtain ⟨s', m', hstep, hrep', -⟩ := fullScanStep_spec hrep ev hc
      exact ⟨s', (), hstep, m', hrep'⟩)
    ⟨_, represents_create policy canAbort⟩ hfair
  refine ⟨s, us, hrun, fun hstarted hcursor e hstays => ?_⟩
  have hcov : (∃ m, Represents T s.ht m) ∧ Covering T e s := by
    refine run_invariant (I := fun s => (∃ m, Represents T s.ht m) ∧ Covering T e s) ?_
      ⟨⟨_, represents_create policy canAbort⟩, fun _ => rfl,
        fun hlt => absurd hlt (Nat.not_lt_zero _)⟩
      (hfair.and hstays) hrun
    rintro s₁ ev s₂ u ⟨⟨m, hrep⟩, hcov⟩ ⟨hc, hstay⟩ hstep
    obtain ⟨s', m', hstep', hrep', hkeep⟩ := fullScanStep_spec hrep ev hc
    rw [hstep] at hstep'
    obtain ⟨rfl, -⟩ := result_inj hstep'
    exact ⟨⟨m', hrep'⟩, hkeep e hstay hcov⟩
  refine hcov.2.emitted ?_
  rw [FullScan.covered, hstarted, if_pos rfl, if_pos hcursor]
  exact rank_lt _

end Run

/-- A type that keeps keys apart by their low bits. -/
def spread : HashtableType Nat Nat := ⟨id, fun k => BitVec.ofNat 64 k, false⟩

/-- The table doubles after the first scan call, and entries are deleted before the last.  Only the
last call refuses an entry. -/
def growing : List (ScanEvent Nat Nat) :=
  ((List.range 9).map fun k => .call (.addOrFind k true)) ++ [.scan [[3]] (fun _ => true) true]
    ++ ((List.range 9).map fun k => .call (.addOrFind (k + 9) true))
    ++ [.scan [] (fun _ => true) true, .call (.pop 9 true), .call (.pop 10 true),
      .scan [] (fun e => e != 8) true]

theorem full_scan_emits_growing :
    ∃ s us, Runs.run (fullScanStep spread) (.start .allow true) growing
    = some (s, us) ∧ s.started = true ∧ s.cursor = 0 ∧ 7 ∈ s.emitted := by
  obtain ⟨s, us, hrun, hem⟩ := full_scan_emits spread .allow true growing (by decide +kernel)
  have hend : (run (fullScanStep spread) (.start .allow true) growing).map
      (fun r => (r.1.started, r.1.cursor)) = some (true, 0) := by decide +kernel
  rw [hrun] at hend
  obtain ⟨hstarted, hcursor⟩ := result_inj hend
  exact ⟨s, us, hrun, hstarted, hcursor, hem hstarted hcursor 7 (by decide +kernel)⟩

/-- An entry that `validateEntry` refuses is in the table at every scan call, and is
never passed. -/
theorem full_scan_skips_invalid :
    let events : List (ScanEvent Nat Nat) :=
      [.call (.addOrFind 7 true), .scan [] (fun e => e != 7) true]
    Runs.Along (fullScanStep spread) (Fair spread) (.start .allow true) events
      ∧ Runs.Along (fullScanStep spread) (Present 7) (.start .allow true) events
      ∧ (Runs.run (fullScanStep spread) (.start .allow true) events).map
        (fun r => (r.1.started, r.1.cursor, r.1.emitted)) = some (true, 0, []) := by
  decide +kernel

end NexCache.HashTables
