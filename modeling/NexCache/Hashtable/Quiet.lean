import NexCache.Hashtable.Refine

/-!
# Calls while rehashing is paused

A scan and a safe iterator hold pointers into the chains while their callers use the
table.  They pause rehashing, which also pauses automatic shrinking and the filling
of holes, so that a call changes one place and moves nothing else.

What the pause does not hold back is a resize started by an insert.  It opens a second
array and leaves the first one alone (`Opened`), unless the type rehashes at once or a
shrink in progress is turned around; `Roomy` says that neither happens.
-/

namespace NexCache.HashTables

open Machine Option

variable {K E : Type*} {T : HashtableType K E} {ht : Hashtable E}

/-! ### Fill percentages -/

def capacity (exp : Int) : Nat := numBuckets exp * 7

/-- Below `2 ^ 50` entries the percentages of `hashtableExpandIfNeeded` and
`abortShrinkIfNeeded` do not wrap. -/
theorem fill_le_iff {exp : Int} (h0 : 0 ≤ exp) (h57 : exp ≤ 57) {n : Nat} (hn : n < 2 ^ 50)
    {p : Nat} (hp : p = 100 ∨ p = 500) :
    u64 (u64 n * 100) ≤ u64 (u64 (numBuckets exp * 7) * p) ↔ n * 100 ≤ capacity exp * p := by
  have hne : exp ≠ -1 := by omega
  rw [capacity, numBuckets_of_ne hne]
  obtain ⟨e, rfl⟩ := Int.eq_ofNat_of_zero_le h0
  simp only [Int.toNat_natCast]
  have he : e ≤ 57 := by omega
  have hn1 : u64 n = n := u64_of_lt (by omega)
  have hn100 : u64 (n * 100) = n * 100 := u64_of_lt (by omega)
  have hcap : u64 (2 ^ e * 7) = 2 ^ e * 7 := by
    have hle : 2 ^ e ≤ 2 ^ 57 := Nat.pow_le_pow_right (by decide) he
    exact u64_of_lt (by omega)
  rw [hn1, hn100, hcap]
  by_cases hsmall : e ≤ 51
  · have hle : 2 ^ e ≤ 2 ^ 51 := Nat.pow_le_pow_right (by decide) hsmall
    rw [u64_of_lt]
    rcases hp with rfl | rfl <;> omega
  · -- the few sizes where the product wraps: what is left is still out of reach
    have hbig : n * 100 ≤ u64 (2 ^ e * 7 * p) ∧ n * 100 ≤ 2 ^ e * 7 * p := by
      have hcases : e = 52 ∨ e = 53 ∨ e = 54 ∨ e = 55 ∨ e = 56 ∨ e = 57 := by omega
      rcases hcases with rfl | rfl | rfl | rfl | rfl | rfl <;> rcases hp with rfl | rfl <;>
        (simp only [u64]; omega)
    exact ⟨fun _ => hbig.2, fun _ => hbig.1⟩

theorem maxFillPercent_cases (ht : Hashtable E) :
    maxFillPercent ht = 100 ∨ maxFillPercent ht = 500 := by
  rw [maxFillPercent]
  split <;> simp

/-- A table that is too full is made larger. -/
theorem lt_nextBucketExp {exp : Int} (h0 : 0 ≤ exp) (h57 : exp ≤ 57) {n : Nat} (hn : n < 2 ^ 50)
    (hfull : capacity exp * 100 < n * 100) : exp < nextBucketExp n := by
  have hne : exp ≠ -1 := by omega
  rw [capacity, numBuckets_of_ne hne] at hfull
  obtain ⟨e, rfl⟩ := Int.eq_ofNat_of_zero_le h0
  simp only [Int.toNat_natCast] at hfull
  have hpos := Nat.two_pow_pos e
  have hwrap : u64 (n * 5 + (2 ^ 64 - 1)) = n * 5 - 1 := by
    rw [u64]
    omega
  have hmany : 2 ^ e ≤ (n * 5 - 1) / 32 := by omega
  rw [nextBucketExp, if_neg (by omega)]
  simp only [hwrap, Nat.add_sub_cancel]
  split_ifs
  · omega
  · omega
  · have hlog : e ≤ ((n * 5 - 1) / 32).log2 := (Nat.le_log2 (by omega)).mpr hmany
    omega

/-! ### A resize that only opens the second array -/

/-- The same table, or the same table with an empty second array that is larger. -/
def Opened (ht ht' : Hashtable E) : Prop :=
  ht' = ht ∨ ht.rehashIdx = -1 ∧ ∃ exp, (ht.tables 0).exp < exp ∧ exp ≤ 57
    ∧ ht' = { withTables ht (ht.tables 0) ⟨ht.nextAddr, exp, fun _ => [Bucket.empty], 0, 0⟩ with
        rehashIdx := 0, nextAddr := ht.nextAddr + 1 }

theorem resize_opened (h : Inv T ht) (hidle : ht.rehashIdx = -1) (halloc : (ht.tables 0).exp ≠ -1)
    (hused : (ht.tables 0).used ≠ 0) (hinst : T.instantRehashing = false) {cap : Nat}
    (hcap : cap ≠ 0) (hgrow : (ht.tables 0).exp < nextBucketExp cap) (allowed : Bool) :
    ∃ r, resize T ht cap allowed true = some r ∧ Opened ht r.1 := by
  have hsame : ∃ r, some (ht, false) = some r ∧ Opened ht r.1 := ⟨_, rfl, .inl rfl⟩
  rw [resize, if_neg (by simp [not_isRehashing_iff.mpr hidle])]
  simp only [setTable_one, if_neg hcap, hinst, Bool.true_eq_false, Bool.false_eq_true, if_false]
  have hnonneg := nextBucketExp_nonneg hcap
  split_ifs with hover hexp hforbid hdeny hempty
  · exact hsame
  · exact hsame
  · exact hsame
  · exact hsame
  · exact absurd hempty (not_or.mpr ⟨halloc, fun hx => hused hx.1⟩)
  · rw [h.idle hidle]
    exact ⟨_, rfl, .inr ⟨hidle, _, hgrow, exp_le_of_not_overflow hnonneg (not_or.mp hover).2, rfl⟩⟩

/-- There is room for `n` entries: a shrink in progress is not turned around for
them, and a table whose type rehashes at once is not resized. -/
structure Roomy (T : HashtableType K E) (ht : Hashtable E) (n : Nat) : Prop where
  small : n < 2 ^ 50
  shrinking : ht.isRehashing = true → (ht.tables 1).exp < (ht.tables 0).exp →
    ht.canAbortShrink = true → ht.safeIterators = 0 → n * 100 ≤ capacity (ht.tables 1).exp * 500
  instant : T.instantRehashing = true → ht.isRehashing = false →
    n * 100 ≤ capacity (ht.tables 0).exp * maxFillPercent ht

theorem abortShrinkIfNeeded_quiet (h : Inv T ht) (hroom : Roomy T ht (ht.size + 1)) :
    ∃ r, abortShrinkIfNeeded ht = some r ∧ r.1 = ht := by
  have hsame : ∃ r, some (ht, false) = some r ∧ r.1 = ht := ⟨_, rfl, rfl⟩
  rw [abortShrinkIfNeeded]
  split_ifs with hcan hshrink hiter hfill
  · exact hsame
  · exact hsame
  · exact hsame
  · exact hsame
  · exfalso
    simp only [Bool.or_eq_true, not_or, decide_eq_true_eq, not_le] at hshrink
    have hre : ht.isRehashing = true := by simpa using hshrink.1
    obtain ⟨-, -, hexp1, -⟩ := h.busy (isRehashing_iff.mp hre)
    have hroom' := hroom.shrinking hre hshrink.2 (by simpa using hcan) (by simpa using hiter)
    have hrange := (h.ok 1).exp_range
    refine hfill ((fill_le_iff (by omega) (by omega) ?_ (.inr rfl)).mpr ?_)
    · have := hroom.small
      omega
    · omega

theorem size_idle (h : Inv T ht) (hidle : ht.rehashIdx = -1) : ht.size = (ht.tables 0).used := by
  rw [Hashtable.size, h.idle hidle]
  rfl

theorem hashtableExpandIfNeeded_quiet (h : Inv T ht) (halloc : (ht.tables 0).exp ≠ -1)
    (hroom : Roomy T ht (ht.size + 1)) (allowed : Bool) :
    ∃ r, hashtableExpandIfNeeded T ht allowed = some r ∧ Opened ht r.1 := by
  rw [hashtableExpandIfNeeded]
  by_cases hre : ht.rehashIdx = -1
  · rw [if_neg (by simp [not_isRehashing_iff.mpr hre])]
    simp only
    have hsize := size_idle h hre
    have hsmall := hroom.small
    have hrange := (h.ok 0).exp_range
    have hfill := fill_le_iff (show 0 ≤ (ht.tables 0).exp by omega) (by omega)
      (show (ht.tables 0).used + 1 < 2 ^ 50 by omega) (maxFillPercent_cases ht)
    split
    · exact ⟨_, rfl, .inl rfl⟩
    · rename_i hfull
      rw [hfill] at hfull
      have hu : u64 ((ht.tables 0).used + 1) = (ht.tables 0).used + 1 := u64_of_lt (by omega)
      have hcap : 7 ≤ capacity (ht.tables 0).exp := by
        have := numBuckets_pos halloc
        rw [capacity]
        omega
      have hp := maxFillPercent_cases ht
      rw [hu]
      refine resize_opened h hre halloc ?_ ?_ (by omega) ?_ allowed
      · rcases hp with hp | hp <;> rw [hp] at hfull <;> omega
      · by_contra hinst
        have hroom' := hroom.instant (by simpa using hinst) (not_isRehashing_iff.mpr hre)
        rw [hsize] at hroom'
        omega
      · refine lt_nextBucketExp (by omega) (by omega) (by omega) ?_
        rcases hp with hp | hp <;> rw [hp] at hfull <;> omega
  · rw [if_pos (isRehashing_iff.mpr hre)]
    split
    · exact ⟨_, rfl, .inl rfl⟩
    · obtain ⟨r, hr, hsame⟩ := abortShrinkIfNeeded_quiet h hroom
      exact ⟨r, hr, .inl hsame⟩

/-! ### What a call changes -/

/-- What a call may do to the entries while rehashing is paused. -/
inductive Change (E : Type*)
  | nothing
  | removed (e : E)
  | replaced (old new : E)
  | added (e : E)

/-- One place changes, and an insert may open the second array first. -/
inductive Effect (T : HashtableType K E) (ht : Hashtable E) : Change E → Hashtable E → Prop
  | nothing : Effect T ht .nothing ht
  | removed {p : Place} {h2 : BitVec 8} {e : E} (hx : Located ht p (h2, e)) :
      Effect T ht (.removed e) (ht.clearPlace p)
  | replaced {p : Place} {h2 : BitVec 8} {old new : E} (hx : Located ht p (h2, old))
      (hkey : T.entryGetKey new = T.entryGetKey old) :
      Effect T ht (.replaced old new) (ht.overwrite p new)
  | added {ht₁ : Hashtable E} {r : Hashtable E × Place} {e : E} (hopen : Opened ht ht₁)
      (hnew : ∀ x ∈ ht.items, T.entryGetKey x.2 ≠ T.entryGetKey e)
      (hfind : findBucketForInsert ht₁ (T.hashEntry e) = some r) :
      Effect T ht (.added e) (r.1.store r.2 (highBits (T.hashEntry e), e))

theorem rehashStepUnder_quiet (policy : ResizePolicy) (hq : ht.pauseRehash ≠ 0) :
    rehashStepUnder policy T ht = some ht := by
  rw [rehashStepUnder, if_pos]
  simp [hq]

section Calls

/-- Nothing is compacted while rehashing is paused. -/
theorem fillHoleUnlessPaused_quiet (hq : 0 < ht.pauseRehash) {p : Place}
    (hidx : p.idx < numBuckets (ht.tables p.table).exp) : fillHoleUnlessPaused ht p = some ht := by
  have hpaused : ht.isRehashingPaused = true := decide_eq_true hq
  simp only [fillHoleUnlessPaused]
  rw [Table.chain?_of_lt hidx, bind_some, if_neg (by simp [hpaused])]

theorem hashtableShrinkIfNeeded_quiet (hq : ht.pauseAutoShrink ≠ 0) (allowed : Bool) :
    hashtableShrinkIfNeeded T ht allowed = some (ht, false) := by
  rw [hashtableShrinkIfNeeded, if_pos (by simp [hq])]

theorem clearPlace_idx {p q : Place} (hidx : q.idx < numBuckets (ht.tables q.table).exp) :
    q.idx < numBuckets ((ht.clearPlace p).tables q.table).exp := by
  rw [Hashtable.clearPlace]
  by_cases hq : q.table = p.table
  · rw [hq, setTable_self]
    rw [hq] at hidx
    exact hidx
  · rw [setTable_of_ne _ hq]
    exact hidx

/-- The second phase of a pop clears the place and leaves the pauses as they were. -/
theorem hashtableTwoPhasePopDelete_quiet (hq : 0 < ht.pauseRehash) (hlt : ht.pauseRehash < 2 ^ 15)
    (hauto : ht.pauseAutoShrink = ht.pauseRehash) {p : Place} {x : BitVec 8 × E}
    (hx : Located ht p x) (allowed : Bool) :
    hashtableTwoPhasePopDelete T (hashtablePauseRehashing ht) p allowed =
    some (ht.clearPlace p) := by
  let s : Hashtable E := { ht.clearPlace p with pauseAutoShrink := i16 (ht.pauseRehash + 1) }
  have hfill : fillHoleUnlessPaused s p = some s :=
    fillHoleUnlessPaused_quiet (show 0 < s.pauseRehash from hq) (clearPlace_idx hx.1)
  have hlast : hashtableResumeAutoShrink T s allowed = some (ht.clearPlace p) := by
    have hne : ht.pauseRehash ≠ 0 := hq.ne'
    simp only [hashtableResumeAutoShrink, s, i16_pause hq.le hlt, if_neg hne, some.injEq]
    rw [← hauto]
    rfl
  rw [hashtableTwoPhasePopDelete_eq hauto hq.le hlt hx, hfill, bind_some, hlast]

variable [DecidableEq K]

theorem findBucket_quiet (h : Inv T ht) (hq : ht.pauseRehash ≠ 0) (k : K) :
    ∃ o, findBucket T ht (T.hashFunction k) k = some (ht, o) ∧ LookupResult T ht k o := by
  obtain ⟨⟨ht₁, o⟩, hfind, -, hres⟩ := findBucket_spec h k
  have hsame : ht₁ = ht := by
    rw [findBucket, rehashStepOnReadIfNeeded, rehashStepUnder_quiet .allow hq, bind_some] at hfind
    split at hfind
    · cases hfind
      rfl
    · obtain ⟨o', -, heq⟩ := map_eq_some_iff.mp hfind
      cases heq
      rfl
  subst hsame
  exact ⟨o, hfind, hres⟩

theorem hashtablePop_quiet (h : Inv T ht) (hq : 0 < ht.pauseRehash)
    (hauto : ht.pauseAutoShrink = ht.pauseRehash) (k : K) (allowed : Bool) :
    ∃ r ch, hashtablePop T ht k allowed = some r ∧ Effect T ht ch r.1
      ∧ (ch = .nothing ∨ ∃ e, ch = .removed e ∧ T.entryGetKey e = k) := by
  rw [hashtablePop]
  split
  · exact ⟨_, _, rfl, .nothing, .inl rfl⟩
  · obtain ⟨o, hfind, hres⟩ := findBucket_quiet h hq.ne' k
    rw [hfind, bind_some]
    cases o with
    | none => exact ⟨_, _, rfl, .nothing, .inl rfl⟩
    | some f =>
      obtain ⟨⟨h2, hloc⟩, hkey⟩ := hres
      refine ⟨(ht.clearPlace f.1, some f.2), .removed f.2, ?_, .removed hloc, .inr ⟨f.2, rfl, hkey⟩⟩
      have hfill : fillHoleUnlessPaused (ht.clearPlace f.1) f.1 = some (ht.clearPlace f.1) :=
        fillHoleUnlessPaused_quiet (show 0 < (ht.clearPlace f.1).pauseRehash from hq)
          (clearPlace_idx hloc.1)
      have hshrink : hashtableShrinkIfNeeded T (ht.clearPlace f.1) allowed
          = some (ht.clearPlace f.1, false) :=
        hashtableShrinkIfNeeded_quiet
          (show (ht.clearPlace f.1).pauseAutoShrink ≠ 0 from hauto ▸ hq.ne') allowed
      simp only [hfill, bind_some, hshrink, map_some]

/-- The key of the entry is not in the table. -/
def Hashtable.Lacks (T : HashtableType K E) (ht : Hashtable E) (e : E) : Prop :=
  ∀ x ∈ ht.items, T.entryGetKey x.2 ≠ T.entryGetKey e

/-- An insert opens the second array or not, and stores the entry in a free place. -/
theorem hashtableAddOrFind_quiet (h : Inv T ht) (hq : ht.pauseRehash ≠ 0)
    (halloc : (ht.tables 0).exp ≠ -1) (e : E) (hroom : ht.Lacks T e → Roomy T ht (ht.size + 1))
    (allowed : Bool) :
    ∃ r ch, hashtableAddOrFind T ht e allowed = some r ∧ Effect T ht ch r.1
      ∧ (ch = .nothing ∨ ch = .added e) := by
  obtain ⟨o, hfind, hres⟩ := findBucket_quiet h hq (T.entryGetKey e)
  simp only [hashtableAddOrFind]
  rw [show T.hashEntry e = T.hashFunction (T.entryGetKey e) from rfl, hfind, bind_some]
  cases o with
  | some f => exact ⟨_, _, rfl, .nothing, .inl rfl⟩
  | none =>
    obtain ⟨r, hr, hopen⟩ := hashtableExpandIfNeeded_quiet h halloc (hroom hres) allowed
    obtain ⟨r', hr', hmoved, halloc'⟩ := hashtableExpandIfNeeded_spec h allowed
    obtain rfl : r' = r := mem_unique hr' hr
    have hpause : r'.1.pauseRehash ≠ 0 := by
      rw [(Prod.mk.inj hmoved.settings_eq).1]
      exact hq
    obtain ⟨t, p, hplace, -⟩ := findBucketForInsert_spec rfl (hmoved.inv.ok (target r'.1))
      (target_alloc hmoved.inv halloc') (T.hashEntry e)
    refine ⟨((r'.1.setTable (target r'.1) t).store p (highBits (T.hashEntry e), e), none), .added e,
      ?_, .added hopen hres hplace, .inr rfl⟩
    simp only [insert, hr, bind_some, rehashStepOnWriteIfNeeded,
      rehashStepUnder_quiet .avoid hpause]
    rw [show T.hashFunction (T.entryGetKey e) = T.hashEntry e from rfl, hplace]
    rfl

/-- The calls that a scan callback may make and that may stand between two steps of a safe
iterator, as far as deletions are of the right entry. -/
def Gentle : Call K E → Bool
  | .find _ | .findRef _ _ | .addOrFind _ _ | .insertAtPosition _ _ _ | .pop _ _ | .twoPhasePop _ _
  | .replaceReallocatedEntry _ _ => true
  | _ => false

/-- What a call may change. -/
def Causes (T : HashtableType K E) : Call K E → Change E → Prop
  | _, .nothing => True
  | .pop k _, .removed e => T.entryGetKey e = k
  | .twoPhasePop k _, .removed e => T.entryGetKey e = k
  | .findRef k e, .replaced old new => T.entryGetKey old = k ∧ new = e
  | .replaceReallocatedEntry a b, .replaced old new => old = a ∧ new = b
  | .addOrFind a _, .added e => e = a
  | .insertAtPosition _ a _, .added e => e = a
  | _, _ => False

theorem step_effect [DecidableEq E] {m : K → Option E} (h : Represents T ht m)
    (hq : 0 < ht.pauseRehash) (halloc : (ht.tables 0).exp ≠ -1) {c : Call K E}
    (hg : Gentle c = true) (hc : Proper T ht c)
    (hroom : ∀ e, Causes T c (.added e) → ht.Lacks T e → Roomy T ht (ht.size + 1)) :
    ∃ ht' r ch, step T ht c = some (ht', r) ∧ Effect T ht ch ht' ∧ Causes T c ch := by
  have hinv := h.inv
  have hq' : ht.pauseRehash ≠ 0 := hq.ne'
  cases c with
  | find k =>
    obtain ⟨o, hfind, -⟩ := findBucket_quiet hinv hq' k
    rw [step, hashtableFind]
    split
    · exact ⟨_, _, .nothing, rfl, .nothing, trivial⟩
    · exact ⟨_, _, .nothing, by rw [hfind]; rfl, .nothing, trivial⟩
  | findRef k e =>
    rw [step, hashtableFindRef]
    split
    · exact ⟨_, _, .nothing, rfl, .nothing, trivial⟩
    · obtain ⟨o, hfind, hres⟩ := findBucket_quiet hinv hq' k
      rw [hfind, map_some]
      cases o with
      | none => exact ⟨_, _, .nothing, rfl, .nothing, trivial⟩
      | some f =>
        obtain ⟨⟨h2, hloc⟩, hkey⟩ := hres
        have hke : T.entryGetKey e = k := hc
        exact ⟨_, _, .replaced f.2 e, rfl, .replaced hloc (hke.trans hkey.symm), hkey, rfl⟩
  | addOrFind e allowed =>
    obtain ⟨r, ch, hr, heff, hch⟩ :=
      hashtableAddOrFind_quiet hinv hq' halloc e (hroom e rfl) allowed
    refine ⟨r.1, .entry r.2, ch, by rw [step, hr]; rfl, heff, ?_⟩
    rcases hch with rfl | rfl
    · exact trivial
    · exact rfl
  | insertAtPosition k e allowed =>
    obtain rfl : T.entryGetKey e = k := hc
    obtain ⟨r, ch, hr, heff, hch⟩ :=
      hashtableAddOrFind_quiet hinv hq' halloc e (hroom e rfl) allowed
    refine ⟨r.1, .entry r.2, ch, by rw [insertAtPosition_addOrFind hinv, hr]; rfl, heff, ?_⟩
    rcases hch with rfl | rfl
    · exact trivial
    · exact rfl
  | pop k allowed =>
    obtain ⟨r, ch, hr, heff, hch⟩ := hashtablePop_quiet hinv hq h.paired k allowed
    refine ⟨r.1, .entry r.2, ch, by rw [step, hr]; rfl, heff, ?_⟩
    rcases hch with rfl | ⟨e, rfl, hkey⟩
    · exact trivial
    · exact hkey
  | twoPhasePop k allowed =>
    rw [step, hashtableTwoPhasePopFindRef]
    split
    · exact ⟨_, _, .nothing, rfl, .nothing, trivial⟩
    · obtain ⟨o, hfind, hres⟩ := findBucket_quiet hinv hq' k
      rw [hfind, map_some, bind_some]
      cases o with
      | none => exact ⟨_, _, .nothing, rfl, .nothing, trivial⟩
      | some f =>
        obtain ⟨⟨h2, hloc⟩, hkey⟩ := hres
        have hdel := hashtableTwoPhasePopDelete_quiet (T := T) hq h.range.2 h.paired hloc allowed
        exact ⟨ht.clearPlace f.1, .entry (some f.2), .removed f.2,
          by simp only [hdel, map_some], .removed hloc, hkey⟩
  | replaceReallocatedEntry old new =>
    obtain ⟨r, hr, hres⟩ := searchTables_spec hinv (T.hashEntry new) fun h2 e =>
      h2 == highBits (T.hashEntry new) && decide (e = old)
    rw [step, hashtableReplaceReallocatedEntry, hr]
    cases r with
    | none => exact ⟨_, _, .nothing, rfl, .nothing, trivial⟩
    | some f =>
      obtain ⟨h2, hloc, hp⟩ := hres
      rw [Bool.and_eq_true, decide_eq_true_eq] at hp
      have hkey : T.entryGetKey old = T.entryGetKey new := hc
      rw [hp.2] at hloc
      exact ⟨_, _, .replaced old new, rfl, .replaced hloc hkey.symm, rfl, rfl⟩
  | _ => cases hg

end Calls

end NexCache.HashTables
