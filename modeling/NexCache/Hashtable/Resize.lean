import NexCache.Hashtable.Invariant

/-!
# Resizes, turned shrinks and pauses

Whatever the fill percentages, the policy, the allocator and the type's callback
decide, the entries stay where a lookup finds them: every function here returns
and is `Moved`.
-/

namespace NexCache.HashTables

open Machine Nat

variable {K E : Type*} {T : HashtableType K E} {ht : Hashtable E} {exp : Int}

/-- The entries are as before, and the arrays can take another one. -/
theorem target_alloc (h : Inv T ht) (halloc : (ht.tables 0).exp ≠ -1) :
    (ht.tables (target ht)).exp ≠ -1 := by
  by_cases hre : ht.rehashIdx = -1
  · rw [target_idle (not_isRehashing_iff.mpr hre)]
    exact halloc
  · rw [target_rehashing (isRehashing_iff.mpr hre)]
    exact (h.busy hre).2.2.1

theorem nextBucketExp_nonneg {n : Nat} (h : n ≠ 0) : 0 ≤ nextBucketExp n := by
  rw [nextBucketExp, if_neg h]
  simp only
  split_ifs <;> omega

/-- A table whose size in bytes does not wrap has at most `2 ^ 57` chains. -/
theorem exp_le_of_not_overflow (h : 0 ≤ exp)
    (hn : ¬ u64 (numBuckets exp * 64) < numBuckets exp) : exp ≤ 57 := by
  have hne : exp ≠ -1 := by omega
  by_contra hgt
  refine hn ?_
  have hzero : u64 (numBuckets exp * 64) = 0 := by
    rw [numBuckets_of_ne hne, u64, show (64 : Nat) = 2 ^ 6 from rfl, ← pow_add]
    exact mod_eq_zero_of_dvd (pow_dvd_pow 2 (by omega))
  rw [hzero]
  exact numBuckets_pos hne

/-- The rehash loop of a type that moves everything at once. -/
theorem rehashAll_spec (fuel : Nat) (h : Inv T ht)
    (hfuel : ht.rehashIdx ≠ -1 → numBuckets (ht.tables 0).exp ≤ fuel + ht.rehashIdx.toNat) :
    ∃ ht', rehashAll T fuel ht = some ht' ∧ Moved T ht ht' ∧ ht'.rehashIdx = -1 := by
  induction fuel generalizing ht with
  | zero =>
    have hdone : ht.rehashIdx = -1 := by
      by_contra hre
      have hlt := (h.busy hre).2.1
      omega
    exact ⟨ht, by rw [rehashAll, not_isRehashing_iff.mpr hdone]; rfl, .refl h, hdone⟩
  | succ fuel ih =>
    rw [rehashAll]
    by_cases hre : ht.rehashIdx = -1
    · rw [if_neg (by simp [not_isRehashing_iff.mpr hre])]
      exact ⟨ht, rfl, .refl h, hre⟩
    · obtain ⟨ht₁, hstep, hmoved, hadv⟩ := rehashStep_spec h hre
      rw [if_pos (isRehashing_iff.mpr hre), hstep, Option.bind_some]
      obtain ⟨ht', hall, hmoved', hdone⟩ := ih hmoved.inv (by
        intro hre₁
        rcases hadv with hadv | ⟨hlt, hexp⟩
        · exact absurd hadv hre₁
        · have hpos := (h.busy hre).1
          rw [hexp 0]
          omega)
      exact ⟨ht', hall, hmoved.trans hmoved', hdone⟩

variable (h : Inv T ht)
include h

variable (hidle : ht.rehashIdx = -1) {n : Int}
include hidle

/-- The new array is empty, so allocating it moves nothing. -/
theorem startRehash_moved
    (hexp : 0 ≤ exp ∧ exp ≤ 57) (hne : exp ≠ (ht.tables 0).exp) (halloc : (ht.tables 0).exp ≠ -1) :
    Moved T ht { withTables ht (ht.tables 0) ⟨ht.nextAddr, exp, fun _ => [Bucket.empty], 0, 0⟩ with
      rehashIdx := 0, nextAddr := ht.nextAddr + 1 } := by
  refine .of_items h ?_ (fun hdist => ⟨Fin.forall_fin_two.mpr ⟨h.ok 0, TableOk.fresh hexp _⟩,
    by simp, fun _ => ⟨le_rfl, numBuckets_pos halloc, ?_, hne⟩, nofun,
    hdist, ?_, fun _ => (h.addrs.1 0).ne⟩) rfl id
  · simp only [Hashtable.items]
    rw [h.idle hidle, contents_reset]
    exact congrArg (_ + ·) (TableOk.contents_fresh _ exp)
  · simp only [withTables_one]
    omega
  · exact Fin.forall_fin_two.mpr ⟨lt_succ_of_lt (h.addrs.1 0), lt_succ_self _⟩

/-- Nothing to move: the new array replaces the old one at once. -/
theorem rehashingCompleted_fresh (hexp : 0 ≤ exp ∧ exp ≤ 57)
    (hempty : (ht.tables 0).exp = -1 ∨ (ht.tables 0).used = 0 ∧ (ht.tables 0).childBuckets = 0) :
    ∃ ht', rehashingCompleted { withTables ht (ht.tables 0) { ht.tables 1 with
          addr := ht.nextAddr, exp := exp, chains := fun _ => [Bucket.empty], used := 0 } with
        rehashIdx := 0, nextAddr := ht.nextAddr + 1 } = some ht'
      ∧ Moved T ht ht' ∧ (ht'.tables 0).exp = exp := by
  have hzero : (ht.tables 0).contents = 0 := by
    rcases hempty with hneg | ⟨hused, -⟩
    · rw [Table.contents, hneg]
      rfl
    · rw [← Multiset.card_eq_zero, ← (h.ok 0).used_eq, hused]
  have hone : ht.tables 1 = Table.reset := h.idle hidle
  obtain ⟨ht', hcomp, hmoved, -, htable⟩ := rehashingCompleted_spec h
    { withTables ht (ht.tables 0) { ht.tables 1 with
        addr := ht.nextAddr, exp := exp, chains := fun _ => [Bucket.empty], used := 0 } with
      rehashIdx := 0, nextAddr := ht.nextAddr + 1 }
    (by simp) (by rw [hone]; exact TableOk.fresh hexp _) (by simp only [withTables_one]; omega)
    (lt_succ_self _)
    (by
      simp only [Hashtable.items]
      rw [hzero, hone, contents_reset]
      exact TableOk.contents_fresh _ exp) rfl
  exact ⟨ht', hcomp, hmoved, by rw [htable]; rfl⟩

theorem resize_spec (minCapacity : Nat) (allowed mallocOk : Bool) :
    ∃ r, resize T ht minCapacity allowed mallocOk = some r ∧ Moved T ht r.1 := by
  have hfalse : ∃ r, some (ht, false) = some r ∧ Moved T ht r.1 := ⟨_, rfl, .refl h⟩
  rw [resize, if_neg (by simp [not_isRehashing_iff.mpr hidle])]
  simp only [setTable_one]
  have hcap : (if minCapacity = 0 then 1 else minCapacity) ≠ 0 := by split <;> omega
  generalize (if minCapacity = 0 then 1 else minCapacity) = cap at hcap
  by_cases hover : u64 (numBuckets (nextBucketExp cap) * 7) < cap
      ∨ u64 (numBuckets (nextBucketExp cap) * 64) < numBuckets (nextBucketExp cap)
  · rw [if_pos hover]
    exact hfalse
  rw [if_neg hover]
  have hnonneg := nextBucketExp_nonneg hcap
  have hexp := And.intro hnonneg (exp_le_of_not_overflow hnonneg (not_or.mp hover).2)
  generalize nextBucketExp cap = exp at hexp
  by_cases hsame : exp = (ht.tables 0).exp
  · rw [if_pos hsame]
    exact hfalse
  rw [if_neg hsame]
  split_ifs with hforbid hdeny hmalloc hempty hinstant
  · exact hfalse
  · exact hfalse
  · exact hfalse
  · obtain ⟨ht', hcomp, hmoved, -⟩ := rehashingCompleted_fresh h hidle hexp hempty
    exact ⟨(ht', true), by rw [hcomp]; rfl, hmoved⟩
  · have halloc : (ht.tables 0).exp ≠ -1 := (not_or.mp hempty).1
    have hstart := startRehash_moved h hidle hexp hsame halloc
    rw [h.idle hidle]
    obtain ⟨ht', hall, hmoved, -⟩ := rehashAll_spec (numBuckets (ht.tables 0).exp) hstart.inv
      fun _ => le_add_right _ _
    exact ⟨(ht', true), congrArg (Option.map fun ht => (ht, true)) hall, hstart.trans hmoved⟩
  · have halloc : (ht.tables 0).exp ≠ -1 := (not_or.mp hempty).1
    rw [h.idle hidle]
    exact ⟨_, rfl, startRehash_moved h hidle hexp hsame halloc⟩

/-- The first entry of a table finds an array. -/
theorem resize_first (hnull : (ht.tables 0).exp = -1) (allowed : Bool) :
    ∃ r, resize T ht 1 allowed true = some r ∧ Moved T ht r.1 ∧ (r.1.tables 0).exp ≠ -1 := by
  obtain ⟨ht', hcomp, hmoved, hexp⟩ :=
    rehashingCompleted_fresh h hidle (show (0 : Int) ≤ 0 ∧ (0 : Int) ≤ 57 by decide) (.inl hnull)
  refine ⟨(ht', true), ?_, hmoved, by rw [hexp]; decide⟩
  have hzero : nextBucketExp 1 = 0 := by decide
  rw [resize, if_neg (by simp [not_isRehashing_iff.mpr hidle])]
  simp only [setTable_one, if_neg one_ne_zero, hzero]
  rw [if_neg (by decide), if_neg (by rw [hnull]; decide), if_neg (by simp [hnull]),
    if_neg (by rw [hnull]; simp [numBuckets]), if_neg (by simp), if_pos (.inl hnull), hcomp]
  rfl

omit hidle

theorem expand_spec (size : Nat) (allowed mallocOk : Bool) :
    ∃ r, expand T ht size allowed mallocOk = some r ∧ Moved T ht r.1 := by
  rw [expand]
  split
  · exact ⟨_, rfl, .refl h⟩
  · rename_i hcond
    exact resize_spec h (not_isRehashing_iff.mp (by simpa using (not_or.mp hcond).1)) ..

/-- Turning a shrink around exchanges the arrays and starts from the first chain. -/
theorem abortShrinkIfNeeded_spec : ∃ r, abortShrinkIfNeeded ht = some r ∧ Moved T ht r.1 := by
  have hfalse : ∃ r, some (ht, false) = some r ∧ Moved T ht r.1 := ⟨_, rfl, .refl h⟩
  rw [abortShrinkIfNeeded]
  split_ifs with hcan hshrink hiter hfill
  · exact hfalse
  · exact hfalse
  · exact hfalse
  · exact hfalse
  · have hre : ht.rehashIdx ≠ -1 := isRehashing_iff.mp (by
      simp only [Bool.or_eq_true, not_or] at hshrink
      simpa using hshrink.1)
    obtain ⟨-, hidx, hexp1, hne⟩ := h.busy hre
    have halloc : (ht.tables 0).exp ≠ -1 := fun hx => by
      rw [hx] at hidx
      exact not_lt_zero _ hidx
    rw [swapTables, if_pos (isRehashing_iff.mpr hre)]
    refine ⟨_, rfl, .of_items h (add_comm _ _) (fun hdist =>
      ⟨Fin.forall_fin_two.mpr ⟨h.ok 1, h.ok 0⟩, by simp,
        fun _ => ⟨le_rfl, numBuckets_pos hexp1, halloc, hne.symm⟩,
      fun i hi => absurd hi (not_lt_zero i), hdist,
        Fin.forall_fin_two.mpr ⟨h.addrs.1 1, h.addrs.1 0⟩,
      fun _ => (h.addrs.2 hre).symm⟩) rfl fun _ => hexp1⟩

theorem hashtableExpandIfNeeded_spec (allowed : Bool) :
    ∃ r, hashtableExpandIfNeeded T ht allowed = some r ∧ Moved T ht r.1
      ∧ (r.1.tables 0).exp ≠ -1 := by
  rw [hashtableExpandIfNeeded]
  by_cases hre : ht.rehashIdx = -1
  · rw [if_neg (by simp [not_isRehashing_iff.mpr hre])]
    by_cases hnull : (ht.tables 0).exp = -1
    · -- no array yet: there is no room for one entry
      have hused : (ht.tables 0).used = 0 := by
        rw [(h.ok 0).used_eq, Table.contents, hnull]
        rfl
      have hroom : ¬ u64 (u64 (0 + 1) * 100) ≤
          u64 (u64 (numBuckets (-1) * 7) * maxFillPercent ht) := by
        have hcap : u64 (u64 (numBuckets (-1) * 7) * maxFillPercent ht) = 0 := by
          rw [show u64 (numBuckets (-1) * 7) = 0 from rfl, zero_mul]
          rfl
        rw [hcap]
        decide
      simp only [hused, hnull]
      rw [if_neg hroom]
      exact resize_first h hre hnull allowed
    · simp only
      split
      · exact ⟨_, rfl, .refl h, hnull⟩
      · obtain ⟨r, hr, hmoved⟩ := resize_spec h hre _ allowed true
        exact ⟨r, hr, hmoved, hmoved.alloc hnull⟩
  · have halloc : (ht.tables 0).exp ≠ -1 := fun hx => by
      have hidx := (h.busy hre).2.1
      rw [hx] at hidx
      exact not_lt_zero _ hidx
    rw [if_pos (isRehashing_iff.mpr hre)]
    split
    · exact ⟨_, rfl, .refl h, halloc⟩
    · obtain ⟨r, hr, hmoved⟩ := abortShrinkIfNeeded_spec h
      exact ⟨r, hr, hmoved, hmoved.alloc halloc⟩

theorem hashtableShrinkIfNeeded_spec (allowed : Bool) :
    ∃ r, hashtableShrinkIfNeeded T ht allowed = some r ∧ Moved T ht r.1 := by
  rw [hashtableShrinkIfNeeded]
  split
  · exact ⟨_, rfl, .refl h⟩
  · rename_i hcond
    simp only [Bool.or_eq_true, not_or] at hcond
    simp only
    split
    · exact ⟨_, rfl, .refl h⟩
    · exact resize_spec h (not_isRehashing_iff.mp (by simpa using hcond.1)) ..

omit h

theorem rehashStepUnder_spec (policy : ResizePolicy) (h : Inv T ht) :
    ∃ ht', rehashStepUnder policy T ht = some ht' ∧ Moved T ht ht' := by
  rw [rehashStepUnder]
  split_ifs with hidle hpolicy
  · exact ⟨ht, rfl, .refl h⟩
  · exact ⟨ht, rfl, .refl h⟩
  · simp only [Bool.or_eq_true, not_or] at hidle
    obtain ⟨ht', hstep, hmoved, -⟩ :=
      rehashStep_spec h (isRehashing_iff.mp (by simpa using hidle.1))
    exact ⟨ht', hstep, hmoved⟩

theorem hashtableRehashMicroseconds_spec (h : Inv T ht) (steps : Nat) :
    ∃ ht', hashtableRehashMicroseconds T ht steps = some ht' ∧ Moved T ht ht' := by
  have hturns : ∀ (n : Nat) {ht : Hashtable E}, Inv T ht →
      ∃ ht', hashtableRehashMicroseconds.turns T n ht = some ht' ∧ Moved T ht ht' := by
    intro n
    induction n with
    | zero => exact fun {ht} h => ⟨ht, rfl, .refl h⟩
    | succ n ih =>
      intro ht h
      rw [hashtableRehashMicroseconds.turns]
      split
      · rename_i hre
        obtain ⟨ht₁, hstep, hmoved, -⟩ := rehashStep_spec h (isRehashing_iff.mp hre)
        obtain ⟨ht', hrest, hmoved'⟩ := ih hmoved.inv
        exact ⟨ht', by rw [hstep, Option.bind_some, hrest], hmoved.trans hmoved'⟩
      · exact ⟨ht, rfl, .refl h⟩
  rw [hashtableRehashMicroseconds]
  split_ifs
  · exact ⟨ht, rfl, .refl h⟩
  · exact ⟨ht, rfl, .refl h⟩
  · exact hturns steps h

theorem hashtableRightsizeIfNeeded_spec (h : Inv T ht) (allowed : Bool) :
    ∃ r, hashtableRightsizeIfNeeded T ht allowed = some r ∧ Moved T ht r.1 := by
  obtain ⟨r, hr, hmoved⟩ := hashtableShrinkIfNeeded_spec h allowed
  rw [hashtableRightsizeIfNeeded, hr, Option.bind_some]
  split
  · exact ⟨r, rfl, hmoved⟩
  · obtain ⟨r', hr', hmoved', -⟩ := hashtableExpandIfNeeded_spec hmoved.inv allowed
    exact ⟨r', hr', hmoved.trans hmoved'⟩

/-! ### Pauses -/

theorem i16_of_range (h : -2 ^ 15 ≤ n ∧ n < 2 ^ 15) : i16 n = n := by
  simp only [i16, Int.bmod]
  split <;> omega

theorem i16_range (n : Int) : -2 ^ 15 ≤ i16 n ∧ i16 n < 2 ^ 15 := by
  simp only [i16, Int.bmod]
  split <;> omega

theorem i16_sub (n m : Int) : i16 (i16 n - m) = i16 (n - m) := by
  simp only [i16, Int.bmod_sub_bmod]

/-- A pause is taken and given back. -/
theorem i16_pause (h0 : 0 ≤ n) (h : n < 2 ^ 15) : i16 (i16 (n + 1) - 1) = n := by
  rw [i16_sub, add_sub_cancel_right, i16_of_range ⟨by omega, h⟩]

/-- A count of pauses does not become zero by one more. -/
theorem i16_succ_ne_zero (h0 : 0 ≤ n) (h : n < 2 ^ 15) : i16 (n + 1) ≠ 0 := by
  simp only [i16, Int.bmod]
  split <;> omega

/-- The same entries in the same places; only settings may differ. -/
theorem Inv.of_tables {ht' : Hashtable E} (h : Inv T ht) (htables : ht'.tables = ht.tables)
    (hidx : ht'.rehashIdx = ht.rehashIdx) (hnext : ht'.nextAddr = ht.nextAddr) : Inv T ht' := by
  refine ⟨?_, ?_, ?_, ?_, ?_, ?_⟩
  · rw [htables]
    exact h.ok
  · rw [htables, hidx]
    exact h.idle
  · rw [htables, hidx]
    exact h.busy
  · rw [htables, hidx]
    exact h.behind
  · rw [Hashtable.items, htables]
    exact h.distinct
  · rw [htables, hidx, hnext]
    exact h.addrs

theorem hashtableResumeAutoShrink_spec (h : Inv T ht) (allowed : Bool) :
    ∃ ht', hashtableResumeAutoShrink T ht allowed = some ht'
      ∧ Moved T { ht with pauseAutoShrink := i16 (ht.pauseAutoShrink - 1) } ht' := by
  have h' : Inv T { ht with pauseAutoShrink := i16 (ht.pauseAutoShrink - 1) } :=
    h.of_tables rfl rfl rfl
  rw [hashtableResumeAutoShrink]
  split
  · obtain ⟨r, hr, hmoved⟩ := hashtableShrinkIfNeeded_spec h' allowed
    exact ⟨r.1, by rw [hr]; rfl, hmoved⟩
  · exact ⟨_, rfl, .refl h'⟩

/-- Resuming goes through unless nothing was paused. -/
theorem hashtableResumeRehashing_spec (h : Inv T ht) (hpause : 0 ≤ i16 (ht.pauseRehash - 1))
    (allowed : Bool) :
    ∃ ht', hashtableResumeRehashing T ht allowed = some ht'
      ∧ Moved T { ht with
          pauseRehash := i16 (ht.pauseRehash - 1)
          pauseAutoShrink := i16 (ht.pauseAutoShrink - 1) } ht' := by
  have h' : Inv T { ht with pauseRehash := i16 (ht.pauseRehash - 1) } := h.of_tables rfl rfl rfl
  rw [hashtableResumeRehashing]
  simp only [if_pos hpause]
  exact hashtableResumeAutoShrink_spec h' allowed

end NexCache.HashTables
