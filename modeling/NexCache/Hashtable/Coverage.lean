import NexCache.Hashtable.Walk

/-!
# What a scan covers

On the line of bit-reversed hashes a scan call covers an interval: it starts at the cursor and
ends where the chain of the cursor in the smaller table ends.  Everything stored in a chain
of a hash of that interval is passed to the callback, and the cursor returned is the end of the
interval (`hashtableScan_spec`).  So the calls of a full scan cover the line from its start
to its end, whatever the sizes of the table were in between.
-/

namespace NexCache.HashTables

open Cursor List
open Option hiding min_eq_right

variable {K E : Type*} {T : HashtableType K E} {ht ht' : Hashtable E} {R : List E} {e : E}
  {w w' w'' : Walk T} {i : Fin 2} {idx : Nat}

/-! ### One chain -/

section Scanned

variable [DecidableEq K] [DecidableEq E]

/-- What scanning some chains leaves of the rest. -/
structure Scanned (R : List E) (w w' : Walk T) : Prop where
  keeps : Keeps w.ht w'.ht
  ready : Ready T w'.ht w'.script
  suffix : w'.actions <:+ w.actions
  valid : w'.valid = w.valid
  logs : w.compacted ⊆ w.scanned → w'.compacted ⊆ w'.scanned
  emitted : w.emitted ⊆ w'.emitted
  sought : ∀ i, Captured w.ht i → ∀ idx < numBuckets (w.ht.tables i).exp, ∀ e,
    Sought R e w ((w.ht.tables i).chains idx) 0 → Sought R e w' ((w'.ht.tables i).chains idx) 0
  same : Passive w.actions → w'.ht = w.ht

namespace Scanned

theorem refl (h : Ready T w.ht w.script) : Scanned R w w :=
  ⟨.refl _, h, suffix_refl _, rfl, id, Subset.refl _, fun _ _ _ _ _ hs => hs, fun _ => rfl⟩

variable (h : Scanned R w w')
include h

theorem idx_lt (hi : Captured w.ht i) (hidx : idx < numBuckets (w.ht.tables i).exp) :
    idx < numBuckets (w'.ht.tables i).exp := by
  rwa [h.keeps.exp_eq i hi]

theorem within (hR : Within R w) : Within R w' :=
  fun a ha => hR a (h.suffix.mem ha)

theorem accepted (he : Accepted R e w) : Accepted R e w' :=
  fun e' hs => by rw [h.valid, he e' hs]

theorem mono (he : Emitted R e w) : Emitted R e w' :=
  he.imp fun _ he' => ⟨h.emitted he'.1, he'.2⟩

theorem trans (h' : Scanned R w' w'') : Scanned R w w'' where
  keeps := h.keeps.trans h'.keeps
  ready := h'.ready
  suffix := h'.suffix.trans h.suffix
  valid := h'.valid.trans h.valid
  logs := h'.logs ∘ h.logs
  emitted := Subset.trans h.emitted h'.emitted
  sought i hi idx hidx e hs :=
    h'.sought i (h.keeps.captured hi) idx (h.idx_lt hi hidx) e (h.sought i hi idx hidx e hs)
  same hp := (h'.same (hp.of_suffix h.suffix)).trans (h.same hp)

omit h

end Scanned

end Scanned

theorem keeps_setTable {t : Table E} (haddr : t.addr = (ht.tables i).addr)
    (hexp : t.exp = (ht.tables i).exp) : Keeps ht (ht.setTable i t) := by
  refine ⟨rfl, fun _ => rfl, rfl, fun j _ => ?_, fun j _ => ?_⟩
  · by_cases hj : j = i
    · rw [hj, setTable_self, haddr]
    · rw [setTable_of_ne _ hj]
  · by_cases hj : j = i
    · rw [hj, setTable_self, hexp]
    · rw [setTable_of_ne _ hj]

/-- Compacting a chain leaves every entry in its chain. -/
theorem compactBucketChain_spec (hinv : Inv T ht) (hidx : idx < numBuckets (ht.tables i).exp)
    (hbehind : i = 0 → ¬ idx < ht.rehashIdx.toNat) :
    ∃ ht', compactBucketChain ht i idx = some ht' ∧ Moved T ht ht' ∧ Keeps ht ht'
      ∧ ht'.rehashIdx = ht.rehashIdx
      ∧ (∀ j idx', stored ((ht'.tables j).chains idx') = stored ((ht.tables j).chains idx'))
      ∧ (∀ j idx', ¬ (j = i ∧ idx' = idx) → (ht'.tables j).chains idx' = (ht.tables j).chains idx')
      ∧ ∀ j, (ht'.tables j).exp = (ht.tables j).exp := by
  obtain ⟨r, hr, hre⟩ := compactChain_spec ((hinv.ok i).linked _ hidx)
  simp only [compactBucketChain]
  rw [Table.chain?_of_lt hidx, bind_some, hr, map_some]
  refine ⟨_, rfl, hre.moved hinv hidx hbehind, keeps_setTable rfl rfl, rfl, ?_, ?_, ?_⟩
  · intro j idx'
    by_cases hj : j = i
    · subst hj
      rw [setTable_self]
      by_cases hk : idx' = idx
      · subst hk
        simp [Table.setChain, hre.stored_eq]
      · simp [Table.setChain, hk]
    · rw [setTable_of_ne _ hj]
  · intro j idx' hne
    by_cases hj : j = i
    · subst hj
      have hk : idx' ≠ idx := fun hk => hne ⟨rfl, hk⟩
      rw [setTable_self]
      simp [Table.setChain, hk]
    · rw [setTable_of_ne _ hj]
  · intro j
    by_cases hj : j = i
    · rw [hj, setTable_self]
      rfl
    · rw [setTable_of_ne _ hj]

section Scan

variable {exp : Int}

theorem mask_eq (h : exp ≠ -1) :
    BitVec.ofNat 64 (expToMask exp) = mask 64 exp.toNat := by
  rw [expToMask, if_neg h, numBuckets_of_ne h, mask]

theorem toNat_and_mask (h : exp ≠ -1) (hle : exp ≤ 57) (x : BitVec 64) :
    (x &&& mask 64 exp.toNat).toNat = bucketIdx x exp := by
  rw [BitVec.toNat_and, toNat_mask (by omega), bucketIdx, expToMask, if_neg h, numBuckets_of_ne h]

/-- The hashes between a cursor and the end of its cell have the cursor's chain. -/
theorem bucketIdx_of_between (h : exp ≠ -1) (hle : exp ≤ 57) {x y : BitVec 64}
    (hxy : rank x ≤ rank y) (hlt : rank y < stop exp.toNat x) :
    bucketIdx y exp = bucketIdx x exp := by
  rw [bucketIdx_eq h, bucketIdx_eq h]
  exact mod_eq_of_between (by omega) hxy hlt

theorem Inv.alloc_of_size (h : Inv T ht) (hsize : ht.size ≠ 0) : (ht.tables 0).exp ≠ -1 := by
  intro hnull
  have hbuckets : numBuckets (ht.tables 0).exp = 0 := numBuckets_eq_zero.mpr hnull
  by_cases hre : ht.rehashIdx = -1
  · refine hsize ?_
    rw [size_idle h hre, (h.ok 0).used_eq, Table.contents, hbuckets]
    rfl
  · have hlt := (h.busy hre).2.1
    omega

variable [DecidableEq K] [DecidableEq E] {x : BitVec 64}

theorem scanIndex_spec (h : Ready T w.ht w.script) (hR : Within R w) (hi : Captured w.ht i)
    (hidx : idx < numBuckets (w.ht.tables i).exp) (hbehind : i = 0 → ¬ idx < w.ht.rehashIdx.toNat) :
    ∃ w', scanIndex w i idx = some w' ∧ Scanned R w w'
      ∧ ∀ e, Accepted R e w → Sought R e w ((w.ht.tables i).chains idx) 0 → Emitted R e w' := by
  obtain ⟨m, hrep⟩ := h.rep
  have hpos := length_pos_of_ne_nil ((hrep.inv.ok i).linked _ hidx).1
  let w₀ : Walk T := { w with scanned := w.scanned ++ [((w.ht.tables i).addr, idx)] }
  obtain ⟨w₁, hw₁, hwalked, hem⟩ := emitChain_spec (w := w₀) _ h hR hi hidx hpos le_rfl
  simp only [scanIndex]
  rw [Table.chain?_of_lt hidx, bind_some]
  change emitChain _ _ (_ + w.actions.length) 0 w₀ = _ at hw₁
  change ∃ w', (emitChain _ _ _ 0 w₀).bind _ = some w' ∧ _
  rw [hw₁, bind_some]
  have hlog : ((w.ht.tables i).addr, idx) ∈ w₁.scanned := by
    rw [hwalked.logs.1]
    simp [w₀]
  have hlogs : w.compacted ⊆ w.scanned → w₁.compacted ⊆ w₁.scanned := by
    intro hsub x hx
    rw [hwalked.logs.2] at hx
    rw [hwalked.logs.1]
    exact mem_append_left _ (hsub hx)
  have hscanned : Scanned R w w₁ :=
    ⟨hwalked.keeps, hwalked.ready, hwalked.suffix, hwalked.valid, hlogs, hwalked.emitted,
      fun j hj idx' hidx' e hs => hwalked.sought j hj idx' hidx' e 0 hs, hwalked.same⟩
  split
  · rename_i hused
    obtain ⟨m₁, hrep₁⟩ := hwalked.ready.rep
    have hbehind₁ : i = 0 → ¬ idx < w₁.ht.rehashIdx.toNat := by
      rw [hwalked.keeps.moved_eq]
      exact hbehind
    obtain ⟨ht', hcompact, hmoved, hkeeps, hre, hstored, -⟩ :=
      compactBucketChain_spec hrep₁.inv (hwalked.idx_lt hi hidx) hbehind₁
    rw [hcompact, map_some]
    refine ⟨_, rfl, ⟨hwalked.keeps.trans hkeeps,
      ⟨⟨m₁, hrep₁.of_moved hmoved⟩, ?_, ?_, fun hact => ?_⟩,
      hwalked.suffix, hwalked.valid, ?_, hwalked.emitted, ?_, fun hp => ?_⟩, hem⟩
    · rw [hkeeps.exp_eq 0 (.inl rfl)]
      exact hwalked.ready.alloc
    · rw [hkeeps.pauseRehash_eq]
      exact hwalked.ready.paused
    · obtain ⟨hq, m₂, hrep₂, hroom⟩ := hwalked.ready.roomy hact
      rw [hkeeps.pauseRehash_eq]
      exact ⟨hq, m₂, hrep₂.of_moved hmoved, hroom.mono fun n hn => hn.keeps hkeeps (.inl hre)⟩
    · intro hsub x hx
      rcases mem_append.mp hx with hx | hx
      · exact hlogs hsub hx
      · rw [mem_singleton.mp hx, hwalked.keeps.addr_eq i hi]
        exact hlog
    · intro j hj idx' hidx' e hs
      refine (hscanned.sought j hj idx' hidx' e hs).imp id fun hw => ?_
      rw [waiting_zero] at hw ⊢
      rw [hstored]
      exact hw
    · exfalso
      rw [hwalked.same hp] at hused
      exact lt_irrefl _ hused
  · exact ⟨w₁, rfl, hscanned, hem⟩

theorem scanUnlessMoved_spec (h : Ready T w.ht w.script) (hR : Within R w) (hi : Captured w.ht i)
    (hidx : idx < numBuckets (w.ht.tables i).exp) :
    ∃ w', scanUnlessMoved w i idx = some w' ∧ Scanned R w w'
      ∧ ∀ e, Accepted R e w → Sought R e w ((w.ht.tables i).chains idx) 0 → Emitted R e w' := by
  rw [scanUnlessMoved]
  split
  · rename_i hcond
    refine scanIndex_spec h hR hi hidx ?_
    rintro rfl
    rcases hcond with hone | hidle | hle
    · cases hone
    · rw [hidle]
      exact Nat.not_lt_zero _
    · exact not_lt.mpr hle
  · -- a chain that was moved is empty
    rename_i hcond
    push Not at hcond
    obtain ⟨hzero, -, hlt⟩ := hcond
    obtain ⟨m, hrep⟩ := h.rep
    refine ⟨w, rfl, .refl h, fun e _ hs => hs.resolve_right fun hw => ?_⟩
    obtain rfl : i = 0 := by omega
    obtain ⟨h2, e', hmem, -⟩ := waiting_zero.mp hw
    rw [(hrep.inv.behind idx hlt).1] at hmem
    exact Multiset.notMem_zero _ hmem

/-! ### The chains of an interval -/

/-- Every chain of the larger table for a hash from the cursor to `stop` is scanned. -/
theorem scanExpansion_spec {s : Nat} (fuel : Nat) (h : Ready T w.ht w.script)
    (hR : Within R w) (hi : Captured w.ht i) (hexp : (w.ht.tables i).exp ≠ -1)
    (hle : (w.ht.tables i).exp ≤ 57) (hs : s ≤ (w.ht.tables i).exp.toNat)
    (hfuel : stop s x ≤ (rank x / 2 ^ (64 - (w.ht.tables i).exp.toNat) + fuel)
      * 2 ^ (64 - (w.ht.tables i).exp.toNat)) :
    ∃ c w', scanExpansion i (mask 64 s) (mask 64 (w.ht.tables i).exp.toNat) fuel x w
        = some (c, w') ∧ Scanned R w w' ∧ rank c = stop s x % 2 ^ 64
      ∧ ∀ y, rank x ≤ rank y → rank y < stop s x → ∀ e, Accepted R e w →
        Sought R e w ((w.ht.tables i).chains (bucketIdx y (w.ht.tables i).exp)) 0 →
        Emitted R e w' := by
  induction fuel generalizing x w with
  | zero =>
    have hstart := Nat.div_mul_le_self (rank x) (2 ^ (64 - (w.ht.tables i).exp.toNat))
    have hend := lt_stop s x
    rw [Nat.add_zero] at hfuel
    omega
  | succ fuel ih =>
    have hl : (w.ht.tables i).exp.toNat ≤ 64 := by omega
    obtain ⟨w₁, hw₁, hscanned, hem⟩ := scanUnlessMoved_spec h hR hi (bucketIdx_lt hexp x)
    have hexp₁ := hscanned.keeps.exp_eq i hi
    rw [scanExpansion, toNat_and_mask hexp hle, hw₁, bind_some]
    simp only [nextCursor_eq]
    -- the hashes of this chain
    have hthis : ∀ y, rank x ≤ rank y →
        rank y < stop (w.ht.tables i).exp.toNat x → ∀ e, Accepted R e w →
        Sought R e w ((w.ht.tables i).chains (bucketIdx y (w.ht.tables i).exp)) 0 →
            Emitted R e w₁ := by
      intro y hxy hlt e hacc hsought
      rw [bucketIdx_of_between hexp hle hxy hlt] at hsought
      exact hem e hacc hsought
    rcases next_cases hs hl x with ⟨hend, hstop⟩ | ⟨hmore, hrank, hstop⟩
    · rw [if_neg (not_not.mpr hend)]
      refine ⟨_, w₁, rfl, hscanned, ?_, ?_⟩
      · rw [rank_next hl, hstop]
      · rw [← hstop]
        exact hthis
    · rw [if_pos hmore]
      have hfuel₁ : stop s (next x (mask 64 (w₁.ht.tables i).exp.toNat))
          ≤ (rank (next x (mask 64 (w₁.ht.tables i).exp.toNat))
            / 2 ^ (64 - (w₁.ht.tables i).exp.toNat) + fuel)
              * 2 ^ (64 - (w₁.ht.tables i).exp.toNat) := by
        rw [hexp₁, hstop, hrank, stop_div, Nat.add_assoc, Nat.add_comm 1 fuel]
        exact hfuel
      obtain ⟨c, w', hw', hscanned', hc, hem'⟩ := ih hscanned.ready (hscanned.within hR)
        (hscanned.keeps.captured hi) (hexp₁ ▸ hexp) (hexp₁ ▸ hle) (hexp₁ ▸ hs) hfuel₁
      rw [hexp₁, hstop] at hc hem'
      rw [hexp₁] at hw'
      refine ⟨c, w', hw', hscanned.trans hscanned', hc, fun y hxy hlt e hacc hsought => ?_⟩
      rcases Nat.lt_or_ge (rank y) (stop (w.ht.tables i).exp.toNat x) with hin | hout
      · exact hscanned'.mono (hthis y hxy hin e hacc hsought)
      · rw [← hrank] at hout
        refine hem' y hout hlt e (hscanned.accepted hacc) ?_
        exact hscanned.sought i hi _ (bucketIdx_lt hexp y) e hsought

/-! ### One call -/

/-- The exponent of the smaller table. -/
def scanExp (ht : Hashtable E) : Nat :=
  if ht.isRehashing then (min (ht.tables 0).exp (ht.tables 1).exp).toNat
    else (ht.tables 0).exp.toNat

/-- Every chain, of either array, for a hash from `x` to the end of its cell in the smaller table
is scanned. -/
def Covers (R : List E) (w w' : Walk T) (x : BitVec 64) : Prop :=
  ∀ i, Captured w.ht i → ∀ y, Cursor.rank x ≤ Cursor.rank y →
    Cursor.rank y < Cursor.stop (scanExp w.ht) x → ∀ e, Accepted R e w →
    Sought R e w ((w.ht.tables i).chains (bucketIdx y (w.ht.tables i).exp)) 0 → Emitted R e w'

/-- The smaller table, then the larger one. -/
theorem scanBoth_spec {small large : Fin 2} (hne : small ≠ large)
    (h : Ready T w.ht w.script) (hR : Within R w) (hre : w.ht.rehashIdx ≠ -1)
    (hsmall : (w.ht.tables small).exp ≠ -1 ∧ (w.ht.tables small).exp ≤ 57)
    (hlarge : (w.ht.tables large).exp ≠ -1 ∧ (w.ht.tables large).exp ≤ 57)
    (hle : (w.ht.tables small).exp.toNat ≤ (w.ht.tables large).exp.toNat)
    (hexp : scanExp w.ht = (w.ht.tables small).exp.toNat) :
    ∃ c w', (scanUnlessMoved w small (bucketIdx x (w.ht.tables small).exp)).bind
        (scanExpansion large (mask 64 (w.ht.tables small).exp.toNat)
          (mask 64 (w.ht.tables large).exp.toNat) (numBuckets (w.ht.tables large).exp) x)
        = some (c, w') ∧ Scanned R w w' ∧ rank c = stop (scanExp w.ht) x % 2 ^ 64
      ∧ Covers R w w' x := by
  obtain ⟨w₁, hw₁, hscanned, hem⟩ :=
    scanUnlessMoved_spec h hR (.inr hre) (bucketIdx_lt hsmall.1 x)
  have hexp₁ := hscanned.keeps.exp_eq large (.inr hre)
  have hfuel : stop (w.ht.tables small).exp.toNat x
      ≤ (rank x / 2 ^ (64 - (w₁.ht.tables large).exp.toNat) + numBuckets (w.ht.tables large).exp)
        * 2 ^ (64 - (w₁.ht.tables large).exp.toNat) := by
    have hall : numBuckets (w.ht.tables large).exp * 2 ^ (64 - (w.ht.tables large).exp.toNat) =
        2 ^ 64 := by
      rw [numBuckets_of_ne hlarge.1, ← Nat.pow_add]
      congr 1
      omega
    have hstop := stop_le (show (w.ht.tables small).exp.toNat ≤ 64 by omega) x
    rw [hexp₁, Nat.add_mul, hall]
    omega
  obtain ⟨c, w', hw', hscanned', hc, hem'⟩ :=
    scanExpansion_spec _ hscanned.ready (hscanned.within hR)
    (hscanned.keeps.captured (.inr hre)) (hexp₁ ▸ hlarge.1) (hexp₁ ▸ hlarge.2) (hexp₁ ▸ hle) hfuel
  rw [hexp₁] at hw' hem'
  refine ⟨c, w', by rw [hw₁, bind_some, hw'], hscanned.trans hscanned', hexp ▸ hc, ?_⟩
  intro j hj y hxy hlt e hacc hs
  rw [hexp] at hlt
  by_cases hjs : j = small
  · subst hjs
    rw [bucketIdx_of_between hsmall.1 hsmall.2 hxy hlt] at hs
    exact hscanned'.mono (hem e hacc hs)
  · obtain rfl : j = large := by omega
    exact hem' y hxy hlt e (hscanned.accepted hacc)
      (hscanned.sought j hj _ (bucketIdx_lt hlarge.1 y) e hs)

theorem scanTables_spec (h : Ready T w.ht w.script) (hR : Within R w) (x : BitVec 64) :
    ∃ c w', scanTables w x = some (c, w') ∧ Scanned R w w'
      ∧ rank c = stop (scanExp w.ht) x % 2 ^ 64 ∧ Covers R w w' x := by
  obtain ⟨m, hrep⟩ := h.rep
  have hrange : ∀ j, (w.ht.tables j).exp ≠ -1 → 0 ≤ (w.ht.tables j).exp ∧
      (w.ht.tables j).exp ≤ 57 :=
    fun j hj => (hrep.inv.ok j).exp_range.resolve_left hj
  have hzero := hrange 0 h.alloc
  rw [scanTables]
  split
  · rename_i hre
    have hbusy := isRehashing_iff.mp hre
    obtain ⟨-, -, hexp1, -⟩ := hrep.inv.busy hbusy
    have hone := hrange 1 hexp1
    by_cases hle : (w.ht.tables 0).exp ≤ (w.ht.tables 1).exp
    · simp only [if_pos hle, sub_zero]
      rw [mask_eq h.alloc, mask_eq hexp1, toNat_and_mask h.alloc hzero.2]
      refine scanBoth_spec (by decide) h hR hbusy ⟨h.alloc, hzero.2⟩ ⟨hexp1, hone.2⟩ (by omega) ?_
      rw [scanExp, if_pos hre, min_eq_left hle]
    · simp only [if_neg hle, sub_self]
      rw [mask_eq h.alloc, mask_eq hexp1, toNat_and_mask hexp1 hone.2]
      refine scanBoth_spec (by decide) h hR hbusy ⟨hexp1, hone.2⟩ ⟨h.alloc, hzero.2⟩ (by omega) ?_
      rw [scanExp, if_pos hre, min_eq_right (by omega)]
  · rename_i hidle
    have hidle' : w.ht.rehashIdx = -1 := not_isRehashing_iff.mp (by simpa using hidle)
    have hexp : scanExp w.ht = (w.ht.tables 0).exp.toNat := by rw [scanExp, if_neg hidle]
    obtain ⟨w₁, hw₁, hscanned, hem⟩ :=
      scanIndex_spec h hR (.inl rfl) (bucketIdx_lt h.alloc x) fun _ => by
        rw [hidle']
        exact Nat.not_lt_zero _
    simp only
    rw [mask_eq h.alloc, toNat_and_mask h.alloc hzero.2, hw₁, map_some, hexp]
    refine ⟨_, w₁, rfl, hscanned, ?_, ?_⟩
    · rw [nextCursor_eq, rank_next (by omega)]
    · intro j hj y hxy hlt e hacc hs
      obtain rfl : j = 0 := hj.resolve_right fun hne => hne hidle'
      rw [hexp] at hlt
      rw [bucketIdx_of_between h.alloc hzero.2 hxy hlt] at hs
      exact hem e hacc hs

/-- The entries that a callback may put in the place of others. -/
def replacements (script : List (List (Action T))) : List E :=
  script.flatten.filterMap Action.replacement

/-- **One scan call.**  It returns, compacts only chains it scanned, and passes every valid entry
that was stored in the chain of a hash between its cursor and the one it returns. -/
theorem hashtableScan_spec {m : K → Option E} (hrep : Represents T ht m)
    (hpause : 0 ≤ ht.pauseRehash)
    (script : List (List (Action T))) (hroom : ¬ Passive script.flatten →
      ht.pauseRehash + 1 < 2 ^ 15 ∧ HasRoom T (Roomy T ht) script m)
    (x : BitVec 64) (valid : E → Bool) (allowed : Bool) :
    ∃ c w, hashtableScan ht x script valid allowed = some (c, w) ∧ w.compacted ⊆ w.scanned
      ∧ (∃ m', Represents T w.ht m' ∧ (Passive script.flatten → m' = m))
      ∧ (ht.size = 0 → c = 0)
      ∧ (ht.size ≠ 0 → rank c = stop (scanExp ht) x % 2 ^ 64
        ∧ ∀ i, Captured ht i → ∀ y, rank x ≤ rank y →
          rank y < stop (scanExp ht) x → ∀ h2 e,
          (h2, e) ∈ stored ((ht.tables i).chains (bucketIdx y (ht.tables i).exp)) →
          (∀ e', Stands T (replacements script) e e' → valid e' = true) →
          Emitted (replacements script) e w) := by
  rw [hashtableScan]
  split
  · rename_i hsize
    exact ⟨_, _, rfl, Subset.refl _, ⟨m, hrep, fun _ => rfl⟩, fun _ => rfl, absurd hsize⟩
  · rename_i hsize
    have hpaused : Represents T (hashtablePauseRehashing ht) m := by
      refine ⟨hrep.inv.of_tables rfl rfl rfl, hrep.holds.of_items rfl, ?_, i16_range _⟩
      exact congrArg (fun n => i16 (n + 1)) hrep.paired
    have hready : Ready T (hashtablePauseRehashing ht) script := by
      refine ⟨⟨m, hpaused⟩, hrep.inv.alloc_of_size hsize, i16_succ_ne_zero hpause hrep.range.2,
        fun hact => ?_⟩
      obtain ⟨hlt, hroom'⟩ := hroom hact
      have hself : i16 (ht.pauseRehash + 1) = ht.pauseRehash + 1 := i16_of_range ⟨by omega, hlt⟩
      refine ⟨?_, m, hpaused, hroom'.mono fun n hn => ⟨hn.small, hn.shrinking, hn.instant⟩⟩
      change 0 < i16 (ht.pauseRehash + 1)
      omega
    let w₀ : Walk T := ⟨hashtablePauseRehashing ht, script, valid, [], [], []⟩
    have hwithin : Within (replacements script) w₀ := by
      intro a ha e he
      exact mem_filterMap.mpr ⟨a, ha, mem_toList.mp he⟩
    obtain ⟨c, w', hw', hscanned, hc, hcovers⟩ := scanTables_spec hready hwithin x
    change ∃ c w, (scanTables w₀ x).bind _ = some (c, w) ∧ _
    rw [hw', bind_some]
    -- the pause is taken back
    obtain ⟨m', hrep', hsame⟩ :
        ∃ m', Represents T w'.ht m' ∧ (Passive script.flatten → m' = m) := by
      by_cases hp : Passive script.flatten
      · have hht : w'.ht = hashtablePauseRehashing ht := hscanned.same hp
        exact ⟨m, hht ▸ hpaused, fun _ => rfl⟩
      · obtain ⟨m', hrep'⟩ := hscanned.ready.rep
        exact ⟨m', hrep', fun hp' => absurd hp' hp⟩
    have hback : i16 (w'.ht.pauseRehash - 1) = ht.pauseRehash := by
      rw [hscanned.keeps.pauseRehash_eq]
      change i16 (i16 (ht.pauseRehash + 1) - 1) = _
      rw [i16_sub, add_sub_cancel_right, i16_of_range hrep.range]
    obtain ⟨ht', hresume, hmoved⟩ :=
      hashtableResumeRehashing_spec hrep'.inv (hback ▸ hpause) allowed
    simp only [hresume, map_some]
    refine ⟨c, { w' with ht := ht' }, rfl, hscanned.logs (Subset.refl _), ⟨m', ?_, hsame⟩,
      fun hzero => absurd hzero hsize, fun _ => ⟨hc, ?_⟩⟩
    · refine Represents.of_moved ?_ hmoved
      refine ⟨hrep'.inv.of_tables rfl rfl rfl, hrep'.holds.of_items rfl, ?_, i16_range _⟩
      exact congrArg (fun n => i16 (n - 1)) hrep'.paired
    · intro i hi y hxy hlt h2 e hmem hvalid
      exact hcovers i hi y hxy hlt e hvalid (.inr (waiting_zero.mpr ⟨h2, e, hmem, rfl, .inl rfl⟩))

/-! ### Callbacks -/

/-- The chains that a cursor covers: those of the hashes from the cursor to the end of its chain
in the smaller table. -/
def CoveredBy (ht : Hashtable E) (cursor : BitVec 64) (i : Fin 2) (idx : Nat) : Prop :=
  Captured ht i ∧ idx < numBuckets (ht.tables i).exp
    ∧ ∃ y, Cursor.rank cursor ≤ Cursor.rank y ∧ Cursor.rank y < Cursor.stop (scanExp ht) cursor
      ∧ idx = bucketIdx y (ht.tables i).exp

/-- **The callback rules.**  If each insert of the callback finds room, a scan call stays within
the arrays, compacts only chains that it scanned, and passes every entry of the chains covered by
its cursor that is valid, or the valid entry that took its place. -/
theorem scan_callback_emits {m : K → Option E} (hrep : Represents T ht m)
    (hpause : 0 ≤ ht.pauseRehash)
    (hlt : ht.pauseRehash + 1 < 2 ^ 15) (script : List (List (Action T)))
    (hroom : HasRoom T (Roomy T ht) script m) (cursor : BitVec 64) (valid : E → Bool)
    (allowed : Bool) :
    ∃ c w, hashtableScan ht cursor script valid allowed = some (c, w) ∧ w.compacted ⊆ w.scanned
      ∧ ∀ i idx, CoveredBy ht cursor i idx → ∀ h2 e, (h2, e) ∈ stored ((ht.tables i).chains idx) →
        (∀ e', Stands T (replacements script) e e' → valid e' = true) →
        ∃ e' ∈ w.emitted, Stands T (replacements script) e e' := by
  obtain ⟨c, w, hscan, hlogs, -, -, hcover⟩ :=
    hashtableScan_spec hrep hpause script (fun _ => ⟨hlt, hroom⟩) cursor valid allowed
  refine ⟨c, w, hscan, hlogs, ?_⟩
  rintro i idx ⟨hi, hidx, y, hge, hstop, rfl⟩ h2 e hmem hvalid
  have hsize : ht.size ≠ 0 := by
    intro hzero
    have hitem := mem_items.mpr ⟨i, Table.mem_contents.mpr ⟨_, hidx, hmem⟩⟩
    exact notMem_items hrep.inv hzero _ hitem
  exact (hcover hsize).2 i hi y hge hstop h2 e hmem hvalid

end Scan

/-- The first `n` positions hold the entries from `first` on. -/
def bucketFrom (first n : Nat) : Bucket Nat :=
  ⟨fun _ => 0, fun pos => if pos.val < n then some (first + pos.val) else none⟩

/-- Whether a table is in order can be computed. -/
instance decidableTableOk (T : HashtableType K E) (t : Table E) : Decidable (TableOk T t) :=
  decidable_of_iff ((t.exp = -1 ∨ 0 ≤ t.exp ∧ t.exp ≤ 57)
      ∧ (∀ i < numBuckets t.exp, t.chains i ≠ [] ∧ ∀ b ∈ (t.chains i).dropLast, b.cell 6 = none)
      ∧ (∀ i < numBuckets t.exp, ∀ x ∈ stored (t.chains i),
        x.1 = highBits (T.hashEntry x.2) ∧ bucketIdx (T.hashEntry x.2) t.exp = i)
      ∧ t.used = t.contents.card ∧ t.childBuckets = t.children)
    ⟨fun ⟨hexp, hlinked, hplaced, hused, hchild⟩ => ⟨hexp, hlinked, hplaced, hused, hchild⟩,
      fun h => ⟨h.exp_range, h.linked, h.placed, h.used_eq, h.child_eq⟩⟩

/-- A table of 35 entries that shrinks from two chains to one. -/
def shrinking : Hashtable Nat :=
  { (hashtableCreate .forbid true : Hashtable Nat) with
    rehashIdx := 0
    tables := fun i =>
      if i = 0 then ⟨1, 1, fun idx => if idx = 0 then [bucketFrom 0 1] else [Bucket.empty], 1, 0⟩
      else ⟨2, 0, fun _ => [bucketFrom 1 6, bucketFrom 7 6, bucketFrom 13 6, bucketFrom 19 6,
        bucketFrom 25 6, bucketFrom 31 4], 34, 5⟩
    nextAddr := 3 }

/-- A table that stores the numbers below `n` holds the map of them. -/
theorem holds_range {ht : Hashtable Nat} {n : Nat} (h : ht.items.map Prod.snd = Multiset.range n) :
    Holds collide ht fun k => if k < n then some k else none := by
  intro k e
  have hmem : (∃ h2, (h2, e) ∈ ht.items) ↔ e < n := by
    rw [← Multiset.mem_range, ← h, Multiset.mem_map]
    constructor
    · rintro ⟨h2, hx⟩
      exact ⟨_, hx, rfl⟩
    · rintro ⟨⟨h2, e'⟩, hx, rfl⟩
      exact ⟨h2, hx⟩
  rw [hmem]
  change (if k < n then some k else none) = some e ↔ e < n ∧ e = k
  by_cases hk : k < n
  · rw [if_pos hk, some.injEq]
    omega
  · rw [if_neg hk]
    constructor
    · intro hx
      cases hx
    · rintro ⟨hlt, rfl⟩
      exact absurd hlt hk

theorem distinct_range {ht : Hashtable Nat} {n : Nat}
    (h : ht.items.map Prod.snd = Multiset.range n) :
    (ht.items.map fun x => collide.entryGetKey x.2).Nodup := by
  rw [show (ht.items.map fun x => collide.entryGetKey x.2) = Multiset.range n from h]
  exact Multiset.nodup_range n

theorem shrinking_entries : shrinking.items.map Prod.snd = Multiset.range 35 := by decide +kernel

theorem shrinking_represents :
    Represents collide shrinking fun k => if k < 35 then some k else none := by
  have hok : ∀ i, TableOk collide (shrinking.tables i) := by decide +kernel
  refine ⟨⟨hok, fun h => ?_, fun _ => by decide +kernel, nofun,
    distinct_range shrinking_entries, by decide +kernel⟩, holds_range shrinking_entries, rfl,
    by decide⟩
  cases h

/-- The callback deletes the first entry passed to it and adds another, then it replaces one. -/
def deleteAddReplace : List (List (Action collide)) := [[.delete true, .add 100 true], [.replace 9]]

theorem deleteAddReplace_hasRoom :
    HasRoom collide (Roomy collide shrinking) deleteAddReplace
      fun k => if k < 35 then some k else none := by
  intro p hp
  have hlt : p < 35 := by
    by_contra hge
    exact absurd ((if_neg hge).symm.trans hp) (by simp)
  refine ⟨fun e he _ => he.elim, ?_⟩
  rintro r _ ⟨-, rfl⟩
  -- 34 entries are left, and one more keeps the shrink going
  have hset : {k | (Function.update (fun k => if k < 35 then some k else none)
      (collide.entryGetKey p)
      none k : Option Nat).isSome} = ((Finset.range 35).erase p : Finset Nat) := by
    ext k
    by_cases hk : k = p
    · simp [hk, show collide.entryGetKey p = p from rfl]
    · by_cases hk35 : k < 35 <;>
        simp [Function.update, hk, hk35, show collide.entryGetKey p = p from rfl]
  refine ⟨fun e _ _ => ?_, fun r m' hspec q hq => ⟨fun e he _ => he.elim, fun _ _ _ => trivial⟩⟩
  rw [hset, Set.ncard_coe_finset, Finset.card_erase_of_mem (Finset.mem_range.mpr hlt),
    Finset.card_range]
  exact ⟨by decide, fun _ _ _ _ => by decide, fun _ hidle => absurd hidle (by decide)⟩

theorem scan_callback_emits_shrinking :
    ∃ c w, hashtableScan shrinking 0 deleteAddReplace (fun _ => true) true = some (c, w)
      ∧ w.compacted ⊆ w.scanned
      ∧ ∀ i idx, CoveredBy shrinking 0 i idx →
        ∀ h2 e, (h2, e) ∈ stored ((shrinking.tables i).chains idx) →
        ∃ e' ∈ w.emitted, Stands collide (replacements deleteAddReplace) e e' := by
  obtain ⟨c, w, hscan, hlogs, hem⟩ :=
    scan_callback_emits shrinking_represents (by decide) (by decide)
    deleteAddReplace deleteAddReplace_hasRoom 0 (fun _ => true) true
  exact ⟨c, w, hscan, hlogs, fun i idx hcov h2 e hmem => hem i idx hcov h2 e hmem fun _ _ => rfl⟩

/-- An insert of the callback turns the shrink around; the scan goes on with the numbers, masks
and index it had, and reads the second chain of the array that has one. -/
theorem scan_callback_leaves_array :
    Represents collide shrinking (fun k => if k < 35 then some k else none)
      ∧ (hashtableScan shrinking 0 ([[.add 100 true]] : List (List (Action collide)))
        (fun _ => true) true).isNone = true :=
  ⟨shrinking_represents, by decide +kernel⟩

end NexCache.HashTables
