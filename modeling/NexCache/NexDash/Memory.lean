import NexCache.NexDash.Refine

/-!
# Memory accounting and eviction

`used_memory` is the sum of the costs of the entries (`Accounted`), so the two
passes of `nexdash_evict_to_target` can reach any target: a pass over one tier ends
below the target or with that tier empty, and no call produces an entry of a third
tier.

`Evicts target M vs M'` is the order of eviction in its own terms: the entries `vs`
leave `M` one after the other, each while the target is exceeded, a protected one
only when no probatory one is left.
-/

namespace NexCache.NexDash

open Machine Bloom Runs Function Multiset

/-- The total cost of some entries. -/
def totalCost (M : Multiset NexDashSlot) : Nat := (M.map NexDashSlot.cost).sum

@[simp] theorem totalCost_zero : totalCost 0 = 0 := rfl

@[simp] theorem totalCost_cons (sl : NexDashSlot) (M : Multiset NexDashSlot) :
    totalCost (sl ::ₘ M) = sl.cost + totalCost M := by
  rw [totalCost, map_cons, sum_cons]
  rfl

theorem cost_le (sl : NexDashSlot) : sl.cost ≤ 2 ^ 33 := by
  rw [NexDashSlot.cost, NEXDASH_ENTRY_OVERHEAD]
  omega

theorem totalCost_le (M : Multiset NexDashSlot) : totalCost M ≤ M.card * 2 ^ 33 := by
  induction M using Multiset.induction with
  | empty => simp
  | cons sl M ih =>
    have := cost_le sl
    rw [totalCost_cons, card_cons, Nat.add_mul]
    omega

theorem satSub_add (a b : Nat) : satSub (a + b) a = b := by
  rw [satSub]
  split <;> omega

/-! ### The accounting invariant -/

/-- The slot is in one of the two tiers the operations know. -/
def NexDashSlot.Queued (sl : NexDashSlot) : Prop :=
  tagGetTier sl.valuePtr = Eviction2QTier.tierProbatory.code ∨
    tagGetTier sl.valuePtr = Eviction2QTier.tierProtected.code

structure Accounted (t : NexDashTable) : Prop where
  used : t.usedMemory = totalCost t.contents
  unclipped : t.clipped = false
  queued : ∀ sl ∈ t.contents, sl.Queued
  stored : ∀ sl ∈ t.contents, tagGetAddr sl.valuePtr ≠ 0#48

variable {t : NexDashTable} {sl : NexDashSlot} {rest : Multiset NexDashSlot}

theorem PoolOk.totalCost_lt (h : PoolOk t) (hle : rest.card ≤ t.contents.card) :
    totalCost (sl ::ₘ rest) < 2 ^ 64 := by
  have h1 := totalCost_le (sl ::ₘ rest)
  rw [card_cons] at h1
  have h2 : (rest.card + 1) * 2 ^ 33 ≤ (2 ^ 30 + 1) * 2 ^ 33 :=
    Nat.mul_le_mul_right _ (by have := h.card_le; omega)
  omega

variable {p : Pos}

/-- A rewritten entry that keeps its size and address is accounted for as before. -/
theorem Accounted.setSlot (h : Accounted t) {sl sl' : NexDashSlot} (hp : p ∈ positions t.dirSize)
    (hc : t.cell p = some sl) (hsize : sl'.valueSize = sl.valueSize)
    (haddr : tagGetAddr sl'.valuePtr = tagGetAddr sl.valuePtr) (htier : sl'.Queued) :
    Accounted (t.setSlot p sl') := by
  obtain ⟨rest, hold, hnew⟩ := contents_setSlot hp hc sl'
  obtain ⟨hused, hclip, hq, hst⟩ := h
  rw [hold] at hused hq hst
  obtain ⟨-, hq⟩ := forall_mem_cons.mp hq
  obtain ⟨hslot, hst⟩ := forall_mem_cons.mp hst
  refine ⟨?_, hclip, ?_, ?_⟩
  · show t.usedMemory = _
    rw [hused, hnew, totalCost_cons, totalCost_cons, NexDashSlot.cost, NexDashSlot.cost, hsize]
  · rw [hnew]
    exact forall_mem_cons.mpr ⟨htier, hq⟩
  · rw [hnew]
    exact forall_mem_cons.mpr ⟨haddr ▸ hslot, hst⟩

theorem Accounted.ndRemoveSlot (h : Accounted t) (hp : p ∈ positions t.dirSize)
    (hc : t.cell p = some sl) : Accounted (ndRemoveSlot t p) := by
  have hcont := contents_ndRemoveSlot hp hc
  obtain ⟨freed, heq⟩ := ndRemoveSlot_eq t p
  have hat : t.slotAt p = sl := (NexDashTable.occupied_of_cell hc).2
  obtain ⟨hused, hclip, hq, hst⟩ := h
  rw [hcont] at hused hq hst
  rw [totalCost_cons] at hused
  have husedNew : (NexDash.ndRemoveSlot t p).usedMemory = satSub t.usedMemory sl.cost := by
    rw [heq, ← hat]
  have hclipNew : (NexDash.ndRemoveSlot t p).clipped
      = (t.clipped || decide (t.usedMemory < sl.cost)) := by
    rw [heq, ← hat]
  refine ⟨?_, ?_, fun s hs => hq s (mem_cons_of_mem hs),
    fun s hs => hst s (mem_cons_of_mem hs)⟩
  · rw [husedNew, hused, satSub_add]
  · rw [hclipNew, hclip, hused]
    simp

/-- The overwrite charges the new cost after giving back what the slot was charged. -/
theorem accounted_ndStore (hc : t.cell p = some sl) (key : Key)
    {value : Addr} (valueSize type : BitVec 32) (expireUs : Nat) (hvalue : value ≠ 0#48)
    (hused : t.usedMemory
      = (if tagGetAddr sl.valuePtr ≠ 0#48 then sl.cost else 0) + totalCost rest)
    (hclip : t.clipped = false) (htier : sl.Queued)
    (hrest : ∀ s ∈ rest, s.Queued ∧ tagGetAddr s.valuePtr ≠ 0#48)
    (hnew : (ndStore t p key value valueSize type expireUs).contents
      = storedSlot sl key value valueSize type expireUs ::ₘ rest)
    (hfit : totalCost (storedSlot sl key value valueSize type expireUs ::ₘ rest) < 2 ^ 64) :
    Accounted (ndStore t p key value valueSize type expireUs) := by
  have hat : t.slotAt p = sl := (NexDashTable.occupied_of_cell hc).2
  obtain ⟨freed, heq⟩ := ndStore_eq t p key value valueSize type expireUs
  rw [hat] at heq
  have hcost : (storedSlot sl key value valueSize type expireUs).cost
      = valueSize.toNat + NEXDASH_ENTRY_OVERHEAD := rfl
  refine ⟨?_, ?_, ?_, ?_⟩
  · rw [hnew, heq, totalCost_cons]
    rw [totalCost_cons] at hfit
    show u64 _ = _
    rw [hused, satSub_add, u64_of_lt (by omega)]
    omega
  · rw [heq]
    show (t.clipped || _) = false
    rw [hclip, hused]
    simp
  · rw [hnew]
    refine forall_mem_cons.mpr ⟨?_, fun s hs => (hrest s hs).1⟩
    simpa [NexDashSlot.Queued, storedSlot] using htier
  · rw [hnew]
    refine forall_mem_cons.mpr ⟨?_, fun s hs => (hrest s hs).2⟩
    simpa [storedSlot] using hvalue

/-- The `set` calls store addresses other than `NULL`. -/
def StoresValue (_ : Key) (value : Addr) (_ : BitVec 32) : Prop := value ≠ 0#48

theorem Accounted.move {R : Prop} {t t' : NexDashTable} (hsound : Sound t)
    (h : NdMove StoresValue R t t') (ha : Accounted t) : Accounted t' := by
  cases h with
  | count stats => exact ⟨ha.used, ha.unclipped, ha.queued, ha.stored⟩
  | remove hp hc => exact ha.ndRemoveSlot hp hc
  | @reexpire p sl hp hc enc =>
    have hq : sl.Queued := ha.queued sl (NexDashTable.mem_contents.mpr ⟨p, hp, hc⟩)
    exact ha.setSlot hp hc rfl rfl hq
  | promote hp hc hm =>
    refine ha.setSlot hp hc rfl ?_ ?_
    · rw [promotedSlot, tagGetAddr_setMeta]
    · exact .inr (by rw [promotedSlot, tagGetTier_setMeta])
  | @store p sl key value type hp hc hm hS valueSize expireUs =>
    obtain ⟨rest, hold, hnew⟩ := contents_ndStore hp hc key value valueSize type expireUs
    have hmem : sl ∈ t.contents := NexDashTable.mem_contents.mpr ⟨_, hp, hc⟩
    refine accounted_ndStore hc key valueSize type expireUs hS ?_ ha.unclipped
      (ha.queued sl hmem) ?_ hnew ?_
    · rw [if_pos (ha.stored sl hmem), ha.used, hold, totalCost_cons]
    · intro s hs
      have : s ∈ t.contents := by rw [hold]; exact mem_cons_of_mem hs
      exact ⟨ha.queued s this, ha.stored s this⟩
    · exact hsound.pool.totalCost_lt (by rw [hold, card_cons]; omega)
  | @create t' p key value type hkey hnew hcreate hS valueSize expireUs =>
    have hcont := contents_create hsound.shape.dirPos hcreate value valueSize type expireUs
    obtain ⟨_, _, _, cap, _, ht'⟩ := ndCreateSlot_some hcreate
    refine accounted_ndStore (cell_self_ndCreateSlot hcreate) key valueSize type expireUs hS ?_ ?_
      ?_ ?_ hcont ?_
    · -- a fresh slot has no value, so nothing is given back
      rw [if_neg (by simp [ndFreshSlot]), ht', Nat.zero_add]
      exact ha.used
    · rw [ht']
      exact ha.unclipped
    · exact .inl (by rw [ndFreshSlot, tagGetTier_setMeta])
    · exact fun s hs => ⟨ha.queued s hs, ha.stored s hs⟩
    · exact hsound.pool.totalCost_lt (Nat.le_refl _)
  | resize hR h =>
    obtain ⟨hcont, _, ht'⟩ := ndResize_spec hsound.shape h
    refine ⟨?_, ?_, ?_, ?_⟩
    · rw [hcont, ht']
      exact ha.used
    · rw [ht']
      exact ha.unclipped
    · rw [hcont]
      exact ha.queued
    · rw [hcont]
      exact ha.stored

/-! ### The order of eviction -/

/-- The entries `vs` leave `M` one after the other until `M'` is left. -/
inductive Evicts (target : Nat) :
    Multiset NexDashSlot → List NexDashSlot → Multiset NexDashSlot → Prop
  | done (M : Multiset NexDashSlot) : Evicts target M [] M
  | evict {v : NexDashSlot} {M M' : Multiset NexDashSlot} {vs : List NexDashSlot}
      (hover : target < totalCost (v ::ₘ M))
      (htier : tagGetTier v.valuePtr = Eviction2QTier.tierProbatory.code ∨
        tagGetTier v.valuePtr = Eviction2QTier.tierProtected.code ∧
          ∀ sl ∈ M, tagGetTier sl.valuePtr ≠ Eviction2QTier.tierProbatory.code)
      (hrest : Evicts target M vs M') : Evicts target (v ::ₘ M) (v :: vs) M'

variable {target : Nat}

theorem Evicts.append {M M' M'' : Multiset NexDashSlot} {vs ws : List NexDashSlot}
    (h : Evicts target M vs M') (h' : Evicts target M' ws M'') :
    Evicts target M (vs ++ ws) M'' := by
  induction h with
  | done M => exact h'
  | evict hover htier _ ih => exact .evict hover htier (ih h')

/-- The pass over `want` may evict: it is the probatory pass, or the probatory tier
is empty, or the target is met. -/
def PassOk (target : Nat) (want : Eviction2QTier) (t : NexDashTable) : Prop :=
  want = .tierProbatory ∨
    want = .tierProtected ∧ (t.usedMemory ≤ target ∨
      ∀ sl ∈ t.contents, tagGetTier sl.valuePtr ≠ Eviction2QTier.tierProbatory.code)

/-- The state of a pass: `M` is what the table held before the first eviction. -/
structure Evicting (target : Nat) (want : Eviction2QTier) (M : Multiset NexDashSlot)
    (acc : NexDashTable × List NexDashSlot) : Prop where
  accounted : Accounted acc.1
  trace : Evicts target M acc.2 acc.1.contents
  pass : PassOk target want acc.1

/-- The slot is not one that the pass still has to evict. -/
def Passed (target : Nat) (want : Eviction2QTier) (t : NexDashTable) (p : Pos) : Prop :=
  t.usedMemory ≤ target ∨
    ∀ sl, t.cell p = some sl → tagGetTier sl.valuePtr ≠ want.code

/-- What one visit of a slot does to the table. -/
structure Visited (t t' : NexDashTable) : Prop where
  dirSize : t'.dirSize = t.dirSize
  used : t'.usedMemory ≤ t.usedMemory
  cells : ∀ q sl, t'.cell q = some sl → t.cell q = some sl

theorem Visited.refl (t : NexDashTable) : Visited t t := ⟨rfl, Nat.le_refl _, fun _ _ h => h⟩

theorem Visited.trans {t t' t'' : NexDashTable} (h : Visited t t') (h' : Visited t' t'') :
    Visited t t'' :=
  ⟨h'.dirSize.trans h.dirSize, h'.used.trans h.used, fun q sl hc => h.cells q sl (h'.cells q sl hc)⟩

variable {want : Eviction2QTier}

theorem Passed.visited {t t' : NexDashTable} (h : Passed target want t p)
    (hv : Visited t t') : Passed target want t' p := by
  rcases h with hle | hno
  · exact .inl (hv.used.trans hle)
  · exact .inr fun sl hc => hno sl (hv.cells p sl hc)

theorem visited_ndRemoveSlot (hp : p ∈ positions t.dirSize) : Visited t (ndRemoveSlot t p) := by
  refine ⟨dirSize_ndRemoveSlot t p, ?_, ?_⟩
  · obtain ⟨freed, h⟩ := ndRemoveSlot_eq t p
    rw [h]
    show satSub _ _ ≤ _
    rw [satSub]
    split <;> omega
  · intro q sl hc
    rw [cell_ndRemoveSlot t (mem_positions.mp hp).2] at hc
    by_cases hqp : q = p
    · subst hqp
      rw [update_self] at hc
      simp at hc
    · rwa [update_of_ne hqp] at hc

variable {M : Multiset NexDashSlot} {acc : NexDashTable × List NexDashSlot}

/-- **One slot of a pass.** -/
theorem Evicting.slot (h : Evicting target want M acc) (hp : p ∈ positions acc.1.dirSize) :
    Evicting target want M (ndEvictSlot target want acc p) ∧
      Visited acc.1 (ndEvictSlot target want acc p).1 ∧
      Passed target want (ndEvictSlot target want acc p).1 p := by
  unfold ndEvictSlot
  split
  · rename_i hover
    cases hc : acc.1.cell p with
    | none => exact ⟨h, .refl _, .inr fun sl hsl => by rw [hc] at hsl; simp at hsl⟩
    | some sl =>
      simp only
      split
      · rename_i hother
        refine ⟨h, .refl _, .inr fun sl' hsl => ?_⟩
        rw [hc] at hsl
        rw [← Option.some.inj hsl]
        exact hother
      · rename_i hwant
        have hwant' : tagGetTier sl.valuePtr = want.code := not_not.mp hwant
        have hcont := contents_ndRemoveSlot hp hc
        have hacc := h.accounted.ndRemoveSlot hp hc
        have hvis := visited_ndRemoveSlot hp
        refine ⟨⟨?_, ?_, ?_⟩, ?_, ?_⟩
        · exact ⟨hacc.used, hacc.unclipped, hacc.queued, hacc.stored⟩
        · refine h.trace.append ?_
          rw [hcont]
          refine .evict ?_ ?_ (.done _)
          · rw [← hcont, ← h.accounted.used]
            exact hover
          · rcases h.pass with rfl | ⟨rfl, hle | hno⟩
            · exact .inl hwant'
            · omega
            · refine .inr ⟨hwant', fun s hs => hno s ?_⟩
              rw [hcont]
              exact mem_cons_of_mem hs
        · rcases h.pass with rfl | ⟨rfl, hle | hno⟩
          · exact .inl rfl
          · exact .inr ⟨rfl, .inl (hvis.used.trans hle)⟩
          · refine .inr ⟨rfl, .inr fun s hs => hno s ?_⟩
            rw [hcont]
            exact mem_cons_of_mem hs
        · exact ⟨hvis.dirSize, hvis.used, hvis.cells⟩
        · refine .inr fun sl' hsl => ?_
          have hnone : (ndRemoveSlot acc.1 p).cell p = none := by
            rw [cell_ndRemoveSlot _ (mem_positions.mp hp).2, update_self]
          rw [show (ndRemoveSlot acc.1 p).cell p = some sl' from hsl] at hnone
          simp at hnone
  · rename_i hmet
    exact ⟨h, .refl _, .inl (Nat.le_of_not_gt hmet)⟩

theorem Evicting.slots {n : Nat}
    (ps : List Pos) : ∀ {acc : NexDashTable × List NexDashSlot}, Evicting target want M acc →
      acc.1.dirSize = n → (∀ p ∈ ps, p ∈ positions n) →
      Evicting target want M (ps.foldl (ndEvictSlot target want) acc) ∧
        Visited acc.1 (ps.foldl (ndEvictSlot target want) acc).1 ∧
        ∀ p ∈ ps, Passed target want (ps.foldl (ndEvictSlot target want) acc).1 p := by
  induction ps with
  | nil =>
    intro acc h _ _
    exact ⟨h, .refl _, nofun⟩
  | cons p ps ih =>
    intro acc h hdir hps
    obtain ⟨h1, hv1, hp1⟩ := h.slot (by rw [hdir]; exact hps p (by simp))
    obtain ⟨h2, hv2, hps2⟩ := ih h1 (hv1.dirSize.trans hdir) fun q hq => hps q (by simp [hq])
    exact ⟨h2, hv1.trans hv2, List.forall_mem_cons.mpr ⟨hp1.visited hv2, hps2⟩⟩

/-- **One pass** ends below the target or with the tier empty. -/
theorem Evicting.run_pass (h : Evicting target want M acc) :
    Evicting target want M (ndEvictPass target acc want) ∧
      Visited acc.1 (ndEvictPass target acc want).1 ∧
      ((ndEvictPass target acc want).1.usedMemory ≤ target ∨
        ∀ sl ∈ (ndEvictPass target acc want).1.contents,
          tagGetTier sl.valuePtr ≠ want.code) := by
  obtain ⟨h1, hv, hall⟩ := Evicting.slots (slotOrder acc.1.dirSize) h rfl
    (fun _ => mem_slotOrder.mp)
  refine ⟨h1, hv, ?_⟩
  by_cases hle : (ndEvictPass target acc want).1.usedMemory ≤ target
  · exact .inl hle
  · refine .inr fun sl hsl => ?_
    obtain ⟨p, hp, hc⟩ := NexDashTable.mem_contents.mp hsl
    have hp' : p ∈ slotOrder acc.1.dirSize := by
      rw [mem_slotOrder, ← hv.dirSize]
      exact hp
    rcases hall p hp' with hle' | hno
    · exact absurd hle' hle
    · exact hno sl hc

/-- **Eviction of a table whose memory is accounted for.** -/
theorem Accounted.ndEvict (h : Accounted t) (target : Nat) :
    Evicts target t.contents (ndEvict t target).2 (ndEvict t target).1.contents ∧
      (ndEvict t target).1.usedMemory ≤ target := by
  have hstart : Evicting target .tierProbatory t.contents (t, []) := ⟨h, .done _, .inl rfl⟩
  obtain ⟨h1, _, hend1⟩ := hstart.run_pass
  have hmid : Evicting target .tierProtected t.contents
      (ndEvictPass target (t, []) .tierProbatory) :=
    ⟨h1.accounted, h1.trace, .inr ⟨rfl, hend1⟩⟩
  obtain ⟨h2, hv2, hend2⟩ := hmid.run_pass
  refine ⟨h2.trace, ?_⟩
  rcases hend2 with hle | hno
  · exact hle
  · -- both tiers are empty: nothing is left, unless the first pass met the target
    rcases hend1 with hle | hno1
    · exact hv2.used.trans hle
    · have hempty : (NexDash.ndEvict t target).1.contents = 0 := by
        rw [eq_zero_iff_forall_notMem]
        intro sl hsl
        have hsl1 : sl ∈ (ndEvictPass target (t, []) .tierProbatory).1.contents := by
          obtain ⟨p, hp, hc⟩ := NexDashTable.mem_contents.mp hsl
          exact NexDashTable.mem_contents.mpr ⟨p, by rw [← hv2.dirSize]; exact hp,
            hv2.cells p sl hc⟩
        rcases h2.accounted.queued sl hsl with hprob | hprot
        · exact hno1 sl hsl1 hprob
        · exact hno sl hsl hprot
      have hzero : (NexDash.ndEvict t target).1.usedMemory
          = totalCost (NexDash.ndEvict t target).1.contents := h2.accounted.used
      rw [hzero, hempty]
      exact Nat.zero_le _

/-- **Memory is exact, and an eviction reaches its target in 2Q order.** -/
theorem usedMemory_exact_and_evict {initialSegments : Nat} {bloomSized : NumBlocks} {freeCb : Bool}
    {t₀ t : NexDashTable} {es : List NdEvent} {rs : List NdReply}
    (hcreate : nexdashCreate initialSegments bloomSized freeCb = some t₀)
    (hvalues : ∀ e ∈ es, e.call.Obeys StoresValue) (hrun : run ndStep t₀ es = some (t, rs)) :
    t.usedMemory = (t.contents.map fun sl => sl.valueSize.toNat + 32).sum ∧
      t.clipped = false ∧
      (∀ sl ∈ t.contents, tagGetTier sl.valuePtr ≠ Eviction2QTier.tierHot.code ∧
        tagGetTier sl.valuePtr ≠ Eviction2QTier.tierPinned.code) ∧
      ∀ target, (nexdashEvictToTarget t target).1.usedMemory ≤ target ∧
        (nexdashEvictToTarget t target).2 = (ndEvict t target).2.length ∧
        Evicts target t.contents (ndEvict t target).2
          (nexdashEvictToTarget t target).1.contents := by
  have hinv : Sound t ∧ Accounted t := by
    refine run_invariant (I := fun t => Sound t ∧ Accounted t) ?_ ?_
      (along_of_forall fun e he _ => hvalues e he) hrun
    · rintro s e s' r ⟨hsound, ha⟩ hS hstep
      exact Sound.step_keeps (fun _ _ hs hm => Accounted.move hs hm) hsound ha hS
        (fun _ => trivial) hstep
    · refine ⟨sound_create hcreate, ?_, ?_, ?_, ?_⟩
      · rw [contents_create_eq_zero hcreate, nexdashCreate_eq hcreate]
        rfl
      · rw [nexdashCreate_eq hcreate]
      all_goals
        rw [contents_create_eq_zero hcreate]
        simp
  obtain ⟨_, ha⟩ := hinv
  refine ⟨ha.used, ha.unclipped, ?_, fun target => ?_⟩
  · intro sl hsl
    rcases ha.queued sl hsl with h | h <;> rw [h] <;> decide
  · obtain ⟨hev, hle⟩ := ha.ndEvict target
    exact ⟨hle, rfl, hev⟩

/-- Two entries are left, of 39 and 40 bytes; the room for one is made. -/
theorem usedMemory_exact_and_evict_sets :
    ∃ t₀ t rs, nexdashCreate 4 1 false = some t₀ ∧ run ndStep t₀ setsAndDel = some (t, rs) ∧
      t.usedMemory = 79 ∧ (t.contents.map fun sl => sl.valueSize.toNat + 32).sum = 79 ∧
      (nexdashEvictToTarget t 45).1.usedMemory ≤ 45 := by
  have heval : (nexdashCreate 4 1 false).bind (fun t₀ => (run ndStep t₀ setsAndDel).map fun r =>
      r.1.usedMemory) = some 79 := by
    decide +kernel
  obtain ⟨t₀, hcreate, heval⟩ := Option.bind_eq_some_iff.mp heval
  obtain ⟨⟨t, rs⟩, hrun, hused⟩ := Option.map_eq_some_iff.mp heval
  have hvalues : ∀ e ∈ setsAndDel, e.call.Obeys StoresValue := by
    simp [setsAndDel, NdCall.Obeys, StoresValue]
  have hexact := usedMemory_exact_and_evict hcreate hvalues hrun
  exact ⟨t₀, t, rs, hcreate, hrun, hused, hexact.1.symm.trans hused, (hexact.2.2.2 45).1⟩

end NexCache.NexDash
