import NexCache.Crdt.Counters
import NexCache.Crdt.OrSet
import Mathlib.Data.Prod.Lex

/-!
# The LWW-Register

`crdt.c`: a register carries the time and the node of its last write, and a merge takes
the other register if its time is later, or the same with a higher node.  The merge also
takes over the node, which later writes of this replica then use as their own.

A stamp is the pair of time and node, compared lexicographically.  `StampSafe` is the
condition under which equal stamps mean equal values, and `ClockSafe` the one under
which a replica's stamp never goes back.
-/

namespace NexCache.Crdt

open Machine Runs Gossip Function Nat

structure VectorClock where
  clocks : Nat → Nat
  numNodes : Nat

/-- `value` is the first `value_len` bytes of the array, the only ones that are read. -/
structure LWWRegister where
  value : List UInt8
  timestampUs : Nat
  nodeId : Nat
  vc : VectorClock

def lwwCreate (selfNodeId numNodes : Nat) : LWWRegister :=
  ⟨[], 0, selfNodeId, ⟨fun _ => 0, if numNodes < CRDT_MAX_NODES then numNodes else CRDT_MAX_NODES⟩⟩

/-- `if (node_id < num_nodes) clocks[node_id]++`. -/
def VectorClock.tick (vc : VectorClock) (nodeId : Nat) : VectorClock :=
  if nodeId < vc.numNodes then
    { vc with clocks := update vc.clocks nodeId (u64 (vc.clocks nodeId + 1)) }
  else vc

def lwwSet (r : LWWRegister) (value : Member) (now : Nat) : LWWRegister × Int :=
  if value.len = 0 ∨ value.len > 1023 then (r, -1)
  else (⟨value.bytes, now, r.nodeId, r.vc.tick r.nodeId⟩, 0)

/-- The `should_update` of `lww_merge`. -/
def lwwWins (src dst : LWWRegister) : Prop :=
  src.timestampUs > dst.timestampUs ∨
    (src.timestampUs = dst.timestampUs ∧ src.nodeId > dst.nodeId)

instance (src dst : LWWRegister) : Decidable (lwwWins src dst) :=
  inferInstanceAs (Decidable (_ ∨ _))

/-- Whether `lww_merge` copies the value: it must also fit the array. -/
def lwwTakes (dst src : LWWRegister) : Prop := lwwWins src dst ∧ src.value.length ≤ 1024

instance (dst src : LWWRegister) : Decidable (lwwTakes dst src) :=
  inferInstanceAs (Decidable (_ ∧ _))

def lwwMerge (dst src : LWWRegister) : LWWRegister :=
  let vc : VectorClock := { dst.vc with
    clocks := maxInto (mergeNodes dst.vc.numNodes src.vc.numNodes) dst.vc.clocks src.vc.clocks }
  if lwwTakes dst src then ⟨src.value, src.timestampUs, src.nodeId, vc⟩ else { dst with vc := vc }

/-! ### Two registers -/

namespace LWWRegister

/-- Time and node, compared in this order. -/
def stamp (r : LWWRegister) : ℕ ×ₗ ℕ := toLex (r.timestampUs, r.nodeId)

/-- The register without its clock. -/
def entry (r : LWWRegister) : List UInt8 × ℕ ×ₗ ℕ := (r.value, r.stamp)

theorem wins_iff {src dst : LWWRegister} : lwwWins src dst ↔ dst.stamp < src.stamp := by
  rw [stamp, stamp, Prod.Lex.toLex_lt_toLex, lwwWins]
  refine or_congr Iff.rfl (and_congr eq_comm Iff.rfl)

/-- The value fits the array. -/
def Fits (r : LWWRegister) : Prop := r.value.length ≤ 1024

variable {a b c : LWWRegister}

/-- The later stamp wins; `a` keeps its place in a tie. -/
theorem entry_merge (hb : b.Fits) :
    (lwwMerge a b).entry = if a.stamp < b.stamp then b.entry else a.entry := by
  rw [lwwMerge]
  by_cases hlt : a.stamp < b.stamp
  · rw [if_pos hlt, if_pos ⟨wins_iff.mpr hlt, hb⟩]
    rfl
  · rw [if_neg hlt, if_neg fun h => hlt (wins_iff.mp h.1)]
    rfl

theorem stamp_merge (hb : b.Fits) : (lwwMerge a b).stamp = max a.stamp b.stamp := by
  have hentry := congrArg Prod.snd (entry_merge (a := a) hb)
  refine hentry.trans ?_
  split
  · rename_i hlt
    exact (max_eq_right hlt.le).symm
  · rename_i hlt
    exact (max_eq_left (not_lt.mp hlt)).symm

theorem Fits.merge (ha : a.Fits) (hb : b.Fits) : (lwwMerge a b).Fits := by
  have hvalue := congrArg Prod.fst (entry_merge (a := a) hb)
  rw [Fits, show (lwwMerge a b).value = _ from hvalue]
  split
  · exact hb
  · exact ha

/-- Equal stamps carry equal values. -/
def Agree (a b : LWWRegister) : Prop := a.stamp = b.stamp → a.value = b.value

theorem Agree.symm (h : Agree a b) : Agree b a := fun heq => (h heq.symm).symm

theorem Agree.congr {a' : LWWRegister} (h : Agree a b) (heq : a'.entry = a.entry) : Agree a' b := by
  obtain ⟨hvalue, hstamp⟩ := Prod.mk.inj heq
  intro h'
  rw [hvalue, h (hstamp.symm.trans h')]

/-- What agrees with both registers agrees with their merge. -/
theorem Agree.merge (ha : Agree a c) (hb : Agree b c) (hfits : b.Fits) :
    Agree (lwwMerge a b) c := by
  have hentry := entry_merge (a := a) hfits
  split at hentry
  · exact hb.congr hentry
  · exact ha.congr hentry

theorem entry_merge_comm (ha : a.Fits) (hb : b.Fits) (h : Agree a b) :
    (lwwMerge a b).entry = (lwwMerge b a).entry := by
  rw [entry_merge hb, entry_merge ha]
  rcases lt_trichotomy a.stamp b.stamp with hlt | heq | hgt
  · rw [if_pos hlt, if_neg hlt.asymm]
  · rw [if_neg heq.not_lt, if_neg heq.symm.not_lt, entry, entry, h heq, heq]
  · rw [if_neg hgt.asymm, if_pos hgt]

/-- Both ways of merging three registers take the first among the latest. -/
theorem entry_merge_assoc (hb : b.Fits) (hc : c.Fits) :
    (lwwMerge (lwwMerge a b) c).entry = (lwwMerge a (lwwMerge b c)).entry := by
  rw [entry_merge hc, entry_merge (hb.merge hc), stamp_merge hb, stamp_merge hc, entry_merge hb,
    entry_merge hc]
  simp only [max_lt_iff, lt_max_iff]
  by_cases hab : a.stamp < b.stamp <;> by_cases hbc : b.stamp < c.stamp <;>
    by_cases hac : a.stamp < c.stamp <;> simp only [hab, hbc, hac, and_self, and_true,
      or_self, or_true, if_true, if_false, and_false, or_false]
  · exact absurd (hab.trans hbc) hac
  · exact absurd (lt_of_lt_of_le hac (not_lt.mp hbc)) hab

theorem entry_merge_self (ha : a.Fits) : (lwwMerge a a).entry = a.entry := by
  rw [entry_merge ha, if_neg (lt_irrefl _)]

end LWWRegister

/-! ### Any number of replicas -/

/-- A write with the reading of the clock it makes. -/
structure LWWOp where
  value : Member
  now : Nat

/-- The lengths that `lww_set` takes. -/
def LWWOp.Accepted (op : LWWOp) : Prop := ¬(op.value.len = 0 ∨ op.value.len > 1023)

instance (op : LWWOp) : Decidable op.Accepted := inferInstanceAs (Decidable (¬_))

variable {r : LWWRegister}

theorem lwwSet_accepted {op : LWWOp} (h : op.Accepted) :
    (lwwSet r op.value op.now).1 = ⟨op.value.bytes, op.now, r.nodeId, r.vc.tick r.nodeId⟩ := by
  rw [lwwSet, if_neg h]

theorem lwwSet_rejected {op : LWWOp} (h : ¬op.Accepted) : (lwwSet r op.value op.now).1 = r := by
  rw [lwwSet, if_pos (not_not.mp h)]

theorem LWWRegister.Fits.set (h : r.Fits) (op : LWWOp) : (lwwSet r op.value op.now).1.Fits := by
  by_cases hacc : op.Accepted
  · rw [lwwSet_accepted hacc]
    rw [LWWOp.Accepted] at hacc
    show op.value.len ≤ 1024
    omega
  · rw [lwwSet_rejected hacc]
    exact h

section Replicas

variable {ι : Type*} [DecidableEq ι]

/-- The replicas, and beside them which write each register holds. -/
structure LWWSystem (ι : Type*) where
  sys : System ι LWWRegister LWWOp
  holds : ι → Option Nat

def lwwStep (s : LWWSystem ι) (c : Call ι LWWOp) : Option (LWWSystem ι × Unit) :=
  (step (fun r op => some (lwwSet r op.value op.now).1) (fun dst src => some (lwwMerge dst src))
      s.sys c).map fun r =>
    (⟨r.1, match c with
      | .update i op =>
        if op.Accepted then update s.holds i (some s.sys.log.length) else s.holds
      | .merge dst src =>
        if lwwTakes (s.sys.state dst) (s.sys.state src) then
          update s.holds dst (s.holds src) else s.holds⟩, ())

def lwwStart (node nodes : ι → Nat) : LWWSystem ι :=
  ⟨start fun i => lwwCreate (node i) (nodes i), fun _ => none⟩

variable {s s' : LWWSystem ι} {c : Call ι LWWOp}

theorem lwwStep_sys (h : lwwStep s c = some (s', ())) :
    step (fun r op => some (lwwSet r op.value op.now).1) (fun dst src => some (lwwMerge dst src))
      s.sys c = some (s'.sys, ()) := by
  obtain ⟨⟨sys, u⟩, hstep, heq⟩ := Option.map_eq_some_iff.mp h
  rw [hstep, ← (Prod.mk.inj heq).1]

theorem lwwStep_total (s : LWWSystem ι) (c : Call ι LWWOp) : ∃ s', lwwStep s c = some (s', ()) := by
  cases c with
  | update i op | merge dst src => exact ⟨_, rfl⟩

variable {i : ι} {op : LWWOp}

theorem lwwStep_set (h : lwwStep s (.update i op) = some (s', ())) :
    s'.sys = { state := update s.sys.state i (lwwSet (s.sys.state i) op.value op.now).1
               known := update s.sys.known i (insert s.sys.log.length (s.sys.known i))
               log := s.sys.log ++ [⟨i, op, s.sys.known i,
                (lwwSet (s.sys.state i) op.value op.now).1⟩] }
      ∧ s'.holds = if op.Accepted then update s.holds i (some s.sys.log.length)
          else s.holds := by
  obtain ⟨rfl, _⟩ := result_inj h
  exact ⟨rfl, rfl⟩

variable {dst src : ι}

theorem lwwStep_merge (h : lwwStep s (.merge dst src) = some (s', ())) :
    s'.sys = { state := update s.sys.state dst
                (lwwMerge (s.sys.state dst) (s.sys.state src))
               known := update s.sys.known dst (s.sys.known dst ∪ s.sys.known src)
               log := s.sys.log }
      ∧ s'.holds = if lwwTakes (s.sys.state dst) (s.sys.state src) then
          update s.holds dst (s.holds src) else s.holds := by
  obtain ⟨rfl, _⟩ := result_inj h
  exact ⟨rfl, rfl⟩

theorem fits_step (h : ∀ i, (s.sys.state i).Fits)
    (hstep : lwwStep s c = some (s', ())) : ∀ i, (s'.sys.state i).Fits := by
  refine forall_step h ?_ ?_ (lwwStep_sys hstep)
  · rintro i op t ⟨⟩
    exact (h i).set op
  · rintro i j t ⟨⟩
    exact (h i).merge (h j)

/-- **No write takes a stamp that another register has with a different value.** -/
def StampSafe (s : LWWSystem ι) : Call ι LWWOp → Prop
  | .update i op => op.Accepted → ∀ j, j ≠ i → (s.sys.state j).timestampUs = op.now →
      (s.sys.state j).nodeId = (s.sys.state i).nodeId → (s.sys.state j).value = op.value.bytes
  | .merge _ _ => True

/-- Equal stamps carry equal values, everywhere. -/
structure AgreeInv (s : LWWSystem ι) : Prop where
  fits : ∀ i, (s.sys.state i).Fits
  agree : ∀ i j, LWWRegister.Agree (s.sys.state i) (s.sys.state j)

theorem AgreeInv.step (h : AgreeInv s) (hsafe : StampSafe s c) :
    ∃ s' u, lwwStep s c = some (s', u) ∧ AgreeInv s' := by
  obtain ⟨s', hstep⟩ := lwwStep_total s c
  refine ⟨s', (), hstep, fits_step h.fits hstep, ?_⟩
  -- one register changes; it has to agree with the others
  obtain ⟨d, t, hstate, ht⟩ : ∃ d t, s'.sys.state = update s.sys.state d t
      ∧ ∀ j, j ≠ d → LWWRegister.Agree t (s.sys.state j) := by
    cases c with
    | update i op =>
      refine ⟨i, _, by rw [(lwwStep_set hstep).1], fun j hj => ?_⟩
      by_cases hacc : op.Accepted
      · rw [lwwSet_accepted hacc]
        intro heq
        obtain ⟨htime, hnode⟩ := Prod.mk.inj (toLex.injective heq)
        exact (hsafe hacc j hj htime.symm hnode.symm).symm
      · rw [lwwSet_rejected hacc]
        exact h.agree i j
    | merge dst src =>
      refine ⟨dst, _, by rw [(lwwStep_merge hstep).1], fun j _ => ?_⟩
      exact (h.agree dst j).merge (h.agree src j) (h.fits src)
  intro i j
  rw [hstate]
  by_cases hi : i = d <;> by_cases hj : j = d
  · rw [hi, hj]
    exact fun _ => rfl
  · rw [hi, update_self, update_of_ne hj]
    exact ht j hj
  · rw [hj, update_self, update_of_ne hi]
    exact (ht i hi).symm
  · rw [update_of_ne hi, update_of_ne hj]
    exact h.agree i j

omit [DecidableEq ι] in
theorem agreeInv_start (node nodes : ι → Nat) : AgreeInv (lwwStart node nodes) :=
  ⟨fun _ => zero_le _, fun _ _ _ => rfl⟩

theorem AgreeInv.exchange (h : AgreeInv s) (i j : ι) : ∃ t us,
    run lwwStep s [.merge i j, .merge j i] = some (t, us)
      ∧ (t.sys.state i).value = (t.sys.state j).value := by
  obtain ⟨s₁, u₁, hstep₁, h₁⟩ := h.step (c := .merge i j) trivial
  obtain ⟨t, u, hstep, ht⟩ := h₁.step (c := .merge j i) trivial
  refine ⟨t, [u₁, u], ?_, ?_⟩
  · simp only [run, hstep₁, hstep, Option.map_some]
  · by_cases hij : i = j
    · rw [hij]
    -- `i` is the merge of both, and `j` takes it or has the same stamp
    have hi : t.sys.state i = lwwMerge (s.sys.state i) (s.sys.state j) := by
      rw [(lwwStep_merge hstep).1]
      simp only [update_of_ne hij]
      rw [(lwwStep_merge hstep₁).1]
      exact update_self ..
    have hj : t.sys.state j = lwwMerge (s₁.sys.state j) (t.sys.state i) := by
      rw [(lwwStep_merge hstep).1]
      simp only [update_self, update_of_ne hij]
    have hj₁ : s₁.sys.state j = s.sys.state j := by
      rw [(lwwStep_merge hstep₁).1]
      exact update_of_ne (Ne.symm hij) _ _
    refine ht.agree i j ?_
    rw [hj, LWWRegister.stamp_merge (ht.fits i), hj₁, hi, LWWRegister.stamp_merge (h.fits j)]
    exact (max_eq_right (le_max_right _ _)).symm

/-- All clocks have the same length, and nothing is stored beyond it. -/
def Clocked (n : Nat) (r : LWWRegister) : Prop :=
  n ≤ CRDT_MAX_NODES ∧ r.vc.numNodes = n ∧ ∀ k, n ≤ k → r.vc.clocks k = 0

variable {n : Nat}

theorem Clocked.set {r : LWWRegister} (h : Clocked n r) (op : LWWOp) :
    Clocked n (lwwSet r op.value op.now).1 := by
  by_cases hacc : op.Accepted
  · rw [lwwSet_accepted hacc]
    obtain ⟨hn, hnodes, hclear⟩ := h
    show n ≤ CRDT_MAX_NODES ∧ (r.vc.tick r.nodeId).numNodes = n ∧
      ∀ k, n ≤ k → (r.vc.tick r.nodeId).clocks k = 0
    rw [VectorClock.tick]
    split
    · rename_i hlt
      refine ⟨hn, hnodes, fun k hk => ?_⟩
      have hne : k ≠ r.nodeId := by omega
      simp only [update_of_ne hne]
      exact hclear k hk
    · exact ⟨hn, hnodes, hclear⟩
  · rw [lwwSet_rejected hacc]
    exact h

theorem vc_merge (a b : LWWRegister) : (lwwMerge a b).vc = { a.vc with
    clocks := maxInto (mergeNodes a.vc.numNodes b.vc.numNodes) a.vc.clocks b.vc.clocks } := by
  rw [lwwMerge]
  split <;> rfl

/-- The clocks are merged as maxima. -/
theorem Clocked.merge_clocks {a b : LWWRegister} (ha : Clocked n a) (hb : Clocked n b) :
    (lwwMerge a b).vc.clocks = fun k => max (a.vc.clocks k) (b.vc.clocks k) := by
  obtain ⟨hn, hnodes, hclear⟩ := ha
  obtain ⟨-, hnodes', hclear'⟩ := hb
  have hmerge : mergeNodes n n = n := by
    simp only [mergeNodes, gt_iff_lt, lt_self_iff_false, if_false, if_neg (not_lt.mpr hn)]
  funext k
  rw [vc_merge, hnodes, hnodes', hmerge]
  dsimp only
  rw [maxInto_apply]
  split
  · rfl
  · rw [hclear k (by omega), hclear' k (by omega), max_self]

theorem Clocked.merge {a b : LWWRegister} (ha : Clocked n a) (hb : Clocked n b) :
    Clocked n (lwwMerge a b) := by
  refine ⟨ha.1, by rw [vc_merge]; exact ha.2.1, fun k hk => ?_⟩
  rw [ha.merge_clocks hb]
  dsimp only
  rw [ha.2.2 k hk, hb.2.2 k hk, max_self]

/-- **LWW registers converge** in every run in which no write takes a stamp that another
register has with a different value.  Two registers that merge each other have the same
value; merging is commutative, associative and idempotent on value, time and node, and
on the vector clocks as well if they all have the same length. -/
theorem lww_converges {node nodes : ι → Nat} {calls : List (Call ι LWWOp)}
    (hsafe : Along lwwStep StampSafe (lwwStart node nodes) calls) :
    ∃ s us, run lwwStep (lwwStart node nodes) calls = some (s, us)
      ∧ (∀ i j, ∃ t us', run lwwStep s [.merge i j, .merge j i] = some (t, us')
          ∧ (t.sys.state i).value = (t.sys.state j).value)
      ∧ (∀ i j k, (lwwMerge (s.sys.state i) (s.sys.state j)).entry
            = (lwwMerge (s.sys.state j) (s.sys.state i)).entry
          ∧ (lwwMerge (lwwMerge (s.sys.state i) (s.sys.state j)) (s.sys.state k)).entry
            = (lwwMerge (s.sys.state i) (lwwMerge (s.sys.state j) (s.sys.state k))).entry
          ∧ (lwwMerge (s.sys.state i) (s.sys.state i)).entry = (s.sys.state i).entry)
      ∧ ((∀ i j, nodes i = nodes j) → ∀ i j k,
          (lwwMerge (s.sys.state i) (s.sys.state j)).vc.clocks
            = (lwwMerge (s.sys.state j) (s.sys.state i)).vc.clocks
          ∧ (lwwMerge (lwwMerge (s.sys.state i) (s.sys.state j)) (s.sys.state k)).vc.clocks
            = (lwwMerge (s.sys.state i) (lwwMerge (s.sys.state j) (s.sys.state k))).vc.clocks
          ∧ (lwwMerge (s.sys.state i) (s.sys.state i)).vc.clocks = (s.sys.state i).vc.clocks) := by
  obtain ⟨s, us, hrun, h⟩ := run_total (fun s c h hsafe => h.step hsafe) (agreeInv_start node nodes)
    hsafe
  refine ⟨s, us, hrun, h.exchange, fun i j k => ?_, fun hnodes i j k => ?_⟩
  · exact ⟨LWWRegister.entry_merge_comm (h.fits i) (h.fits j) (h.agree i j),
      LWWRegister.entry_merge_assoc (h.fits j) (h.fits k), LWWRegister.entry_merge_self (h.fits i)⟩
  · have hclocked : ∀ r, Clocked (min (nodes i) CRDT_MAX_NODES) (s.sys.state r) := by
      have hstart : ∀ r, Clocked (min (nodes i) CRDT_MAX_NODES)
          ((lwwStart node nodes).sys.state r) := by
        intro r
        refine ⟨min_le_right _ _, ?_, fun _ _ => rfl⟩
        show (if nodes r < CRDT_MAX_NODES then nodes r else CRDT_MAX_NODES) = _
        rw [hnodes r i]
        split <;> omega
      refine run_invariant (I := fun s : LWWSystem ι =>
        ∀ r, Clocked (min (nodes i) CRDT_MAX_NODES) (s.sys.state r)) ?_ hstart hsafe hrun
      intro s c s' u hc _ hstep
      refine forall_step hc ?_ ?_ (lwwStep_sys hstep)
      · rintro r op t ⟨⟩
        exact (hc r).set op
      · rintro r r' t ⟨⟩
        exact (hc r).merge (hc r')
    have hi := hclocked i
    have hj := hclocked j
    have hk := hclocked k
    rw [hi.merge_clocks hj, hj.merge_clocks hi, (hi.merge hj).merge_clocks hk,
      hi.merge_clocks (hj.merge hk), hi.merge_clocks hi, hi.merge_clocks hj, hj.merge_clocks hk]
    exact ⟨funext fun _ => max_comm _ _, funext fun _ => max_assoc ..,
      funext fun _ => max_self _⟩

/-! ### Causality -/

/-- **No write reads an earlier time than the register already has.** -/
def ClockSafe (s : LWWSystem ι) : Call ι LWWOp → Prop
  | .update i op => op.Accepted → (s.sys.state i).timestampUs ≤ op.now
  | .merge _ _ => True

omit [DecidableEq ι] in
theorem ClockSafe.stamp_le (h : ClockSafe s (.update i op)) :
    (s.sys.state i).stamp ≤ (lwwSet (s.sys.state i) op.value op.now).1.stamp := by
  by_cases hacc : op.Accepted
  · rw [lwwSet_accepted hacc, LWWRegister.stamp, LWWRegister.stamp, Prod.Lex.toLex_le_toLex]
    exact (lt_or_eq_of_le (h hacc)).imp id fun heq => ⟨heq, le_refl _⟩
  · rw [lwwSet_rejected hacc]

/-- Update `n` is the write `e`. -/
def LWWSystem.Written (s : LWWSystem ι) (n : Nat) (e : Event ι LWWRegister LWWOp) : Prop :=
  s.sys.log[n]? = some e ∧ e.op.Accepted

/-- Along the updates that a replica knows stamps only grow, and a register has the stamp
and the value of the write it holds. -/
structure CausalInv (s : LWWSystem ι) : Prop where
  causal : Causal s.sys
  fits : ∀ i, (s.sys.state i).Fits
  bound : ∀ i, ∀ n ∈ s.sys.known i, ∀ e, s.Written n e → e.after.stamp ≤ (s.sys.state i).stamp
  order : ∀ n e, s.Written n e → ∀ m ∈ e.past, ∀ e', s.Written m e' →
    e'.after.stamp ≤ e.after.stamp
  holds : ∀ i n, s.holds i = some n → ∃ e, s.Written n e
    ∧ (s.sys.state i).value = e.op.value.bytes ∧ (s.sys.state i).stamp = e.after.stamp

theorem written_set (hstep : lwwStep s (.update i op) = some (s', ()))
    {e : Event ι LWWRegister LWWOp} : s'.Written n e ↔ s.Written n e ∨
      (n = s.sys.log.length ∧ op.Accepted
        ∧ e = ⟨i, op, s.sys.known i, (lwwSet (s.sys.state i) op.value op.now).1⟩) := by
  rw [LWWSystem.Written, (lwwStep_set hstep).1]
  rw [getElem?_concat, or_and_right]
  refine or_congr Iff.rfl ⟨?_, ?_⟩
  · rintro ⟨⟨hn, rfl⟩, hacc⟩
    exact ⟨hn, hacc, rfl⟩
  · rintro ⟨hn, hacc, rfl⟩
    exact ⟨⟨hn, rfl⟩, hacc⟩

omit [DecidableEq ι] in
theorem LWWSystem.Written.lt {e : Event ι LWWRegister LWWOp} (h : s.Written n e) :
    n < s.sys.log.length :=
  (List.getElem?_eq_some_iff.mp h.1).1

theorem CausalInv.set (h : CausalInv s) (hsafe : ClockSafe s (.update i op))
    (hstep : lwwStep s (.update i op) = some (s', ())) : CausalInv s' := by
  have hle := hsafe.stamp_le
  obtain ⟨hsys, hholds⟩ := lwwStep_set hstep
  have hstate : ∀ r, (r = i ∧ s'.sys.state r = (lwwSet (s.sys.state i) op.value op.now).1
      ∧ s'.sys.known r = insert s.sys.log.length (s.sys.known i))
      ∨ (r ≠ i ∧ s'.sys.state r = s.sys.state r ∧ s'.sys.known r = s.sys.known r) := by
    rw [hsys]
    exact Gossip.update_cases s.sys _ _ _
  refine ⟨h.causal.step (lwwStep_sys hstep), fits_step h.fits hstep, fun r n hn e he => ?_,
    fun n e he m hm e' he' => ?_, fun r n hr => ?_⟩
  · rcases hstate r with ⟨rfl, hreg, hknown⟩ | ⟨-, hreg, hknown⟩ <;> rw [hreg] <;>
      rw [hknown] at hn <;> rcases (written_set hstep).mp he with hold | ⟨rfl, -, rfl⟩
    · exact (h.bound r n (hn.resolve_left (Nat.ne_of_lt hold.lt)) e hold).trans hle
    · exact le_refl _
    · exact h.bound r n hn e hold
    · exact absurd (h.causal.known_lt r _ hn) (lt_irrefl _)
  · -- what a write has seen was there before it
    have hm' : m < s.sys.log.length := by
      rcases (written_set hstep).mp he with hold | ⟨rfl, -, rfl⟩
      · exact (h.causal.past_lt n e hold.1 m hm).trans hold.lt
      · exact h.causal.known_lt i m hm
    have hold' := ((written_set hstep).mp he').resolve_right fun hnew =>
      absurd hnew.1 (Nat.ne_of_lt hm')
    rcases (written_set hstep).mp he with hold | ⟨rfl, -, rfl⟩
    · exact h.order n e hold m hm e' hold'
    · exact (h.bound i m hm e' hold').trans hle
  · by_cases hacc : op.Accepted
    · rw [hholds, if_pos hacc] at hr
      rcases hstate r with ⟨rfl, hreg, -⟩ | ⟨hne, hreg, -⟩ <;> rw [hreg]
      · rw [update_self] at hr
        obtain rfl := Option.some.inj hr
        refine ⟨_, (written_set hstep).mpr (.inr ⟨rfl, hacc, rfl⟩), ?_, rfl⟩
        rw [lwwSet_accepted hacc]
      · rw [update_of_ne hne] at hr
        obtain ⟨e, he, hheld⟩ := h.holds r n hr
        exact ⟨e, (written_set hstep).mpr (.inl he), hheld⟩
    · rw [hholds, if_neg hacc] at hr
      obtain ⟨e, he, hheld⟩ := h.holds r n hr
      refine ⟨e, (written_set hstep).mpr (.inl he), ?_⟩
      rcases hstate r with ⟨rfl, hreg, -⟩ | ⟨hne, hreg, -⟩ <;> rw [hreg]
      · rw [lwwSet_rejected hacc]
        exact hheld
      · exact hheld

theorem CausalInv.merge (h : CausalInv s)
    (hstep : lwwStep s (.merge dst src) = some (s', ())) : CausalInv s' := by
  obtain ⟨hsys, hholds⟩ := lwwStep_merge hstep
  have hlog : s'.sys.log = s.sys.log := by rw [hsys]
  have hwritten : ∀ n e, s'.Written n e ↔ s.Written n e := fun n e => by
    rw [LWWSystem.Written, hlog, LWWSystem.Written]
  have hstate : ∀ r, (r = dst ∧ s'.sys.state r = lwwMerge (s.sys.state dst) (s.sys.state src)
      ∧ s'.sys.known r = s.sys.known dst ∪ s.sys.known src)
      ∨ (r ≠ dst ∧ s'.sys.state r = s.sys.state r ∧ s'.sys.known r = s.sys.known r) := by
    rw [hsys]
    exact Gossip.update_cases s.sys _ _ _
  refine ⟨h.causal.step (lwwStep_sys hstep), fits_step h.fits hstep, fun r n hn e he => ?_,
    fun n e he m hm e' he' => ?_, fun r n hr => ?_⟩
  · rw [hwritten] at he
    rcases hstate r with ⟨rfl, hreg, hknown⟩ | ⟨-, hreg, hknown⟩ <;> rw [hreg] <;>
      rw [hknown] at hn
    · rw [LWWRegister.stamp_merge (h.fits src)]
      rcases hn with hn | hn
      · exact le_max_of_le_left (h.bound r n hn e he)
      · exact le_max_of_le_right (h.bound src n hn e he)
    · exact h.bound r n hn e he
  · rw [hwritten] at he he'
    exact h.order n e he m hm e' he'
  · simp only [hwritten]
    rcases hstate r with ⟨rfl, hreg, -⟩ | ⟨hne, hreg, -⟩
    · -- the register and what it holds come from the same side
      have hentry := LWWRegister.entry_merge (a := s.sys.state r) (h.fits src)
      rw [hreg]
      rw [hholds] at hr
      by_cases htakes : lwwTakes (s.sys.state r) (s.sys.state src)
      · rw [if_pos htakes, update_self] at hr
        rw [if_pos (LWWRegister.wins_iff.mp htakes.1)] at hentry
        obtain ⟨hvalue, hstamp⟩ := Prod.mk.inj hentry
        rw [hvalue, hstamp]
        exact h.holds src n hr
      · rw [if_neg htakes] at hr
        rw [if_neg fun hlt => htakes ⟨LWWRegister.wins_iff.mpr hlt, h.fits src⟩] at hentry
        obtain ⟨hvalue, hstamp⟩ := Prod.mk.inj hentry
        rw [hvalue, hstamp]
        exact h.holds r n hr
    · rw [hreg]
      refine h.holds r n ?_
      rw [hholds] at hr
      split at hr
      · rwa [update_of_ne hne] at hr
      · exact hr

theorem CausalInv.step (h : CausalInv s) (hsafe : ClockSafe s c) :
    ∃ s' u, lwwStep s c = some (s', u) ∧ CausalInv s' := by
  obtain ⟨s', hstep⟩ := lwwStep_total s c
  refine ⟨s', (), hstep, ?_⟩
  cases c with
  | update i op => exact h.set hsafe hstep
  | merge dst src => exact h.merge hstep

omit [DecidableEq ι] in
theorem causalInv_start (node nodes : ι → Nat) : CausalInv (lwwStart node nodes) where
  causal := causal_start _
  fits _ := zero_le _
  bound _ _ hn := hn.elim
  order n e he := absurd he.lt (not_lt_zero n)
  holds _ _ h := by simp [lwwStart] at h

/-- No step lowers a stamp. -/
theorem CausalInv.stamp_mono (h : CausalInv s) (hsafe : ClockSafe s c)
    (hstep : lwwStep s c = some (s', ())) (i : ι) :
    (s.sys.state i).stamp ≤ (s'.sys.state i).stamp := by
  cases c with
  | update j op =>
    rw [(lwwStep_set hstep).1]
    by_cases hi : i = j
    · subst hi
      simp only [update_self]
      exact hsafe.stamp_le
    · simp only [update_of_ne hi, le_refl]
  | merge dst src =>
    rw [(lwwStep_merge hstep).1]
    by_cases hi : i = dst
    · subst hi
      simp only [update_self]
      rw [LWWRegister.stamp_merge (h.fits src)]
      exact le_max_left _ _
    · simp only [update_of_ne hi, le_refl]

/-- A register that holds a write does not fall back to one that its author had seen. -/
theorem CausalInv.no_fallback (h : CausalInv s) {n₁ n₂ : Nat} {e₂ : Event ι LWWRegister LWWOp}
    (he₂ : s.sys.log[n₂]? = some e₂) (hpast : n₁ ∈ e₂.past) (hdst : s.holds dst = some n₂)
    (hstep : lwwStep s (.merge dst src) = some (s', ())) :
    s'.holds dst ≠ some n₁ := by
  intro hback
  rw [(lwwStep_merge hstep).2] at hback
  split at hback
  · rename_i htakes
    rw [update_self] at hback
    obtain ⟨e, hwritten, -, hstamp⟩ := h.holds dst n₂ hdst
    obtain rfl : e = e₂ := Option.mem_unique hwritten.1 he₂
    obtain ⟨e₁, hwritten₁, -, hstamp₁⟩ := h.holds src n₁ hback
    -- the other register would need a later stamp than the write that had seen it
    have hlt := LWWRegister.wins_iff.mp htakes.1
    rw [hstamp, hstamp₁] at hlt
    exact absurd (h.order n₂ e hwritten n₁ hpast e₁ hwritten₁) (not_le.mpr hlt)
  · obtain rfl := Option.mem_unique hdst hback
    exact absurd (h.causal.past_lt n₂ e₂ he₂ n₂ hpast) (lt_irrefl _)

/-- **LWW registers respect causality** in every run in which no write reads an earlier
time than its register already has.  In every state reached a register has the value of
the write it holds; no further step lowers a timestamp; and no merge makes a register
that holds a write fall back to one that the author of the write had seen. -/
theorem lww_respects_causality {node nodes : ι → Nat} {calls : List (Call ι LWWOp)}
    (hsafe : Along lwwStep ClockSafe (lwwStart node nodes) calls) :
    ∃ s us, run lwwStep (lwwStart node nodes) calls = some (s, us)
      ∧ (∀ i n, s.holds i = some n → ∃ e, s.Written n e
          ∧ (s.sys.state i).value = e.op.value.bytes)
      ∧ (∀ c s', ClockSafe s c → lwwStep s c = some (s', ()) →
          ∀ i, (s.sys.state i).timestampUs ≤ (s'.sys.state i).timestampUs)
      ∧ (∀ n₁ n₂ e₂, s.sys.log[n₂]? = some e₂ → n₁ ∈ e₂.past → ∀ dst src s',
          s.holds dst = some n₂ → lwwStep s (.merge dst src) = some (s', ()) →
            s'.holds dst ≠ some n₁) := by
  obtain ⟨s, us, hrun, h⟩ :=
    run_total (fun s c h hsafe => h.step hsafe) (causalInv_start node nodes) hsafe
  refine ⟨s, us, hrun, fun i n hi => ?_, fun c s' hc hstep i => ?_,
    fun n₁ n₂ e₂ he₂ hpast dst src s' => h.no_fallback he₂ hpast⟩
  · obtain ⟨e, he, hvalue, -⟩ := h.holds i n hi
    exact ⟨e, he, hvalue⟩
  · rcases Prod.Lex.toLex_le_toLex.mp (h.stamp_mono hc hstep i) with hlt | ⟨heq, -⟩
    · exact hlt.le
    · exact heq.le

end Replicas

/-! ### Two replicas -/

/-- Writes `b` at time `now`. -/
def put (b : UInt8) (now : Nat) : LWWOp := ⟨⟨[b], by simp⟩, now⟩

/-- Node `1` and node `2`, with clocks of three nodes. -/
def twoRegisters : LWWSystem (Fin 2) := lwwStart (fun i => i.val + 1) fun _ => 3

theorem lww_converges_two : ∃ s us,
    run lwwStep twoRegisters [.update 0 (put 120 5), .update 1 (put 121 5), .merge 0 1]
        = some (s, us)
      ∧ ∀ i j, ∃ t us', run lwwStep s [.merge i j, .merge j i] = some (t, us')
          ∧ (t.sys.state i).value = (t.sys.state j).value := by
  have hsafe : Along lwwStep StampSafe twoRegisters
      [.update 0 (put 120 5), .update 1 (put 121 5), .merge 0 1] := by
    refine ⟨fun _ j hj hnow => ?_, fun s₁ _ h₁ => ?_⟩
    · simp [twoRegisters, lwwStart, start, lwwCreate, put] at hnow
    obtain ⟨rfl, _⟩ := result_inj h₁
    refine ⟨fun _ j hj _ hnode => ?_, fun _ _ _ => ⟨trivial, fun _ _ _ => trivial⟩⟩
    obtain rfl : j = 0 := by omega
    revert hnode
    decide +kernel
  obtain ⟨s, us, hrun, hexchange, -⟩ := lww_converges hsafe
  exact ⟨s, us, hrun, hexchange⟩

/-- **Two replicas can stay apart.**  Node `1` merges a write of node `2` and writes under
its number.  A write of node `2` at the same time has the same stamp, and merging in both
directions changes nothing.  And with clocks of different lengths a clock entry that came
from a longer clock is not handed on to a third register, so merging is not commutative
there. -/
theorem lww_stays_apart :
    (run lwwStep twoRegisters [.update 1 (put 98 5), .merge 0 1, .update 0 (put 120 7),
      .update 1 (put 121 7), .merge 0 1, .merge 1 0]).map
        (fun r => ((r.1.sys.state 0).value, (r.1.sys.state 1).value)) = some ([120], [121])
    ∧ (run lwwStep
        (lwwStart (fun i : Fin 3 => if i = 1 then 3 else i.val) fun i => if i = 1 then 4 else 1)
        [.update 1 (put 120 5), .merge 0 1]).map
        (fun r => ((lwwMerge (r.1.sys.state 2) (r.1.sys.state 0)).vc.clocks 3,
          (lwwMerge (r.1.sys.state 0) (r.1.sys.state 2)).vc.clocks 3)) = some (0, 1) := by
  decide +kernel

theorem lww_respects_causality_two : ∃ s us,
    run lwwStep twoRegisters [.update 0 (put 120 5), .merge 1 0, .update 1 (put 121 5)]
        = some (s, us)
      ∧ ∀ i n, s.holds i = some n → ∃ e, s.Written n e
          ∧ (s.sys.state i).value = e.op.value.bytes := by
  have hsafe : Along lwwStep ClockSafe twoRegisters
      [.update 0 (put 120 5), .merge 1 0, .update 1 (put 121 5)] := by
    refine ⟨fun _ => by decide, fun s₁ _ h₁ => ⟨trivial, fun s₂ _ h₂ => ?_⟩⟩
    obtain ⟨rfl, _⟩ := result_inj h₁
    obtain ⟨rfl, _⟩ := result_inj h₂
    exact ⟨fun _ => by decide +kernel, fun _ _ _ => trivial⟩
  obtain ⟨s, us, hrun, hholds, -⟩ := lww_respects_causality hsafe
  exact ⟨s, us, hrun, hholds⟩

/-- **A later write can be lost.**  Node `2` merges a write made at time `100` and then
writes at time `50` by its own clock: its timestamp goes back, and merging the first
register again brings the first value back. -/
theorem lww_falls_back :
    (run lwwStep twoRegisters [.update 0 (put 120 100), .merge 1 0, .update 1 (put 121 50)]).map
        (fun r => ((r.1.sys.state 1).value, (r.1.sys.state 1).timestampUs, r.1.holds 1))
      = some ([121], 50, some 1)
    ∧ (run lwwStep twoRegisters [.update 0 (put 120 100), .merge 1 0, .update 1 (put 121 50),
        .merge 1 0]).map
        (fun r => ((r.1.sys.state 1).value, (r.1.sys.state 1).timestampUs, r.1.holds 1))
      = some ([120], 100, some 0) := by
  decide +kernel

end NexCache.Crdt
