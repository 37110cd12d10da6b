import NexCache.Cluster.Routing
import NexCache.Lib.Runs

/-!
# Failure detection

`cluster_check_failures` lets a suspect node fail when its last pong is more than 15 seconds old.
The last pong of a new node is what its place in the array had before: zero, or the last pong of a
node that was there.  So a node may fail before it has had 15 seconds to answer.

`Watched` is a cluster with a clock that never goes back, and with the times of additions and
answers, as one who watches the calls would note them.  `check_overdue` says that a check which
waits for the new nodes lets no node fail too early, and that `self_idx` leads to the local node
until it is removed.
-/

namespace NexCache.Cluster

open Runs Function List Nat

/-- A cluster, the time, and for each id the time of its addition and of its last pong since. -/
structure Watched where
  ci : ClusterIndex
  clock : UInt64
  addedAt : UInt32 → UInt64
  answered : UInt32 → Option UInt64

section Watch

variable (qsort : List RingEntry → List RingEntry)

def watchInit (selfId : UInt32) (start : UInt64) : Watched where
  ci := clusterInit qsort selfId start
  clock := start
  addedAt := fun _ => start
  answered := fun _ => none

/-- The time that a call reads. -/
def ClusterOp.time : ClusterOp → Option UInt64
  | add _ now => some now
  | remove _ => none
  | markFailed _ => none
  | pong _ now => some now
  | check now => some now

/-- What is noted of a call that has returned `ret`. -/
def Watched.note (w : Watched) (ret : Int) : ClusterOp → Watched
  | .add id now =>
    if ret = 0 then
      { w with
        addedAt := update w.addedAt id now
        answered := update w.answered id none }
    else w
  | .pong id now =>
    if ret = 0 then { w with answered := update w.answered id (some now) } else w
  | _ => w

/-- A call at a time that is not before the last one. -/
def watchStep (w : Watched) (op : ClusterOp) : Option (Watched × Int) :=
  let now := op.time.getD w.clock
  if now < w.clock then none
  else
    let r := clusterStep qsort w.ci op
    some ({ w.note r.2 op with ci := r.1, clock := now }, r.2)

end Watch

/-- More than 15 seconds have passed since the addition of the node and its last pong. -/
def Overdue (w : Watched) (now : UInt64) (id : UInt32) : Prop :=
  (w.addedAt id).toNat + FAIL_THRESHOLD_US.toNat < now.toNat ∧
    ∀ p, w.answered id = some p → p.toNat + FAIL_THRESHOLD_US.toNat < now.toNat

/-- More than 15 seconds have passed since the addition of every node, other than
`nodes[self_idx]`, that has not answered since. -/
def Patient (w : Watched) (now : UInt64) : Prop :=
  ∀ i < w.ci.nodeCount, (i : Int) ≠ w.ci.selfIdx → w.answered (w.ci.nodes i).id = none →
    (w.addedAt (w.ci.nodes i).id).toNat + FAIL_THRESHOLD_US.toNat < now.toNat

instance (w : Watched) (now : UInt64) : Decidable (Patient w now) :=
  decidableBallLT _ _

/-! ### The nodes after a check -/

section Check

variable {qsort : List RingEntry → List RingEntry} {now : UInt64} {ci : ClusterIndex}

/-- The check of a node writes that node. -/
theorem checkNode_frame (i : Nat) : (checkNode qsort now ci i).selfIdx = ci.selfIdx ∧
    (checkNode qsort now ci i).nodeCount = ci.nodeCount ∧
    ∀ j, j ≠ i → (checkNode qsort now ci i).nodes j = ci.nodes j := by
  rcases checkNode_cases qsort now ci i with ⟨h, -⟩ | ⟨-, -, -, h⟩ | ⟨-, -, -, h⟩
  · rw [h]
    exact ⟨rfl, rfl, fun _ _ => rfl⟩
  all_goals
    rw [h]
    exact ⟨rfl, rfl, fun _ hj => nodes_setNode_of_ne _ hj⟩

theorem checkNode_nodes_self (i : Nat) : (checkNode qsort now ci i).nodes i =
    if (i : Int) = ci.selfIdx then ci.nodes i
    else { ci.nodes i with state := checkedState now (ci.nodes i) } := by
  rcases checkNode_cases qsort now ci i with ⟨h, hwhy⟩ | ⟨hself, -, hstate, h⟩
    | ⟨hself, -, hstate, h⟩
  · rw [h]
    rcases hwhy with hself | hstate
    · rw [if_pos hself]
    · rw [hstate, ite_self]
  all_goals
    rw [h, if_neg hself, hstate]
    exact nodes_setNode_self _

theorem foldl_checkNode_nodes : ∀ (is : List Nat) (ci : ClusterIndex), is.Nodup → ∀ j,
    (is.foldl (checkNode qsort now) ci).nodes j =
      if j ∈ is ∧ (j : Int) ≠ ci.selfIdx then
        { ci.nodes j with state := checkedState now (ci.nodes j) }
      else ci.nodes j := by
  intro is
  induction is with
  | nil => intro ci _ j; simp
  | cons i is ih =>
    intro ci hnodup j
    obtain ⟨hnot, hrest⟩ := nodup_cons.mp hnodup
    rw [foldl_cons, ih _ hrest j, (checkNode_frame i).1]
    by_cases hj : j = i
    · subst hj
      rw [if_neg fun h => hnot h.1, checkNode_nodes_self]
      by_cases hself : (j : Int) = ci.selfIdx
      · rw [if_pos hself, if_neg fun h => h.2 hself]
      · rw [if_neg hself, if_pos ⟨by simp, hself⟩]
    · rw [(checkNode_frame i).2.2 j hj]
      simp only [mem_cons, hj, false_or]

theorem clusterCheckFailures_nodes (now : UInt64) (ci : ClusterIndex) (j : Nat) :
    (clusterCheckFailures qsort ci now).nodes j =
      if j < ci.nodeCount ∧ (j : Int) ≠ ci.selfIdx then
        { ci.nodes j with state := checkedState now (ci.nodes j) }
      else ci.nodes j := by
  rw [clusterCheckFailures, foldl_checkNode_nodes _ ci nodup_range j]
  simp only [mem_range]

theorem checkedState_eq_failed {n : ClusterNode} (h : n.state ≠ .failed) :
    checkedState now n = .failed ↔
      n.state = .suspect ∧ now - n.lastPongUs > FAIL_THRESHOLD_US := by
  rw [checkedState]
  by_cases hactive : n.state = .active ∧ now - n.lastPongUs > SUSPECT_THRESHOLD_US
  · rw [if_pos hactive, hactive.1]
    exact iff_of_false ClusterNodeState.noConfusion fun h => ClusterNodeState.noConfusion h.1
  · rw [if_neg hactive]
    by_cases hsuspect : n.state = .suspect ∧ now - n.lastPongUs > FAIL_THRESHOLD_US
    · rw [if_pos hsuspect]
      exact iff_of_true rfl hsuspect
    · rw [if_neg hsuspect]
      exact iff_of_false h hsuspect

/-- **A check** lets a node fail iff it is suspect and its last pong is old, by the array. -/
theorem check_fails_iff {i : Nat} (hi : i < ci.nodeCount) (hlive : (ci.nodes i).state ≠ .failed) :
    ((clusterCheckFailures qsort ci now).nodes i).state = .failed ↔
      (i : Int) ≠ ci.selfIdx ∧ (ci.nodes i).state = .suspect ∧
        now - (ci.nodes i).lastPongUs > FAIL_THRESHOLD_US := by
  rw [clusterCheckFailures_nodes]
  by_cases hself : (i : Int) = ci.selfIdx
  · rw [if_neg fun h => h.2 hself]
    exact iff_of_false hlive fun h => h.1 hself
  · rw [if_pos ⟨hi, hself⟩]
    exact (checkedState_eq_failed hlive).trans ⟨fun h => ⟨hself, h⟩, fun h => h.2⟩

end Check

/-! ### What the array knows -/

/-- The notes and the array agree. -/
structure Timely (w : Watched) : Prop where
  self_eq : w.ci.selfIdx = 0
  id_inj : ∀ i < w.ci.nodeCount, ∀ j < w.ci.nodeCount, (w.ci.nodes i).id = (w.ci.nodes j).id → i = j
  pong_le : ∀ i, (w.ci.nodes i).lastPongUs ≤ w.clock
  added_le : ∀ id, w.addedAt id ≤ w.clock
  answered_eq : ∀ i < w.ci.nodeCount, ∀ p, w.answered (w.ci.nodes i).id = some p →
    (w.ci.nodes i).lastPongUs = p ∧ w.addedAt (w.ci.nodes i).id ≤ p

section Steps

variable {qsort : List RingEntry → List RingEntry} {w : Watched} {now : UInt64} {id : UInt32}

variable (h : Timely w)
include h

/-- Only the states of the nodes change, and time passes. -/
theorem Timely.of_states {ci : ClusterIndex} (hnow : w.clock ≤ now)
    (hself : ci.selfIdx = w.ci.selfIdx) (hcount : ci.nodeCount = w.ci.nodeCount)
    (hid : ∀ i, (ci.nodes i).id = (w.ci.nodes i).id)
    (hpong : ∀ i, (ci.nodes i).lastPongUs = (w.ci.nodes i).lastPongUs) :
    Timely { w with ci := ci, clock := now } where
  self_eq := hself.trans h.self_eq
  id_inj i hi j hj heq := by
    rw [hcount] at hi hj
    rw [hid, hid] at heq
    exact h.id_inj i hi j hj heq
  pong_le i := by
    show (ci.nodes i).lastPongUs ≤ now
    rw [hpong]
    exact UInt64.le_trans (h.pong_le i) hnow
  added_le id := UInt64.le_trans (h.added_le id) hnow
  answered_eq i hi p hp := by
    rw [hcount] at hi
    rw [hid] at hp
    rw [hid, hpong]
    exact h.answered_eq i hi p hp

theorem Timely.add (hnow : w.clock ≤ now) :
    Timely { w.note (clusterAddNode qsort w.ci id now).2 (.add id now) with
      ci := (clusterAddNode qsort w.ci id now).1, clock := now } := by
  rcases clusterAddNode_cases qsort w.ci id now with hno | ⟨-, hfind, hadd⟩
  · rw [hno]
    exact h.of_states hnow rfl rfl (fun _ => rfl) fun _ => rfl
  rw [hadd]
  generalize hci : (rebuildRing qsort (joined w.ci id now)).setState w.ci.nodeCount .active = ci
  have hcount : ci.nodeCount = w.ci.nodeCount + 1 := hci ▸ rfl
  have hself : ci.selfIdx = w.ci.selfIdx := hci ▸ rfl
  -- the old nodes, the new one, and the places behind it
  have hold : ∀ i < w.ci.nodeCount, ci.nodes i = w.ci.nodes i := by
    intro i hi
    rw [← hci]
    exact (nodes_setNode_of_ne _ (Nat.ne_of_lt hi)).trans (nodes_joined_of_lt hi)
  have hnew : ci.nodes w.ci.nodeCount =
      { w.ci.nodes w.ci.nodeCount with id := id, state := .active, lastPingUs := now } := by
    rw [← hci]
    refine (nodes_setNode_self _).trans ?_
    rw [rebuildRing_nodes, nodes_joined_last]
  have hbehind : ∀ i, w.ci.nodeCount < i → ci.nodes i = w.ci.nodes i := by
    intro i hi
    rw [← hci]
    exact (nodes_setNode_of_ne _ (ne_of_gt hi)).trans (nodes_setNode_of_ne _ (ne_of_gt hi))
  have hother : ∀ i < w.ci.nodeCount, (w.ci.nodes i).id ≠ id := findNode_eq_none hfind
  have hnewId : (ci.nodes w.ci.nodeCount).id = id := by rw [hnew]
  rw [Watched.note, if_pos rfl]
  constructor
  · exact hself.trans h.self_eq
  · intro i hi j hj heq
    rw [hcount] at hi hj
    rcases Nat.lt_succ_iff_lt_or_eq.mp hi with hi | rfl
    · rcases Nat.lt_succ_iff_lt_or_eq.mp hj with hj | rfl
      · rw [hold i hi, hold j hj] at heq
        exact h.id_inj i hi j hj heq
      · rw [hold i hi, hnewId] at heq
        exact absurd heq (hother i hi)
    · rcases Nat.lt_succ_iff_lt_or_eq.mp hj with hj | rfl
      · rw [hold j hj, hnewId] at heq
        exact absurd heq.symm (hother j hj)
      · rfl
  · intro i
    refine UInt64.le_trans ?_ hnow
    rcases lt_trichotomy i w.ci.nodeCount with hi | rfl | hi
    · rw [hold i hi]
      exact h.pong_le i
    · rw [hnew]
      exact h.pong_le w.ci.nodeCount
    · rw [hbehind i hi]
      exact h.pong_le i
  · exact (forall_update_iff _ fun _ added => added ≤ now).mpr
      ⟨UInt64.le_refl now, fun id' _ => UInt64.le_trans (h.added_le id') hnow⟩
  · intro i hi p hp
    dsimp only at hi hp ⊢
    rw [hcount] at hi
    rcases Nat.lt_succ_iff_lt_or_eq.mp hi with hi | rfl
    · rw [hold i hi, update_of_ne (hother i hi)] at hp
      rw [hold i hi, update_of_ne (hother i hi)]
      exact h.answered_eq i hi p hp
    · -- the new node has not answered
      rw [hnewId, update_self] at hp
      cases hp

theorem Timely.remove : Timely { w with ci := (clusterRemoveNode qsort w.ci id).1 } := by
  rcases clusterRemoveNode_cases qsort w.ci id with ⟨-, hno⟩ | ⟨k, -, hyes⟩
  · rw [hno]
    exact h
  rw [hyes]
  have hplace : ∀ j < w.ci.nodeCount - 1, (left w.ci k).nodes j =
      w.ci.nodes (if j < k then j else j + 1) := by
    intro j hj
    split
    · rename_i hjk
      exact nodes_left_of_lt hjk
    · rename_i hjk
      exact nodes_left_of_ge (by omega) (by omega)
  have hpong : ∀ j, ∃ j', ((left w.ci k).nodes j).lastPongUs = (w.ci.nodes j').lastPongUs := by
    intro j
    show ∃ j', (if k ≤ j ∧ _ then (w.ci.setState k .leaving).nodes (j + 1)
      else (w.ci.setState k .leaving).nodes j).lastPongUs = _
    split
    · exact ⟨j + 1, by rw [nodes_setState]⟩
    · exact ⟨j, by rw [nodes_setState]⟩
  constructor
  · exact h.self_eq
  · intro i hi j hj heq
    have hi' : i < w.ci.nodeCount - 1 := hi
    have hj' : j < w.ci.nodeCount - 1 := hj
    rw [rebuildRing_nodes, hplace i hi', hplace j hj'] at heq
    have := h.id_inj _ (by split <;> omega) _ (by split <;> omega) heq
    split at this <;> split at this <;> omega
  · intro j
    obtain ⟨j', hj'⟩ := hpong j
    show ((left w.ci k).nodes j).lastPongUs ≤ w.clock
    rw [hj']
    exact h.pong_le j'
  · exact h.added_le
  · intro j hj p hp
    have hj' : j < w.ci.nodeCount - 1 := hj
    rw [rebuildRing_nodes, hplace j hj'] at hp ⊢
    exact h.answered_eq _ (by split <;> omega) p hp

theorem Timely.pong (hnow : w.clock ≤ now) :
    Timely { w.note (clusterHandlePong w.ci id now).2 (.pong id now) with
      ci := (clusterHandlePong w.ci id now).1, clock := now } := by
  rcases clusterHandlePong_cases w.ci id now with hno | ⟨k, n, hfind, hnid, hnpong, -, hyes⟩
  · rw [hno]
    exact h.of_states hnow rfl rfl (fun _ => rfl) fun _ => rfl
  rw [hyes]
  obtain ⟨hk, hid⟩ := findNode_eq_some hfind
  rw [Watched.note, if_pos rfl]
  have hself : (w.ci.setNode k n).nodes k = n := nodes_setNode_self n
  have hother : ∀ {i}, i ≠ k → (w.ci.setNode k n).nodes i = w.ci.nodes i := nodes_setNode_of_ne n
  have hids : ∀ i, ((w.ci.setNode k n).nodes i).id = (w.ci.nodes i).id := by
    intro i
    by_cases hik : i = k
    · rw [hik, hself, hnid]
    · rw [hother hik]
  constructor
  · exact h.self_eq
  · intro i hi j hj heq
    rw [hids, hids] at heq
    exact h.id_inj i hi j hj heq
  · intro i
    by_cases hik : i = k
    · rw [hik, hself, hnpong]
      exact UInt64.le_refl now
    · rw [hother hik]
      exact UInt64.le_trans (h.pong_le i) hnow
  · intro id'
    exact UInt64.le_trans (h.added_le id') hnow
  · intro i hi p hp
    dsimp only at hp ⊢
    by_cases hik : i = k
    · rw [hik, hself, hnid, hid, update_self] at hp
      obtain rfl := Option.some.inj hp
      rw [hik, hself]
      exact ⟨hnpong, UInt64.le_trans (h.added_le _) hnow⟩
    · have hne : (w.ci.nodes i).id ≠ id := fun heq =>
        hik (h.id_inj i hi k hk (heq.trans hid.symm))
      rw [hother hik, update_of_ne hne] at hp
      rw [hother hik]
      exact h.answered_eq i hi p hp

theorem Timely.markFailed : Timely { w with ci := (clusterMarkFailed qsort w.ci id).1 } := by
  rcases clusterMarkFailed_cases qsort w.ci id with hno | ⟨k, -, hyes⟩
  · rw [hno]
    exact h
  · rw [hyes]
    have hnode : ∀ i, (rebuildRing qsort (withFailed w.ci k)).nodes i =
      { w.ci.nodes i with state := if i = k then .failed else (w.ci.nodes i).state } :=
      nodes_setState .failed
    refine h.of_states (UInt64.le_refl _) rfl rfl (fun i => ?_) fun i => ?_
    · rw [hnode]
    · rw [hnode]

omit h

theorem clusterCheckFailures_frame (qsort : List RingEntry → List RingEntry) (now : UInt64)
    (ci : ClusterIndex) :
    (clusterCheckFailures qsort ci now).selfIdx = ci.selfIdx ∧
      (clusterCheckFailures qsort ci now).nodeCount = ci.nodeCount := by
  refine foldlRecOn (motive := fun c : ClusterIndex => c.selfIdx = ci.selfIdx ∧
    c.nodeCount = ci.nodeCount) _ _ ⟨rfl, rfl⟩ fun c hc i _ => ?_
  obtain ⟨hself, hcount, -⟩ := @checkNode_frame qsort now c i
  exact ⟨hself.trans hc.1, hcount.trans hc.2⟩

theorem Timely.check (h : Timely w) (hnow : w.clock ≤ now) :
    Timely { w with ci := clusterCheckFailures qsort w.ci now, clock := now } := by
  obtain ⟨hself, hcount⟩ := clusterCheckFailures_frame qsort now w.ci
  refine h.of_states hnow hself hcount (fun i => ?_) fun i => ?_
  all_goals
    rw [clusterCheckFailures_nodes]
    split <;> rfl

/-- **A call** keeps the notes and the array together. -/
theorem timely_watchStep (h : Timely w) {op : ClusterOp} {w' : Watched} {ret : Int}
    (hstep : watchStep qsort w op = some (w', ret)) : Timely w' := by
  rw [watchStep] at hstep
  split at hstep
  · cases hstep
  · rename_i htime
    obtain ⟨rfl, -⟩ := result_inj hstep
    have hnow := UInt64.not_lt.mp htime
    cases op with
    | add id now => exact h.add hnow
    | remove id => exact h.remove
    | markFailed id => exact h.markFailed
    | pong id now => exact h.pong hnow
    | check now => exact h.check hnow

theorem timely_watchInit (selfId : UInt32) (start : UInt64) :
    Timely (watchInit qsort selfId start) where
  self_eq := rfl
  id_inj i hi j hj _ := by
    have hi' : i < 1 := hi
    have hj' : j < 1 := hj
    omega
  pong_le i := by
    have hzero : ((watchInit qsort selfId start).ci.nodes i).lastPongUs = 0 := by
      cases i with
      | zero => rfl
      | succ i => rfl
    rw [hzero, UInt64.le_iff_toNat_le]
    exact zero_le _
  added_le _ := UInt64.le_refl start
  answered_eq _ _ _ hp := by cases hp

end Steps

/-! ### The local node -/

section Local

variable {qsort : List RingEntry → List RingEntry} {selfId : UInt32}

/-- `self_idx` leads to the local node, or is `-1` once this node has been removed. -/
def LocalKnown (selfId : UInt32) (ops : List ClusterOp) (ci : ClusterIndex) : Prop :=
  if .remove selfId ∈ ops then ci.selfIdx = -1
  else ∃ i : Nat, ci.selfIdx = i ∧ i < ci.nodeCount ∧ (ci.nodes i).id = selfId

/-- The local node is the first one. -/
def LocalFirst (selfId : UInt32) (ci : ClusterIndex) : Prop :=
  0 < ci.nodeCount ∧ (ci.nodes 0).id = selfId

theorem localFirst_clusterStep {ci : ClusterIndex} (h : LocalFirst selfId ci) {op : ClusterOp}
    (hop : op ≠ .remove selfId) : LocalFirst selfId (clusterStep qsort ci op).1 := by
  cases op with
  | add id now =>
    rw [clusterStep]
    rcases clusterAddNode_cases qsort ci id now with hno | ⟨-, -, hadd⟩
    · rwa [hno]
    · rw [hadd]
      refine ⟨succ_pos _, ?_⟩
      rw [nodes_setState, rebuildRing_nodes, nodes_joined_of_lt h.1]
      exact h.2
  | remove id =>
    rw [clusterStep]
    rcases clusterRemoveNode_cases qsort ci id with ⟨-, hno⟩ | ⟨k, hfind, hyes⟩
    · rwa [hno]
    · obtain ⟨hk, hid⟩ := findNode_eq_some hfind
      have hpos : 0 < k := by
        refine pos_of_ne_zero fun hzero => hop ?_
        rw [← hid, hzero, h.2]
      rw [hyes]
      refine ⟨?_, ?_⟩
      · show 0 < ci.nodeCount - 1
        omega
      · rw [rebuildRing_nodes, nodes_left_of_lt hpos]
        exact h.2
  | markFailed id =>
    rw [clusterStep]
    rcases clusterMarkFailed_cases qsort ci id with hno | ⟨k, -, hyes⟩
    · rwa [hno]
    · rw [hyes]
      refine ⟨h.1, ?_⟩
      show ((ci.setState k .failed).nodes 0).id = selfId
      rw [nodes_setState]
      exact h.2
  | pong id now =>
    rw [clusterStep]
    rcases clusterHandlePong_cases ci id now with hno | ⟨k, n, -, hid, -, -, hyes⟩
    · rwa [hno]
    · rw [hyes]
      refine ⟨h.1, ?_⟩
      by_cases hk : 0 = k
      · rw [← hk, nodes_setNode_self, hid, ← hk]
        exact h.2
      · rw [nodes_setNode_of_ne n hk]
        exact h.2
  | check now =>
    refine ⟨(clusterCheckFailures_frame qsort now ci).2.symm ▸ h.1, ?_⟩
    show ((clusterCheckFailures qsort ci now).nodes 0).id = selfId
    rw [clusterCheckFailures_nodes]
    split <;> exact h.2

end Local

section Main

variable {qsort : List RingEntry → List RingEntry} {selfId : UInt32} {start : UInt64}
  {ops : List ClusterOp} {w : Watched} {rets : List Int}

variable (hrun : run (watchStep qsort) (watchInit qsort selfId start) ops = some (w, rets))
include hrun

theorem timely_run : Timely w :=
  run_invariant (fun _ _ _ _ h _ hstep => timely_watchStep h hstep)
    (timely_watchInit selfId start) (along_of_forall fun _ _ _ => trivial) hrun

theorem localFirst_run (hops : .remove selfId ∉ ops) : LocalFirst selfId w.ci := by
  refine run_invariant (I := fun w => LocalFirst selfId w.ci)
    (fun w op w' ret h hop hstep => ?_) ⟨one_pos, rfl⟩
    (along_of_forall fun op hop _ heq => hops (Eq.subst heq hop)) hrun
  rw [watchStep] at hstep
  split at hstep
  · cases hstep
  · obtain ⟨rfl, -⟩ := result_inj hstep
    exact localFirst_clusterStep h hop

omit hrun

theorem toNat_lt_of_sub_gt {now p : UInt64} (hle : p ≤ now) (h : now - p > FAIL_THRESHOLD_US) :
    p.toNat + FAIL_THRESHOLD_US.toNat < now.toNat := by
  have hsub := UInt64.toNat_sub_of_le now p hle
  have hgt := UInt64.lt_iff_toNat_lt.mp h
  omega

theorem Timely.overdue (h : Timely w) {now : UInt64} (hnow : w.clock ≤ now) {i : Nat}
    (hi : i < w.ci.nodeCount) (hpong : now - (w.ci.nodes i).lastPongUs > FAIL_THRESHOLD_US)
    (hnew : w.answered (w.ci.nodes i).id = none →
      (w.addedAt (w.ci.nodes i).id).toNat + FAIL_THRESHOLD_US.toNat < now.toNat) :
    Overdue w now (w.ci.nodes i).id := by
  cases hans : w.answered (w.ci.nodes i).id with
  | none => exact ⟨hnew hans, fun p hp => by rw [hans] at hp; cases hp⟩
  | some p =>
    obtain ⟨hlast, hadded⟩ := h.answered_eq i hi p hans
    have hold := toNat_lt_of_sub_gt (UInt64.le_trans (h.pong_le i) hnow) hpong
    rw [hlast] at hold
    have hle := UInt64.le_iff_toNat_le.mp hadded
    refine ⟨by omega, fun q hq => ?_⟩
    obtain rfl := Option.mem_unique hans hq
    exact hold

/-- **Failure detection**: in every run under a clock that does not go back, a check that waits
for the new nodes lets only overdue nodes fail, and `self_idx` is right iff the local node has
not been removed.  As long as it has not, the local keys are those routed to it. -/
theorem check_overdue
    (hrun : run (watchStep qsort) (watchInit qsort selfId start) ops = some (w, rets)) :
    (∀ now, w.clock ≤ now → Patient w now →
      ∀ i < w.ci.nodeCount, (w.ci.nodes i).state ≠ .failed →
        ((clusterCheckFailures qsort w.ci now).nodes i).state = .failed →
        Overdue w now (w.ci.nodes i).id) ∧
    (LocalKnown selfId ops w.ci ↔ .remove selfId ∉ ops) ∧
    (.remove selfId ∉ ops →
      ∀ key, clusterKeyIsLocal w.ci key ↔ clusterKeyToNode w.ci key = selfId) := by
  have h := timely_run hrun
  refine ⟨fun now hnow hpatient i hi hlive hfails => ?_, ?_, fun hops key => ?_⟩
  · obtain ⟨hself, -, hpong⟩ := (check_fails_iff hi hlive).mp hfails
    exact h.overdue hnow hi hpong (hpatient i hi hself)
  · rw [LocalKnown]
    by_cases hops : .remove selfId ∈ ops
    · rw [if_pos hops, h.self_eq]
      exact iff_of_false (by decide) fun hno => hno hops
    · rw [if_neg hops]
      obtain ⟨hpos, hid⟩ := localFirst_run hrun hops
      exact iff_of_true ⟨0, h.self_eq, hpos, hid⟩ hops
  · rw [clusterKeyIsLocal, h.self_eq, if_neg (by decide), decide_eq_true_iff]
    exact (localFirst_run hrun hops).2 ▸ Iff.rfl

/-- Of two nodes added at second 100 one answers at once; 16 seconds later both are suspect. -/
def suspectOps : List ClusterOp :=
  [.add 2 100000000, .pong 2 100000000, .add 3 100000000, .check 116000000]

theorem check_overdue_suspects :
    ∃ w rets, run (watchStep mergeRing) (watchInit mergeRing 1 100000000) suspectOps
        = some (w, rets) ∧
      ((clusterCheckFailures mergeRing w.ci 117000000).nodes 1).state = .failed ∧
      ((clusterCheckFailures mergeRing w.ci 117000000).nodes 2).state = .failed ∧
      Overdue w 117000000 2 ∧ Overdue w 117000000 3 ∧ LocalKnown 1 suspectOps w.ci := by
  have heval : (run (watchStep mergeRing) (watchInit mergeRing 1 100000000) suspectOps).map
      (fun r => ((r.1.clock, r.1.ci.nodeCount, decide (Patient r.1 117000000)),
        r.1.ci.nodes 1, ((clusterCheckFailures mergeRing r.1.ci 117000000).nodes 1).state,
        r.1.ci.nodes 2, ((clusterCheckFailures mergeRing r.1.ci 117000000).nodes 2).state))
      = some ((116000000, 3, true), ⟨2, .suspect, 100000000, 100000000⟩, .failed,
        ⟨3, .suspect, 100000000, 0⟩, .failed) := by
    decide +kernel
  obtain ⟨⟨w, rets⟩, hrun, heq⟩ := Option.map_eq_some_iff.mp heval
  simp only [Prod.mk.injEq, decide_eq_true_eq] at heq
  obtain ⟨⟨hclock, hcount, hpatient⟩, hnode, hfails, hnode', hfails'⟩ := heq
  obtain ⟨hcheck, hlocal, -⟩ := check_overdue hrun
  have hover := hcheck 117000000 (by rw [hclock]; decide) hpatient
  have hover₂ := hover 1 (by omega) (by rw [hnode]; decide) hfails
  have hover₃ := hover 2 (by omega) (by rw [hnode']; decide) hfails'
  rw [hnode] at hover₂
  rw [hnode'] at hover₃
  exact ⟨w, rets, hrun, hfails, hfails', hover₂, hover₃, hlocal.mpr (by decide)⟩

/-- **A new node fails at once**: the second check lets the node fail that was added just now.
Without the local node, `self_idx` leads to the node that has moved to its place. -/
theorem new_node_fails_at_once :
    ((clusterRun mergeRing (clusterInit mergeRing 1 100000000)
      [.add 2 100000000, .check 100000000, .check 100000000]).nodes 1).state = .failed ∧
    (clusterRun mergeRing (clusterInit mergeRing 1 100000000)
      [.add 2 100000000, .remove 1]).selfIdx = 0 ∧
    ((clusterRun mergeRing (clusterInit mergeRing 1 100000000)
      [.add 2 100000000, .remove 1]).nodes 0).id = 2 := by
  decide +kernel

end Main

end NexCache.Cluster
