import NexCache.Cluster.Cluster
import Mathlib.Data.List.Nodup

/-!
# Routing

The entries of the ring as a set, for the nodes that have not failed.  `Routed` says that every
slot is mapped to the owner of its hash in this set; it holds in every state that the calls reach,
unless all nodes have failed (`routed_run`).  When a ring shrinks or grows, only the slots of the
entries that go or come are moved (`moved_of_shrink`, `moved_of_grow`).
-/

namespace NexCache.Cluster

open HashRing List Nat
open ClusterNodeState (noConfusion)

/-- What is known about `qsort`. -/
def QsortOk (qsort : List RingEntry → List RingEntry) : Prop :=
  ∀ l, (qsort l).Perm l ∧ (qsort l).Pairwise fun a b => a.hash ≤ b.hash

/-- The virtual nodes of the nodes that have not failed. -/
def ClusterIndex.entries (ci : ClusterIndex) : Set RingEntry :=
  {e | ∃ i < ci.nodeCount, (ci.nodes i).state ≠ .failed ∧ e ∈ virtualNodes (ci.nodes i).id}

/-- Every slot is mapped to the owner of its hash, unless there are no entries. -/
def Routed (ci : ClusterIndex) : Prop :=
  ci.entries.Nonempty → ∀ slot, ∃ e, Owner RingEntry.hash (slotHash slot) ci.entries e ∧
    ci.slotToNode slot = e.nodeId

/-- The invariant of the cluster. -/
structure Sound (ci : ClusterIndex) : Prop where
  count_le : ci.nodeCount ≤ CLUSTER_MAX_NODES
  routed : Routed ci

/-- The hashes of the virtual nodes are pairwise distinct. -/
def DistinctHashes (ci : ClusterIndex) : Prop := ((fillRing ci).map RingEntry.hash).Nodup

/-! ### Virtual nodes -/

theorem nodeId_of_mem_virtualNodes {id : UInt32} {e : RingEntry} (h : e ∈ virtualNodes id) :
    e.nodeId = id := by
  obtain ⟨v, -, rfl⟩ := mem_map.mp h
  rfl

theorem length_virtualNodes (id : UInt32) : (virtualNodes id).length = CLUSTER_VIRTUAL_NODES := by
  rw [virtualNodes, length_map, length_range]

theorem virtualNodes_nonempty (id : UInt32) : ∃ e, e ∈ virtualNodes id :=
  exists_mem_of_length_pos (by rw [length_virtualNodes]; decide)

/-- The ring has room for all virtual nodes. -/
theorem mem_fillRing {ci : ClusterIndex} (hcount : ci.nodeCount ≤ CLUSTER_MAX_NODES)
    (e : RingEntry) : e ∈ fillRing ci ↔ e ∈ ci.entries := by
  have hlive : ((range ci.nodeCount).filter fun i => (ci.nodes i).state ≠ .failed).length
      ≤ CLUSTER_MAX_NODES := by
    refine le_trans (length_filter_le _ _) ?_
    rwa [length_range]
  rw [fillRing, take_of_length_le]
  · simp only [mem_flatMap, mem_filter, mem_range, decide_eq_true_eq, and_assoc,
      ClusterIndex.entries, Set.mem_ofPred_eq]
  · rw [length_flatMap, map_congr_left fun i _ => length_virtualNodes _,
      map_const', sum_replicate_nat]
    exact mul_le_mul_right _ hlive

theorem DistinctHashes.injOn {ci : ClusterIndex} (h : DistinctHashes ci)
    (hcount : ci.nodeCount ≤ CLUSTER_MAX_NODES) : Set.InjOn RingEntry.hash ci.entries :=
  fun _ ha _ hb heq => inj_on_of_nodup_map h ((mem_fillRing hcount _).mpr ha)
    ((mem_fillRing hcount _).mpr hb) heq

/-! ### `rebuild_ring` -/

section Rebuild

variable {qsort : List RingEntry → List RingEntry}

@[simp] theorem rebuildRing_nodes (ci : ClusterIndex) : (rebuildRing qsort ci).nodes = ci.nodes :=
  rfl

@[simp] theorem rebuildRing_entries (ci : ClusterIndex) :
    (rebuildRing qsort ci).entries = ci.entries := rfl

theorem owner_ringSearch {ring : List RingEntry}
    (hsorted : ring.Pairwise fun a b => a.hash ≤ b.hash) (hpos : 0 < ring.length) (h : Nat) :
    Owner RingEntry.hash h {e | e ∈ ring}
      (ring.getD (ringSearch ring h % ring.length) default) := by
  have hfirst := bisect_sorted (h := h) hsorted hpos default
  rw [ringSearch, mod_eq_of_lt (hfirst.lt hpos)]
  exact owner_of_first hsorted hpos default hfirst

theorem sound_rebuildRing (hq : QsortOk qsort) {ci : ClusterIndex}
    (hcount : ci.nodeCount ≤ CLUSTER_MAX_NODES) : Sound (rebuildRing qsort ci) := by
  obtain ⟨hperm, hsorted⟩ := hq (fillRing ci)
  have hring : {e | e ∈ qsort (fillRing ci)} = ci.entries :=
    Set.ext fun e => hperm.mem_iff.trans (mem_fillRing hcount e)
  refine ⟨hcount, fun hne slot => ?_⟩
  obtain ⟨e, he⟩ := hne
  rw [rebuildRing_entries, ← hring] at he
  have hpos : 0 < (qsort (fillRing ci)).length := length_pos_of_mem he
  refine ⟨_, hring ▸ owner_ringSearch hsorted hpos (slotHash slot), ?_⟩
  rw [rebuildRing]
  exact if_pos hpos

theorem rebuildRing_empty (hq : QsortOk qsort) {ci : ClusterIndex}
    (hcount : ci.nodeCount ≤ CLUSTER_MAX_NODES) (hempty : ¬ci.entries.Nonempty) :
    (rebuildRing qsort ci).slotToNode = ci.slotToNode := by
  have hring : qsort (fillRing ci) = [] := by
    refine eq_nil_iff_forall_not_mem.mpr fun e he => hempty ⟨e, ?_⟩
    exact (mem_fillRing hcount e).mp ((hq (fillRing ci)).1.mem_iff.mp he)
  rw [rebuildRing, hring]
  rfl

end Rebuild

/-! ### Moves -/

section Moves

variable {ci ci' : ClusterIndex} {slot : Fin CLUSTER_SLOT_COUNT}

/-- A slot that is moved when the ring shrinks belonged to an entry that has gone. -/
theorem moved_of_shrink (hr : Routed ci) (hr' : Routed ci') (hsub : ci'.entries ⊆ ci.entries)
    (hinj : Set.InjOn RingEntry.hash ci.entries)
    (hempty : ¬ci'.entries.Nonempty → ci'.slotToNode = ci.slotToNode)
    (hmoved : ci'.slotToNode slot ≠ ci.slotToNode slot) :
    ∃ e ∈ ci.entries, e ∉ ci'.entries ∧ ci.slotToNode slot = e.nodeId := by
  by_cases hne : ci'.entries.Nonempty
  · obtain ⟨e, howner, hslot⟩ := hr (hne.mono hsub) slot
    obtain ⟨e', howner', hslot'⟩ := hr' hne slot
    rcases howner'.eq_or_not_mem (hinj.mono hsub) hsub howner with rfl | hgone
    · exact absurd (hslot'.trans hslot.symm) hmoved
    · exact ⟨e, howner.1, hgone, hslot⟩
  · exact absurd (congrFun (hempty hne) slot) hmoved

/-- A slot that is moved when the ring grows goes to a new entry. -/
theorem moved_of_grow (hr : Routed ci) (hr' : Routed ci') (hsub : ci.entries ⊆ ci'.entries)
    (hinj : Set.InjOn RingEntry.hash ci'.entries) (hne : ci'.entries.Nonempty)
    (hmoved : ci'.slotToNode slot ≠ ci.slotToNode slot) :
    ∃ e ∈ ci'.entries, e ∉ ci.entries ∧ ci'.slotToNode slot = e.nodeId := by
  by_cases hold : ci.entries.Nonempty
  · exact moved_of_shrink hr' hr hsub hinj (absurd hold) hmoved.symm
  · obtain ⟨e', howner', hslot'⟩ := hr' hne slot
    exact ⟨e', howner'.1, fun he => hold ⟨e', he⟩, hslot'⟩

end Moves

/-! ### Nodes -/

section Nodes

variable {ci : ClusterIndex} {i : Nat} {id : UInt32} {e : RingEntry} {n : ClusterNode}

theorem findNode_eq_some (h : findNode ci id = some i) :
    i < ci.nodeCount ∧ (ci.nodes i).id = id := by
  refine ⟨mem_range.mp (mem_of_find?_eq_some h), ?_⟩
  have hid := find?_some h
  rwa [decide_eq_true_eq] at hid

theorem findNode_eq_none (h : findNode ci id = none) :
    ∀ i < ci.nodeCount, (ci.nodes i).id ≠ id := by
  intro i hi heq
  have hno := find?_eq_none.mp h i (mem_range.mpr hi)
  rw [decide_eq_true_eq] at hno
  exact hno heq

theorem nodes_setNode_self (n : ClusterNode) : (ci.setNode i n).nodes i = n := by
  simp [ClusterIndex.setNode]

theorem nodes_setNode_of_ne (n : ClusterNode) {j : Nat} (h : j ≠ i) :
    (ci.setNode i n).nodes j = ci.nodes j := by
  simp [ClusterIndex.setNode, h]

theorem nodes_setState (s : ClusterNodeState) (j : Nat) : (ci.setState i s).nodes j =
    { ci.nodes j with state := if j = i then s else (ci.nodes j).state } := by
  by_cases hj : j = i
  · rw [if_pos hj, hj]
    exact nodes_setNode_self _
  · rw [if_neg hj]
    exact nodes_setNode_of_ne _ hj

/-- A node that fails takes its entries from the ring, and a change that keeps the id adds none. -/
theorem entries_setNode_subset (hid : n.id = (ci.nodes i).id)
    (hstate : n.state ≠ .failed → (ci.nodes i).state ≠ .failed) :
    (ci.setNode i n).entries ⊆ ci.entries := by
  rintro e ⟨j, hj, hlive, he⟩
  by_cases hji : j = i
  · subst hji
    rw [nodes_setNode_self] at hlive he
    exact ⟨j, hj, hstate hlive, hid ▸ he⟩
  · rw [nodes_setNode_of_ne n hji] at hlive he
    exact ⟨j, hj, hlive, he⟩

theorem entries_setNode_eq (hid : n.id = (ci.nodes i).id)
    (hstate : n.state ≠ .failed ↔ (ci.nodes i).state ≠ .failed) :
    (ci.setNode i n).entries = ci.entries := by
  refine Set.Subset.antisymm (entries_setNode_subset hid hstate.mp) ?_
  rintro e ⟨j, hj, hlive, he⟩
  by_cases hji : j = i
  · subst hji
    refine ⟨j, hj, ?_, ?_⟩
    · rw [nodes_setNode_self]
      exact hstate.mpr hlive
    · rw [nodes_setNode_self, hid]
      exact he
  · refine ⟨j, hj, ?_, ?_⟩ <;> rw [nodes_setNode_of_ne n hji] <;> assumption

theorem entries_setState_eq {s : ClusterNodeState}
    (hstate : s ≠ .failed ↔ (ci.nodes i).state ≠ .failed) :
    (ci.setState i s).entries = ci.entries :=
  entries_setNode_eq rfl hstate

/-- The entries that go when a node is marked are its own. -/
theorem nodeId_of_setNode_lost (h : e ∈ ci.entries)
    (hlost : e ∉ (ci.setNode i n).entries) : e.nodeId = (ci.nodes i).id := by
  obtain ⟨j, hj, hlive, he⟩ := h
  by_cases hji : j = i
  · rw [← hji]
    exact nodeId_of_mem_virtualNodes he
  · exact absurd ⟨j, hj, by rwa [nodes_setNode_of_ne n hji], by rwa [nodes_setNode_of_ne n hji]⟩
      hlost

/-- `Routed` looks at the entries and the map only. -/
theorem Routed.congr {ci' : ClusterIndex} (h : Routed ci) (hentries : ci'.entries = ci.entries)
    (hslots : ci'.slotToNode = ci.slotToNode) : Routed ci' := by
  rw [Routed, hentries, hslots]
  exact h

end Nodes

/-! ### One call -/

section Step

variable {qsort : List RingEntry → List RingEntry} {ci : ClusterIndex} {id : UInt32}
  {slot : Fin CLUSTER_SLOT_COUNT}

/-- The cluster with a node more, before the ring is rebuilt. -/
def joined (ci : ClusterIndex) (id : UInt32) (now : UInt64) : ClusterIndex :=
  { ci with nodeCount := ci.nodeCount + 1 }.setNode ci.nodeCount
    { ci.nodes ci.nodeCount with id := id, state := .joining, lastPingUs := now }

theorem clusterAddNode_cases (qsort : List RingEntry → List RingEntry) (ci : ClusterIndex)
    (id : UInt32) (now : UInt64) :
    clusterAddNode qsort ci id now = (ci, -1) ∨ ci.nodeCount < CLUSTER_MAX_NODES ∧
      findNode ci id = none ∧ clusterAddNode qsort ci id now =
        ((rebuildRing qsort (joined ci id now)).setState ci.nodeCount .active, 0) := by
  rw [clusterAddNode]
  by_cases hfull : ci.nodeCount ≥ CLUSTER_MAX_NODES
  · exact .inl (if_pos hfull)
  · rw [if_neg hfull]
    cases hfind : findNode ci id with
    | some i => exact .inl rfl
    | none => exact .inr ⟨lt_of_not_ge hfull, rfl, rfl⟩

theorem nodes_joined_of_lt {now : UInt64} {i : Nat} (hi : i < ci.nodeCount) :
    (joined ci id now).nodes i = ci.nodes i :=
  Function.update_of_ne (Nat.ne_of_lt hi) _ _

variable (now : UInt64)

theorem nodes_joined_last : (joined ci id now).nodes ci.nodeCount =
    { ci.nodes ci.nodeCount with id := id, state := .joining, lastPingUs := now } :=
  Function.update_self ..

theorem entries_subset_joined : ci.entries ⊆ (joined ci id now).entries := by
  rintro e ⟨i, hi, hlive, he⟩
  refine ⟨i, lt_succ_of_lt hi, ?_, ?_⟩ <;> rw [nodes_joined_of_lt hi] <;> assumption

theorem nodeId_of_joined {now : UInt64} {e : RingEntry} (he : e ∈ (joined ci id now).entries)
    (hnew : e ∉ ci.entries) : e.nodeId = id := by
  obtain ⟨i, hi, hlive, he⟩ := he
  rcases Nat.lt_succ_iff_lt_or_eq.mp hi with hlt | rfl
  · rw [nodes_joined_of_lt hlt] at hlive he
    exact absurd ⟨i, hlt, hlive, he⟩ hnew
  · rw [nodes_joined_last] at he
    exact nodeId_of_mem_virtualNodes he

theorem joined_nonempty : (joined ci id now).entries.Nonempty := by
  obtain ⟨e, he⟩ := virtualNodes_nonempty id
  refine ⟨e, ci.nodeCount, lt_succ_self _, ?_, ?_⟩
  · rw [nodes_joined_last]
    exact noConfusion
  · rw [nodes_joined_last]
    exact he

/-- Nothing the ring depends on changes when the new node becomes active. -/
theorem entries_added :
    ((rebuildRing qsort (joined ci id now)).setState ci.nodeCount .active).entries
      = (joined ci id now).entries := by
  rw [entries_setState_eq, rebuildRing_entries]
  rw [rebuildRing_nodes, nodes_joined_last]
  exact ⟨fun _ => noConfusion, fun _ => noConfusion⟩

theorem clusterAddNode_sound (hq : QsortOk qsort) (h : Sound ci) (id : UInt32) (now : UInt64) :
    Sound (clusterAddNode qsort ci id now).1 := by
  rcases clusterAddNode_cases qsort ci id now with hno | ⟨hroom, -, hadd⟩
  · rw [hno]
    exact h
  · rw [hadd]
    have hrebuilt := sound_rebuildRing hq (show (joined ci id now).nodeCount ≤ _ from hroom)
    exact ⟨hroom, hrebuilt.routed.congr (entries_added now) rfl⟩

theorem clusterAddNode_moved (hq : QsortOk qsort) (h : Sound ci) {now : UInt64}
    (hdist : DistinctHashes (clusterAddNode qsort ci id now).1)
    (hmoved : (clusterAddNode qsort ci id now).1.slotToNode slot ≠ ci.slotToNode slot) :
    (clusterAddNode qsort ci id now).1.slotToNode slot = id := by
  have hsound := clusterAddNode_sound hq h id now
  have hinj := hdist.injOn hsound.count_le
  rcases clusterAddNode_cases qsort ci id now with hno | ⟨-, -, hadd⟩
  · rw [hno] at hmoved
    exact absurd rfl hmoved
  · rw [hadd] at hsound hmoved hinj ⊢
    rw [entries_added] at hinj
    obtain ⟨e, he, hnew, hslot⟩ := moved_of_grow h.routed hsound.routed
      (by rw [entries_added]; exact entries_subset_joined now) (by rwa [entries_added])
      (by rw [entries_added]; exact joined_nonempty now) hmoved
    rw [entries_added] at he
    rw [hslot]
    exact nodeId_of_joined he hnew

/-- The cluster without its `i`-th node, before the ring is rebuilt. -/
def left (ci : ClusterIndex) (i : Nat) : ClusterIndex :=
  { (ci.setState i .leaving).moveDown i with nodeCount := ci.nodeCount - 1 }

theorem clusterRemoveNode_cases (qsort : List RingEntry → List RingEntry) (ci : ClusterIndex)
    (id : UInt32) :
    findNode ci id = none ∧ clusterRemoveNode qsort ci id = (ci, -1) ∨
      ∃ i, findNode ci id = some i ∧
        clusterRemoveNode qsort ci id = (rebuildRing qsort (left ci i), 0) := by
  rw [clusterRemoveNode]
  cases hfind : findNode ci id with
  | none => exact .inl ⟨rfl, rfl⟩
  | some i => exact .inr ⟨i, rfl, rfl⟩

theorem nodes_left_of_lt {i j : Nat} (hj : j < i) : (left ci i).nodes j = ci.nodes j := by
  show (if i ≤ j ∧ _ then _ else (ci.setState i .leaving).nodes j) = ci.nodes j
  rw [if_neg (by omega)]
  exact nodes_setNode_of_ne _ (Nat.ne_of_lt hj)

theorem nodes_left_of_ge {i j : Nat} (hij : i ≤ j) (hj : j + 1 < ci.nodeCount) :
    (left ci i).nodes j = ci.nodes (j + 1) := by
  show (if i ≤ j ∧ j + 1 < ci.nodeCount then (ci.setState i .leaving).nodes (j + 1) else _) = _
  rw [if_pos ⟨hij, hj⟩]
  exact nodes_setNode_of_ne _ (by omega)

theorem entries_left_subset (i : Nat) : (left ci i).entries ⊆ ci.entries := by
  rintro e ⟨j, hj, hlive, he⟩
  have hj' : j < ci.nodeCount - 1 := hj
  rcases lt_or_ge j i with hji | hij
  · rw [nodes_left_of_lt hji] at hlive he
    exact ⟨j, by omega, hlive, he⟩
  · rw [nodes_left_of_ge hij (by omega)] at hlive he
    exact ⟨j + 1, by omega, hlive, he⟩

theorem nodeId_of_left {i : Nat} (hi : i < ci.nodeCount) {e : RingEntry} (h : e ∈ ci.entries)
    (hlost : e ∉ (left ci i).entries) : e.nodeId = (ci.nodes i).id := by
  obtain ⟨j, hj, hlive, he⟩ := h
  rcases lt_trichotomy j i with hji | rfl | hij
  · refine absurd ⟨j, ?_, ?_, ?_⟩ hlost
    · show j < ci.nodeCount - 1
      omega
    all_goals rw [nodes_left_of_lt hji]; assumption
  · exact nodeId_of_mem_virtualNodes he
  · -- the node has moved one place down
    have hback : j - 1 + 1 = j := by omega
    have hnode : (left ci i).nodes (j - 1) = ci.nodes j := by
      rw [nodes_left_of_ge (by omega) (by omega), hback]
    refine absurd ⟨j - 1, ?_, ?_, ?_⟩ hlost
    · show j - 1 < ci.nodeCount - 1
      omega
    all_goals rw [hnode]; assumption

variable (hq : QsortOk qsort)
include hq

/-- A call that takes entries of one node from the ring and rebuilds it moves the slots of that
node only. -/
theorem rebuilt_moved (h : Sound ci) (ci' : ClusterIndex)
    (hcount : ci'.nodeCount ≤ CLUSTER_MAX_NODES) (hslots : ci'.slotToNode = ci.slotToNode)
    (hsub : ci'.entries ⊆ ci.entries) (hinj : Set.InjOn RingEntry.hash ci.entries)
    (hlost : ∀ e ∈ ci.entries, e ∉ ci'.entries → e.nodeId = id)
    (hmoved : (rebuildRing qsort ci').slotToNode slot ≠ ci.slotToNode slot) :
    ci.slotToNode slot = id := by
  obtain ⟨e, he, hgone, hslot⟩ := moved_of_shrink h.routed (sound_rebuildRing hq hcount).routed hsub
    hinj (fun hempty => (rebuildRing_empty hq hcount hempty).trans hslots) hmoved
  rw [hslot]
  exact hlost e he hgone

theorem clusterRemoveNode_sound (h : Sound ci) (id : UInt32) :
    Sound (clusterRemoveNode qsort ci id).1 := by
  rcases clusterRemoveNode_cases qsort ci id with ⟨-, hno⟩ | ⟨i, -, hyes⟩
  · rw [hno]
    exact h
  · rw [hyes]
    exact sound_rebuildRing hq (le_trans (sub_le _ _) h.count_le)

theorem clusterRemoveNode_moved (h : Sound ci) (hdist : DistinctHashes ci)
    (hmoved : (clusterRemoveNode qsort ci id).1.slotToNode slot ≠ ci.slotToNode slot) :
    ci.slotToNode slot = id := by
  rcases clusterRemoveNode_cases qsort ci id with ⟨-, hno⟩ | ⟨i, hfind, hyes⟩
  · rw [hno] at hmoved
    exact absurd rfl hmoved
  · obtain ⟨hi, hid⟩ := findNode_eq_some hfind
    rw [hyes] at hmoved
    exact rebuilt_moved hq h (left ci i) (le_trans (sub_le _ _) h.count_le) rfl
      (entries_left_subset i) (hdist.injOn h.count_le)
      (fun e he hlost => (nodeId_of_left hi he hlost).trans hid)
      hmoved

/-- The cluster with its `i`-th node failed, before the ring is rebuilt. -/
def withFailed (ci : ClusterIndex) (i : Nat) : ClusterIndex :=
  { ci.setState i .failed with failovers := ci.failovers + 1 }

omit hq in
theorem entries_withFailed_subset (i : Nat) : (withFailed ci i).entries ⊆ ci.entries :=
  entries_setNode_subset (n := { ci.nodes i with state := .failed }) rfl
    nofun

omit hq in
theorem clusterMarkFailed_cases (qsort : List RingEntry → List RingEntry) (ci : ClusterIndex)
    (id : UInt32) :
    clusterMarkFailed qsort ci id = (ci, -1) ∨ ∃ i, findNode ci id = some i ∧
      clusterMarkFailed qsort ci id = (rebuildRing qsort (withFailed ci i), 0) := by
  rw [clusterMarkFailed]
  cases hfind : findNode ci id with
  | none => exact .inl rfl
  | some i => exact .inr ⟨i, rfl, rfl⟩

theorem clusterMarkFailed_sound (h : Sound ci) (id : UInt32) :
    Sound (clusterMarkFailed qsort ci id).1 := by
  rcases clusterMarkFailed_cases qsort ci id with hno | ⟨i, -, hyes⟩
  · rw [hno]
    exact h
  · rw [hyes]
    exact sound_rebuildRing hq h.count_le

theorem failed_moved (h : Sound ci) (hinj : Set.InjOn RingEntry.hash ci.entries) {i : Nat}
    (hmoved : (rebuildRing qsort (withFailed ci i)).slotToNode slot ≠ ci.slotToNode slot) :
    ci.slotToNode slot = (ci.nodes i).id :=
  rebuilt_moved hq h (withFailed ci i) h.count_le rfl (entries_withFailed_subset i) hinj
    (fun _ he hlost => nodeId_of_setNode_lost he hlost) hmoved

theorem clusterMarkFailed_moved (h : Sound ci) (hdist : DistinctHashes ci)
    (hmoved : (clusterMarkFailed qsort ci id).1.slotToNode slot ≠ ci.slotToNode slot) :
    ci.slotToNode slot = id := by
  rcases clusterMarkFailed_cases qsort ci id with hno | ⟨i, hfind, hyes⟩
  · rw [hno] at hmoved
    exact absurd rfl hmoved
  · rw [hyes] at hmoved
    rw [failed_moved hq h (hdist.injOn h.count_le) hmoved]
    exact (findNode_eq_some hfind).2

omit hq

theorem clusterHandlePong_cases (ci : ClusterIndex) (id : UInt32) (now : UInt64) :
    clusterHandlePong ci id now = (ci, -1) ∨ ∃ i n, findNode ci id = some i ∧
      n.id = (ci.nodes i).id ∧ n.lastPongUs = now ∧
      (n.state ≠ .failed ↔ (ci.nodes i).state ≠ .failed) ∧
      clusterHandlePong ci id now = (ci.setNode i n, 0) := by
  rw [clusterHandlePong]
  cases hfind : findNode ci id with
  | none => exact .inl rfl
  | some i =>
    refine .inr ⟨i, { ci.nodes i with
      lastPongUs := now
      state := if (ci.nodes i).state = .suspect then .active else (ci.nodes i).state },
      rfl, rfl, rfl, ?_, rfl⟩
    split
    · rename_i hsuspect
      rw [hsuspect]
      exact ⟨fun _ => noConfusion, fun _ => noConfusion⟩
    · exact Iff.rfl

theorem clusterHandlePong_slots (ci : ClusterIndex) (id : UInt32) (now : UInt64) :
    (clusterHandlePong ci id now).1.slotToNode = ci.slotToNode := by
  rcases clusterHandlePong_cases ci id now with h | ⟨i, n, -, -, -, -, h⟩
  · rw [h]
  · rw [h]
    rfl

theorem clusterHandlePong_sound (h : Sound ci) (id : UInt32) (now : UInt64) :
    Sound (clusterHandlePong ci id now).1 := by
  rcases clusterHandlePong_cases ci id now with hno | ⟨i, n, -, hid, -, hstate, hyes⟩
  · rw [hno]
    exact h
  · rw [hyes]
    exact ⟨h.count_le, h.routed.congr (entries_setNode_eq hid hstate) rfl⟩

end Step

/-! ### A check -/

section Check

variable {qsort : List RingEntry → List RingEntry} {now : UInt64} {ci ci' ci'' : ClusterIndex}

/-- What a round does to the state of a node. -/
def checkedState (now : UInt64) (n : ClusterNode) : ClusterNodeState :=
  if n.state = .active ∧ now - n.lastPongUs > SUSPECT_THRESHOLD_US then .suspect
  else if n.state = .suspect ∧ now - n.lastPongUs > FAIL_THRESHOLD_US then .failed
  else n.state

/-- A round skips the local node, makes an active node suspect, or lets a suspect one fail. -/
theorem checkNode_cases (qsort : List RingEntry → List RingEntry) (now : UInt64)
    (ci : ClusterIndex) (i : Nat) :
    checkNode qsort now ci i = ci ∧
        ((i : Int) = ci.selfIdx ∨ checkedState now (ci.nodes i) = (ci.nodes i).state) ∨
      (i : Int) ≠ ci.selfIdx ∧ (ci.nodes i).state = .active ∧
        checkedState now (ci.nodes i) = .suspect ∧
        checkNode qsort now ci i = ci.setState i .suspect ∨
      (i : Int) ≠ ci.selfIdx ∧ (ci.nodes i).state = .suspect ∧
        checkedState now (ci.nodes i) = .failed ∧
        checkNode qsort now ci i = rebuildRing qsort (withFailed ci i) := by
  rw [checkNode, checkedState]
  by_cases hself : (i : Int) = ci.selfIdx
  · exact .inl ⟨if_pos hself, .inl hself⟩
  rw [if_neg hself]
  by_cases hactive :
    (ci.nodes i).state = .active ∧ now - (ci.nodes i).lastPongUs > SUSPECT_THRESHOLD_US
  · exact .inr (.inl ⟨hself, hactive.1, if_pos hactive, if_pos hactive⟩)
  rw [if_neg hactive, if_neg hactive]
  by_cases hsuspect :
    (ci.nodes i).state = .suspect ∧ now - (ci.nodes i).lastPongUs > FAIL_THRESHOLD_US
  · exact .inr (.inr ⟨hself, hsuspect.1, if_pos hsuspect, if_pos hsuspect⟩)
  · exact .inl ⟨if_neg hsuspect, .inr (if_neg hsuspect)⟩

/-- A node that the check has let fail owned the slot. -/
def FailedOwner (ci ci' : ClusterIndex) (slot : Fin CLUSTER_SLOT_COUNT) : Prop :=
  ∃ i < ci.nodeCount, (ci.nodes i).state ≠ .failed ∧ (ci'.nodes i).state = .failed ∧
    ci.slotToNode slot = (ci.nodes i).id

/-- What a check does to the cluster, from any round to any later one. -/
structure Checked (ci ci' : ClusterIndex) : Prop where
  count_eq : ci'.nodeCount = ci.nodeCount
  id_eq : ∀ i, (ci'.nodes i).id = (ci.nodes i).id
  failed : ∀ i, (ci.nodes i).state = .failed → (ci'.nodes i).state = .failed
  sound : Sound ci → Sound ci'
  moved : Sound ci → Set.InjOn RingEntry.hash ci.entries →
    ∀ slot, ci'.slotToNode slot ≠ ci.slotToNode slot → FailedOwner ci ci' slot

theorem Checked.refl (ci : ClusterIndex) : Checked ci ci :=
  ⟨rfl, fun _ => rfl, fun _ => id, id, nofun⟩

theorem Checked.entries_subset (h : Checked ci ci') : ci'.entries ⊆ ci.entries := by
  rintro e ⟨i, hi, hlive, he⟩
  rw [h.count_eq] at hi
  rw [h.id_eq] at he
  exact ⟨i, hi, fun hf => hlive (h.failed i hf), he⟩

theorem Checked.trans (h : Checked ci ci') (h' : Checked ci' ci'') : Checked ci ci'' where
  count_eq := h'.count_eq.trans h.count_eq
  id_eq i := (h'.id_eq i).trans (h.id_eq i)
  failed i hf := h'.failed i (h.failed i hf)
  sound hs := h'.sound (h.sound hs)
  moved hs hinj slot hmoved := by
    by_cases hfirst : ci'.slotToNode slot = ci.slotToNode slot
    · obtain ⟨i, hi, hlive, hfailed, howner⟩ := h'.moved (h.sound hs) (hinj.mono h.entries_subset)
        slot (hfirst ▸ hmoved)
      rw [h.count_eq] at hi
      exact ⟨i, hi, fun hf => hlive (h.failed i hf), hfailed,
        hfirst.symm.trans (howner.trans (h.id_eq i))⟩
    · obtain ⟨i, hi, hlive, hfailed, howner⟩ := h.moved hs hinj slot hfirst
      exact ⟨i, hi, hlive, h'.failed i hfailed, howner⟩

variable (hq : QsortOk qsort)
include hq

theorem checked_checkNode (now : UInt64) {i : Nat} (hi : i < ci.nodeCount) :
    Checked ci (checkNode qsort now ci i) := by
  have hid : ∀ (s : ClusterNodeState) (j : Nat), ((ci.setState i s).nodes j).id = (ci.nodes j).id :=
    fun s j => by rw [nodes_setState]
  rcases checkNode_cases qsort now ci i with ⟨hc, -⟩ | ⟨-, hstate, -, hc⟩ | ⟨-, hstate, -, hc⟩
  · rw [hc]
    exact .refl ci
  · rw [hc]
    refine ⟨rfl, hid _, fun j hj => ?_, fun hs => ⟨hs.count_le, hs.routed.congr ?_ rfl⟩,
      nofun⟩
    · have hne : j ≠ i := fun h => by rw [h, hstate] at hj; cases hj
      rw [nodes_setState, if_neg hne]
      exact hj
    · apply entries_setState_eq
      rw [hstate]
      exact ⟨fun _ => noConfusion, fun _ => noConfusion⟩
  · rw [hc]
    refine ⟨rfl, hid _, fun j hj => ?_, fun hs => sound_rebuildRing hq hs.count_le,
      fun hs hinj slot hmoved => ?_⟩
    · have hne : j ≠ i := fun h => by rw [h, hstate] at hj; cases hj
      show ((ci.setState i .failed).nodes j).state = .failed
      rw [nodes_setState, if_neg hne]
      exact hj
    · refine ⟨i, hi, ?_, ?_, failed_moved hq hs hinj hmoved⟩
      · rw [hstate]
        exact noConfusion
      · show ((ci.setState i .failed).nodes i).state = .failed
        rw [nodes_setState, if_pos rfl]

theorem checked_foldl : ∀ (is : List Nat) (ci : ClusterIndex),
    (∀ i ∈ is, i < ci.nodeCount) → Checked ci (is.foldl (checkNode qsort now) ci) := by
  intro is
  induction is with
  | nil => intro ci _; exact .refl ci
  | cons i is ih =>
    intro ci his
    have hfirst := checked_checkNode hq now (his i (by simp))
    refine hfirst.trans (ih _ fun j hj => ?_)
    rw [hfirst.count_eq]
    exact his j (by simp [hj])

theorem checked_clusterCheckFailures (ci : ClusterIndex) (now : UInt64) :
    Checked ci (clusterCheckFailures qsort ci now) :=
  checked_foldl hq _ ci fun _ hi => mem_range.mp hi

end Check

/-! ### Runs -/

section Run

variable {qsort : List RingEntry → List RingEntry} (hq : QsortOk qsort)
include hq

theorem clusterStep_sound {ci : ClusterIndex} (h : Sound ci) (op : ClusterOp) :
    Sound (clusterStep qsort ci op).1 := by
  cases op with
  | add id now => exact clusterAddNode_sound hq h id now
  | remove id => exact clusterRemoveNode_sound hq h id
  | markFailed id => exact clusterMarkFailed_sound hq h id
  | pong id now => exact clusterHandlePong_sound h id now
  | check now => exact (checked_clusterCheckFailures hq ci now).sound h

theorem clusterInit_sound (selfId : UInt32) (now : UInt64) :
    Sound (clusterInit qsort selfId now) :=
  sound_rebuildRing hq (show 1 ≤ CLUSTER_MAX_NODES by decide)

theorem clusterRun_sound (ops : List ClusterOp) :
    ∀ {ci : ClusterIndex}, Sound ci → Sound (clusterRun qsort ci ops) := by
  induction ops with
  | nil => intro ci h; exact h
  | cons op ops ih =>
    intro ci h
    exact ih (clusterStep_sound hq h op)

/-- What may happen to a slot that a call moves. -/
def MovedBy (ci ci' : ClusterIndex) (slot : Fin CLUSTER_SLOT_COUNT) : ClusterOp → Prop
  | .add id _ => ci'.slotToNode slot = id
  | .remove id => ci.slotToNode slot = id
  | .markFailed id => ci.slotToNode slot = id
  | .pong _ _ => False
  | .check _ => FailedOwner ci ci' slot

/-- **Consistent hashing**: after any calls, every slot is mapped to a node that is there and has
not failed, if there is one.  While the hashes are distinct, a node that is added only gains slots,
and one that is removed or fails only loses its own. -/
theorem ring_routes_live (selfId : UInt32) (start : UInt64) (ops : List ClusterOp)
    (ci : ClusterIndex) (hrun : clusterRun qsort (clusterInit qsort selfId start) ops = ci) :
    ((∃ i < ci.nodeCount, (ci.nodes i).state ≠ .failed) →
      ∀ slot, ∃ i < ci.nodeCount, (ci.nodes i).state ≠ .failed ∧
        ci.slotToNode slot = (ci.nodes i).id) ∧
    ∀ op ci', (clusterStep qsort ci op).1 = ci' → DistinctHashes ci → DistinctHashes ci' →
      ∀ slot, ci'.slotToNode slot ≠ ci.slotToNode slot → MovedBy ci ci' slot op := by
  have hs : Sound ci := hrun ▸ clusterRun_sound hq ops (clusterInit_sound hq selfId start)
  constructor
  · rintro ⟨i, hi, hlive⟩ slot
    obtain ⟨e, he⟩ := virtualNodes_nonempty (ci.nodes i).id
    obtain ⟨e', howner, hslot⟩ := hs.routed ⟨e, i, hi, hlive, he⟩ slot
    obtain ⟨j, hj, hlive', he'⟩ := howner.1
    exact ⟨j, hj, hlive', hslot.trans (nodeId_of_mem_virtualNodes he')⟩
  · intro op ci' hstep hdist hdist' slot hmoved
    subst hstep
    cases op with
    | add id now => exact clusterAddNode_moved hq hs hdist' hmoved
    | remove id => exact clusterRemoveNode_moved hq hs hdist hmoved
    | markFailed id => exact clusterMarkFailed_moved hq hs hdist hmoved
    | pong id now => exact hmoved (congrFun (clusterHandlePong_slots ci id now) slot)
    | check now =>
      exact (checked_clusterCheckFailures hq ci now).moved hs (hdist.injOn hs.count_le) slot hmoved

omit hq

/-- A stable `qsort`. -/
def mergeRing (l : List RingEntry) : List RingEntry := l.mergeSort fun a b => a.hash ≤ b.hash

theorem mergeRing_ok : QsortOk mergeRing := by
  intro l
  refine ⟨mergeSort_perm l _, ?_⟩
  have hsorted : (mergeRing l).Pairwise fun a b => decide (a.hash ≤ b.hash) = true := by
    refine pairwise_mergeSort (fun a b c hab hbc => ?_) (fun a b => ?_) l
    · exact decide_eq_true (le_trans (of_decide_eq_true hab) (of_decide_eq_true hbc))
    · simpa using le_total a.hash b.hash
  exact hsorted.imp of_decide_eq_true

/-- A cluster of one node, and a second one whose virtual nodes meet none of the first. -/
def clusterOne : ClusterIndex := clusterInit mergeRing 1 0

def clusterTwo : ClusterIndex := (clusterStep mergeRing clusterOne (.add 2 0)).1

theorem clusterTwo_distinct : DistinctHashes clusterTwo := by
  unfold DistinctHashes
  decide +kernel

theorem clusterOne_distinct : DistinctHashes clusterOne := by
  have htake : fillRing clusterOne = (fillRing clusterTwo).take CLUSTER_VIRTUAL_NODES := by
    decide +kernel
  rw [DistinctHashes, htake]
  exact clusterTwo_distinct.sublist ((take_sublist _ _).map _)

theorem ring_routes_live_two :
    DistinctHashes clusterTwo ∧
      (∀ slot, clusterTwo.slotToNode slot = 1 ∨ clusterTwo.slotToNode slot = 2) ∧
      ∀ slot, clusterTwo.slotToNode slot ≠ clusterOne.slotToNode slot →
        clusterTwo.slotToNode slot = 2 := by
  refine ⟨clusterTwo_distinct, fun slot => ?_, fun slot hmoved => ?_⟩
  · obtain ⟨i, hi, -, hslot⟩ := (ring_routes_live mergeRing_ok 1 0 [.add 2 0] clusterTwo rfl).1
      ⟨0, by decide, by decide +kernel⟩ slot
    have hids : ∀ i < 2, (clusterTwo.nodes i).id = 1 ∨ (clusterTwo.nodes i).id = 2 := by
      decide +kernel
    rw [hslot]
    exact hids i hi
  · exact (ring_routes_live mergeRing_ok 1 0 [] clusterOne rfl).2 (.add 2 0) clusterTwo rfl
      clusterOne_distinct clusterTwo_distinct slot hmoved

end Run

end NexCache.Cluster
