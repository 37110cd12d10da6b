import NexCache.Cluster.Slots
import NexCache.Lib.HashRing
import NexCache.Lib.Machine

/-!
# The nodes of the cluster

`cluster/cluster.c`: an array of nodes, a hash ring of the nodes that have not failed, and the
map from slots to nodes that is computed from the ring.

`qsort` is a parameter: the order in which it leaves equal hashes is not specified.  An entry of
`slot_to_node` is an `int` that holds the bits of an id, and is read as an id again.

Not modelled: the fields of a node that no function here reads (host, port, slot range), the
checks for `NULL` pointers, the locks, and the statistics of lookups.
-/

namespace NexCache.Cluster

open HashRing

def CLUSTER_MAX_NODES : Nat := 128

/-- The virtual nodes of one node. -/
def CLUSTER_VIRTUAL_NODES : Nat := 150

def CLUSTER_RING_SIZE : Nat := CLUSTER_MAX_NODES * CLUSTER_VIRTUAL_NODES

inductive ClusterNodeState
  | active
  | suspect
  | failed
  | joining
  | leaving
  deriving DecidableEq

structure ClusterNode where
  id : UInt32
  state : ClusterNodeState
  lastPingUs : UInt64
  lastPongUs : UInt64
  deriving DecidableEq

structure RingEntry where
  hash : Nat
  nodeId : UInt32
  deriving DecidableEq, Inhabited

/-- `struct ClusterIndex`.  The array of nodes holds what was written behind its end before. -/
structure ClusterIndex where
  nodes : Nat → ClusterNode
  nodeCount : Nat
  selfIdx : Int
  ring : List RingEntry
  slotToNode : Fin CLUSTER_SLOT_COUNT → UInt32
  failovers : Nat

/-! ### The ring -/

/-- The digits that `%u` and `%d` print. -/
def decimal (n : Nat) : List UInt8 := (Nat.toDigits 10 n).map fun c => UInt8.ofNat c.toNat

/-- The hash of `"%u#vn%d"`. -/
def vnodeHash (id : UInt32) (v : Nat) : Nat :=
  Machine.fnv1a (decimal id.toNat ++ [35, 118, 110] ++ decimal v)

/-- The hash of `"@slot%d"`. -/
def slotHash (slot : Fin CLUSTER_SLOT_COUNT) : Nat :=
  Machine.fnv1a ([64, 115, 108, 111, 116] ++ decimal slot)

def virtualNodes (id : UInt32) : List RingEntry :=
  (List.range CLUSTER_VIRTUAL_NODES).map fun v => ⟨vnodeHash id v, id⟩

/-- The entries in the order of the nodes; both loops end when the ring is full. -/
def fillRing (ci : ClusterIndex) : List RingEntry :=
  (((List.range ci.nodeCount).filter fun i => (ci.nodes i).state ≠ .failed).flatMap fun i =>
    virtualNodes (ci.nodes i).id).take CLUSTER_RING_SIZE

/-- The place of the successor of `h`. -/
def ringSearch (ring : List RingEntry) (h : Nat) : Nat :=
  bisect (fun i => decide (h ≤ (ring.getD i default).hash)) 0 (ring.length - 1) 0

/-- `rebuild_ring`. -/
def rebuildRing (qsort : List RingEntry → List RingEntry) (ci : ClusterIndex) : ClusterIndex :=
  let ring := qsort (fillRing ci)
  { ci with
    ring := ring
    slotToNode := fun slot =>
      if ring.length > 0 then
        (ring.getD (ringSearch ring (slotHash slot) % ring.length) default).nodeId
      else ci.slotToNode slot }

/-! ### The calls -/

section Calls

variable (qsort : List RingEntry → List RingEntry)

def ClusterIndex.setNode (ci : ClusterIndex) (i : Nat) (n : ClusterNode) : ClusterIndex :=
  { ci with nodes := Function.update ci.nodes i n }

def ClusterIndex.setState (ci : ClusterIndex) (i : Nat) (s : ClusterNodeState) : ClusterIndex :=
  ci.setNode i { ci.nodes i with state := s }

/-- The loops that look for an id. -/
def findNode (ci : ClusterIndex) (id : UInt32) : Option Nat :=
  (List.range ci.nodeCount).find? fun i => (ci.nodes i).id = id

/-- `cluster_init`; `calloc` leaves zeros. -/
def clusterInit (selfId : UInt32) (now : UInt64) : ClusterIndex :=
  rebuildRing qsort
    { nodes := Function.update (fun _ => ⟨0, .active, 0, 0⟩) 0 ⟨selfId, .active, now, 0⟩
      nodeCount := 1
      selfIdx := 0
      ring := []
      slotToNode := fun _ => 0
      failovers := 0 }

/-- `cluster_add_node`.  The last pong is what the array has there. -/
def clusterAddNode (ci : ClusterIndex) (id : UInt32) (now : UInt64) : ClusterIndex × Int :=
  if ci.nodeCount ≥ CLUSTER_MAX_NODES then (ci, -1)
  else if (findNode ci id).isSome then (ci, -1)
  else
    let i := ci.nodeCount
    let ci := { ci with nodeCount := i + 1 }
    let ci := ci.setNode i { ci.nodes i with id := id, state := .joining, lastPingUs := now }
    let ci := rebuildRing qsort ci
    (ci.setState i .active, 0)

/-- `memmove` of the nodes behind `i`, one place down. -/
def ClusterIndex.moveDown (ci : ClusterIndex) (i : Nat) : ClusterIndex :=
  { ci with nodes := fun j => if i ≤ j ∧ j + 1 < ci.nodeCount then ci.nodes (j + 1)
    else ci.nodes j }

/-- `cluster_remove_node`. -/
def clusterRemoveNode (ci : ClusterIndex) (id : UInt32) : ClusterIndex × Int :=
  match findNode ci id with
  | none => (ci, -1)
  | some i =>
    let ci := (ci.setState i .leaving).moveDown i
    (rebuildRing qsort { ci with nodeCount := ci.nodeCount - 1 }, 0)

/-- `cluster_mark_failed`. -/
def clusterMarkFailed (ci : ClusterIndex) (id : UInt32) : ClusterIndex × Int :=
  match findNode ci id with
  | none => (ci, -1)
  | some i =>
    let ci := ci.setState i .failed
    (rebuildRing qsort { ci with failovers := ci.failovers + 1 }, 0)

/-- `cluster_handle_pong`. -/
def clusterHandlePong (ci : ClusterIndex) (id : UInt32) (now : UInt64) : ClusterIndex × Int :=
  match findNode ci id with
  | none => (ci, -1)
  | some i =>
    let n := ci.nodes i
    (ci.setNode i { n with
      lastPongUs := now
      state := if n.state = .suspect then .active else n.state }, 0)

def SUSPECT_THRESHOLD_US : UInt64 := 5000000

def FAIL_THRESHOLD_US : UInt64 := 15000000

/-- One round of the loop of `cluster_check_failures`. -/
def checkNode (now : UInt64) (ci : ClusterIndex) (i : Nat) : ClusterIndex :=
  if (i : Int) = ci.selfIdx then ci
  else
    let n := ci.nodes i
    let sincePong := now - n.lastPongUs
    if n.state = .active ∧ sincePong > SUSPECT_THRESHOLD_US then ci.setState i .suspect
    else if n.state = .suspect ∧ sincePong > FAIL_THRESHOLD_US then
      let ci := ci.setState i .failed
      rebuildRing qsort { ci with failovers := ci.failovers + 1 }
    else ci

/-- `cluster_check_failures`. -/
def clusterCheckFailures (ci : ClusterIndex) (now : UInt64) : ClusterIndex :=
  (List.range ci.nodeCount).foldl (checkNode qsort now) ci

/-- `cluster_key_to_node`. -/
def clusterKeyToNode (ci : ClusterIndex) (key : List UInt8) : UInt32 :=
  ci.slotToNode ⟨Sharding.clusterKeyToSlot key, by
    rw [Sharding.clusterKeyToSlot_eq]
    exact Nat.mod_lt _ (by decide)⟩

/-- `cluster_key_is_local`. -/
def clusterKeyIsLocal (ci : ClusterIndex) (key : List UInt8) : Bool :=
  if ci.selfIdx < 0 then true
  else clusterKeyToNode ci key = (ci.nodes ci.selfIdx.toNat).id

/-- The calls that change the cluster, with the time they read. -/
inductive ClusterOp
  | add (id : UInt32) (now : UInt64)
  | remove (id : UInt32)
  | markFailed (id : UInt32)
  | pong (id : UInt32) (now : UInt64)
  | check (now : UInt64)
  deriving DecidableEq

def clusterStep (ci : ClusterIndex) : ClusterOp → ClusterIndex × Int
  | .add id now => clusterAddNode qsort ci id now
  | .remove id => clusterRemoveNode qsort ci id
  | .markFailed id => clusterMarkFailed qsort ci id
  | .pong id now => clusterHandlePong ci id now
  | .check now => (clusterCheckFailures qsort ci now, 0)

/-- The cluster after these calls. -/
def clusterRun (ci : ClusterIndex) (ops : List ClusterOp) : ClusterIndex :=
  ops.foldl (fun ci op => (clusterStep qsort ci op).1) ci

end Calls

end NexCache.Cluster
