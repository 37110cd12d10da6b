import NexCache.Lib.Machine
import NexCache.Lib.Gossip

/-!
# The counters

`crdt.c`: a G-Counter has one number per node, raised only by that node and merged as
the maximum.  A PN-Counter is two of them, one for increments and one for decrements,
with the node count and the own node in common.

The PN functions act on each half as the G functions do, so what is shown of the
entries is shown once.
-/

namespace NexCache.Crdt

open Machine Runs Gossip Function List Nat

def CRDT_MAX_NODES : Nat := 128

structure GCounter where
  values : Nat → Nat
  numNodes : Nat
  selfNode : Nat

structure PNCounter where
  positive : Nat → Nat
  negative : Nat → Nat
  numNodes : Nat
  selfNode : Nat

/-- Addition that stops at `UINT64_MAX`. -/
def satAdd (x delta : Nat) : Nat := if delta > 2 ^ 64 - 1 - x then 2 ^ 64 - 1 else x + delta

/-- The loop `sum += values[i]` over the first `n` entries. -/
def sumTo (values : Nat → Nat) (n : Nat) : Nat :=
  (List.range n).foldl (fun sum i => u64 (sum + values i)) 0

/-- The loop `if (src[i] > dst[i]) dst[i] = src[i]` over the first `n` entries. -/
def maxInto (n : Nat) (dst src : Nat → Nat) : Nat → Nat :=
  (List.range n).foldl (fun d i => if src i > d i then update d i (src i) else d) dst

/-- How many entries a merge looks at. -/
def mergeNodes (dst src : Nat) : Nat :=
  let n := if dst > src then dst else src
  if n > CRDT_MAX_NODES then CRDT_MAX_NODES else n

def gcounterCreate (selfNodeId numNodes : Nat) : GCounter :=
  ⟨fun _ => 0, if numNodes > CRDT_MAX_NODES then CRDT_MAX_NODES else numNodes, selfNodeId⟩

def gcounterIncrement (g : GCounter) (delta : Nat) : GCounter :=
  if g.selfNode ≥ g.numNodes then g
  else { g with
    values := update g.values g.selfNode (satAdd (g.values g.selfNode) delta) }

def gcounterValue (g : GCounter) : Nat := sumTo g.values g.numNodes

def gcounterMerge (dst src : GCounter) : GCounter :=
  { dst with
    values := maxInto (mergeNodes dst.numNodes src.numNodes) dst.values src.values
    numNodes := if src.numNodes > dst.numNodes then src.numNodes else dst.numNodes }

def pncounterCreate (selfNodeId numNodes : Nat) : PNCounter :=
  ⟨fun _ => 0, fun _ => 0, if numNodes > CRDT_MAX_NODES then CRDT_MAX_NODES else numNodes,
    selfNodeId⟩

def pncounterIncrement (p : PNCounter) (delta : Nat) : PNCounter :=
  if p.selfNode ≥ p.numNodes then p
  else { p with
    positive := update p.positive p.selfNode (satAdd (p.positive p.selfNode) delta) }

def pncounterDecrement (p : PNCounter) (delta : Nat) : PNCounter :=
  if p.selfNode ≥ p.numNodes then p
  else { p with
    negative := update p.negative p.selfNode (satAdd (p.negative p.selfNode) delta) }

/-- `(int64_t)pos - (int64_t)neg`; `none` where the subtraction overflows. -/
def pncounterValue (p : PNCounter) : Option Int :=
  let d := i64 (sumTo p.positive p.numNodes) - i64 (sumTo p.negative p.numNodes)
  if -2 ^ 63 ≤ d ∧ d < 2 ^ 63 then some d else none

def pncounterMerge (dst src : PNCounter) : PNCounter :=
  { dst with
    positive := maxInto (mergeNodes dst.numNodes src.numNodes) dst.positive src.positive
    negative := maxInto (mergeNodes dst.numNodes src.numNodes) dst.negative src.negative
    numNodes := if src.numNodes > dst.numNodes then src.numNodes else dst.numNodes }

/-! ### One counter -/

theorem le_satAdd {x : Nat} (hx : x < 2 ^ 64) (delta : Nat) : x ≤ satAdd x delta := by
  rw [satAdd]
  split <;> omega

theorem satAdd_lt {x : Nat} (hx : x < 2 ^ 64) (delta : Nat) : satAdd x delta < 2 ^ 64 := by
  rw [satAdd]
  split <;> omega

theorem maxInto_succ (n : Nat) (dst src : Nat → Nat) :
    maxInto (n + 1) dst src = if src n > maxInto n dst src n
      then update (maxInto n dst src) n (src n) else maxInto n dst src := by
  rw [maxInto, range_succ, foldl_append, foldl_cons, foldl_nil]
  rfl

theorem maxInto_apply (n : Nat) (dst src : Nat → Nat) (k : Nat) :
    maxInto n dst src k = if k < n then max (dst k) (src k) else dst k := by
  induction n generalizing k with
  | zero => rfl
  | succ n ih =>
    have hn := ih n
    rw [if_neg (lt_irrefl n)] at hn
    rw [maxInto_succ, hn]
    by_cases hk : k = n
    · subst hk
      rw [if_pos (lt_succ_self k)]
      split
      · rw [update_self]
        omega
      · rw [hn]
        omega
    · have hiff : k < n + 1 ↔ k < n := by omega
      simp only [hiff]
      rw [← ih k]
      split
      · rw [update_of_ne hk]
      · rfl

theorem sumTo_succ (values : Nat → Nat) (n : Nat) :
    sumTo values (n + 1) = u64 (sumTo values n + values n) := by
  rw [sumTo, range_succ, foldl_append, foldl_cons, foldl_nil]
  rfl

theorem sumTo_lt (values : Nat → Nat) (n : Nat) : sumTo values n < 2 ^ 64 := by
  cases n with
  | zero => exact Nat.two_pow_pos 64
  | succ n =>
    rw [sumTo_succ]
    exact u64_lt _

/-- Entries that are zero add nothing. -/
theorem sumTo_extend {values : Nat → Nat} {n : Nat} (hzero : ∀ k, n ≤ k → values k = 0)
    {m : Nat} (hnm : n ≤ m) : sumTo values m = sumTo values n := by
  induction m, hnm using le_induction with
  | base => rfl
  | succ m hnm ih => rw [sumTo_succ, hzero m hnm, add_zero, u64_of_lt (sumTo_lt _ _), ih]

/-- The counter of a node: nothing is stored beyond its node count. -/
structure GCounter.Ok (node : Nat) (g : GCounter) : Prop where
  self_eq : g.selfNode = node
  self_lt : node < g.numNodes
  nodes_le : g.numNodes ≤ CRDT_MAX_NODES
  clear : ∀ k, g.numNodes ≤ k → g.values k = 0
  word : ∀ k, g.values k < 2 ^ 64

/-- What a merge works on. -/
def GCounter.contents (g : GCounter) : (Nat → Nat) × Nat := (g.values, g.numNodes)

namespace GCounter

variable {node node' node'' : Nat} {a b c g : GCounter}

theorem Ok.create {nodes : Nat} (hnode : node < nodes) (hnodes : nodes ≤ CRDT_MAX_NODES) :
    (gcounterCreate node nodes).Ok node := by
  rw [gcounterCreate, if_neg (not_lt.mpr hnodes)]
  exact ⟨rfl, hnode, hnodes, fun _ _ => rfl, fun _ => Nat.two_pow_pos 64⟩

theorem Ok.increment_values (h : g.Ok node) (delta : Nat) : (gcounterIncrement g delta).values
    = update g.values node (satAdd (g.values node) delta) := by
  rw [gcounterIncrement, h.self_eq, if_neg (not_le.mpr h.self_lt)]

theorem Ok.increment (h : g.Ok node) (delta : Nat) : (gcounterIncrement g delta).Ok node := by
  rw [gcounterIncrement, h.self_eq, if_neg (not_le.mpr h.self_lt)]
  refine ⟨rfl, h.self_lt, h.nodes_le, fun k hk => ?_, ?_⟩
  · have hne : k ≠ node := ne_of_gt (lt_of_lt_of_le h.self_lt hk)
    simp only [update_of_ne hne]
    exact h.clear k hk
  · exact (forall_update_iff g.values fun _ n => n < _).mpr
      ⟨satAdd_lt (h.word node) delta, fun k _ => h.word k⟩

theorem numNodes_merge (a b : GCounter) :
    (gcounterMerge a b).numNodes = max a.numNodes b.numNodes := by
  show (if b.numNodes > a.numNodes then b.numNodes else a.numNodes) = _
  split <;> omega

variable (ha : a.Ok node)
include ha

variable (hb : b.Ok node')
include hb

/-- A merge takes the maximum of every entry, those beyond both node counts included. -/
theorem Ok.values_merge (k : Nat) :
    (gcounterMerge a b).values k = max (a.values k) (b.values k) := by
  show maxInto (mergeNodes a.numNodes b.numNodes) a.values b.values k = _
  have hnodes : mergeNodes a.numNodes b.numNodes = max a.numNodes b.numNodes := by
    have hle := ha.nodes_le
    have hle' := hb.nodes_le
    simp only [mergeNodes]
    split <;> split <;> omega
  rw [maxInto_apply, hnodes]
  split
  · rfl
  · rw [hb.clear k (by omega), max_zero]

theorem Ok.merge : (gcounterMerge a b).Ok node := by
  refine ⟨ha.self_eq, ?_, ?_, fun k hk => ?_, fun k => ?_⟩
  · rw [numNodes_merge]
    exact lt_of_lt_of_le ha.self_lt (le_max_left _ _)
  · rw [numNodes_merge]
    exact Nat.max_le.mpr ⟨ha.nodes_le, hb.nodes_le⟩
  · rw [numNodes_merge] at hk
    rw [ha.values_merge hb, ha.clear k (by omega), hb.clear k (by omega), max_self]
  · rw [ha.values_merge hb]
    exact Nat.max_lt.mpr ⟨ha.word k, hb.word k⟩

theorem Ok.contents_merge : (gcounterMerge a b).contents
    = (fun k => max (a.values k) (b.values k), max a.numNodes b.numNodes) := by
  rw [contents, numNodes_merge]
  exact congrArg (·, _) (funext (ha.values_merge hb))

theorem Ok.merge_comm : (gcounterMerge a b).contents = (gcounterMerge b a).contents := by
  rw [ha.contents_merge hb, hb.contents_merge ha, max_comm]
  exact congrArg (·, _) (funext fun k => max_comm _ _)

theorem Ok.merge_assoc (hc : c.Ok node'') :
    (gcounterMerge (gcounterMerge a b) c).contents
      = (gcounterMerge a (gcounterMerge b c)).contents := by
  rw [(ha.merge hb).contents_merge hc, ha.contents_merge (hb.merge hc), numNodes_merge,
    numNodes_merge, max_assoc]
  refine congrArg (·, _) (funext fun k => ?_)
  rw [ha.values_merge hb, hb.values_merge hc, max_assoc]

omit hb

theorem Ok.merge_idem : (gcounterMerge a a).contents = a.contents := by
  rw [ha.contents_merge ha, max_self]
  exact congrArg (·, _) (funext fun k => max_self _)

omit ha

/-- The sum runs over all nodes, whatever the node count. -/
theorem Ok.sum_eq (h : g.Ok node) : sumTo g.values g.numNodes = sumTo g.values CRDT_MAX_NODES :=
  (sumTo_extend h.clear h.nodes_le).symm

theorem Ok.value_congr (ha : a.Ok node) (hb : b.Ok node') (h : a.values = b.values) :
    gcounterValue a = gcounterValue b := by
  rw [gcounterValue, gcounterValue, ha.sum_eq, hb.sum_eq, h]

/-- An increment raises the own entry and no other. -/
theorem Ok.increment_raises (h : g.Ok node) (delta : Nat) :
    (∀ k, k ≠ node → (gcounterIncrement g delta).values k = g.values k)
      ∧ g.values node ≤ (gcounterIncrement g delta).values node := by
  rw [h.increment_values]
  refine ⟨fun k hk => update_of_ne hk _ _, ?_⟩
  rw [update_self]
  exact le_satAdd (h.word node) delta

end GCounter

/-! ### The two halves of a PN-Counter -/

namespace PNCounter

def pos (p : PNCounter) : GCounter := ⟨p.positive, p.numNodes, p.selfNode⟩

def neg (p : PNCounter) : GCounter := ⟨p.negative, p.numNodes, p.selfNode⟩

/-- What a merge works on. -/
def contents (p : PNCounter) : (Nat → Nat) × (Nat → Nat) × Nat :=
  (p.positive, p.negative, p.numNodes)

variable (p : PNCounter)

variable (delta : Nat)

@[simp] theorem pos_increment : (pncounterIncrement p delta).pos = gcounterIncrement p.pos delta :=
  apply_ite pos ..

@[simp] theorem neg_increment : (pncounterIncrement p delta).neg = p.neg := by
  simp only [pncounterIncrement]
  split <;> rfl

@[simp] theorem pos_decrement : (pncounterDecrement p delta).pos = p.pos := by
  simp only [pncounterDecrement]
  split <;> rfl

@[simp] theorem neg_decrement : (pncounterDecrement p delta).neg = gcounterIncrement p.neg delta :=
  apply_ite neg ..

theorem contents_congr {a b : PNCounter} (hpos : a.pos.contents = b.pos.contents)
    (hneg : a.neg.contents = b.neg.contents) : a.contents = b.contents := by
  obtain ⟨h₁, h₂⟩ := Prod.mk.inj hpos
  obtain ⟨h₃, _⟩ := Prod.mk.inj hneg
  show (a.pos.values, a.neg.values, a.pos.numNodes) = _
  rw [h₁, h₂, h₃]
  rfl

/-- Both halves are counters of the node. -/
structure Ok (node : Nat) (p : PNCounter) : Prop where
  pos : p.pos.Ok node
  neg : p.neg.Ok node

theorem Ok.create {node nodes : Nat} (hnode : node < nodes) (hnodes : nodes ≤ CRDT_MAX_NODES) :
    (pncounterCreate node nodes).Ok node :=
  ⟨GCounter.Ok.create hnode hnodes, GCounter.Ok.create hnode hnodes⟩

theorem Ok.value_congr {node node' : Nat} {a b : PNCounter} (ha : a.Ok node) (hb : b.Ok node')
    (hpos : a.positive = b.positive) (hneg : a.negative = b.negative) :
    pncounterValue a = pncounterValue b := by
  have hp : sumTo a.positive a.numNodes = sumTo b.positive b.numNodes :=
    ha.pos.value_congr hb.pos hpos
  have hn : sumTo a.negative a.numNodes = sumTo b.negative b.numNodes :=
    ha.neg.value_congr hb.neg hneg
  rw [pncounterValue, pncounterValue, hp, hn]

end PNCounter

inductive PNOp
  | increment (delta : Nat)
  | decrement (delta : Nat)

def PNOp.apply (p : PNCounter) : PNOp → PNCounter
  | .increment delta => pncounterIncrement p delta
  | .decrement delta => pncounterDecrement p delta

namespace PNCounter

variable {node : Nat} {p : PNCounter}

theorem Ok.apply (h : p.Ok node) (op : PNOp) : (op.apply p).Ok node := by
  cases op with
  | increment delta =>
    refine ⟨?_, ?_⟩ <;> rw [PNOp.apply]
    · rw [pos_increment]
      exact h.pos.increment delta
    · rw [neg_increment]
      exact h.neg
  | decrement delta =>
    refine ⟨?_, ?_⟩ <;> rw [PNOp.apply]
    · rw [pos_decrement]
      exact h.pos
    · rw [neg_decrement]
      exact h.neg.increment delta

theorem Ok.merge {node' : Nat} {a b : PNCounter} (ha : a.Ok node) (hb : b.Ok node') :
    (pncounterMerge a b).Ok node :=
  ⟨ha.pos.merge hb.pos, ha.neg.merge hb.neg⟩

/-- An update raises the own entry of one half and changes nothing else. -/
theorem Ok.raises (h : p.Ok node) (op : PNOp) :
    ((∀ k, k ≠ node → (op.apply p).pos.values k = p.pos.values k)
      ∧ p.pos.values node ≤ (op.apply p).pos.values node)
    ∧ (∀ k, k ≠ node → (op.apply p).neg.values k = p.neg.values k)
      ∧ p.neg.values node ≤ (op.apply p).neg.values node := by
  cases op with
  | increment delta =>
    rw [PNOp.apply, pos_increment, neg_increment]
    exact ⟨h.pos.increment_raises delta, fun _ _ => rfl, le_refl _⟩
  | decrement delta =>
    rw [PNOp.apply, pos_decrement, neg_decrement]
    exact ⟨⟨fun _ _ => rfl, le_refl _⟩, h.neg.increment_raises delta⟩

end PNCounter

/-! ### Any number of replicas -/

section Replicas

variable {ι : Type*} [DecidableEq ι]

/-- Replicas of a G-Counter; an update is the `delta` of an increment. -/
def gcounterStep : System ι GCounter Nat → Call ι Nat → Option (System ι GCounter Nat × Unit) :=
  step (fun g delta => some (gcounterIncrement g delta)) fun dst src => some (gcounterMerge dst src)

def pncounterStep : System ι PNCounter PNOp → Call ι PNOp →
    Option (System ι PNCounter PNOp × Unit) :=
  step (fun p op => some (op.apply p)) fun dst src => some (pncounterMerge dst src)

variable {node : ι → Nat}

/-- The invariant of the replicas of a G-Counter. -/
structure GInv (node : ι → Nat) (s : System ι GCounter Nat) : Prop where
  causal : Causal s
  ok : ∀ i, (s.state i).Ok (node i)
  maxOf : MaxOf GCounter.values node s

theorem GInv.step {s : System ι GCounter Nat} (h : GInv node s) (c : Call ι Nat) :
    ∃ s' u, gcounterStep s c = some (s', u) ∧ GInv node s' := by
  cases hstep : gcounterStep s c with
  | none => cases c <;> simp [gcounterStep, Gossip.step] at hstep
  | some r =>
    obtain ⟨s', u⟩ := r
    refine ⟨s', u, rfl, h.causal.step hstep, forall_step h.ok ?_ ?_ hstep,
      h.maxOf.step h.causal ?_ ?_ hstep⟩
    · rintro i delta t ⟨⟩
      exact (h.ok i).increment delta
    · rintro i j t ⟨⟩
      exact (h.ok i).merge (h.ok j)
    · rintro i delta t ⟨⟩
      exact (h.ok i).increment_raises delta
    · rintro i j t ⟨⟩
      exact (h.ok i).values_merge (h.ok j)

/-- The invariant of the replicas of a PN-Counter. -/
structure PNInv (node : ι → Nat) (s : System ι PNCounter PNOp) : Prop where
  causal : Causal s
  ok : ∀ i, (s.state i).Ok (node i)
  pos : MaxOf PNCounter.positive node s
  neg : MaxOf PNCounter.negative node s

theorem PNInv.step {s : System ι PNCounter PNOp} (h : PNInv node s) (c : Call ι PNOp) :
    ∃ s' u, pncounterStep s c = some (s', u) ∧ PNInv node s' := by
  cases hstep : pncounterStep s c with
  | none => cases c <;> simp [pncounterStep, Gossip.step] at hstep
  | some r =>
    obtain ⟨s', u⟩ := r
    refine ⟨s', u, rfl, h.causal.step hstep, forall_step h.ok ?_ ?_ hstep,
      h.pos.step h.causal ?_ ?_ hstep, h.neg.step h.causal ?_ ?_ hstep⟩
    · rintro i op t ⟨⟩
      exact (h.ok i).apply op
    · rintro i j t ⟨⟩
      exact (h.ok i).merge (h.ok j)
    · rintro i op t ⟨⟩
      exact ((h.ok i).raises op).1
    · rintro i j t ⟨⟩
      exact (h.ok i).pos.values_merge (h.ok j).pos
    · rintro i op t ⟨⟩
      exact ((h.ok i).raises op).2
    · rintro i j t ⟨⟩
      exact (h.ok i).neg.values_merge (h.ok j).neg

/-- **The counters converge.**  Replicas with distinct nodes, with node counts that may
differ, increment, decrement and merge in any order.  In every state reached, an entry is
at most its owner's own entry, and equal to it where all updates of the owner have
arrived; merging the replicas' states is commutative, associative and idempotent; and
replicas that have received the same updates report the same value. -/
theorem counters_converge {nodes : ι → Nat} (hlt : ∀ i, node i < nodes i)
    (hle : ∀ i, nodes i ≤ CRDT_MAX_NODES) (hinj : Injective node) :
    (∀ calls, ∃ s us,
      run gcounterStep (start fun i => gcounterCreate (node i) (nodes i)) calls = some (s, us)
        ∧ (∀ r j, (s.state r).values (node j) ≤ (s.state j).values (node j))
        ∧ (∀ r j, s.Delivered j r → (s.state r).values (node j) = (s.state j).values (node j))
        ∧ (∀ i j k,
            (gcounterMerge (s.state i) (s.state j)).contents
              = (gcounterMerge (s.state j) (s.state i)).contents
            ∧ (gcounterMerge (gcounterMerge (s.state i) (s.state j)) (s.state k)).contents
              = (gcounterMerge (s.state i) (gcounterMerge (s.state j) (s.state k))).contents
            ∧ (gcounterMerge (s.state i) (s.state i)).contents = (s.state i).contents)
        ∧ ∀ r r', s.known r = s.known r' →
            gcounterValue (s.state r) = gcounterValue (s.state r'))
    ∧ ∀ calls, ∃ s us,
      run pncounterStep (start fun i => pncounterCreate (node i) (nodes i)) calls = some (s, us)
        ∧ (∀ r j, (s.state r).positive (node j) ≤ (s.state j).positive (node j)
            ∧ (s.state r).negative (node j) ≤ (s.state j).negative (node j))
        ∧ (∀ r j, s.Delivered j r →
            (s.state r).positive (node j) = (s.state j).positive (node j)
            ∧ (s.state r).negative (node j) = (s.state j).negative (node j))
        ∧ (∀ i j k,
            (pncounterMerge (s.state i) (s.state j)).contents
              = (pncounterMerge (s.state j) (s.state i)).contents
            ∧ (pncounterMerge (pncounterMerge (s.state i) (s.state j)) (s.state k)).contents
              = (pncounterMerge (s.state i) (pncounterMerge (s.state j) (s.state k))).contents
            ∧ (pncounterMerge (s.state i) (s.state i)).contents = (s.state i).contents)
        ∧ ∀ r r', s.known r = s.known r' →
            pncounterValue (s.state r) = pncounterValue (s.state r') := by
  constructor
  · intro calls
    have hstart : GInv node (start fun i => gcounterCreate (node i) (nodes i)) :=
      ⟨causal_start _, fun i => .create (hlt i) (hle i), maxOf_start fun _ _ => rfl⟩
    obtain ⟨s, us, hrun, h⟩ := run_always (fun s c h => h.step c) hstart calls
    refine ⟨s, us, hrun, h.maxOf.le_owner h.causal hinj,
      fun r j => h.maxOf.eq_owner h.causal hinj, fun i j k => ?_, fun r r' hknown => ?_⟩
    · exact ⟨(h.ok i).merge_comm (h.ok j), (h.ok i).merge_assoc (h.ok j) (h.ok k),
        (h.ok i).merge_idem⟩
    · exact (h.ok r).value_congr (h.ok r') (funext (h.maxOf.agree hknown))
  · intro calls
    have hstart : PNInv node (start fun i => pncounterCreate (node i) (nodes i)) :=
      ⟨causal_start _, fun i => .create (hlt i) (hle i), maxOf_start fun _ _ => rfl,
        maxOf_start fun _ _ => rfl⟩
    obtain ⟨s, us, hrun, h⟩ := run_always (fun s c h => h.step c) hstart calls
    refine ⟨s, us, hrun, fun r j => ?_, fun r j hdel => ?_, fun i j k => ?_, fun r r' hknown => ?_⟩
    · exact ⟨h.pos.le_owner h.causal hinj r j, h.neg.le_owner h.causal hinj r j⟩
    · exact ⟨h.pos.eq_owner h.causal hinj hdel, h.neg.eq_owner h.causal hinj hdel⟩
    · have hi := h.ok i
      have hj := h.ok j
      have hk := h.ok k
      exact ⟨PNCounter.contents_congr (hi.pos.merge_comm hj.pos) (hi.neg.merge_comm hj.neg),
        PNCounter.contents_congr (hi.pos.merge_assoc hj.pos hk.pos)
          (hi.neg.merge_assoc hj.neg hk.neg),
        PNCounter.contents_congr hi.pos.merge_idem hi.neg.merge_idem⟩
    · exact (h.ok r).value_congr (h.ok r') (funext (h.pos.agree hknown))
        (funext (h.neg.agree hknown))

end Replicas

/-- `i` merges what `j` has and decrements, and its value goes back. -/
def sendsBack {ι : Type} (i j : ι) : List (Call ι PNOp) :=
  [.update i (.increment 5), .update j (.increment 3), .merge i j, .update i (.decrement 2),
    .merge j i]

/-- Node `0` of one node and node `1` of two. -/
theorem counters_converge_two : ∃ s us,
    run pncounterStep (start fun i : Fin 2 => pncounterCreate i.val (i.val + 1)) (sendsBack 0 1)
        = some (s, us)
      ∧ pncounterValue (s.state 0) = some 6 ∧ pncounterValue (s.state 1) = some 6
      ∧ (∀ r r', s.known r = s.known r' →
          pncounterValue (s.state r) = pncounterValue (s.state r')) := by
  have hinj : Injective fun i : Fin 2 => i.val := fun _ _ h => Fin.ext h
  obtain ⟨-, hpn⟩ := counters_converge (fun i : Fin 2 => lt_succ_self i.val) (by decide) hinj
  obtain ⟨s, us, hrun, -, -, -, hvalue⟩ := hpn (sendsBack 0 1)
  have heval : (run pncounterStep (start fun i : Fin 2 => pncounterCreate i.val (i.val + 1))
      (sendsBack 0 1)).map (fun r => (pncounterValue (r.1.state 0), pncounterValue (r.1.state 1)))
      = some (some 6, some 6) := by
    decide +kernel
  rw [hrun] at heval
  obtain ⟨hzero, hone⟩ := Prod.mk.inj (Option.some.inj heval)
  exact ⟨s, us, hrun, hzero, hone, hvalue⟩

end NexCache.Crdt
