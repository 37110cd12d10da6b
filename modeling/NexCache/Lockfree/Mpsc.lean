import NexCache.Lib.Links

/-!
# The free-segment queue

`vera_lockfree.h`: a queue of linked nodes with a stub node inside the queue
structure.  Nodes are removed at `tail` and added at `head`; when the last node
leaves, the stub is put in behind it.

The operations are taken as atomic here.  `Holds q vs` says that the queue contains
the values `vs`, oldest first.  Enqueueing appends (`Holds.push`) and dequeueing
takes the first (`Holds.dequeue`), whether or not the stub is in the chain.
-/

namespace NexCache.Lockfree

open Links Function List

/-- A node address: the stub, or the `id`-th node allocated. -/
inductive MpscRef
  | stub
  | node (id : Nat)
  deriving DecidableEq

structure MpscQueue where
  head : MpscRef
  tail : MpscRef
  next : MpscRef → Option MpscRef
  data : MpscRef → Nat
  /-- How many nodes have been allocated. -/
  fresh : Nat

def mpscInit : MpscQueue := ⟨.stub, .stub, fun _ => none, fun _ => 0, 0⟩

/-- `n->next = NULL; prev = exchange(head, n); prev->next = n`. -/
def mpscEnqueue (q : MpscQueue) (n : MpscRef) : MpscQueue :=
  { q with
    head := n
    next := update (update q.next n none) q.head (some n) }

/-- The way every caller enqueues: a new node with `value` as its data. -/
def mpscPush (q : MpscQueue) (value : Nat) : MpscQueue :=
  mpscEnqueue
    { q with data := update q.data (.node q.fresh) value, fresh := q.fresh + 1 }
    (.node q.fresh)

/-- `mpsc_dequeue` once `tail` is not the stub. -/
def mpscDequeueFrom (q : MpscQueue) (tail : MpscRef) : Option MpscRef × MpscQueue :=
  match q.next tail with
  | some next => (some tail, { q with tail := next })
  | none =>
    if tail ≠ q.head then (none, q)
    else
      let q' := mpscEnqueue q .stub
      match q'.next tail with
      | some next => (some tail, { q' with tail := next })
      | none => (none, q')

def mpscDequeue (q : MpscQueue) : Option MpscRef × MpscQueue :=
  if q.tail = .stub then
    match q.next q.tail with
    | none => (none, q)
    | some next => mpscDequeueFrom { q with tail := next } next
  else mpscDequeueFrom q q.tail

/-! ### What a queue holds -/

/-- The chain from `tail` to `head`. -/
structure Chained (q : MpscQueue) (chain : List MpscRef) : Prop where
  follows : Follows q.next (some q.tail) chain
  nodup : chain.Nodup
  last : chain.getLast? = some q.head
  allocated : ∀ id, .node id ∈ chain → id < q.fresh

def Holds (q : MpscQueue) (vs : List Nat) : Prop :=
  ∃ ids : List Nat, vs = ids.map (fun id => q.data (.node id)) ∧
    (Chained q (.stub :: ids.map .node) ∨ ids ≠ [] ∧ Chained q (ids.map .node))

theorem holds_init : Holds mpscInit [] := by
  refine ⟨[], rfl, .inl ⟨⟨rfl, rfl⟩, by simp, rfl, ?_⟩⟩
  intro id hid
  simp at hid

variable {q : MpscQueue} {chain : List MpscRef}

theorem Chained.enqueue (h : Chained q chain) {n : MpscRef} (hn : n ∉ chain)
    (hfresh : ∀ id, n = .node id → id < q.fresh) :
    Chained (mpscEnqueue q n) (chain ++ [n]) := by
  obtain ⟨init, hinit⟩ : ∃ init, chain = init ++ [q.head] :=
    ⟨chain.dropLast, (dropLast_append_getLast? _ h.last).symm⟩
  have hf := h.follows
  have hnd := h.nodup
  have halloc := h.allocated
  rw [hinit] at hn hf hnd halloc
  refine ⟨?_, ?_, ?_, ?_⟩
  · rw [hinit, append_assoc]
    exact hf.snoc hnd hn
  · rw [hinit]
    exact nodup_append.mpr ⟨hnd, by simp, fun a ha b hb he => by
      rw [mem_singleton] at hb
      rw [← hb, ← he] at hn
      exact hn ha⟩
  · rw [getLast?_append]
    rfl
  · intro id hid
    rw [hinit, mem_append, mem_singleton] at hid
    rcases hid with hid | hid
    · exact halloc id hid
    · exact hfresh id hid.symm

variable {vs : List Nat}

/-- **Enqueueing appends.** -/
theorem Holds.push (h : Holds q vs) (value : Nat) : Holds (mpscPush q value) (vs ++ [value]) := by
  obtain ⟨ids, rfl, hchain⟩ := h
  have hstart : ∀ {chain : List MpscRef}, Chained q chain →
      Chained (mpscPush q value) (chain ++ [.node q.fresh]) := by
    intro chain hc
    have hnew : MpscRef.node q.fresh ∉ chain := by
      intro hmem
      exact Nat.lt_irrefl _ (hc.allocated _ hmem)
    have hc' : Chained { q with data := update q.data (.node q.fresh) value,
                                fresh := q.fresh + 1 } chain :=
      ⟨hc.follows, hc.nodup, hc.last, fun id hid => Nat.lt_succ_of_lt (hc.allocated id hid)⟩
    exact hc'.enqueue hnew fun id he => by
      rw [MpscRef.node.injEq] at he
      rw [← he]
      exact Nat.lt_succ_self _
  have hold : ∀ id ∈ ids, (mpscPush q value).data (.node id) = q.data (.node id) := by
    intro id hid
    have hlt : id < q.fresh := by
      rcases hchain with hc | ⟨_, hc⟩ <;> exact hc.allocated id (by simp [hid])
    show update q.data _ _ _ = _
    rw [update_of_ne]
    intro he
    rw [MpscRef.node.injEq] at he
    omega
  have hself : (mpscPush q value).data (.node q.fresh) = value := update_self ..
  refine ⟨ids ++ [q.fresh], ?_, ?_⟩
  · rw [map_append, map_singleton, hself, map_congr_left hold]
  · rw [map_append, map_singleton]
    rcases hchain with hc | ⟨_, hc⟩
    · exact .inl (hstart hc)
    · exact .inr ⟨by simp, hstart hc⟩

theorem Holds.pushes (h : Holds q vs) (ws : List Nat) : Holds (ws.foldl mpscPush q) (vs ++ ws) := by
  induction ws generalizing q vs with
  | nil => rw [append_nil]; exact h
  | cons w ws ih =>
    have := ih (h.push w)
    rwa [append_assoc] at this

theorem Chained.tail_eq {a : MpscRef} (h : Chained q (a :: chain)) : q.tail = a :=
  Option.some.inj h.follows.1

theorem Chained.drop {a b : MpscRef} (h : Chained q (a :: b :: chain)) :
    q.next a = some b ∧ Chained { q with tail := b } (b :: chain) := by
  obtain ⟨hb, hrest⟩ := h.follows.2
  refine ⟨hb, ⟨rfl, hrest⟩, (nodup_cons.mp h.nodup).2, ?_, ?_⟩
  · rw [← h.last, getLast?_cons_cons]
  · intro id hid
    exact h.allocated id (mem_cons_of_mem a hid)

theorem dequeueFrom_node {id : Nat} {ids : List Nat} (h : Chained q ((id :: ids).map .node)) :
    ∃ q', mpscDequeueFrom q (.node id) = (some (.node id), q') ∧ q'.data = q.data ∧
      (Chained q' (.stub :: ids.map .node) ∨ ids ≠ [] ∧ Chained q' (ids.map .node)) := by
  unfold mpscDequeueFrom
  cases ids with
  | nil =>
    have hnone : q.next (.node id) = none := h.follows.2
    have hhead : MpscRef.node id = q.head := Option.some.inj h.last
    have hstub : (mpscEnqueue q .stub).next (.node id) = some .stub := by
      rw [hhead]
      exact update_self ..
    simp only [hnone, if_neg (not_not.mpr hhead), hstub]
    refine ⟨_, rfl, rfl, .inl ⟨⟨rfl, ?_⟩, by simp, rfl, ?_⟩⟩
    · show update (update q.next .stub none) q.head (some .stub) .stub = none
      rw [← hhead, update_of_ne (by simp), update_self]
    · intro id' hid'
      simp at hid'
  | cons id' ids =>
    obtain ⟨hnext, hrest⟩ := h.drop
    simp only [hnext]
    exact ⟨_, rfl, rfl, .inr ⟨by simp, hrest⟩⟩

/-- **Dequeueing takes the oldest value.** -/
theorem Holds.dequeue {v : Nat} (h : Holds q (v :: vs)) :
    ∃ n q', mpscDequeue q = (some n, q') ∧ q.data n = v ∧ q'.data = q.data ∧ Holds q' vs := by
  obtain ⟨ids, hvs, hchain⟩ := h
  cases ids with
  | nil => simp at hvs
  | cons id ids =>
    rw [map_cons, cons.injEq] at hvs
    obtain ⟨rfl, rfl⟩ := hvs
    unfold mpscDequeue
    rcases hchain with hc | ⟨_, hc⟩
    · rw [if_pos hc.tail_eq, hc.tail_eq]
      obtain ⟨hnext, hrest⟩ := hc.drop
      obtain ⟨q', hdeq, hdata, hc'⟩ := dequeueFrom_node hrest
      simp only [hnext]
      refine ⟨_, q', hdeq, rfl, hdata, ids, ?_, hc'⟩
      rw [hdata]
    · have htail : q.tail = .node id := hc.tail_eq
      rw [if_neg (by rw [htail]; simp), htail]
      obtain ⟨q', hdeq, hdata, hc'⟩ := dequeueFrom_node hc
      refine ⟨_, q', hdeq, rfl, hdata, ids, ?_, hc'⟩
      rw [hdata]

theorem Holds.dequeue_nil (h : Holds q []) : mpscDequeue q = (none, q) := by
  obtain ⟨ids, hvs, hchain⟩ := h
  obtain rfl : ids = [] := by simpa using hvs.symm
  rcases hchain with hc | ⟨hne, _⟩
  · have hnone : q.next .stub = none := hc.follows.2
    rw [mpscDequeue, if_pos hc.tail_eq, hc.tail_eq, hnone]
  · exact absurd rfl hne

end NexCache.Lockfree
