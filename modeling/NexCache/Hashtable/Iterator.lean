import Mathlib.Algebra.BigOperators.Intervals
import Mathlib.Algebra.BigOperators.Ring.Finset
import NexCache.Hashtable.Coverage

/-!
# Iterators (hashtable.c)

A safe iterator pauses rehashing at its first step and walks over the chains of the first
array and then over those of the second, if there is one.  It stands on a position of a bucket,
by the bucket's address.  When it leaves a chain in which entries were deleted, and nothing
else has paused rehashing, it compacts the chain behind it.
-/

namespace NexCache.HashTables

open Finset Option

variable {K E : Type*}

/-- The address of a bucket. -/
structure BucketRef where
  addr : Nat
  idx : Nat
  depth : Nat

/-- A safe iterator, with the table it was started on. -/
structure Iter (E : Type*) where
  ht : Hashtable E
  table : Fin 2
  index : Int
  bucket : BucketRef
  pos : Fin 7
  lastSeenSize : Nat

/-- What one turn of the loop of `hashtableNext` comes to. -/
inductive Visit (E : Type*)
  | again
  | found (e : E)
  | finished

def hashtableInitIterator (ht : Hashtable E) : Iter E :=
  ⟨{ ht with safeIterators := ht.safeIterators + 1 }, 0, -1, ⟨0, 0, 0⟩, 0, 0⟩

namespace Iter

/-- The end of a turn: is the position filled? -/
def visit (it : Iter E) : Option (Iter E × Visit E) :=
  (it.ht.chainAt it.bucket.addr it.bucket.idx).bind fun chain =>
  chain[it.bucket.depth]?.map fun b =>
    (it, match b.cell it.pos with
      | none => .again
      | some x => .found x.2)

/-- `iter->bucket = &tables[table][index]`, at its first position. -/
def enter (it : Iter E) : Option (Iter E × Visit E) :=
  let t := it.ht.tables it.table
  (t.chain? it.index.toNat).bind fun _ =>
    visit { it with bucket := ⟨t.addr, it.index.toNat, 0⟩, pos := 0 }

/-- The chain is done: it is compacted, and the iterator goes on to the next index. -/
def leave (it : Iter E) : Option (Iter E × Visit E) :=
  (if it.ht.pauseRehash = 1 ∧ (it.ht.tables it.table).used < it.lastSeenSize then
    compactBucketChain it.ht it.table it.index.toNat else some it.ht).bind fun ht =>
  let it := { it with
    ht := ht, lastSeenSize := (ht.tables it.table).used, pos := 0, index := it.index + 1 }
  if numBuckets (ht.tables it.table).exp ≤ it.index.toNat then
    if ht.isRehashing = true ∧ it.table = 0 then enter { it with index := 0, table := 1 }
    else some (it, .finished)
  else enter it

/-- One turn of the loop. -/
def turn (it : Iter E) : Option (Iter E × Visit E) :=
  if it.index = -1 ∧ it.table = 0 then
    let ht := hashtablePauseRehashing it.ht
    let it := { it with ht := ht, lastSeenSize := (ht.tables it.table).used }
    if (ht.tables 0).exp = -1 then some (it, .finished)
    else enter { it with index := if ht.isRehashing then ht.rehashIdx else 0 }
  else
    (it.ht.chainAt it.bucket.addr it.bucket.idx).bind fun c =>
    if it.bucket.depth + 1 < c.length ∧ 6 ≤ it.pos.val + 1 then
      visit { it with bucket := { it.bucket with depth := it.bucket.depth + 1 }, pos := 0 }
    else if h : it.pos.val + 1 < 7 then visit { it with pos := ⟨it.pos.val + 1, h⟩ }
    else leave it

/-- The loop. -/
def nextFrom : Nat → Iter E → Option (Iter E × Option E)
  | 0, _ => none
  | fuel + 1, it => (turn it).bind fun r =>
    match r.2 with
    | .again => nextFrom fuel r.1
    | .found e => some (r.1, some e)
    | .finished => some (r.1, none)

end Iter

/-- The positions of all buckets. -/
def Hashtable.slots (ht : Hashtable E) : Nat :=
  7 * (numBuckets (ht.tables 0).exp + (ht.tables 0).childBuckets
    + (numBuckets (ht.tables 1).exp + (ht.tables 1).childBuckets))

/-- No turn visits a position twice, which bounds the turns. -/
def hashtableNext (it : Iter E) : Option (Iter E × Option E) := it.nextFrom (it.ht.slots + 2)

/-! ### Where an iterator stands -/

variable {T : HashtableType K E} {it it' : Iter E}

namespace Iter

def chain (it : Iter E) : Chain E := (it.ht.tables it.table).chains it.index.toNat

/-- The place of the iterator. -/
def place (it : Iter E) : Place := ⟨it.table, it.index.toNat, it.bucket.depth, it.pos⟩

end Iter

/-- The order in which an iterator visits places; `slot` counts positions of a chain. -/
def Upto (p q : Place) : Prop :=
  p.table < q.table ∨ p.table = q.table
    ∧ (p.idx < q.idx ∨ p.idx = q.idx ∧ 7 * p.depth + p.pos ≤ 7 * q.depth + q.pos)

def Before (p q : Place) : Prop :=
  p.table < q.table ∨ p.table = q.table
    ∧ (p.idx < q.idx ∨ p.idx = q.idx ∧ 7 * p.depth + p.pos < 7 * q.depth + q.pos)

theorem upto_iff {p q : Place} : Upto p q ↔ p = q ∨ Before p q := by
  obtain ⟨t, i, d, n⟩ := p
  obtain ⟨t', i', d', n'⟩ := q
  simp only [Upto, Before, Place.mk.injEq]
  constructor
  · rintro (h | ⟨rfl, h | ⟨rfl, h⟩⟩)
    · exact .inr (.inl h)
    · exact .inr (.inr ⟨rfl, .inl h⟩)
    · by_cases heq : 7 * d + n.val = 7 * d' + n'.val
      · exact .inl ⟨rfl, rfl, by omega, Fin.ext (by omega)⟩
      · exact .inr (.inr ⟨rfl, .inr ⟨rfl, by omega⟩⟩)
  · rintro (⟨rfl, rfl, rfl, rfl⟩ | h | ⟨rfl, h | ⟨rfl, h⟩⟩)
    · exact .inr ⟨rfl, .inr ⟨rfl, le_rfl⟩⟩
    · exact .inl h
    · exact .inr ⟨rfl, .inl h⟩
    · exact .inr ⟨rfl, .inr ⟨rfl, h.le⟩⟩

theorem Before.irrefl (p : Place) : ¬ Before p p := by
  rintro (h | ⟨-, h | ⟨-, h⟩⟩)
  · exact lt_irrefl _ h
  · exact lt_irrefl _ h
  · exact lt_irrefl _ h

/-- The iterator stands on a position of a chain in use, and rehashing is paused. -/
structure Standing (T : HashtableType K E) (it : Iter E) : Prop where
  rep : ∃ m, Represents T it.ht m
  alloc : (it.ht.tables 0).exp ≠ -1
  paused : 0 < it.ht.pauseRehash
  watched : it.ht.safeIterators ≠ 0
  captured : Captured it.ht it.table
  index_nonneg : 0 ≤ it.index
  index_lt : it.index.toNat < numBuckets (it.ht.tables it.table).exp
  ahead : it.table = 0 → ¬ it.index.toNat < it.ht.rehashIdx.toNat
  addr_eq : it.bucket.addr = (it.ht.tables it.table).addr
  idx_eq : it.bucket.idx = it.index.toNat
  depth_lt : it.bucket.depth < it.chain.length

namespace Standing

theorem chainAt_eq (h : Standing T it) :
    it.ht.chainAt it.bucket.addr it.bucket.idx = some it.chain := by
  obtain ⟨m, hrep⟩ := h.rep
  rw [h.addr_eq, h.idx_eq]
  exact chainAt_of_captured hrep.inv h.captured h.index_lt

/-- What the iterator finds where it stands. -/
theorem visit_spec (h : Standing T it) : ∃ v, it.visit = some (it, v)
    ∧ ((v = .again ∧ ∀ x, ¬ Located it.ht it.place x)
      ∨ ∃ h2 e, v = .found e ∧ Located it.ht it.place (h2, e)) := by
  obtain ⟨b, hb⟩ : ∃ b, it.chain[it.bucket.depth]? = some b :=
    ⟨_, List.getElem?_eq_getElem h.depth_lt⟩
  have hcellAt : cellAt ((it.ht.tables it.place.table).chains it.place.idx) it.place.depth
      it.place.pos = b.cell it.pos := by
    change cellAt it.chain it.bucket.depth it.pos = _
    rw [cellAt, hb, bind_some]
  rw [Iter.visit, h.chainAt_eq, bind_some, hb, map_some]
  refine ⟨_, rfl, ?_⟩
  cases hcell : b.cell it.pos with
  | none =>
    refine .inl ⟨rfl, fun x hx => ?_⟩
    rw [Located, hcellAt, hcell] at hx
    cases hx.2
  | some x => exact .inr ⟨x.1, x.2, rfl, h.index_lt, hcellAt.trans hcell⟩

end Standing

/-! ### Positions still to visit -/

/-- The positions of the chains from an index on. -/
def Table.slotsFrom (t : Table E) (first : Nat) : Nat :=
  ∑ j ∈ Ico first (numBuckets t.exp), 7 * (t.chains j).length

theorem Table.slotsFrom_succ {t : Table E} {first : Nat} (h : first < numBuckets t.exp) :
    t.slotsFrom first = 7 * (t.chains first).length + t.slotsFrom (first + 1) :=
  sum_eq_sum_Ico_succ_bot h _

theorem Table.slotsFrom_congr {t t' : Table E} {first : Nat} (hexp : t'.exp = t.exp)
    (hchains : ∀ j, first ≤ j → t'.chains j = t.chains j) :
    t'.slotsFrom first = t.slotsFrom first := by
  rw [Table.slotsFrom, Table.slotsFrom, hexp]
  refine sum_congr rfl fun j hj => ?_
  rw [hchains j (mem_Ico.mp hj).1]

theorem Table.slotsFrom_le {t : Table E} (h : TableOk T t) (first : Nat) :
    t.slotsFrom first ≤ 7 * (numBuckets t.exp + t.childBuckets) := by
  have hall : t.slotsFrom 0 = 7 * (numBuckets t.exp + t.childBuckets) := by
    rw [Table.slotsFrom, ← mul_sum, h.child_eq, Table.children, range_eq_Ico]
    congr 1
    have hone : ∀ j ∈ Ico 0 (numBuckets t.exp),
        (t.chains j).length = 1 + ((t.chains j).length - 1) := by
      intro j hj
      have hpos := List.length_pos_of_ne_nil (h.linked j (mem_Ico.mp hj).2).1
      omega
    rw [sum_congr rfl hone, sum_add_distrib]
    simp
  rw [← hall]
  exact sum_le_sum_of_subset (Ico_subset_Ico_left (Nat.zero_le first))

/-- The positions that the iterator has not left. -/
def Iter.remaining (it : Iter E) : Nat :=
  7 * it.chain.length - (7 * it.bucket.depth + it.pos)
    + (it.ht.tables it.table).slotsFrom (it.index.toNat + 1)
    + if it.table = 0 then (it.ht.tables 1).slotsFrom 0 else 0

variable (h : Standing T it) {ht' : Hashtable E}
include h

theorem Standing.remaining_le : it.remaining ≤ it.ht.slots := by
  obtain ⟨m, hrep⟩ := h.rep
  have hfirst := Table.slotsFrom_succ h.index_lt
  have hzero := Table.slotsFrom_le (hrep.inv.ok 0)
  have hone := Table.slotsFrom_le (hrep.inv.ok 1)
  have hchain : (it.ht.tables it.table).slotsFrom it.index.toNat
      = 7 * it.chain.length + (it.ht.tables it.table).slotsFrom (it.index.toNat + 1) := hfirst
  rw [Iter.remaining, Hashtable.slots]
  match htable : it.table with
  | 0 =>
    rw [htable] at hchain
    have hle := hzero it.index.toNat
    have hle' := hone 0
    rw [if_pos rfl]
    omega
  | 1 =>
    rw [htable] at hchain
    have hle := hone it.index.toNat
    rw [if_neg (by decide)]
    omega

/-! ### One turn -/

/-- `it'` stands on the next position after that of `it`: what was behind `it` is at `it'` or behind
it, and nothing else is. -/
structure Arrived (T : HashtableType K E) (it it' : Iter E) : Prop where
  standing : Standing T it'
  rest : ∀ p x, Located it.ht p x ∧ Before it.place p ↔ Located it'.ht p x ∧ Upto it'.place p
  less : it'.remaining < it.remaining

/-- The next position of the same bucket. -/
theorem arrived_pos (hpos : it.pos.val + 1 < 7) :
    Arrived T it { it with pos := ⟨it.pos.val + 1, hpos⟩ } := by
  refine ⟨⟨h.rep, h.alloc, h.paused, h.watched, h.captured, h.index_nonneg, h.index_lt, h.ahead,
    h.addr_eq, h.idx_eq, h.depth_lt⟩, fun p x => and_congr_right fun _ => ?_, ?_⟩
  · simp only [Before, Upto, Iter.place]
    omega
  · have hlt := h.depth_lt
    simp only [Iter.remaining, Iter.chain] at hlt ⊢
    omega

/-- The child bucket.  The last position of a bucket with a child holds no entry. -/
theorem arrived_child (hchild : it.bucket.depth + 1 < it.chain.length) (hpos : 6 ≤ it.pos.val + 1) :
    Arrived T it
      { it with bucket := { it.bucket with depth := it.bucket.depth + 1 }, pos := 0 } := by
  obtain ⟨m, hrep⟩ := h.rep
  have hlink := ((hrep.inv.ok it.table).linked _ h.index_lt).2
  refine ⟨⟨h.rep, h.alloc, h.paused, h.watched, h.captured, h.index_nonneg, h.index_lt, h.ahead,
    h.addr_eq, h.idx_eq, hchild⟩, fun p x => and_congr_right fun hx => ?_, ?_⟩
  · have hskip : ¬ (it.table = p.table ∧ it.index.toNat = p.idx ∧ it.bucket.depth = p.depth ∧
        p.pos.val = 6) := by
      rintro ⟨ht, hi, hd, hp⟩
      obtain ⟨-, hcell⟩ := hx
      obtain ⟨b, hb, hfull⟩ := bind_eq_some_iff.mp hcell
      rw [← ht, ← hi, ← hd] at hb
      have hmem : b ∈ it.chain.dropLast := by
        rw [List.mem_iff_getElem?]
        refine ⟨it.bucket.depth, ?_⟩
        rw [List.getElem?_dropLast, if_pos (by omega)]
        exact hb
      rw [show p.pos = 6 from Fin.ext hp, hlink b hmem] at hfull
      cases hfull
    simp only [Before, Upto, Iter.place, Fin.val_zero, Nat.add_zero]
    omega
  · simp only [Iter.remaining, Iter.chain, Fin.val_zero] at hchild ⊢
    omega

/-- What a turn comes to. -/
def Turned (T : HashtableType K E) (it : Iter E) (r : Iter E × Visit E) : Prop :=
  match r.2 with
  | .again => Arrived T it r.1 ∧ ∀ x, ¬ Located r.1.ht r.1.place x
  | .found e => Arrived T it r.1 ∧ ∃ h2, Located r.1.ht r.1.place (h2, e)
  | .finished => (∃ m, Represents T r.1.ht m) ∧ ∀ p x, Located it.ht p x → ¬ Before it.place p

omit h in
theorem Arrived.visit (h : Arrived T it it') : ∃ r, it'.visit = some r ∧ Turned T it r := by
  obtain ⟨v, hv, ⟨rfl, hnone⟩ | ⟨h2, e, rfl, hx⟩⟩ := h.standing.visit_spec
  · exact ⟨_, hv, h, hnone⟩
  · exact ⟨_, hv, h, h2, hx⟩

omit h in
theorem enter_eq {it : Iter E} (hidx : it.index.toNat < numBuckets (it.ht.tables it.table).exp) :
    it.enter = Iter.visit
      { it with bucket := ⟨(it.ht.tables it.table).addr, it.index.toNat, 0⟩, pos := 0 } := by
  simp only [Iter.enter]
  rw [Table.chain?_of_lt hidx, bind_some]

/-- The table after an iterator left a chain. -/
structure Tidied (T : HashtableType K E) (it : Iter E) (ht' : Hashtable E) : Prop where
  moved : Moved T it.ht ht'
  keeps : Keeps it.ht ht'
  rehash_eq : ht'.rehashIdx = it.ht.rehashIdx
  chains_eq : ∀ j idx, ¬ (j = it.table ∧ idx = it.index.toNat) →
    (ht'.tables j).chains idx = (it.ht.tables j).chains idx
  exp_eq : ∀ j, (ht'.tables j).exp = (it.ht.tables j).exp

theorem tidy_spec : ∃ ht', (if it.ht.pauseRehash = 1
      ∧ (it.ht.tables it.table).used < it.lastSeenSize then
        compactBucketChain it.ht it.table it.index.toNat else some it.ht) = some ht'
    ∧ Tidied T it ht' := by
  obtain ⟨m, hrep⟩ := h.rep
  split
  · obtain ⟨ht', hcompact, hmoved, hkeeps, hre, -, hchains, hexp⟩ :=
      compactBucketChain_spec hrep.inv h.index_lt h.ahead
    exact ⟨ht', hcompact, hmoved, hkeeps, hre, hchains, hexp⟩
  · exact ⟨it.ht, rfl, .refl hrep.inv, .refl _, rfl, fun _ _ _ => rfl, fun _ => rfl⟩

omit h in
/-- Entries outside the chain stay where they are. -/
theorem Tidied.located (h : Tidied T it ht') {p : Place}
    (hp : ¬ (p.table = it.table ∧ p.idx = it.index.toNat)) (x : BitVec 8 × E) :
    Located ht' p x ↔ Located it.ht p x := by
  rw [Located, Located, h.chains_eq _ _ hp, h.exp_eq]

omit h in
/-- Behind the last position of a chain, the chain holds nothing. -/
theorem not_located_behind (hlast : it.chain.length ≤ it.bucket.depth + 1)
    (hpos : 7 ≤ it.pos.val + 1) {p : Place} {x : BitVec 8 × E} (hx : Located it.ht p x)
    (hbefore : Before it.place p) :
    it.table < p.table ∨ it.table = p.table ∧ it.index.toNat < p.idx := by
  rcases hbefore with hlt | ⟨htable, hlt | ⟨hidx, hslot⟩⟩
  · exact .inl hlt
  · exact .inr ⟨htable, hlt⟩
  · exfalso
    have hdepth := lt_of_cellAt hx.2
    change it.table = p.table at htable
    change it.index.toNat = p.idx at hidx
    rw [← htable, ← hidx] at hdepth
    change 7 * it.bucket.depth + it.pos.val < _ at hslot
    change p.depth < it.chain.length at hdepth
    omega

omit h in
/-- The first position of the next chain, after the chain of `it` was left. -/
theorem Tidied.arrived (htidy : Tidied T it ht') (h : Standing T it)
    (hlast : it.chain.length ≤ it.bucket.depth + 1) (hpos : 7 ≤ it.pos.val + 1) (table : Fin 2)
    (index : Int) (seen : Nat) (hcaptured : Captured ht' table) (hnonneg : 0 ≤ index)
    (hidx : index.toNat < numBuckets (ht'.tables table).exp)
    (hahead : table = 0 → ¬ index.toNat < ht'.rehashIdx.toNat)
    (hself : ¬ (table < it.table ∨ table = it.table ∧ index.toNat ≤ it.index.toNat))
    (hnext : ∀ p x, Located it.ht p x →
      (it.table < p.table ∨ it.table = p.table ∧ it.index.toNat < p.idx ↔
      table < p.table ∨ table = p.table ∧ index.toNat ≤ p.idx))
    (hless : (it.ht.tables table).slotsFrom index.toNat +
      (if table = 0 then (it.ht.tables 1).slotsFrom 0 else 0)
      ≤ (it.ht.tables it.table).slotsFrom (it.index.toNat + 1)
        + if it.table = 0 then (it.ht.tables 1).slotsFrom 0 else 0) :
    Arrived T it ⟨ht', table, index, ⟨(ht'.tables table).addr, index.toNat, 0⟩, 0, seen⟩ := by
  obtain ⟨m, hrep⟩ := h.rep
  have hset := htidy.keeps.settings_eq
  simp only [Hashtable.settings, Prod.mk.injEq] at hset
  obtain ⟨hpause, -, hwatch, -⟩ := hset
  have hlinked := (htidy.moved.inv.ok table).linked _ hidx
  have hplace : ∀ p : Place, (table < p.table ∨ table = p.table ∧ index.toNat ≤ p.idx) ↔
      Upto ⟨table, index.toNat, 0, 0⟩ p := by
    intro p
    simp only [Upto, Fin.val_zero]
    omega
  refine ⟨⟨⟨m, hrep.of_moved htidy.moved⟩, htidy.exp_eq 0 ▸ h.alloc, ?_, ?_, hcaptured, hnonneg,
    hidx, hahead, rfl, rfl, List.length_pos_of_ne_nil hlinked.1⟩, fun p x => ?_, ?_⟩
  · rw [hpause]
    exact h.paused
  · rw [hwatch]
    exact h.watched
  · constructor
    · rintro ⟨hx, hbefore⟩
      have hlater := not_located_behind hlast hpos hx hbefore
      refine ⟨(htidy.located ?_ x).mpr hx, (hplace p).mp ((hnext p x hx).mp hlater)⟩
      rintro ⟨htable, hidx'⟩
      rw [htable, hidx'] at hlater
      omega
    · rintro ⟨hx, hupto⟩
      have hlater := (hplace p).mpr hupto
      have hx' :=
        (htidy.located (fun heq => hself (by rw [← heq.1, ← heq.2]; exact hlater)) x).mp hx
      have hback := (hnext p x hx').mpr hlater
      refine ⟨hx', ?_⟩
      rcases hback with hlt | ⟨heq, hlt⟩
      · exact .inl hlt
      · exact .inr ⟨heq, .inl hlt⟩
  · have hfrom : (ht'.tables table).slotsFrom index.toNat =
        (it.ht.tables table).slotsFrom index.toNat := by
      refine Table.slotsFrom_congr (htidy.exp_eq table) fun j hj => htidy.chains_eq table j ?_
      rintro ⟨rfl, rfl⟩
      exact hself (.inr ⟨rfl, hj⟩)
    have hsecond : (if table = 0 then (ht'.tables 1).slotsFrom 0 else 0)
        = if table = 0 then (it.ht.tables 1).slotsFrom 0 else 0 := by
      split
      · rename_i hzero
        refine Table.slotsFrom_congr (htidy.exp_eq 1) fun j _ => htidy.chains_eq 1 j ?_
        rintro ⟨hone, -⟩
        rw [hzero, ← hone] at hself
        exact hself (.inl (by decide))
      · rfl
    have hsucc := Table.slotsFrom_succ hidx
    have hdepth := h.depth_lt
    rw [hfrom] at hsucc
    simp only [Iter.remaining, Iter.chain, Fin.val_zero, hsecond] at hdepth hlast ⊢
    omega

theorem leave_spec (hlast : it.chain.length ≤ it.bucket.depth + 1)
    (hpos : 7 ≤ it.pos.val + 1) : ∃ r, it.leave = some r ∧ Turned T it r := by
  obtain ⟨m, hrep⟩ := h.rep
  obtain ⟨ht', hht', htidy⟩ := tidy_spec h
  have hnat : (it.index + 1).toNat = it.index.toNat + 1 := by
    have := h.index_nonneg
    omega
  rw [Iter.leave, hht', bind_some]
  simp only
  split
  · rename_i hend
    rw [hnat, htidy.exp_eq] at hend
    split
    · -- on to the second array
      rename_i hboth
      have hre : ht'.rehashIdx ≠ -1 := isRehashing_iff.mp hboth.1
      have hzero : it.table = 0 := hboth.2
      obtain ⟨-, -, hexp, -⟩ := htidy.moved.inv.busy hre
      have hpos' := numBuckets_pos hexp
      rw [enter_eq (show (0 : Int).toNat < _ from hpos')]
      refine (htidy.arrived h hlast hpos 1 0 _ (.inr hre) le_rfl hpos' nofun ?_ ?_ ?_).visit
      · rw [hzero]
        omega
      · intro p x hx
        have hidx := hx.1
        have htables : p.table = 0 ∨ p.table = 1 := by omega
        rw [hzero] at hend ⊢
        rcases htables with htable | htable
        · rw [htable] at hidx ⊢
          have hle : ¬ it.index.toNat < p.idx := by omega
          simp [hle]
        · rw [htable]
          simp
      · rw [hzero]
        simp
    · -- nothing is left
      rename_i hdone
      refine ⟨_, rfl, ⟨m, hrep.of_moved htidy.moved⟩, fun p x hx hbefore => ?_⟩
      have hidx := hx.1
      rcases not_located_behind hlast hpos hx hbefore with hlt | ⟨heq, hlt⟩
      · obtain ⟨hzero, hone⟩ : it.table = 0 ∧ p.table = 1 := by omega
        have hidle : it.ht.rehashIdx = -1 := by
          by_contra hre
          exact hdone ⟨isRehashing_iff.mpr (by rwa [htidy.rehash_eq]), hzero⟩
        rw [hone, hrep.inv.idle hidle] at hidx
        exact absurd hidx (Nat.not_lt_zero _)
      · rw [heq] at hend
        omega
  · rename_i hmore
    rw [not_le] at hmore
    rw [enter_eq hmore]
    refine (htidy.arrived h hlast hpos it.table (it.index + 1) _
      (htidy.keeps.captured h.captured) ?_ hmore ?_ ?_ ?_ ?_).visit
    · omega
    · intro hzero
      have := h.ahead hzero
      rw [htidy.rehash_eq, hnat]
      omega
    · rw [hnat]
      omega
    · intro p x _
      rw [hnat]
      omega
    · rw [hnat]

/-- **One turn of an iterator that stands.** -/
theorem turn_spec : ∃ r, it.turn = some r ∧ Turned T it r := by
  have hstarted : ¬ (it.index = -1 ∧ it.table = 0) := by
    have := h.index_nonneg
    omega
  rw [Iter.turn, if_neg hstarted, h.chainAt_eq, bind_some]
  split
  · rename_i hchild
    exact (arrived_child h hchild.1 hchild.2).visit
  · rename_i hchild
    split
    · rename_i hpos
      exact (arrived_pos h hpos).visit
    · exact leave_spec h (by omega) (by omega)

/-! ### One call -/

/-- The places that the iterator has not visited. -/
def Iter.Ahead (it : Iter E) (p : Place) : Prop := it.index = -1 ∨ Before it.place p

theorem Standing.ahead_iff (p : Place) : it.Ahead p ↔ Before it.place p := by
  have hnonneg := h.index_nonneg
  exact or_iff_right (by omega)

omit h

/-- What `hashtableNext` comes to: the entry of the next place that holds one, or the end. -/
def Next (T : HashtableType K E) (it : Iter E) (r : Iter E × Option E) : Prop :=
  match r.2 with
  | some e => Standing T r.1 ∧ (∃ h2, Located r.1.ht r.1.place (h2, e))
      ∧ ∀ p x, Located it.ht p x ∧ it.Ahead p ↔ Located r.1.ht p x ∧ Upto r.1.place p
  | none => (∃ m, Represents T r.1.ht m) ∧ ∀ p x, Located it.ht p x → ¬ it.Ahead p

/-- Iterators with the same places ahead go on to the same. -/
theorem Next.of_rest {r : Iter E × Option E} (h : Next T it' r)
    (hrest : ∀ p x, Located it.ht p x ∧ it.Ahead p ↔ Located it'.ht p x ∧ it'.Ahead p) :
    Next T it r := by
  obtain ⟨it'', o⟩ := r
  cases o with
  | some e => exact ⟨h.1, h.2.1, fun p x => (hrest p x).trans (h.2.2 p x)⟩
  | none =>
    refine ⟨h.1, fun p x hx hahead => ?_⟩
    obtain ⟨hx', hahead'⟩ := (hrest p x).mp ⟨hx, hahead⟩
    exact h.2 p x hx' hahead'

/-- What is at a place or behind it is behind it, if the place is empty. -/
theorem located_upto_iff (hnone : ∀ x, ¬ Located it.ht it.place x) (p : Place) (x : BitVec 8 × E) :
    Located it.ht p x ∧ Upto it.place p ↔ Located it.ht p x ∧ Before it.place p := by
  refine and_congr_right fun hx => ?_
  rw [upto_iff]
  refine or_iff_right ?_
  rintro rfl
  exact hnone x hx

theorem nextFrom_spec (fuel : Nat) (h : Standing T it) (hfuel : it.remaining < fuel) :
    ∃ r, it.nextFrom fuel = some r ∧ Next T it r := by
  induction fuel generalizing it with
  | zero => omega
  | succ fuel ih =>
    obtain ⟨⟨it₁, v⟩, hturn, hturned⟩ := turn_spec h
    rw [Iter.nextFrom, hturn, bind_some]
    cases v with
    | again =>
      obtain ⟨harrived, hnone⟩ := hturned
      have hless := harrived.less
      obtain ⟨r, hnext, hspec⟩ := ih harrived.standing (by omega)
      refine ⟨r, hnext, hspec.of_rest fun p x => ?_⟩
      rw [h.ahead_iff, harrived.standing.ahead_iff, harrived.rest, located_upto_iff hnone]
    | found e =>
      obtain ⟨harrived, hx⟩ := hturned
      refine ⟨(it₁, some e), rfl, harrived.standing, hx, fun p x => ?_⟩
      rw [h.ahead_iff]
      exact harrived.rest p x
    | finished =>
      obtain ⟨hrep, hnone⟩ := hturned
      refine ⟨(it₁, none), rfl, hrep, fun p x hx => ?_⟩
      rw [h.ahead_iff]
      exact hnone p x hx

/-- An iterator whose first step is still to come. -/
structure Fresh (T : HashtableType K E) (it : Iter E) : Prop where
  rep : ∃ m, Represents T it.ht m
  watched : it.ht.safeIterators ≠ 0
  pause : 0 ≤ it.ht.pauseRehash ∧ it.ht.pauseRehash + 1 < 2 ^ 15
  index_eq : it.index = -1
  table_eq : it.table = 0

/-- **The first call.** -/
theorem Fresh.next_spec (h : Fresh T it) : ∃ r, hashtableNext it = some r ∧ Next T it r := by
  obtain ⟨ht, table, first, bucket, pos, seen⟩ := it
  obtain rfl : first = -1 := h.index_eq
  obtain rfl : table = 0 := h.table_eq
  obtain ⟨m, hrep⟩ := h.rep
  obtain ⟨hpause, hlt⟩ := h.pause
  change Represents T ht m at hrep
  change 0 ≤ ht.pauseRehash at hpause
  change ht.pauseRehash + 1 < 2 ^ 15 at hlt
  have hinv : Inv T (hashtablePauseRehashing ht) := hrep.inv.of_tables rfl rfl rfl
  have hpaused : Represents T (hashtablePauseRehashing ht) m := by
    refine ⟨hinv, hrep.holds.of_items rfl, ?_, i16_range _⟩
    exact congrArg (fun n => i16 (n + 1)) hrep.paired
  have hself : i16 (ht.pauseRehash + 1) = ht.pauseRehash + 1 := i16_of_range ⟨by omega, hlt⟩
  rw [hashtableNext, Iter.nextFrom, Iter.turn, if_pos ⟨rfl, rfl⟩]
  simp only
  split
  · rename_i hnull
    refine ⟨_, rfl, ⟨m, hpaused⟩, fun p x hx => ?_⟩
    exfalso
    have halloc := hrep.inv.alloc_of_size fun hzero => notMem_items hrep.inv hzero x hx.mem
    exact halloc hnull
  · rename_i halloc
    -- the chains before the first index were moved
    obtain ⟨index, hindex, hnonneg, hidx, hahead, hskip⟩ : ∃ index : Int,
        (if (hashtablePauseRehashing ht).isRehashing = true
          then (hashtablePauseRehashing ht).rehashIdx else 0) = index ∧ 0 ≤ index ∧
        index.toNat < numBuckets ((hashtablePauseRehashing ht).tables 0).exp
        ∧ ¬ index.toNat < (hashtablePauseRehashing ht).rehashIdx.toNat
        ∧ ∀ i < index.toNat, i < (hashtablePauseRehashing ht).rehashIdx.toNat := by
      refine ⟨_, rfl, ?_⟩
      split
      · rename_i hre
        obtain ⟨hnonneg, hlt', -⟩ := hinv.busy (isRehashing_iff.mp hre)
        exact ⟨hnonneg, hlt', lt_irrefl _, fun i hi => hi⟩
      · rename_i hre
        have hidle := not_isRehashing_iff.mp (Bool.eq_false_iff.mpr hre)
        refine ⟨le_rfl, numBuckets_pos halloc, ?_, nofun⟩
        rw [hidle]
        exact Nat.not_lt_zero _
    rw [hindex, enter_eq hidx]
    generalize hit : (⟨hashtablePauseRehashing ht, 0, index,
      ⟨((hashtablePauseRehashing ht).tables 0).addr, index.toNat, 0⟩, 0,
      ((hashtablePauseRehashing ht).tables 0).used⟩ : Iter E) = it'
    have hstanding : Standing T it' := by
      subst hit
      refine ⟨⟨m, hpaused⟩, halloc, ?_, h.watched, .inl rfl, hnonneg, hidx, fun _ => hahead, rfl,
        rfl, ?_⟩
      · change 0 < i16 (ht.pauseRehash + 1)
        omega
      · exact List.length_pos_of_ne_nil ((hinv.ok 0).linked _ hidx).1
    have hall : ∀ p x, Located ht p x → Located it'.ht p x ∧ Upto it'.place p := by
      intro p x hx
      subst hit
      refine ⟨hx, ?_⟩
      by_cases hzero : p.table = 0
      · refine .inr ⟨hzero.symm, ?_⟩
        have hbehind := hrep.inv.not_behind hx hzero
        have hle : ¬ p.idx < index.toNat := fun hlt' => hbehind (hskip p.idx hlt')
        change index.toNat < p.idx ∨ index.toNat = p.idx ∧ 7 * 0 + 0 ≤ _
        omega
      · left
        change (0 : Fin 2) < p.table
        omega
    have hback : ∀ p x, Located it'.ht p x → Located ht p x := by
      subst hit
      exact fun p x hx => hx
    have hrest : ∀ p x, Located ht p x ∧ (⟨ht, 0, -1, bucket, pos, seen⟩ : Iter E).Ahead p ↔
        Located it'.ht p x ∧ Upto it'.place p :=
      fun p x => ⟨fun hx => hall p x hx.1, fun hx => ⟨hback p x hx.1, .inl rfl⟩⟩
    obtain ⟨v, hv, ⟨rfl, hnone⟩ | ⟨h2, e, rfl, hx⟩⟩ := hstanding.visit_spec
    · rw [hv, bind_some]
      have hslots : it'.ht.slots = ht.slots := by
        subst hit
        rfl
      have hremaining := hstanding.remaining_le
      obtain ⟨r, hnext, hspec⟩ := nextFrom_spec (ht.slots + 1) hstanding (by omega)
      refine ⟨r, hnext, hspec.of_rest fun p x => ?_⟩
      rw [hstanding.ahead_iff, ← located_upto_iff hnone, ← hrest]
    · rw [hv, bind_some]
      exact ⟨(it', some e), rfl, hstanding, ⟨h2, hx⟩, hrest⟩

theorem Standing.next_spec (h : Standing T it) : ∃ r, hashtableNext it = some r ∧ Next T it r := by
  have hle := h.remaining_le
  exact nextFrom_spec _ h (by omega)

end NexCache.HashTables
