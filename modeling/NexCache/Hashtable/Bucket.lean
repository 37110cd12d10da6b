import NexCache.Lib.Cells

/-!
# Buckets and bucket chains (hashtable.c)

A bucket has seven positions.  The `presence` bits say which positions hold an
entry, `hashes` keeps the high byte of the hash of each entry, and a bucket
whose `chained` bit is set uses its last position for a pointer to a child
bucket.  A chain is the list of buckets reached from a top-level bucket, so a
bucket is chained exactly when it is not the last of the list, and `Linked`
says that the last position of a chained bucket holds no entry.

What a chain stores is the multiset `stored c`.  Every function that moves
entries inside a chain is given by what it does to `stored` and to the length.
-/

namespace NexCache.HashTables

open Function List
open Option hiding all all_eq_false
open Multiset hiding filterMap filterMap_cons

scoped instance neZero_two : @NeZero Nat Zero.ofOfNat0 2 := ⟨Nat.succ_ne_zero 1⟩

scoped instance neZero_seven : @NeZero Nat Zero.ofOfNat0 7 := ⟨Nat.succ_ne_zero 6⟩

variable {E : Type*}

/-! ### One bucket -/

structure Bucket (E : Type*) where
  hashes : Fin 7 → BitVec 8
  /-- `none` is a cleared presence bit. -/
  entries : Fin 7 → Option E

namespace Bucket

def empty : Bucket E := ⟨fun _ => 0, fun _ => none⟩

/-- What a position holds: the stored hash bits and the entry. -/
def cell (b : Bucket E) (pos : Fin 7) : Option (BitVec 8 × E) :=
  (b.entries pos).map fun e => (b.hashes pos, e)

def isPositionFilled (b : Bucket E) (pos : Fin 7) : Bool := (b.entries pos).isSome

def put (b : Bucket E) (pos : Fin 7) (x : BitVec 8 × E) : Bucket E :=
  ⟨update b.hashes pos x.1, update b.entries pos (some x.2)⟩

def clear (b : Bucket E) (pos : Fin 7) : Bucket E :=
  { b with entries := update b.entries pos none }

/-- `__builtin_popcount(b->presence)` -/
def popcount (b : Bucket E) : Nat := ((finRange 7).filter b.isPositionFilled).length

/-- `__builtin_ctz(b->presence)`, `none` when no position is filled. -/
def lowest (b : Bucket E) : Option (Fin 7) := (finRange 7).find? b.isPositionFilled

/-- The first free position of `findBucketForInsert`. -/
def firstFree (b : Bucket E) : Option (Fin 7) :=
  (finRange 7).find? fun pos => !b.isPositionFilled pos

/-- The entries of a bucket, with their stored hash bits. -/
def stored (b : Bucket E) : Multiset (BitVec 8 × E) := Cells.contents Finset.univ b.cell

end Bucket

def numBucketPositions (chained : Bool) : Nat := 7 - if chained then 1 else 0

/-- `presence == (1 << numBucketPositions(b)) - 1` -/
def bucketIsFull (b : Bucket E) (chained : Bool) : Bool :=
  (finRange 7).all fun pos =>
    b.isPositionFilled pos == decide (pos.val < numBucketPositions chained)

namespace Bucket

theorem cell_put (b : Bucket E) (pos : Fin 7) (x : BitVec 8 × E) :
    (b.put pos x).cell = update b.cell pos (some x) := by
  funext i
  by_cases hi : i = pos
  · subst hi
    simp [cell, put]
  · simp [cell, put, hi]

theorem cell_clear (b : Bucket E) (pos : Fin 7) : (b.clear pos).cell = update b.cell pos none := by
  funext i
  by_cases hi : i = pos
  · subst hi
    simp [cell, clear]
  · simp [cell, clear, hi]

variable {b : Bucket E} {pos : Fin 7} {x : BitVec 8 × E} {chained : Bool}

theorem cell_eq_some : b.cell pos = some x ↔ b.hashes pos = x.1 ∧ b.entries pos = some x.2 := by
  obtain ⟨h, e⟩ := x
  cases he : b.entries pos with
  | none => simp [cell, he]
  | some a =>
    simp only [cell, he, map_some, some.injEq, Prod.mk.injEq]

theorem filled_iff : b.isPositionFilled pos = true ↔ ∃ x, b.cell pos = some x := by
  cases he : b.entries pos with
  | none | some a => simp [isPositionFilled, cell, he]

theorem not_filled_iff : b.isPositionFilled pos = false ↔ b.cell pos = none := by
  cases he : b.entries pos with
  | none | some a => simp [isPositionFilled, cell, he]

@[simp] theorem stored_empty : (empty : Bucket E).stored = 0 :=
  Cells.contents_empty Finset.univ

theorem mem_stored : x ∈ b.stored ↔ ∃ pos, b.cell pos = some x := by
  simp [stored, Cells.mem_contents]

theorem stored_put (h : b.cell pos = none) (x : BitVec 8 × E) :
    (b.put pos x).stored = x ::ₘ b.stored := by
  rw [stored, cell_put]
  exact Cells.contents_fill (Finset.mem_univ pos) h x

theorem stored_clear (h : b.cell pos = some x) : b.stored = x ::ₘ (b.clear pos).stored := by
  rw [stored, stored, cell_clear]
  exact Cells.contents_clear (Finset.mem_univ pos) h

theorem lowest_eq_some (h : b.lowest = some pos) : ∃ x, b.cell pos = some x :=
  filled_iff.mp (find?_some h)

theorem lowest_eq_none (h : b.lowest = none) : b.stored = 0 := by
  refine eq_zero_of_forall_notMem fun x hx => ?_
  obtain ⟨pos, hpos⟩ := mem_stored.mp hx
  have hfree := find?_eq_none.mp h pos (mem_finRange pos)
  exact hfree (filled_iff.mpr ⟨x, hpos⟩)

/-- Reading the positions in order gives the entries. -/
theorem stored_eq (b : Bucket E) :
    b.stored = ((finRange 7).filterMap b.cell : Multiset (BitVec 8 × E)) := by
  rw [stored, ← Cells.contents_toFinset (nodup_finRange 7)]
  congr 1

theorem popcount_eq (b : Bucket E) : b.popcount = b.stored.card := by
  rw [stored_eq, coe_card, popcount]
  induction finRange 7 with
  | nil => rfl
  | cons i l ih =>
    rw [filter_cons, filterMap_cons]
    cases hc : b.cell i with
    | none => simpa [not_filled_iff.mpr hc] using ih
    | some x => simpa [filled_iff.mpr ⟨x, hc⟩] using ih

/-- Clearing the only entry of a bucket leaves it empty. -/
theorem stored_clear_of_popcount_le (h : b.cell pos = some x)
    (hle : b.popcount ≤ 1) : b.stored = {x} := by
  rw [popcount_eq, stored_clear h, card_cons] at hle
  have hzero : (b.clear pos).stored = 0 := card_eq_zero.mp (by omega)
  rw [stored_clear h, hzero]
  rfl

theorem firstFree_eq_some (h : b.firstFree = some pos) : b.cell pos = none := by
  have hfree := find?_some h
  rw [Bool.not_eq_true'] at hfree
  exact not_filled_iff.mp hfree

/-- The search for a free position passes filled ones only. -/
theorem filled_of_lt_firstFree {pos q : Fin 7} (h : b.firstFree = some pos)
    (hq : q < pos) : b.cell q ≠ none := by
  obtain ⟨-, as, bs, hsplit, hbefore⟩ := find?_eq_some_iff_append.mp h
  have hpw : (as ++ pos :: bs).Pairwise (· < ·) := hsplit ▸ pairwise_lt_finRange 7
  have hin : q ∈ as ++ pos :: bs := hsplit ▸ mem_finRange q
  have hmem : q ∈ as := by
    rcases mem_append.mp hin with hq' | hq'
    · exact hq'
    · rcases mem_cons.mp hq' with rfl | hq'
      · exact absurd hq (lt_irrefl q)
      · have hgt := (pairwise_cons.mp (pairwise_append.mp hpw).2.1).1 q hq'
        exact absurd hq (not_lt_of_gt hgt)
  intro hnone
  simpa [not_filled_iff.mpr hnone] using hbefore q hmem

/-- What is missing in a bucket that is not full is below its link. -/
theorem exists_free_of_not_full (hfull : bucketIsFull b chained = false)
    (hlink : chained = true → b.cell 6 = none) :
    ∃ pos : Fin 7, b.cell pos = none ∧ (chained = true → pos < 6) := by
  rw [bucketIsFull, all_eq_false] at hfull
  obtain ⟨pos, -, hpos⟩ := hfull
  cases hc : b.cell pos with
  | none =>
    rw [not_filled_iff.mpr hc] at hpos
    refine ⟨pos, hc, fun ht => ?_⟩
    have hlt : pos.val < 6 := by simpa [ht, numBucketPositions] using hpos
    exact hlt
  | some x =>
    rw [filled_iff.mpr ⟨x, hc⟩] at hpos
    cases chained with
    | false =>
      simp only [numBucketPositions, Bool.false_eq_true, if_false, Nat.sub_zero, pos.isLt,
        decide_true, beq_self_eq_true, not_true] at hpos
    | true =>
      have hge : ¬ pos.val < 6 := by simpa [numBucketPositions] using hpos
      have hsix : pos = 6 := Fin.ext (by have := pos.isLt; omega)
      rw [hsix, hlink rfl] at hc
      cases hc

theorem firstFree_of_not_full (hfull : bucketIsFull b chained = false)
    (hlink : chained = true → b.cell 6 = none) :
    ∃ pos, b.firstFree = some pos ∧ (chained = true → pos ≠ 6) := by
  obtain ⟨q, hq, hlt⟩ := exists_free_of_not_full hfull hlink
  cases hf : b.firstFree with
  | none =>
    have hall := find?_eq_none.mp hf q (mem_finRange q)
    simp [not_filled_iff.mpr hq] at hall
  | some first =>
    refine ⟨first, rfl, fun ht hsix => ?_⟩
    exact filled_of_lt_firstFree hf (hsix ▸ hlt ht) hq

/-- A full bucket without a child has an entry in every position. -/
theorem cell_of_full (hfull : bucketIsFull b false = true) (pos : Fin 7) :
    ∃ x, b.cell pos = some x := by
  have hall := all_eq_true.mp hfull pos (mem_finRange pos)
  rw [beq_iff_eq] at hall
  refine filled_iff.mp (hall.trans (decide_eq_true ?_))
  exact pos.isLt

end Bucket

/-! ### Bucket chains -/

/-- The buckets from a top-level bucket to the last child. -/
abbrev Chain (E : Type*) := List (Bucket E)

/-- The position of a chained bucket that holds the link holds no entry. -/
def Linked (c : Chain E) : Prop := c ≠ [] ∧ ∀ b ∈ c.dropLast, b.cell 6 = none

/-- The entries of a chain, with their stored hash bits. -/
def stored (c : Chain E) : Multiset (BitVec 8 × E) := (c.map Bucket.stored).sum

/-- What a place of a chain, a bucket and a position in it, holds. -/
def cellAt (chain : Chain E) (depth : Nat) (pos : Fin 7) : Option (BitVec 8 × E) :=
  chain[depth]?.bind (·.cell pos)

/-- A place that an entry can be written to. -/
def FreeAt (c : Chain E) (depth : Nat) (pos : Fin 7) : Prop :=
  depth < c.length ∧ cellAt c depth pos = none ∧ (depth + 1 < c.length → pos ≠ 6)

def putAt (c : Chain E) (depth : Nat) (pos : Fin 7) (x : BitVec 8 × E) : Chain E :=
  c.modify depth (·.put pos x)

def clearAt (c : Chain E) (depth : Nat) (pos : Fin 7) : Chain E := c.modify depth (·.clear pos)

/-- `checkCandidateInBucket` on the filled positions in order. -/
def findInBucket (p : BitVec 8 → E → Bool) (b : Bucket E) : Option (Fin 7 × E) :=
  (finRange 7).findSome? fun pos =>
    (b.cell pos).bind fun x => if p x.1 x.2 then some (pos, x.2) else none

/-- The walk along a chain that stops at the first entry accepted. -/
def findInChain (p : BitVec 8 → E → Bool) : Chain E → Option (Nat × Fin 7 × E)
  | [] => none
  | b :: l =>
    match findInBucket p b with
    | some (pos, e) => some (0, pos, e)
    | none => (findInChain p l).map fun r => (r.1 + 1, r.2)

/-- Where `findBucketForInsert` stops in a chain. -/
structure InsertPlace (E : Type*) where
  chain : Chain E
  /-- child buckets added on the way -/
  added : Nat
  depth : Nat
  pos : Fin 7

/-- The last entry of a full bucket moves to the first position of a new child. -/
def bucketConvertToChained (b : Bucket E) : Option (Chain E) :=
  (b.cell 6).map fun x => [b.clear 6, Bucket.empty.put 0 x]

def findPlaceForInsert : Chain E → Option (InsertPlace E)
  | [] => none
  | [b] =>
    if bucketIsFull b false then
      -- the child has one entry, so the walk ends there
      (bucketConvertToChained b).bind fun chain =>
        (chain[1]?.bind Bucket.firstFree).map fun pos => ⟨chain, 1, 1, pos⟩
    else b.firstFree.map fun pos => ⟨[b], 0, 0, pos⟩
  | b :: b' :: l =>
    if bucketIsFull b true then
      (findPlaceForInsert (b' :: l)).map fun r =>
        { r with chain := b :: r.chain, depth := r.depth + 1 }
    else b.firstFree.map fun pos => ⟨b :: b' :: l, 0, 0, pos⟩

/-- The before-last bucket takes the place of its link for the entry left in the
last bucket, and the last bucket is freed. -/
def pruneLastBucket : Chain E → Option (Chain E)
  | [beforeLast, last] =>
    if beforeLast.isPositionFilled 6 || decide (1 < last.popcount) then none
    else match last.lowest with
      | none => some [beforeLast]
      | some pos => (last.cell pos).map fun x => [beforeLast.put 6 x]
  | b :: b' :: b'' :: l => (pruneLastBucket (b' :: b'' :: l)).map (b :: ·)
  | _ => none

/-- The first entry of the last bucket, taken out of it. -/
def takeFromLast : Chain E → Option (BitVec 8 × E) × Chain E
  | [] => (none, [])
  | [last] =>
    match last.lowest with
    | none => (none, [last])
    | some pos => (last.cell pos, [last.clear pos])
  | b :: b' :: l => ((takeFromLast (b' :: l)).1, b :: (takeFromLast (b' :: l)).2)

/-- The chain starts at the bucket with the hole.  The number of freed buckets is
returned with the chain. -/
def fillBucketHole (pos : Fin 7) : Chain E → Option (Chain E × Nat)
  | b :: b' :: l =>
    if b.isPositionFilled pos then none
    else
      let taken := takeFromLast (b' :: l)
      let head := taken.1.elim b (b.put pos)
      if (taken.2.getLastD Bucket.empty).popcount ≤ 1 then
        (pruneLastBucket (head :: taken.2)).map fun c => (c, 1)
      else some (head :: taken.2, 0)
  | _ => none

/-- `fillBucketHole` for a bucket in the middle of a chain. -/
def fillHoleAt (c : Chain E) (depth : Nat) (pos : Fin 7) : Option (Chain E × Nat) :=
  (fillBucketHole pos (c.drop depth)).map fun r => (c.take depth ++ r.1, r.2)

/-- The loop of `compactBucketChain` over the positions of a bucket; it ends when
the bucket has lost its child. -/
def fillHoles : List (Fin 7) → Chain E → Option (Chain E × Nat)
  | pos :: ps, b :: b' :: l =>
    if b.isPositionFilled pos then fillHoles ps (b :: b' :: l)
    else
      (fillBucketHole pos (b :: b' :: l)).bind fun r =>
        (fillHoles ps r.1).map fun r' => (r'.1, r.2 + r'.2)
  | _, c => some (c, 0)

/-- `fuel` bounds the turns of the loop; the length of the chain is enough. -/
def compactFrom : Nat → Chain E → Option (Chain E × Nat)
  | 0, _ :: _ :: _ => none
  | fuel + 1, b :: next :: l =>
    if !l.isEmpty && next.popcount == 0 then
      (compactFrom fuel (b :: l)).map fun r => (r.1, r.2 + 1)
    else if l.isEmpty && decide (next.popcount ≤ 1) then
      (pruneLastBucket [b, next]).map fun c => (c, 1)
    else
      (if b.popcount < 6 then fillHoles [0, 1, 2, 3, 4, 5] (b :: next :: l)
        else some (b :: next :: l, 0)).bind fun r =>
      match r.1 with
      | b' :: next' :: l' =>
        (compactFrom fuel (next' :: l')).map fun r' => (b' :: r'.1, r.2 + r'.2)
      | c => some (c, r.2)
  | _, c => some (c, 0)

/-- `compactBucketChain`, with the number of freed buckets. -/
def compactChain (c : Chain E) : Option (Chain E × Nat) := compactFrom c.length c

/-! ### Places of a chain -/

@[simp] theorem stored_nil : stored ([] : Chain E) = 0 := rfl

@[simp] theorem stored_cons (b : Bucket E) (c : Chain E) :
    stored (b :: c) = b.stored + stored c := by
  simp [stored]

@[simp] theorem stored_append (c c' : Chain E) : stored (c ++ c') = stored c + stored c' := by
  simp [stored]

variable {c : Chain E} {x : BitVec 8 × E} {b : Bucket E}

theorem mem_stored : x ∈ stored c ↔ ∃ depth pos, cellAt c depth pos = some x := by
  induction c with
  | nil => simp [cellAt]
  | cons b l ih =>
    rw [stored_cons, mem_add, ih, Bucket.mem_stored]
    constructor
    · rintro (⟨pos, h⟩ | ⟨depth, pos, h⟩)
      · exact ⟨0, pos, h⟩
      · exact ⟨depth + 1, pos, h⟩
    · rintro ⟨depth, pos, h⟩
      cases depth with
      | zero => exact .inl ⟨pos, h⟩
      | succ depth => exact .inr ⟨depth, pos, h⟩

@[simp] theorem linked_singleton (b : Bucket E) : Linked [b] := by
  simp [Linked]

theorem linked_cons (hc : c ≠ []) : Linked (b :: c) ↔ b.cell 6 = none ∧ Linked c := by
  obtain ⟨b', l, rfl⟩ := exists_cons_of_ne_nil hc
  simp [Linked]

theorem linked_append {pre c : Chain E} (hc : c ≠ []) :
    Linked (pre ++ c) ↔ (∀ b ∈ pre, b.cell 6 = none) ∧ Linked c := by
  induction pre with
  | nil => simp
  | cons a l ih =>
    rw [cons_append, linked_cons (by simp [hc]), ih]
    simp [and_assoc]

variable {depth : Nat} {pos : Fin 7} {pre post : Chain E}

/-- A chain read at one of its buckets. -/
theorem exists_split (h : depth < c.length) :
    ∃ pre b post, c = pre ++ b :: post ∧ pre.length = depth := by
  refine ⟨c.take depth, c.get ⟨depth, h⟩, c.drop (depth + 1), ?_, by simp [h.le]⟩
  rw [get_eq_getElem, cons_getElem_drop_succ, take_append_drop]

theorem cellAt_split (pre post : Chain E) (b : Bucket E) (pos : Fin 7) :
    cellAt (pre ++ b :: post) pre.length pos = b.cell pos := by
  simp [cellAt]

theorem modify_split (pre post : Chain E) (b : Bucket E) (f : Bucket E → Bucket E) :
    (pre ++ b :: post).modify pre.length f = pre ++ f b :: post := by
  rw [modify_eq_take_cons_drop (by simp)]
  simp

theorem linked_split {b b' : Bucket E}
    (h : Linked (pre ++ b :: post)) (hlink : post ≠ [] → b'.cell 6 = none) :
    Linked (pre ++ b' :: post) := by
  rw [linked_append (by simp)] at h ⊢
  refine ⟨h.1, ?_⟩
  by_cases hpost : post = []
  · subst hpost
    exact linked_singleton b'
  · exact (linked_cons hpost).mpr ⟨hlink hpost, ((linked_cons hpost).mp h.2).2⟩

/-- Only the last bucket of a chain can have an entry in its last position. -/
theorem Linked.cell_six (h : Linked (pre ++ b :: post)) (hpost : post ≠ []) : b.cell 6 = none :=
  ((linked_cons hpost).mp ((linked_append (by simp)).mp h).2).1

theorem putAt_spec (hc : Linked c) (h : FreeAt c depth pos) (x : BitVec 8 × E) :
    Linked (putAt c depth pos x) ∧ stored (putAt c depth pos x) = x ::ₘ stored c := by
  obtain ⟨hlt, hfree, hlink⟩ := h
  obtain ⟨pre, b, post, rfl, rfl⟩ := exists_split hlt
  rw [cellAt_split] at hfree
  rw [putAt, modify_split]
  constructor
  · refine linked_split hc fun hpost => ?_
    have hpos : pos ≠ 6 := hlink (by
      have := length_pos_of_ne_nil hpost
      simp only [length_append, length_cons]
      omega)
    rw [Bucket.cell_put, update_of_ne hpos.symm]
    exact hc.cell_six hpost
  · rw [stored_append, stored_cons, stored_append, stored_cons, Bucket.stored_put hfree]
    simp only [cons_add, add_cons]

theorem lt_of_cellAt (h : cellAt c depth pos = some x) : depth < c.length := by
  obtain ⟨b, hb, -⟩ := bind_eq_some_iff.mp h
  exact (List.getElem?_eq_some_iff.mp hb).1

theorem clearAt_spec (hc : Linked c) (h : cellAt c depth pos = some x) :
    Linked (clearAt c depth pos) ∧ stored c = x ::ₘ stored (clearAt c depth pos)
      ∧ FreeAt (clearAt c depth pos) depth pos := by
  obtain ⟨pre, b, post, rfl, rfl⟩ := exists_split (lt_of_cellAt h)
  rw [cellAt_split] at h
  rw [clearAt, modify_split]
  refine ⟨linked_split hc fun hpost => ?_, ?_, by simp, ?_, ?_⟩
  · rw [Bucket.cell_clear, update_apply]
    split
    · rfl
    · exact hc.cell_six hpost
  · rw [stored_append, stored_cons, stored_append, stored_cons, Bucket.stored_clear h]
    simp only [cons_add, add_cons]
  · rw [cellAt_split, Bucket.cell_clear, update_self]
  · intro hlast hsix
    have hpost : post ≠ [] := by
      rintro rfl
      simp at hlast
    rw [hsix, hc.cell_six hpost] at h
    cases h

@[simp] theorem length_putAt (c : Chain E) (depth : Nat) (pos : Fin 7) (x : BitVec 8 × E) :
    (putAt c depth pos x).length = c.length := length_modify ..

@[simp] theorem length_clearAt (c : Chain E) (depth : Nat) (pos : Fin 7) :
    (clearAt c depth pos).length = c.length := length_modify ..

/-! ### Searching a chain -/

section Search

variable {p : BitVec 8 → E → Bool}

theorem findInBucket_some {e : E} (h : findInBucket p b = some (pos, e)) :
    ∃ hb, b.cell pos = some (hb, e) ∧ p hb e = true := by
  obtain ⟨q, -, hq⟩ := exists_of_findSome?_eq_some h
  obtain ⟨⟨hb, a⟩, hcell, ha⟩ := bind_eq_some_iff.mp hq
  split at ha
  · rename_i hp
    cases ha
    exact ⟨hb, hcell, hp⟩
  · cases ha

theorem findInBucket_none (h : findInBucket p b = none) (hx : x ∈ b.stored) :
    p x.1 x.2 = false := by
  obtain ⟨pos, hpos⟩ := Bucket.mem_stored.mp hx
  have hnone := findSome?_eq_none_iff.mp h pos (mem_finRange pos)
  rw [hpos, bind_some] at hnone
  split at hnone
  · cases hnone
  · rename_i hp
    exact Bool.eq_false_iff.mpr hp

theorem findInChain_some {c : Chain E} {depth : Nat} {e : E}
    (h : findInChain p c = some (depth, pos, e)) :
    ∃ hb, cellAt c depth pos = some (hb, e) ∧ p hb e = true := by
  induction c generalizing depth with
  | nil => cases h
  | cons b l ih =>
    rw [findInChain] at h
    split at h
    · rename_i pos' e' hb
      cases h
      exact findInBucket_some hb
    · obtain ⟨⟨d, pos', e'⟩, hr, heq⟩ := map_eq_some_iff.mp h
      cases heq
      exact ih hr

theorem findInChain_none {c : Chain E} (h : findInChain p c = none)
    (hx : x ∈ stored c) : p x.1 x.2 = false := by
  induction c with
  | nil => simp at hx
  | cons b l ih =>
    rw [findInChain] at h
    split at h
    · cases h
    · rename_i hb
      rcases mem_add.mp (stored_cons b l ▸ hx) with hx | hx
      · exact findInBucket_none hb hx
      · exact ih (map_eq_none_iff.mp h) hx

end Search

/-! ### A place for a new entry -/

/-- A full bucket and its new child hold what the bucket held, and the child has room. -/
theorem bucketConvertToChained_spec (h : bucketIsFull b false = true) :
    ∃ b' child pos, bucketConvertToChained b = some [b', child] ∧ b'.cell 6 = none
      ∧ b'.stored + child.stored = b.stored ∧ child.firstFree = some pos ∧
      child.cell pos = none := by
  obtain ⟨x, hx⟩ := Bucket.cell_of_full h 6
  have hone : (Bucket.empty.put 0 x : Bucket E).firstFree = some 1 := by
    rfl
  refine ⟨b.clear 6, Bucket.empty.put 0 x, 1, by rw [bucketConvertToChained, hx]; rfl, ?_, ?_, hone,
    Bucket.firstFree_eq_some hone⟩
  · rw [Bucket.cell_clear, update_self]
  · rw [Bucket.stored_put rfl, Bucket.stored_clear hx, Bucket.stored_empty, cons_zero,
      add_comm, singleton_add]

variable {c : Chain E} {r : Chain E × Nat}

theorem findPlaceForInsert_spec (hc : Linked c) :
    ∃ r, findPlaceForInsert c = some r ∧ Linked r.chain ∧ stored r.chain = stored c
      ∧ r.chain.length = c.length + r.added ∧ FreeAt r.chain r.depth r.pos := by
  fun_induction findPlaceForInsert c with
  | case1 => exact absurd rfl hc.1
  | case2 b hfull =>
    obtain ⟨b', child, pos, hconv, hlink, hsum, hpos, hfree⟩ := bucketConvertToChained_spec hfull
    refine ⟨⟨[b', child], 1, 1, pos⟩, by simp [hconv, hpos], ?_, ?_, rfl, by simp, hfree, by simp⟩
    · exact (linked_cons (by simp)).mpr ⟨hlink, linked_singleton child⟩
    · simpa using hsum
  | case3 b hfull =>
    obtain ⟨pos, hpos, -⟩ := Bucket.firstFree_of_not_full (Bool.eq_false_iff.mpr hfull) (by simp)
    exact ⟨⟨[b], 0, 0, pos⟩, by simp [hpos], hc, rfl, rfl, by simp, Bucket.firstFree_eq_some hpos,
      by simp⟩
  | case4 b b' l hfull ih =>
    obtain ⟨hlink, hrest⟩ := (linked_cons (by simp)).mp hc
    obtain ⟨r, hr, hlinked, hstored, hlen, hlt, hfree, hlast⟩ := ih hrest
    refine ⟨{ r with chain := b :: r.chain, depth := r.depth + 1 }, by rw [hr]; rfl,
      (linked_cons hlinked.1).mpr ⟨hlink, hlinked⟩, ?_, ?_, ?_, hfree, ?_⟩
    · rw [stored_cons, stored_cons, hstored]
    · simp only [length_cons] at hlen ⊢
      omega
    · simpa using hlt
    · simpa using hlast
  | case5 b b' l hfull =>
    obtain ⟨hlink, -⟩ := (linked_cons (by simp)).mp hc
    obtain ⟨pos, hpos, hne⟩ :=
      Bucket.firstFree_of_not_full (Bool.eq_false_iff.mpr hfull) fun _ => hlink
    exact ⟨⟨b :: b' :: l, 0, 0, pos⟩, by simp [hpos], hc, rfl, rfl, by simp,
      Bucket.firstFree_eq_some hpos, fun _ => hne rfl⟩

/-! ### Moving entries towards the front of a chain -/

/-- The chain `r.1` holds the entries of `c` in `r.2` buckets fewer. -/
structure Rearranged (c : Chain E) (r : Chain E × Nat) : Prop where
  linked : Linked r.1
  stored_eq : stored r.1 = stored c
  length_add : r.1.length + r.2 = c.length

theorem Rearranged.refl (hc : Linked c) : Rearranged c (c, 0) := ⟨hc, rfl, rfl⟩

theorem Rearranged.trans {r r' : Chain E × Nat} (h : Rearranged c r)
    (h' : Rearranged r.1 r') : Rearranged c (r'.1, r.2 + r'.2) := by
  refine ⟨h'.linked, h'.stored_eq.trans h.stored_eq, ?_⟩
  have h1 := h.length_add
  have h2 := h'.length_add
  simp only
  omega

/-- Work on the buckets behind the first leaves the first as it is. -/
theorem Rearranged.cons (h : Rearranged c r)
    (hlink : b.cell 6 = none) : Rearranged (b :: c) (b :: r.1, r.2) := by
  refine ⟨(linked_cons h.linked.1).mpr ⟨hlink, h.linked⟩, ?_, ?_⟩
  · rw [stored_cons, stored_cons, h.stored_eq]
  · have := h.length_add
    simp only [length_cons]
    omega

theorem Rearranged.append {pre c : Chain E} (h : Rearranged c r)
    (hlink : ∀ b ∈ pre, b.cell 6 = none) : Rearranged (pre ++ c) (pre ++ r.1, r.2) := by
  induction pre with
  | nil => exact h
  | cons b l ih =>
    exact (ih fun a ha => hlink a (mem_cons_of_mem b ha)).cons (hlink b mem_cons_self)

theorem pruneLastBucket_spec (hc : Linked c) (htwo : 2 ≤ c.length)
    (hle : (c.getLastD Bucket.empty).popcount ≤ 1) :
    ∃ c', pruneLastBucket c = some c' ∧ Rearranged c (c', 1) := by
  fun_induction pruneLastBucket c with
  | case1 b last hbad =>
    obtain ⟨hlink, -⟩ := (linked_cons (by simp)).mp hc
    have hle' : last.popcount ≤ 1 := hle
    simp only [Bucket.not_filled_iff.mpr hlink, Bool.false_or, decide_eq_true_eq] at hbad
    omega
  | case2 b last hok hnone =>
    exact ⟨[b], rfl, linked_singleton b, by simp [Bucket.lowest_eq_none hnone], rfl⟩
  | case3 b last hok pos hpos =>
    obtain ⟨x, hx⟩ := Bucket.lowest_eq_some hpos
    obtain ⟨hlink, -⟩ := (linked_cons (by simp)).mp hc
    refine ⟨[b.put 6 x], by rw [hx]; rfl, linked_singleton _, ?_, rfl⟩
    have hlast : last.stored = {x} := Bucket.stored_clear_of_popcount_le hx hle
    simp only [stored_cons, stored_nil, add_zero, Bucket.stored_put hlink, hlast]
    rw [add_comm, singleton_add]
  | case4 b b' b'' l ih =>
    obtain ⟨hlink, hrest⟩ := (linked_cons (by simp)).mp hc
    obtain ⟨c', hprune, hr⟩ := ih hrest (by simp) hle
    exact ⟨b :: c', by rw [hprune]; rfl, hr.cons hlink⟩
  | case5 c h1 h2 =>
    match c, htwo with
    | [b, last], _ => exact absurd rfl (h1 b last)
    | b :: b' :: b'' :: l, _ => exact absurd rfl (h2 b b' b'' l)

theorem takeFromLast_spec (hc : Linked c) :
    Linked (takeFromLast c).2 ∧ (takeFromLast c).2.length = c.length
      ∧ stored c = (takeFromLast c).1.elim 0 (fun x => {x}) + stored (takeFromLast c).2 := by
  fun_induction takeFromLast c with
  | case1 => exact absurd rfl hc.1
  | case2 last hnone => exact ⟨hc, rfl, by simp⟩
  | case3 last pos hpos =>
    obtain ⟨x, hx⟩ := Bucket.lowest_eq_some hpos
    refine ⟨linked_singleton _, rfl, ?_⟩
    simp only [hx, elim_some, stored_cons, stored_nil, add_zero, Bucket.stored_clear hx,
      singleton_add]
  | case4 b b' l ih =>
    obtain ⟨hlink, hrest⟩ := (linked_cons (by simp)).mp hc
    obtain ⟨hlinked, hlen, hstored⟩ := ih hrest
    refine ⟨(linked_cons hlinked.1).mpr ⟨hlink, hlinked⟩, by simp [hlen], ?_⟩
    rw [stored_cons, hstored, stored_cons]
    exact add_left_comm ..

theorem fillBucketHole_spec {b b' : Bucket E} {l : Chain E}
    (hc : Linked (b :: b' :: l)) (hfree : b.cell pos = none) (hpos : pos ≠ 6) :
    ∃ r, fillBucketHole pos (b :: b' :: l) = some r ∧ Rearranged (b :: b' :: l) r := by
  obtain ⟨hlink, hrest⟩ := (linked_cons (by simp)).mp hc
  obtain ⟨hlinked, hlen, hstored⟩ := takeFromLast_spec hrest
  rw [fillBucketHole, Bucket.not_filled_iff.mpr hfree, if_neg (by simp)]
  generalize takeFromLast (b' :: l) = taken at hlinked hlen hstored ⊢
  -- the entry taken from the last bucket fills the hole, so nothing is lost
  have hmoved : Rearranged (b :: b' :: l) (taken.1.elim b (b.put pos) :: taken.2, 0) := by
    refine ⟨(linked_cons hlinked.1).mpr ⟨?_, hlinked⟩, ?_, by simp [hlen]⟩
    · cases taken.1 with
      | none => exact hlink
      | some x =>
        rw [elim_some, Bucket.cell_put, update_of_ne hpos.symm, hlink]
    · rw [stored_cons, stored_cons b, hstored]
      cases taken.1 with
      | none => simp
      | some x =>
        simp only [elim_some, Bucket.stored_put hfree, singleton_add,
          cons_add, add_cons]
  simp only
  split
  · rename_i hle
    have hlast : ((taken.1.elim b (b.put pos) :: taken.2).getLastD Bucket.empty).popcount ≤ 1 := by
      obtain ⟨a, t, ht⟩ := exists_cons_of_ne_nil hlinked.1
      rw [ht] at hle ⊢
      exact hle
    obtain ⟨c', hprune, hr⟩ := pruneLastBucket_spec hmoved.linked (by simp [hlen]) hlast
    exact ⟨(c', 1), by rw [hprune]; rfl, Rearranged.trans hmoved hr⟩
  · exact ⟨_, rfl, hmoved⟩

variable (hc : Linked c)
include hc

theorem fillHoleAt_spec {depth : Nat} (hfree : FreeAt c depth pos) (hlast : depth + 1 < c.length) :
    ∃ r, fillHoleAt c depth pos = some r ∧ Rearranged c r := by
  obtain ⟨hlt, hnone, hpos⟩ := hfree
  obtain ⟨pre, b, post, rfl, rfl⟩ := exists_split hlt
  rw [cellAt_split] at hnone
  obtain ⟨hpre, hrest⟩ := (linked_append (by simp)).mp hc
  cases post with
  | nil => simp at hlast
  | cons b' l =>
    obtain ⟨r, hfill, hr⟩ := fillBucketHole_spec hrest hnone (hpos hlast)
    refine ⟨(pre ++ r.1, r.2), ?_, hr.append hpre⟩
    rw [fillHoleAt, drop_left, hfill, take_left]
    rfl

theorem fillHoles_spec {ps : List (Fin 7)} (hps : ∀ pos ∈ ps, pos ≠ 6) :
    ∃ r, fillHoles ps c = some r ∧ Rearranged c r := by
  induction ps generalizing c with
  | nil => exact ⟨(c, 0), by simp [fillHoles], .refl hc⟩
  | cons pos ps ih =>
    have hrest : ∀ q ∈ ps, q ≠ 6 := fun q hq => hps q (mem_cons_of_mem pos hq)
    match c with
    | [] => exact absurd rfl hc.1
    | [b] => exact ⟨([b], 0), rfl, .refl hc⟩
    | b :: b' :: l =>
      rw [fillHoles]
      cases hcell : b.cell pos with
      | some x =>
        rw [if_pos (Bucket.filled_iff.mpr ⟨x, hcell⟩)]
        exact ih hc hrest
      | none =>
        rw [if_neg (by simp [Bucket.not_filled_iff.mpr hcell])]
        obtain ⟨r, hfill, hr⟩ := fillBucketHole_spec hc hcell (hps pos mem_cons_self)
        obtain ⟨r', hfills, hr'⟩ := ih hr.linked hrest
        exact ⟨(r'.1, r.2 + r'.2), by rw [hfill, bind_some, hfills]; rfl, hr.trans hr'⟩

theorem compactFrom_spec {fuel : Nat} (hfuel : c.length ≤ fuel + 1) :
    ∃ r, compactFrom fuel c = some r ∧ Rearranged c r := by
  induction fuel generalizing c with
  | zero =>
    match c with
    | [] => exact absurd rfl hc.1
    | [b] => exact ⟨([b], 0), rfl, .refl hc⟩
    | b :: b' :: l => simp at hfuel
  | succ fuel ih =>
    match c with
    | [] => exact absurd rfl hc.1
    | [b] => exact ⟨([b], 0), rfl, .refl hc⟩
    | b :: next :: l =>
      obtain ⟨hlink, hrest⟩ := (linked_cons (by simp)).mp hc
      rw [compactFrom]
      split
      · -- an empty bucket in the middle of the chain is unlinked
        rename_i hempty
        simp only [Bool.and_eq_true, Bool.not_eq_true', isEmpty_eq_false_iff,
          beq_iff_eq] at hempty
        have hzero : next.stored = 0 := by
          rw [← card_eq_zero, ← Bucket.popcount_eq, hempty.2]
        have hbl : Linked (b :: l) :=
          (linked_cons hempty.1).mpr ⟨hlink, ((linked_cons hempty.1).mp hrest).2⟩
        obtain ⟨r, hr, hre⟩ := ih hbl (by simpa using hfuel)
        refine ⟨(r.1, r.2 + 1), by rw [hr]; rfl, hre.linked, ?_, ?_⟩
        · simp only [hre.stored_eq, stored_cons, hzero, zero_add]
        · have := hre.length_add
          simp only [length_cons] at this ⊢
          omega
      · split
        · rename_i hprune
          simp only [Bool.and_eq_true, List.isEmpty_iff, decide_eq_true_eq] at hprune
          obtain ⟨rfl, hle⟩ := hprune
          obtain ⟨c', hc', hr⟩ := pruneLastBucket_spec hc (by simp) hle
          exact ⟨(c', 1), by rw [hc']; rfl, hr⟩
        · obtain ⟨r, hr, hre⟩ : ∃ r, (if b.popcount < 6 then
              fillHoles [0, 1, 2, 3, 4, 5] (b :: next :: l) else some (b :: next :: l, 0)) = some r
                ∧ Rearranged (b :: next :: l) r := by
            split
            · exact fillHoles_spec hc (by decide)
            · exact ⟨_, rfl, .refl hc⟩
          rw [hr, bind_some]
          obtain ⟨c', k⟩ := r
          match c', hre with
          | [], hre => exact absurd rfl hre.linked.1
          | [b₁], hre => exact ⟨([b₁], k), rfl, hre⟩
          | b₁ :: b₂ :: l', hre =>
            obtain ⟨hlink', hrest'⟩ := (linked_cons (by simp)).mp hre.linked
            have hshort : (b₂ :: l').length ≤ fuel + 1 := by
              have := hre.length_add
              simp only [length_cons] at this hfuel ⊢
              omega
            obtain ⟨r', hr', hre'⟩ := ih hrest' hshort
            exact ⟨(b₁ :: r'.1, k + r'.2), by simp only [hr']; rfl,
              Rearranged.trans hre (hre'.cons hlink')⟩

theorem compactChain_spec : ∃ r, compactChain c = some r ∧ Rearranged c r :=
  compactFrom_spec hc (Nat.le_succ _)

omit hc

end NexCache.HashTables
