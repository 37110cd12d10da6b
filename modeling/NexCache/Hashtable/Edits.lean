import NexCache.Hashtable.Quiet

/-!
# Where entries are while rehashing is paused

A call changes one chain, in one of four ways (`ChainEdit`).  An entry stays at its place,
with one exception: an insert into a full bucket without a child moves the entry of the last
position to the first position of a new child.  So entries only move towards the end of their
chain, and only that one step.
-/

namespace NexCache.HashTables

open Function List Option

variable {K E : Type*} {T : HashtableType K E} {ht ht' : Hashtable E} {ch : Change E}
  {c c' : Chain E} {depth depth' : Nat} {pos pos' : Fin 7} {h2 : BitVec 8} {t : Table E} {e : E}

/-! ### Reading a changed chain -/

theorem cellAt_modify (chain : Chain E) (depth depth' : Nat) (pos : Fin 7)
    (f : Bucket E → Bucket E) :
    cellAt (chain.modify depth f) depth' pos
      = if depth = depth' then chain[depth']?.bind (fun b => (f b).cell pos)
        else cellAt chain depth' pos := by
  rw [cellAt, getElem?_modify]
  split
  · rename_i heq
    subst heq
    cases chain[depth]? <;> rfl
  · rw [cellAt]
    cases chain[depth']? <;> rfl

theorem cellAt_putAt_self {depth : Nat} (h : depth < c.length) (pos : Fin 7) (x : BitVec 8 × E) :
    cellAt (putAt c depth pos x) depth pos = some x := by
  rw [putAt, cellAt_modify, if_pos rfl, getElem?_eq_getElem h, bind_some,
    Bucket.cell_put, update_self]

/-- A change of one position of one bucket leaves the other places. -/
theorem cellAt_modify_of_ne {f : Bucket E → Bucket E}
    (hf : ∀ b, pos' ≠ pos → (f b).cell pos' = b.cell pos') (h : ¬ (depth' = depth ∧ pos' = pos)) :
    cellAt (c.modify depth f) depth' pos' = cellAt c depth' pos' := by
  rw [cellAt_modify]
  split
  · rename_i heq
    subst heq
    simp only [hf _ fun hx => h ⟨rfl, hx⟩]
    rfl
  · rfl

theorem cellAt_putAt_of_ne (h : ¬ (depth' = depth ∧ pos' = pos)) (x : BitVec 8 × E) :
    cellAt (putAt c depth pos x) depth' pos' = cellAt c depth' pos' :=
  cellAt_modify_of_ne (fun b hpos => by rw [Bucket.cell_put, update_of_ne hpos]) h

theorem cellAt_clearAt_self (chain : Chain E) (depth : Nat) (pos : Fin 7) :
    cellAt (clearAt chain depth pos) depth pos = none := by
  rw [clearAt, cellAt_modify, if_pos rfl]
  cases chain[depth]? with
  | none => rfl
  | some b => rw [bind_some, Bucket.cell_clear, update_self]

theorem cellAt_clearAt_of_ne (h : ¬ (depth' = depth ∧ pos' = pos)) :
    cellAt (clearAt c depth pos) depth' pos' = cellAt c depth' pos' :=
  cellAt_modify_of_ne (fun b hpos => by rw [Bucket.cell_clear, update_of_ne hpos]) h

theorem cellAt_fresh (depth : Nat) (pos : Fin 7) :
    cellAt [(Bucket.empty : Bucket E)] depth pos = none := by
  cases depth with
  | zero => rfl
  | succ depth => rfl

/-- The last bucket is full and gets a child, or the chain is left as it is. -/
theorem findPlaceForInsert_cases {r : InsertPlace E} (hc : Linked c)
    (h : findPlaceForInsert c = some r) :
    (r.chain = c ∧ FreeAt c r.depth r.pos)
      ∨ ∃ pre b x, c = pre ++ [b] ∧ bucketIsFull b false = true ∧ b.cell 6 = some x
        ∧ r.chain = pre ++ [b.clear 6, Bucket.empty.put 0 x] ∧ r.depth = pre.length + 1 ∧
        r.pos = 1 := by
  obtain ⟨r', hr', -, -, -, hfree⟩ := findPlaceForInsert_spec hc
  obtain rfl : r' = r := mem_unique hr' h
  clear hr'
  fun_induction findPlaceForInsert c generalizing r' with
  | case1 => cases h
  | case2 b hfull =>
    obtain ⟨x, hx⟩ := Bucket.cell_of_full hfull 6
    have hone : (Bucket.empty.put 0 x : Bucket E).firstFree = some 1 := rfl
    simp only [bucketConvertToChained, hx, map_some, bind_some, getElem?_cons_succ,
      getElem?_cons_zero, hone, some.injEq] at h
    subst h
    exact .inr ⟨[], b, x, rfl, hfull, hx, rfl, rfl, rfl⟩
  | case3 b hfull | case5 b b' l hfull =>
    obtain ⟨pos, -, rfl⟩ := map_eq_some_iff.mp h
    exact .inl ⟨rfl, hfree⟩
  | case4 b b' l hfull ih =>
    obtain ⟨r, hr, rfl⟩ := map_eq_some_iff.mp h
    obtain ⟨hlink, hrest⟩ := (linked_cons (by simp)).mp hc
    have hfree' : FreeAt r.chain r.depth r.pos := by
      obtain ⟨hlt, hnone, hlast⟩ := hfree
      exact ⟨by simpa using hlt, hnone, by simpa using hlast⟩
    rcases ih hrest r hfree' hr with ⟨hchain, hf⟩
      | ⟨pre, a, x, hsplit, hf, hx, hchain, hdepth, hpos⟩
    · refine .inl ⟨by simp [hchain], ?_⟩
      rw [hchain] at hfree
      exact hfree
    · refine .inr ⟨b :: pre, a, x, by simp [hsplit], hf, hx, by simp [hchain], ?_, hpos⟩
      simp [hdepth]

/-! ### One chain -/

/-- What a call does to a chain while rehashing is paused. -/
inductive ChainEdit (T : HashtableType K E) : Change E → Chain E → Chain E → Prop
  | same (ch : Change E) (c : Chain E) : ChainEdit T ch c c
  | cleared {c : Chain E} {depth : Nat} {pos : Fin 7} {h2 : BitVec 8} {e : E}
      (h : cellAt c depth pos = some (h2, e)) : ChainEdit T (.removed e) c (clearAt c depth pos)
  | written {c : Chain E} {depth : Nat} {pos : Fin 7} {h2 : BitVec 8} {old new : E}
      (h : cellAt c depth pos = some (h2, old)) (hkey : T.entryGetKey new = T.entryGetKey old) :
      ChainEdit T (.replaced old new) c (putAt (clearAt c depth pos) depth pos (h2, new))
  | inserted {c : Chain E} {r : InsertPlace E} {h2 : BitVec 8} {e : E} (hc : Linked c)
      (h : findPlaceForInsert c = some r) :
      ChainEdit T (.added e) c (putAt r.chain r.depth r.pos (h2, e))

/-- The change does not take the entry of this key away. -/
def Spares (T : HashtableType K E) (k : K) : Change E → Prop
  | .removed e => T.entryGetKey e ≠ k
  | _ => True

/-- The bucket at `depth` is the last of the chain, and full. -/
def LastFull (chain : Chain E) (depth : Nat) : Prop :=
  depth + 1 = chain.length ∧ ∃ b, chain[depth]? = some b ∧ bucketIsFull b false = true

/-- The place an entry has after the change: the same, or the first one of a new child. -/
def Follows (c c' : Chain E) (depth : Nat) (pos : Fin 7) (depth' : Nat) (pos' : Fin 7) : Prop :=
  (depth' = depth ∧ pos' = pos)
    ∨ (pos = 6 ∧ LastFull c depth ∧ c'.length = c.length + 1 ∧ depth' = depth + 1 ∧ pos' = 0)

/-- What a place of the chain with the new child holds. -/
theorem cellAt_converted (pre : Chain E) {b : Bucket E} {x : BitVec 8 × E} (depth : Nat)
    (pos : Fin 7) : cellAt (pre ++ [b.clear 6, Bucket.empty.put 0 x]) depth pos
      = if depth = pre.length + 1 then (if pos = 0 then some x else none)
        else if depth = pre.length ∧ pos = 6 then none else cellAt (pre ++ [b]) depth pos := by
  rcases lt_trichotomy depth pre.length with hlt | rfl | hgt
  · rw [if_neg (by omega), if_neg (by omega)]
    simp only [cellAt, getElem?_append_left hlt]
  · rw [if_neg (by omega), cellAt_split]
    by_cases hpos : pos = 6
    · rw [if_pos ⟨rfl, hpos⟩, Bucket.cell_clear, hpos, update_self]
    · rw [if_neg (fun hx => hpos hx.2), cellAt_split, Bucket.cell_clear, update_of_ne hpos]
  · obtain ⟨k, rfl⟩ : ∃ k, depth = pre.length + 1 + k := ⟨depth - (pre.length + 1), by omega⟩
    cases k with
    | zero =>
      rw [if_pos rfl, cellAt, getElem?_append_right (by omega)]
      simp only [Nat.add_zero, Nat.add_sub_cancel_left, getElem?_cons_succ,
        getElem?_cons_zero, bind_some, Bucket.cell_put, update_apply]
      rfl
    | succ k =>
      rw [if_neg (by omega), if_neg (by omega), cellAt, cellAt,
        getElem?_eq_none (by simp only [length_append, length_cons, length_nil]; omega),
        getElem?_eq_none (by simp only [length_append, length_cons, length_nil]; omega)]

/-- **Where an entry goes.**  An entry that is not removed is at its old place or in the first
position of a new child, and is the same entry unless it was replaced. -/
theorem ChainEdit.kept (h : ChainEdit T ch c c') {depth : Nat} {pos : Fin 7}
    (hx : cellAt c depth pos = some (h2, e)) (hspare : Spares T (T.entryGetKey e) ch) :
    ∃ depth' pos' e', cellAt c' depth' pos' = some (h2, e') ∧ T.entryGetKey e' = T.entryGetKey e
      ∧ (e' = e ∨ ch = .replaced e e') ∧ Follows c c' depth pos depth' pos' := by
  cases h with
  | same => exact ⟨depth, pos, e, hx, rfl, .inl rfl, .inl ⟨rfl, rfl⟩⟩
  | @cleared _ d q h2' e' hcell =>
    refine ⟨depth, pos, e, ?_, rfl, .inl rfl, .inl ⟨rfl, rfl⟩⟩
    rw [cellAt_clearAt_of_ne, hx]
    rintro ⟨rfl, rfl⟩
    rw [hx] at hcell
    cases hcell
    exact hspare rfl
  | @written _ d q h2' old new hcell hkey =>
    by_cases hat : depth = d ∧ pos = q
    · obtain ⟨rfl, rfl⟩ := hat
      rw [hx] at hcell
      cases hcell
      refine ⟨depth, pos, new, ?_, hkey, .inr rfl, .inl ⟨rfl, rfl⟩⟩
      exact cellAt_putAt_self (by rw [length_clearAt]; exact lt_of_cellAt hx) _ _
    · refine ⟨depth, pos, e, ?_, rfl, .inl rfl, .inl ⟨rfl, rfl⟩⟩
      rw [cellAt_putAt_of_ne hat, cellAt_clearAt_of_ne hat, hx]
  | @inserted _ r h2' a hc hplace =>
    rcases findPlaceForInsert_cases hc hplace with ⟨hchain, hfree⟩
      | ⟨pre, b, x, hsplit, hfull, hb, hchain, hdepth, hpos⟩
    · refine ⟨depth, pos, e, ?_, rfl, .inl rfl, .inl ⟨rfl, rfl⟩⟩
      rw [hchain, cellAt_putAt_of_ne, hx]
      rintro ⟨rfl, rfl⟩
      rw [hfree.2.1] at hx
      cases hx
    · rw [hchain, hdepth, hpos]
      subst hsplit
      have hlt : depth < pre.length + 1 := by simpa using lt_of_cellAt hx
      by_cases hlast : depth = pre.length ∧ pos = 6
      · obtain ⟨rfl, rfl⟩ := hlast
        rw [cellAt_split, hb] at hx
        refine ⟨pre.length + 1, 0, e, ?_, rfl, .inl rfl, .inr ⟨rfl, ⟨by simp, b, by simp, hfull⟩,
          by simp, rfl, rfl⟩⟩
        rw [cellAt_putAt_of_ne (fun hx => absurd hx.2 (by decide)), cellAt_converted, if_pos rfl,
          if_pos rfl, hx]
      · refine ⟨depth, pos, e, ?_, rfl, .inl rfl, .inl ⟨rfl, rfl⟩⟩
        rw [cellAt_putAt_of_ne (by omega), cellAt_converted, if_neg (by omega), if_neg hlast, hx]

/-- **Where an entry comes from.**  An entry of the changed chain was inserted, or it (or the entry
it replaces) was at the same place, or in the last position of the bucket that got a child. -/
theorem ChainEdit.origin (h : ChainEdit T ch c c') {depth : Nat} {pos : Fin 7}
    (hx : cellAt c' depth pos = some (h2, e)) :
    ch = .added e ∨ ∃ depth' pos' e', cellAt c depth' pos' = some (h2, e')
      ∧ T.entryGetKey e' = T.entryGetKey e
      ∧ ((depth = depth' ∧ pos = pos') ∨ (pos' = 6 ∧ LastFull c depth' ∧ depth = depth' + 1 ∧
        pos = 0 ∧ ∃ a h2', ch = .added a ∧ (h2', a) ∈ stored c')) := by
  cases h with
  | same => exact .inr ⟨depth, pos, e, hx, rfl, .inl ⟨rfl, rfl⟩⟩
  | @cleared _ d q h2' e' hcell =>
    have hne : ¬ (depth = d ∧ pos = q) := by
      rintro ⟨rfl, rfl⟩
      rw [cellAt_clearAt_self] at hx
      cases hx
    rw [cellAt_clearAt_of_ne hne] at hx
    exact .inr ⟨depth, pos, e, hx, rfl, .inl ⟨rfl, rfl⟩⟩
  | @written _ d q h2' old new hcell hkey =>
    by_cases hat : depth = d ∧ pos = q
    · obtain ⟨rfl, rfl⟩ := hat
      rw [cellAt_putAt_self (by rw [length_clearAt]; exact lt_of_cellAt hcell)] at hx
      cases hx
      exact .inr ⟨depth, pos, old, hcell, hkey.symm, .inl ⟨rfl, rfl⟩⟩
    · rw [cellAt_putAt_of_ne hat, cellAt_clearAt_of_ne hat] at hx
      exact .inr ⟨depth, pos, e, hx, rfl, .inl ⟨rfl, rfl⟩⟩
  | @inserted _ r h2' a hc hplace =>
    obtain ⟨r', hr', -, -, -, hfree⟩ := findPlaceForInsert_spec hc
    obtain rfl : r' = r := mem_unique hr' hplace
    by_cases hat : depth = r'.depth ∧ pos = r'.pos
    · obtain ⟨rfl, rfl⟩ := hat
      rw [cellAt_putAt_self hfree.1] at hx
      cases hx
      exact .inl rfl
    · have hstored : (h2', a) ∈ stored (putAt r'.chain r'.depth r'.pos (h2', a)) :=
        mem_stored.mpr ⟨_, _, cellAt_putAt_self hfree.1 _ _⟩
      rw [cellAt_putAt_of_ne hat] at hx
      rcases findPlaceForInsert_cases hc hplace with ⟨hchain, -⟩
        | ⟨pre, b, x, hsplit, hfull, hb, hchain, -⟩
      · rw [hchain] at hx
        exact .inr ⟨depth, pos, e, hx, rfl, .inl ⟨rfl, rfl⟩⟩
      · rw [hchain, cellAt_converted] at hx
        split_ifs at hx with hlast hzero hold
        · -- the entry that was moved to the new child
          cases hx
          refine .inr ⟨pre.length, 6, e, ?_, rfl,
            .inr ⟨rfl, ?_, hlast, hzero, a, h2', rfl, hstored⟩⟩
          · rw [hsplit, cellAt_split, hb]
          · exact ⟨by simp [hsplit], b, by simp [hsplit], hfull⟩
        · rw [← hsplit] at hx
          exact .inr ⟨depth, pos, e, hx, rfl, .inl ⟨rfl, rfl⟩⟩

/-! ### The whole table -/

/-- The array is still there, with one chain edited at most. -/
structure Frame (T : HashtableType K E) (ch : Change E) (t t' : Table E) : Prop where
  addr_eq : t'.addr = t.addr
  exp_eq : t'.exp = t.exp
  edit : ∀ idx < numBuckets t.exp, ChainEdit T ch (t.chains idx) (t'.chains idx)

theorem Frame.refl (ch : Change E) (t : Table E) : Frame T ch t t :=
  ⟨rfl, rfl, fun idx _ => .same ch (t.chains idx)⟩

theorem Frame.setChain {idx : Nat} (used child : Nat) (h : ChainEdit T ch (t.chains idx) c) :
    Frame T ch t { t.setChain idx c with used := used, childBuckets := child } := by
  refine ⟨rfl, rfl, fun i _ => ?_⟩
  by_cases hi : i = idx
  · subst hi
    simpa [Table.setChain] using h
  · simpa [Table.setChain, hi] using ChainEdit.same ch (t.chains i)

theorem Opened.frame (h : Opened ht ht') {i : Fin 2} (hi : i = 0 ∨ ht.rehashIdx ≠ -1) :
    ht'.tables i = ht.tables i := by
  rcases h with rfl | ⟨hidle, exp, -, -, rfl⟩
  · rfl
  · rcases hi with rfl | hre
    · rfl
    · exact absurd hidle hre

theorem frame_setTable {j : Fin 2} (h : Frame T ch (ht.tables j) t) (i : Fin 2) :
    Frame T ch (ht.tables i) ((ht.setTable j t).tables i) := by
  by_cases hij : i = j
  · subst hij
    rw [setTable_self]
    exact h
  · rw [setTable_of_ne _ hij]
    exact .refl ch _

theorem Opened.moved (hinv : Inv T ht) (halloc : (ht.tables 0).exp ≠ -1) (h : Opened ht ht') :
    Moved T ht ht' := by
  rcases h with rfl | ⟨hidle, exp, hlt, hle, rfl⟩
  · exact .refl hinv
  · have hrange := (hinv.ok 0).exp_range
    exact startRehash_moved hinv hidle ⟨by omega, hle⟩ (by omega) halloc

/-- Finding a place and storing there, as one change of a chain. -/
theorem store_eq {hash : BitVec 64} {r : Hashtable E × Place}
    (hto : ht.tables (target ht) = t) (h : findBucketForInsert ht hash = some r)
    (x : BitVec 8 × E) :
    ∃ q, bucketIdx hash t.exp < numBuckets t.exp
      ∧ findPlaceForInsert (t.chains (bucketIdx hash t.exp)) = some q
      ∧ r.1.store r.2 x = ht.setTable (target ht)
          { t.setChain (bucketIdx hash t.exp) (putAt q.chain q.depth q.pos x) with
            used := t.used + 1
            childBuckets := t.childBuckets + q.added } := by
  simp only [findBucketForInsert] at h
  rw [← target, hto] at h
  obtain ⟨c, hc, hrest⟩ := bind_eq_some_iff.mp h
  obtain ⟨q, hq, rfl⟩ := map_eq_some_iff.mp hrest
  rw [Table.chain?] at hc
  split at hc
  · rename_i hidx
    cases hc
    refine ⟨q, hidx, hq, ?_⟩
    simp only [Hashtable.store, setTable_self, setTable_setTable]
    congr 1
    simp [Table.setChain]
  · cases hc

/-- **Frame.**  What a call leaves of an array that was there before it. -/
theorem Effect.frame (hinv : Inv T ht) (halloc : (ht.tables 0).exp ≠ -1) (h : Effect T ht ch ht')
    {i : Fin 2} (hi : i = 0 ∨ ht.rehashIdx ≠ -1) : Frame T ch (ht.tables i) (ht'.tables i) := by
  cases h with
  | nothing => exact .refl _ _
  | @removed p h2 e hx => exact frame_setTable (.setChain _ _ (.cleared hx.2)) i
  | @replaced p h2 old new hx hkey =>
    refine frame_setTable (.setChain (ht.tables p.table).used (ht.tables p.table).childBuckets ?_) i
    rw [modify_entry_eq hx.2]
    exact .written hx.2 hkey
  | @added ht₁ r e hopen hnew hfind =>
    obtain ⟨q, hidx, hq, hstore⟩ := store_eq rfl hfind (highBits (T.hashEntry e), e)
    have hlinked := ((hopen.moved hinv halloc).inv.ok (target ht₁)).linked _ hidx
    rw [← hopen.frame hi, hstore]
    exact frame_setTable (.setChain _ _ (.inserted hlinked hq)) i

/-- Where an entry comes from, in the whole table: `q` is where it was before. -/
theorem Effect.origin (h : Effect T ht ch ht') (hinv : Inv T ht) (halloc : (ht.tables 0).exp ≠ -1)
    {p : Place} (hx : Located ht' p (h2, e)) :
    ch = .added e ∨ ∃ q e', Located ht q (h2, e') ∧ T.entryGetKey e' = T.entryGetKey e
      ∧ q.table = p.table ∧ q.idx = p.idx
      ∧ ((p.depth = q.depth ∧ p.pos = q.pos) ∨ (q.pos = 6
        ∧ LastFull ((ht.tables q.table).chains q.idx) q.depth ∧ p.depth = q.depth + 1 ∧ p.pos = 0
        ∧ ∃ a h2', ch = .added a ∧ (h2', a) ∈ stored ((ht'.tables p.table).chains p.idx))) := by
  by_cases hi : p.table = 0 ∨ ht.rehashIdx ≠ -1
  · have hframe := h.frame hinv halloc hi
    have hidx : p.idx < numBuckets (ht.tables p.table).exp := hframe.exp_eq ▸ hx.1
    rcases (hframe.edit p.idx hidx).origin hx.2 with hadd | ⟨depth, pos, e', hcell, hkey, hplace⟩
    · exact .inl hadd
    · exact .inr ⟨⟨p.table, p.idx, depth, pos⟩, e', ⟨hidx, hcell⟩, hkey, rfl, rfl, hplace⟩
  · -- the second array was opened for the entry
    left
    obtain ⟨hne, hidle⟩ := not_or.mp hi
    obtain ⟨table, idx, depth, pos⟩ := p
    obtain rfl : table = 1 := by
      have : table ≠ 0 := hne
      omega
    have hone : ∀ {ht'' : Hashtable E}, ht''.tables 1 = ht.tables 1 →
        ¬ Located ht'' ⟨1, idx, depth, pos⟩ (h2, e) := by
      intro ht'' heq hloc
      have hlt := hloc.1
      simp only [heq, hinv.idle (not_not.mp hidle)] at hlt
      exact absurd hlt (Nat.not_lt_zero _)
    have hzero : ∀ {q : Place} {y : BitVec 8 × E}, Located ht q y → (1 : Fin 2) ≠ q.table := by
      rintro ⟨table', idx', depth', pos'⟩ y hy rfl
      have hlt := hy.1
      simp only [hinv.idle (not_not.mp hidle)] at hlt
      exact absurd hlt (Nat.not_lt_zero _)
    cases h with
    | nothing => exact absurd hx (hone rfl)
    | removed hy | replaced hy hkey => exact absurd hx (hone (setTable_of_ne _ (hzero hy) _))
    | @added ht₁ r a hopen hnew hfind =>
      obtain ⟨q, hidx, hq, hstore⟩ := store_eq rfl hfind (highBits (T.hashEntry a), a)
      have hlinked := ((hopen.moved hinv halloc).inv.ok (target ht₁)).linked _ hidx
      rw [hstore] at hx
      rcases hopen with rfl | ⟨-, exp, -, -, rfl⟩
      · rw [target_idle (not_isRehashing_iff.mpr (not_not.mp hidle))] at hx
        exact absurd hx (hone rfl)
      · rw [target_rehashing rfl] at hx hq hlinked
        obtain ⟨-, hcell⟩ := hx
        simp only [setTable_self, Table.setChain, update_apply] at hcell
        split at hcell
        · rcases (ChainEdit.inserted (T := T) hlinked hq).origin hcell with hadd
            | ⟨d, q', e', hcell', -⟩
          · exact hadd
          · cases (cellAt_fresh d q').symm.trans hcell'
        · cases (cellAt_fresh depth pos).symm.trans hcell

/-- What a call leaves of the settings and of the direction of the rehashing. -/
theorem Effect.settings (h : Effect T ht ch ht') : ht'.settings = ht.settings
    ∧ (ht'.rehashIdx = ht.rehashIdx
      ∨ ht.rehashIdx = -1 ∧ ht'.rehashIdx = 0 ∧ (ht'.tables 0).exp < (ht'.tables 1).exp) := by
  cases h with
  | nothing | removed hx | replaced hx hkey => exact ⟨rfl, .inl rfl⟩
  | @added ht₁ r e hopen hnew hfind =>
    obtain ⟨q, hidx, hq, hstore⟩ := store_eq rfl hfind (highBits (T.hashEntry e), e)
    rw [hstore]
    rcases hopen with rfl | ⟨hidle, exp, hlt, -, rfl⟩
    · exact ⟨rfl, .inl rfl⟩
    · refine ⟨rfl, .inr ⟨hidle, rfl, ?_⟩⟩
      rw [target_rehashing rfl, setTable_one]
      exact hlt

end NexCache.HashTables
