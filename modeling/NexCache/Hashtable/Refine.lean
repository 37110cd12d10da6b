import Mathlib.Data.Set.Card
import NexCache.Hashtable.Resize
import NexCache.Lib.Runs

/-!
# The hash table is a finite map

Every call finds or changes one place and may move entries besides.  Each API
function is given by what it does to the multiset `items` of stored entries; since
keys are distinct there, this is what a call does to the map from keys to entries.
-/

namespace NexCache.HashTables

open Machine Function Multiset
open Option (bind_some map_some)
open Hashtable (items clearPlace)

variable {K E : Type*} {T : HashtableType K E} {ht : Hashtable E}

/-! ### Places -/

/-- The entry `x` is stored at the place `p`. -/
def Located (ht : Hashtable E) (p : Place) (x : BitVec 8 × E) : Prop :=
  p.idx < numBuckets (ht.tables p.table).exp
    ∧ cellAt ((ht.tables p.table).chains p.idx) p.depth p.pos = some x

variable {x : BitVec 8 × E} {p : Place} {t : Table E} {i : Fin 2} {old new e : E}

theorem mem_items : x ∈ ht.items ↔ ∃ i, x ∈ (ht.tables i).contents := by
  rw [items, mem_add, Fin.exists_fin_two]

theorem Located.mem (h : Located ht p x) : x ∈ ht.items :=
  mem_items.mpr ⟨p.table, Table.mem_contents.mpr ⟨p.idx, h.1, mem_stored.mpr ⟨_, _, h.2⟩⟩⟩

/-- A chain that holds something was not moved yet. -/
theorem Inv.not_behind (h : Inv T ht) (hx : Located ht p x) :
    p.table = 0 → ¬ p.idx < ht.rehashIdx.toNat := by
  intro htable hlt
  have hmem : x ∈ stored ((ht.tables p.table).chains p.idx) := mem_stored.mpr ⟨_, _, hx.2⟩
  rw [htable, (h.behind _ hlt).1] at hmem
  exact notMem_zero x hmem

/-- What replacing one array does to the entries. -/
theorem items_setTable (ht : Hashtable E) (i : Fin 2) (t : Table E) :
    (ht.setTable i t).items + (ht.tables i).contents = ht.items + t.contents := by
  match i with
  | 0 =>
    rw [setTable_zero, items, withTables_zero, withTables_one, items]
    ac_rfl
  | 1 =>
    rw [setTable_one, items, withTables_zero, withTables_one, items]
    ac_rfl

theorem items_edit {idx : Nat} (hidx : idx < numBuckets (ht.tables i).exp) (c : Chain E)
    (used child : Nat) :
    (ht.setTable i { (ht.tables i).setChain idx c with used := used, childBuckets := child }).items
      + stored ((ht.tables i).chains idx) = ht.items + stored c := by
  have hsum : ({ (ht.tables i).setChain idx c with
        used := used, childBuckets := child } : Table E).contents
      + stored ((ht.tables i).chains idx) = _ := TableOk.contents_setChain (ht.tables i) hidx c
  apply add_right_cancel (b := (ht.tables i).contents)
  rw [add_right_comm, items_setTable, add_assoc, hsum]
  ac_rfl

/-- An array may be replaced where the chains behind `rehashIdx` stay. -/
theorem Inv.setTable (h : Inv T ht) (hok : TableOk T t)
    (hexp : t.exp = (ht.tables i).exp) (haddr : t.addr = (ht.tables i).addr)
    (hbusy : i = 1 → ht.rehashIdx ≠ -1)
    (hchains : i = 0 → ∀ j < ht.rehashIdx.toNat, t.chains j = (ht.tables 0).chains j)
    (hdist : ((ht.setTable i t).items.map fun x => T.entryGetKey x.2).Nodup) :
    Inv T (ht.setTable i t) := by
  have hsame : ∀ j, ((ht.setTable i t).tables j).exp = (ht.tables j).exp
      ∧ ((ht.setTable i t).tables j).addr = (ht.tables j).addr :=
    (forall_update_iff ht.tables fun j t' => t'.exp = (ht.tables j).exp ∧
      t'.addr = (ht.tables j).addr).mpr ⟨⟨hexp, haddr⟩, fun _ _ => ⟨rfl, rfl⟩⟩
  refine ⟨(forall_update_iff ht.tables fun _ => TableOk T).mpr ⟨hok, fun j _ => h.ok j⟩,
    fun hre => ?_,
    fun hre => ?_, fun j hj => ?_, hdist, fun j => (hsame j).2 ▸ h.addrs.1 j, fun hre => ?_⟩
  · rw [setTable_of_ne _ fun hi => hbusy hi.symm hre]
    exact h.idle hre
  · rw [(hsame 0).1, (hsame 1).1]
    exact h.busy hre
  · by_cases hi : i = 0
    · subst hi
      rw [setTable_self, hchains rfl j hj]
      exact h.behind j hj
    · rw [setTable_of_ne _ (Ne.symm hi)]
      exact h.behind j hj
  · rw [(hsame 0).2, (hsame 1).2]
    exact h.addrs.2 hre

theorem Inv.edit (h : Inv T ht) {idx used child : Nat} {c : Chain E}
    (ht' : t = { (ht.tables i).setChain idx c with used := used, childBuckets := child })
    (hidx : idx < numBuckets (ht.tables i).exp) (hmoved : i = 0 → ¬ idx < ht.rehashIdx.toNat)
    (hok : TableOk T t) (hdist : ((ht.setTable i t).items.map fun x => T.entryGetKey x.2).Nodup) :
    Inv T (ht.setTable i t) := by
  subst ht'
  refine h.setTable hok rfl rfl ?_ (fun hi j hj => ?_) hdist
  · rintro rfl hre
    rw [h.idle hre] at hidx
    exact Nat.not_lt_zero _ hidx
  · subst hi
    exact update_of_ne (fun heq : j = idx => hmoved rfl (heq ▸ hj)) ..

/-! ### Searching -/

/-- What a search reports: a place that holds an accepted entry, or that no entry of
the hash in these arrays is accepted. -/
def SearchResult (T : HashtableType K E) (ht : Hashtable E) (hash : BitVec 64)
    (p : BitVec 8 → E → Bool) (inside : Fin 2 → Prop) : Option (Place × E) → Prop
  | some f => ∃ h2, Located ht f.1 (h2, f.2) ∧ p h2 f.2 = true
  | none => ∀ i, inside i → ∀ x ∈ (ht.tables i).contents, T.hashEntry x.2 = hash → p x.1 x.2 = false

theorem searchTable_spec (h : Inv T ht) (i : Fin 2) (hash : BitVec 64) (p : BitVec 8 → E → Bool) :
    ∃ r, searchTable ht i hash p = some r ∧ SearchResult T ht hash p (· = i) r := by
  simp only [searchTable]
  split_ifs with hused hskip
  · refine ⟨none, rfl, ?_⟩
    rintro j rfl x hx -
    rw [(h.ok j).used_eq, card_eq_zero] at hused
    rw [hused] at hx
    exact absurd hx (notMem_zero x)
  · -- the chain was moved, so it is empty
    refine ⟨none, rfl, ?_⟩
    rintro j rfl x hx hhash
    obtain ⟨rfl, -, hlt⟩ := hskip
    have hmem := ((h.ok 0).mem_chain hx).2
    rw [hhash, (h.behind _ hlt).1] at hmem
    exact absurd hmem (notMem_zero x)
  · have hexp : (ht.tables i).exp ≠ -1 := fun hneg => by
      refine hused ?_
      rw [(h.ok i).used_eq, Table.contents, hneg]
      rfl
    have hidx := bucketIdx_lt hexp hash
    rw [Table.chain?_of_lt hidx, map_some]
    cases hfind : findInChain p ((ht.tables i).chains (bucketIdx hash (ht.tables i).exp)) with
    | none =>
      refine ⟨none, rfl, ?_⟩
      rintro j rfl x hx hhash
      have hmem := ((h.ok j).mem_chain hx).2
      rw [hhash] at hmem
      exact findInChain_none hfind hmem
    | some r =>
      obtain ⟨depth, pos, e⟩ := r
      obtain ⟨h2, hcell, hp⟩ := findInChain_some hfind
      exact ⟨some (⟨i, bucketIdx hash (ht.tables i).exp, depth, pos⟩, e), rfl, h2, ⟨hidx, hcell⟩,
        hp⟩

theorem searchTables_spec (h : Inv T ht) (hash : BitVec 64) (p : BitVec 8 → E → Bool) :
    ∃ r, searchTables ht hash p = some r ∧ SearchResult T ht hash p (fun _ => True) r := by
  obtain ⟨r, hr, hres⟩ := searchTable_spec h 0 hash p
  rw [searchTables, hr, bind_some]
  cases r with
  | some f => exact ⟨some f, rfl, hres⟩
  | none =>
    obtain ⟨r', hr', hres'⟩ := searchTable_spec h 1 hash p
    refine ⟨r', hr', ?_⟩
    cases r' with
    | some f => exact hres'
    | none => exact Fin.forall_fin_two.mpr ⟨fun _ => hres 0 rfl, fun _ => hres' 1 rfl⟩

theorem items_eq_zero (h : Inv T ht) (hsize : ht.size = 0) : ht.items = 0 := by
  rw [← card_eq_zero, items, card_add, ← (h.ok 0).used_eq,
    ← (h.ok 1).used_eq]
  exact hsize

theorem notMem_items (h : Inv T ht) (hsize : ht.size = 0) (x : BitVec 8 × E) : x ∉ ht.items := by
  rw [items_eq_zero h hsize]
  exact notMem_zero x

section Keys

variable [DecidableEq K]

/-- What a lookup of `k` reports. -/
def LookupResult (T : HashtableType K E) (ht : Hashtable E) (k : K) : Option (Place × E) → Prop
  | some f => (∃ h2, Located ht f.1 (h2, f.2)) ∧ T.entryGetKey f.2 = k
  | none => ∀ x ∈ ht.items, T.entryGetKey x.2 ≠ k

theorem findBucket_spec (h : Inv T ht) (k : K) :
    ∃ r, findBucket T ht (T.hashFunction k) k = some r ∧ Moved T ht r.1
      ∧ LookupResult T r.1 k r.2 := by
  rw [findBucket]
  split
  · rename_i hsize
    exact ⟨(ht, none), rfl, .refl h, fun x hx => absurd hx (notMem_items h hsize x)⟩
  · obtain ⟨ht₁, hstep, hmoved⟩ := rehashStepUnder_spec .allow h
    rw [rehashStepOnReadIfNeeded, hstep, bind_some]
    obtain ⟨r, hr, hres⟩ := searchTables_spec hmoved.inv (T.hashFunction k) fun h2 e =>
      h2 == highBits (T.hashFunction k) && decide (T.entryGetKey e = k)
    refine ⟨(ht₁, r), by rw [hr]; rfl, hmoved, ?_⟩
    cases r with
    | some f =>
      obtain ⟨h2, hloc, hp⟩ := hres
      rw [Bool.and_eq_true, decide_eq_true_eq] at hp
      exact ⟨⟨h2, hloc⟩, hp.2⟩
    | none =>
      intro x hx hkey
      obtain ⟨i, hxi⟩ := mem_items.mp hx
      -- an entry with this key has this hash, and carries its high byte
      have hhash : T.hashEntry x.2 = T.hashFunction k := by rw [HashtableType.hashEntry, hkey]
      obtain ⟨j, hj, hxj⟩ := Table.mem_contents.mp hxi
      have hh2 := ((hmoved.inv.ok i).placed j hj x hxj).1
      have hno := hres i trivial x hxi hhash
      rw [hhash] at hh2
      simp [hh2, hkey] at hno

end Keys

/-! ### Adding -/

/-- The array that inserts go to may be replaced: no chain of it was moved. -/
theorem Inv.setTarget (h : Inv T ht) (hok : TableOk T t)
    (hexp : t.exp = (ht.tables (target ht)).exp) (haddr : t.addr = (ht.tables (target ht)).addr)
    (hdist : ((ht.setTable (target ht) t).items.map fun x => T.entryGetKey x.2).Nodup) :
    Inv T (ht.setTable (target ht) t) := by
  refine h.setTable hok hexp haddr (fun hi hre => ?_) (fun hi j hj => ?_) hdist
  · rw [target_idle (not_isRehashing_iff.mpr hre)] at hi
    cases hi
  · have hre : ht.rehashIdx = -1 := by
      by_contra hre
      rw [target_rehashing (isRehashing_iff.mpr hre)] at hi
      cases hi
    rw [hre] at hj
    exact absurd hj (Nat.not_lt_zero j)

theorem items_setTarget {x : BitVec 8 × E}
    (hcont : t.contents = x ::ₘ (ht.tables (target ht)).contents) :
    (ht.setTable (target ht) t).items = x ::ₘ ht.items := by
  have hsum := items_setTable ht (target ht) t
  rw [hcont, add_cons, ← cons_add] at hsum
  exact add_right_cancel hsum

theorem store_spec (h : Inv T ht) (halloc : (ht.tables 0).exp ≠ -1)
    (hnew : ∀ x ∈ ht.items, T.entryGetKey x.2 ≠ T.entryGetKey e) :
    ∃ ht', (findBucketForInsert ht (T.hashEntry e)).map
        (fun r => r.1.store r.2 (highBits (T.hashEntry e), e)) = some ht'
      ∧ Inv T ht' ∧ ht'.items = (highBits (T.hashEntry e), e) ::ₘ ht.items
      ∧ ht'.settings = ht.settings := by
  obtain ⟨t, hstore, hok, hexp, haddr, hcont⟩ := findBucketForInsert_store rfl (h.ok (target ht))
    (target_alloc h halloc) (show Placed T _ (bucketIdx (T.hashEntry e) _)
      (highBits (T.hashEntry e), e) from ⟨rfl, rfl⟩)
  have hitems := items_setTarget hcont
  refine ⟨_, hstore, h.setTarget hok hexp haddr ?_, hitems, rfl⟩
  rw [hitems, map_cons, nodup_cons]
  refine ⟨fun hmem => ?_, h.distinct⟩
  obtain ⟨x, hx, hkey⟩ := mem_map.mp hmem
  exact hnew x hx hkey

/-- An entry with a new key is stored in the array inserts go to. -/
theorem insert_spec (h : Inv T ht)
    (hnew : ∀ x ∈ ht.items, T.entryGetKey x.2 ≠ T.entryGetKey e) (allowed : Bool) :
    ∃ ht', insert T ht (T.hashEntry e) e allowed = some ht' ∧ Inv T ht'
      ∧ ht'.items = (highBits (T.hashEntry e), e) ::ₘ ht.items ∧ ht'.settings = ht.settings := by
  obtain ⟨r, hr, hmoved, halloc⟩ := hashtableExpandIfNeeded_spec h allowed
  obtain ⟨ht₂, hstep, hmoved₂⟩ := rehashStepUnder_spec .avoid hmoved.inv
  have hm := hmoved.trans hmoved₂
  obtain ⟨ht', hstore, hinv, hitems, hset⟩ := store_spec hm.inv (hmoved₂.alloc halloc)
    (fun x hx => hnew x (hm.items_eq ▸ hx))
  refine ⟨ht', ?_, hinv, hitems.trans (by rw [hm.items_eq]), hset.trans hm.settings_eq⟩
  rw [insert, hr, bind_some, rehashStepOnWriteIfNeeded, hstep, bind_some, hstore]

/-- Writing the hash bits and then the entry is storing both. -/
theorem put_eq_modify (c : Chain E) (depth : Nat) (pos : Fin 7) (h2 : BitVec 8) (e : E) :
    (c.modify depth fun b => { b with hashes := update b.hashes pos h2 }).modify depth
        (fun b => { b with entries := update b.entries pos (some e) })
      = putAt c depth pos (h2, e) := by
  rw [putAt]
  apply List.ext_getElem?
  intro i
  simp only [List.getElem?_modify, Functor.map, Option.map_map]
  congr 1
  funext b
  by_cases hi : depth = i
  · simp [hi, Bucket.put]
  · simp [hi]

@[simp] theorem setChain_setChain (t : Table E) (idx : Nat) (c c' : Chain E) :
    (t.setChain idx c).setChain idx c' = t.setChain idx c' := by
  simp [Table.setChain]

@[simp] theorem setChain_exp (t : Table E) (idx : Nat) (c : Chain E) :
    (t.setChain idx c).exp = t.exp := rfl

@[simp] theorem setChain_chains (t : Table E) (idx : Nat) (c : Chain E) :
    (t.setChain idx c).chains idx = c := update_self ..

/-- The two phases of an insert do what `insert` does in one. -/
theorem insertAtPosition_eq (h : Inv T ht) (halloc : (ht.tables 0).exp ≠ -1) {hash : BitVec 64}
    {r : Hashtable E × Place} (hfind : findBucketForInsert ht hash = some r) (h2 : BitVec 8)
    (e : E) :
    hashtableInsertAtPosition (r.1.writeHash r.2 h2) e r.2 = some (r.1.store r.2 (h2, e)) := by
  have halloc' := target_alloc h halloc
  obtain ⟨t, p, hfind', htable, hidx, -, hexp, -, -, hlt, hfree, -⟩ :=
    findBucketForInsert_spec rfl (h.ok (target ht)) halloc' hash
  rw [hfind] at hfind'
  obtain rfl : r = (ht.setTable (target ht) t, p) := Option.some.inj hfind'
  obtain ⟨i, idx, depth, pos⟩ := p
  simp only at htable hidx hlt hfree
  subst htable
  have hin : idx < numBuckets t.exp := by
    rw [hidx, hexp]
    exact bucketIdx_lt halloc' hash
  obtain ⟨b, hb⟩ : ∃ b, (t.chains idx)[depth]? = some b := ⟨_, List.getElem?_eq_getElem hlt⟩
  have hempty : b.isPositionFilled pos = false := by
    rw [cellAt, hb, bind_some] at hfree
    exact Bucket.not_filled_iff.mpr hfree
  simp only [hashtableInsertAtPosition, Hashtable.writeHash, Hashtable.store, setTable_self]
  rw [Table.chain?, setChain_exp, if_pos hin, bind_some, setChain_chains, List.getElem?_modify, hb]
  simp only [Functor.map, map_some, bind_some]
  rw [if_neg (by simpa [Bucket.isPositionFilled] using hempty), put_eq_modify]
  simp only [setTable_setTable, setChain_setChain]
  rfl

/-! ### Removing -/

theorem clearPlace_spec (h : Inv T ht) {x : BitVec 8 × E} (hx : Located ht p x) :
    Inv T (ht.clearPlace p) ∧ ht.items = x ::ₘ (ht.clearPlace p).items
      ∧ FreeAt (((ht.clearPlace p).tables p.table).chains p.idx) p.depth p.pos := by
  obtain ⟨hidx, hcell⟩ := hx
  obtain ⟨hlinked, hstored, hfree⟩ := clearAt_spec ((h.ok p.table).linked _ hidx) hcell
  have hitems : ht.items = x ::ₘ (ht.clearPlace p).items := by
    have hsum := items_edit hidx (clearAt ((ht.tables p.table).chains p.idx) p.depth p.pos)
      ((ht.tables p.table).used - 1) (ht.tables p.table).childBuckets
    rw [hstored, add_cons, ← cons_add] at hsum
    exact (add_right_cancel hsum).symm
  have hused : 1 ≤ (ht.tables p.table).used := by
    rw [(h.ok p.table).used_eq]
    exact card_pos_iff_exists_mem.mpr
      ⟨x, Table.mem_contents.mpr ⟨_, hidx, mem_stored.mpr ⟨_, _, hcell⟩⟩⟩
  refine ⟨h.edit rfl hidx (h.not_behind ⟨hidx, hcell⟩)
    ((h.ok p.table).setChain hidx hlinked ?_ ?_ ?_) ?_, hitems, ?_⟩
  · intro y hy
    exact (h.ok p.table).placed _ hidx y (hstored ▸ mem_cons_of_mem hy)
  · rw [hstored, card_cons]
    omega
  · rw [length_clearAt]
    rfl
  · have hdist := h.distinct
    rw [hitems, map_cons] at hdist
    exact (nodup_cons.mp hdist).2
  · rw [clearPlace, setTable_self]
    exact (setChain_chains ..).symm ▸ hfree

/-- Entries may move within a chain, and buckets of it be freed. -/
theorem Rearranged.moved (h : Inv T ht) {idx : Nat}
    (hidx : idx < numBuckets (ht.tables i).exp) (hbehind : i = 0 → ¬ idx < ht.rehashIdx.toNat)
    {r : Chain E × Nat} (hr : Rearranged ((ht.tables i).chains idx) r) :
    Moved T ht (ht.setTable i { (ht.tables i).setChain idx r.1 with
      childBuckets := (ht.tables i).childBuckets - r.2 }) := by
  have hitems : (ht.setTable i { (ht.tables i).setChain idx r.1 with
      childBuckets := (ht.tables i).childBuckets - r.2 }).items = ht.items := by
    have hsum := items_edit hidx r.1 (ht.tables i).used ((ht.tables i).childBuckets - r.2)
    rw [hr.stored_eq] at hsum
    exact add_right_cancel hsum
  have hlen := hr.length_add
  have hpos := List.length_pos_of_ne_nil hr.linked.1
  have hchild : r.2 ≤ (ht.tables i).childBuckets := by
    have hle := (h.ok i).length_le_child hidx
    omega
  refine ⟨h.edit rfl hidx hbehind ((h.ok i).setChain hidx hr.linked ?_ ?_ ?_) ?_, hitems, rfl, ?_⟩
  · rw [hr.stored_eq]
    exact (h.ok i).placed _ hidx
  · rw [hr.stored_eq]
    rfl
  · omega
  · rw [show (ht.setTable i _).items = ht.items from hitems]
    exact h.distinct
  · intro hne
    by_cases htable : i = 0
    · rw [htable, setTable_self]
      exact htable ▸ hne
    · rw [setTable_of_ne _ (Ne.symm htable)]
      exact hne

theorem fillHoleUnlessPaused_spec (h : Inv T ht) (hidx : p.idx < numBuckets (ht.tables p.table).exp)
    (hbehind : p.table = 0 → ¬ p.idx < ht.rehashIdx.toNat)
    (hfree : FreeAt ((ht.tables p.table).chains p.idx) p.depth p.pos) :
    ∃ ht', fillHoleUnlessPaused ht p = some ht' ∧ Moved T ht ht' := by
  simp only [fillHoleUnlessPaused]
  rw [Table.chain?_of_lt hidx, bind_some]
  split
  · rename_i hcond
    obtain ⟨r, hr, hre⟩ := fillHoleAt_spec ((h.ok p.table).linked _ hidx) hfree hcond.1
    rw [hr, map_some]
    exact ⟨_, rfl, hre.moved h hidx hbehind⟩
  · exact ⟨ht, rfl, .refl h⟩

/-- `ht'` has the entries of `ht` without the one of `k`, which is reported. -/
def Removed (T : HashtableType K E) (k : K) (ht ht' : Hashtable E) : Option E → Prop
  | some e => T.entryGetKey e = k ∧ ∃ h2, ht.items = (h2, e) ::ₘ ht'.items
  | none => ht'.items = ht.items ∧ ∀ x ∈ ht.items, T.entryGetKey x.2 ≠ k

section Keys

variable [DecidableEq K]

theorem hashtablePop_spec (h : Inv T ht) (k : K) (allowed : Bool) :
    ∃ r, hashtablePop T ht k allowed = some r ∧ Inv T r.1 ∧ r.1.settings = ht.settings
      ∧ Removed T k ht r.1 r.2 := by
  rw [hashtablePop]
  split
  · rename_i hsize
    exact ⟨(ht, none), rfl, h, rfl, rfl, fun x hx => absurd hx (notMem_items h hsize x)⟩
  · obtain ⟨⟨ht₁, o⟩, hfind, hmoved, hres⟩ := findBucket_spec h k
    rw [hfind, bind_some]
    simp only at hmoved hres
    cases o with
    | none =>
      refine ⟨(ht₁, none), rfl, hmoved.inv, hmoved.settings_eq, hmoved.items_eq, fun x hx => ?_⟩
      exact hres x (hmoved.items_eq.symm ▸ hx)
    | some f =>
      obtain ⟨⟨h2, hloc⟩, hkey⟩ := hres
      obtain ⟨hinv, hitems, hfree⟩ := clearPlace_spec hmoved.inv hloc
      have hexp : f.1.idx < numBuckets ((ht₁.clearPlace f.1).tables f.1.table).exp := by
        rw [clearPlace, setTable_self]
        exact hloc.1
      obtain ⟨ht₂, hfill, hmoved₂⟩ :=
        fillHoleUnlessPaused_spec hinv hexp (hmoved.inv.not_behind hloc) hfree
      obtain ⟨r, hshrink, hmoved₃⟩ := hashtableShrinkIfNeeded_spec hmoved₂.inv allowed
      refine ⟨(r.1, some f.2), ?_, hmoved₃.inv, ?_, hkey, h2, ?_⟩
      · simp only [hfill, bind_some, hshrink, map_some]
      · exact hmoved₃.settings_eq.trans (hmoved₂.settings_eq.trans hmoved.settings_eq)
      · rw [← hmoved.items_eq, hitems, hmoved₃.items_eq, hmoved₂.items_eq]

section TwoPhase

variable {p : Place} {x : BitVec 8 × E} (hpaired : ht.pauseAutoShrink = ht.pauseRehash)
  (hpos : 0 ≤ ht.pauseRehash) (hlt : ht.pauseRehash < 2 ^ 15) (hx : Located ht p x)
include hpaired hpos hlt hx

omit [DecidableEq K] in
/-- While the pause of the first phase is taken back, automatic shrinking stays paused,
so the place is still where the first phase found it. -/
theorem hashtableTwoPhasePopDelete_eq (allowed : Bool) :
    hashtableTwoPhasePopDelete T (hashtablePauseRehashing ht) p allowed =
      (fillHoleUnlessPaused { ht.clearPlace p with
        pauseAutoShrink := i16 (ht.pauseRehash + 1) } p).bind
          fun s => hashtableResumeAutoShrink T s allowed := by
  have hresume : hashtableResumeRehashing T
      (hashtablePauseAutoShrink ((hashtablePauseRehashing ht).clearPlace p)) allowed
        = some { ht.clearPlace p with pauseAutoShrink := i16 (ht.pauseRehash + 1) } := by
    have hauto : i16 (i16 (i16 (ht.pauseAutoShrink + 1) + 1) - 1) = i16 (ht.pauseRehash + 1) := by
      rw [i16_sub, add_sub_cancel_right, i16_of_range (i16_range _), hpaired]
    have hne := i16_succ_ne_zero hpos hlt
    simp only [hashtableResumeRehashing, hashtableResumeAutoShrink, hashtablePauseAutoShrink,
      hashtablePauseRehashing, clearPlace, Hashtable.setTable, hauto,
      i16_pause hpos hlt, if_pos hpos, if_neg hne]
  have hcell : (cellAt ((ht.tables p.table).chains p.idx) p.depth p.pos).isNone = false := by
    rw [hx.2]
    rfl
  rw [hashtableTwoPhasePopDelete]
  rw [show (hashtablePauseRehashing ht).tables = ht.tables from rfl, Table.chain?_of_lt hx.1,
    bind_some, hcell, if_neg (by simp), hresume, bind_some]

omit [DecidableEq K] in
theorem hashtableTwoPhasePopDelete_spec (h : Inv T ht) (allowed : Bool) :
    ∃ ht', hashtableTwoPhasePopDelete T (hashtablePauseRehashing ht) p allowed = some ht'
      ∧ Inv T ht' ∧ ht.items = x ::ₘ ht'.items ∧ ht'.settings = ht.settings := by
  obtain ⟨hinv, hitems, hfree⟩ := clearPlace_spec h hx
  let s : Hashtable E := { ht.clearPlace p with pauseAutoShrink := i16 (ht.pauseRehash + 1) }
  have hs : Inv T s := hinv.of_tables rfl rfl rfl
  have hidx : p.idx < numBuckets (s.tables p.table).exp := by
    rw [show s.tables = (ht.clearPlace p).tables from rfl, clearPlace, setTable_self]
    exact hx.1
  obtain ⟨ht₂, hfill, hmoved⟩ := fillHoleUnlessPaused_spec hs hidx (h.not_behind hx) hfree
  obtain ⟨ht', hlast, hmoved'⟩ := hashtableResumeAutoShrink_spec hmoved.inv allowed
  refine ⟨ht', ?_, hmoved'.inv, ?_, ?_⟩
  · rw [hashtableTwoPhasePopDelete_eq hpaired hpos hlt hx, hfill, bind_some, hlast]
  · rw [hitems, hmoved'.items_eq]
    exact congrArg (x ::ₘ ·) hmoved.items_eq.symm
  · have hset := hmoved.settings_eq
    have hset' := hmoved'.settings_eq
    simp only [Hashtable.settings, Prod.mk.injEq] at hset hset' ⊢
    refine ⟨hset'.1.trans hset.1, hset'.2.1.trans ?_, hset'.2.2.1.trans hset.2.2.1,
      hset'.2.2.2.1.trans hset.2.2.2.1, hset'.2.2.2.2.trans hset.2.2.2.2⟩
    rw [hset.2.1, show s.pauseAutoShrink = i16 (ht.pauseRehash + 1) from rfl, i16_pause hpos hlt,
      hpaired]

end TwoPhase

end Keys

/-! ### Replacing -/

/-- Writing an entry over another keeps the stored hash bits. -/
theorem modify_entry_eq {c : Chain E} {depth : Nat} {pos : Fin 7} {h2 : BitVec 8} {old : E}
    (h : cellAt c depth pos = some (h2, old)) (new : E) :
    (c.modify depth fun b => { b with entries := update b.entries pos (some new) })
      = putAt (clearAt c depth pos) depth pos (h2, new) := by
  obtain ⟨pre, b, post, rfl, rfl⟩ := exists_split (lt_of_cellAt h)
  rw [cellAt_split] at h
  rw [clearAt, modify_split, modify_split, putAt, modify_split]
  have hhash : update b.hashes pos h2 = b.hashes := by
    have hpos : b.hashes pos = h2 := (Bucket.cell_eq_some.mp h).1
    rw [← hpos, update_eq_self]
  simp [Bucket.put, Bucket.clear, hhash]

theorem overwrite_spec (h : Inv T ht) {h2 : BitVec 8}
    (hx : Located ht p (h2, old)) (hkey : T.entryGetKey new = T.entryGetKey old) :
    Inv T (ht.overwrite p new) ∧
      (ht.overwrite p new).items = (h2, new) ::ₘ (ht.clearPlace p).items := by
  obtain ⟨-, hclear, -⟩ := clearPlace_spec h hx
  obtain ⟨hidx, hcell⟩ := hx
  have hok := h.ok p.table
  obtain ⟨hlinked, hstored, hfree⟩ := clearAt_spec (hok.linked _ hidx) hcell
  obtain ⟨hlinked', hstored'⟩ := putAt_spec hlinked hfree (h2, new)
  have hover : ht.overwrite p new = ht.setTable p.table { (ht.tables p.table).setChain p.idx
      (putAt (clearAt ((ht.tables p.table).chains p.idx) p.depth p.pos) p.depth p.pos
        (h2, new)) with
        used := (ht.tables p.table).used, childBuckets := (ht.tables p.table).childBuckets } := by
    rw [Hashtable.overwrite, modify_entry_eq hcell]
    rfl
  have hitems := items_edit hidx
    (putAt (clearAt ((ht.tables p.table).chains p.idx) p.depth p.pos) p.depth p.pos (h2, new))
    (ht.tables p.table).used (ht.tables p.table).childBuckets
  rw [← hover, hstored', hstored, hclear, cons_add, add_cons, add_cons, cons_inj_right,
    ← cons_add] at hitems
  have hitems' := add_right_cancel hitems
  refine ⟨?_, hitems'⟩
  rw [hover]
  refine h.edit rfl hidx (h.not_behind ⟨hidx, hcell⟩) (hok.setChain hidx hlinked' ?_ ?_ ?_) ?_
  · have hold := hok.placed _ hidx
    rw [hstored, forall_mem_cons, Placed, HashtableType.hashEntry, ← hkey] at hold
    rw [hstored']
    exact forall_mem_cons.mpr hold
  · rw [hstored', hstored, card_cons, card_cons]
  · rw [length_putAt, length_clearAt]
  · rw [← hover, hitems', map_cons, hkey]
    have hdist := h.distinct
    rw [hclear, map_cons] at hdist
    exact hdist

/-! ### The map -/

/-- The table holds the entries of the map `m`, each under its key. -/
def Holds (T : HashtableType K E) (ht : Hashtable E) (m : K → Option E) : Prop :=
  ∀ k e, m k = some e ↔ (∃ h2, (h2, e) ∈ ht.items) ∧ T.entryGetKey e = k

variable {m : K → Option E} {k : K}

theorem Holds.of_items {ht' : Hashtable E} (h : Holds T ht m)
    (hitems : ht'.items = ht.items) : Holds T ht' m := by
  intro k e
  rw [h k e, hitems]

theorem holds_empty (hitems : ht.items = 0) : Holds T ht fun _ => none := by
  intro k e
  refine ⟨fun hx => (Option.some_ne_none e hx.symm).elim, ?_⟩
  rintro ⟨⟨h2, hmem⟩, -⟩
  rw [hitems] at hmem
  exact absurd hmem (notMem_zero _)

theorem Holds.eq_none (h : Holds T ht m)
    (hno : ∀ x ∈ ht.items, T.entryGetKey x.2 ≠ k) : m k = none := by
  cases hm : m k with
  | none => rfl
  | some e =>
    obtain ⟨⟨h2, hmem⟩, hkey⟩ := (h k e).mp hm
    exact absurd hkey (hno _ hmem)

section Map

theorem exists_mem_cons_of_key_ne {items : Multiset (BitVec 8 × E)} {a e : E}
    (hne : T.entryGetKey a ≠ T.entryGetKey e) :
    (∃ h2', (h2', a) ∈ (h2, e) ::ₘ items) ↔ ∃ h2', (h2', a) ∈ items := by
  refine ⟨?_, fun ⟨h2', hmem⟩ => ⟨h2', mem_cons_of_mem hmem⟩⟩
  rintro ⟨h2', hmem⟩
  rcases mem_cons.mp hmem with heq | hmem
  · exact absurd (congrArg T.entryGetKey (Prod.mk.inj heq).2) hne
  · exact ⟨h2', hmem⟩

variable [DecidableEq K] {ht' : Hashtable E} {m : K → Option E} {h2 : BitVec 8}

theorem Holds.insert (h : Holds T ht m) (hnone : m (T.entryGetKey e) = none)
    (hitems : ht'.items = (h2, e) ::ₘ ht.items) :
    Holds T ht' (update m (T.entryGetKey e) (some e)) := by
  intro k a
  rw [hitems]
  by_cases hk : k = T.entryGetKey e
  · subst hk
    rw [update_self, Option.some.injEq]
    constructor
    · rintro rfl
      exact ⟨⟨h2, mem_cons_self _ _⟩, rfl⟩
    · rintro ⟨⟨h2', hmem⟩, hkey⟩
      rcases mem_cons.mp hmem with heq | hmem
      · exact (Prod.mk.inj heq).2.symm
      · have hsome := (h (T.entryGetKey e) a).mpr ⟨⟨h2', hmem⟩, hkey⟩
        rw [hnone] at hsome
        cases hsome
  · rw [update_of_ne hk, h k a]
    exact and_congr_left fun hkey => (exists_mem_cons_of_key_ne (hkey.trans_ne hk)).symm

theorem Holds.erase (h : Holds T ht m) (hdist : (ht.items.map fun x => T.entryGetKey x.2).Nodup)
    (hitems : ht.items = (h2, e) ::ₘ ht'.items) :
    Holds T ht' (update m (T.entryGetKey e) none) := by
  rw [hitems, map_cons, nodup_cons] at hdist
  intro k a
  by_cases hk : k = T.entryGetKey e
  · subst hk
    rw [update_self]
    refine ⟨fun hx => (Option.some_ne_none a hx.symm).elim, ?_⟩
    rintro ⟨⟨h2', hmem⟩, hkey⟩
    exact absurd (mem_map.mpr ⟨_, hmem, hkey⟩) hdist.1
  · rw [update_of_ne hk, h k a, hitems]
    exact and_congr_left fun hkey => exists_mem_cons_of_key_ne (hkey.trans_ne hk)

/-- The number of stored entries is the number of keys of the map. -/
theorem Holds.size_eq (h : Holds T ht m) (hinv : Inv T ht) :
    ht.size = Set.ncard {k | (m k).isSome} := by
  have hset : {k | (m k).isSome} = ((ht.items.map fun x => T.entryGetKey x.2).toFinset :
      Set K) := by
    ext k
    simp only [Set.mem_ofPred_eq, Finset.mem_coe, mem_toFinset, mem_map,
      Option.isSome_iff_exists, h k]
    constructor
    · rintro ⟨e, ⟨h2, hmem⟩, hkey⟩
      exact ⟨(h2, e), hmem, hkey⟩
    · rintro ⟨⟨h2, e⟩, hmem, hkey⟩
      exact ⟨e, ⟨h2, hmem⟩, hkey⟩
  rw [hset, Set.ncard_coe_finset, toFinset_card_of_nodup hinv.distinct, card_map,
    items, card_add, ← (hinv.ok 0).used_eq, ← (hinv.ok 1).used_eq]
  rfl

theorem hashtableAddOrFind_spec (h : Inv T ht) (hm : Holds T ht m) (e : E) (allowed : Bool) :
    ∃ r, hashtableAddOrFind T ht e allowed = some r ∧ Inv T r.1 ∧ r.1.settings = ht.settings
      ∧ r.2 = m (T.entryGetKey e)
      ∧ Holds T r.1 (if (m (T.entryGetKey e)).isSome then m
          else update m (T.entryGetKey e) (some e)) := by
  obtain ⟨⟨ht₁, o⟩, hfind, hmoved, hres⟩ := findBucket_spec h (T.entryGetKey e)
  simp only [hashtableAddOrFind]
  rw [show T.hashEntry e = T.hashFunction (T.entryGetKey e) from rfl, hfind, bind_some]
  simp only at hmoved hres ⊢
  have hm₁ := hm.of_items hmoved.items_eq
  cases o with
  | some f =>
    obtain ⟨⟨h2, hloc⟩, hkey⟩ := hres
    have hsome : m (T.entryGetKey e) = some f.2 := (hm₁ _ _).mpr ⟨⟨h2, hloc.mem⟩, hkey⟩
    refine ⟨(ht₁, some f.2), rfl, hmoved.inv, hmoved.settings_eq, hsome.symm, ?_⟩
    rw [hsome]
    exact hm₁
  | none =>
    have hnone : m (T.entryGetKey e) = none := hm₁.eq_none hres
    obtain ⟨ht', hins, hinv, hitems, hset⟩ := insert_spec hmoved.inv hres allowed
    refine ⟨(ht', none), ?_, hinv, hset.trans hmoved.settings_eq, hnone.symm, ?_⟩
    · rw [show T.hashFunction (T.entryGetKey e) = T.hashEntry e from rfl, hins]
      rfl
    · rw [hnone]
      exact hm₁.insert hnone hitems

theorem Removed.holds (hm : Holds T ht m) (h : Inv T ht) {o : Option E}
    (hrem : Removed T k ht ht' o) : o = m k ∧ Holds T ht' (update m k none) := by
  cases o with
  | some e =>
    obtain ⟨rfl, h2, hitems⟩ := hrem
    refine ⟨((hm _ e).mpr ⟨⟨h2, ?_⟩, rfl⟩).symm, hm.erase h.distinct hitems⟩
    rw [hitems]
    exact mem_cons_self _ _
  | none =>
    obtain ⟨hitems, hno⟩ := hrem
    have hnone : m k = none := hm.eq_none hno
    refine ⟨hnone.symm, ?_⟩
    rw [update_eq_self_iff.mpr hnone.symm]
    exact hm.of_items hitems

/-- Replacing the entry of a key by another one of the key. -/
theorem Holds.overwrite (hm : Holds T ht m) (h : Inv T ht)
    (hx : Located ht p (h2, old)) (hkey : T.entryGetKey new = T.entryGetKey old) :
    Inv T (ht.overwrite p new)
      ∧ Holds T (ht.overwrite p new) (update m (T.entryGetKey old) (some new)) := by
  obtain ⟨hinv, hitems⟩ := overwrite_spec h hx hkey
  -- taking the old entry out and putting the new one in
  have hins := (hm.erase h.distinct (clearPlace_spec h hx).2.1).insert
    (by rw [hkey, update_self]) hitems
  rw [hkey, update_idem] at hins
  exact ⟨hinv, hins⟩

end Map

/-! ### Runs -/

/-- The table stands for the map. -/
structure Represents (T : HashtableType K E) (ht : Hashtable E) (m : K → Option E) : Prop where
  inv : Inv T ht
  holds : Holds T ht m
  paired : ht.pauseAutoShrink = ht.pauseRehash
  range : -2 ^ 15 ≤ ht.pauseRehash ∧ ht.pauseRehash < 2 ^ 15

theorem Represents.of_settings {ht' : Hashtable E} {m m' : K → Option E} (h : Represents T ht m)
    (hinv : Inv T ht') (hm : Holds T ht' m') (hset : ht'.settings = ht.settings) :
    Represents T ht' m' := by
  simp only [Hashtable.settings, Prod.mk.injEq] at hset
  refine ⟨hinv, hm, ?_, ?_⟩
  · rw [hset.1, hset.2.1]
    exact h.paired
  · rw [hset.1]
    exact h.range

theorem Represents.of_moved {ht' : Hashtable E} (h : Represents T ht m)
    (hmoved : Moved T ht ht') : Represents T ht' m :=
  h.of_settings hmoved.inv (h.holds.of_items hmoved.items_eq) hmoved.settings_eq

/-- A lookup reports what the map has. -/
theorem LookupResult.eq {ht₁ : Hashtable E} {o : Option (Place × E)}
    (hm : Holds T ht₁ m) (h : LookupResult T ht₁ k o) : o.map (·.2) = m k := by
  cases o with
  | some f => exact ((hm k f.2).mpr ⟨⟨h.1.choose, h.1.choose_spec.mem⟩, h.2⟩).symm
  | none => exact (hm.eq_none h).symm

section Lookup

variable [DecidableEq K]

theorem hashtableFindRef_spec (h : Represents T ht m) (k : K) :
    ∃ r, hashtableFindRef T ht k = some r ∧ Represents T r.1 m ∧ LookupResult T r.1 k r.2 := by
  rw [hashtableFindRef]
  split
  · rename_i hsize
    exact ⟨(ht, none), rfl, h, fun x hx => absurd hx (notMem_items h.inv hsize x)⟩
  · obtain ⟨r, hr, hmoved, hres⟩ := findBucket_spec h.inv k
    exact ⟨r, hr, h.of_moved hmoved, hres⟩

/-- A lookup reports exactly the entry of the key. -/
theorem hashtableFind_spec (h : Represents T ht m) (k : K) :
    ∃ ht', hashtableFind T ht k = some (ht', m k) ∧ Represents T ht' m := by
  obtain ⟨r, hr, hrep, hres⟩ := hashtableFindRef_spec h k
  refine ⟨r.1, ?_, hrep⟩
  rw [hashtableFindRef] at hr
  rw [hashtableFind]
  split
  · rename_i hsize
    rw [if_pos hsize] at hr
    cases hr
    rw [← hres.eq hrep.holds]
    rfl
  · rename_i hsize
    rw [if_neg hsize] at hr
    rw [hr, map_some, hres.eq hrep.holds]

end Lookup

section Run

theorem represents_create (policy : ResizePolicy) (canAbort : Bool) :
    Represents T (hashtableCreate policy canAbort) fun _ => none := by
  refine ⟨⟨fun _ => TableOk.reset, fun _ => rfl, absurd rfl,
    nofun, ?_, fun _ => Nat.one_pos, absurd rfl⟩,
    holds_empty rfl, rfl, show (-2 ^ 15 : Int) ≤ 0 by decide, show (0 : Int) < 2 ^ 15 by decide⟩
  exact nodup_zero

theorem TableOk.contents_eq_zero (h : TableOk T t) (hexp : t.exp < 0) :
    t.contents = 0 := by
  have hnone : t.exp = -1 := by
    rcases h.exp_range with hx | hx
    · exact hx
    · omega
  rw [Table.contents, hnone]
  rfl

theorem hashtableEmpty_represents (h : Represents T ht m) :
    Represents T (hashtableEmpty ht) (fun _ => none) ∧ (hashtableEmpty ht).size = 0
      ∧ (hashtableEmpty ht).settings = ht.settings := by
  have htable : ∀ i, TableOk T ((hashtableEmpty ht).tables i) ∧
      ((hashtableEmpty ht).tables i).contents = 0 := by
    intro i
    change TableOk T (if (ht.tables i).exp < 0 then ht.tables i else Table.reset)
      ∧ (if (ht.tables i).exp < 0 then ht.tables i else Table.reset).contents = 0
    split
    · rename_i hexp
      exact ⟨h.inv.ok i, (h.inv.ok i).contents_eq_zero hexp⟩
    · exact ⟨TableOk.reset, contents_reset⟩
  have hitems : (hashtableEmpty ht).items = 0 := by
    rw [items, (htable 0).2, (htable 1).2]
    rfl
  have hsecond : (hashtableEmpty ht).tables 1 = Table.reset := by
    change (if (ht.tables 1).exp < 0 then ht.tables 1 else Table.reset) = Table.reset
    split
    · rename_i hexp
      by_cases hidle : ht.rehashIdx = -1
      · exact h.inv.idle hidle
      · rcases (h.inv.ok 1).exp_range with hx | hx
        · exact absurd hx (h.inv.busy hidle).2.2.1
        · omega
    · rfl
  have haddr : ∀ i, ((hashtableEmpty ht).tables i).addr < ht.nextAddr := by
    intro i
    change (if (ht.tables i).exp < 0 then ht.tables i else Table.reset).addr < ht.nextAddr
    split
    · exact h.inv.addrs.1 i
    · exact Nat.zero_lt_of_lt (h.inv.addrs.1 i)
  refine ⟨⟨⟨fun i => (htable i).1, fun _ => hsecond, absurd rfl,
    fun i hi => absurd hi (Nat.not_lt_zero i), ?_, haddr, absurd rfl⟩, holds_empty hitems, h.paired,
    h.range⟩, ?_, rfl⟩
  · rw [hitems]
    exact nodup_zero
  · rw [Hashtable.size, (htable 0).1.used_eq, (htable 1).1.used_eq, (htable 0).2, (htable 1).2]
    rfl

theorem Represents.nodup (h : Represents T ht m) : (ht.items.map Prod.snd).Nodup := by
  refine Multiset.Nodup.of_map T.entryGetKey ?_
  rw [map_map]
  exact h.inv.distinct

theorem Represents.mem_iff (h : Represents T ht m) (e : E) :
    e ∈ ht.items.map Prod.snd ↔ m (T.entryGetKey e) = some e := by
  rw [h.holds, mem_map]
  constructor
  · rintro ⟨⟨h2, e'⟩, hmem, rfl⟩
    exact ⟨⟨h2, hmem⟩, rfl⟩
  · rintro ⟨⟨h2, hmem⟩, -⟩
    exact ⟨_, hmem, rfl⟩

variable [DecidableEq K] [DecidableEq E]

/-- What a call does to the map, and what it reports. -/
def spec (T : HashtableType K E) (m : K → Option E) (c : Call K E) (r : Reply E)
    (m' : K → Option E) : Prop :=
  match c with
  | .find k => r = .entry (m k) ∧ m' = m
  | .findRef k e => r = .entry (m k) ∧ m' = if (m k).isSome then update m k (some e) else m
  | .addOrFind e _ => r = .entry (m (T.entryGetKey e))
      ∧ m' = if (m (T.entryGetKey e)).isSome then m
        else update m (T.entryGetKey e) (some e)
  | .insertAtPosition k e _ => r = .entry (m k)
      ∧ m' = if (m k).isSome then m else update m k (some e)
  | .pop k _ => r = .entry (m k) ∧ m' = update m k none
  | .twoPhasePop k _ => r = .entry (m k) ∧ m' = update m k none
  | .replaceReallocatedEntry old new => r = .flag (decide (m (T.entryGetKey new) = some old))
      ∧ m' = if m (T.entryGetKey new) = some old then
        update m (T.entryGetKey new) (some new) else m
  | _ => m' = m

/-- What the callers owe: an entry given for a key has the key, and a pause is taken
back only where one is counted. -/
def Proper (T : HashtableType K E) (ht : Hashtable E) : Call K E → Prop
  | .findRef k e => T.entryGetKey e = k
  | .insertAtPosition k e _ => T.entryGetKey e = k
  | .replaceReallocatedEntry old new => T.entryGetKey old = T.entryGetKey new
  | .twoPhasePop _ _ => 0 ≤ ht.pauseRehash
  | .resumeRehashing _ => 0 < ht.pauseRehash
  | _ => True

variable {m : K → Option E}

theorem step_findRef (h : Represents T ht m) (e : E) :
    ∃ ht' r m', step T ht (.findRef (T.entryGetKey e) e) = some (ht', r)
      ∧ spec T m (.findRef (T.entryGetKey e) e) r m' ∧ Represents T ht' m' := by
  obtain ⟨⟨ht₁, o⟩, hr, hrep, hres⟩ := hashtableFindRef_spec h (T.entryGetKey e)
  have heq := hres.eq hrep.holds
  cases o with
  | none =>
    refine ⟨ht₁, .entry none, m, by simp only [step, hr, map_some], ⟨by rw [← heq]; rfl, ?_⟩, hrep⟩
    rw [← heq]
    rfl
  | some f =>
    obtain ⟨⟨h2, hloc⟩, hkey⟩ := hres
    obtain ⟨hinv', hm'⟩ := hrep.holds.overwrite hrep.inv hloc hkey.symm
    refine ⟨ht₁.overwrite f.1 e, .entry (some f.2), _, by simp only [step, hr, map_some],
      ⟨by rw [← heq]; rfl, rfl⟩, ?_⟩
    rw [← heq]
    rw [hkey] at hm'
    exact hrep.of_settings hinv' hm' rfl

/-- The two phases of an insert do what `hashtableAddOrFind` does. -/
theorem insertAtPosition_addOrFind (h : Inv T ht) (e : E) (allowed : Bool) :
    step T ht (.insertAtPosition (T.entryGetKey e) e allowed)
      = (hashtableAddOrFind T ht e allowed).map fun r => (r.1, .entry r.2) := by
  obtain ⟨⟨ht₁, o⟩, hfind, hmoved, hres⟩ := findBucket_spec h (T.entryGetKey e)
  simp only [step, hashtableFindPositionForInsert, hashtableAddOrFind, HashtableType.hashEntry,
    hfind, bind_some]
  cases o with
  | some f => rfl
  | none =>
    obtain ⟨r, hr, hmoved₁, halloc⟩ := hashtableExpandIfNeeded_spec hmoved.inv allowed
    obtain ⟨ht₂, hstep, hmoved₂⟩ := rehashStepUnder_spec .avoid hmoved₁.inv
    simp only at hr
    simp only [insert, hr, bind_some, rehashStepOnWriteIfNeeded, hstep]
    obtain ⟨t, p, hplace, -⟩ := findBucketForInsert_spec rfl (hmoved₂.inv.ok (target ht₂))
      (target_alloc hmoved₂.inv (hmoved₂.alloc halloc)) (T.hashFunction (T.entryGetKey e))
    have hstore := insertAtPosition_eq hmoved₂.inv (hmoved₂.alloc halloc) hplace
      (highBits (T.hashFunction (T.entryGetKey e))) e
    rw [hplace, map_some, bind_some]
    simp only [hstore, map_some]

variable (h : Represents T ht m)
include h

theorem twoPhasePop_spec (k : K) (allowed : Bool) (hpos : 0 ≤ ht.pauseRehash) :
    ∃ o ht', step T ht (.twoPhasePop k allowed) = some (ht', .entry o)
      ∧ Inv T ht' ∧ ht'.settings = ht.settings ∧ Removed T k ht ht' o := by
  simp only [step, hashtableTwoPhasePopFindRef]
  split
  · rename_i hsize
    exact ⟨none, ht, rfl, h.inv, rfl, rfl, fun x hx => absurd hx (notMem_items h.inv hsize x)⟩
  · obtain ⟨⟨ht₁, o⟩, hfind, hmoved, hres⟩ := findBucket_spec h.inv k
    have h₁ := h.of_moved hmoved
    have hpause : ht₁.pauseRehash = ht.pauseRehash := (Prod.mk.inj hmoved.settings_eq).1
    rw [hfind, map_some, bind_some]
    cases o with
    | none =>
      refine ⟨none, ht₁, rfl, hmoved.inv, hmoved.settings_eq, hmoved.items_eq, fun x hx => ?_⟩
      exact hres x (hmoved.items_eq.symm ▸ hx)
    | some f =>
      obtain ⟨⟨h2, hloc⟩, hkey⟩ := hres
      obtain ⟨ht', hdel, hinv', hitems, hset⟩ := hashtableTwoPhasePopDelete_spec h₁.paired
        (hpause ▸ hpos) h₁.range.2 hloc hmoved.inv allowed
      refine ⟨some f.2, ht', by simp only [hdel, map_some], hinv',
        hset.trans hmoved.settings_eq, hkey, h2, ?_⟩
      rw [← hmoved.items_eq]
      exact hitems

theorem step_twoPhasePop (k : K) (allowed : Bool) (hpos : 0 ≤ ht.pauseRehash) :
    ∃ ht' r m', step T ht (.twoPhasePop k allowed) = some (ht', r)
      ∧ spec T m (.twoPhasePop k allowed) r m' ∧ Represents T ht' m' := by
  obtain ⟨o, ht', hstep, hinv', hset, hrem⟩ := twoPhasePop_spec h k allowed hpos
  obtain ⟨hreply, hm'⟩ := hrem.holds h.holds h.inv
  exact ⟨ht', .entry o, _, hstep, ⟨by rw [hreply], rfl⟩, h.of_settings hinv' hm' hset⟩

theorem step_replaceReallocatedEntry (hkey : T.entryGetKey old = T.entryGetKey new) :
    ∃ ht' r m', step T ht (.replaceReallocatedEntry old new) = some (ht', r)
      ∧ spec T m (.replaceReallocatedEntry old new) r m' ∧ Represents T ht' m' := by
  obtain ⟨r, hr, hres⟩ := searchTables_spec h.inv (T.hashEntry new) fun h2 e =>
    h2 == highBits (T.hashEntry new) && decide (e = old)
  cases r with
  | some f =>
    obtain ⟨h2, hloc, hp⟩ := hres
    rw [Bool.and_eq_true, decide_eq_true_eq] at hp
    have hold : f.2 = old := hp.2
    rw [hold] at hloc
    have hsome : m (T.entryGetKey new) = some old := (h.holds _ _).mpr ⟨⟨h2, hloc.mem⟩, hkey⟩
    obtain ⟨hinv', hm'⟩ := h.holds.overwrite h.inv hloc hkey.symm
    rw [hkey] at hm'
    refine ⟨ht.overwrite f.1 new, .flag true, _, ?_, ⟨by rw [hsome]; simp, rfl⟩, ?_⟩
    · simp only [step, hashtableReplaceReallocatedEntry, hr, map_some]
    · rw [if_pos hsome]
      exact h.of_settings hinv' hm' rfl
  | none =>
    have hno : m (T.entryGetKey new) ≠ some old := by
      intro hsome
      obtain ⟨⟨h2, hmem⟩, -⟩ := (h.holds _ _).mp hsome
      obtain ⟨i, hi⟩ := mem_items.mp hmem
      have hhash : T.hashEntry old = T.hashEntry new := congrArg T.hashFunction hkey
      obtain ⟨j, hj, hxj⟩ := Table.mem_contents.mp hi
      have hh2 : h2 = highBits (T.hashEntry old) := ((h.inv.ok i).placed j hj _ hxj).1
      have hfalse := hres i trivial _ hi hhash
      rw [hhash] at hh2
      simp [hh2] at hfalse
    refine ⟨ht, .flag false, m, ?_, ⟨by simp [hno], (if_neg hno).symm⟩, h⟩
    simp only [step, hashtableReplaceReallocatedEntry, hr, map_some]

/-- **One call.**  It returns, and does to the map what the specification says. -/
theorem step_spec (c : Call K E) (hc : Proper T ht c) :
    ∃ ht' r m', step T ht c = some (ht', r) ∧ spec T m c r m' ∧ Represents T ht' m' := by
  have hinv := h.inv
  have hholds := h.holds
  cases c with
  | find k =>
    obtain ⟨ht', hr, hrep⟩ := hashtableFind_spec h k
    exact ⟨ht', .entry (m k), m, by simp only [step, hr, map_some], ⟨rfl, rfl⟩, hrep⟩
  | findRef k e =>
    obtain rfl : T.entryGetKey e = k := hc
    exact step_findRef h e
  | addOrFind e allowed =>
    obtain ⟨r, hr, hinv', hset, hreply, hm'⟩ := hashtableAddOrFind_spec hinv hholds e allowed
    refine ⟨r.1, .entry r.2, _, by simp only [step, hr, map_some], ⟨by rw [hreply], rfl⟩,
      h.of_settings hinv' hm' hset⟩
  | insertAtPosition k e allowed =>
    obtain rfl : T.entryGetKey e = k := hc
    obtain ⟨r, hr, hinv', hset, hreply, hm'⟩ := hashtableAddOrFind_spec hinv hholds e allowed
    refine ⟨r.1, .entry r.2, _, by rw [insertAtPosition_addOrFind hinv, hr]; rfl,
      ⟨by rw [hreply], rfl⟩, h.of_settings hinv' hm' hset⟩
  | pop k allowed =>
    obtain ⟨r, hr, hinv', hset, hrem⟩ := hashtablePop_spec hinv k allowed
    obtain ⟨hreply, hm'⟩ := hrem.holds hholds hinv
    exact ⟨r.1, .entry r.2, _, by simp only [step, hr, map_some], ⟨by rw [hreply], rfl⟩,
      h.of_settings hinv' hm' hset⟩
  | twoPhasePop k allowed => exact step_twoPhasePop h k allowed hc
  | replaceReallocatedEntry old new => exact step_replaceReallocatedEntry h hc
  | expand size allowed =>
    obtain ⟨r, hr, hmoved⟩ := expand_spec hinv size allowed true
    exact ⟨r.1, .flag r.2, m, by simp only [step, hashtableExpand, hr, map_some], rfl,
      h.of_moved hmoved⟩
  | tryExpand size allowed mallocOk =>
    obtain ⟨r, hr, hmoved⟩ := expand_spec hinv size allowed mallocOk
    exact ⟨r.1, .flag (r.2 || mallocOk), m,
      by simp only [step, hashtableTryExpand, hr, map_some], rfl, h.of_moved hmoved⟩
  | expandIfNeeded allowed =>
    obtain ⟨r, hr, hmoved, -⟩ := hashtableExpandIfNeeded_spec hinv allowed
    exact ⟨r.1, .flag r.2, m, by simp only [step, hr, map_some], rfl, h.of_moved hmoved⟩
  | shrinkIfNeeded allowed =>
    obtain ⟨r, hr, hmoved⟩ := hashtableShrinkIfNeeded_spec hinv allowed
    exact ⟨r.1, .flag r.2, m, by simp only [step, hr, map_some], rfl, h.of_moved hmoved⟩
  | rightsizeIfNeeded allowed =>
    obtain ⟨r, hr, hmoved⟩ := hashtableRightsizeIfNeeded_spec hinv allowed
    exact ⟨r.1, .flag r.2, m, by simp only [step, hr, map_some], rfl, h.of_moved hmoved⟩
  | rehashMicroseconds steps =>
    obtain ⟨ht', hr, hmoved⟩ := hashtableRehashMicroseconds_spec hinv steps
    exact ⟨ht', .none, m, by simp only [step, hr, map_some], rfl, h.of_moved hmoved⟩
  | setResizePolicy policy | setCanAbortShrink canAbort | setSafeIterators n =>
    exact ⟨_, .none, m, rfl, rfl, hinv.of_tables rfl rfl rfl, hholds.of_items rfl, h.paired,
      h.range⟩
  | pauseRehashing =>
    refine ⟨_, .none, m, rfl, rfl, hinv.of_tables rfl rfl rfl, hholds.of_items rfl, ?_, i16_range _⟩
    exact congrArg (fun n => i16 (n + 1)) h.paired
  | resumeRehashing allowed =>
    have hpos : 0 < ht.pauseRehash := hc
    have hrange := h.range
    have hself : i16 (ht.pauseRehash - 1) = ht.pauseRehash - 1 := i16_of_range ⟨by omega, by omega⟩
    obtain ⟨ht', hr, hmoved⟩ := hashtableResumeRehashing_spec hinv (by rw [hself]; omega) allowed
    refine ⟨ht', .none, m, by simp only [step, hr, map_some], rfl, Represents.of_moved ?_ hmoved⟩
    refine ⟨hinv.of_tables rfl rfl rfl, hholds.of_items rfl, ?_, i16_range _⟩
    exact congrArg (fun n => i16 (n - 1)) h.paired

omit h

/-- **The hash table is a finite map.**  Every sequence of calls goes through, reports what
the map of the entries stored and not removed has, and leaves a table in which every key is
found, the two counts of entries add up to the number of keys, each count of child buckets is
exact, and every entry of the map is stored exactly once. -/
theorem hashtable_refines_map (T : HashtableType K E) (policy : ResizePolicy) (canAbort : Bool)
    (cs : List (Call K E))
    (hcs : Runs.Along (step T) (Proper T) (hashtableCreate policy canAbort) cs) :
    ∃ ht rs m, Runs.run (step T) (hashtableCreate policy canAbort) cs = some (ht, rs)
      ∧ Runs.Traces (spec T) (fun _ => none) cs rs m
      ∧ (∀ k, ∃ ht', hashtableFind T ht k = some (ht', m k))
      ∧ (ht.tables 0).used + (ht.tables 1).used = Set.ncard {k | (m k).isSome}
      ∧ (∀ i, (ht.tables i).childBuckets = (ht.tables i).children)
      ∧ (ht.items.map Prod.snd).Nodup
      ∧ ∀ e, e ∈ ht.items.map Prod.snd ↔ m (T.entryGetKey e) = some e := by
  obtain ⟨ht, rs, m, hrun, htrace, hrep⟩ := Runs.run_traces (J := Represents T)
    (fun _ c _ h hc => step_spec h c hc) (represents_create policy canAbort) hcs
  refine ⟨ht, rs, m, hrun, htrace, fun k => ?_, hrep.holds.size_eq hrep.inv,
    fun i => (hrep.inv.ok i).child_eq, hrep.nodup, hrep.mem_iff⟩
  obtain ⟨ht', hfind, -⟩ := hashtableFind_spec hrep k
  exact ⟨ht', hfind⟩

open Runs

/-- The calls that look for entries or store them; the others arrange the buckets. -/
def Call.accesses : Call K E → Bool
  | .find _ | .findRef .. | .addOrFind .. | .insertAtPosition .. | .pop .. | .twoPhasePop ..
  | .replaceReallocatedEntry .. => true
  | _ => false

/-- **Rehashing is invisible.**  Two tables of one map, with any hash functions, sizes, policies and
rehashes under way, give the same replies to the same accesses and end as one map, whatever calls
arrange the buckets in between. -/
theorem accesses_agree (T T' : HashtableType K E) (hkey : T.entryGetKey = T'.entryGetKey)
    {ht ht' : Hashtable E} (h : Represents T ht m) (h' : Represents T' ht' m)
    (cs cs' : List (Call K E)) (hcs : Along (step T) (Proper T) ht cs)
    (hcs' : Along (step T') (Proper T') ht' cs')
    (hsame : cs.filter Call.accesses = cs'.filter Call.accesses) :
    ∃ t rs t' rs' m', run (step T) ht cs = some (t, rs) ∧ run (step T') ht' cs' = some (t', rs')
      ∧ repliesTo Call.accesses cs rs = repliesTo Call.accesses cs' rs'
      ∧ Represents T t m' ∧ Represents T' t' m' := by
  obtain ⟨t, rs, m₁, hrun, htrace, hrep⟩ :=
    run_traces (J := Represents T) (fun _ c _ h hc => step_spec h c hc) h hcs
  obtain ⟨t', rs', m₂, hrun', htrace', hrep'⟩ :=
    run_traces (J := Represents T') (fun _ c _ h hc => step_spec h c hc) h' hcs'
  -- the specification knows the type by the keys of its entries
  have hspec : spec T' = spec T := by
    funext m c r m'
    cases c <;> simp only [spec, hkey]
  have hidle : ∀ m c r m', Call.accesses c = false → spec T m c r m' → m' = m := by
    intro m c
    cases c <;> simp [Call.accesses, spec]
  have hfun : ∀ m c r r' m₁ m₂, Call.accesses c = true → spec T m c r m₁ → spec T m c r' m₂ →
      r = r' ∧ m₁ = m₂ := by
    intro m c
    cases c <;> simp +contextual [Call.accesses, spec]
  rw [hspec] at htrace'
  have hright := htrace'.filter hidle
  rw [← hsame] at hright
  obtain ⟨hreplies, rfl⟩ :=
    (htrace.filter hidle).unique hfun hright fun c hc => (List.mem_filter.mp hc).2
  exact ⟨t, rs, t', rs', m₁, hrun, hrun', hreplies, hrep, hrep'⟩

end Run

/-- A type whose keys all have the same hash. -/
def collide : HashtableType Nat Nat := ⟨id, fun _ => 0, false⟩

/-- Eight entries of one bucket, some removed and replaced. -/
theorem hashtable_refines_map_collide :
    ∃ ht rs m, Runs.run (step collide) (hashtableCreate .allow true)
        [.addOrFind 1 true, .addOrFind 2 true, .addOrFind 3 true, .addOrFind 4 true,
          .addOrFind 5 true, .addOrFind 6 true, .addOrFind 7 true, .insertAtPosition 8 8 true,
          .find 8, .pop 1 true, .replaceReallocatedEntry 2 2, .shrinkIfNeeded true, .find 2]
        = some (ht, rs)
      ∧ Runs.Traces (spec collide) (fun _ => none)
        [.addOrFind 1 true, .addOrFind 2 true, .addOrFind 3 true, .addOrFind 4 true,
          .addOrFind 5 true, .addOrFind 6 true, .addOrFind 7 true, .insertAtPosition 8 8 true,
          .find 8, .pop 1 true, .replaceReallocatedEntry 2 2, .shrinkIfNeeded true, .find 2] rs m
      ∧ (∀ k, ∃ ht', hashtableFind collide ht k = some (ht', m k))
      ∧ (ht.tables 0).used + (ht.tables 1).used = Set.ncard {k | (m k).isSome}
      ∧ (∀ i, (ht.tables i).childBuckets = (ht.tables i).children)
      ∧ (ht.items.map Prod.snd).Nodup
      ∧ ∀ e, e ∈ ht.items.map Prod.snd ↔ m (collide.entryGetKey e) = some e :=
  hashtable_refines_map collide .allow true _ (Runs.along_of_forall (by
    intro c hc ht
    simp only [List.mem_cons, List.not_mem_nil, or_false] at hc
    rcases hc with rfl | rfl | rfl | rfl | rfl | rfl | rfl | rfl | rfl | rfl | rfl | rfl | rfl <;>
      first | exact trivial | rfl))

open Runs in
/-- With another hash function, after an expansion. -/
theorem accesses_agree_expand : ∃ t rs t' rs' m',
    run (step collide) (hashtableCreate .allow true) [.addOrFind 1 true, .find 1] = some (t, rs)
      ∧ run (step ⟨id, Nat.cast, false⟩) (hashtableCreate .avoid false)
        [.expand 9 true, .addOrFind 1 true, .find 1] = some (t', rs')
      ∧ repliesTo Call.accesses [.addOrFind 1 true, .find 1] rs
        = repliesTo Call.accesses [.expand 9 true, .addOrFind 1 true, .find 1] rs'
      ∧ Represents collide t m' ∧ Represents ⟨id, Nat.cast, false⟩ t' m' := by
  have hagree := accesses_agree collide ⟨id, Nat.cast, false⟩ rfl (represents_create .allow true)
    (represents_create .avoid false) [.addOrFind 1 true, .find 1]
    [.expand 9 true, .addOrFind 1 true, .find 1]
    (along_of_forall (by simp [Proper])) (along_of_forall (by simp [Proper])) rfl
  exact hagree

end NexCache.HashTables
