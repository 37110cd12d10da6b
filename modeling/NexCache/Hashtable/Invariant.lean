import NexCache.Hashtable.Table

/-!
# What holds between the calls of the hash table

`TableOk` speaks of one array: chains are linked, every entry lies in the chain
of its hash with the high byte of the hash beside it, and the two counters are
exact.  `Inv` adds what ties the arrays together: outside a resize the second one
is absent, during a resize the chains below `rehashIdx` are empty.

`Moved ht ht'` says that `ht'` holds the entries of `ht`, perhaps elsewhere.
Rehash steps, resizes and turned shrinks are all of this kind.
-/

namespace NexCache.HashTables

open Machine Function List Option Nat
open Multiset hiding filter filterMap filterMap_filter map map_cons

variable {K E : Type*} {T : HashtableType K E}

/-! ### One array -/

variable {exp : Int} {idx : Nat} {hash : BitVec 64}

theorem numBuckets_pos (h : exp ≠ -1) : 0 < numBuckets exp := by
  rw [numBuckets, if_neg h]
  exact Nat.two_pow_pos _

theorem numBuckets_of_ne (h : exp ≠ -1) : numBuckets exp = 2 ^ exp.toNat := if_neg h

theorem numBuckets_eq_zero : numBuckets exp = 0 ↔ exp = -1 := by
  constructor
  · intro h
    by_contra hne
    exact (numBuckets_pos hne).ne' h
  · rintro rfl
    rfl

/-- Masking is a remainder. -/
theorem bucketIdx_eq (h : exp ≠ -1) (hash : BitVec 64) :
    bucketIdx hash exp = hash.toNat % 2 ^ exp.toNat := by
  rw [bucketIdx, expToMask, if_neg h, numBuckets_of_ne h, and_two_pow_sub_one_eq_mod]

theorem bucketIdx_lt (h : exp ≠ -1) (hash : BitVec 64) : bucketIdx hash exp < numBuckets exp := by
  rw [bucketIdx_eq h, numBuckets_of_ne h]
  exact Nat.mod_lt _ (Nat.two_pow_pos _)

namespace Table

def contents (t : Table E) : Multiset (BitVec 8 × E) :=
  ∑ i ∈ Finset.range (numBuckets t.exp), stored (t.chains i)

/-- The number of chained buckets. -/
def children (t : Table E) : Nat :=
  ∑ i ∈ Finset.range (numBuckets t.exp), ((t.chains i).length - 1)

variable {x : BitVec 8 × E}

theorem mem_contents {t : Table E} :
    x ∈ t.contents ↔ ∃ i < numBuckets t.exp, x ∈ stored (t.chains i) := by
  simp [contents, mem_sum]

theorem chain?_of_lt {t : Table E} (h : idx < numBuckets t.exp) :
    t.chain? idx = some (t.chains idx) := if_pos h

/-- A sum over the chains of a table changes by what one chain contributes. -/
theorem sum_update {M : Type*} [AddCommMonoid M] (f : Chain E → M) (t : Table E) {idx n : Nat}
    (h : idx < n) (c : Chain E) :
    ∑ i ∈ Finset.range n, f (update t.chains idx c i) + f (t.chains idx)
      = ∑ i ∈ Finset.range n, f (t.chains i) + f c := by
  have hmem : idx ∈ Finset.range n := Finset.mem_range.mpr h
  rw [← Finset.sum_erase_add _ _ hmem, ← Finset.sum_erase_add (Finset.range n)
    (fun i => f (t.chains i)) hmem, update_self]
  have hrest : ∑ i ∈ (Finset.range n).erase idx, f (update t.chains idx c i)
      = ∑ i ∈ (Finset.range n).erase idx, f (t.chains i) := by
    refine Finset.sum_congr rfl fun i hi => ?_
    rw [update_of_ne (Finset.ne_of_mem_erase hi)]
  rw [hrest, add_right_comm]

end Table

/-- An entry is in the chain of its hash, with the high byte of the hash beside it. -/
def Placed (T : HashtableType K E) (exp : Int) (idx : Nat) (x : BitVec 8 × E) : Prop :=
  x.1 = highBits (T.hashEntry x.2) ∧ bucketIdx (T.hashEntry x.2) exp = idx

structure TableOk (T : HashtableType K E) (t : Table E) : Prop where
  exp_range : t.exp = -1 ∨ 0 ≤ t.exp ∧ t.exp ≤ 57
  linked : ∀ i < numBuckets t.exp, Linked (t.chains i)
  placed : ∀ i < numBuckets t.exp, ∀ x ∈ stored (t.chains i), Placed T t.exp i x
  used_eq : t.used = t.contents.card
  child_eq : t.childBuckets = t.children

namespace TableOk

theorem reset : TableOk T (Table.reset : Table E) where
  exp_range := .inl rfl
  linked i hi := absurd hi (not_lt_zero i)
  placed i hi := absurd hi (not_lt_zero i)
  used_eq := rfl
  child_eq := rfl

theorem fresh {exp : Int} (hexp : 0 ≤ exp ∧ exp ≤ 57) (addr : Nat) :
    TableOk T (⟨addr, exp, fun _ => [Bucket.empty], 0, 0⟩ : Table E) where
  exp_range := .inr hexp
  linked i _ := linked_singleton _
  placed i _ x hx := by simp at hx
  used_eq := by simp [Table.contents]
  child_eq := by simp [Table.children]

theorem contents_fresh (addr : Nat) (exp : Int) :
    (⟨addr, exp, fun _ => [Bucket.empty], 0, 0⟩ : Table E).contents = 0 := by
  simp [Table.contents]

variable {t : Table E}

/-- An entry is found in no other chain than that of its hash. -/
theorem mem_chain (h : TableOk T t) (hx : x ∈ t.contents) :
    t.exp ≠ -1 ∧ x ∈ stored (t.chains (bucketIdx (T.hashEntry x.2) t.exp)) := by
  obtain ⟨i, hi, hxi⟩ := Table.mem_contents.mp hx
  have hexp : t.exp ≠ -1 := fun hneg => by
    rw [hneg] at hi
    exact not_lt_zero i hi
  rw [(h.placed i hi x hxi).2]
  exact ⟨hexp, hxi⟩

theorem setChain (h : TableOk T t) {idx used child : Nat} {c : Chain E}
    (hidx : idx < numBuckets t.exp)
    (hlinked : Linked c) (hplaced : ∀ x ∈ stored c, Placed T t.exp idx x)
    (hused : used + (stored (t.chains idx)).card = t.used + (stored c).card)
    (hchild : child + ((t.chains idx).length - 1) = t.childBuckets + (c.length - 1)) :
    TableOk T { t.setChain idx c with used := used, childBuckets := child } := by
  refine ⟨h.exp_range, ?_, ?_, ?_, ?_⟩
  · intro i hi
    by_cases hne : i = idx
    · subst hne
      simpa [Table.setChain] using hlinked
    · simpa [Table.setChain, hne] using h.linked i hi
  · intro i hi
    by_cases hne : i = idx
    · subst hne
      simpa [Table.setChain] using hplaced
    · simpa [Table.setChain, hne] using h.placed i hi
  · have hsum := congrArg card (Table.sum_update stored t hidx c)
    rw [card_add, card_add] at hsum
    have hu := h.used_eq
    simp only [Table.contents, Table.setChain] at hsum hu ⊢
    omega
  · have hsum := Table.sum_update (fun c => c.length - 1) t hidx c
    have hc := h.child_eq
    simp only [Table.children, Table.setChain] at hsum hc ⊢
    omega

/-- The children of one chain are among those counted. -/
theorem length_le_child (h : TableOk T t) (hidx : idx < numBuckets t.exp) :
    (t.chains idx).length - 1 ≤ t.childBuckets := by
  rw [h.child_eq, Table.children]
  exact Finset.single_le_sum (f := fun i => (t.chains i).length - 1) (fun i _ => zero_le _)
    (Finset.mem_range.mpr hidx)

theorem contents_setChain (t : Table E) (hidx : idx < numBuckets t.exp) (c : Chain E) :
    (t.setChain idx c).contents + stored (t.chains idx) = t.contents + stored c :=
  Table.sum_update stored t hidx c

end TableOk

/-! ### Adding an entry -/

@[simp] theorem setTable_self (ht : Hashtable E) (i : Fin 2) (t : Table E) :
    (ht.setTable i t).tables i = t := update_self ..

theorem setTable_of_ne (ht : Hashtable E) {i j : Fin 2} (h : j ≠ i) (t : Table E) :
    (ht.setTable i t).tables j = ht.tables j := update_of_ne h _ _

@[simp] theorem setTable_setTable (ht : Hashtable E) (i : Fin 2) (t t' : Table E) :
    (ht.setTable i t).setTable i t' = ht.setTable i t' := by
  simp [Hashtable.setTable]

/-- The table that inserts go to. -/
def target (ht : Hashtable E) : Fin 2 := if ht.isRehashing then 1 else 0

theorem putAt_ok {t : Table E} (h : TableOk T t) {idx depth : Nat} {pos : Fin 7}
    (hexp : t.exp ≠ -1) (hx : Placed T t.exp idx x) (hfree : FreeAt (t.chains idx) depth pos) :
    TableOk T { t.setChain idx (putAt (t.chains idx) depth pos x) with used := t.used + 1 }
      ∧ (t.setChain idx (putAt (t.chains idx) depth pos x)).contents = x ::ₘ t.contents := by
  have hidx : idx < numBuckets t.exp := hx.2 ▸ bucketIdx_lt hexp _
  obtain ⟨hlinked, hstored⟩ := putAt_spec (h.linked _ hidx) hfree x
  constructor
  · refine h.setChain hidx hlinked ?_ ?_ (by rw [length_putAt]; rfl)
    · rw [hstored]
      exact forall_mem_cons.mpr ⟨hx, h.placed _ hidx⟩
    · rw [hstored, card_cons]
      omega
  · have hsum := TableOk.contents_setChain t hidx (putAt (t.chains idx) depth pos x)
    rw [hstored, add_cons, ← cons_add] at hsum
    exact add_right_cancel hsum

section Insert

variable {ht : Hashtable E} {t : Table E} (hto : ht.tables (target ht) = t) (h : TableOk T t)
  (hexp : t.exp ≠ -1)
include hto h hexp

theorem findBucketForInsert_spec (hash : BitVec 64) :
    ∃ t' p, findBucketForInsert ht hash = some (ht.setTable (target ht) t', p)
      ∧ p.table = target ht ∧ p.idx = bucketIdx hash t.exp ∧ TableOk T t' ∧ t'.exp = t.exp ∧
      t'.addr = t.addr
      ∧ t'.contents = t.contents ∧ FreeAt (t'.chains p.idx) p.depth p.pos := by
  have hidx := bucketIdx_lt hexp hash
  obtain ⟨r, hr, hlinked, hstored, hlen, hfree⟩ := findPlaceForInsert_spec (h.linked _ hidx)
  refine ⟨{ t.setChain (bucketIdx hash t.exp) r.chain with
      childBuckets := t.childBuckets + r.added },
    ⟨target ht, bucketIdx hash t.exp, r.depth, r.pos⟩, ?_, rfl, rfl,
    h.setChain hidx hlinked ?_ (by rw [hstored]; rfl) ?_, rfl, rfl, ?_, ?_⟩
  · simp only [findBucketForInsert]
    rw [← target, hto, Table.chain?_of_lt hidx, bind_some, hr]
    rfl
  · rw [hstored]
    exact h.placed _ hidx
  · have hpos := length_pos_of_ne_nil (h.linked _ hidx).1
    omega
  · have hsum := TableOk.contents_setChain _ hidx r.chain
    rw [hstored] at hsum
    exact add_right_cancel hsum
  · simpa [Table.setChain] using hfree

/-- A place is found for an entry and the entry is stored there. -/
theorem findBucketForInsert_store (hx : Placed T t.exp (bucketIdx hash t.exp) x) :
    ∃ t', (findBucketForInsert ht hash).map (fun r => r.1.store r.2 x) =
      some (ht.setTable (target ht) t') ∧ TableOk T t' ∧ t'.exp = t.exp ∧ t'.addr = t.addr
      ∧ t'.contents = x ::ₘ t.contents := by
  obtain ⟨t', p, hfind, htable, hidx, hok, hexp', haddr, hcont, hfree⟩ :=
    findBucketForInsert_spec hto h hexp hash
  obtain ⟨hok', hcont'⟩ := putAt_ok hok (hexp' ▸ hexp) (by rw [hidx, hexp']; exact hx) hfree
  refine ⟨_, ?_, hok', hexp', haddr, hcont'.trans (by rw [hcont])⟩
  rw [hfind, map_some, Hashtable.store, htable, setTable_self, setTable_setTable]

end Insert

/-! ### Both arrays -/

namespace Hashtable

/-- All entries, with their stored hash bits. -/
def items (ht : Hashtable E) : Multiset (BitVec 8 × E) :=
  (ht.tables 0).contents + (ht.tables 1).contents

/-- What a rehash step reads and never writes. -/
def settings (ht : Hashtable E) : Int × Int × Nat × ResizePolicy × Bool :=
  (ht.pauseRehash, ht.pauseAutoShrink, ht.safeIterators, ht.resizePolicy, ht.canAbortShrink)

end Hashtable

structure Inv (T : HashtableType K E) (ht : Hashtable E) : Prop where
  ok : ∀ i, TableOk T (ht.tables i)
  idle : ht.rehashIdx = -1 → ht.tables 1 = Table.reset
  busy : ht.rehashIdx ≠ -1 → 0 ≤ ht.rehashIdx ∧ ht.rehashIdx.toNat < numBuckets (ht.tables 0).exp
    ∧ (ht.tables 1).exp ≠ -1 ∧ (ht.tables 1).exp ≠ (ht.tables 0).exp
  /-- the chains that were moved -/
  behind : ∀ i < ht.rehashIdx.toNat,
    stored ((ht.tables 0).chains i) = 0 ∧ ((ht.tables 0).chains i).length = 1
  distinct : (ht.items.map fun x => T.entryGetKey x.2).Nodup
  /-- the arrays are allocations of their own -/
  addrs : (∀ i, (ht.tables i).addr < ht.nextAddr)
    ∧ (ht.rehashIdx ≠ -1 → (ht.tables 0).addr ≠ (ht.tables 1).addr)

structure Moved (T : HashtableType K E) (ht ht' : Hashtable E) : Prop where
  inv : Inv T ht'
  items_eq : ht'.items = ht.items
  settings_eq : ht'.settings = ht.settings
  alloc : (ht.tables 0).exp ≠ -1 → (ht'.tables 0).exp ≠ -1

variable {ht : Hashtable E}

theorem Moved.refl (h : Inv T ht) : Moved T ht ht := ⟨h, rfl, rfl, id⟩

theorem Moved.trans {ht ht' ht'' : Hashtable E} (h : Moved T ht ht') (h' : Moved T ht' ht'') :
    Moved T ht ht'' :=
  ⟨h'.inv, h'.items_eq.trans h.items_eq, h'.settings_eq.trans h.settings_eq,
    fun hne => h'.alloc (h.alloc hne)⟩

theorem isRehashing_iff : ht.isRehashing = true ↔ ht.rehashIdx ≠ -1 := by
  simp [Hashtable.isRehashing]

theorem not_isRehashing_iff : ht.isRehashing = false ↔ ht.rehashIdx = -1 := by
  simp [Hashtable.isRehashing]

theorem contents_reset : (Table.reset : Table E).contents = 0 := rfl

/-- What is kept by a change that leaves the entries and the settings alone. -/
theorem Moved.of_items {ht' : Hashtable E} (h : Inv T ht) (hitems : ht'.items = ht.items)
    (hinv : (ht'.items.map fun x => T.entryGetKey x.2).Nodup → Inv T ht')
    (hset : ht'.settings = ht.settings)
    (halloc : (ht.tables 0).exp ≠ -1 → (ht'.tables 0).exp ≠ -1) : Moved T ht ht' :=
  ⟨hinv (hitems ▸ h.distinct), hitems, hset, halloc⟩

/-! ### Rehash steps -/

theorem coe_bucketEntries {b : Bucket E} {chained : Bool} (h : chained = true → b.cell 6 = none) :
    (bucketEntries b chained : Multiset (BitVec 8 × E)) = b.stored := by
  rw [Bucket.stored_eq, bucketEntries, filterMap_filter]
  congr 1
  refine filterMap_congr fun pos _ => ?_
  split
  · rfl
  · rename_i hge
    rw [decide_eq_true_eq, numBucketPositions] at hge
    cases chained with
    | false => exact absurd pos.isLt hge
    | true =>
      have hge' : ¬ pos.val < 6 := hge
      have hsix : pos = 6 := Fin.ext (by rw [show (6 : Fin 7).val = 6 from rfl]; omega)
      rw [hsix, h rfl]

theorem coe_chainEntries {c : Chain E} (h : Linked c) :
    (chainEntries c : Multiset (BitVec 8 × E)) = stored c := by
  fun_induction chainEntries c with
  | case1 => rfl
  | case2 b => rw [coe_bucketEntries (by simp), stored_cons, stored_nil, add_zero]
  | case3 b b' l ih =>
    obtain ⟨hlink, hrest⟩ := (linked_cons (by simp)).mp h
    rw [← coe_add, coe_bucketEntries fun _ => hlink, ih hrest, stored_cons b]

theorem target_rehashing (h : ht.isRehashing = true) : target ht = 1 := if_pos h

theorem target_idle (h : ht.isRehashing = false) : target ht = 0 := by
  rw [target, h]
  rfl

/-- Both arrays given, everything else as in `ht`. -/
def withTables (ht : Hashtable E) (t₀ t₁ : Table E) : Hashtable E :=
  { ht with tables := fun i => if i = 0 then t₀ else t₁ }

@[simp] theorem withTables_zero (ht : Hashtable E) (t₀ t₁ : Table E) :
    (withTables ht t₀ t₁).tables 0 = t₀ := rfl

@[simp] theorem withTables_one (ht : Hashtable E) (t₀ t₁ : Table E) :
    (withTables ht t₀ t₁).tables 1 = t₁ := rfl

@[simp] theorem withTables_rehashIdx (ht : Hashtable E) (t₀ t₁ : Table E) :
    (withTables ht t₀ t₁).rehashIdx = ht.rehashIdx := rfl

theorem setTable_zero (ht : Hashtable E) (t : Table E) :
    ht.setTable 0 t = withTables ht t (ht.tables 1) := by
  rw [Hashtable.setTable, withTables]
  congr 1
  exact funext (Fin.forall_fin_two.mpr ⟨rfl, rfl⟩)

theorem setTable_one (ht : Hashtable E) (t : Table E) :
    ht.setTable 1 t = withTables ht (ht.tables 0) t := by
  rw [Hashtable.setTable, withTables]
  congr 1
  exact funext (Fin.forall_fin_two.mpr ⟨rfl, rfl⟩)

/-- The state inside a rehash step: `used` of the old array is counted down while
the new array is filled. -/
def moving (ht : Hashtable E) (used : Nat) (t : Table E) : Hashtable E :=
  withTables ht { ht.tables 0 with used := used } t

theorem moving_self (ht : Hashtable E) : moving ht (ht.tables 0).used (ht.tables 1) = ht :=
  (setTable_zero ht (ht.tables 0)).symm.trans (by simp [Hashtable.setTable])

variable {t : Table E} {h2 : BitVec 8 × E → BitVec 8} {g : BitVec 8 × E → BitVec 64}

/-- The hash a step uses for an entry leads to the entry's own chain. -/
theorem rehashEntry_spec (used : Nat) (hre : ht.isRehashing = true) (hok : TableOk T t)
    (hexp : t.exp ≠ -1) (hx : Placed T t.exp (bucketIdx hash t.exp) x) :
    ∃ t', rehashEntry (moving ht used t) x.2 hash x.1 = some (moving ht (used - 1) t')
      ∧ TableOk T t' ∧ t'.exp = t.exp ∧ t'.addr = t.addr ∧ t'.contents = x ::ₘ t.contents := by
  have htarget : target (moving ht used t) = 1 := target_rehashing hre
  have hone : (moving ht used t).tables (target (moving ht used t)) = t := by
    rw [htarget]
    rfl
  obtain ⟨t', hfind, hok', hexp', haddr, hcont⟩ := findBucketForInsert_store hone hok hexp hx
  rw [htarget] at hfind
  refine ⟨t', ?_, hok', hexp', haddr, hcont⟩
  obtain ⟨r, hr, hstore⟩ := map_eq_some_iff.mp hfind
  rw [rehashEntry, hr, map_some]
  simp only [Prod.mk.eta, hstore]
  rw [setTable_one, setTable_zero]
  rfl

/-- The entries of a chain are moved one by one. -/
theorem rehashEntries_spec (hre : ht.isRehashing = true) {l : List (BitVec 8 × E)} :
    ∀ (used : Nat) {t : Table E}, TableOk T t → t.exp ≠ -1 →
      (∀ x ∈ l, h2 x = x.1 ∧ Placed T t.exp (bucketIdx (g x) t.exp) x) →
      ∃ t', l.foldlM (fun ht x => rehashEntry ht x.2 (g x) (h2 x)) (moving ht used t)
          = some (moving ht (used - l.length) t')
        ∧ TableOk T t' ∧ t'.exp = t.exp ∧ t'.addr = t.addr ∧ t'.contents = l + t.contents := by
  induction l with
  | nil => exact fun used t hok _ _ => ⟨t, rfl, hok, rfl, rfl, (zero_add _).symm⟩
  | cons x l ih =>
    intro used t hok hexp hall
    obtain ⟨hh, hx⟩ := hall x mem_cons_self
    obtain ⟨t₁, hstep, hok₁, hexp₁, haddr₁, hcont₁⟩ := rehashEntry_spec used hre hok hexp hx
    obtain ⟨t₂, hfold, hok₂, hexp₂, haddr₂, hcont₂⟩ :=
        ih (used - 1) hok₁ (hexp₁ ▸ hexp) fun y hy => by
      rw [hexp₁]
      exact hall y (mem_cons_of_mem x hy)
    refine ⟨t₂, ?_, hok₂, hexp₂.trans hexp₁, haddr₂.trans haddr₁, ?_⟩
    · rw [foldlM_cons, hh, hstep]
      rw [length_cons, add_comm, sub_add_eq]
      exact hfold
    · rw [hcont₂, hcont₁, add_cons, ← cons_coe, cons_add]

@[simp] theorem stored_reset (b : Bucket E) : b.reset.stored = 0 := Cells.contents_empty _

@[simp] theorem stored_map_reset (c : Chain E) : stored (c.map Bucket.reset) = 0 := by
  induction c with
  | nil => rfl
  | cons b l ih => rw [map_cons, stored_cons, ih, stored_reset, add_zero]

/-- The chain that the next step moves. -/
abbrev oldChain (ht : Hashtable E) : Chain E := (ht.tables 0).chains ht.rehashIdx.toNat

/-- A step passed a chain, or it was the last chain that held anything. -/
def Advanced (ht ht' : Hashtable E) : Prop :=
  ht'.rehashIdx = -1 ∨ ht.rehashIdx < ht'.rehashIdx ∧ ∀ i, (ht'.tables i).exp = (ht.tables i).exp

/-- The old array once the chain at `rehashIdx` is empty. -/
def passed (ht : Hashtable E) : Table E :=
  let idx := ht.rehashIdx.toNat
  let c := (ht.tables 0).chains idx
  { (ht.tables 0).setChain idx ((c.take 1).map Bucket.reset) with
    used := (ht.tables 0).used - (stored c).card
    childBuckets := (ht.tables 0).childBuckets - (c.drop 1).length }

theorem passed_spec (h : Inv T ht) (hre : ht.rehashIdx ≠ -1) :
    TableOk T (passed ht) ∧ (passed ht).contents + stored (oldChain ht) = (ht.tables 0).contents
      ∧ ∀ i < ht.rehashIdx.toNat + 1,
        stored ((passed ht).chains i) = 0 ∧ ((passed ht).chains i).length = 1 := by
  obtain ⟨-, hidx, -, -⟩ := h.busy hre
  have hlinked := (h.ok 0).linked _ hidx
  obtain ⟨b, l, hc⟩ := exists_cons_of_ne_nil hlinked.1
  have hsum := TableOk.contents_setChain (ht.tables 0) hidx
    (((oldChain ht).take 1).map Bucket.reset)
  rw [stored_map_reset, add_zero] at hsum
  have hcard : (stored ((ht.tables 0).chains ht.rehashIdx.toNat)).card ≤ (ht.tables 0).used := by
    rw [(h.ok 0).used_eq, ← hsum, card_add]
    omega
  refine ⟨(h.ok 0).setChain hidx ?_ ?_ ?_ ?_, hsum, ?_⟩
  · rw [hc]
    exact linked_singleton _
  · rw [stored_map_reset]
    exact fun x hx => absurd hx (notMem_zero x)
  · rw [stored_map_reset, card_zero]
    omega
  · have hle := (h.ok 0).length_le_child hidx
    rw [hc] at hle ⊢
    simp only [length_cons, take_succ_cons, take_zero, map_cons, map_nil,
      drop_succ_cons, drop_zero, length_nil] at hle ⊢
    omega
  · intro i hi
    by_cases hne : i = ht.rehashIdx.toNat
    · rw [hne]
      simp [passed, Table.setChain, hc]
    · have hlt := h.behind i (by omega)
      simpa [passed, Table.setChain, hne] using hlt

/-- All chains passed: the counters are zero. -/
theorem used_zero_of_passed (hok : TableOk T t)
    (hall : ∀ i < numBuckets t.exp, stored (t.chains i) = 0 ∧ (t.chains i).length = 1) :
    t.used = 0 ∧ t.childBuckets = 0 := by
  constructor
  · rw [hok.used_eq, Table.contents, Finset.sum_eq_zero, card_zero]
    exact fun i hi => (hall i (Finset.mem_range.mp hi)).1
  · rw [hok.child_eq, Table.children, Finset.sum_eq_zero]
    exact fun i hi => Nat.sub_eq_zero_of_le (hall i (Finset.mem_range.mp hi)).2.le

theorem rehashingCompleted_eq (h : ht.rehashIdx ≠ -1) :
    rehashingCompleted ht
      = some { withTables ht (ht.tables 1) Table.reset with rehashIdx := -1 } := by
  rw [rehashingCompleted, swapTables, if_pos (isRehashing_iff.mpr h), map_some, setTable_one]
  rfl

variable (h : Inv T ht)
include h

/-- The new array takes the place of the old one, which held nothing. -/
theorem rehashingCompleted_spec (ht₁ : Hashtable E) (hre₁ : ht₁.rehashIdx ≠ -1)
    (hok : TableOk T (ht₁.tables 1)) (hexp : (ht₁.tables 1).exp ≠ -1)
    (haddr : (ht₁.tables 1).addr < ht₁.nextAddr)
    (hitems : (ht₁.tables 1).contents = ht.items) (hset : ht₁.settings = ht.settings) :
    ∃ ht', rehashingCompleted ht₁ = some ht' ∧ Moved T ht ht' ∧ ht'.rehashIdx = -1
      ∧ ht'.tables 0 = ht₁.tables 1 := by
  refine ⟨_, rehashingCompleted_eq hre₁, .of_items h ((add_zero _).trans hitems) (fun hdist =>
    ⟨?_, fun _ => rfl, absurd rfl, nofun, hdist, ?_,
      absurd rfl⟩) hset fun _ => hexp, rfl, rfl⟩
  · exact Fin.forall_fin_two.mpr ⟨hok, TableOk.reset⟩
  · exact Fin.forall_fin_two.mpr ⟨haddr, zero_lt_of_lt haddr⟩

variable (hre : ht.rehashIdx ≠ -1)
include hre

theorem rehashStepFinalize_spec (hok : TableOk T t)
    (hexp : t.exp = (ht.tables 1).exp) (haddr : t.addr = (ht.tables 1).addr)
    (hcont : t.contents = stored (oldChain ht) + (ht.tables 1).contents) :
    ∃ ht', rehashStepFinalize (moving ht ((ht.tables 0).used - (stored (oldChain ht)).card) t)
        = some ht' ∧ Moved T ht ht' ∧ Advanced ht ht' := by
  obtain ⟨hnonneg, hidx, hexp1, hne⟩ := h.busy hre
  obtain ⟨hpassed, hsum, hbehind⟩ := passed_spec h hre
  -- what the two arrays hold together is what they held before
  have hitems : (passed ht).contents + t.contents = ht.items := by
    rw [hcont, ← add_assoc, hsum]
    rfl
  have hchain (n : Nat) : Table.chain? { ht.tables 0 with used := n } ht.rehashIdx.toNat
      = some (oldChain ht) := Table.chain?_of_lt hidx
  have hunfold : rehashStepFinalize (moving ht ((ht.tables 0).used - (stored (oldChain ht)).card) t)
      = if (passed ht).used = 0 ∧ (passed ht).childBuckets = 0 then
          rehashingCompleted { withTables ht (passed ht) t with rehashIdx := ht.rehashIdx + 1 }
        else if (ht.rehashIdx + 1).toNat < numBuckets (ht.tables 0).exp then
          some { withTables ht (passed ht) t with rehashIdx := ht.rehashIdx + 1 }
        else none := by
    rw [rehashStepFinalize]
    simp only [moving, withTables_zero, setTable_zero, withTables_one, withTables_rehashIdx, hchain]
    rfl
  rw [hunfold]
  by_cases hdone : (passed ht).used = 0 ∧ (passed ht).childBuckets = 0
  · have hzero : (passed ht).contents = 0 := by
      rw [← Multiset.card_eq_zero, ← hpassed.used_eq, hdone.1]
    obtain ⟨ht', hcomp, hmoved, hend, -⟩ := rehashingCompleted_spec h
      { withTables ht (passed ht) t with rehashIdx := ht.rehashIdx + 1 }
      (by simp only; omega) hok (fun hx => hexp1 (hexp ▸ hx)) (haddr ▸ h.addrs.1 1)
      (by rw [← hitems, hzero, zero_add]; rfl) rfl
    exact ⟨ht', by rw [if_pos hdone, hcomp], hmoved, .inl hend⟩
  · have hlt : (ht.rehashIdx + 1).toNat < numBuckets (ht.tables 0).exp := by
      by_contra hge
      refine hdone (used_zero_of_passed hpassed fun i hi => hbehind i ?_)
      have hi' : i < numBuckets (ht.tables 0).exp := hi
      omega
    rw [if_neg hdone, if_pos hlt]
    refine ⟨_, rfl, .of_items h hitems (fun hdist => ⟨Fin.forall_fin_two.mpr ⟨hpassed, hok⟩,
      fun hx => ?_, fun _ => ⟨?_, hlt, ?_, ?_⟩, ?_, hdist, ?_, fun _ => ?_⟩) rfl id,
      .inr ⟨Int.lt_succ _, Fin.forall_fin_two.mpr ⟨rfl, hexp⟩⟩⟩
    · simp only at hx
      omega
    · exact Int.le_add_one hnonneg
    · exact fun hx => hexp1 (hexp ▸ hx)
    · exact fun hx => hne (hexp ▸ hx)
    · intro i hi
      refine hbehind i ?_
      simp only at hi
      omega
    · exact Fin.forall_fin_two.mpr ⟨h.addrs.1 0, haddr ▸ h.addrs.1 1⟩
    · exact fun hx => h.addrs.2 hre (hx.trans haddr)

/-- The chain at `rehashIdx` is moved: `g` gives the hash used for an entry and `h2`
the hash bits stored with it. -/
theorem rehashChain_spec (hg : ∀ x ∈ stored (oldChain ht), h2 x = x.1
      ∧ bucketIdx (g x) (ht.tables 1).exp = bucketIdx (T.hashEntry x.2) (ht.tables 1).exp) :
    ∃ ht', ((ht.tables 0).chain? ht.rehashIdx.toNat).bind (fun c =>
        ((chainEntries c).foldlM (fun ht x => rehashEntry ht x.2 (g x) (h2 x)) ht).bind
          rehashStepFinalize) = some ht'
      ∧ Moved T ht ht' ∧ Advanced ht ht' := by
  obtain ⟨-, hidx, hexp, -⟩ := h.busy hre
  have hentries := coe_chainEntries ((h.ok 0).linked _ hidx)
  have hmem : ∀ x ∈ chainEntries (oldChain ht), x ∈ stored (oldChain ht) := by
    intro x hx
    rw [← hentries]
    exact hx
  obtain ⟨t, hfold, hok, hexp', haddr, hcont⟩ := rehashEntries_spec
    (isRehashing_iff.mpr hre) (ht.tables 0).used (h.ok 1) hexp fun x hx =>
      ⟨(hg x (hmem x hx)).1, ((h.ok 0).placed _ hidx x (hmem x hx)).1, (hg x (hmem x hx)).2.symm⟩
  rw [moving_self] at hfold
  have hcard := congrArg card hentries
  rw [coe_card] at hcard
  rw [hcard] at hfold
  rw [hentries] at hcont
  obtain ⟨ht', hfin, hmoved, hadv⟩ := rehashStepFinalize_spec h hre hok hexp' haddr hcont
  refine ⟨ht', ?_, hmoved, hadv⟩
  rw [Table.chain?_of_lt hidx, bind_some, hfold, bind_some, hfin]

theorem rehashStepExpand_spec :
    ∃ ht', rehashStepExpand T ht = some ht' ∧ Moved T ht ht' ∧ Advanced ht ht' := by
  obtain ⟨-, hidx, -, -⟩ := h.busy hre
  exact rehashChain_spec h hre fun x hx => ⟨((h.ok 0).placed _ hidx x hx).1.symm, rfl⟩

omit h hre in
/-- The low bits of the hash are the index of the chain. -/
theorem bucketIdx_of_smaller {exp exp' : Int} (h : exp' ≠ -1) (hlt : exp' < exp) (hexp : exp ≤ 57)
    (hexp' : 0 ≤ exp') (hash : BitVec 64) :
    bucketIdx (BitVec.ofNat 64 (bucketIdx hash exp)) exp' = bucketIdx hash exp' := by
  have hne : exp ≠ -1 := by omega
  have hsmall : 2 ^ exp.toNat ≤ 2 ^ 64 := Nat.pow_le_pow_right (by decide) (by omega)
  rw [bucketIdx_eq h, bucketIdx_eq h, bucketIdx_eq hne, BitVec.toNat_ofNat,
    Nat.mod_eq_of_lt (lt_of_lt_of_le (Nat.mod_lt _ (Nat.two_pow_pos _)) hsmall)]
  exact Nat.mod_mod_of_dvd _ (Nat.pow_dvd_pow 2 (by omega))

omit h hre in
theorem Advanced.trans {ht ht' ht'' : Hashtable E} (h : Advanced ht ht') (h' : Advanced ht' ht'')
    (hre : ht'.rehashIdx ≠ -1) : Advanced ht ht'' := by
  rcases h' with h' | ⟨hlt', hexp'⟩
  · exact .inl h'
  · rcases h with h | ⟨hlt, hexp⟩
    · exact absurd h hre
    · exact .inr ⟨hlt.trans hlt', fun i => (hexp' i).trans (hexp i)⟩

/-- Passing an empty chain moves nothing. -/
theorem rehashStepFinalize_empty (hempty : stored (oldChain ht) = 0) :
    ∃ ht', rehashStepFinalize ht = some ht' ∧ Moved T ht ht' ∧ Advanced ht ht' := by
  have hspec := rehashStepFinalize_spec h hre (h.ok 1) rfl rfl (by rw [hempty, zero_add])
  rw [hempty, card_zero, Nat.sub_zero, moving_self] at hspec
  exact hspec

/-- The flag tells that the step still has a chain to move. -/
theorem skipEmptyBuckets_spec (visits : Nat) :
    ∃ r, skipEmptyBuckets visits ht = some r ∧ Moved T ht r.1 ∧ (r.1 = ht ∨ Advanced ht r.1)
      ∧ (r.2 = true → r.1.rehashIdx ≠ -1) ∧ (r.2 = false → visits ≠ 0 → Advanced ht r.1) := by
  induction visits generalizing ht with
  | zero => exact ⟨(ht, false), rfl, .refl h, .inl rfl, by simp, by simp⟩
  | succ n ih =>
    obtain ⟨-, hidx, -, -⟩ := h.busy hre
    rw [skipEmptyBuckets, Table.chain?_of_lt hidx, bind_some]
    by_cases hfull : (oldChain ht).length ≠ 1 ∨ ((oldChain ht).getLastD Bucket.empty).popcount ≠ 0
    · rw [if_pos hfull]
      exact ⟨(ht, true), rfl, .refl h, .inl rfl, fun _ => hre, by simp⟩
    · rw [if_neg hfull]
      push Not at hfull
      obtain ⟨hone, hzero⟩ := hfull
      obtain ⟨b, hb⟩ := length_eq_one_iff.mp hone
      have hempty : stored (oldChain ht) = 0 := by
        rw [hb] at hzero ⊢
        rw [stored_cons, stored_nil, add_zero, ← Multiset.card_eq_zero, ← Bucket.popcount_eq]
        exact hzero
      obtain ⟨ht₁, hfin, hmoved, hadv⟩ := rehashStepFinalize_empty h hre hempty
      rw [hfin, bind_some]
      by_cases hre₁ : ht₁.rehashIdx = -1
      · rw [if_neg (by simp [not_isRehashing_iff.mpr hre₁])]
        exact ⟨(ht₁, false), rfl, hmoved, .inr hadv, by simp, fun _ _ => hadv⟩
      · rw [if_pos (isRehashing_iff.mpr hre₁)]
        obtain ⟨r, hr, hmoved', hor, htrue, -⟩ := ih hmoved.inv hre₁
        have hadv' : Advanced ht r.1 := by
          rcases hor with heq | hadv'
          · exact heq ▸ hadv
          · exact hadv.trans hadv' hre₁
        exact ⟨r, hr, hmoved.trans hmoved', .inr hadv', htrue, fun _ _ => hadv'⟩

theorem rehashStepShrink_spec (hlt : (ht.tables 1).exp < (ht.tables 0).exp) :
    ∃ ht', rehashStepShrink ht = some ht' ∧ Moved T ht ht' ∧ Advanced ht ht' := by
  obtain ⟨⟨ht₁, more⟩, hskip, hmoved, hor, htrue, hfalse⟩ := skipEmptyBuckets_spec h hre 10
  rw [rehashStepShrink, hskip, bind_some]
  cases more with
  | false => exact ⟨ht₁, rfl, hmoved, hfalse rfl (by decide)⟩
  | true =>
    have hre₁ : ht₁.rehashIdx ≠ -1 := htrue rfl
    have hexps : ∀ i, (ht₁.tables i).exp = (ht.tables i).exp := by
      rcases hor with heq | hadv | hadv
      · exact fun i => by rw [show ht₁ = ht from heq]
      · exact absurd hadv hre₁
      · exact hadv.2
    have h₁ : Inv T ht₁ := hmoved.inv
    obtain ⟨-, hidx, hexp1, -⟩ := h₁.busy hre₁
    rw [← hexps 0, ← hexps 1] at hlt
    have hrange : (ht₁.tables 0).exp ≤ 57 ∧ 0 ≤ (ht₁.tables 1).exp := by
      have h0 := (h₁.ok 0).exp_range
      have h1 := (h₁.ok 1).exp_range
      omega
    have hg : ∀ x ∈ stored (oldChain ht₁), x.1 = x.1
        ∧ bucketIdx (BitVec.ofNat 64 ht₁.rehashIdx.toNat) (ht₁.tables 1).exp
          = bucketIdx (T.hashEntry x.2) (ht₁.tables 1).exp := by
      intro x hx
      have hplaced := ((h₁.ok 0).placed _ hidx x hx).2
      rw [← bucketIdx_of_smaller hexp1 hlt hrange.1 hrange.2 (T.hashEntry x.2), hplaced]
      exact ⟨rfl, rfl⟩
    obtain ⟨ht', hstep, hmoved', hadv'⟩ := rehashChain_spec h₁ hre₁ hg
    refine ⟨ht', hstep, hmoved.trans hmoved', ?_⟩
    rcases hor with heq | hadv
    · exact heq ▸ hadv'
    · exact hadv.trans hadv' hre₁

/-- Every rehash step goes through, keeps the entries and comes nearer to the end. -/
theorem rehashStep_spec :
    ∃ ht', rehashStep T ht = some ht' ∧ Moved T ht ht' ∧ Advanced ht ht' := by
  rw [rehashStep, if_pos (isRehashing_iff.mpr hre)]
  split
  · exact rehashStepShrink_spec h hre ‹_›
  · exact rehashStepExpand_spec h hre

omit h hre

end NexCache.HashTables
