import NexCache.Lib.Fenwick
import NexCache.Kvstore.Kvstore

/-!
# The size index is exact

The invariant says what the counts and the tree hold in terms of the sizes of the tables that are
not imported.  Nodes up to `num_hashtables` are exact; the nodes behind, which pad the tree to a
power of two and which `kvstoreEmpty` does not clear, hold at least what they should, and the search
never takes such a node.
-/

namespace NexCache.Kvstores

open HashTables Fenwick Function Runs Finset Option Nat

variable {K E : Type*} {T : HashtableType K E} {kvs kvs' : Kvstore E} {d : Nat}

/-! ### The tree -/

theorem lowbit_eq {idx : Nat} (hpos : 0 < idx) (h : idx < 2 ^ 32) : lowbit idx = low idx :=
  toNat_and_neg hpos h

theorem kvstoreIsImporting_eq (htwo : 2 ≤ kvs.numHashtables) (hd : d < kvs.numHashtables) :
    kvstoreIsImporting kvs d = some (decide (d ∈ kvs.importing)) := by
  rw [kvstoreIsImporting, if_neg (by omega), if_pos hd]

/-- The counts and the tree are those of the sizes `f`. -/
structure Counts (kvs : Kvstore E) (f : Nat → Int) : Prop where
  two_le : 2 ≤ kvs.numHashtables
  num_le : kvs.numHashtables ≤ 2 ^ kvs.numHashtablesBits
  bits_le : kvs.numHashtablesBits ≤ 30
  nonneg : ∀ d, 0 ≤ f d
  outside : ∀ d, kvs.numHashtables ≤ d → f d = 0
  keys : kvs.keyCount = below f kvs.numHashtables
  nonEmpty : kvs.nonEmptyHashtables = ((range kvs.numHashtables).filter (f · ≠ 0)).card
  exact : ∀ i, i ≤ kvs.numHashtables → 0 < i → kvs.hashtableSizeIndex i = node f i
  padding : ∀ i, kvs.numHashtables < i → i ≤ 2 ^ kvs.numHashtablesBits →
    node f i ≤ kvs.hashtableSizeIndex i

namespace Counts

variable {f : Nat → Int}

variable (h : Counts kvs f) {target : Int}
include h

/-- What the counts and the tree say depends on them alone. -/
theorem congr (heq : (kvs'.numHashtables, kvs'.numHashtablesBits,
        kvs'.keyCount, kvs'.nonEmptyHashtables, kvs'.hashtableSizeIndex)
      = (kvs.numHashtables, kvs.numHashtablesBits, kvs.keyCount, kvs.nonEmptyHashtables,
        kvs.hashtableSizeIndex)) : Counts kvs' f := by
  simp only [Prod.mk.injEq] at heq
  obtain ⟨h₁, h₂, h₃, h₄, h₅⟩ := heq
  refine ⟨?_, ?_, ?_, h.nonneg, ?_, ?_, ?_, ?_, ?_⟩ <;> simp only [h₁, h₂, h₃, h₄, h₅]
  exacts [h.two_le, h.num_le, h.bits_le, h.outside, h.keys, h.nonEmpty, h.exact, h.padding]

theorem le_index {i : Nat} (hpos : 0 < i) (hle : i ≤ 2 ^ kvs.numHashtablesBits) :
    node f i ≤ kvs.hashtableSizeIndex i := by
  by_cases hi : i ≤ kvs.numHashtables
  · exact (h.exact i hi hpos).ge
  · exact h.padding i (by omega) hle

theorem readLoop_eq : ∀ (fuel : Nat) {idx : Nat} (sum : Int), idx ≤ kvs.numHashtables →
    idx < fuel → readLoop kvs fuel idx sum = some (sum + below f idx) := by
  intro fuel
  induction fuel with
  | zero => intro idx sum _ hlt; omega
  | succ fuel ih =>
    intro idx sum hle hlt
    rw [readLoop]
    by_cases hpos : 0 < idx
    · have hnum := h.num_le
      have hbits := Nat.pow_le_pow_right (n := 2) (by decide) h.bits_le
      have hlow : lowbit idx = low idx := lowbit_eq hpos (by omega)
      have hlowpos := low_pos idx
      rw [if_pos hpos, Kvstore.indexAt, if_pos (by omega), bind_some, hlow,
        ih (sum + kvs.hashtableSizeIndex idx) (by omega) (by omega), h.exact idx hle hpos,
          below_eq f idx]
      congr 1
      omega
    · obtain rfl : idx = 0 := by omega
      rw [if_neg hpos]
      simp [below]

/-- The halving search ends at the place whose prefix crosses the target. -/
theorem findLoop_spec (htarget : target ≤ below f kvs.numHashtables) :
    ∀ (j : Nat) {result : Nat} {rest : Int}, 2 ^ j ∣ result →
      result + 2 ^ j ≤ 2 ^ kvs.numHashtablesBits → Bracket f target result rest (2 ^ j) →
      ∃ d, findLoop kvs j result rest = some d ∧ below f d < target ∧ target ≤ below f (d + 1) := by
  intro j
  induction j with
  | zero =>
    intro result rest _ _ hb
    have hsplit := hb.split
    have hpos := hb.pos
    refine ⟨result, rfl, by omega, ?_⟩
    exact hb.within
  | succ j ih =>
    intro result rest hmul hroom hb
    have hmul' : 2 ^ j ∣ result := (pow_dvd_pow 2 (le_succ j)).trans hmul
    have hnode := below_half (f := f) hmul
    have hcurrent : 0 < result + 2 ^ j := Nat.add_pos_right _ (Nat.two_pow_pos j)
    have hindex := h.le_index hcurrent (by omega)
    have hsplit := hb.split
    rw [findLoop, Kvstore.indexAt, if_pos (by omega), bind_some]
    -- beyond the last table the prefix is the whole, which the target does not exceed
    have hbeyond : kvs.numHashtables < result + 2 ^ j → target ≤ below f (result + 2 ^ j) := by
      intro hlt
      rw [below_of_le h.outside hlt.le]
      exact htarget
    by_cases htake : rest > kvs.hashtableSizeIndex (result + 2 ^ j)
    · have hin : result + 2 ^ j ≤ kvs.numHashtables := by
        by_contra hout
        omega
      have hexact := h.exact _ hin hcurrent
      rw [if_pos htake, hexact]
      exact ih ((Nat.dvd_add_right hmul').mpr dvd_rfl) (by omega) (hb.take hmul (by omega))
    · rw [if_neg htake]
      refine ih hmul' (by omega) (hb.stay ?_)
      by_cases hin : result + 2 ^ j ≤ kvs.numHashtables
      · have hexact := h.exact _ hin hcurrent
        omega
      · exact hbeyond (by omega)

theorem int_bits : int (1 <<< kvs.numHashtablesBits) = some (2 ^ kvs.numHashtablesBits) := by
  have hbits := Nat.pow_le_pow_right (n := 2) (by decide) h.bits_le
  rw [Nat.one_shiftLeft, int, if_pos (by omega)]

theorem size_eq : kvstoreSize kvs = kvs.keyCount := by
  have := h.two_le
  rw [kvstoreSize, if_pos (by omega)]

theorem find_spec (hpos : 0 < target) (hle : target ≤ kvs.keyCount) :
    ∃ d, kvstoreFindHashtableIndexByKeyIndex kvs target = some (some d) ∧ d < kvs.numHashtables
      ∧ below f d < target ∧ target ≤ below f (d + 1) := by
  have htwo := h.two_le
  have htarget : target ≤ below f kvs.numHashtables := h.keys ▸ hle
  have hall : below f kvs.numHashtables = below f (2 ^ kvs.numHashtablesBits) :=
    (below_of_le h.outside h.num_le).symm
  -- the first step looks at the node of the whole and does not take it
  have htop : below f (2 ^ kvs.numHashtablesBits) ≤
      kvs.hashtableSizeIndex (2 ^ kvs.numHashtablesBits) := by
    have hle := h.le_index (Nat.two_pow_pos kvs.numHashtablesBits) le_rfl
    have hnode := below_half (f := f) (dvd_zero (2 ^ (kvs.numHashtablesBits + 1)))
    rw [zero_add] at hnode
    rw [hnode]
    have hzero : below f 0 = 0 := rfl
    omega
  have hfirst : findLoop kvs (kvs.numHashtablesBits + 1) 0 target =
      findLoop kvs kvs.numHashtablesBits 0 target := by
    rw [findLoop, zero_add, Kvstore.indexAt, if_pos le_rfl, bind_some, if_neg (by omega)]
  obtain ⟨d, hfind, hlt, hle'⟩ := h.findLoop_spec htarget kvs.numHashtablesBits (dvd_zero _)
    (by omega) ⟨by rw [show below f 0 = 0 from rfl, zero_add], hpos, by rw [zero_add]; omega⟩
  refine ⟨d, ?_, ?_, hlt, hle'⟩
  · rw [kvstoreFindHashtableIndexByKeyIndex, if_neg (by omega), h.size_eq, if_neg (by omega),
      if_pos hle, h.int_bits, bind_some, hfirst, hfind]
    rfl
  · by_contra hout
    have := below_of_le h.outside (Nat.le_of_not_lt hout)
    omega

theorem next_spec (hd : d < kvs.numHashtables) :
    ∃ o, kvstoreGetNextNonEmptyHashtableIndex kvs d = some o ∧ match o with
      | some e => d < e ∧ e < kvs.numHashtables ∧ f e ≠ 0 ∧ ∀ i, d < i → i < e → f i = 0
      | none => ∀ i, d < i → f i = 0 := by
  have htwo := h.two_le
  have hread : cumulativeKeyCountRead kvs d = some (below f (d + 1)) := by
    rw [cumulativeKeyCountRead, if_neg (by omega), h.readLoop_eq (d + 2) 0 (by omega) (by omega),
      zero_add]
  have hmono := fun i j hij => below_mono h.nonneg (i := i) (j := j) hij
  have hnonneg := h.nonneg
  rw [kvstoreGetNextNonEmptyHashtableIndex, if_neg (by omega), hread, bind_some, h.size_eq]
  by_cases hmore : below f (d + 1) + 1 ≤ kvs.keyCount
  · have hzero := hmono 0 (d + 1) (zero_le _)
    rw [show below f 0 = 0 from rfl] at hzero
    obtain ⟨e, hfind, he, hlt, hle⟩ := h.find_spec (show 0 < below f (d + 1) + 1 by omega) hmore
    refine ⟨some e, by rw [if_pos hmore, hfind], ?_, he, ?_, ?_⟩
    · by_contra hge
      have := hmono (e + 1) (d + 1) (by omega)
      omega
    · intro hfe
      have := below_succ f e
      omega
    · intro i hdi hie
      have h₁ := hmono (d + 1) i hdi
      have h₂ := hmono (i + 1) e hie
      have h₃ := below_succ f i
      have h₄ := hnonneg i
      omega
  · refine ⟨none, if_neg hmore, ?_⟩
    intro i hdi
    by_cases hi : i < kvs.numHashtables
    · have h₁ := hmono (d + 1) i hdi
      have h₂ := hmono (i + 1) _ hi
      have h₃ := below_succ f i
      have h₄ := hnonneg i
      have h₅ := h.keys
      omega
    · exact h.outside i (by omega)

omit h

/-! ### Updates of the tree -/

/-- The loop changes the nodes over the place, and no others. -/
theorem addLoop_spec {maxIdx d : Nat} (delta : Int) (hmax : maxIdx ≤ 2 ^ 29) : ∀ (fuel idx : Nat)
    (index : Nat → Int), Covers idx d → 0 < fuel → maxIdx + 2 ≤ idx + fuel →
    (∀ i, idx ≤ i → i ≤ maxIdx → Covers i d → 0 ≤ index i + delta) →
    ∃ index', addLoop maxIdx delta fuel idx index = some index'
      ∧ ∀ i, index' i = index i + if idx ≤ i ∧ i ≤ maxIdx ∧ Covers i d then delta else 0 := by
  intro fuel
  induction fuel with
  | zero => intro idx index _ hpos; omega
  | succ fuel ih =>
    intro idx index hcov _ hfuel hroom
    rw [addLoop]
    by_cases hle : idx ≤ maxIdx
    · have hidx : 0 < idx := zero_lt_of_lt hcov.2
      have hlow : lowbit idx = low idx := lowbit_eq hidx (by omega)
      have hlowle := low_le hidx
      have hlowpos := low_pos idx
      have hassert : ¬ (delta < 0 ∧ index idx < |delta|) := by
        rintro ⟨hneg, hlt⟩
        rw [abs_of_neg hneg] at hlt
        have := hroom idx le_rfl hle hcov
        omega
      obtain ⟨index', hloop, hindex'⟩ := ih (idx + low idx)
        (update index idx (index idx + delta)) hcov.next (by omega) (by omega) (by
          intro i hi him hci
          rw [update_of_ne (by omega)]
          exact hroom i (by omega) him hci)
      refine ⟨index', ?_, ?_⟩
      · rw [if_pos hle, if_neg hassert, hlow, int, if_pos (by omega), bind_some, hloop]
      · intro i
        rw [hindex' i]
        by_cases hself : i = idx
        · subst hself
          rw [update_self, if_neg (by omega), if_pos ⟨le_rfl, hle, hcov⟩, add_zero]
        · rw [update_of_ne hself]
          congr 1
          refine if_congr ⟨fun ⟨h₁, h₂⟩ => ⟨by omega, h₂⟩, fun ⟨h₁, h₂, h₃⟩ => ⟨?_, h₂, h₃⟩⟩ rfl rfl
          by_contra hbetween
          exact hcov.not_between (by omega) (by omega) h₃
    · refine ⟨index, if_neg hle, fun i => ?_⟩
      rw [if_neg (by omega), add_zero]

variable {d : Nat} {delta : Int} {ht : Hashtable E}

theorem card_update (h : Counts kvs f) (hd : d < kvs.numHashtables) (hroom : 0 ≤ f d + delta) :
    (((range kvs.numHashtables).filter (update f d (f d + delta) · ≠ 0)).card : Int)
      = if delta < 0 ∧ f d + delta = 0 then kvs.nonEmptyHashtables - 1
        else if 0 < delta ∧ f d = 0 then kvs.nonEmptyHashtables + 1
        else kvs.nonEmptyHashtables := by
  have hfd := h.nonneg d
  -- a table adds one to the count, or nothing, by its own size alone
  have hcard : ∀ g : Nat → Int, (((range kvs.numHashtables).filter (g · ≠ 0)).card : Int)
      = below (fun i => if g i ≠ 0 then 1 else 0) kvs.numHashtables :=
    fun g => natCast_card_filter _ _
  have hupdate : (fun i => if update f d (f d + delta) i ≠ 0 then (1 : Int) else 0)
      = update (fun i => if f i ≠ 0 then 1 else 0) d ((if f d ≠ 0 then 1 else 0)
          + ((if f d + delta ≠ 0 then 1 else 0) - if f d ≠ 0 then 1 else 0)) := by
    rw [add_sub_cancel]
    exact comp_update (fun x : Int => if x ≠ 0 then (1 : Int) else 0) f d (f d + delta)
  rw [h.nonEmpty, hcard, hcard, hupdate, below_update, if_pos hd]
  split_ifs <;> omega

/-- **One count.**  The size of a table that is not imported changes. -/
theorem add_spec (h : Counts kvs f) (hbits : kvs.numHashtablesBits ≤ 29)
    (hd : d < kvs.numHashtables) (himp : d ∉ kvs.importing) (hht : kvs.hashtables d = some ht)
    (hsize : (ht.size : Int) = f d + delta) :
    ∃ keys nonEmpty index, cumulativeKeyCountAdd kvs d delta
        = some { kvs with
          keyCount := keys, nonEmptyHashtables := nonEmpty, hashtableSizeIndex := index }
      ∧ Counts { kvs with
          keyCount := keys, nonEmptyHashtables := nonEmpty, hashtableSizeIndex := index }
          (update f d (f d + delta)) := by
  have htwo := h.two_le
  have hroom : 0 ≤ f d + delta := by omega
  have hmax : 2 ^ kvs.numHashtablesBits ≤ 2 ^ 29 := Nat.pow_le_pow_right (by decide) hbits
  obtain ⟨index', hloop, hindex'⟩ := addLoop_spec delta hmax (2 ^ kvs.numHashtablesBits + 1) (d + 1)
    kvs.hashtableSizeIndex (covers_self d) (succ_pos _) (by omega) (by
      intro i hi him hcov
      have h₁ := h.le_index (by omega) him
      have h₂ := le_node h.nonneg hcov
      omega)
  have himporting : kvstoreIsImporting kvs d = some false := by
    rw [kvstoreIsImporting_eq htwo hd, decide_eq_false himp]
  -- every node of the tree changes by as much as it should
  have hindex : ∀ i, i ≤ 2 ^ kvs.numHashtablesBits →
      node (update f d (f d + delta)) i - node f i = index' i - kvs.hashtableSizeIndex i := by
    intro i hi
    rw [node_update, hindex' i, add_sub_cancel_left, add_sub_cancel_left]
    exact if_congr ⟨fun hc => ⟨hc.2, hi, hc⟩, fun hc => hc.2.2⟩ rfl rfl
  have hnumle := h.num_le
  refine ⟨kvs.keyCount + delta, if delta < 0 ∧ ht.size = 0 then kvs.nonEmptyHashtables - 1
      else if 0 < delta ∧ (ht.size : Int) = delta then kvs.nonEmptyHashtables + 1
      else kvs.nonEmptyHashtables, index', ?_, ?_⟩
  · rw [cumulativeKeyCountAdd, himporting, bind_some, if_neg Bool.false_ne_true,
      kvstoreGetHashtable, if_pos hd, hht, bind_some]
    simp only [if_neg (show ¬ kvs.numHashtables = 1 by omega), h.int_bits, bind_some, hloop,
      map_some]
  · refine ⟨h.two_le, h.num_le, h.bits_le, ?_, ?_, ?_, ?_, ?_, ?_⟩
    · exact (forall_update_iff _ fun _ n => 0 ≤ n).mpr ⟨hroom, fun i _ => h.nonneg i⟩
    · intro i hi
      change kvs.numHashtables ≤ i at hi
      rw [update_of_ne (by omega)]
      exact h.outside i hi
    · change kvs.keyCount + delta = below _ kvs.numHashtables
      rw [below_update, if_pos hd, h.keys]
    · change (if _ then _ else _ : Int) = _
      rw [h.card_update hd hroom]
      exact if_congr (and_congr_right fun _ => by omega) rfl
        (if_congr (and_congr_right fun _ => by omega) rfl rfl)
    · intro i hi hpos
      change i ≤ kvs.numHashtables at hi
      change index' i = _
      have h₁ := hindex i (by omega)
      have h₂ := h.exact i hi hpos
      omega
    · intro i hi hle
      change kvs.numHashtables < i at hi
      change _ ≤ index' i
      have h₁ := hindex i hle
      have h₂ := h.padding i hi hle
      omega

end Counts

/-! ### One table -/

/-- The table stands for a map, and nothing pauses it. -/
def Stored (T : HashtableType K E) (ht : Hashtable E) : Prop :=
  (∃ m, Represents T ht m) ∧ ht.pauseRehash = 0

theorem Stored.of_settings {ht ht' : Hashtable E} {m : K → Option E} (h : Stored T ht)
    (hrep : Represents T ht' m) (hset : ht'.settings = ht.settings) : Stored T ht' :=
  ⟨⟨m, hrep⟩, (Prod.mk.inj hset).1.trans h.2⟩

theorem Stored.empty (h : Stored T ht) :
    Stored T (hashtableEmpty ht) ∧ (hashtableEmpty ht).size = 0 := by
  obtain ⟨⟨m, hrep⟩, -⟩ := id h
  obtain ⟨hrep', hsize, hset⟩ := hashtableEmpty_represents hrep
  exact ⟨h.of_settings hrep' hset, hsize⟩

section Keys

variable {m m' : K → Option E} {ht ht' : Hashtable E}

variable (hrep : Represents T ht m)
include hrep

theorem finite_keys : {k | (m k).isSome}.Finite := by
  classical
  refine ((ht.items.map fun x => T.entryGetKey x.2).toFinset.finite_toSet).subset ?_
  intro k hk
  obtain ⟨e, he⟩ := isSome_iff_exists.mp hk
  obtain ⟨⟨h2, hmem⟩, hkey⟩ := (hrep.holds k e).mp he
  rw [mem_coe, Multiset.mem_toFinset]
  exact Multiset.mem_map.mpr ⟨_, hmem, hkey⟩

variable [DecidableEq K]

theorem size_eq_others (k : K) :
    ht.size = ({j | (m j).isSome} \ {k}).ncard + if (m k).isSome then 1 else 0 := by
  rw [hrep.holds.size_eq hrep.inv]
  by_cases hk : (m k).isSome
  · rw [if_pos hk, Set.ncard_sdiff_singleton_add_one (by exact hk) (finite_keys hrep)]
  · rw [if_neg hk, Set.sdiff_singleton_eq_self (by exact hk), add_zero]

theorem size_update {k : K} {o : Option E} (hrep' : Represents T ht' (update m k o)) :
    ht'.size + (if (m k).isSome then 1 else 0) = ht.size + if o.isSome then 1 else 0 := by
  have hsame : {j | (update m k o j).isSome} \ {k} = {j | (m j).isSome} \ {k} := by
    ext j
    by_cases hj : j = k
    · simp [hj]
    · simp [hj]
  rw [size_eq_others hrep k, size_eq_others hrep' k, hsame, update_self, add_right_comm]

omit hrep

variable (h : Stored T ht)
include h

theorem addOrFind_stored (e : E) (allowed : Bool) :
    ∃ r, hashtableAddOrFind T ht e allowed = some r ∧ Stored T r.1
      ∧ r.1.size = ht.size + if r.2.isNone then 1 else 0 := by
  obtain ⟨⟨m, hrep⟩, -⟩ := id h
  obtain ⟨r, hr, hinv, hset, hreply, hholds⟩ :=
    hashtableAddOrFind_spec hrep.inv hrep.holds e allowed
  have hrep' := hrep.of_settings hinv hholds hset
  refine ⟨r, hr, h.of_settings hrep' hset, ?_⟩
  rw [hreply]
  cases hm : m (T.entryGetKey e) with
  | none =>
    rw [hm] at hrep'
    have hsize := size_update hrep hrep'
    rwa [hm] at hsize
  | some e' =>
    rw [hm] at hrep'
    rw [hrep'.holds.size_eq hrep'.inv, hrep.holds.size_eq hrep.inv]
    rfl

theorem removed_stored (hinv : HashTables.Inv T ht') (hset : ht'.settings = ht.settings)
    {k : K} {o : Option E} (hrem : Removed T k ht ht' o) :
    Stored T ht' ∧ ht'.size + (if o.isSome then 1 else 0) = ht.size := by
  obtain ⟨⟨m, hrep⟩, -⟩ := id h
  obtain ⟨hreply, hholds⟩ := hrem.holds hrep.holds hrep.inv
  have hrep' := hrep.of_settings hinv hholds hset
  refine ⟨h.of_settings hrep' hset, ?_⟩
  rw [hreply]
  exact size_update hrep hrep'

theorem insertAtPosition_stored (e : E) (allowed : Bool) :
    ∃ r, hashtableFindPositionForInsert T ht (T.entryGetKey e) allowed = some r ∧ match r.2 with
      | .inl _ => Stored T r.1 ∧ r.1.size = ht.size
      | .inr p => ∃ ht', hashtableInsertAtPosition r.1 e p = some ht' ∧ Stored T ht'
          ∧ ht'.size = ht.size + 1 := by
  classical
  obtain ⟨a, ha, hst, hsize⟩ := addOrFind_stored h e allowed
  obtain ⟨⟨m, hrep⟩, -⟩ := h
  have hpair := insertAtPosition_addOrFind hrep.inv e allowed
  rw [ha, map_some, HashTables.step] at hpair
  obtain ⟨⟨ht₁, found⟩, hfind, hrest⟩ := bind_eq_some_iff.mp hpair
  refine ⟨(ht₁, found), hfind, ?_⟩
  cases found with
  | inl existing =>
    obtain ⟨rfl, hreply⟩ := result_inj hrest
    rw [← Reply.entry.inj hreply] at hsize
    exact ⟨hst, hsize⟩
  | inr p =>
    obtain ⟨ht', hins, rfl, hreply⟩ := map_result hrest
    rw [← Reply.entry.inj hreply] at hsize
    exact ⟨_, hins, hst, hsize⟩

theorem twoPhasePop_stored (k : K) (allowed : Bool) :
    ∃ r, hashtableTwoPhasePopFindRef T ht k = some r ∧ match r.2 with
      | none => Stored T r.1 ∧ r.1.size = ht.size
      | some f => ∃ ht', hashtableTwoPhasePopDelete T r.1 f.1 allowed = some ht' ∧ Stored T ht'
          ∧ ht'.size + 1 = ht.size := by
  classical
  obtain ⟨⟨m, hrep⟩, hpause⟩ := id h
  obtain ⟨o, ht₂, hstep, hinv, hset, hrem⟩ := twoPhasePop_spec hrep k allowed hpause.ge
  obtain ⟨hst, hsize⟩ := removed_stored h hinv hset hrem
  rw [HashTables.step] at hstep
  obtain ⟨⟨ht₁, found⟩, hfind, hrest⟩ := bind_eq_some_iff.mp hstep
  refine ⟨(ht₁, found), hfind, ?_⟩
  cases found with
  | none =>
    obtain ⟨rfl, hreply⟩ := result_inj hrest
    rw [← Reply.entry.inj hreply] at hsize
    exact ⟨hst, hsize⟩
  | some f =>
    obtain ⟨ht', hdel, rfl, hreply⟩ := map_result hrest
    rw [← Reply.entry.inj hreply] at hsize
    exact ⟨_, hdel, hst, hsize⟩

theorem pop_stored (k : K) (allowed : Bool) :
    ∃ r, hashtablePop T ht k allowed = some r ∧ Stored T r.1
      ∧ r.1.size + (if r.2.isSome then 1 else 0) = ht.size := by
  obtain ⟨⟨m, hrep⟩, -⟩ := id h
  obtain ⟨r, hr, hinv, hset, hrem⟩ := hashtablePop_spec hrep.inv k allowed
  exact ⟨r, hr, removed_stored h hinv hset hrem⟩

omit h

end Keys

/-! ### The store -/

/-- The number of keys by which a table counts. -/
def weight (kvs : Kvstore E) (d : Nat) : Int :=
  if d ∈ kvs.importing then 0 else kvstoreHashtableSize kvs d

structure Inv (T : HashtableType K E) (num : Nat) (kvs : Kvstore E) : Prop where
  num_eq : kvs.numHashtables = num
  stored : ∀ d ht, kvs.hashtables d = some ht → Stored T ht
  bits_lt : num ≤ 2 ^ 29 → kvs.numHashtablesBits ≤ 29
  counts : Counts kvs (weight kvs)
  importing_lt : ∀ d ∈ kvs.importing, d < kvs.numHashtables
  importingKeys : kvs.importingKeyCount = ∑ d ∈ kvs.importing, (kvstoreHashtableSize kvs d : Int)

def sizeOf (o : Option (Hashtable E)) : Nat :=
  match o with
  | none => 0
  | some ht => ht.size

theorem kvstoreHashtableSize_eq (kvs : Kvstore E) (hd : d < kvs.numHashtables) :
    kvstoreHashtableSize kvs d = sizeOf (kvs.hashtables d) := by
  rw [kvstoreHashtableSize, kvstoreGetHashtable, if_pos hd]
  rfl

theorem size_of_table (hd : d < kvs.numHashtables)
    (hht : kvs.hashtables d = some ht) : kvstoreHashtableSize kvs d = ht.size := by
  rw [kvstoreHashtableSize_eq kvs hd, hht]
  rfl

theorem kvstoreHashtableSize_setHashtable (kvs : Kvstore E) (hd : d < kvs.numHashtables)
    (o : Option (Hashtable E)) :
    kvstoreHashtableSize (kvs.setHashtable d o) =
    update (kvstoreHashtableSize kvs) d (sizeOf o) := by
  funext i
  by_cases hi : i = d
  · subst hi
    rw [update_self, kvstoreHashtableSize_eq (kvs.setHashtable i o) hd]
    exact congrArg sizeOf (update_self ..)
  · rw [update_of_ne hi, kvstoreHashtableSize, kvstoreHashtableSize, kvstoreGetHashtable,
      kvstoreGetHashtable]
    rw [show (kvs.setHashtable d o).hashtables i = kvs.hashtables i from update_of_ne hi ..]
    rfl

theorem weight_eq_update (himp : ∀ i ≠ d, i ∈ kvs'.importing ↔ i ∈ kvs.importing)
    (hsize : ∀ i ≠ d, kvstoreHashtableSize kvs' i = kvstoreHashtableSize kvs i) :
    weight kvs' = update (weight kvs) d (weight kvs' d) := by
  refine eq_update_iff.mpr ⟨rfl, fun i hi => ?_⟩
  rw [weight, weight, hsize i hi]
  exact if_congr (himp i hi) rfl rfl

theorem setHashtable_setHashtable (kvs : Kvstore E) (d : Nat) (o o' : Option (Hashtable E)) :
    (kvs.setHashtable d o).setHashtable d o' = kvs.setHashtable d o' := by
  rw [Kvstore.setHashtable, Kvstore.setHashtable, Kvstore.setHashtable]
  simp only [update_idem]

section Store

variable {num d : Nat} {o : Option (Hashtable E)}

theorem kvstoreGetHashtable_set (hd : d < kvs.numHashtables) :
    kvstoreGetHashtable (kvs.setHashtable d o) d = o := by
  rw [kvstoreGetHashtable, if_pos (show d < (kvs.setHashtable d o).numHashtables from hd)]
  exact update_self ..

theorem stored_update {tables : Nat → Option (Hashtable E)}
    (h : ∀ i ht, tables i = some ht → Stored T ht) (hst : ∀ ht, o = some ht → Stored T ht) :
    ∀ i ht, update tables d o i = some ht → Stored T ht :=
  (forall_update_iff tables fun _ o => ∀ ht, o = some ht → Stored T ht).mpr ⟨hst, fun i _ => h i⟩

variable (h : Inv T num kvs)
include h

theorem stored_set (hst : ∀ ht, o = some ht → Stored T ht) :
    ∀ i ht, (kvs.setHashtable d o).hashtables i = some ht → Stored T ht :=
  stored_update h.stored hst

variable (hd : d < kvs.numHashtables)
include hd

theorem Inv.set (hst : ∀ ht, o = some ht → Stored T ht)
    (hsize : sizeOf o = kvstoreHashtableSize kvs d) : Inv T num (kvs.setHashtable d o) := by
  have hsame : kvstoreHashtableSize (kvs.setHashtable d o) = kvstoreHashtableSize kvs := by
    rw [kvstoreHashtableSize_setHashtable kvs hd, hsize, update_eq_self]
  have hweight : weight (kvs.setHashtable d o) = weight kvs := by
    funext i
    rw [weight, weight, hsame]
    rfl
  have hc := h.counts
  refine ⟨h.num_eq, stored_set h hst, h.bits_lt, ?_, h.importing_lt, ?_⟩
  · rw [hweight]
    exact hc.congr rfl
  · rw [hsame]
    exact h.importingKeys

omit hd in
theorem Inv.allocated (n : Int) : Inv T num { kvs with allocatedHashtables := n } := by
  have hc := h.counts
  exact ⟨h.num_eq, h.stored, h.bits_lt, hc.congr rfl, h.importing_lt, h.importingKeys⟩

variable (hsmall : num ≤ 2 ^ 29)
include hsmall

/-- **One key more or less.**  The table is exchanged for one whose size differs, and counted. -/
theorem Inv.count (hst : Stored T ht) (delta : Int)
    (hsize : (ht.size : Int) = kvstoreHashtableSize kvs d + delta) :
    ∃ kvs', cumulativeKeyCountAdd (kvs.setHashtable d (some ht)) d delta = some kvs' ∧
    Inv T num kvs' := by
  have hc := h.counts
  have htwo := hc.two_le
  have hstored := stored_set (d := d) h (fun ht' heq => some.inj heq ▸ hst)
  have hsizes := kvstoreHashtableSize_setHashtable kvs hd (some ht)
  set kvs₁ := kvs.setHashtable d (some ht)
  have himporting : kvstoreIsImporting kvs₁ d = some (decide (d ∈ kvs.importing)) :=
    kvstoreIsImporting_eq htwo hd
  have hweight : weight kvs₁ = update (weight kvs) d _ :=
    weight_eq_update (fun _ _ => Iff.rfl) fun i hi => by rw [hsizes, update_of_ne hi]
  by_cases himp : d ∈ kvs.importing
  · have hsame : weight kvs₁ d = weight kvs d :=
      (if_pos himp).trans (if_pos himp).symm
    rw [hsame, update_eq_self] at hweight
    refine ⟨{ kvs₁ with importingKeyCount := kvs.importingKeyCount + delta }, ?_,
      ⟨h.num_eq, hstored, h.bits_lt, ?_, h.importing_lt, ?_⟩⟩
    · rw [cumulativeKeyCountAdd, himporting, decide_eq_true himp]
      rfl
    · change Counts _ (weight kvs₁)
      rw [hweight]
      exact hc.congr rfl
    · change kvs.importingKeyCount + delta = ∑ i ∈ kvs.importing,
        (kvstoreHashtableSize kvs₁ i : Int)
      rw [hsizes, h.importingKeys]
      have hupdate : (fun i => (update (kvstoreHashtableSize kvs) d (sizeOf (some ht)) i : Int))
          = update (fun i => (kvstoreHashtableSize kvs i : Int)) d
              (kvstoreHashtableSize kvs d + delta) := by
        funext i
        by_cases hi : i = d
        · rw [hi, update_self, update_self]
          exact hsize
        · rw [update_of_ne hi, update_of_ne hi]
      rw [hupdate, sum_update_add, if_pos himp]
  · have hc' : Counts kvs₁ (weight kvs) := hc.congr rfl
    have hwd : weight kvs d = kvstoreHashtableSize kvs d := if_neg himp
    obtain ⟨keys, nonEmpty, index, hadd, hcounts⟩ := hc'.add_spec (h.bits_lt hsmall) hd himp
      (show kvs₁.hashtables d = some ht from update_self ..)
      (by rw [hwd]; exact hsize)
    have hnew : weight kvs₁ d = weight kvs d + delta := by
      rw [hwd, ← hsize]
      refine (if_neg himp).trans ?_
      rw [hsizes, update_self]
      rfl
    rw [← hnew, ← hweight] at hcounts
    refine ⟨_, hadd, ⟨h.num_eq, hstored, h.bits_lt, hcounts, h.importing_lt, ?_⟩⟩
    change kvs.importingKeyCount = ∑ i ∈ kvs.importing, (kvstoreHashtableSize kvs₁ i : Int)
    rw [hsizes, h.importingKeys]
    refine sum_congr rfl fun i hi => ?_
    have hid : i ≠ d := by
      rintro rfl
      exact himp hi
    rw [update_of_ne hid]

omit hsmall

theorem Inv.free : Inv T num (freeHashtableIfNeeded kvs d) := by
  rw [freeHashtableIfNeeded, kvstoreGetHashtable, if_pos hd]
  cases hht : kvs.hashtables d with
  | none => exact h
  | some ht =>
    simp only
    split
    · exact h
    · rename_i hfree
      have hzero : ht.size = 0 := by
        by_contra hne
        exact hfree (.inr (.inl hne))
      refine Inv.allocated (h.set hd (fun ht' heq => by cases heq) ?_) _
      rw [kvstoreHashtableSize_eq kvs hd, hht]
      exact hzero.symm

theorem Inv.create :
    ∃ kvs' ht, createHashtableIfNeeded kvs d = some (kvs', ht) ∧ Inv T num kvs'
      ∧ d < kvs'.numHashtables ∧ kvs'.hashtables d = some ht := by
  rw [createHashtableIfNeeded, kvstoreGetHashtable, if_pos hd]
  cases hht : kvs.hashtables d with
  | some ht => exact ⟨kvs, ht, rfl, h, hd, hht⟩
  | none =>
    refine ⟨_, _, if_pos hd, Inv.allocated (h.set hd (fun ht' heq => ?_) ?_) _, hd, update_self ..⟩
    · rw [← some.inj heq]
      exact ⟨⟨_, represents_create _ _⟩, rfl⟩
    · rw [kvstoreHashtableSize_eq kvs hd, hht]
      rfl

section Calls

variable {ht ht' : Hashtable E} (hht : kvs.hashtables d = some ht) (hst : Stored T ht')
include hht hst

theorem Inv.replace (hsize : ht'.size = ht.size) : Inv T num (kvs.setHashtable d (some ht')) :=
  h.set hd (fun _ heq => some.inj heq ▸ hst) (hsize.trans (size_of_table hd hht).symm)

include hsmall

theorem Inv.addition (hsize : ht'.size = ht.size + 1) :
    ∃ kvs', cumulativeKeyCountAdd (kvs.setHashtable d (some ht')) d 1 = some kvs' ∧
    Inv T num kvs' :=
  h.count hd hsmall hst 1 (by rw [size_of_table hd hht, hsize]; rfl)

theorem Inv.removal (hsize : ht'.size + 1 = ht.size) :
    ∃ kvs', countRemoval (kvs.setHashtable d (some ht')) d = some kvs' ∧ Inv T num kvs' := by
  have hold := size_of_table hd hht
  obtain ⟨kvs', hcount, hinv⟩ := h.count hd hsmall hst (-1) (by omega)
  refine ⟨freeHashtableIfNeeded kvs' d, ?_, hinv.free (hinv.num_eq.trans h.num_eq.symm ▸ hd)⟩
  rw [countRemoval, hcount, map_some]

omit hht hst

variable [DecidableEq K]

theorem Inv.add (e : E) (allowed : Bool) :
    ∃ kvs' r, kvstoreHashtableAdd T kvs d e allowed = some (kvs', r) ∧ Inv T num kvs' := by
  obtain ⟨kvs₁, ht, hcreate, hinv, hd₁, hht⟩ := h.create hd
  obtain ⟨a, hadd, hst, hsize⟩ := addOrFind_stored (hinv.stored d ht hht) e allowed
  rw [kvstoreHashtableAdd, hcreate, bind_some]
  simp only [hadd, bind_some]
  by_cases hnew : a.2.isNone = true
  · rw [if_pos hnew] at hsize ⊢
    obtain ⟨kvs', hcount, hinv'⟩ := hinv.addition hd₁ hsmall hht hst hsize
    exact ⟨_, _, by rw [hcount, map_some], hinv'⟩
  · rw [if_neg hnew] at hsize ⊢
    exact ⟨_, _, rfl, hinv.replace hd₁ hht hst hsize⟩

theorem Inv.insertAtPosition (e : E) (allowed : Bool) :
    ∃ kvs' r, step T kvs (.insertAtPosition d (T.entryGetKey e) e allowed) = some (kvs', r) ∧
    Inv T num kvs' := by
  obtain ⟨kvs₁, ht, hcreate, hinv, hd₁, hht⟩ := h.create hd
  obtain ⟨⟨ht₁, found⟩, hfind, hcase⟩ := insertAtPosition_stored (hinv.stored d ht hht) e allowed
  rw [step, kvstoreHashtableFindPositionForInsert, hcreate, bind_some]
  simp only [hfind, map_some, bind_some]
  cases found with
  | inl existing =>
    obtain ⟨hst, hsize⟩ := hcase
    exact ⟨_, _, rfl, hinv.replace hd₁ hht hst hsize⟩
  | inr p =>
    obtain ⟨ht₂, hins, hst, hsize⟩ := hcase
    obtain ⟨kvs', hcount, hinv'⟩ := hinv.addition hd₁ hsmall hht hst hsize
    refine ⟨kvs', true, ?_, hinv'⟩
    simp only [kvstoreHashtableInsertAtPosition]
    rw [kvstoreGetHashtable_set hd₁, bind_some, hins, bind_some, setHashtable_setHashtable,
      hcount, map_some]

theorem Inv.pop (k : K) (allowed : Bool) :
    ∃ kvs' r, kvstoreHashtablePop T kvs d k allowed = some (kvs', r) ∧ Inv T num kvs' := by
  rw [kvstoreHashtablePop, if_pos hd, kvstoreGetHashtable, if_pos hd]
  cases hht : kvs.hashtables d with
  | none => exact ⟨_, _, rfl, h⟩
  | some ht =>
    obtain ⟨r, hpop, hst, hsize⟩ := pop_stored (h.stored d ht hht) k allowed
    simp only [hpop, bind_some]
    by_cases hfound : r.2.isSome = true
    · rw [if_pos hfound] at hsize ⊢
      obtain ⟨kvs', hcount, hinv⟩ := h.removal hd hsmall hht hst hsize
      exact ⟨_, _, by rw [hcount, map_some], hinv⟩
    · rw [if_neg hfound] at hsize ⊢
      exact ⟨_, _, rfl, h.replace hd hht hst hsize⟩

theorem Inv.twoPhaseDelete (k : K) (allowed : Bool) :
    ∃ kvs' r, step T kvs (.twoPhaseDelete d k allowed) = some (kvs', r) ∧ Inv T num kvs' := by
  rw [step, kvstoreHashtableTwoPhasePopFindRef, kvstoreGetHashtable, if_pos hd]
  cases hht : kvs.hashtables d with
  | none => exact ⟨_, _, rfl, h⟩
  | some ht =>
    obtain ⟨⟨ht₁, found⟩, hfind, hcase⟩ := twoPhasePop_stored (h.stored d ht hht) k allowed
    simp only [hfind, map_some, bind_some]
    cases found with
    | none =>
      obtain ⟨hst, hsize⟩ := hcase
      exact ⟨_, _, rfl, h.replace hd hht hst hsize⟩
    | some f =>
      obtain ⟨ht₂, hdel, hst, hsize⟩ := hcase
      obtain ⟨kvs', hcount, hinv⟩ := h.removal hd hsmall hht hst hsize
      refine ⟨kvs', true, ?_, hinv⟩
      simp only [kvstoreHashtableTwoPhasePopDelete]
      rw [kvstoreGetHashtable_set hd, bind_some, hdel, bind_some, setHashtable_setHashtable,
        hcount, map_some]

end Calls

/-! ### Importing -/

theorem Inv.markImporting (hzero : kvstoreHashtableSize kvs d = 0) :
    Inv T num { kvs with importing := insert d kvs.importing } := by
  have hc := h.counts
  have hweight : weight { kvs with importing := insert d kvs.importing } =
      update (weight kvs) d _ :=
    weight_eq_update (fun i hi => by rw [mem_insert, or_iff_right hi]) fun _ _ => rfl
  have hsame : weight { kvs with importing := insert d kvs.importing } d = weight kvs d := by
    rw [weight, weight, hzero]
    refine (if_pos (mem_insert_self d _)).trans ?_
    rw [cast_zero, ite_self]
  rw [hsame, update_eq_self] at hweight
  refine ⟨h.num_eq, h.stored, h.bits_lt, ?_, ?_, ?_⟩
  · rw [hweight]
    exact hc.congr rfl
  · intro i hi
    rcases mem_insert.mp hi with rfl | hi
    · exact hd
    · exact h.importing_lt i hi
  · change kvs.importingKeyCount = ∑ i ∈ insert d kvs.importing, (kvstoreHashtableSize kvs i : Int)
    rw [sum_insert_zero (by rw [hzero]; rfl)]
    exact h.importingKeys

include hsmall in
theorem Inv.unmarkImporting :
    ∃ kvs', kvstoreSetIsImporting kvs d false = some kvs' ∧ Inv T num kvs' := by
  have hc := h.counts
  have htwo := hc.two_le
  rw [kvstoreSetIsImporting, if_neg (by omega), if_pos hd, if_neg Bool.false_ne_true]
  have hlt : ∀ i ∈ kvs.importing.erase d, i < kvs.numHashtables :=
    fun i hi => h.importing_lt i (mem_of_mem_erase hi)
  have hweight : weight { kvs with importing := kvs.importing.erase d } = update (weight kvs) d _ :=
    weight_eq_update (fun i hi => by rw [mem_erase, and_iff_right hi]) fun _ _ => rfl
  have hnew : weight { kvs with importing := kvs.importing.erase d } d =
      kvstoreHashtableSize kvs d :=
    if_neg (notMem_erase d _)
  rw [hnew] at hweight
  by_cases hcase : d ∈ kvs.importing ∧ kvstoreHashtableSize kvs d ≠ 0
  · obtain ⟨himp, hsize⟩ := id hcase
    obtain ⟨ht, hht⟩ : ∃ ht, kvs.hashtables d = some ht := by
      cases hht : kvs.hashtables d with
      | some ht => exact ⟨ht, rfl⟩
      | none => rw [kvstoreHashtableSize_eq kvs hd, hht] at hsize; exact absurd rfl hsize
    have hold := size_of_table hd hht
    have hwd : weight kvs d = 0 := if_pos himp
    have hc' : Counts { kvs with importing := kvs.importing.erase d } (weight kvs) :=
      hc.congr rfl
    obtain ⟨keys, nonEmpty, index, hadd, hcounts⟩ :=
      hc'.add_spec (h.bits_lt hsmall) hd (notMem_erase d _) hht
      (show (ht.size : Int) = weight kvs d + kvstoreHashtableSize kvs d by omega)
    rw [hwd, zero_add, ← hweight] at hcounts
    rw [if_pos hcase, hadd, map_some]
    refine ⟨_, rfl, h.num_eq, h.stored, h.bits_lt, ?_, hlt, ?_⟩
    · exact hcounts.congr rfl
    · change kvs.importingKeyCount - (kvstoreHashtableSize kvs d : Int)
        = ∑ i ∈ kvs.importing.erase d, (kvstoreHashtableSize kvs i : Int)
      rw [h.importingKeys, ← add_sum_erase _ _ himp, add_sub_cancel_left]
  · rw [if_neg hcase]
    have hzero : d ∈ kvs.importing → kvstoreHashtableSize kvs d = 0 := fun himp => by
      by_contra hne
      exact hcase ⟨himp, hne⟩
    have hsame : (kvstoreHashtableSize kvs d : Int) = weight kvs d := by
      rw [weight]
      split
      · rename_i himp
        rw [hzero himp, cast_zero]
      · rfl
    rw [hsame, update_eq_self] at hweight
    refine ⟨_, rfl, h.num_eq, h.stored, h.bits_lt, ?_, hlt, ?_⟩
    · rw [hweight]
      exact hc.congr rfl
    · change kvs.importingKeyCount = ∑ i ∈ kvs.importing.erase d, (kvstoreHashtableSize kvs i : Int)
      rw [h.importingKeys]
      by_cases himp : d ∈ kvs.importing
      · rw [← add_sum_erase _ _ himp, hzero himp, cast_zero, zero_add]
      · rw [erase_eq_of_notMem himp]

omit h hd

/-! ### Emptying and creation -/

theorem free_cases (kvs : Kvstore E) (d : Nat) : freeHashtableIfNeeded kvs d = kvs
    ∨ ∃ n, freeHashtableIfNeeded kvs d
      = { kvs.setHashtable d none with allocatedHashtables := n } := by
  rw [freeHashtableIfNeeded]
  split
  · exact .inl rfl
  · split
    · exact .inl rfl
    · exact .inr ⟨_, rfl⟩

/-- After the loop of `kvstoreEmpty` has passed `n` tables. -/
structure Emptied (T : HashtableType K E) (kvs : Kvstore E) (n : Nat) (kvs' : Kvstore E) :
    Prop where
  num_eq : kvs'.numHashtables = kvs.numHashtables
  bits_eq : kvs'.numHashtablesBits = kvs.numHashtablesBits
  stored : ∀ d ht, kvs'.hashtables d = some ht → Stored T ht
  zero : ∀ d < n, sizeOf (kvs'.hashtables d) = 0

theorem Emptied.next {n : Nat} {kvs' kvs'' : Kvstore E} (h : Emptied T kvs n kvs')
    (hnum : kvs''.numHashtables = kvs'.numHashtables)
    (hbits : kvs''.numHashtablesBits = kvs'.numHashtablesBits)
    {o : Option (Hashtable E)} (htables : kvs''.hashtables = update kvs'.hashtables n o)
    (hst : ∀ ht, o = some ht → Stored T ht) (hsize : sizeOf o = 0) :
    Emptied T kvs (n + 1) kvs'' := by
  refine ⟨hnum.trans h.num_eq, hbits.trans h.bits_eq, fun d ht hd => ?_, fun d hd => ?_⟩
  · rw [htables] at hd
    exact stored_update h.stored hst d ht hd
  · rw [htables]
    by_cases hdn : d = n
    · rw [hdn, update_self]
      exact hsize
    · rw [update_of_ne hdn]
      exact h.zero d (by omega)

theorem emptyAll_spec (h : Inv T num kvs) :
    ∀ n, n ≤ kvs.numHashtables → Emptied T kvs n (emptyAll kvs n) := by
  intro n
  induction n with
  | zero => exact fun _ => ⟨rfl, rfl, h.stored, nofun⟩
  | succ n ih =>
    intro hn
    have he := ih (by omega)
    rw [emptyAll]
    rw [kvstoreGetHashtable, if_pos (by rw [he.num_eq]; omega)]
    cases hht : (emptyAll kvs n).hashtables n with
    | none =>
      exact he.next rfl rfl (update_eq_self_iff.mpr hht.symm).symm nofun rfl
    | some ht =>
      obtain ⟨hst, hzero⟩ := (he.stored n ht hht).empty
      simp only
      rcases free_cases ((emptyAll kvs n).setHashtable n (some (hashtableEmpty ht))) n with heq
        | ⟨a, heq⟩
      · rw [heq]
        exact he.next rfl rfl rfl (fun ht' hsome => some.inj hsome ▸ hst) hzero
      · rw [heq]
        refine he.next rfl rfl (o := none) ?_ nofun rfl
        exact update_idem ..

theorem Counts.zero {kvs : Kvstore E} (htwo : 2 ≤ kvs.numHashtables)
    (hnum : kvs.numHashtables ≤ 2 ^ kvs.numHashtablesBits) (hbits : kvs.numHashtablesBits ≤ 30)
    (hkeys : kvs.keyCount = 0) (hnon : kvs.nonEmptyHashtables = 0)
    (hexact : ∀ i, i ≤ kvs.numHashtables → kvs.hashtableSizeIndex i = 0)
    (hpad : ∀ i, kvs.numHashtables < i → i ≤ 2 ^ kvs.numHashtablesBits →
    0 ≤ kvs.hashtableSizeIndex i) :
    Counts kvs fun _ => 0 := by
  have hnode : ∀ i, node (fun _ => (0 : Int)) i = 0 := fun i => sum_const_zero
  refine ⟨htwo, hnum, hbits, fun _ => le_rfl, fun _ _ => rfl, ?_, ?_, ?_, ?_⟩
  · rw [hkeys, below, sum_const_zero]
  · rw [hnon]
    simp
  · intro i hi _
    rw [hexact i hi, hnode]
  · intro i hi hle
    rw [hnode]
    exact hpad i hi hle

theorem weight_zero {kvs : Kvstore E} (hzero : ∀ d < kvs.numHashtables,
    sizeOf (kvs.hashtables d) = 0) : weight kvs = fun _ => 0 := by
  funext d
  rw [weight]
  split
  · rfl
  · by_cases hd : d < kvs.numHashtables
    · rw [kvstoreHashtableSize_eq kvs hd, hzero d hd]
      rfl
    · rw [kvstoreHashtableSize, kvstoreGetHashtable, if_neg hd]
      rfl

theorem Inv.empty (h : Inv T num kvs) : Inv T num (kvstoreEmpty kvs) := by
  have he := emptyAll_spec h kvs.numHashtables le_rfl
  have hc := h.counts
  have hnum : (kvstoreEmpty kvs).numHashtables = kvs.numHashtables := he.num_eq
  have hbits : (kvstoreEmpty kvs).numHashtablesBits = kvs.numHashtablesBits := he.bits_eq
  refine ⟨hnum.trans h.num_eq, he.stored, hbits ▸ h.bits_lt, ?_, fun d hd => ?_, rfl⟩
  · have hweight : weight (kvstoreEmpty kvs) = fun _ => 0 :=
      weight_zero fun d hd => he.zero d (hnum ▸ hd)
    rw [hweight]
    refine Counts.zero (hnum ▸ hc.two_le) (by rw [hnum, hbits]; exact hc.num_le)
      (hbits ▸ hc.bits_le) rfl rfl ?_ ?_
    · intro i hi
      exact if_pos (hnum ▸ hi)
    · intro i hi hle
      rw [hnum] at hi
      rw [hbits] at hle
      have hindex : (kvstoreEmpty kvs).hashtableSizeIndex i = kvs.hashtableSizeIndex i :=
        if_neg (by omega)
      rw [hindex]
      exact le_trans (sum_nonneg fun d _ => hc.nonneg d) (hc.padding i hi hle)
  · exact absurd hd (notMem_empty d)

theorem bitsLoop_spec {n : Nat} (hn : n ≤ 2 ^ 30) :
    ∀ (fuel bits : Nat), bits ≤ 30 → 31 ≤ bits + fuel → (∀ b, b < bits → 2 ^ b < n) →
    ∃ b, bitsLoop n fuel bits = some b ∧ b ≤ 30 ∧ n ≤ 2 ^ b ∧ ∀ c, c < b → 2 ^ c < n := by
  intro fuel
  induction fuel with
  | zero => intro bits _ hfuel; omega
  | succ fuel ih =>
    intro bits hbits hfuel hbelow
    have hpow : 2 ^ bits ≤ 2 ^ 30 := Nat.pow_le_pow_right (by decide) hbits
    rw [bitsLoop, one_shiftLeft, int, if_pos (by omega), bind_some]
    by_cases hlt : 2 ^ bits < n
    · rw [if_pos hlt]
      have hne : bits ≠ 30 := by
        rintro rfl
        omega
      refine ih (bits + 1) (by omega) (by omega) fun b hb => ?_
      rcases lt_or_eq_of_le (le_of_lt_succ hb) with hb | rfl
      · exact hbelow b hb
      · exact hlt
    · exact ⟨bits, if_neg hlt, hbits, by omega, hbelow⟩

theorem createAll_spec (h : Inv T num kvs) : ∀ n, n ≤ num → ∃ kvs', createAll kvs n = some kvs' ∧
    Inv T num kvs' := by
  intro n
  induction n with
  | zero => exact fun _ => ⟨kvs, rfl, h⟩
  | succ n ih =>
    intro hn
    obtain ⟨kvs₁, hall, hinv⟩ := ih (by omega)
    obtain ⟨kvs₂, ht, hcreate, hinv', -⟩ := hinv.create (d := n) (by rw [hinv.num_eq]; omega)
    refine ⟨kvs₂, ?_, hinv'⟩
    rw [createAll, hall, bind_some, hcreate, map_some]

theorem kvstoreCreate_spec (T : HashtableType K E) (htwo : 2 ≤ num) (hnum : num ≤ 2 ^ 30)
    (freeEmpty onDemand : Bool) (policy : ResizePolicy) (canAbort : Bool) :
    ∃ kvs, kvstoreCreate num freeEmpty onDemand policy canAbort = some kvs ∧ Inv T num kvs := by
  obtain ⟨bits, hloop, hbits, hle, hleast⟩ := bitsLoop_spec hnum 32 0 (by decide) (by decide)
    nofun
  have hbits29 : num ≤ 2 ^ 29 → bits ≤ 29 := by
    intro hsmall
    by_contra hgt
    have := hleast 29 (by omega)
    omega
  rw [kvstoreCreate, hloop, bind_some]
  have hbase : Inv T num (.empty num bits freeEmpty policy canAbort) := by
    refine ⟨rfl, fun d ht hd => (some_ne_none ht hd.symm).elim, hbits29, ?_, nofun, rfl⟩
    rw [weight_zero (fun d _ => rfl)]
    exact Counts.zero htwo hle hbits rfl rfl (fun _ _ => rfl) fun _ _ _ => le_rfl
  by_cases hdemand : onDemand = true
  · exact ⟨_, if_pos hdemand, hbase⟩
  · rw [if_neg hdemand]
    exact createAll_spec hbase num le_rfl

/-! ### Runs -/

/-- What the callers owe: the index is one of a table, the entry has the key its position was looked
up for, and a table is marked as importing while it is empty. -/
def Proper (T : HashtableType K E) (kvs : Kvstore E) : Op K E → Prop
  | .add didx _ _ => didx < kvs.numHashtables
  | .insertAtPosition didx k e _ => didx < kvs.numHashtables ∧ T.entryGetKey e = k
  | .pop didx _ _ => didx < kvs.numHashtables
  | .delete didx _ _ => didx < kvs.numHashtables
  | .twoPhaseDelete didx _ _ => didx < kvs.numHashtables
  | .setIsImporting didx isImporting =>
    didx < kvs.numHashtables ∧ (isImporting = true → kvstoreHashtableSize kvs didx = 0)
  | .empty => True

theorem Inv.step [DecidableEq K] (h : Inv T num kvs) (hsmall : num ≤ 2 ^ 29) (op : Op K E)
    (hop : Proper T kvs op) :
    ∃ kvs' r, Kvstores.step T kvs op = some (kvs', r) ∧ Inv T num kvs' := by
  have htwo := h.counts.two_le
  cases op with
  | add didx e allowed => exact h.add hop hsmall e allowed
  | insertAtPosition didx k e allowed =>
    obtain ⟨hd, rfl⟩ := hop
    exact h.insertAtPosition hd hsmall e allowed
  | pop didx k allowed =>
    obtain ⟨kvs', r, hr, hinv⟩ := h.pop hop hsmall k allowed
    exact ⟨kvs', r.isSome, by rw [Kvstores.step, hr, map_some], hinv⟩
  | delete didx k allowed =>
    obtain ⟨kvs', r, hr, hinv⟩ := h.pop hop hsmall k allowed
    exact ⟨kvs', r.isSome, by rw [Kvstores.step, kvstoreHashtableDelete, hr, map_some], hinv⟩
  | twoPhaseDelete didx k allowed => exact h.twoPhaseDelete hop hsmall k allowed
  | setIsImporting didx isImporting =>
    obtain ⟨hd, hempty⟩ := hop
    cases isImporting with
    | false =>
      obtain ⟨kvs', hset, hinv⟩ := h.unmarkImporting hd hsmall
      exact ⟨kvs', true, by rw [Kvstores.step, hset, map_some], hinv⟩
    | true =>
      refine ⟨_, true, ?_, h.markImporting hd (hempty rfl)⟩
      rw [Kvstores.step, kvstoreSetIsImporting, if_neg (by omega), if_pos hd, if_pos rfl,
        if_pos (hempty rfl), map_some]
  | empty => exact ⟨_, true, rfl, h.empty⟩

/-- The keys of the tables before `d` that are not imported. -/
def cumulative (kvs : Kvstore E) (d : Nat) : Int :=
  ∑ i ∈ range d with i ∉ kvs.importing, (kvstoreHashtableSize kvs i : Int)

theorem cumulative_eq (kvs : Kvstore E) (d : Nat) : cumulative kvs d = below (weight kvs) d := by
  rw [cumulative, below, sum_filter]
  refine sum_congr rfl fun i _ => ?_
  rw [weight, ite_not]

/-- The table has keys and is not imported. -/
def Counted (kvs : Kvstore E) (d : Nat) : Prop := d ∉ kvs.importing ∧ kvstoreHashtableSize kvs d ≠ 0

theorem weight_ne_zero {kvs : Kvstore E} : weight kvs d ≠ 0 ↔ Counted kvs d := by
  rw [weight, Counted]
  split
  · rename_i himp
    simp [himp]
  · rename_i himp
    simp [himp]

theorem Inv.next_spec (h : Inv T num kvs) (hd : d < kvs.numHashtables) :
    ∃ o, kvstoreGetNextNonEmptyHashtableIndex kvs d = some o ∧ match o with
      | some e => d < e ∧ e < kvs.numHashtables ∧ Counted kvs e ∧ ∀ i, d < i → i < e →
      ¬ Counted kvs i
      | none => ∀ i, d < i → i < kvs.numHashtables → ¬ Counted kvs i := by
  obtain ⟨o, hnext, hcase⟩ := h.counts.next_spec hd
  refine ⟨o, hnext, ?_⟩
  cases o with
  | some e =>
    obtain ⟨h₁, h₂, h₃, h₄⟩ := hcase
    exact ⟨h₁, h₂, weight_ne_zero.mp h₃, fun i hdi hie hci => weight_ne_zero.mpr hci (h₄ i hdi hie)⟩
  | none => exact fun i hdi _ hci => weight_ne_zero.mpr hci (hcase i hdi)

instance (kvs : Kvstore E) (d : Nat) : Decidable (Counted kvs d) :=
  inferInstanceAs (Decidable (_ ∧ _))

/-- **The size index is exact.**  In a store of at most `2 ^ 29` tables every sequence of operations
goes through, and after it the counts are those of the tables; the search for the `t`-th key finds
the one table that holds it, and the search for the next table with keys finds the first behind. -/
theorem size_index_exact [DecidableEq K] (T : HashtableType K E) (num : Nat) (htwo : 2 ≤ num)
    (hnum : num ≤ 2 ^ 29) (freeEmpty onDemand : Bool) (policy : ResizePolicy) (canAbort : Bool) :
    ∃ kvs₀, kvstoreCreate num freeEmpty onDemand policy canAbort = some kvs₀
      ∧ ∀ ops, Runs.Along (step T) (Proper T) kvs₀ ops →
        ∃ kvs rs, Runs.run (step T) kvs₀ ops = some (kvs, rs) ∧ kvs.numHashtables = num
          ∧ kvs.keyCount = ∑ d ∈ range num with d ∉ kvs.importing,
          (kvstoreHashtableSize kvs d : Int)
          ∧ kvs.importingKeyCount
              = ∑ d ∈ range num with d ∈ kvs.importing, (kvstoreHashtableSize kvs d : Int)
          ∧ kvs.nonEmptyHashtables = ((range num).filter (Counted kvs)).card
          ∧ (∀ t : Int, 1 ≤ t → t ≤ kvs.keyCount →
              ∃ d, kvstoreFindHashtableIndexByKeyIndex kvs t = some (some d)
                ∧ ∀ i, (i < num ∧ cumulative kvs i < t ∧ t ≤ cumulative kvs (i + 1)) ↔ i = d)
          ∧ ∀ d < num, ∃ o, kvstoreGetNextNonEmptyHashtableIndex kvs d = some o ∧ match o with
              | some e => d < e ∧ e < num ∧ Counted kvs e ∧ ∀ i, d < i → i < e → ¬ Counted kvs i
              | none => ∀ i, d < i → i < num → ¬ Counted kvs i := by
  obtain ⟨kvs₀, hcreate, hinv₀⟩ :=
    kvstoreCreate_spec T htwo (by omega) freeEmpty onDemand policy canAbort
  refine ⟨kvs₀, hcreate, fun ops hops => ?_⟩
  obtain ⟨kvs, rs, hrun, hinv⟩ := run_total (fun kvs op h hop => h.step hnum op hop) hinv₀ hops
  have hc := hinv.counts
  have heq := hinv.num_eq
  refine ⟨kvs, rs, hrun, heq, ?_, ?_, ?_, ?_, ?_⟩
  · rw [hc.keys, heq]
    exact (cumulative_eq kvs num).symm
  · rw [hinv.importingKeys]
    refine sum_congr ?_ fun _ _ => rfl
    ext d
    rw [mem_filter, mem_range]
    exact ⟨fun hd => ⟨heq ▸ hinv.importing_lt d hd, hd⟩, fun hd => hd.2⟩
  · rw [hc.nonEmpty, heq]
    congr 2
    exact filter_congr fun d _ => weight_ne_zero
  · intro t ht hle
    obtain ⟨d, hfind, hd, hlt, hge⟩ := hc.find_spec (by omega) hle
    refine ⟨d, hfind, fun i => ?_⟩
    rw [cumulative_eq, cumulative_eq]
    constructor
    · rintro ⟨-, hlt', hge'⟩
      -- two places with the target between their prefixes are one
      rcases lt_trichotomy i d with hid | hid | hid
      · have := below_mono hc.nonneg (show i + 1 ≤ d from hid)
        omega
      · exact hid
      · have := below_mono hc.nonneg (show d + 1 ≤ i from hid)
        omega
    · rintro rfl
      exact ⟨heq ▸ hd, hlt, hge⟩
  · intro d hd
    exact heq ▸ hinv.next_spec (heq.symm ▸ hd)

end Store

instance decidableProper [DecidableEq K] (T : HashtableType K E) (kvs : Kvstore E) (op : Op K E) :
    Decidable (Proper T kvs op) :=
  match op with
  | .add _ _ _ => inferInstanceAs (Decidable (_ < _))
  | .insertAtPosition _ _ _ _ => inferInstanceAs (Decidable (_ ∧ _))
  | .pop _ _ _ => inferInstanceAs (Decidable (_ < _))
  | .delete _ _ _ => inferInstanceAs (Decidable (_ < _))
  | .twoPhaseDelete _ _ _ => inferInstanceAs (Decidable (_ < _))
  | .setIsImporting _ _ => inferInstanceAs (Decidable (_ ∧ _))
  | .empty => inferInstanceAs (Decidable True)

/-- Three tables, allocated on demand and freed when they are empty. -/
def threeTables : Kvstore Nat :=
  .empty 3 2 true .allow true

/-- The node of the whole, behind the last table, keeps the two keys that `kvstoreEmpty` dropped. -/
def importAfterEmpty : List (Op Nat Nat) :=
  [.add 0 5 true, .insertAtPosition 2 6 6 true, .empty, .setIsImporting 1 true, .add 1 7 true,
    .add 1 8 true, .add 2 9 true, .setIsImporting 1 false, .pop 1 7 true, .twoPhaseDelete 2 4 true]

theorem size_index_exact_three :
    ∃ kvs rs, Runs.run (step collide) threeTables importAfterEmpty = some (kvs, rs)
      ∧ kvs.keyCount = 2 ∧ kvs.nonEmptyHashtables = 2
      ∧ (∑ d ∈ range 3 with d ∉ kvs.importing, (kvstoreHashtableSize kvs d : Int)) = 2
      ∧ kvstoreFindHashtableIndexByKeyIndex kvs 2 = some (some 2) := by
  have heval : (Runs.run (step collide) threeTables importAfterEmpty).map (fun r => (r.1.keyCount,
      r.1.nonEmptyHashtables, kvstoreFindHashtableIndexByKeyIndex r.1 2))
      = some (2, 2, some (some 2)) := by
    decide +kernel
  obtain ⟨kvs₀, hcreate, hall⟩ :=
    size_index_exact collide 3 (by decide) (by decide) true true .allow true
  obtain rfl : threeTables = kvs₀ := some.inj hcreate
  obtain ⟨kvs, rs, hrun, -, hkeys, -⟩ := hall importAfterEmpty (by decide +kernel)
  rw [hrun] at heval
  obtain ⟨hcount, hrest⟩ := Prod.mk.inj (some.inj heval)
  obtain ⟨hnonEmpty, hfind⟩ := Prod.mk.inj hrest
  exact ⟨kvs, rs, hrun, hcount, hnonEmpty, hkeys.symm.trans hcount, hfind⟩

/-- With more than `2 ^ 29` tables the last node of the tree is `2 ^ 30`, and the step behind it is
not an `int`. -/
theorem add_overflows :
    ((kvstoreCreate (2 ^ 29 + 1) true true .allow true : Option (Kvstore Nat)).map fun kvs =>
      (decide (Proper collide kvs (.add 0 7 true)), (step collide kvs (.add 0 7 true)).isNone))
      = some (true, true) := by decide +kernel

end NexCache.Kvstores
