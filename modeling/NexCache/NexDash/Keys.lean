import NexCache.NexDash.Invariants

/-!
# The map a table stands for

A slot names its key by an offset into the pool and the length in its tag
(`slotKey`).  In every reachable table each slot carries the hash of the key it
names, no two slots name the same key, and the Bloom filter knows every hash
(`Keyed`).  Then probing for a key finds the one slot that names it, and

    absMap t : Key → Option Entry

reads the table as a map.  The moves act on it by `Function.update`
(`absMap_remove`, `absMap_rewrite`, `absMap_create`), or not at all.
-/

namespace NexCache.NexDash

open Machine Bloom Function
open Multiset (map_cons nodup_cons mem_cons_of_mem mem_cons forall_mem_cons)

/-! ### The key of a slot -/

/-- The bytes that the slot's offset and length cut out of the pool. -/
def slotKey (pool : List UInt8) (sl : NexDashSlot) : List UInt8 :=
  (pool.drop sl.keyOffset).take (tagGetLen sl.valuePtr).toNat

structure KeyOk (pool : List UInt8) (sl : NexDashSlot) : Prop where
  range : sl.keyOffset + (tagGetLen sl.valuePtr).toNat ≤ pool.length
  hash : sl.keyHash = fnv1a (slotKey pool sl)

variable {pool : List UInt8} {sl : NexDashSlot}

theorem KeyOk.length_slotKey (h : KeyOk pool sl) :
    (slotKey pool sl).length = (tagGetLen sl.valuePtr).toNat := by
  have := h.range
  rw [slotKey, List.length_take, List.length_drop]
  omega

theorem toNat_ofNat_len (key : Key) : (BitVec.ofNat 8 key.len).toNat = key.len := by
  rw [BitVec.toNat_ofNat]
  exact Nat.mod_eq_of_lt key.len_lt

variable {t : NexDashTable}

/-- **A slot matches the key it names, and no other.** -/
theorem KeyOk.slotMatches_iff (h : KeyOk t.keyPool sl)
    (key : Key) : slotMatches t key (fnv1a64 key) sl = true ↔ slotKey t.keyPool sl = key.bytes := by
  unfold slotMatches
  simp only [Bool.and_eq_true, beq_iff_eq]
  constructor
  · rintro ⟨⟨_, hlen⟩, hbytes⟩
    rw [slotKey, hlen, toNat_ofNat_len]
    exact hbytes
  · intro hkey
    have hlen : (tagGetLen sl.valuePtr).toNat = key.len := by
      rw [← h.length_slotKey, hkey]
      rfl
    refine ⟨⟨?_, ?_⟩, ?_⟩
    · rw [h.hash, hkey]
      rfl
    · apply BitVec.eq_of_toNat_eq
      rw [hlen, toNat_ofNat_len]
    · rw [← hlen]
      exact hkey

/-- Keys already in the pool are not touched by an append. -/
theorem slotKey_append (h : sl.keyOffset + (tagGetLen sl.valuePtr).toNat ≤ pool.length)
    (ext : List UInt8) :
    slotKey (pool ++ ext) sl = slotKey pool sl := by
  rw [slotKey, slotKey, List.drop_append_of_le_length (by omega),
    List.take_append_of_le_length (by rw [List.length_drop]; omega)]

theorem KeyOk.append (h : KeyOk pool sl) (ext : List UInt8) : KeyOk (pool ++ ext) sl := by
  refine ⟨?_, ?_⟩
  · have := h.range
    rw [List.length_append]
    omega
  · rw [slotKey_append h.range]
    exact h.hash

/-- The rewrites leave hash, offset and length of a slot alone. -/
structure SameKey (sl sl' : NexDashSlot) : Prop where
  hash : sl'.keyHash = sl.keyHash
  offset : sl'.keyOffset = sl.keyOffset
  len : tagGetLen sl'.valuePtr = tagGetLen sl.valuePtr

variable {sl' : NexDashSlot}

theorem SameKey.slotKey_eq (h : SameKey sl sl') (pool : List UInt8) :
    slotKey pool sl' = slotKey pool sl := by
  rw [slotKey, slotKey, h.offset, h.len]

theorem SameKey.keyOk (h : SameKey sl sl') (hk : KeyOk pool sl) : KeyOk pool sl' := by
  refine ⟨?_, ?_⟩
  · rw [h.offset, h.len]
    exact hk.range
  · rw [h.hash, h.slotKey_eq]
    exact hk.hash

variable {key : Key}

/-- The length that matching has compared is the one the tag holds. -/
theorem len_of_slotMatches {hash : Nat} (h : slotMatches t key hash sl = true) :
    tagGetLen sl.valuePtr = BitVec.ofNat 8 key.len := by
  unfold slotMatches at h
  simp only [Bool.and_eq_true, beq_iff_eq] at h
  exact h.1.2

variable {type : BitVec 32}

variable (hlen : tagGetLen sl.valuePtr = BitVec.ofNat 8 key.len)
include hlen

theorem sameKey_storedSlot (htype : type.toNat < 16) (value : Addr) (valueSize : BitVec 32)
    (expireUs : Nat) : SameKey sl (storedSlot sl key value valueSize type expireUs) := by
  refine ⟨rfl, rfl, ?_⟩
  rw [storedSlot, tagGetLen_setMeta _ _ _ _ htype, hlen]

theorem sameKey_promotedSlot : SameKey sl (promotedSlot sl key) := by
  refine ⟨rfl, rfl, ?_⟩
  have htype : ((tagGetType sl.valuePtr).setWidth 32).toNat < 16 := by
    rw [BitVec.toNat_setWidth]
    omega
  rw [promotedSlot, tagGetLen_setMeta _ _ _ _ htype, hlen]

omit hlen

/-! ### The invariant -/

structure Keyed (t : NexDashTable) : Prop where
  keys : ∀ sl ∈ t.contents, KeyOk t.keyPool sl
  distinct : (t.contents.map (slotKey t.keyPool)).Nodup
  bloom : ∀ sl ∈ t.contents, nexbloomCheck t.bloom sl.keyHash = true

/-- The `set` calls store a value under a type that fits the tag. -/
def StoresTyped (_ : Key) (value : Addr) (type : BitVec 32) : Prop :=
  value ≠ 0#48 ∧ type.toNat ≤ 14

variable {t' : NexDashTable}

theorem Keyed.sublist (h : Keyed t) (hcont : t.contents = sl ::ₘ t'.contents)
    (hpool : t'.keyPool = t.keyPool) (hbloom : t'.bloom = t.bloom) : Keyed t' := by
  obtain ⟨hkeys, hdist, hbl⟩ := h
  rw [hcont] at hkeys hdist hbl
  rw [map_cons, nodup_cons] at hdist
  refine ⟨?_, ?_, ?_⟩
  · rw [hpool]
    exact fun s hs => hkeys s (mem_cons_of_mem hs)
  · rw [hpool]
    exact hdist.2
  · rw [hbloom]
    exact fun s hs => hbl s (mem_cons_of_mem hs)

variable {rest : Multiset NexDashSlot}

theorem Keyed.rewrite (h : Keyed t) (hold : t.contents = sl ::ₘ rest)
    (hnew : t'.contents = sl' ::ₘ rest) (hsame : SameKey sl sl') (hpool : t'.keyPool = t.keyPool)
    (hbloom : t'.bloom = t.bloom) : Keyed t' := by
  obtain ⟨hkeys, hdist, hbl⟩ := h
  rw [hold] at hkeys hdist hbl
  rw [forall_mem_cons] at hkeys hbl
  refine ⟨?_, ?_, ?_⟩
  · rw [hnew, hpool]
    exact forall_mem_cons.mpr ⟨hsame.keyOk hkeys.1, hkeys.2⟩
  · rw [hnew, hpool, map_cons, hsame.slotKey_eq, ← map_cons]
    exact hdist
  · rw [hnew, hbloom, forall_mem_cons, hsame.hash]
    exact hbl

/-! ### A new key -/

theorem sameKey_newSlot (t : NexDashTable) (key : Key) (htype : type.toNat < 16) (value : Addr)
    (valueSize : BitVec 32) (expireUs : Nat) :
    SameKey (ndFreshSlot t.keyPool.length (fnv1a64 key) (some key))
      (newSlot t key value valueSize type expireUs) := by
  refine sameKey_storedSlot ?_ htype value valueSize expireUs
  rw [ndFreshSlot, tagGetLen_setMeta _ _ _ _ (by decide)]
  rfl

theorem slotKey_fresh (pool : List UInt8) (key : Key) (hash : Nat) :
    slotKey (pool ++ key.bytes ++ [0]) (ndFreshSlot pool.length hash (some key)) = key.bytes := by
  have hlen : tagGetLen (ndFreshSlot pool.length hash (some key)).valuePtr
      = BitVec.ofNat 8 key.len := by
    rw [ndFreshSlot, tagGetLen_setMeta _ _ _ _ (by decide)]
    rfl
  rw [slotKey, hlen, toNat_ofNat_len]
  show ((pool ++ key.bytes ++ [0]).drop pool.length).take key.len = key.bytes
  rw [List.append_assoc, List.drop_left]
  exact List.take_left

theorem keyOk_fresh (pool : List UInt8) (key : Key) :
    KeyOk (pool ++ key.bytes ++ [0]) (ndFreshSlot pool.length (fnv1a64 key) (some key)) := by
  refine ⟨?_, ?_⟩
  · rw [ndFreshSlot, tagGetLen_setMeta _ _ _ _ (by decide)]
    show pool.length + (BitVec.ofNat 8 key.len).toNat ≤ _
    rw [toNat_ofNat_len, List.length_append, List.length_append, SizedBytes.len]
    omega
  · rw [slotKey_fresh]
    rfl

variable {p : Pos}

theorem pool_create {hash : Nat} (hcreate : ndCreateSlot t key hash = some (some (t', p))) :
    t'.keyPool = t.keyPool ++ key.bytes ++ [0] ∧ t'.bloom = nexbloomAdd t.bloom hash := by
  obtain ⟨_, _, _, cap, _, ht'⟩ := ndCreateSlot_some hcreate
  rw [ht']
  exact ⟨rfl, rfl⟩

theorem Keyed.create (hsound : Sound t) (h : Keyed t) (hnew : ndProbe t key (fnv1a64 key) = none)
    (hcreate : ndCreateSlot t key (fnv1a64 key) = some (some (t', p))) (htype : type.toNat < 16)
    (value : Addr) (valueSize : BitVec 32) (expireUs : Nat) :
    Keyed (ndStore t' p key value valueSize type expireUs) := by
  have hcont := contents_create hsound.shape.dirPos hcreate value valueSize type expireUs
  have hsame := sameKey_newSlot t key htype value valueSize expireUs
  obtain ⟨hpool, hbloom⟩ := pool_create hcreate
  have hrange : ∀ s ∈ t.contents,
      slotKey (t.keyPool ++ key.bytes ++ [0]) s = slotKey t.keyPool s := by
    intro s hs
    rw [List.append_assoc]
    exact slotKey_append (h.keys s hs).range _
  refine ⟨?_, ?_, ?_⟩
  · rw [hcont, keyPool_ndStore, hpool]
    refine forall_mem_cons.mpr ⟨hsame.keyOk (keyOk_fresh _ _), fun s hs => ?_⟩
    rw [List.append_assoc]
    exact (h.keys s hs).append _
  · rw [hcont, keyPool_ndStore, hpool, map_cons, Multiset.map_congr rfl hrange,
      nodup_cons]
    refine ⟨?_, h.distinct⟩
    rw [hsame.slotKey_eq, slotKey_fresh, Multiset.mem_map]
    rintro ⟨s, hs, hkey⟩
    -- a slot that names the key would have been found
    have hno := ndProbe_none hsound.shape hnew s hs
    rw [(KeyOk.slotMatches_iff (h.keys s hs) key).mpr hkey] at hno
    simp at hno
  · rw [hcont, bloom_ndStore, hbloom, forall_mem_cons, hsame.hash]
    exact ⟨nexbloomCheck_add_self _ _, fun s hs => nexbloomCheck_mono _ _ _ (h.bloom s hs)⟩

theorem Keyed.move {R : Prop} (hsound : Sound t) (h : NdMove StoresTyped R t t')
    (hk : Keyed t) : Keyed t' := by
  cases h with
  | count stats => exact ⟨hk.keys, hk.distinct, hk.bloom⟩
  | remove hp hc =>
    exact hk.sublist (contents_ndRemoveSlot hp hc) (keyPool_ndRemoveSlot t _)
      (bloom_ndRemoveSlot t _)
  | reexpire hp hc enc =>
    obtain ⟨rest, hold, hnew⟩ := contents_setSlot hp hc _
    exact hk.rewrite hold hnew ⟨rfl, rfl, rfl⟩ rfl rfl
  | promote hp hc hm =>
    obtain ⟨rest, hold, hnew⟩ := contents_setSlot hp hc _
    exact hk.rewrite hold hnew (sameKey_promotedSlot (len_of_slotMatches hm)) rfl rfl
  | store hp hc hm hS valueSize expireUs =>
    obtain ⟨rest, hold, hnew⟩ := contents_ndStore hp hc _ _ valueSize _ expireUs
    exact hk.rewrite hold hnew
      (sameKey_storedSlot (len_of_slotMatches hm) (Nat.lt_succ_of_le (Nat.le_succ_of_le hS.2))
        _ valueSize expireUs)
      (keyPool_ndStore ..) (bloom_ndStore ..)
  | create hkey hnew hcreate hS valueSize expireUs =>
    exact hk.create hsound hnew hcreate (Nat.lt_succ_of_le (Nat.le_succ_of_le hS.2)) ..
  | resize hR h =>
    obtain ⟨hcont, _, ht'⟩ := ndResize_spec hsound.shape h
    have hpool : t'.keyPool = t.keyPool := by rw [ht']
    have hbloom : t'.bloom = t.bloom := by rw [ht']
    refine ⟨?_, ?_, ?_⟩
    · rw [hcont, hpool]
      exact hk.keys
    · rw [hcont, hpool]
      exact hk.distinct
    · rw [hcont, hbloom]
      exact hk.bloom

/-! ### The map -/

/-- What a caller knows about a key. -/
structure Entry where
  value : Addr
  type : BitVec 32
  deadline : Nat
  deriving DecidableEq

def NexDashSlot.entry (sl : NexDashSlot) : Entry :=
  ⟨tagGetAddr sl.valuePtr, (tagGetType sl.valuePtr).setWidth 32, sl.expireUs32⟩

/-- The encoded deadline has passed. -/
def Entry.expired (e : Entry) (now : Nat) : Bool :=
  e.deadline != 0 && decide (decodeExpire e.deadline ≤ now)

theorem slotExpired_eq (sl : NexDashSlot) (now : Nat) :
    slotExpired sl now = sl.entry.expired now := rfl

def absMap (t : NexDashTable) (key : Key) : Option Entry :=
  (ndProbe t key (fnv1a64 key)).map fun p => (t.slotAt p).entry

/-- Some entry of `M` names `key` and says `e`. -/
def Binds (pool : List UInt8) (M : Multiset NexDashSlot) (key : Key) (e : Entry) : Prop :=
  ∃ sl ∈ M, slotKey pool sl = key.bytes ∧ sl.entry = e

variable {e : Entry} {M : Multiset NexDashSlot}

theorem binds_cons
    : Binds pool (sl ::ₘ M) key e
      ↔ (slotKey pool sl = key.bytes ∧ sl.entry = e) ∨ Binds pool M key e := by
  simp only [Binds, mem_cons]
  constructor
  · rintro ⟨s, rfl | hs, hkey, he⟩
    · exact .inl ⟨hkey, he⟩
    · exact .inr ⟨s, hs, hkey, he⟩
  · rintro (⟨hkey, he⟩ | ⟨s, hs, hkey, he⟩)
    · exact ⟨sl, .inl rfl, hkey, he⟩
    · exact ⟨s, .inr hs, hkey, he⟩

/-- A slot says nothing about other keys. -/
theorem binds_cons_of_ne {key key' : Key} (hkey : slotKey pool sl = key.bytes) (hk : key' ≠ key) :
    Binds pool (sl ::ₘ M) key' e ↔ Binds pool M key' e := by
  rw [binds_cons]
  constructor
  · rintro (⟨hks, _⟩ | hb)
    · exact absurd (SizedBytes.ext (hkey.symm.trans hks)).symm hk
    · exact hb
  · exact .inr

/-- Two entries of a keyed table that name one key are the same. -/
theorem Keyed.unique (h : Keyed t) (hsl : sl ∈ t.contents) (hsl' : sl' ∈ t.contents)
    (hkey : slotKey t.keyPool sl = slotKey t.keyPool sl') : sl = sl' :=
  Multiset.inj_on_of_nodup_map h.distinct sl hsl sl' hsl' hkey

/-- A reachable table, for calls that store typed values. -/
structure Good (t : NexDashTable) : Prop where
  sound : Sound t
  keyed : Keyed t

variable (h : Good t)
include h

theorem Good.move {R : Prop} (hm : NdMove StoresTyped R t t') : Good t' :=
  ⟨h.sound.move hm, h.keyed.move h.sound hm⟩

/-- **Probing reads the contents.** -/
theorem Good.absMap_eq_some : absMap t key = some e ↔ Binds t.keyPool t.contents key e := by
  rw [absMap, Option.map_eq_some_iff]
  constructor
  · rintro ⟨p, hprobe, rfl⟩
    obtain ⟨hp, hc, hm⟩ := ndProbe_some h.sound.shape.dirPos hprobe
    have hmem := NexDashTable.mem_contents.mpr ⟨p, hp, hc⟩
    exact ⟨_, hmem, (KeyOk.slotMatches_iff (h.keyed.keys _ hmem) key).mp hm, rfl⟩
  · rintro ⟨sl, hsl, hkey, rfl⟩
    cases hprobe : ndProbe t key (fnv1a64 key) with
    | none =>
      have hno := ndProbe_none h.sound.shape hprobe sl hsl
      rw [(KeyOk.slotMatches_iff (h.keyed.keys sl hsl) key).mpr hkey] at hno
      simp at hno
    | some p =>
      obtain ⟨hp, hc, hm⟩ := ndProbe_some h.sound.shape.dirPos hprobe
      have hmem := NexDashTable.mem_contents.mpr ⟨p, hp, hc⟩
      have hkey' := (KeyOk.slotMatches_iff (h.keyed.keys _ hmem) key).mp hm
      exact ⟨p, rfl, by rw [h.keyed.unique hmem hsl (hkey'.trans hkey.symm)]⟩

theorem Good.absMap_eq_none :
    absMap t key = none ↔ ∀ sl ∈ t.contents, slotKey t.keyPool sl ≠ key.bytes := by
  rw [Option.eq_none_iff_forall_ne_some]
  constructor
  · intro hno sl hsl hkey
    exact hno sl.entry (h.absMap_eq_some.mpr ⟨sl, hsl, hkey, rfl⟩)
  · intro hno e he
    obtain ⟨sl, hsl, hkey, _⟩ := h.absMap_eq_some.mp he
    exact hno sl hsl hkey

/-- The entry at a cell is what the map says about its key. -/
theorem Good.absMap_of_cell (hp : p ∈ positions t.dirSize) (hc : t.cell p = some sl)
    (hkey : slotKey t.keyPool sl = key.bytes) : absMap t key = some sl.entry :=
  h.absMap_eq_some.mpr ⟨sl, NexDashTable.mem_contents.mpr ⟨p, hp, hc⟩, hkey, rfl⟩

theorem absMap_remove (h' : Good t') (hcont : t.contents = sl ::ₘ t'.contents)
    (hpool : t'.keyPool = t.keyPool) (hkey : slotKey t.keyPool sl = key.bytes) :
    absMap t' = update (absMap t) key none := by
  have hdist := h.keyed.distinct
  rw [hcont, map_cons, nodup_cons] at hdist
  ext key' e
  by_cases hk : key' = key
  · subst hk
    rw [update_self, h'.absMap_eq_none.mpr]
    intro s hs hks
    rw [hpool] at hks
    exact hdist.1 (Multiset.mem_map.mpr ⟨s, hs, hks.trans hkey.symm⟩)
  · rw [update_of_ne hk, h'.absMap_eq_some, h.absMap_eq_some, hcont, hpool]
    exact (binds_cons_of_ne hkey hk).symm

/-- A slot with the key `key` joins the entries `rest`; for the other keys, `rest` says
what `t` said. -/
theorem absMap_cons (h' : Good t') (hcont' : t'.contents = sl' ::ₘ rest)
    (hkey : slotKey t'.keyPool sl' = key.bytes) (hrest : ∀ key' ≠ key, ∀ e,
      Binds t'.keyPool rest key' e ↔ Binds t.keyPool t.contents key' e) :
    absMap t' = update (absMap t) key (some sl'.entry) := by
  ext key' e
  rw [h'.absMap_eq_some, hcont']
  by_cases hk : key' = key
  · subst hk
    rw [update_self, binds_cons]
    have hdist := h'.keyed.distinct
    rw [hcont', map_cons, nodup_cons] at hdist
    constructor
    · rintro (⟨_, he⟩ | ⟨s, hs, hks, _⟩)
      · rw [he]
      · exact absurd (Multiset.mem_map.mpr ⟨s, hs, hks.trans hkey.symm⟩) hdist.1
    · intro he
      exact .inl ⟨hkey, Option.some.inj he⟩
  · rw [update_of_ne hk, h.absMap_eq_some, ← hrest key' hk]
    exact binds_cons_of_ne hkey hk

theorem absMap_rewrite (h' : Good t') (hcont : t.contents = sl ::ₘ rest)
    (hcont' : t'.contents = sl' ::ₘ rest) (hpool : t'.keyPool = t.keyPool) (hsame : SameKey sl sl')
    (hkey : slotKey t.keyPool sl = key.bytes) :
    absMap t' = update (absMap t) key (some sl'.entry) := by
  refine absMap_cons h h' hcont' (by rw [hpool, hsame.slotKey_eq]; exact hkey) ?_
  intro key' hk e
  rw [hcont, hpool]
  exact (binds_cons_of_ne hkey hk).symm

omit h

end NexCache.NexDash
