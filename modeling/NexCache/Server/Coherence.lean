import NexCache.Server.Tables

/-!
# Keys and expires stay coherent

`Inv` is the invariant of `NexCache.Server.Tables`.  A function of `db.c` first works on objects,
which is calm, and then writes the tables at one key.

* `Calm.inv`: a calm step keeps the invariant and every deadline.
* `Inv.store`, `Inv.erase`: writing an object with the key into both tables, and taking it out.
* `tables_coherent`: every run.
-/

namespace NexCache.Tables

open Object Runs Buffer Function Option
open Server (Sds Filter LookupEnv LookupFlags KeyStatus updateFilter speculativeMissByHash)

/-! ### What the tables read of an object -/

/-- The key and the deadline are the same bytes. -/
structure SameText (o o' : ServerObject) : Prop where
  payload : o'.payload = o.payload
  hasexpire : o'.hasexpire = o.hasexpire
  hasembkey : o'.hasembkey = o.hasembkey

namespace SameText

variable {o o' o'' : ServerObject} {k : Sds}

theorem refl (o : ServerObject) : SameText o o := ⟨rfl, rfl, rfl⟩

theorem trans (h : SameText o o') (h' : SameText o' o'') : SameText o o'' :=
  ⟨h'.payload.trans h.payload, h'.hasexpire.trans h.hasexpire, h'.hasembkey.trans h.hasembkey⟩

theorem keyed (h : SameText o o') (hk : o.Keyed k) : o'.Keyed k := by
  obtain ⟨hemb, hplaced⟩ := hk
  refine ⟨h.hasembkey.trans hemb, ?_⟩
  rw [h.payload, h.hasexpire]
  exact hplaced

theorem expire_eq (h : SameText o o') : objectGetExpire o' = objectGetExpire o := by
  rw [objectGetExpire, objectGetExpire, h.payload, h.hasexpire]

end SameText

variable {o : ServerObject} {k : Sds} {expire : Int64} {heap : Heap}

/-- A write of the slot keeps the key behind it. -/
theorem withExpire_keyed (h : o.Keyed k) (hslot : o.hasexpire = true)
    (expire : Int64) : (withExpire o expire).Keyed k := by
  obtain ⟨hemb, t, alloc, off, hoff, hlt, hat⟩ := h
  rw [hslot] at hoff hlt
  refine ⟨hemb, t, alloc, off, ?_, ?_, ?_⟩
  · show expireEnd o.hasexpire + keyGap (putExpire true expire o.payload
      (expireEnd o.hasexpire)).toNat = off
    rw [hslot, putExpire_apply expire o.payload le_rfl, hoff]
  · show expireEnd o.hasexpire + sdsHdrSize t < off
    rwa [hslot]
  · refine hat.write_disjoint (.inr ?_)
    rw [length_expireBytes]
    have hend : expireEnd true = 8 := rfl
    omega

theorem withExpire_expire (hslot : o.hasexpire = true) (expire : Int64) :
    objectGetExpire (withExpire o expire) = expire := by
  refine expire_of_slot o.payload (fun h => ?_) fun _ _ _ => rfl
  exact absurd (hslot.symm.trans h) Bool.noConfusion

/-- The object of `objectSetKeyAndExpire` has the key and the deadline, and one reference. -/
theorem setKeyAndExpire_object {o n : ServerObject} (hk : k.length < 2 ^ 63)
    (h : objectSetKeyAndExpire heap o (some k) expire = some n) :
    n.Keyed k ∧ objectGetExpire n = expire ∧ n.refcount = 1 := by
  have hk' : ∀ k' ∈ some k, k'.length < 2 ^ 64 := by
    intro k' hk'
    rw [← mem_some_iff.mp hk']
    exact lt_trans hk (by decide)
  -- what is written into the new object is not part of its text
  have hmade : ∀ {m n : ServerObject}, m.Keyed k → objectGetExpire m = expire → SameText m n →
      n.refcount = 1 → n.Keyed k ∧ objectGetExpire n = expire ∧ n.refcount = 1 :=
    fun hkeyed hexpire hsame hone => ⟨hsame.keyed hkeyed, hsame.expire_eq.trans hexpire, hone⟩
  rw [objectSetKeyAndExpire] at h
  split_ifs at h with hembstr
  · split at h
    · rename_i val _
      rw [createStringObjectWithKeyAndExpire] at h
      split_ifs at h with hembed
      · obtain rfl := some.inj h
        have hlen := (shouldEmbed_lengths hembed).2
        exact hmade (embedded_keyed rfl hlen k rfl).1 (embedded_expire rfl) ⟨rfl, rfl, rfl⟩ rfl
      · obtain ⟨new, hnew, rfl⟩ := map_eq_some_iff.mp h
        obtain ⟨p, -, hm⟩ := map_eq_some_iff.mp hnew
        exact hmade (unembedded_keyed hm hk' k rfl).1 (unembedded_expire hm) ⟨rfl, rfl, rfl⟩
          (hm ▸ rfl)
    · cases h
  · obtain ⟨ptr, -, rfl⟩ := map_eq_some_iff.mp h
    exact hmade (m := createUnembeddedObjectWithKeyAndExpire heap o.type ptr (some k) expire)
      (unembedded_keyed rfl hk' k rfl).1 (unembedded_expire rfl) ⟨rfl, rfl, rfl⟩ rfl

/-! ### The invariant -/

/-- What `expires` holds for an object. -/
def expiresEntry (o : ServerObject) (id : Nat) : Option Nat :=
  if objectGetExpire o = EXPIRY_NONE then none else some id

structure Held (s : Db) (k : Sds) (id : Nat) (o : ServerObject) : Prop where
  live : s.objs id = some o
  keyed : o.Keyed k
  refs : 0 < o.refcount
  deadline : objectGetExpire o = EXPIRY_NONE ∨ 0 ≤ objectGetExpire o
  expires : s.expires k = expiresEntry o id

def Fresh (s : Db) : Prop := ∀ id, s.next ≤ id → s.objs id = none

structure Inv (s : Db) : Prop where
  fresh : Fresh s
  held : ∀ k id, s.keys k = some id → ∃ o, Held s k id o
  absent : ∀ k, s.keys k = none → s.expires k = none

theorem inv_empty (filter : Option Filter) : Inv (.empty filter) :=
  ⟨fun _ _ => rfl, nofun, fun _ _ => rfl⟩

/-- An object of the tables. -/
def Stored (s : Db) (id : Nat) : Prop := ∃ k, s.keys k = some id

/-- The caller has a reference of its own. -/
def Owned (s : Db) (id : Nat) : Prop :=
  ∃ o, s.objs id = some o ∧ 0 < o.refcount ∧ (Stored s id → 1 < o.refcount)

variable {s : Db} {id : Nat}

theorem Fresh.lt_next (h : Fresh s) (ho : s.objs id = some o) : id < s.next := by
  by_contra hge
  cases ho.symm.trans (h id (Nat.le_of_not_lt hge))

/-- An address that is in use may be written. -/
theorem Fresh.update (h : Fresh s) (ho : s.objs id = some o) (entry : Option ServerObject) :
    Fresh { s with objs := update s.objs id entry } := by
  intro i hi
  have hlt : id < i := (h.lt_next ho).trans_le hi
  exact (update_of_ne hlt.ne' _ _).trans (h i hi)

theorem Inv.lt_next (h : Inv s) (hk : s.keys k = some id) : id < s.next := by
  obtain ⟨o, ho⟩ := h.held k id hk
  exact h.fresh.lt_next ho.live

/-- Two keys have two objects. -/
theorem Inv.key_unique (h : Inv s) {k k' : Sds} (hk : s.keys k = some id)
    (hk' : s.keys k' = some id) : k = k' := by
  obtain ⟨o, ho⟩ := h.held k id hk
  obtain ⟨o', ho'⟩ := h.held k' id hk'
  obtain rfl : o = o' := mem_unique ho.live ho'.live
  exact mem_unique ho.keyed.keyText_eq ho'.keyed.keyText_eq

theorem expiresEntry_of_nonneg (h : 0 ≤ objectGetExpire o) (id : Nat) :
    expiresEntry o id = some id := by
  rw [expiresEntry, if_neg]
  intro hnone
  rw [hnone] at h
  cases h

theorem getExpireWithDictIndex_held (h : Held s k id o) :
    getExpireWithDictIndex s k = objectGetExpire o := by
  rw [getExpireWithDictIndex, h.expires, expiresEntry]
  split_ifs with hnone
  · exact hnone.symm
  · rw [bind_some, h.live]

/-! ### Calm steps -/

/-- A relation between an object and what becomes of it, which looks at no counter. -/
class Steady (R : ServerObject → ServerObject → Prop) : Prop where
  refl : ∀ o, R o o
  trans : ∀ {o o' o''}, R o o' → R o' o'' → R o o''
  counted : ∀ (o : ServerObject) (refcount lru vitality : Nat),
    R o { o with refcount := refcount, lru := lru, vitality := vitality }

instance : Steady SameText := ⟨.refl, .trans, fun _ _ _ _ => ⟨rfl, rfl, rfl⟩⟩

/-- The tables stay, and the objects in them stay where they are and are related by `R`. -/
structure Calm (R : ServerObject → ServerObject → Prop) (s s' : Db) : Prop where
  keys : s'.keys = s.keys
  expires : s'.expires = s.expires
  next : s.next ≤ s'.next
  fresh : Fresh s → Fresh s'
  stored : ∀ id o, Stored s id → s.objs id = some o → 0 < o.refcount →
    ∃ o', s'.objs id = some o' ∧ R o o' ∧ 0 < o'.refcount

namespace Calm

variable {s s' s'' : Db} {R : ServerObject → ServerObject → Prop}

section Steady

variable [Steady R]

theorem trans (h : Calm R s s') (h' : Calm R s' s'') : Calm R s s'' := by
  refine ⟨h'.keys.trans h.keys, h'.expires.trans h.expires, le_trans h.next h'.next,
    fun hf => h'.fresh (h.fresh hf), fun id o hst ho hrefs => ?_⟩
  obtain ⟨o', ho', hsame, hrefs'⟩ := h.stored id o hst ho hrefs
  have hst' : Stored s' id := by
    obtain ⟨k, hk⟩ := hst
    exact ⟨k, by rw [h.keys, hk]⟩
  obtain ⟨o'', ho'', hsame', hrefs''⟩ := h'.stored id o' hst' ho' hrefs'
  exact ⟨o'', ho'', Steady.trans hsame hsame', hrefs''⟩

theorem setObj {id : Nat} {o o' : ServerObject} (ho : s.objs id = some o) (hsame : R o o')
    (hrefs : 0 < o.refcount → 0 < o'.refcount) : Calm R s (s.setObj id o') := by
  refine ⟨rfl, rfl, le_rfl, fun hf => hf.update ho _, fun i p _ hp hpos => ?_⟩
  by_cases hi : i = id
  · subst hi
    obtain rfl : p = o := mem_unique hp ho
    exact ⟨o', update_self .., hsame, hrefs hpos⟩
  · exact ⟨p, (update_of_ne hi _ _).trans hp, Steady.refl p, hpos⟩

theorem alloc (hf : Fresh s) (o : ServerObject) : Calm R s (s.alloc o) := by
  refine ⟨rfl, rfl, Nat.le_succ _, fun _ i hi => ?_, fun i p _ hp hpos => ?_⟩
  · have hlt : s.next + 1 ≤ i := hi
    exact (update_of_ne (by omega) _ _).trans (hf i (by omega))
  · exact ⟨p, (update_of_ne (hf.lt_next hp).ne _ _).trans hp, Steady.refl p, hpos⟩

/-- The tracking and the filter are not read. -/
theorem of_volatile (s : Db) (t : Sds → Option Nat) (f : Option Filter) :
    Calm R s { s with keysWithVolatileItems := t, filter := f } :=
  ⟨rfl, rfl, le_rfl, id, fun _ o _ ho hrefs => ⟨o, ho, Steady.refl o, hrefs⟩⟩

theorem refl (s : Db) : Calm R s s := .of_volatile s s.keysWithVolatileItems s.filter

end Steady

theorem mono {R' : ServerObject → ServerObject → Prop} (h : Calm R s s')
    (hR : ∀ {o o'}, R o o' → R' o o') : Calm R' s s' := by
  refine ⟨h.keys, h.expires, h.next, h.fresh, fun id o hst ho hrefs => ?_⟩
  obtain ⟨o', ho', hr, hrefs'⟩ := h.stored id o hst ho hrefs
  exact ⟨o', ho', hR hr, hrefs'⟩

variable (h : Calm SameText s s')
include h

/-- **A calm step keeps the invariant.** -/
theorem held {k : Sds} {id : Nat} {o : ServerObject} (hk : s.keys k = some id)
    (ho : Held s k id o) : ∃ o', Held s' k id o' ∧ SameText o o' := by
  obtain ⟨o', hlive, hsame, hrefs⟩ := h.stored id o ⟨k, hk⟩ ho.live ho.refs
  refine ⟨o', ⟨hlive, hsame.keyed ho.keyed, hrefs, ?_, ?_⟩, hsame⟩
  · rw [hsame.expire_eq]
    exact ho.deadline
  · rw [h.expires, ho.expires, expiresEntry, expiresEntry, hsame.expire_eq]

theorem inv (hi : Inv s) : Inv s' := by
  refine ⟨h.fresh hi.fresh, fun k id hk => ?_, fun k hk => ?_⟩
  · rw [h.keys] at hk
    obtain ⟨o, ho⟩ := hi.held k id hk
    obtain ⟨o', ho', -⟩ := h.held hk ho
    exact ⟨o', ho'⟩
  · rw [h.keys] at hk
    rw [h.expires]
    exact hi.absent k hk

theorem getExpireWithDictIndex_eq (hi : Inv s) (k : Sds) :
    getExpireWithDictIndex s' k = getExpireWithDictIndex s k := by
  cases hk : s.keys k with
  | none =>
    rw [getExpireWithDictIndex, getExpireWithDictIndex, h.expires, hi.absent k hk]
    rfl
  | some id =>
    obtain ⟨o, ho⟩ := hi.held k id hk
    obtain ⟨o', ho', hsame⟩ := h.held hk ho
    rw [getExpireWithDictIndex_held ho, getExpireWithDictIndex_held ho', hsame.expire_eq]

omit h

end Calm

section Steady

variable {R : ServerObject → ServerObject → Prop} [Steady R] {s s' : Db} {id : Nat}

theorem incrRefCount_calm (h : incrRefCount s id = some s') : Calm R s s' := by
  rw [incrRefCount] at h
  split at h
  · cases h
  · rename_i o ho
    split_ifs at h
    · obtain rfl := some.inj h
      exact .setObj ho (Steady.counted o ..) fun _ => Nat.succ_pos _
    · obtain rfl := some.inj h
      exact .refl s

variable (h : decrRefCount s id = some s')
include h

omit [Steady R] in
/-- The last reference frees the object; otherwise it stays, with another count. -/
theorem decrRefCount_eq :
    ∃ o entry, s.objs id = some o ∧ s' = { s with objs := update s.objs id entry } ∧
      (o.refcount = 1 ∧ entry = none ∨
        1 < o.refcount ∧ ∃ n > 0, entry = some { o with refcount := n }) := by
  rw [decrRefCount] at h
  split at h
  · cases h
  · rename_i o ho
    split_ifs at h with hone hzero hshared
    · exact ⟨o, none, ho, (some.inj h).symm, .inl ⟨hone, rfl⟩⟩
    · exact ⟨o, _, ho, (some.inj h).symm, .inr ⟨by omega, o.refcount - 1, by omega, rfl⟩⟩
    · refine ⟨o, some o, ho, ?_, .inr ⟨by omega, o.refcount, by omega, rfl⟩⟩
      rw [← ho, update_eq_self]
      exact (some.inj h).symm

/-- A reference that is not the last one of an object in the tables. -/
theorem decrRefCount_calm (hlast : ∀ o, s.objs id = some o → Stored s id → 1 < o.refcount) :
    Calm R s s' := by
  obtain ⟨o, entry, ho, rfl, ⟨hone, rfl⟩ | ⟨-, n, hn, rfl⟩⟩ := decrRefCount_eq h
  · refine ⟨rfl, rfl, le_rfl, fun hf => hf.update ho _, fun i p hst hp hpos => ?_⟩
    have hne : i ≠ id := by
      rintro rfl
      exact absurd (hlast o ho hst) (by omega)
    exact ⟨p, (update_of_ne hne _ _).trans hp, Steady.refl p, hpos⟩
  · exact .setObj ho (Steady.counted o n _ _) fun _ => hn

/-- The object stays while there are other references. -/
theorem decrRefCount_left {o : ServerObject} (ho : s.objs id = some o) (hrefs : 1 < o.refcount) :
    ∃ o', s'.objs id = some o' ∧ R o o' ∧ 0 < o'.refcount := by
  obtain ⟨p, entry, hp, rfl, ⟨hone, -⟩ | ⟨-, n, hn, rfl⟩⟩ := decrRefCount_eq h
  · obtain rfl : o = p := mem_unique ho hp
    omega
  · obtain rfl : o = p := mem_unique ho hp
    exact ⟨_, update_self .., Steady.counted o n _ _, hn⟩

omit [Steady R]

theorem decrRefCount_objs {i : Nat} (hi : i ≠ id) : s'.objs i = s.objs i := by
  obtain ⟨o, entry, -, rfl, -⟩ := decrRefCount_eq h
  exact update_of_ne hi _ _

theorem decrRefCount_tables : s'.keys = s.keys ∧ s'.expires = s.expires ∧
      s'.keysWithVolatileItems = s.keysWithVolatileItems := by
  obtain ⟨o, entry, -, rfl, -⟩ := decrRefCount_eq h
  exact ⟨rfl, rfl, rfl⟩

end Steady

variable {s s' : Db} {id : Nat} {o : ServerObject} {R : ServerObject → ServerObject → Prop}

/-- A reference for the time of the callbacks leaves everything as it was. -/
theorem holdDuringCallbacks_eq (ho : s.objs id = some o) (hrefs : 0 < o.refcount)
    (h : holdDuringCallbacks s id = some s') : s' = s := by
  obtain ⟨s₁, hincr, hdecr⟩ := bind_eq_some_iff.mp h
  rw [incrRefCount, ho] at hincr
  dsimp only at hincr
  split_ifs at hincr with hlt hshared
  · obtain rfl := some.inj hincr
    have hself : (s.setObj id { o with refcount := o.refcount + 1 }).objs id =
        some { o with refcount := o.refcount + 1 } := update_self ..
    rw [decrRefCount, hself] at hdecr
    dsimp only at hdecr
    rw [if_neg (by omega), if_neg (by omega), if_pos] at hdecr
    · obtain rfl := some.inj hdecr
      simp only [Db.setObj, update_idem, Nat.add_sub_cancel]
      rw [← ho, update_eq_self]
    · rw [OBJ_STATIC_REFCOUNT] at hlt
      rw [OBJ_SHARED_REFCOUNT]
      omega
  · obtain rfl := some.inj hincr
    rw [decrRefCount, ho] at hdecr
    dsimp only at hdecr
    rw [OBJ_SHARED_REFCOUNT] at hshared
    rw [if_neg (by omega), if_neg (by omega),
      if_neg (by simp [OBJ_SHARED_REFCOUNT, hshared])] at hdecr
    exact (some.inj hdecr).symm

variable {k : Sds}

/-- `objectSetKeyAndExpire` on an object that the caller has a reference to. -/
theorem setKeyAndExpire_spec [Steady R] {id new : Nat}
    (hf : Fresh s) (ho : s.objs id = some o) (hown : Stored s id → 1 < o.refcount)
    (hk : k.length < 2 ^ 63) (h : setKeyAndExpire heap s id (some k) expire = some (s', new)) :
    Calm R s s' ∧ new = s.next ∧
      ∃ n, s'.objs new = some n ∧ n.Keyed k ∧ objectGetExpire n = expire ∧ n.refcount = 1 := by
  simp only [setKeyAndExpire, bind_eq_bind, bind_eq_some_iff, pure_def,
    some.injEq, Prod.mk.injEq] at h
  obtain ⟨_, -, n, hn, s₁, hdecr, rfl, rfl⟩ := h
  have hne : id ≠ s.next := (hf.lt_next ho).ne
  have hlast : ∀ p, (s.alloc n).objs id = some p → Stored (s.alloc n) id → 1 < p.refcount := by
    intro p hp hst
    obtain rfl : o = p := mem_unique ho ((update_of_ne hne _ _).symm.trans hp)
    exact hown hst
  refine ⟨(Calm.alloc hf n).trans (decrRefCount_calm hdecr hlast), rfl, n, ?_,
    setKeyAndExpire_object hk (filter_eq_some_iff.mp hn).1⟩
  rw [decrRefCount_objs hdecr (Ne.symm hne)]
  exact update_self ..

/-! ### Writing the tables at one key -/

/-- The tables agree at the other keys, and so do the objects there. -/
structure SameElsewhere (s s' : Db) (k : Sds) : Prop where
  keys : ∀ k', k' ≠ k → s'.keys k' = s.keys k'
  expires : ∀ k', k' ≠ k → s'.expires k' = s.expires k'
  objs : ∀ k' id, k' ≠ k → s.keys k' = some id → s'.objs id = s.objs id

theorem SameElsewhere.held {k k' : Sds} (h : SameElsewhere s s' k) (hne : k' ≠ k)
    (hk' : s.keys k' = some id) (ho : Held s k' id o) :
    Held s' k' id o :=
  ⟨(h.objs k' id hne hk').trans ho.live, ho.keyed, ho.refs, ho.deadline,
    (h.expires k' hne).trans ho.expires⟩

/-- The tables are right at one key. -/
theorem Inv.store (h : Inv s) (helse : SameElsewhere s s' k) (hfresh : Fresh s')
    (hheld : ∀ id, s'.keys k = some id → ∃ o, Held s' k id o)
    (habsent : s'.keys k = none → s'.expires k = none) : Inv s' := by
  refine ⟨hfresh, fun k' id' hk' => ?_, fun k' hk' => ?_⟩
  · by_cases hne : k' = k
    · subst hne
      exact hheld id' hk'
    · rw [helse.keys k' hne] at hk'
      obtain ⟨o', ho'⟩ := h.held k' id' hk'
      exact ⟨o', helse.held hne hk' ho'⟩
  · by_cases hne : k' = k
    · subst hne
      exact habsent hk'
    · rw [helse.expires k' hne]
      exact h.absent k' (by rwa [helse.keys k' hne] at hk')

section Write

variable (hi : Inv s) (s' : Db) (hnext : s'.next = s.next)
  (hexpires : s'.expires = update s.expires k (expiresEntry o id)) (hkeyed : o.Keyed k)
  (hrefs : 0 < o.refcount) (hdeadline : objectGetExpire o = EXPIRY_NONE ∨ 0 ≤ objectGetExpire o)
include hi hnext hexpires hkeyed hrefs hdeadline

/-- An object goes into the tables with the deadline that it has. -/
theorem Inv.write (hkeys : s'.keys = update s.keys k (some id)) (ho : s'.objs id = some o)
    (hothers : ∀ k' i, k' ≠ k → s.keys k' = some i → s'.objs i = s.objs i)
    (hfresh : ∀ i, s.next ≤ i → s'.objs i = none) :
    Inv s' ∧ getExpireWithDictIndex s' k = objectGetExpire o := by
  have hkey : s'.keys k = some id := by rw [hkeys, update_self]
  have hheld : Held s' k id o := ⟨ho, hkeyed, hrefs, hdeadline, by rw [hexpires, update_self]⟩
  refine ⟨hi.store ⟨fun k' hne => by rw [hkeys, update_of_ne hne],
    fun k' hne => by rw [hexpires, update_of_ne hne], hothers⟩ (fun i hle => hfresh i (hnext ▸ hle))
    (fun _ hk' => ⟨o, some.inj (hkey.symm.trans hk') ▸ hheld⟩)
    fun hk' => absurd (hkey.symm.trans hk') (by simp), getExpireWithDictIndex_held hheld⟩

theorem Inv.rewrite {p : ServerObject} (hkey : s.keys k = some id) (hp : s.objs id = some p)
    (hobjs : s'.objs = update s.objs id (some o)) (hkeys : s'.keys = s.keys) :
    Inv s' ∧ getExpireWithDictIndex s' k = objectGetExpire o := by
  refine hi.write s' hnext hexpires hkeyed hrefs hdeadline ?_ (by rw [hobjs, update_self])
    (fun k' i hne hk' => ?_) fun i hle => ?_
  · rw [hkeys, ← hkey, update_eq_self]
  · rw [hobjs, update_of_ne]
    rintro rfl
    exact hne (hi.key_unique hk' hkey)
  · rw [hobjs]
    exact hi.fresh.update hp _ i hle

/-- An object that is new takes the place of the one that was there. -/
theorem Inv.store_new (hnew : ¬Stored s id) (ho : s.objs id = some o) (hobjs : s'.objs = s.objs)
    (hkeys : s'.keys = update s.keys k (some id)) :
    Inv s' ∧ getExpireWithDictIndex s' k = objectGetExpire o ∧ ∀ old, s.keys k = some old →
    ¬Stored s' old := by
  obtain ⟨hinv, hget⟩ := hi.write s' hnext hexpires hkeyed hrefs hdeadline hkeys (by rw [hobjs, ho])
    (fun _ _ _ _ => by rw [hobjs]) fun i hle => by rw [hobjs, hi.fresh i hle]
  refine ⟨hinv, hget, ?_⟩
  rintro old hold ⟨k', hk'⟩
  by_cases hne : k' = k
  · rw [hne, hkeys, update_self] at hk'
    obtain rfl := some.inj hk'
    exact hnew ⟨k, hold⟩
  · rw [hkeys, update_of_ne hne] at hk'
    exact hne (hi.key_unique hk' hold)

end Write

/-! ### `dbSetValue` -/

section Functions

variable {hash : Sds → Nat} {vset : Nat → Bool} {s s' : Db} {id : Nat}

/-- The tracking is written and nothing else. -/
theorem track_eq (h : dbTrackKeyWithVolatileItems vset s id = some s') :
    ∃ t, s' = { s with keysWithVolatileItems := t } := by
  simp only [dbTrackKeyWithVolatileItems, bind_eq_bind, bind_eq_some_iff] at h
  obtain ⟨o, -, h⟩ := h
  split_ifs at h
  · obtain ⟨k, -, h⟩ := bind_eq_some_iff.mp h
    exact ⟨_, (some.inj h).symm⟩
  · exact ⟨_, (some.inj h).symm⟩

theorem untrack_eq (h : dbUntrackKeyWithVolatileItems s id = some s') :
    ∃ t, s' = { s with keysWithVolatileItems := t } := by
  simp only [dbUntrackKeyWithVolatileItems, bind_eq_bind, bind_eq_some_iff] at h
  obtain ⟨o, -, k, -, h⟩ := h
  exact ⟨_, (some.inj h).symm⟩

variable {R : ServerObject → ServerObject → Prop} {oldObj valObj : ServerObject}

theorem Calm.stored_iff (h : Calm R s s') (id : Nat) : Stored s' id ↔ Stored s id := by
  rw [Stored, Stored, h.keys]

/-- A new object is in no table. -/
theorem Calm.not_stored_new (h : Calm R s s') (hi : Inv s) {new : Nat} (hnew : new = s.next) :
    ¬Stored s' new := by
  rw [h.stored_iff]
  rintro ⟨k', hk'⟩
  exact absurd (hi.lt_next hk') (by rw [hnew]; exact lt_irrefl _)

/-- What is released is in no table any more. -/
theorem finishSetValue_calm [Steady R] {new old n : Nat} (hold : ¬Stored s old)
    (h : finishSetValue vset s new old = some (s', n)) : Calm R s s' ∧ n = new := by
  simp only [finishSetValue, bind_eq_bind, bind_eq_some_iff, pure_def,
    some.injEq, Prod.mk.injEq] at h
  obtain ⟨s₁, huntrack, s₂, htrack, s₃, hdecr, rfl, rfl⟩ := h
  obtain ⟨_, rfl⟩ : ∃ t, s₁ = { s with keysWithVolatileItems := t } := by
    simp only [untrackReleased, bind_eq_bind, bind_eq_some_iff] at huntrack
    obtain ⟨o, -, h⟩ := huntrack
    split_ifs at h
    · exact untrack_eq h
    · exact untrack_eq h
    · exact ⟨_, (some.inj h).symm⟩
  obtain ⟨t, rfl⟩ := track_eq htrack
  have hcalm : Calm R s { s with keysWithVolatileItems := t } := .of_volatile s t s.filter
  refine ⟨hcalm.trans (decrRefCount_calm hdecr fun o _ hst => ?_), rfl⟩
  exact absurd ((hcalm.stored_iff old).mp hst) hold

/-- The contents of two objects are exchanged, their keys and deadlines are not. -/
theorem swapContents_calm {old val : Nat}
    (hold : s.objs old = some oldObj) (hval : s.objs val = some valObj) (hne : old ≠ val)
    (h : swapContents s old val oldObj valObj = some s') : Calm SameText s s' := by
  rw [swapContents] at h
  split_ifs at h
  obtain rfl := some.inj h
  have hval' : (s.setObj old (withContents oldObj valObj)).objs val = some valObj :=
    (update_of_ne (Ne.symm hne) _ _).trans hval
  have hfirst : Calm SameText s (s.setObj old (withContents oldObj valObj)) :=
    .setObj hold ⟨rfl, rfl, rfl⟩ id
  exact hfirst.trans (.setObj hval' ⟨rfl, rfl, rfl⟩ id)

variable {k : Sds} {new : Nat}

variable (hi : Inv s)
include hi

variable {env : Env}

/-- The new object takes over the key and the deadline; the old one is in no table any more. -/
theorem replaceObject_spec {old val new : Nat}
    (hk : k.length < 2 ^ 63) (hold : s.keys k = some old) (hheld : Held s k old oldObj)
    (hval : s.objs val = some valObj) (hown : Stored s val → 1 < valObj.refcount)
    (h : replaceObject env s k val oldObj valObj = some (s', new)) :
    Inv s' ∧ getExpireWithDictIndex s' k = getExpireWithDictIndex s k ∧ ¬Stored s' old := by
  simp only [replaceObject, bind_eq_bind, bind_eq_some_iff] at h
  obtain ⟨⟨s₁, n₁⟩, hset, h⟩ := h
  have htouch : Calm SameText s (s.setObj val { valObj with lru := oldObj.lru }) :=
    .setObj hval ⟨rfl, rfl, rfl⟩ id
  have hi₀ := htouch.inv hi
  obtain ⟨hcalm, hnew, n, hn, hkeyed, hexpire, hone⟩ :=
    setKeyAndExpire_spec (R := SameText) hi₀.fresh (update_self val _ s.objs) hown hk hset
  have hcalm' := htouch.trans hcalm
  have hi₁ := hcalm'.inv hi
  have hnewStored := hcalm'.not_stored_new hi hnew
  have hold₁ : s₁.keys k = some old := by rw [hcalm'.keys, hold]
  have hdeadline : objectGetExpire n = EXPIRY_NONE ∨ 0 ≤ objectGetExpire n := by
    rw [hexpire]
    exact hheld.deadline
  have hsame : objectGetExpire n = getExpireWithDictIndex s k := by
    rw [hexpire, getExpireWithDictIndex_held hheld]
  -- the tables with the new object
  have hstore : ∀ s₂ : Db, s₂.objs = s₁.objs → s₂.next = s₁.next →
      s₂.keys = update s₁.keys k (some n₁) → s₂.expires = update s₁.expires k (expiresEntry n n₁) →
      Inv s₂ ∧ getExpireWithDictIndex s₂ k = getExpireWithDictIndex s k ∧ ¬Stored s₂ old := by
    intro s₂ hobjs hnext hkeys hexpires
    obtain ⟨hinv, hget, hgone⟩ := hi₁.store_new s₂ hnext hexpires hkeyed (by omega) hdeadline
      hnewStored hn hobjs hkeys
    exact ⟨hinv, hget.trans hsame, hgone old hold₁⟩
  split_ifs at h with hpos
  · simp only [bind_eq_some_iff, pure_def, some.injEq, Prod.mk.injEq] at h
    obtain ⟨-, -, rfl, rfl⟩ := h
    refine hstore _ rfl rfl rfl ?_
    rw [expiresEntry_of_nonneg (hexpire.symm ▸ hpos)]
  · obtain ⟨rfl, rfl⟩ := result_inj h
    have hnone : objectGetExpire oldObj = EXPIRY_NONE := hheld.deadline.resolve_right hpos
    have hentry : update s₁.expires k (expiresEntry n n₁) = s₁.expires := by
      rw [expiresEntry, if_pos (hexpire.trans hnone), hcalm'.expires]
      refine update_eq_self_iff.mpr ?_
      rw [hheld.expires, expiresEntry, if_pos hnone]
    exact hstore _ rfl rfl rfl hentry.symm

variable {val : Nat} {flags : SetKeyFlags}

theorem dbSetValue_spec {overwrite : Bool} (hk : k.length < 2 ^ 63) (hown : Owned s val)
    (h : dbSetValue vset env s k val overwrite = some (s', new)) :
    Inv s' ∧ getExpireWithDictIndex s' k = getExpireWithDictIndex s k := by
  simp only [dbSetValue, bind_eq_bind, bind_eq_some_iff] at h
  obtain ⟨old, hold, s₀, hhold, oldObj, holdObj, valObj, hvalObj, h⟩ := h
  obtain ⟨o, hheld⟩ := hi.held k old hold
  obtain rfl : s₀ = s := by
    split_ifs at hhold
    · exact holdDuringCallbacks_eq hheld.live hheld.refs hhold
    · exact (some.inj hhold).symm
  obtain rfl : oldObj = o := mem_unique holdObj hheld.live
  have hvalRefs : Stored s₀ val → 1 < valObj.refcount := by
    obtain ⟨p, hp, -, hst⟩ := hown
    obtain rfl : valObj = p := mem_unique hvalObj hp
    exact hst
  split_ifs at h with hmove
  · obtain ⟨s₁, hswap, hfinish⟩ := bind_eq_some_iff.mp h
    have hone : valObj.refcount = 1 := by
      simp only [contentsMovable, Bool.and_eq_true, decide_eq_true_eq] at hmove
      exact hmove.2.1
    -- the value has one reference, which is the caller's
    have hval : ¬Stored s₀ val := fun hst => absurd (hvalRefs hst) (by omega)
    have hne : old ≠ val := by
      rintro rfl
      exact hval ⟨k, hold⟩
    have hcalm := swapContents_calm holdObj hvalObj hne hswap
    have hcalm' := hcalm.trans (finishSetValue_calm (by rwa [hcalm.stored_iff]) hfinish).1
    exact ⟨hcalm'.inv hi, hcalm'.getExpireWithDictIndex_eq hi k⟩
  · simp only [bind_eq_some_iff] at h
    obtain ⟨⟨s₁, n₁⟩, hreplace, hfinish⟩ := h
    obtain ⟨hi₁, hget, hgone⟩ := replaceObject_spec hi hk hold hheld hvalObj hvalRefs hreplace
    have hcalm : Calm SameText s₁ s' := (finishSetValue_calm hgone hfinish).1
    exact ⟨hcalm.inv hi₁, (hcalm.getExpireWithDictIndex_eq hi₁ k).trans hget⟩

/-! ### The other functions -/

omit hi in
theorem initLru_spec [Steady R] {id lru : Nat} {o : ServerObject} (ho : s.objs id = some o)
    (h : initLru s id lru = some s') :
    Calm R s s' ∧ ∃ o', s'.objs id = some o' ∧ R o o' ∧ o'.refcount = o.refcount := by
  rw [initLru, ho, map_some, some.injEq] at h
  split_ifs at h
  · rw [← h]
    exact ⟨.refl s, o, ho, Steady.refl o, rfl⟩
  · rw [← h]
    exact ⟨.setObj ho (Steady.counted o ..) fun hrefs => hrefs, _, update_self ..,
      Steady.counted o .., rfl⟩

/-- A key that is there stays as it is, whatever it was given. -/
theorem dbAddInternal_spec {update : Bool} (hk : k.length < 2 ^ 63) (hown : Owned s val)
    (h : dbAddInternal hash vset env s k val update = some (s', new)) :
    Inv s' ∧ (s.keys k ≠ none → getExpireWithDictIndex s' k = getExpireWithDictIndex s k) := by
  rw [dbAddInternal] at h
  split_ifs at h with hthere
  · obtain ⟨hinv, hget⟩ := dbSetValue_spec hi hk hown h
    exact ⟨hinv, fun _ => hget⟩
  · simp only [bind_eq_bind, bind_eq_some_iff, pure_def, some.injEq,
      Prod.mk.injEq] at h
    obtain ⟨⟨s₁, n₁⟩, hset, s₂, htrack, s₃, hlru, rfl, rfl⟩ := h
    obtain ⟨p, hp, -, hlast⟩ := hown
    obtain ⟨hcalm, hnew, n, hn, hkeyed, hexpire, hone⟩ :=
      setKeyAndExpire_spec (R := SameText) hi.fresh hp hlast hk hset
    obtain ⟨t, rfl⟩ := track_eq htrack
    obtain ⟨hlater, n', hn', hsame, hrefs⟩ := initLru_spec (R := SameText) (s := { s₁ with
      keysWithVolatileItems := t }) hn hlru
    have hcalm' := (hcalm.trans (.of_volatile s₁ t s₁.filter)).trans hlater
    have hi₃ := hcalm'.inv hi
    have hnewStored := hcalm'.not_stored_new hi hnew
    have hnone : objectGetExpire n' = EXPIRY_NONE := hsame.expire_eq.trans hexpire
    by_cases hkey : s₃.keys k = none
    · have hentry : Function.update s₃.expires k (expiresEntry n' n₁) = s₃.expires := by
        rw [expiresEntry, if_pos hnone]
        exact update_eq_self_iff.mpr (hi₃.absent k hkey).symm
      refine ⟨And.left (hi₃.store_new _ rfl hentry.symm (hsame.keyed hkeyed) (by omega) (.inl hnone)
        hnewStored hn' rfl (if_pos hkey)), absurd ?_⟩
      rw [← hcalm'.keys, hkey]
    · have hadd : tableAdd s₃.keys k n₁ = s₃.keys := if_neg hkey
      rw [hadd]
      have hend := hcalm'.trans (.of_volatile s₃ s₃.keysWithVolatileItems
        (updateFilter s₃.filter (hash k)))
      exact ⟨hend.inv hi, fun _ => hend.getExpireWithDictIndex_eq hi k⟩

/-- An object with a deadline is in both tables and has a slot for it. -/
theorem Inv.of_expires (hid : s.expires k = some id) :
    ∃ o, s.keys k = some id ∧ Held s k id o ∧ o.hasexpire = true := by
  cases hkey : s.keys k with
  | none => cases hid.symm.trans (hi.absent k hkey)
  | some id' =>
    obtain ⟨o, hheld⟩ := hi.held k id' hkey
    have hentry := hheld.expires
    rw [hid, expiresEntry] at hentry
    split_ifs at hentry with hnone
    obtain rfl := some.inj hentry
    refine ⟨o, rfl, hheld, ?_⟩
    by_contra hslot
    exact hnone (by rw [objectGetExpire, if_neg hslot])

theorem removeExpire_spec (h : removeExpire env s k = some s') :
    Inv s' ∧ getExpireWithDictIndex s' k = EXPIRY_NONE := by
  rw [removeExpire] at h
  split at h
  · rename_i hnone
    obtain rfl := some.inj h
    refine ⟨hi, ?_⟩
    rw [getExpireWithDictIndex, hnone]
    rfl
  · rename_i id hid
    obtain ⟨o, hkey, hheld, hslot⟩ := hi.of_expires hid
    simp only [objectSetExpire, hheld.live, bind_eq_bind, bind_some, if_pos hslot,
      pure_def, if_true, some.injEq] at h
    obtain rfl := h
    have hexpire := withExpire_expire hslot EXPIRY_NONE
    have hend := hi.rewrite (Db.setObj { s with expires := update s.expires k none } id
      (withExpire o EXPIRY_NONE)) rfl (by
        rw [expiresEntry, if_pos hexpire]
        rfl) (withExpire_keyed hheld.keyed hslot _) hheld.refs (.inl hexpire) hkey
        hheld.live rfl rfl
    exact ⟨hend.1, hend.2.trans hexpire⟩

/-- The tables without a key. -/
def unlinked (s : Db) (k : Sds) : Db :=
  { s with keys := update s.keys k none, expires := update s.expires k none }

theorem unlinked_inv (k : Sds) : Inv (unlinked s k) :=
  hi.store ⟨fun _ hne => update_of_ne hne _ _, fun _ hne => update_of_ne hne _ _,
    fun _ _ _ _ => rfl⟩ hi.fresh (fun _ hk => by simp [unlinked] at hk) fun _ => update_self ..

theorem not_stored_unlinked (hkey : s.keys k = some id) : ¬Stored (unlinked s k) id := by
  rintro ⟨k', hk'⟩
  by_cases hne : k' = k
  · rw [hne] at hk'
    cases (update_self ..).symm.trans hk'
  · exact hne (hi.key_unique ((update_of_ne hne _ _).symm.trans hk') hkey)

omit hi in
/-- Both tables are without the key, whether or not there was a deadline. -/
theorem Held.unlink_eq {o : ServerObject} (h : Held s k id o) :
    (if objectGetExpire o ≠ EXPIRY_NONE then (s.expires k).map fun _ => unlinked s k
      else some { s with keys := update s.keys k none }) = some (unlinked s k) := by
  split_ifs with hold
  · rw [h.expires, expiresEntry, if_neg hold, map_some]
  · have hsame : update s.expires k none = s.expires := by
      refine update_eq_self_iff.mpr ?_
      rw [h.expires, expiresEntry, if_pos (not_not.mp hold)]
    rw [unlinked, hsame]

omit hi in
/-- Objects are made and released without a look at the tables. -/
theorem decrRefCount_unlinked (k : Sds) (h : decrRefCount s id = some s') :
    decrRefCount (unlinked s k) id = some (unlinked s' k) := by
  rw [decrRefCount] at h ⊢
  split at h
  · cases h
  · rename_i o ho
    have ho' : (unlinked s k).objs id = some o := ho
    rw [ho']
    dsimp only
    split_ifs at h ⊢ <;>
    · obtain rfl := some.inj h
      rfl

omit hi in
theorem setKeyAndExpire_unlinked {key : Option Sds} (k : Sds)
    (h : setKeyAndExpire heap s id key expire = some (s', new)) :
    setKeyAndExpire heap (unlinked s k) id key expire = some (unlinked s' k, new) ∧
      s'.keys = s.keys ∧ s'.expires = s.expires := by
  simp only [setKeyAndExpire, bind_eq_bind, bind_eq_some_iff, pure_def,
    some.injEq, Prod.mk.injEq] at h ⊢
  obtain ⟨o, ho, n, hn, s₁, hdecr, rfl, rfl⟩ := h
  obtain ⟨hkeys, hexpires, -⟩ := decrRefCount_tables hdecr
  exact ⟨⟨o, ho, n, hn, _, decrRefCount_unlinked k hdecr, rfl, rfl⟩, hkeys, hexpires⟩

omit hi in
theorem replaceTracked_eq (h : replaceTracked vset s id new = some s') :
    ∃ t, s' = { s with keysWithVolatileItems := t } := by
  simp only [replaceTracked, bind_eq_bind, bind_eq_some_iff] at h
  obtain ⟨o, -, h⟩ := h
  split_ifs at h
  · obtain ⟨k, -, h⟩ := bind_eq_some_iff.mp h
    split_ifs at h
    exact ⟨_, (some.inj h).symm⟩
  · exact ⟨_, (some.inj h).symm⟩

theorem setExpire_spec {when_ : Int64} (hk : k.length < 2 ^ 63) (hwhen : 0 ≤ when_)
    (h : setExpire vset env s k when_ = some (s', new)) :
    Inv s' ∧ getExpireWithDictIndex s' k = when_ := by
  simp only [setExpire, bind_eq_bind, bind_eq_some_iff] at h
  obtain ⟨id, hkey, o, ho, ⟨s₁, n₁⟩, hset, s₂, htracked, h⟩ := h
  obtain ⟨o', hheld⟩ := hi.held k id hkey
  obtain rfl : o = o' := mem_unique ho hheld.live
  obtain ⟨t, rfl⟩ := replaceTracked_eq htracked
  simp only [objectSetExpire, ho, bind_eq_bind, bind_some] at hset
  have hne : when_ ≠ EXPIRY_NONE := by
    rintro rfl
    cases hwhen
  split_ifs at hset with hslot
  · -- the deadline is written into the slot
    obtain ⟨rfl, rfl⟩ := result_inj hset
    have hexpire := withExpire_expire hslot when_
    have hpos : 0 ≤ objectGetExpire (withExpire o when_) := by rwa [hexpire]
    have hend : ∀ s' : Db, s'.objs = update s.objs id (some (withExpire o when_)) →
        s'.next = s.next → s'.keys = s.keys → s'.expires = update s.expires k (some id) →
        Inv s' ∧ getExpireWithDictIndex s' k = when_ := by
      intro s' hobjs hnext hkeys hexpires
      obtain ⟨hinv, hget⟩ := hi.rewrite s' hnext (by rw [expiresEntry_of_nonneg hpos, hexpires])
        (withExpire_keyed hheld.keyed hslot _) hheld.refs (.inr hpos) hkey hheld.live hobjs hkeys
      exact ⟨hinv, hget.trans hexpire⟩
    split_ifs at h with hold hnone
    · obtain ⟨rfl, rfl⟩ := result_inj h
      refine hend _ rfl rfl rfl (update_eq_self_iff.mpr ?_).symm
      show some id = s.expires k
      rw [hheld.expires, expiresEntry, if_neg hold]
    · obtain ⟨rfl, rfl⟩ := result_inj h
      exact hend _ rfl rfl (update_eq_self_iff.mpr hkey.symm) rfl
  · -- without a slot there was no deadline: another object takes the place
    have hold : objectGetExpire o = EXPIRY_NONE := by rw [objectGetExpire, if_neg hslot]
    rw [hheld.keyed.keyText_eq] at hset
    obtain ⟨hset', hkeys, hexpires⟩ := setKeyAndExpire_unlinked k hset
    have hi' := unlinked_inv hi k
    obtain ⟨hcalm, hnew, n, hn, hkeyed, hexpire, hone⟩ :=
      setKeyAndExpire_spec (R := SameText) hi'.fresh
      ho (fun hst => absurd hst (not_stored_unlinked hi hkey)) hk hset'
    rw [if_neg (not_not.mpr hold)] at h
    split_ifs at h with hnone
    obtain ⟨rfl, rfl⟩ := result_inj h
    have hpos : 0 ≤ objectGetExpire n := by rwa [hexpire]
    have hnewStored := hcalm.not_stored_new hi' hnew
    have hend := (hcalm.inv hi').store_new ({ s₁ with
        keysWithVolatileItems := t
        keys := update s₁.keys k (some n₁)
        expires := update s₁.expires k (some n₁) } : Db)
      rfl (by rw [expiresEntry_of_nonneg hpos]; exact (update_idem ..).symm) hkeyed (by omega)
      (.inr hpos) hnewStored hn rfl (update_idem ..).symm
    exact ⟨hend.1, hend.2.1.trans hexpire⟩

/-- The key is gone; a caller keeps its reference to the object. -/
theorem dbGenericDelete_spec {deleted : Bool} (h : dbGenericDelete vset s k = some (s', deleted)) :
    Inv s' ∧ s'.keys k = none ∧ ∀ val, Owned s val → Owned s' val := by
  rw [dbGenericDelete] at h
  split at h
  · rename_i hnone
    obtain ⟨rfl, -⟩ := result_inj h
    exact ⟨hi, hnone, fun _ hown => hown⟩
  · rename_i id hkey
    simp only [bind_eq_bind, bind_eq_some_iff, pure_def, some.injEq,
      Prod.mk.injEq] at h
    obtain ⟨s₀, hhold, o, ho, s₁, hexpires, s₂, huntrack, s₃, hdecr, rfl, -⟩ := h
    obtain ⟨o', hheld⟩ := hi.held k id hkey
    obtain rfl := holdDuringCallbacks_eq hheld.live hheld.refs hhold
    obtain rfl : o = o' := mem_unique ho hheld.live
    obtain rfl : s₁ = unlinked s₀ k := mem_unique hexpires hheld.unlink_eq
    obtain ⟨t, rfl⟩ : ∃ t, s₂ = { unlinked s₀ k with keysWithVolatileItems := t } := by
      split_ifs at huntrack
      · exact untrack_eq huntrack
      · exact ⟨_, (some.inj huntrack).symm⟩
    have hi' := unlinked_inv hi k
    have hcalm : Calm SameText (unlinked s₀ k) s₃ :=
      (Calm.of_volatile (unlinked s₀ k) t s₀.filter).trans
      (decrRefCount_calm hdecr fun _ _ hst => absurd hst (not_stored_unlinked hi hkey))
    refine ⟨hcalm.inv hi', by rw [hcalm.keys]; exact update_self .., ?_⟩
    rintro val ⟨p, hp, hpos, hlast⟩
    by_cases hval : val = id
    · subst hval
      obtain rfl : p = o := mem_unique hp ho
      obtain ⟨q, hq, -, hqpos⟩ := decrRefCount_left (R := SameText) hdecr hp (hlast ⟨k, hkey⟩)
      refine ⟨q, hq, hqpos, fun hst => ?_⟩
      exact absurd ((hcalm.stored_iff _).mp hst) (not_stored_unlinked hi hkey)
    · refine ⟨p, (decrRefCount_objs hdecr hval).trans hp, hpos, fun hst => hlast ?_⟩
      obtain ⟨k', hk'⟩ := (hcalm.stored_iff _).mp hst
      by_cases hne : k' = k
      · rw [hne] at hk'
        cases (update_self ..).symm.trans hk'
      · exact ⟨k', (update_of_ne hne _ _).symm.trans hk'⟩

omit hi in
theorem Calm.owned (h : Calm R s s')
    (hobjs : ∀ o, s.objs id = some o → ∃ o', s'.objs id = some o' ∧ o'.refcount = o.refcount)
    (hown : Owned s id) : Owned s' id := by
  obtain ⟨o, ho, hpos, hlast⟩ := hown
  obtain ⟨o', ho', hrefs⟩ := hobjs o ho
  refine ⟨o', ho', by omega, fun hst => ?_⟩
  rw [hrefs]
  exact hlast ((h.stored_iff id).mp hst)

/-- What a lookup leaves: references stay, and so does the deadline unless the key is deleted. -/
def Kept (s s' : Db) (k : Sds) : Prop :=
  Inv s' ∧ (∀ val, Owned s val → Owned s' val) ∧
    (s'.keys k ≠ none → getExpireWithDictIndex s' k = getExpireWithDictIndex s k)

theorem kept_refl {α : Type} {r r' : α} (h : some (s, r) = some (s', r')) : Kept s s' k := by
  obtain ⟨rfl, -⟩ := result_inj h
  exact ⟨hi, fun _ hown => hown, fun _ => rfl⟩

theorem lookupKeyWrite_spec {found : Bool} (h : lookupKeyWrite hash vset env s k =
    some (s', found)) : Kept s s' k := by
  rw [lookupKeyWrite] at h
  split at h
  · exact kept_refl hi h
  split at h
  · exact kept_refl hi h
  · rename_i id hkey
    simp only [bind_eq_bind, bind_eq_some_iff] at h
    obtain ⟨o, ho, h⟩ := h
    split at h
    · split_ifs at h
      · obtain ⟨rfl, -⟩ := result_inj h
        have hcalm : Calm SameText s (s.setObj id (touchObject env o)) :=
          .setObj ho ⟨rfl, rfl, rfl⟩ fun h => h
        refine ⟨hcalm.inv hi, fun val hown => hcalm.owned (fun p hp => ?_) hown,
          fun _ => hcalm.getExpireWithDictIndex_eq hi k⟩
        by_cases hval : val = id
        · subst hval
          obtain rfl : p = o := mem_unique hp ho
          exact ⟨_, update_self .., rfl⟩
        · exact ⟨p, (update_of_ne hval _ _).trans hp, rfl⟩
      · exact kept_refl hi h
    · exact kept_refl hi h
    · simp only [bind_eq_some_iff, pure_def, some.injEq, Prod.mk.injEq] at h
      obtain ⟨⟨s₁, b⟩, hdelete, rfl, -⟩ := h
      obtain ⟨hinv, hnone, hown⟩ := dbGenericDelete_spec hi hdelete
      exact ⟨hinv, hown, absurd hnone⟩

theorem setKeyFound_spec {found : Int}
    (h : setKeyFound hash vset env s k flags = some (s', found)) : Kept s s' k := by
  rw [setKeyFound] at h
  split_ifs at h
  · exact kept_refl hi h
  · exact kept_refl hi h
  · obtain ⟨_, hlookup, rfl, -⟩ := map_result h
    exact lookupKeyWrite_spec hi hlookup
  · exact kept_refl hi h

/-- The write of `setKey`. -/
theorem setKeyWrite_spec {found : Int} (hk : k.length < 2 ^ 63) (hown : Owned s val)
    (h : (if found = 0 then dbAdd hash vset env s k val
      else if found < 0 then dbAddInternal hash vset env s k val true
      else dbSetValue vset env s k val true) = some (s', new)) :
    Inv s' ∧ (s.keys k ≠ none → getExpireWithDictIndex s' k = getExpireWithDictIndex s k) := by
  split_ifs at h
  iterate 2 exact dbAddInternal_spec hi hk hown h
  obtain ⟨hinv, hget⟩ := dbSetValue_spec hi hk hown h
  exact ⟨hinv, fun _ => hget⟩

theorem setKey_spec (hk : k.length < 2 ^ 63) (hown : Owned s val)
    (h : setKey hash vset env s k val flags = some (s', new)) :
    Inv s' ∧ (flags.keepttl = false → getExpireWithDictIndex s' k = EXPIRY_NONE) ∧
      ∀ s₁ found, setKeyFound hash vset env s k flags = some (s₁, found) → s₁.keys k ≠ none →
        flags.keepttl = true → getExpireWithDictIndex s' k = getExpireWithDictIndex s k := by
  simp only [setKey, bind_eq_bind, bind_eq_some_iff, pure_def,
    some.injEq, Prod.mk.injEq] at h
  obtain ⟨⟨s₁, found⟩, hfound, ⟨s₂, n⟩, hwrite, s₃, hremove, rfl, rfl⟩ := h
  obtain ⟨hi₁, hown₁, hget₁⟩ := setKeyFound_spec hi hfound
  have hwritten := setKeyWrite_spec hi₁ hk (hown₁ val hown) hwrite
  cases hkeep : flags.keepttl with
  | false =>
    rw [hkeep] at hremove
    obtain ⟨hinv, hget⟩ := removeExpire_spec hwritten.1 hremove
    exact ⟨hinv, fun _ => hget, nofun⟩
  | true =>
    rw [hkeep] at hremove
    obtain rfl := some.inj hremove
    refine ⟨hwritten.1, nofun, fun s₁' found' hfound' hthere _ => ?_⟩
    obtain ⟨rfl, -⟩ := result_inj (hfound.symm.trans hfound')
    exact (hwritten.2 hthere).trans (hget₁ hthere)

omit hi

end Functions

end NexCache.Tables
