import NexCache.Server.Coherence

/-!
# The functions of the tables return

`NexCache.Server.Coherence` says what holds after a call.  Here: none of the assertions fails.
Besides the two tables this needs the tracking of hashes with volatile fields, which `setExpire`
asserts to have the object.

* `Tracked`: the tracking has exactly the hashes with volatile fields, at the addresses that `keys`
  has.
* `step_returns`: a call that meets the conditions of its caller returns and keeps this.
* `tables_coherent`: every run.
-/

namespace NexCache.Tables

open Object Runs Buffer Function Option
open Server (Sds Filter LookupEnv LookupFlags KeyStatus updateFilter speculativeMissByHash)

/-! ### Objects that are well formed -/

structure Formed (o : ServerObject) : Prop where
  valid : o.Valid
  embedded : o.hasembval = true → o.encoding = .embstr
  /-- An embedded value lies behind the slot for the deadline. -/
  placed : ∀ off, o.ptr = .inner off → expireEnd o.hasexpire + 3 ≤ off ∧
    ∃ alloc str, SdsAt o.payload off .t8 alloc str

/-- Everything but the counters is the same. -/
structure SameBody (o o' : ServerObject) : Prop where
  text : SameText o o'
  type : o'.type = o.type
  encoding : o'.encoding = o.encoding
  ptr : o'.ptr = o.ptr
  hasembval : o'.hasembval = o.hasembval

instance : Steady SameBody where
  refl o := ⟨.refl o, rfl, rfl, rfl, rfl⟩
  trans h h' := ⟨h.text.trans h'.text, h'.type.trans h.type, h'.encoding.trans h.encoding,
    h'.ptr.trans h.ptr, h'.hasembval.trans h.hasembval⟩
  counted _ _ _ _ := ⟨⟨rfl, rfl, rfl⟩, rfl, rfl, rfl, rfl⟩

namespace SameBody

variable {o o' : ServerObject}

theorem value_eq (h : SameBody o o') : o'.value = o.value := by
  rw [ServerObject.value, ServerObject.value, objectGetVal, objectGetVal, h.ptr, h.text.payload]

theorem formed (h : SameBody o o') (hf : Formed o) : Formed o' := by
  refine ⟨⟨fun ht => ?_, fun ht => ?_, fun s hs => ?_⟩, fun he => ?_, ?_⟩
  · rw [h.encoding, h.ptr]
    exact hf.valid.string (by rwa [h.type] at ht)
  · rw [h.ptr]
    exact hf.valid.other (by rwa [h.type] at ht)
  · exact hf.valid.fits s (by rwa [h.value_eq] at hs)
  · rw [h.encoding]
    exact hf.embedded (by rwa [h.hasembval] at he)
  · rw [h.ptr, h.text.payload, h.text.hasexpire]
    exact hf.placed

theorem volatile_eq (vset : Nat → Bool) (h : SameBody o o') :
    isVolatileHash vset o' = isVolatileHash vset o := by
  rw [isVolatileHash, isVolatileHash, hashTypeHasVolatileFields, hashTypeHasVolatileFields, h.type,
    h.encoding, h.ptr]

end SameBody

variable {o : ServerObject}

/-- Only a hash is tracked. -/
theorem not_volatile_of_string (vset : Nat → Bool) (h : o.type = .string) :
    isVolatileHash vset o = false := by
  rw [isVolatileHash, h]
  rfl

/-- A value that a caller may give to the database. -/
structure Value (o : ServerObject) : Prop where
  formed : Formed o
  refs : 0 < o.refcount
  shared : o.refcount = 1 ∨ o.type = .string

variable {k : Sds} {expire : Int64} {n : ServerObject}

/-- The value has room beside the key: only an embedded one may have none. -/
def KeyFits (o : ServerObject) (k : Sds) (expire : Int64) : Prop :=
  ∀ s, o.type = .string → o.encoding = .embstr → o.value = .str s →
    PaddingFits s.length (some k) expire

theorem KeyFits.sameBody {o' : ServerObject} (h : KeyFits o k expire)
    (hsame : SameBody o o') : KeyFits o' k expire := by
  intro s htype henc hs
  rw [hsame.type] at htype
  rw [hsame.encoding] at henc
  rw [hsame.value_eq] at hs
  exact h s htype henc hs

theorem inside_of_fits {heap : Heap} (hv : Value o)
    (hk : k.length < 2 ^ 63) (hfits : KeyFits o k expire)
    (hn : objectSetKeyAndExpire heap o (some k) expire = some n) : inside n = true := by
  have hkey : ∀ k' ∈ some k, k'.length < 2 ^ 63 := by simpa using hk
  obtain ⟨n', hn', hiff⟩ := setKey_laidOut_iff heap hv.formed.valid hv.shared hkey expire
  obtain rfl : n = n' := some.inj (hn.symm.trans hn')
  exact List.all_eq_true.mpr fun r hr => decide_eq_true ((hiff.mpr hfits).inside r hr)

/-- `objectSetKeyAndExpire` makes an object of the same contents. -/
theorem objectSetKeyAndExpire_returns (vset : Nat → Bool) (heap : Heap) (hv : Value o)
    (hk : k.length < 2 ^ 63) (expire : Int64) :
    ∃ n, objectSetKeyAndExpire heap o (some k) expire = some n ∧ Formed n ∧
      isVolatileHash vset n = isVolatileHash vset o := by
  have hvalid := hv.formed.valid
  rw [objectSetKeyAndExpire]
  split_ifs with h
  · obtain ⟨off, hptr, hvalue⟩ := hvalid.embedded h
    have hfits := hvalid.fits _ hvalue
    have hkey : ∀ k' ∈ some k, k'.length < 2 ^ 63 := by simpa using hk
    obtain ⟨new, hnew, -⟩ := createString_laidOut_iff heap hfits hkey expire
    obtain ⟨hnewValid, -, -⟩ := createString_valid heap hfits hnew
    have hform : Formed new ∧ new.type = .string := by
      rw [createStringObjectWithKeyAndExpire] at hnew
      split_ifs at hnew
      · rename_i hembed
        obtain rfl := some.inj hnew
        refine ⟨⟨hnewValid, fun _ => rfl, fun off hoff => ?_⟩, rfl⟩
        obtain rfl : valOff (some k) expire = off := Ptr.inner.inj hoff
        exact ⟨le_trans (Nat.add_le_add_left (by decide) _) (expireEnd_le_valOff rfl), _, _,
          embedded_val_at rfl (shouldEmbed_lengths hembed).1⟩
      · obtain ⟨p, -, rfl⟩ := map_eq_some_iff.mp hnew
        exact ⟨⟨hnewValid, fun hc => absurd hc Bool.false_ne_true,
          fun _ hoff => absurd hoff Ptr.noConfusion⟩, rfl⟩
    simp only [hvalue, hnew, map_some]
    refine ⟨_, rfl, (Steady.counted (R := SameBody) new new.refcount o.lru new.vitality).formed
      hform.1, ?_⟩
    rw [not_volatile_of_string vset h.1]
    exact not_volatile_of_string vset hform.2
  · obtain ⟨ptr, hptr, hinner, hcases, hvalue⟩ := takePtr_spec hvalid h heap hv.shared
    rw [hptr]
    refine ⟨_, rfl, ⟨⟨fun ht => ?_, fun ht => ?_, fun s hs => ?_⟩, fun hc => absurd hc ?_,
      fun off hoff => absurd hoff (hinner off)⟩, ?_⟩
    · obtain rfl | ⟨-, henc, hsds⟩ := hcases
      · exact hvalid.string ht
      · exact .inr (.inl ⟨henc, hsds⟩)
    · obtain rfl | ⟨hstring, -⟩ := hcases
      · exact hvalid.other ht
      · exact absurd hstring ht
    · exact hvalid.fits s ((hvalue (some k) expire).symm.trans hs)
    · exact Bool.false_ne_true
    · obtain rfl | ⟨hstring, -⟩ := hcases
      · rfl
      · rw [not_volatile_of_string vset hstring]
        exact not_volatile_of_string vset hstring

/-- A write of the slot leaves the contents. -/
theorem withExpire_formed (h : Formed o) (hslot : o.hasexpire = true)
    (expire : Int64) : Formed (withExpire o expire) := by
  have hend : expireEnd o.hasexpire = 8 := by rw [hslot]; rfl
  have hat : ∀ off, o.ptr = .inner off → ∀ alloc str, SdsAt o.payload off .t8 alloc str →
      SdsAt (withExpire o expire).payload off .t8 alloc str := by
    intro off hptr alloc str hstr
    refine hstr.write_disjoint (.inr ?_)
    have hle := (h.placed off hptr).1
    rw [length_expireBytes]
    show 0 + 8 + 3 ≤ off
    omega
  have hvalue : (withExpire o expire).value = o.value := by
    refine value_eq_of_ptr rfl fun off hptr => ?_
    obtain ⟨-, alloc, str, hstr⟩ := h.placed off hptr
    exact (hat off hptr alloc str hstr).sdsText_eq.trans hstr.sdsText_eq.symm
  refine ⟨⟨h.valid.string, h.valid.other, fun s hs => h.valid.fits s (hvalue.symm.trans hs)⟩,
    h.embedded, fun off hptr => ?_⟩
  obtain ⟨hle, alloc, str, hstr⟩ := h.placed off hptr
  exact ⟨hle, alloc, str, hat off hptr alloc str hstr⟩

/-! ### The tracking -/

/-- What the tracking holds for a key. -/
def trackedEntry (vset : Nat → Bool) (s : Db) (k : Sds) : Option Nat :=
  (s.keys k).bind fun id => (s.objs id).bind fun o => if isVolatileHash vset o then some id
    else none

structure Tracked (vset : Nat → Bool) (s : Db) : Prop where
  formed : ∀ k id o, s.keys k = some id → s.objs id = some o → Formed o
  tracked : ∀ k, s.keysWithVolatileItems k = trackedEntry vset s k

variable {vset : Nat → Bool} {s : Db} {id : Nat}

theorem trackedEntry_of (hkey : s.keys k = some id) (ho : s.objs id = some o) :
    trackedEntry vset s k = if isVolatileHash vset o then some id else none := by
  rw [trackedEntry, hkey, bind_some, ho, bind_some]

theorem tracked_empty (filter : Option Filter) : Tracked vset (.empty filter) :=
  ⟨fun _ _ _ h => absurd h (by simp [Db.empty]), fun _ => rfl⟩

variable {s' : Db}

/-- A step that is calm for whole objects and leaves the tracking. -/
theorem Tracked.calm (h : Tracked vset s) (hi : Inv s) (hc : Calm SameBody s s')
    (hv : s'.keysWithVolatileItems = s.keysWithVolatileItems) : Tracked vset s' := by
  have hobj : ∀ k id, s.keys k = some id →
      ∃ o o', s.objs id = some o ∧ s'.objs id = some o' ∧ SameBody o o' := by
    intro k id hk
    obtain ⟨o, ho⟩ := hi.held k id hk
    obtain ⟨o', ho', hsame, -⟩ := hc.stored id o ⟨k, hk⟩ ho.live ho.refs
    exact ⟨o, o', ho.live, ho', hsame⟩
  constructor
  · intro k id o' hk ho'
    rw [hc.keys] at hk
    obtain ⟨o, p, ho, hp, hsame⟩ := hobj k id hk
    obtain rfl : p = o' := mem_unique hp ho'
    exact hsame.formed (h.formed k id o hk ho)
  · intro k
    rw [hv, h.tracked k]
    cases hk : s.keys k with
    | none => rw [trackedEntry, trackedEntry, hc.keys, hk, bind_none, bind_none]
    | some id =>
      obtain ⟨o, o', ho, ho', hsame⟩ := hobj k id hk
      rw [trackedEntry_of hk ho, trackedEntry_of (hc.keys ▸ hk) ho', hsame.volatile_eq vset]

section Store

variable (h : Tracked vset s) (hkeys : ∀ k', k' ≠ k → s'.keys k' = s.keys k')
  (hobjs : ∀ k' id, k' ≠ k → s.keys k' = some id → s'.objs id = s.objs id)
  (hv : ∀ k', k' ≠ k → s'.keysWithVolatileItems k' = s.keysWithVolatileItems k')
include h hkeys hobjs hv

/-- The tracking is right at one key, and nothing has changed at the others. -/
theorem Tracked.store (hformed : ∀ id o, s'.keys k = some id → s'.objs id = some o → Formed o)
    (htracked : s'.keysWithVolatileItems k = trackedEntry vset s' k) : Tracked vset s' := by
  constructor
  · intro k' id o hk' ho
    by_cases hne : k' = k
    · subst hne
      exact hformed id o hk' ho
    · rw [hkeys k' hne] at hk'
      rw [hobjs k' id hne hk'] at ho
      exact h.formed k' id o hk' ho
  · intro k'
    by_cases hne : k' = k
    · rw [hne]
      exact htracked
    · rw [hv k' hne, h.tracked k', trackedEntry, trackedEntry, hkeys k' hne]
      cases hk' : s.keys k' with
      | none => rfl
      | some id => rw [bind_some, bind_some, hobjs k' id hne hk']

/-- An object enters both at one key. -/
theorem Tracked.enter (hkey : s'.keys k = some id) (ho : s'.objs id = some o) (hformed : Formed o)
    (htracked : s'.keysWithVolatileItems k = if isVolatileHash vset o then some id else none) :
    Tracked vset s' := by
  refine h.store hkeys hobjs hv (fun i p hi hp => ?_)
    (htracked.trans (trackedEntry_of hkey ho).symm)
  obtain rfl : id = i := mem_unique hkey hi
  obtain rfl : o = p := mem_unique ho hp
  exact hformed

end Store

theorem Tracked.rewrite {o o' : ServerObject} (h : Tracked vset s) (hi : Inv s) (s' : Db)
    (hkey : s.keys k = some id) (ho : s.objs id = some o) (hformed : Formed o')
    (hvol : isVolatileHash vset o' = isVolatileHash vset o)
    (hobjs : s'.objs = update s.objs id (some o')) (hkeys : s'.keys = s.keys)
    (hv : s'.keysWithVolatileItems = s.keysWithVolatileItems) : Tracked vset s' := by
  refine h.enter (fun _ _ => by rw [hkeys]) (fun k' i hne hk' => ?_) (fun _ _ => by rw [hv])
    (by rw [hkeys, hkey]) (by rw [hobjs, update_self]) hformed ?_
  · rw [hobjs, update_of_ne]
    rintro rfl
    exact hne (hi.key_unique hk' hkey)
  · rw [hv, h.tracked k, trackedEntry_of hkey ho, hvol]

/-! ### The parts of `dbSetValue` -/

variable (ho : s.objs id = some o)
include ho

theorem decrRefCount_returns (hrefs : 0 < o.refcount) :
    ∃ s', decrRefCount s id = some s' ∧ s'.keysWithVolatileItems = s.keysWithVolatileItems := by
  rw [decrRefCount, ho]
  dsimp only
  split_ifs
  · exact ⟨_, rfl, rfl⟩
  · omega
  · exact ⟨_, rfl, rfl⟩
  · exact ⟨_, rfl, rfl⟩

theorem holdDuringCallbacks_returns (hrefs : 0 < o.refcount)
    (hlt : o.refcount < OBJ_STATIC_REFCOUNT) :
    holdDuringCallbacks s id = some s := by
  have hincr : incrRefCount s id = some (s.setObj id { o with refcount := o.refcount + 1 }) := by
    rw [incrRefCount, ho]
    exact if_pos hlt
  obtain ⟨s', hdecr, -⟩ := decrRefCount_returns (s := s.setObj id { o with
    refcount := o.refcount + 1 }) (update_self ..) (Nat.succ_pos o.refcount)
  have hhold : holdDuringCallbacks s id = some s' := by
    rw [holdDuringCallbacks, hincr, bind_some, hdecr]
  rw [hhold, holdDuringCallbacks_eq ho hrefs hhold]

variable (vset) in
omit ho in
/-- A value gets a key and a deadline: the new object, and what is left of the value. -/
theorem setKeyAndExpire_returns (heap : Heap) (hf : Fresh s) (ho : s.objs id = some o)
    (hv : Value o) (hk : k.length < 2 ^ 63) (hfits : KeyFits o k expire) :
    ∃ s' n, setKeyAndExpire heap s id (some k) expire = some (s', s.next) ∧
      s'.keysWithVolatileItems = s.keysWithVolatileItems ∧ s'.objs s.next = some n ∧ Formed n ∧
      n.Keyed k ∧ isVolatileHash vset n = isVolatileHash vset o ∧
      ∀ i, i ≠ id → i ≠ s.next → s'.objs i = s.objs i := by
  obtain ⟨n, hn, hformed, hvol⟩ := objectSetKeyAndExpire_returns vset heap hv hk expire
  have hne : id ≠ s.next := (hf.lt_next ho).ne
  have ho' : (s.alloc n).objs id = some o := (update_of_ne hne _ _).trans ho
  obtain ⟨s', hdecr, hvol'⟩ := decrRefCount_returns ho' hv.refs
  refine ⟨s', n, ?_, hvol', ?_, hformed, (setKeyAndExpire_object hk hn).1, hvol, fun i hi hi' => ?_⟩
  · have hinside := filter_eq_some_iff.mpr ⟨hn, inside_of_fits hv hk hfits hn⟩
    simp only [setKeyAndExpire, ho, hinside, hdecr, bind_eq_bind, bind_some, pure_def]
  · rw [decrRefCount_objs hdecr (Ne.symm hne)]
    exact update_self ..
  · rw [decrRefCount_objs hdecr hi]
    exact update_of_ne hi' _ _

/-- The tracking is written at one key. -/
def Db.setTracked (s : Db) (k : Sds) (entry : Option Nat) : Db :=
  { s with keysWithVolatileItems := Function.update s.keysWithVolatileItems k entry }

/-- The tracking is written for the object of a key. -/
abbrev Db.trackAs (vset : Nat → Bool) (s : Db) (k : Sds) (id : Nat) (o : ServerObject) : Db :=
  s.setTracked k (if isVolatileHash vset o then some id else none)

theorem track_returns (hkeyed : o.Keyed k) (hnone : s.keysWithVolatileItems k = none) :
    dbTrackKeyWithVolatileItems vset s id = some (s.trackAs vset k id o) := by
  simp only [dbTrackKeyWithVolatileItems, ho, bind_eq_bind, bind_some,
    hkeyed.keyText_eq, pure_def, Db.setTracked]
  split_ifs
  · rw [tableAdd, if_pos hnone]
  · rw [← hnone, update_eq_self]

theorem untrack_returns (hkeyed : o.Keyed k) :
    dbUntrackKeyWithVolatileItems s id = some (s.setTracked k none) := by
  simp only [dbUntrackKeyWithVolatileItems, ho, bind_eq_bind, bind_some,
    hkeyed.keyText_eq, pure_def, Db.setTracked]

omit ho

variable (vset) in
/-- The end of `dbSetValue`: what is released leaves the tracking and the object of the key enters
it. -/
theorem finishSetValue_returns {new old : Nat} {n p : ServerObject} (hn : s.objs new = some n)
    (hkeyed : n.Keyed k) (hp : s.objs old = some p) (hrefs : 0 < p.refcount)
    (hpKeyed : p.hasembkey = true → p.Keyed k)
    (hnone : isVolatileHash vset p = false → s.keysWithVolatileItems k = none) :
    ∃ s', finishSetValue vset s new old = some (s', new) ∧
      decrRefCount (s.trackAs vset k new n) old = some s' := by
  obtain ⟨s', hdecr, -⟩ := decrRefCount_returns
    (show (s.trackAs vset k new n).objs old = some p from hp) hrefs
  refine ⟨s', ?_, hdecr⟩
  have huntrack : untrackReleased vset s new old = some (s.setTracked k none) := by
    simp only [untrackReleased, hp, bind_eq_bind, bind_some, pure_def]
    split_ifs with hvol hemb
    · exact untrack_returns hp (hpKeyed hemb)
    · exact untrack_returns hn hkeyed
    · rw [Db.setTracked, ← hnone (Bool.eq_false_iff.mpr hvol), update_eq_self]
  have htrack : dbTrackKeyWithVolatileItems vset (s.setTracked k none) new =
      some (s.trackAs vset k new n) := by
    rw [track_returns (show (s.setTracked k none).objs new = some n from hn) hkeyed
      (update_self ..)]
    simp only [Db.setTracked, update_idem]
  simp only [finishSetValue, huntrack, htrack, bind_eq_bind, bind_some, hdecr,
    pure_def]

variable {old : Nat}

/-- The object of one key is tracked as it should be and another one is released. -/
theorem Tracked.finish {s t s' : Db} (h : Tracked vset s) (helse : SameElsewhere s t k)
    (hv : t.keysWithVolatileItems = s.keysWithVolatileItems) (hi : Inv t)
    (hkey : t.keys k = some id)
    (ho : t.objs id = some o) (hformed : Formed o) (hold : ¬Stored t old)
    (hdecr : decrRefCount (t.trackAs vset k id o) old = some s') :
    Tracked vset s' := by
  have hentered : Tracked vset (t.trackAs vset k id o) := by
    refine h.enter helse.keys helse.objs (fun k' hne => ?_) hkey ho hformed (update_self ..)
    rw [← hv]
    exact update_of_ne hne _ _
  have hi' := (Calm.of_volatile t (t.trackAs vset k id o).keysWithVolatileItems t.filter).inv hi
  have htables := decrRefCount_tables hdecr
  refine hentered.calm hi' (decrRefCount_calm hdecr fun _ _ hst => absurd hst hold) htables.2.2

/-- Contents that are not embedded can be moved. -/
theorem withContents_formed {o c : ServerObject} (hc : Formed c) (henc : c.encoding ≠ .embstr)
    (hemb : o.hasembval = false) : Formed (withContents o c) := by
  have hinner := hc.valid.not_inner fun h => henc h.2
  have hvalue : (withContents o c).value = c.value :=
    value_eq_of_ptr rfl fun off hptr => absurd hptr (hinner off)
  refine ⟨⟨hc.valid.string, hc.valid.other, fun s hs => hc.valid.fits s (hvalue.symm.trans hs)⟩,
    fun he => ?_, fun off hoff => absurd hoff (hinner off)⟩
  cases hemb.symm.trans he

/-! ### `dbSetValue` -/

/-- A caller's value at an address. -/
structure Given (s : Db) (id : Nat) (o : ServerObject) : Prop where
  live : s.objs id = some o
  value : Value o
  own : Stored s id → 1 < o.refcount

theorem Given.owned (h : Given s id o) : Owned s id :=
  ⟨o, h.live, h.value.refs, h.own⟩

/-- What the two tables and the tracking have in common. -/
structure Sound (vset : Nat → Bool) (s : Db) : Prop where
  inv : Inv s
  tracked : Tracked vset s

theorem Sound.calm (h : Sound vset s) (hc : Calm SameBody s s')
    (hv : s'.keysWithVolatileItems = s.keysWithVolatileItems) : Sound vset s' :=
  ⟨(hc.mono SameBody.text).inv h.inv, h.tracked.calm h.inv hc hv⟩

/-- The object of a key can be retained for the callbacks. -/
def Holdable (s : Db) (k : Sds) : Prop :=
  ∀ id o, s.keys k = some id → s.objs id = some o → o.refcount < OBJ_STATIC_REFCOUNT

/-- What a lookup leaves for the write that follows it. -/
structure LookedUp (vset : Nat → Bool) (s s' : Db) (k : Sds) : Prop where
  tracked : Tracked vset s'
  holdable : Holdable s' k
  given : ∀ val o, Given s val o → ∃ o', Given s' val o' ∧ SameBody o o'

theorem Value.sameBody {o o' : ServerObject} (h : Value o) (hsame : SameBody o o')
    (hrefs : 0 < o'.refcount) (hshared : o'.refcount = 1 ∨ o.type = .string) : Value o' :=
  ⟨hsame.formed h.formed, hrefs, hshared.imp_right hsame.type.trans⟩

theorem initLru_returns (lru : Nat) (ho : s.objs id = some o) :
    ∃ o', initLru s id lru = some (s.setObj id o') ∧ SameBody o o' := by
  rw [initLru, ho, map_some]
  split_ifs
  · refine ⟨o, ?_, Steady.refl o⟩
    rw [Db.setObj, ← ho, update_eq_self]
  · exact ⟨_, rfl, Steady.counted o ..⟩

/-- The object in the tracking is the one of the key, so it is found there. -/
theorem replaceTracked_returns {id new : Nat} (hn : s.objs new = some n) (hkeyed : n.Keyed k)
    (hv : s.keysWithVolatileItems k = if isVolatileHash vset n then some id else none) :
    replaceTracked vset s id new = some (s.trackAs vset k new n) := by
  simp only [replaceTracked, hn, bind_eq_bind, bind_some, hkeyed.keyText_eq, pure_def, Db.trackAs]
  split_ifs with hvol hfound
  · rfl
  · exact absurd (hv.trans (if_pos hvol)) hfound
  · have hnone : s.keysWithVolatileItems k = none := hv.trans (if_neg hvol)
    rw [Db.setTracked, ← hnone, update_eq_self]

variable {val : Nat} {valObj oldObj : ServerObject} (hash : Sds → Nat) (env : Env)
  (hs : Sound vset s)
include hs

theorem LookedUp.refl (hhold : Holdable s k) : LookedUp vset s s k :=
  ⟨hs.tracked, hhold, fun _ o hval => ⟨o, hval, Steady.refl o⟩⟩

theorem swap_returns (hkey : s.keys k = some old)
    (hheld : Held s k old oldObj) (hval : Given s val valObj) (hunkeyed : valObj.hasembkey = false)
    (hmove : contentsMovable oldObj valObj = true) :
    ∃ s₁ s', swapContents s old val oldObj valObj = some s₁ ∧
      finishSetValue vset s₁ old val = some (s', old) ∧ Tracked vset s' := by
  simp only [contentsMovable, Bool.and_eq_true, decide_eq_true_eq] at hmove
  obtain ⟨⟨-, holdEnc⟩, hone, hvalEnc⟩ := hmove
  have holdFormed := hs.tracked.formed k old oldObj hkey hheld.live
  have hvalFormed := hval.value.formed
  have holdEmb : oldObj.hasembval = false :=
    Bool.eq_false_iff.mpr fun h => holdEnc (holdFormed.embedded h)
  have hvalEmb : valObj.hasembval = false :=
    Bool.eq_false_iff.mpr fun h => hvalEnc (hvalFormed.embedded h)
  have hvalStored : ¬Stored s val := fun hst => absurd (hval.own hst) (by omega)
  have hne : old ≠ val := by
    rintro rfl
    exact hvalStored ⟨k, hkey⟩
  have hswap : swapContents s old val oldObj valObj = some
      ((s.setObj old (withContents oldObj valObj)).setObj val (withContents valObj oldObj)) := by
    rw [swapContents, holdEmb, hvalEmb]
    rfl
  generalize hs₁ : (s.setObj old (withContents oldObj valObj)).setObj val
    (withContents valObj oldObj) = s₁ at hswap
  have hcalm := swapContents_calm hheld.live hval.live hne hswap
  have hnew : s₁.objs old = some (withContents oldObj valObj) := by
    rw [← hs₁]
    exact (update_of_ne hne _ _).trans (update_self ..)
  have hreleased : s₁.objs val = some (withContents valObj oldObj) := by
    rw [← hs₁]
    exact update_self ..
  have hvol₁ : s₁.keysWithVolatileItems = s.keysWithVolatileItems := by rw [← hs₁]; rfl
  have hsame : SameText oldObj (withContents oldObj valObj) := ⟨rfl, rfl, rfl⟩
  have hkeyed := hsame.keyed hheld.keyed
  obtain ⟨s', hfinish, hdecr⟩ := finishSetValue_returns vset hnew hkeyed hreleased hval.value.refs
    (fun hemb => absurd (hunkeyed.symm.trans hemb) (by decide)) (fun hvol => by
      rw [hvol₁, hs.tracked.tracked k, trackedEntry_of hkey hheld.live]
      exact if_neg (Bool.eq_false_iff.mp hvol))
  refine ⟨s₁, s', hswap, hfinish, ?_⟩
  refine hs.tracked.finish ⟨fun k' _ => congrFun hcalm.keys k',
    fun k' _ => congrFun hcalm.expires k', fun k' id hne' hk' => ?_⟩ hvol₁ (hcalm.inv hs.inv)
    (by rw [hcalm.keys, hkey]) hnew (withContents_formed hvalFormed hvalEnc holdEmb)
    (by rwa [hcalm.stored_iff]) hdecr
  have hidVal : id ≠ val := by
    rintro rfl
    exact hvalStored ⟨k', hk'⟩
  have hidOld : id ≠ old := by
    rintro rfl
    exact hne' (hs.inv.key_unique hk' hkey)
  rw [← hs₁]
  exact (update_of_ne hidVal _ _).trans (update_of_ne hidOld _ _)

/-- The value gets the key and the deadline in a new object. -/
theorem replace_returns (hk : k.length < 2 ^ 63)
    (hkey : s.keys k = some old) (hheld : Held s k old oldObj) (hval : Given s val valObj)
    (hfits : KeyFits valObj k (objectGetExpire oldObj)) :
    ∃ s₁ s' new, replaceObject env s k val oldObj valObj = some (s₁, new) ∧
      finishSetValue vset s₁ new old = some (s', new) ∧ Tracked vset s' := by
  have htouch : Calm SameBody s (s.setObj val { valObj with lru := oldObj.lru }) :=
    .setObj hval.live (Steady.counted valObj ..) id
  have hs₀ := hs.calm htouch rfl
  have hself : (s.setObj val { valObj with lru := oldObj.lru }).objs val =
      some { valObj with lru := oldObj.lru } := update_self ..
  have hvalue : Value { valObj with lru := oldObj.lru } :=
    ⟨(Steady.counted (R := SameBody) valObj ..).formed hval.value.formed, hval.value.refs,
      hval.value.shared⟩
  obtain ⟨s₁, n, hset, hvol, hn, hformed, hkeyed, -⟩ := setKeyAndExpire_returns vset env.heap
    hs₀.inv.fresh hself hvalue hk (hfits.sameBody (Steady.counted valObj ..))
  obtain ⟨hcalm, -⟩ := setKeyAndExpire_spec (R := SameBody) hs₀.inv.fresh hself hval.own hk hset
  have hcalm' := htouch.trans hcalm
  have hs₁ := hs₀.calm hcalm hvol
  obtain ⟨p, hp, hsame, hrefs⟩ := hcalm'.stored old oldObj ⟨k, hkey⟩ hheld.live hheld.refs
  have hkey₁ : s₁.keys k = some old := by rw [hcalm'.keys, hkey]
  -- the tables with the new object, and with its deadline if there is one
  obtain ⟨s₂, hreplace, hkeys₂, hexpires₂, hobjs₂, hvol₂⟩ : ∃ s₂,
      replaceObject env s k val oldObj valObj = some (s₂, s.next) ∧
      s₂.keys = update s₁.keys k (some s.next) ∧
      (∀ k', k' ≠ k → s₂.expires k' = s₁.expires k') ∧ s₂.objs = s₁.objs ∧
      s₂.keysWithVolatileItems = s₁.keysWithVolatileItems := by
    have hset' : setKeyAndExpire env.heap (s.setObj val { valObj with lru := oldObj.lru }) val
        (some k) (objectGetExpire oldObj) = some (s₁, s.next) := hset
    simp only [replaceObject, hset', bind_eq_bind, bind_some, pure_def]
    split_ifs with hpos
    · have hthere : s₁.expires k = some old := by
        rw [hcalm'.expires, hheld.expires, expiresEntry_of_nonneg hpos]
      rw [hthere]
      exact ⟨_, rfl, rfl, fun k' hne => update_of_ne hne _ _, rfl, rfl⟩
    · exact ⟨_, rfl, rfl, fun _ _ => rfl, rfl, rfl⟩
  obtain ⟨hinv₂, -, hgone⟩ := replaceObject_spec hs.inv hk hkey hheld hval.live hval.own hreplace
  have hnew₂ : s₂.objs s.next = some n := by rw [hobjs₂]; exact hn
  obtain ⟨s', hfinish, hdecr⟩ := finishSetValue_returns vset hnew₂ hkeyed
    (show s₂.objs old = some p by rw [hobjs₂, hp]) hrefs
    (fun _ => hsame.text.keyed hheld.keyed) (fun hvolatile => by
      rw [hvol₂, hs₁.tracked.tracked k, trackedEntry_of hkey₁ hp]
      exact if_neg (Bool.eq_false_iff.mp hvolatile))
  refine ⟨s₂, s', s.next, hreplace, hfinish, hs₁.tracked.finish
    ⟨fun k' hne => ?_, hexpires₂, fun _ _ _ _ => by rw [hobjs₂]⟩ hvol₂ hinv₂ ?_ hnew₂ hformed hgone
    hdecr⟩
  · rw [hkeys₂, update_of_ne hne]
  · rw [hkeys₂, update_self]

/-- The value `val` has room beside the key `k`, if it is given to the tables in a new object. -/
structure WriteFits (s : Db) (k : Sds) (val : Nat) : Prop where
  add : ∀ o, s.keys k = none → s.objs val = some o → KeyFits o k EXPIRY_NONE
  replaced : ∀ {id o oldObj}, s.keys k = some id → s.objs id = some oldObj → s.objs val = some o →
    contentsMovable oldObj o = false → KeyFits o k (objectGetExpire oldObj)

/-- A value that has no key of its own is written over an existing key. -/
theorem dbSetValue_returns {overwrite : Bool} (hk : k.length < 2 ^ 63) (hkey : s.keys k ≠ none)
    (hhold : overwrite = true → Holdable s k) (hval : Given s val valObj)
    (hunkeyed : valObj.hasembkey = false) (hfits : WriteFits s k val) :
    ∃ s' new, dbSetValue vset env s k val overwrite = some (s', new) ∧ Tracked vset s' := by
  obtain ⟨old, hold⟩ := ne_none_iff_exists'.mp hkey
  obtain ⟨oldObj, hheld⟩ := hs.inv.held k old hold
  have hheld' : (if overwrite then holdDuringCallbacks s old else some s) = some s := by
    split_ifs with hover
    · exact holdDuringCallbacks_returns hheld.live hheld.refs
        (hhold hover old oldObj hold hheld.live)
    · rfl
  simp only [dbSetValue, hold, hheld', hheld.live, hval.live, bind_eq_bind, bind_some]
  split_ifs with hmove
  · obtain ⟨s₁, s', hswap, hfinish, htracked⟩ := swap_returns hs hold hheld hval hunkeyed hmove
    rw [hswap]
    exact ⟨s', old, hfinish, htracked⟩
  · obtain ⟨s₁, s', new, hreplace, hfinish, htracked⟩ := replace_returns env hs hk hold hheld hval
      (hfits.replaced hold hheld.live hval.live (Bool.eq_false_iff.mpr hmove))
    rw [hreplace]
    exact ⟨s', new, hfinish, htracked⟩

/-! ### The other functions -/

theorem dbAdd_returns (hk : k.length < 2 ^ 63) (hkey : s.keys k = none)
    (hval : Given s val valObj) (hfits : WriteFits s k val) :
    ∃ s' new, dbAdd hash vset env s k val = some (s', new) ∧ Tracked vset s' := by
  obtain ⟨s₁, n, hset, hvol, hn, hformed, hkeyed, -⟩ := setKeyAndExpire_returns vset env.heap
    hs.inv.fresh hval.live hval.value hk (hfits.add valObj hkey hval.live)
  obtain ⟨hcalm, -⟩ := setKeyAndExpire_spec (R := SameBody) hs.inv.fresh hval.live hval.own hk hset
  have hs₁ := hs.calm hcalm hvol
  have hkey₁ : s₁.keys k = none := by rw [hcalm.keys, hkey]
  have hnone : s₁.keysWithVolatileItems k = none := by
    rw [hs₁.tracked.tracked k, trackedEntry, hkey₁]
    rfl
  have htrack : dbTrackKeyWithVolatileItems vset s₁ s.next =
      some (s₁.trackAs vset k s.next n) :=
    track_returns hn hkeyed hnone
  obtain ⟨o, hlru, hsame⟩ := initLru_returns env.lruInit
    (show (s₁.trackAs vset k s.next n).objs s.next = some n from hn)
  simp only [dbAdd, dbAddInternal, hset, htrack, hlru, bind_eq_bind, bind_some,
    pure_def, Bool.false_and]
  refine ⟨_, s.next, rfl, ?_⟩
  have hadd : tableAdd s₁.keys k s.next = update s₁.keys k (some s.next) := if_pos hkey₁
  refine hs₁.tracked.enter (fun k' hne => ?_) (fun k' id hne hk' => ?_)
    (fun k' hne => update_of_ne hne _ _) ((congrFun hadd k).trans (update_self ..)) (update_self ..)
    (hsame.formed hformed) ?_
  · exact (congrFun hadd k').trans (update_of_ne hne _ _)
  · refine update_of_ne ?_ _ _
    rintro rfl
    rw [hcalm.keys] at hk'
    exact absurd (hs.inv.lt_next hk') (lt_irrefl _)
  · rw [hsame.volatile_eq vset]
    exact update_self ..

theorem removeExpire_returns : ∃ s', removeExpire env s k = some s' ∧ Tracked vset s' := by
  rw [removeExpire]
  cases hexp : s.expires k with
  | none => exact ⟨s, rfl, hs.tracked⟩
  | some id =>
    obtain ⟨o, hkey, hheld, hslot⟩ := hs.inv.of_expires hexp
    simp only [objectSetExpire, hheld.live, bind_eq_bind, bind_some, if_pos hslot,
      pure_def, if_true]
    exact ⟨_, rfl, hs.tracked.rewrite hs.inv _ hkey hheld.live
      (withExpire_formed (hs.tracked.formed k id o hkey hheld.live) hslot EXPIRY_NONE) rfl rfl rfl
        rfl⟩

theorem setExpire_returns {when_ : Int64} (hk : k.length < 2 ^ 63) (hwhen : 0 ≤ when_)
    (hkey : s.keys k ≠ none) (hshared : ∀ id o, s.keys k = some id → s.objs id = some o →
      (o.refcount = 1 ∨ o.type = .string) ∧ (o.hasexpire = false → KeyFits o k when_)) :
    ∃ s' new, setExpire vset env s k when_ = some (s', new) ∧ Tracked vset s' := by
  obtain ⟨id, hid⟩ := ne_none_iff_exists'.mp hkey
  obtain ⟨o, hheld⟩ := hs.inv.held k id hid
  have hformed := hs.tracked.formed k id o hid hheld.live
  have hne : when_ ≠ EXPIRY_NONE := by
    rintro rfl
    cases hwhen
  have hentry := (hs.tracked.tracked k).trans (trackedEntry_of hid hheld.live)
  by_cases hslot : o.hasexpire = true
  · have hset : objectSetExpire env.heap s id when_ =
        some (s.setObj id (withExpire o when_), id) := by
      simp only [objectSetExpire, hheld.live, bind_eq_bind, bind_some, if_pos hslot,
        pure_def]
    have hreplace : replaceTracked vset (s.setObj id (withExpire o when_)) id id =
        some (s.setObj id (withExpire o when_)) := by
      have hself : (s.setObj id (withExpire o when_)).objs id = some (withExpire o when_) :=
        update_self ..
      rw [replaceTracked_returns hself (withExpire_keyed hheld.keyed hslot _) hentry, Db.trackAs,
        Db.setTracked]
      exact congrArg some (congrArg
        (fun t => { s.setObj id (withExpire o when_) with keysWithVolatileItems := t })
        (update_eq_self_iff.mpr hentry.symm))
    have hend : ∀ s' : Db, s'.objs = (s.setObj id (withExpire o when_)).objs → s'.keys = s.keys →
        s'.keysWithVolatileItems = s.keysWithVolatileItems → Tracked vset s' := by
      intro s' hobjs hkeys hv
      exact hs.tracked.rewrite hs.inv s' hid hheld.live (withExpire_formed hformed hslot when_) rfl
        hobjs hkeys hv
    simp only [setExpire, hid, hheld.live, hset, hreplace, bind_eq_bind, bind_some,
      if_true, pure_def]
    split_ifs with hold hnone
    · exact ⟨_, _, rfl, hend _ rfl rfl rfl⟩
    · exact ⟨_, _, rfl, hend _ rfl (update_eq_self_iff.mpr hid.symm) rfl⟩
    · refine absurd ?_ hnone
      show s.expires k = none
      rw [hheld.expires, expiresEntry, if_pos (not_not.mp hold)]
  · have hold : objectGetExpire o = EXPIRY_NONE := by rw [objectGetExpire, if_neg hslot]
    obtain ⟨s₁, n, hset, hvol, hn, hnFormed, hkeyed, hnVol, hothers⟩ := setKeyAndExpire_returns vset
      env.heap hs.inv.fresh hheld.live ⟨hformed, hheld.refs, (hshared id o hid hheld.live).1⟩ hk
      ((hshared id o hid hheld.live).2 (Bool.eq_false_iff.mpr hslot))
    obtain ⟨-, hkeys, hexpires⟩ := setKeyAndExpire_unlinked k hset
    have hset'' : objectSetExpire env.heap s id when_ = some (s₁, s.next) := by
      simp only [objectSetExpire, hheld.live, bind_eq_bind, bind_some, if_neg hslot,
        if_neg hne, hheld.keyed.keyText_eq]
      exact hset
    have hreplace : replaceTracked vset s₁ id s.next =
        some (s₁.trackAs vset k s.next n) :=
      replaceTracked_returns hn hkeyed (by rw [hvol, hentry, hnVol])
    have hnone : s₁.expires k = none := by
      rw [hexpires, hheld.expires, expiresEntry, if_pos hold]
    simp only [setExpire, hid, hheld.live, hset'', hreplace, bind_eq_bind, bind_some,
      hold, ne_eq, not_true_eq_false, if_false]
    rw [if_pos (show (s₁.setTracked k _).expires k = none from hnone)]
    refine ⟨_, _, rfl, ?_⟩
    refine hs.tracked.enter (fun k' hne' => ?_) (fun k' i hne' hk' => ?_)
      (fun k' hne' => ?_) (update_self ..) hn hnFormed (update_self ..)
    · exact (update_of_ne hne' _ _).trans (congrFun hkeys k')
    · refine hothers i ?_ (Nat.ne_of_lt (hs.inv.lt_next hk'))
      rintro rfl
      exact hne' (hs.inv.key_unique hk' hid)
    · exact (update_of_ne hne' _ _).trans (congrFun hvol k')

/-- A caller keeps its reference to an object that is deleted. -/
theorem dbGenericDelete_returns (hhold : Holdable s k) :
    ∃ s' deleted, dbGenericDelete vset s k = some (s', deleted) ∧ LookedUp vset s s' k := by
  cases hkey : s.keys k with
  | none =>
    refine ⟨s, false, ?_, .refl hs hhold⟩
    rw [dbGenericDelete, hkey]
  | some id =>
    obtain ⟨o, hheld⟩ := hs.inv.held k id hkey
    have hheldCall := holdDuringCallbacks_returns hheld.live hheld.refs
      (hhold id o hkey hheld.live)
    have hunlink := hheld.unlink_eq
    have hentry := (hs.tracked.tracked k).trans (trackedEntry_of hkey hheld.live)
    have huntrack : (if isVolatileHash vset o then dbUntrackKeyWithVolatileItems (unlinked s k) id
        else some (unlinked s k)) = some ((unlinked s k).setTracked k none) := by
      split_ifs with hvol
      · exact untrack_returns hheld.live hheld.keyed
      · have hnone : (unlinked s k).keysWithVolatileItems k = none := hentry.trans (if_neg hvol)
        rw [Db.setTracked, ← hnone, update_eq_self]
    obtain ⟨s', hdecr, hv⟩ := decrRefCount_returns
      (show ((unlinked s k).setTracked k none).objs id = some o from hheld.live) hheld.refs
    have hdelete : dbGenericDelete vset s k = some (s', true) := by
      simp only [dbGenericDelete, hkey, hheldCall, hheld.live, bind_eq_bind, bind_some]
      rw [unlinked] at hunlink
      rw [hunlink, bind_some, ← unlinked, huntrack, bind_some, hdecr]
      rfl
    obtain ⟨-, hgone, howned⟩ := dbGenericDelete_spec hs.inv hdelete
    refine ⟨s', true, hdelete, ?_, fun i p hk => absurd (hk.symm.trans hgone) (by simp),
      fun val p hval => ?_⟩
    · have hgone : Tracked vset ((unlinked s k).setTracked k none) := by
        refine hs.tracked.store (fun k' hne => update_of_ne hne _ _)
          (fun _ _ _ _ => rfl) (fun k' hne => update_of_ne hne _ _)
          (fun i p hk' _ => ?_) ?_
        · have hself : update s.keys k none k = some i := hk'
          rw [update_self] at hself
          cases hself
        · have hself : ((unlinked s k).setTracked k none).keys k = none := update_self ..
          rw [trackedEntry, hself]
          exact update_self ..
      have hi := (Calm.of_volatile (unlinked s k)
        ((unlinked s k).setTracked k none).keysWithVolatileItems s.filter).inv
          (unlinked_inv hs.inv k)
      exact hgone.calm hi (decrRefCount_calm hdecr fun _ _ hst =>
        absurd hst (not_stored_unlinked hs.inv hkey)) hv
    · obtain ⟨q, hq, hrefs, hown⟩ := howned val hval.owned
      by_cases hi : val = id
      · subst hi
        have hmany := hval.own ⟨k, hkey⟩
        obtain ⟨q', hq', hsame, -⟩ := decrRefCount_left (R := SameBody) hdecr hval.live hmany
        obtain rfl : q = q' := mem_unique hq hq'
        have hstring : p.type = .string := hval.value.shared.resolve_left (by omega)
        exact ⟨q, ⟨hq, hval.value.sameBody hsame hrefs (.inr hstring), hown⟩, hsame⟩
      · obtain rfl : q = p := mem_unique hq ((decrRefCount_objs hdecr hi).trans hval.live)
        exact ⟨q, ⟨hq, hval.value, hown⟩, Steady.refl q⟩

/-! ### `setKey` -/

theorem touched_lookedUp (hhold : Holdable s k) (ho : s.objs id = some o) :
    LookedUp vset s (s.setObj id (touchObject env o)) k := by
  have hsame : SameBody o (touchObject env o) := Steady.counted o ..
  have hcalm : Calm SameBody s (s.setObj id (touchObject env o)) := .setObj ho hsame fun h => h
  have hobjs : ∀ i p, (s.setObj id (touchObject env o)).objs i = some p →
      ∃ q, s.objs i = some q ∧ p.refcount = q.refcount := by
    intro i p hp
    by_cases hi : i = id
    · subst hi
      have hself : update s.objs i (some (touchObject env o)) i = some p := hp
      rw [update_self] at hself
      rw [← some.inj hself]
      exact ⟨o, ho, rfl⟩
    · exact ⟨p, (update_of_ne hi _ _).symm.trans hp, rfl⟩
  refine ⟨(hs.calm hcalm rfl).tracked, fun i p hk hp => ?_, fun val p hval => ?_⟩
  · obtain ⟨q, hq, hrefs⟩ := hobjs i p hp
    rw [hrefs]
    exact hhold i q hk hq
  · by_cases hi : val = id
    · subst hi
      obtain rfl : p = o := mem_unique hval.live ho
      exact ⟨_, ⟨update_self .., hval.value.sameBody hsame hval.value.refs
        hval.value.shared, hval.own⟩, hsame⟩
    · exact ⟨p, ⟨(update_of_ne hi _ _).trans hval.live, hval.value, hval.own⟩,
        Steady.refl p⟩

theorem lookupKeyWrite_returns (hhold : Holdable s k) :
    ∃ s' found, lookupKeyWrite hash vset env s k = some (s', found) ∧ LookedUp vset s s' k := by
  rw [lookupKeyWrite]
  split
  · exact ⟨s, false, rfl, .refl hs hhold⟩
  split
  · exact ⟨s, false, rfl, .refl hs hhold⟩
  · rename_i id hkey
    obtain ⟨o, hheld⟩ := hs.inv.held k id hkey
    simp only [hheld.live, bind_eq_bind, bind_some]
    split
    · split
      · exact ⟨_, true, rfl, touched_lookedUp env hs hhold hheld.live⟩
      · exact ⟨s, true, rfl, .refl hs hhold⟩
    · exact ⟨s, false, rfl, .refl hs hhold⟩
    · obtain ⟨s', deleted, hdelete, hlooked⟩ := dbGenericDelete_returns hs hhold
      refine ⟨s', false, ?_, hlooked⟩
      rw [hdelete]
      rfl

theorem setKeyFound_returns (flags : SetKeyFlags) (hhold : Holdable s k) :
    ∃ s' found, setKeyFound hash vset env s k flags = some (s', found) ∧ LookedUp vset s s' k ∧
      (found = 0 ∨ found = 1 ∨ found = -1) := by
  rw [setKeyFound]
  split_ifs
  · exact ⟨s, 1, rfl, .refl hs hhold, .inr (.inl rfl)⟩
  · exact ⟨s, -1, rfl, .refl hs hhold, .inr (.inr rfl)⟩
  · obtain ⟨s', found, hlookup, hlooked⟩ := lookupKeyWrite_returns hash env hs hhold
    rw [hlookup]
    cases found with
    | false => exact ⟨s', 0, rfl, hlooked, .inl rfl⟩
    | true => exact ⟨s', 1, rfl, hlooked, .inr (.inl rfl)⟩
  · exact ⟨s, 0, rfl, .refl hs hhold, .inl rfl⟩

/-- With `update` the value is added or written over another one. -/
theorem dbAddInternal_returns (hk : k.length < 2 ^ 63) (hhold : Holdable s k)
    (hval : Given s val valObj) (hunkeyed : valObj.hasembkey = false) (hfits : WriteFits s k val) :
    ∃ s' new, dbAddInternal hash vset env s k val true = some (s', new) ∧ Tracked vset s' := by
  by_cases hthere : s.keys k = none
  · have hadd := dbAdd_returns hash env hs hk hthere hval hfits
    rw [dbAdd, dbAddInternal] at hadd
    rw [dbAddInternal, hthere]
    exact hadd
  · rw [dbAddInternal, if_pos]
    · exact dbSetValue_returns env hs hk hthere (fun _ => hhold) hval hunkeyed hfits
    · rw [Bool.true_and]
      exact isSome_iff_ne_none.mpr hthere

/-- The flags say the truth about the key: what `setKey` takes it for is so.  The value has room
beside it. -/
def FlagsMatch (hash : Sds → Nat) (vset : Nat → Bool) (env : Env) (s : Db) (k : Sds) (val : Nat)
    (flags : SetKeyFlags) : Prop :=
  ∀ s₁ found, setKeyFound hash vset env s k flags = some (s₁, found) →
    (found = 0 → s₁.keys k = none) ∧ (found = 1 → s₁.keys k ≠ none) ∧ WriteFits s₁ k val

theorem setKey_returns (flags : SetKeyFlags) (hk : k.length < 2 ^ 63) (hhold : Holdable s k)
    (hmatch : FlagsMatch hash vset env s k val flags) (hval : Given s val valObj)
    (hunkeyed : valObj.hasembkey = false) :
    ∃ s' new, setKey hash vset env s k val flags = some (s', new) ∧ Tracked vset s' := by
  obtain ⟨s₁, found, hfound, hlooked, hcases⟩ := setKeyFound_returns hash env hs flags hhold
  have hinv₁ := (setKeyFound_spec hs.inv hfound).1
  have hs₁ : Sound vset s₁ := ⟨hinv₁, hlooked.tracked⟩
  obtain ⟨o, hval₁, hsame⟩ := hlooked.given val valObj hval
  have hunkeyed₁ : o.hasembkey = false := hsame.text.hasembkey.trans hunkeyed
  obtain ⟨hzero, hone, hfits⟩ := hmatch s₁ found hfound
  obtain ⟨s₂, new, hwrite, htracked⟩ : ∃ s₂ new,
      (if found = 0 then dbAdd hash vset env s₁ k val
        else if found < 0 then dbAddInternal hash vset env s₁ k val true
        else dbSetValue vset env s₁ k val true) = some (s₂, new) ∧ Tracked vset s₂ := by
    rcases hcases with rfl | rfl | rfl
    · exact dbAdd_returns hash env hs₁ hk (hzero rfl) hval₁ hfits
    · exact dbSetValue_returns env hs₁ hk (hone rfl)
        (fun _ => hlooked.holdable) hval₁ hunkeyed₁ hfits
    · exact dbAddInternal_returns hash env hs₁ hk hlooked.holdable hval₁ hunkeyed₁ hfits
  have hinv₂ := (setKeyWrite_spec hinv₁ hk hval₁.owned hwrite).1
  simp only [setKey, hfound, hwrite, bind_eq_bind, bind_some, pure_def]
  split_ifs
  · obtain ⟨s₃, hremove, htracked₃⟩ := removeExpire_returns env ⟨hinv₂, htracked⟩
    rw [hremove]
    exact ⟨s₃, new, rfl, htracked₃⟩
  · exact ⟨s₂, new, rfl, htracked⟩

omit hs

/-! ### Runs -/

/-- What a caller owes: a reference that it passes on is its own, and no deadline is negative. -/
def Proper (s : Db) : Call → Prop
  | .release id => Owned s id
  | .dbAdd _ _ val => Owned s val
  | .setKey _ _ val _ => Owned s val
  | .dbReplaceValue _ _ val => Owned s val
  | .setExpire _ _ when_ => 0 ≤ when_
  | _ => True

/-- What the server asserts or relies on without a check: the key is there or not as the caller
says, an object with several references is a string, a value that is written over another one
has no key of its own, and an embedded value that gets a key has room for it. -/
def Meets (vset : Nat → Bool) (s : Db) : Call → Prop
  | .retain id => ∃ o, s.objs id = some o ∧
      (o.refcount < OBJ_STATIC_REFCOUNT ∨ o.refcount = OBJ_SHARED_REFCOUNT)
  | .dbAdd _ k val => s.keys k.bytes = none ∧ WriteFits s k.bytes val ∧
      ∃ o, s.objs val = some o ∧ Value o
  | .setKey env k val flags => Holdable s k.bytes ∧ FlagsMatch hash vset env s k.bytes val flags ∧
      ∃ o, s.objs val = some o ∧ Value o ∧ o.hasembkey = false
  | .dbReplaceValue _ k val => s.keys k.bytes ≠ none ∧ WriteFits s k.bytes val ∧
      ∃ o, s.objs val = some o ∧ Value o ∧ o.hasembkey = false
  | .setExpire _ k when_ => s.keys k.bytes ≠ none ∧ ∀ id o, s.keys k.bytes = some id →
      s.objs id = some o →
        (o.refcount = 1 ∨ o.type = .string) ∧ (o.hasexpire = false → KeyFits o k.bytes when_)
  | .dbGenericDelete k => Holdable s k.bytes
  | _ => True

theorem Owned.given (h : Owned s id) (ho : s.objs id = some o) (hv : Value o) : Given s id o := by
  obtain ⟨p, hp, -, hown⟩ := h
  obtain rfl : p = o := mem_unique hp ho
  exact ⟨ho, hv, hown⟩

theorem Owned.last (h : Owned s id) (o : ServerObject) (ho : s.objs id = some o)
    (hst : Stored s id) : 1 < o.refcount := by
  obtain ⟨p, hp, -, hown⟩ := h
  obtain rfl : p = o := mem_unique hp ho
  exact hown hst

theorem step_inv {c : Call} {b : Nat} (hi : Inv s) (hc : Proper s c)
    (h : step hash vset s c = some (s', b)) : Inv s' := by
  cases c with
  | create o =>
    simp only [step, some.injEq, Prod.mk.injEq] at h
    rw [← h.1]
    exact (Calm.alloc hi.fresh o).inv hi
  | retain id =>
    obtain ⟨_, hincr, rfl, -⟩ := map_result h
    exact (incrRefCount_calm hincr).inv hi
  | release id =>
    obtain ⟨_, hdecr, rfl, -⟩ := map_result h
    exact (decrRefCount_calm hdecr (Owned.last hc)).inv hi
  | dbAdd env k val =>
    have hadd : dbAddInternal hash vset env s k.bytes val false = some (s', b) := h
    exact (dbAddInternal_spec hi k.len_lt hc hadd).1
  | setKey env k val flags => exact (setKey_spec hi k.len_lt hc h).1
  | dbReplaceValue env k val => exact (dbSetValue_spec hi k.len_lt hc h).1
  | setExpire env k when_ => exact (setExpire_spec hi k.len_lt hc h).1
  | removeExpire env k =>
    obtain ⟨_, hremove, rfl, -⟩ := map_result h
    exact (removeExpire_spec hi hremove).1
  | dbGenericDelete k =>
    obtain ⟨_, hdelete, rfl, -⟩ := map_result h
    exact (dbGenericDelete_spec hi hdelete).1

/-- One call returns and keeps the tracking. -/
theorem step_returns {c : Call} (hs : Sound vset s) (hc : Proper s c)
    (hm : Meets hash vset s c) : ∃ s' b, step hash vset s c = some (s', b) ∧ Tracked vset s' := by
  cases c with
  | create o =>
    exact ⟨_, _, rfl, (hs.calm (Calm.alloc hs.inv.fresh o) rfl).tracked⟩
  | retain id =>
    obtain ⟨o, ho, hlt⟩ := hm
    have hincr : ∃ s', incrRefCount s id = some s' ∧
        s'.keysWithVolatileItems = s.keysWithVolatileItems := by
      rw [incrRefCount, ho]
      dsimp only
      split_ifs with hless hshared
      · exact ⟨_, rfl, rfl⟩
      · exact ⟨_, rfl, rfl⟩
      · exact absurd hlt (not_or.mpr ⟨hless, hshared⟩)
    obtain ⟨s', hincr, hv⟩ := hincr
    refine ⟨s', id, ?_, (hs.calm (incrRefCount_calm hincr) hv).tracked⟩
    rw [step, hincr]
    rfl
  | release id =>
    have howned : Owned s id := hc
    obtain ⟨o, ho, hrefs, -⟩ := howned
    obtain ⟨s', hdecr, hv⟩ := decrRefCount_returns ho hrefs
    refine ⟨s', 0, ?_, (hs.calm (decrRefCount_calm hdecr (Owned.last hc)) hv).tracked⟩
    rw [step, hdecr]
    rfl
  | dbAdd env k val =>
    obtain ⟨hnone, hfits, o, ho, hv⟩ := hm
    exact dbAdd_returns hash env hs k.len_lt hnone (Owned.given hc ho hv) hfits
  | setKey env k val flags =>
    obtain ⟨hhold, hmatch, o, ho, hv, hunkeyed⟩ := hm
    exact setKey_returns hash env hs flags k.len_lt hhold hmatch (Owned.given hc ho hv) hunkeyed
  | dbReplaceValue env k val =>
    obtain ⟨hthere, hfits, o, ho, hv, hunkeyed⟩ := hm
    exact dbSetValue_returns env hs k.len_lt hthere (fun h => absurd h (by decide))
      (Owned.given hc ho hv) hunkeyed hfits
  | setExpire env k when_ => exact setExpire_returns env hs k.len_lt hc hm.1 hm.2
  | removeExpire env k =>
    obtain ⟨s', hremove, htracked⟩ := removeExpire_returns env hs
    refine ⟨s', 0, ?_, htracked⟩
    rw [step, hremove]
    rfl
  | dbGenericDelete k =>
    obtain ⟨s', deleted, hdelete, hlooked⟩ := dbGenericDelete_returns hs hm
    refine ⟨s', 0, ?_, hlooked.tracked⟩
    rw [step, hdelete]
    rfl

/-- `expires` has exactly the objects with a deadline, and both tables have the same object. -/
structure Coherent (s : Db) : Prop where
  keyed : ∀ k id, s.keys k = some id → ∃ o, s.objs id = some o ∧ o.keyText = some k
  expires_iff : ∀ k id o, s.keys k = some id → s.objs id = some o →
    (s.expires k = some id ↔ objectGetExpire o ≠ EXPIRY_NONE)
  same : ∀ k id, s.expires k = some id → s.keys k = some id

theorem Inv.coherent (h : Inv s) : Coherent s := by
  refine ⟨fun k id hk => ?_, fun k id o hk ho => ?_, fun k id hid => ?_⟩
  · obtain ⟨o, ho⟩ := h.held k id hk
    exact ⟨o, ho.live, ho.keyed.keyText_eq⟩
  · obtain ⟨o', ho'⟩ := h.held k id hk
    obtain rfl : o = o' := mem_unique ho ho'.live
    rw [ho'.expires, expiresEntry]
    split_ifs with hnone
    · exact ⟨fun hc => absurd hc (by simp), absurd hnone⟩
    · exact ⟨fun _ => hnone, fun _ => rfl⟩
  · obtain ⟨o, hk, -, -⟩ := h.of_expires hid
    exact hk

/-- **Keys and expires stay coherent.**  After every run of calls that pass on references of their
own, both tables have the same objects, each under its key; an overwrite keeps the deadline with
`KEEPTTL` and leaves none without.  Calls that meet what the server asserts, and whose objects have
room for their keys, all return. -/
theorem tables_coherent (filter : Option Filter) (vset : Nat → Bool) (calls : List Call) :
    (Along (step hash vset) Proper (.empty filter) calls → ∀ s bs,
      run (step hash vset) (.empty filter) calls = some (s, bs) → Coherent s ∧
        ∀ env (k : Text) val flags s' new, Owned s val →
          setKey hash vset env s k.bytes val flags = some (s', new) →
            (flags.keepttl = false → getExpireWithDictIndex s' k.bytes = EXPIRY_NONE) ∧
            ∀ s₁ found, setKeyFound hash vset env s k.bytes flags = some (s₁, found) →
              s₁.keys k.bytes ≠ none → flags.keepttl = true →
                getExpireWithDictIndex s' k.bytes = getExpireWithDictIndex s k.bytes) ∧
    (Along (step hash vset) (fun s c => Proper s c ∧ Meets hash vset s c) (.empty filter) calls →
      ∃ s bs, run (step hash vset) (.empty filter) calls = some (s, bs)) := by
  constructor
  · intro halong s bs hrun
    have hi : Inv s := run_invariant (fun _ _ _ _ hi hc h => step_inv hash hi hc h)
      (inv_empty filter) halong hrun
    refine ⟨hi.coherent, fun env k val flags s' new hown h => ?_⟩
    exact (setKey_spec hi k.len_lt hown h).2
  · intro halong
    obtain ⟨s, bs, hrun, -⟩ := run_total (I := Sound vset) (fun s c hs hc => by
      obtain ⟨s', b, hstep, htracked⟩ := step_returns hash hs hc.1 hc.2
      exact ⟨s', b, hstep, step_inv hash hs.inv hc.1 hstep, htracked⟩)
      ⟨inv_empty filter, tracked_empty filter⟩ halong
    exact ⟨s, bs, hrun⟩

/-- The integer 7 as a string with four references. -/
def seven : ServerObject where
  type := .string
  encoding := .int
  hasexpire := false
  hasembkey := false
  hasembval := false
  lru := 0
  refcount := 4
  ptr := .long 7
  vitality := 255
  payload := fun _ => 0
  size := 256

def idleEnv : Env := ⟨.exact, 0, .idle 5⟩

/-- A key is added and given a deadline. -/
def expiring : List Call :=
  [.create seven, .dbAdd idleEnv ⟨[107], by decide⟩ 0,
    .setExpire idleEnv ⟨[107], by decide⟩ 1000]

/-- A key with a deadline, written over with `KEEPTTL`. -/
theorem tables_coherent_keepttl : ∃ s bs s' new,
    run (step (fun _ => 0) fun _ => false) (.empty none) expiring = some (s, bs) ∧ Coherent s ∧
      setKey (fun _ => 0) (fun _ => false) idleEnv s [107] 0 ⟨true, false, true, false, false⟩ =
        some (s', new) ∧ getExpireWithDictIndex s [107] = 1000 ∧
        getExpireWithDictIndex s' [107] = 1000 := by
  have heval : ((run (step (fun _ => 0) fun _ => false) (.empty none) expiring).map fun r =>
      ((r.1.objs 0).map (·.refcount), (r.1.keys [107]).isSome, getExpireWithDictIndex r.1 [107],
        (setKey (fun _ => 0) (fun _ => false) idleEnv r.1 [107] 0
          ⟨true, false, true, false, false⟩).isSome)) = some (some 3, true, 1000, true) := by
    decide +kernel
  obtain ⟨⟨s, bs⟩, hrun, hparts⟩ := map_eq_some_iff.mp heval
  simp only [Prod.mk.injEq] at hparts
  obtain ⟨hrefs, hthere, hget, hset⟩ := hparts
  obtain ⟨⟨s', new⟩, hset⟩ := isSome_iff_exists.mp hset
  obtain ⟨o, ho, hthree⟩ := map_eq_some_iff.mp hrefs
  have hown : Owned s 0 := ⟨o, ho, by omega, fun _ => by omega⟩
  have halong : Along (step (fun _ => 0) fun _ => false) Proper (.empty none) expiring := by
    refine ⟨trivial, fun s₁ b hstep => ⟨?_, fun _ _ _ => ⟨?_, fun _ _ _ => trivial⟩⟩⟩
    · obtain ⟨rfl, -⟩ := result_inj hstep
      exact ⟨seven, rfl, by decide, fun _ => by decide⟩
    · show (0 : Int64) ≤ 1000
      decide
  obtain ⟨hcoherent, hdeadline⟩ := (tables_coherent (fun _ => 0) none (fun _ => false) _).1 halong
    s bs hrun
  have hkeep := (hdeadline idleEnv ⟨[107], by decide⟩ 0 _ s' new hown hset).2 s 1 rfl
    (isSome_iff_ne_none.mp hthere) rfl
  exact ⟨s, bs, s', new, hrun, hcoherent, hset, hget, hkeep.trans hget⟩

/-- **A value that ends behind its object**: an embedded string of 202 bytes is added under a key of
8 bytes; the new object has room for 232 bytes and its value ends at 235, in the memory of another
object. -/
theorem dbAdd_writes_past_object :
    (createStringObjectWithKeyAndExpire .exact (List.replicate 202 118) none EXPIRY_NONE).map
      (fun o => ((objectSetKeyAndExpire .exact o (some (List.replicate 8 107)) EXPIRY_NONE).map
          fun n => (n.valRegion.map Region.stop, n.room),
        (run (step (fun _ => 0) fun _ => false) (.empty none) [.create o,
          .dbAdd idleEnv ⟨List.replicate 8 107, by decide⟩ 0]).isSome)) =
      some (some (some 235, 232), false) := by
  decide +kernel

end NexCache.Tables
