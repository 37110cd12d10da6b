import NexCache.Segcache.Records

/-!
# The index and the records it leads to

An index entry is a fingerprint and a place, and a lookup parses whatever bytes are
there.  `Points sc g e r` says that the entry `e` of bucket `g` leads to the record `r`;
then a lookup of a key accepts the entry exactly if it is the key of `r`
(`Points.entryMatches_iff`) and reads the value of `r` (`Points.segRead`).

`Served sc m` is the invariant: every entry in use leads to a record of the map `m`, and
no key has two.  A change that leaves the indexed records in place (`Keeps`) keeps it.
-/

namespace NexCache.Segcache

open Machine Buffer Lockfree Runs Function List Option

/-! ### Entries and records -/

structure Points (sc : NexSegcache) (g : Nat) (e : SegHashEntry) (r : SegRecord) : Prop where
  seg_lt : e.segIdx < sc.nSegments
  home : globalIdx (segHash r.key) = g
  fp : e.keyFp = keyFp (segHash r.key)
  bytes : readBytes (sc.segments e.segIdx).data e.itemOffset r.size = r.bytes
  inside : e.itemOffset + r.size ≤ (sc.segments e.segIdx).writeOffset

section Points

variable {sc : NexSegcache} {g : Nat} {e : SegHashEntry} {r : SegRecord}

/-- The three parts of the record. -/
theorem Points.parts (h : Points sc g e r) :
    ofLE (readBytes (sc.segments e.segIdx).data e.itemOffset 8) = r.hdr ∧
    readBytes (sc.segments e.segIdx).data (e.itemOffset + 8) r.key.len = r.key.bytes ∧
    readBytes (sc.segments e.segIdx).data (e.itemOffset + 8 + r.key.len) r.value.len
      = r.value.bytes := by
  have hall := h.bytes
  rw [← r.length_bytes, r.bytes_eq] at hall
  obtain ⟨hhdr, hrest⟩ := readBytes_split hall
  rw [length_toLE] at hhdr hrest
  obtain ⟨hkey, hval⟩ := readBytes_split hrest
  refine ⟨?_, hkey, hval⟩
  rw [hhdr, r.ofLE_hdr]

/-- **An entry answers for the key of its record and for no other.** -/
theorem Points.entryMatches_iff (h : Points sc g e r) (key : Bytes) :
    entryMatches sc key e = true ↔ r.key = key := by
  obtain ⟨hhdr, hkey, _⟩ := h.parts
  simp only [entryMatches, hhdr, r.keyLen_hdr, Bool.and_eq_true, beq_iff_eq]
  constructor
  · rintro ⟨⟨_, hlen⟩, hbytes⟩
    rw [← hlen, hkey] at hbytes
    exact SizedBytes.ext hbytes
  · rintro rfl
    exact ⟨⟨h.fp, rfl⟩, hkey⟩

theorem Points.segRead (h : Points sc g e r) (bufLen : Nat) :
    segRead sc e bufLen
      = if r.value.len > bufLen then .tooLong r.value.len else .hit r.value.bytes := by
  obtain ⟨hhdr, _, hval⟩ := h.parts
  simp only [Segcache.segRead, hhdr, r.keyLen_hdr, r.valLen_hdr, hval]

end Points

/-! ### The index -/

/-- Entry of bucket `g`, slot `s`. -/
def NexSegcache.cell (sc : NexSegcache) (g s : Nat) : Option SegHashEntry :=
  (sc.hashTable g).cell s

structure Served (sc : NexSegcache) (m : Bytes → Option Bytes) : Prop where
  points : ∀ g s e, sc.cell g s = some e → ∃ r, Points sc g e r ∧ m r.key = some r.value
  unique : ∀ key s s' e e', sc.cell (globalIdx (segHash key)) s = some e →
    sc.cell (globalIdx (segHash key)) s' = some e' →
    entryMatches sc key e = true → entryMatches sc key e' = true → s = s'

/-- What is in the index stays where it is. -/
structure Keeps (sc sc' : NexSegcache) : Prop where
  hashTable : sc'.hashTable = sc.hashTable
  points : ∀ {g s e r}, sc.cell g s = some e → Points sc g e r → Points sc' g e r
  age : ∀ {g s e}, sc.cell g s = some e →
    (sc'.segments e.segIdx).ttlBucket = (sc.segments e.segIdx).ttlBucket ∧
      (sc'.segments e.segIdx).createTime = (sc.segments e.segIdx).createTime

theorem Keeps.refl (sc : NexSegcache) : Keeps sc sc :=
  ⟨rfl, fun _ h => h, fun _ => ⟨rfl, rfl⟩⟩

variable {sc sc' : NexSegcache}

theorem Keeps.cell (h : Keeps sc sc') (g s : Nat) : sc'.cell g s = sc.cell g s := by
  rw [NexSegcache.cell, h.hashTable]
  rfl

theorem Keeps.trans {sc sc' sc'' : NexSegcache} (h : Keeps sc sc') (h' : Keeps sc' sc'') :
    Keeps sc sc'' := by
  refine ⟨h'.hashTable.trans h.hashTable, fun {g s e r} hc hp => ?_, fun {g s e} hc => ?_⟩
  · have hc' : sc'.cell g s = some e := by rw [h.cell, hc]
    exact h'.points hc' (h.points hc hp)
  · have hc' : sc'.cell g s = some e := by rw [h.cell, hc]
    exact ⟨(h'.age hc').1.trans (h.age hc).1, (h'.age hc').2.trans (h.age hc).2⟩

variable {m : Bytes → Option Bytes} {g s : Nat} {e : SegHashEntry}

theorem Served.entryMatches_keeps (h : Served sc m) (hk : Keeps sc sc')
    (hc : sc.cell g s = some e) (key : Bytes) :
    entryMatches sc' key e = entryMatches sc key e := by
  obtain ⟨r, hp, _⟩ := h.points g s e hc
  rw [Bool.eq_iff_iff, hp.entryMatches_iff, (hk.points hc hp).entryMatches_iff]

theorem Served.keeps (h : Served sc m) (hk : Keeps sc sc') : Served sc' m := by
  refine ⟨fun g s e hc => ?_, fun key s s' e e' hc hc' hm hm' => ?_⟩
  · rw [hk.cell] at hc
    obtain ⟨r, hp, hm⟩ := h.points g s e hc
    exact ⟨r, hk.points hc hp, hm⟩
  · rw [hk.cell] at hc hc'
    rw [h.entryMatches_keeps hk hc] at hm
    rw [h.entryMatches_keeps hk hc'] at hm'
    exact h.unique key s s' e e' hc hc' hm hm'

/-! ### Searching a bucket -/

variable {key : Bytes}

theorem htScan_some (h : htScan sc key = some s) :
    s < 8 ∧ ∃ e, sc.cell (globalIdx (segHash key)) s = some e ∧
      (sc.hashTable (globalIdx (segHash key))).slots s = e ∧ entryMatches sc key e = true := by
  have hmem := mem_of_find?_eq_some h
  have hs := find?_some h
  rw [Bool.and_eq_true] at hs
  rw [mem_range] at hmem
  exact ⟨hmem, _, Masked.cell_eq_some_iff.mpr ⟨hs.1, rfl⟩, rfl, hs.2⟩

theorem htScan_none (h : htScan sc key = none) (hc : sc.cell (globalIdx (segHash key)) s = some e) :
    entryMatches sc key e = false := by
  obtain ⟨hocc, rfl⟩ := Masked.cell_eq_some_iff.mp hc
  have hs := find?_eq_none.mp h s (mem_range.mpr (Masked.lt_of_occupied hocc))
  rw [hocc, Bool.true_and, Bool.not_eq_true] at hs
  exact hs

/-- Without duplicates the search finds the entry that matches. -/
theorem Served.htScan_eq (h : Served sc m) (hc : sc.cell (globalIdx (segHash key)) s = some e)
    (hm : entryMatches sc key e = true) :
    htScan sc key = some s := by
  cases hscan : htScan sc key with
  | none =>
    rw [htScan_none hscan hc] at hm
    cases hm
  | some s' =>
    obtain ⟨_, e', hc', _, hm'⟩ := htScan_some hscan
    rw [h.unique key s s' e e' hc hc' hm hm']

theorem Served.htScan_keeps (h : Served sc m) (hk : Keeps sc sc')
    (key : Bytes) : htScan sc' key = htScan sc key := by
  cases hscan : htScan sc key with
  | some s =>
    obtain ⟨_, e, hc, _, hm⟩ := htScan_some hscan
    refine (h.keeps hk).htScan_eq (e := e) ?_ ?_
    · rw [hk.cell, hc]
    · rw [h.entryMatches_keeps hk hc, hm]
  | none =>
    cases hscan' : htScan sc' key with
    | none => rfl
    | some s =>
      obtain ⟨_, e, hc, _, hm⟩ := htScan_some hscan'
      rw [hk.cell] at hc
      rw [h.entryMatches_keeps hk hc, htScan_none hscan hc] at hm
      cases hm

/-! ### Changes that keep the records -/

variable {r : SegRecord}

theorem Points.sameBody (h : Points sc g e r) (hn : sc'.nSegments = sc.nSegments)
    (hbody : (sc.segments e.segIdx).SameBody (sc'.segments e.segIdx)) : Points sc' g e r := by
  obtain ⟨next, prev, heq⟩ := hbody
  refine ⟨by rw [hn]; exact h.seg_lt, h.home, h.fp, ?_, ?_⟩
  · rw [heq]
    exact h.bytes
  · rw [heq]
    exact h.inside

theorem Expires.keeps {now : Nat} {place place' : Place}
    (h : Expires now sc place sc' place') : Keeps sc sc' :=
  ⟨h.hashTable, fun _ hp => hp.sameBody h.nSegments (h.body _),
    fun _ => ⟨(h.body _).ttlBucket, (h.body _).createTime⟩⟩

/-- A fresh segment that the index does not lead into. -/
theorem Freshened.keeps {idx b now : Nat} (h : Freshened sc sc' idx b now)
    (hidx : ∀ g s e, sc.cell g s = some e → e.segIdx ≠ idx) : Keeps sc sc' := by
  refine ⟨h.hashTable, fun hc hp => ?_, fun hc => ?_⟩
  · exact hp.sameBody h.nSegments (h.other _ (hidx _ _ _ hc))
  · have hbody := h.other _ (hidx _ _ _ hc)
    exact ⟨hbody.ttlBucket, hbody.createTime⟩

theorem keeps_setSegment (sc : NexSegcache) (idx : Nat) {seg : NexSegment} (bs : List UInt8)
    (hdata : seg.data
      = writeBytes (sc.segments idx).data (sc.segments idx).writeOffset bs)
    (hoff : (sc.segments idx).writeOffset ≤ seg.writeOffset)
    (hbucket : seg.ttlBucket = (sc.segments idx).ttlBucket)
    (htime : seg.createTime = (sc.segments idx).createTime) :
    Keeps sc (sc.setSegment idx seg) := by
  have hself : (sc.setSegment idx seg).segments idx = seg := update_self ..
  have hother : ∀ i, i ≠ idx → (sc.setSegment idx seg).segments i = sc.segments i :=
    fun i hi => update_of_ne hi _ _
  refine ⟨rfl, fun {g s e r} _ hp => ?_, fun {g s e} _ => ?_⟩
  · by_cases hi : e.segIdx = idx
    · have hin := hp.inside
      have hbytes := hp.bytes
      rw [hi] at hin hbytes
      refine ⟨hp.seg_lt, hp.home, hp.fp, ?_, ?_⟩
      · rw [hi, hself, hdata, readBytes_write_disjoint _ _ (.inl hin)]
        exact hbytes
      · rw [hi, hself]
        exact Nat.le_trans hin hoff
    · refine hp.sameBody rfl ?_
      rw [hother _ hi]
      exact .refl _
  · by_cases hi : e.segIdx = idx
    · rw [hi, hself]
      exact ⟨hbucket, htime⟩
    · rw [hother _ hi]
      exact ⟨rfl, rfl⟩

variable {idx : Nat}

theorem keeps_appended (sc : NexSegcache)
    (hword : (sc.segments idx).writeOffset + r.size < 2 ^ 32) :
    Keeps sc (sc.setSegment idx (appended (sc.segments idx) r)) := by
  refine keeps_setSegment sc idx r.bytes rfl ?_ rfl rfl
  rw [writeOffset_appended hword]
  exact Nat.le_add_right _ _

theorem keeps_takenBack (sc : NexSegcache)
    (hword : (sc.segments idx).writeOffset + r.size < 2 ^ 32) :
    Keeps sc (sc.setSegment idx (takenBack (sc.segments idx) r)) := by
  refine keeps_setSegment sc idx r.bytes rfl ?_ rfl rfl
  rw [writeOffset_takenBack hword]

/-! ### Changes of the index -/

theorem entryMatches_congr (hseg : sc'.segments = sc.segments) (key : Bytes)
    (e : SegHashEntry) : entryMatches sc' key e = entryMatches sc key e := by
  rw [entryMatches, hseg]
  rfl

theorem Points.congr (h : Points sc g e r) (hn : sc'.nSegments = sc.nSegments)
    (hseg : sc'.segments = sc.segments) : Points sc' g e r :=
  h.sameBody hn (by rw [hseg]; exact .refl _)

theorem Served.sub (h : Served sc m) (hn : sc'.nSegments = sc.nSegments)
    (hseg : sc'.segments = sc.segments)
    (hcell : ∀ g s e, sc'.cell g s = some e → sc.cell g s = some e) : Served sc' m := by
  refine ⟨fun g s e hc => ?_, fun key s s' e e' hc hc' hm hm' => ?_⟩
  · obtain ⟨r, hp, hm⟩ := h.points g s e (hcell g s e hc)
    exact ⟨r, hp.congr hn hseg, hm⟩
  · rw [entryMatches_congr hseg] at hm hm'
    exact h.unique key s s' e e' (hcell _ _ _ hc) (hcell _ _ _ hc') hm hm'

/-- A key that no entry answers for may be dropped from the map. -/
theorem Served.forget (h : Served sc m)
    (hnone : ∀ s e, sc.cell (globalIdx (segHash key)) s = some e →
      entryMatches sc key e = false) : Served sc (update m key none) := by
  refine ⟨fun g s e hc => ?_, h.unique⟩
  obtain ⟨r, hp, hm⟩ := h.points g s e hc
  refine ⟨r, hp, ?_⟩
  rw [update_of_ne, hm]
  rintro rfl
  rw [← hp.home] at hc
  have := (hp.entryMatches_iff r.key).mpr rfl
  rw [hnone s e hc] at this
  cases this

theorem cell_setBucket (sc : NexSegcache) (g : Nat) (bkt : SegHashBucket) (g' s : Nat) :
    (sc.setBucket g bkt).cell g' s = if g' = g then bkt.cell s else sc.cell g' s := by
  show (update sc.hashTable g bkt g').cell s = _
  by_cases hg : g' = g
  · rw [hg, if_pos rfl, update_self]
  · rw [if_neg hg, update_of_ne hg]
    rfl

/-- A bucket is written that differs in one cell. -/
theorem cell_setBucket_update {bkt : SegHashBucket} {g₀ : Nat} {x : Option SegHashEntry}
    (hb : bkt.cell = update (sc.hashTable g₀).cell s x) (g s' : Nat) :
    (sc.setBucket g₀ bkt).cell g s' = if g = g₀ ∧ s' = s then x else sc.cell g s' := by
  rw [cell_setBucket, hb]
  by_cases hg : g = g₀
  · by_cases hs' : s' = s
    · rw [if_pos hg, if_pos ⟨hg, hs'⟩, hs', update_self]
    · rw [if_pos hg, if_neg (fun h => hs' h.2), update_of_ne hs', hg]
      rfl
  · rw [if_neg hg, if_neg (fun h => hg h.1)]

theorem cell_htClear (sc : NexSegcache) (key : Bytes) (hs : s < 8) (g s' : Nat) :
    (htClear sc key s).cell g s'
      = if g = globalIdx (segHash key) ∧ s' = s then none else sc.cell g s' :=
  cell_setBucket_update (Masked.cell_unmark _ hs) g s'

theorem cell_of_htClear (hs : s < 8) {g s' : Nat} (h : (htClear sc key s).cell g s' = some e) :
    sc.cell g s' = some e ∧ ¬ (g = globalIdx (segHash key) ∧ s' = s) := by
  rw [cell_htClear sc key hs] at h
  by_cases hgs : g = globalIdx (segHash key) ∧ s' = s
  · rw [if_pos hgs] at h
    cases h
  · rw [if_neg hgs] at h
    exact ⟨h, hgs⟩

theorem Served.htClear (h : Served sc m) (key : Bytes) (hs : s < 8) : Served (htClear sc key s) m :=
  h.sub rfl rfl fun _ _ _ hc => (cell_of_htClear hs hc).1

/-- After its entry is cleared the index does not know the key. -/
theorem Served.htClear_none (h : Served sc m) (hscan : htScan sc key = some s) {s' : Nat}
    (hc : (Segcache.htClear sc key s).cell (globalIdx (segHash key)) s' = some e) :
    entryMatches (Segcache.htClear sc key s) key e = false := by
  obtain ⟨hs, e₀, hc₀, _, hm₀⟩ := htScan_some hscan
  obtain ⟨hc', hne⟩ := cell_of_htClear hs hc
  by_contra hm
  rw [Bool.not_eq_false] at hm
  exact hne ⟨rfl, h.unique key s' s e e₀ hc' hc₀ hm hm₀⟩

variable {off : Nat}

/-- **Where an insertion goes**: to the entry of its key, or to a free slot. -/
theorem htInsert_some (h : htInsert sc key idx off = some sc') :
    sc'.segments = sc.segments ∧ sc'.nSegments = sc.nSegments ∧
    ∃ s, (∀ g s', sc'.cell g s' = if g = globalIdx (segHash key) ∧ s' = s
        then some ⟨keyFp (segHash key), idx % 2 ^ 16, off⟩ else sc.cell g s') ∧
      (htScan sc key = some s ∨
        htScan sc key = none ∧ sc.cell (globalIdx (segHash key)) s = none) := by
  simp only [htInsert] at h
  cases hscan : htScan sc key with
  | some s =>
    rw [hscan] at h
    obtain rfl := some.inj h
    obtain ⟨_, e, hc, hslot, hm⟩ := htScan_some hscan
    refine ⟨rfl, rfl, s, ?_, .inl rfl⟩
    have hfp : e.keyFp = keyFp (segHash key) := by
      simp only [entryMatches, Bool.and_eq_true, beq_iff_eq] at hm
      exact hm.1.1
    rw [hslot, ← hfp]
    exact cell_setBucket_update (Masked.cell_setSlot _ (Masked.cell_eq_some_iff.mp hc).1 _)
  | none =>
    rw [hscan] at h
    dsimp only at h
    split at h
    · rename_i s hfree
      obtain rfl := some.inj h
      have hs := mem_range.mp (mem_of_find?_eq_some hfree)
      have hocc := find?_some hfree
      rw [Bool.not_eq_true'] at hocc
      exact ⟨rfl, rfl, s, cell_setBucket_update (Masked.cell_mark_setSlot _ hs _),
        .inr ⟨rfl, Masked.cell_eq_none_iff.mpr hocc⟩⟩
    · cases h

/-- The slot of a record of another key is not written. -/
theorem cell_htInsert_other (hins : htInsert sc key idx off = some sc') {g : Nat}
    (hc : sc.cell g s = some e) (hp : Points sc g e r) (hne : r.key ≠ key) :
    sc'.cell g s = some e := by
  obtain ⟨_, _, s₀, hcell, hslot⟩ := htInsert_some hins
  rw [hcell, if_neg, hc]
  rintro ⟨rfl, rfl⟩
  rcases hslot with hscan | ⟨_, hnone⟩
  · obtain ⟨_, e', hc', _, hm⟩ := htScan_some hscan
    obtain rfl := mem_unique hc hc'
    exact hne ((hp.entryMatches_iff key).mp hm)
  · rw [hnone] at hc
    cases hc

/-- The new entry answers for no other key. -/
theorem cell_of_htInsert
    (hp : Points sc (globalIdx (segHash r.key)) ⟨keyFp (segHash r.key), idx, off⟩ r)
    (hidx : idx < 2 ^ 16) (hins : htInsert sc r.key idx off = some sc') (hne : key ≠ r.key)
    {g : Nat} (hc : sc'.cell g s = some e) (hm : entryMatches sc key e = true) :
    sc.cell g s = some e := by
  obtain ⟨_, _, s₀, hcell, _⟩ := htInsert_some hins
  rw [hcell, Nat.mod_eq_of_lt hidx] at hc
  split at hc
  · obtain rfl := some.inj hc
    exact absurd ((hp.entryMatches_iff key).mp hm).symm hne
  · exact hc

theorem htInsert_none (h : htInsert sc key idx off = none) :
    htScan sc key = none ∧
      ∀ s < 8, ∃ e, sc.cell (globalIdx (segHash key)) s = some e := by
  simp only [htInsert] at h
  cases hscan : htScan sc key with
  | some s =>
    rw [hscan] at h
    cases h
  | none =>
    rw [hscan] at h
    dsimp only at h
    split at h
    · cases h
    · rename_i hfree
      refine ⟨rfl, fun s hs => ⟨_, Masked.cell_eq_some_iff.mpr ⟨?_, rfl⟩⟩⟩
      have := find?_eq_none.mp hfree s (mem_range.mpr hs)
      simpa using this

/-- **An insertion binds the key of the new record to its value.** -/
theorem Served.htInsert (h : Served sc m)
    (hp : Points sc (globalIdx (segHash r.key)) ⟨keyFp (segHash r.key), idx, off⟩ r)
    (hidx : idx < 2 ^ 16) (hins : htInsert sc r.key idx off = some sc') :
    Served sc' (update m r.key (some r.value)) := by
  obtain ⟨hseg, hn, s₀, hcell, hslot⟩ := htInsert_some hins
  rw [Nat.mod_eq_of_lt hidx] at hcell
  -- no other entry answers for the key
  have hothers : ∀ s e, s ≠ s₀ → sc.cell (globalIdx (segHash r.key)) s = some e →
      entryMatches sc r.key e = false := by
    intro s e hs hc
    rcases hslot with hscan | ⟨hscan, _⟩
    · obtain ⟨_, e₀, hc₀, _, hm₀⟩ := htScan_some hscan
      by_contra hm
      rw [Bool.not_eq_false] at hm
      exact hs (h.unique r.key s s₀ e e₀ hc hc₀ hm hm₀)
    · exact htScan_none hscan hc
  refine ⟨fun g s e hc => ?_, fun key s s' e e' hc hc' hm hm' => ?_⟩
  · rw [hcell] at hc
    by_cases hgs : g = globalIdx (segHash r.key) ∧ s = s₀
    · rw [if_pos hgs] at hc
      obtain rfl := some.inj hc
      rw [hgs.1]
      exact ⟨r, hp.congr hn hseg, update_self ..⟩
    · rw [if_neg hgs] at hc
      obtain ⟨r', hp', hm⟩ := h.points g s e hc
      refine ⟨r', hp'.congr hn hseg, ?_⟩
      rw [update_of_ne, hm]
      intro hkey
      have hg : g = globalIdx (segHash r.key) := by rw [← hp'.home, hkey]
      subst hg
      have := hothers s e (fun hs => hgs ⟨rfl, hs⟩) hc
      rw [(hp'.entryMatches_iff r.key).mpr hkey] at this
      cases this
  · rw [entryMatches_congr hseg] at hm hm'
    by_cases hkey : key = r.key
    · subst hkey
      have hat : ∀ {s e}, sc'.cell (globalIdx (segHash r.key)) s = some e →
          entryMatches sc r.key e = true → s = s₀ := by
        intro s e hc hm
        by_contra hs
        rw [hcell, if_neg fun hgs => hs hgs.2] at hc
        rw [hothers s e hs hc] at hm
        cases hm
      rw [hat hc hm, hat hc' hm']
    · exact h.unique key s s' e e' (cell_of_htInsert hp hidx hins hkey hc hm)
        (cell_of_htInsert hp hidx hins hkey hc' hm') hm hm'

end NexCache.Segcache
