import NexCache.Kvstore.SizeIndex

/-!
# Scanning all tables

`kvstoreScan` puts the index of a table into the low bits of the cursor and the table's own cursor
above them.  It shifts by `num_hashtables_bits` but takes the index out with the mask
`num_hashtables - 1`, so an index that is not kept by that mask is read back as a smaller one: the
scan then falls back behind the table it was about to enter and never ends.
-/

namespace NexCache.Kvstores

open HashTables Machine Function Runs List Multiset Option

variable {K E : Type*} {T : HashtableType K E}

/-! ### The model -/

/-- Calls from a cursor until one returns the cursor `0`, and what they passed on. -/
inductive Sweep {σ α : Type*} (call : σ → Nat → Option (Nat × σ × List α)) : σ → Nat → List α → Prop
  | last {s s' : σ} {c : Nat} {es : List α} (h : call s c = some (0, s', es)) : Sweep call s c es
  | more {s s' : σ} {c c' : Nat} {es es' : List α} (h : call s c = some (c', s', es)) (hne : c' ≠ 0)
      (rest : Sweep call s' c' es') : Sweep call s c (es ++ es')

/-- Two kinds of calls that differ in their cursors only. -/
theorem Sweep.of_calls {σ α : Type*} {call call' : σ → Nat → Option (Nat × σ × List α)}
    {I : σ → Nat → Nat → Prop} (hstep : ∀ {s c c' r}, I s c c' → call s c = some r →
      ∃ k, call' s c' = some (k, r.2) ∧ (k = 0 ↔ r.1 = 0) ∧ (r.1 ≠ 0 → I r.2.1 r.1 k))
    {s : σ} {c c' : Nat} {out : List α} (hI : I s c c') (h : Sweep call s c out) :
    Sweep call' s c' out := by
  induction h generalizing c' with
  | last hcall =>
    obtain ⟨k, hcall', hzero, -⟩ := hstep hI hcall
    exact .last (hzero.mpr rfl ▸ hcall')
  | more hcall hne _ ih =>
    obtain ⟨k, hcall', hzero, hnext⟩ := hstep hI hcall
    exact .more hcall' (mt hzero.mp hne) (ih (hnext hne))

def addHashtableIndexToCursor (kvs : Kvstore E) (didx : Option Nat) (cursor : Nat) : Nat :=
  if kvs.numHashtables = 1 then cursor
  else
    match didx with
    | none => cursor
    | some d => u64 (cursor <<< kvs.numHashtablesBits) ||| d

/-- The index, and the cursor without it. -/
def getAndClearHashtableIndexFromCursor (kvs : Kvstore E) (cursor : Nat) : Nat × Nat :=
  if kvs.numHashtables = 1 then (0, cursor)
  else (cursor &&& (kvs.numHashtables - 1), cursor >>> kvs.numHashtablesBits)

/-- Where the call goes on; `some none` if the cursor is past `onlydidx`. -/
def fastForward (kvs : Kvstore E) (onlydidx : Option Nat) (didx cursor : Nat) :
    Option (Option (Nat × Nat)) :=
  match onlydidx with
  | none => some (some (didx, cursor))
  | some only =>
    if didx < only then if only < kvs.numHashtables then some (some (only, 0)) else none
    else if only < didx then some none
    else some (some (didx, cursor))

section Model

-- `scan` is `hashtableScan`, `skipCb` the optional callback that skips a table
variable (scan : Hashtable E → Nat → Option (Nat × Hashtable E × List E))
  (skipCb : Hashtable E → Bool)

/-- The next cursor of the table, `0` if it is skipped. -/
def scanTable (kvs : Kvstore E) (didx cursor : Nat) : Option (Nat × Kvstore E × List (E × Nat)) :=
  match kvstoreGetHashtable kvs didx with
  | none => some (0, kvs, [])
  | some ht =>
    if skipCb ht then some (0, kvs, [])
    else
      (kvstoreIsImporting kvs didx).bind fun imp =>
      if imp then some (0, kvs, [])
      else
        (scan ht cursor).map fun r =>
        (r.1, freeHashtableIfNeeded (kvs.setHashtable didx (some r.2.1)) didx,
          r.2.2.map fun e => (e, didx))

/-- The cursor returned, and the entries passed to the callback with the index of their table. -/
def kvstoreScan (onlydidx : Option Nat) (kvs : Kvstore E) (cursor : Nat) :
    Option (Nat × Kvstore E × List (E × Nat)) :=
  let start := getAndClearHashtableIndexFromCursor kvs cursor
  (fastForward kvs onlydidx start.1 start.2).bind fun place =>
  match place with
  | none => some (0, kvs, [])
  | some (didx, cursor) =>
    (scanTable scan skipCb kvs didx cursor).bind fun r =>
    if r.1 = 0 then
      if onlydidx.isSome then some (0, r.2)
      else
        (kvstoreGetNextNonEmptyHashtableIndex r.2.1 didx).map fun next =>
        match next with
        | none => (0, r.2)
        | some d => (addHashtableIndexToCursor r.2.1 (some d) 0, r.2)
    else some (addHashtableIndexToCursor r.2.1 (some didx) r.1, r.2)

end Model

/-! ### Cursors -/

/-- The index as it is read back from a cursor. -/
def readBack (kvs : Kvstore E) (d : Nat) : Nat := d &&& (kvs.numHashtables - 1)

section Cursors

variable {kvs : Kvstore E} {d c : Nat}

theorem readBack_readBack : readBack kvs (readBack kvs d) = readBack kvs d := by
  rw [readBack, readBack, Nat.and_assoc, Nat.and_self]

variable (hd : d < kvs.numHashtables) (hnum : kvs.numHashtables ≤ 2 ^ kvs.numHashtablesBits)
  (hbits : kvs.numHashtablesBits ≤ 64) (hc : c < 2 ^ (64 - kvs.numHashtablesBits))
include hd hnum hbits hc

theorem add_eq (htwo : kvs.numHashtables ≠ 1) :
    addHashtableIndexToCursor kvs (some d) c = c * 2 ^ kvs.numHashtablesBits + d
      ∧ addHashtableIndexToCursor kvs (some d) c = c <<< kvs.numHashtablesBits ||| d := by
  have hfit : c * 2 ^ kvs.numHashtablesBits < 2 ^ 64 := by
    calc c * 2 ^ kvs.numHashtablesBits
        < 2 ^ (64 - kvs.numHashtablesBits) * 2 ^ kvs.numHashtablesBits :=
          Nat.mul_lt_mul_of_pos_right hc (Nat.two_pow_pos _)
      _ = 2 ^ 64 := by rw [← pow_add, Nat.sub_add_cancel hbits]
  have hor : addHashtableIndexToCursor kvs (some d) c = c <<< kvs.numHashtablesBits ||| d := by
    rw [addHashtableIndexToCursor, if_neg htwo, u64_of_lt (by rw [Nat.shiftLeft_eq]; exact hfit)]
  refine ⟨?_, hor⟩
  rw [hor, ← Nat.shiftLeft_add_eq_or_of_lt (by omega), Nat.shiftLeft_eq]

/-- What is read from a cursor is the table's cursor, and the index under the mask. -/
theorem getAndClear_add :
    getAndClearHashtableIndexFromCursor kvs (addHashtableIndexToCursor kvs (some d) c) =
    (readBack kvs d, c) := by
  by_cases hone : kvs.numHashtables = 1
  · obtain rfl : d = 0 := by omega
    rw [getAndClearHashtableIndexFromCursor, addHashtableIndexToCursor, if_pos hone, if_pos hone,
      readBack, Nat.zero_and]
  · obtain ⟨hsum, hor⟩ := add_eq hd hnum hbits hc hone
    have hhigh : c <<< kvs.numHashtablesBits &&& (kvs.numHashtables - 1) = 0 := by
      apply Nat.eq_of_testBit_eq
      intro i
      rw [Nat.testBit_and, Nat.testBit_shiftLeft, Nat.zero_testBit]
      by_cases hi : kvs.numHashtablesBits ≤ i
      · have hmask : kvs.numHashtables - 1 < 2 ^ i := by
          have := Nat.pow_le_pow_right (n := 2) (by decide) hi
          omega
        rw [Nat.testBit_lt_two_pow hmask, Bool.and_false]
      · rw [decide_eq_false hi, Bool.false_and, Bool.false_and]
    rw [getAndClearHashtableIndexFromCursor, if_neg hone]
    refine Prod.ext ?_ ?_
    · change _ &&& _ = readBack kvs d
      rw [hor, Nat.and_or_distrib_right, hhigh, Nat.zero_or, readBack]
    · change _ >>> _ = c
      rw [hsum, Nat.shiftRight_eq_div_pow, Nat.mul_comm, Nat.mul_add_div (Nat.two_pow_pos _),
        Nat.div_eq_of_lt (by omega), Nat.add_zero]

theorem add_ne_zero (hne : c ≠ 0 ∨ d ≠ 0) : addHashtableIndexToCursor kvs (some d) c ≠ 0 := by
  by_cases hone : kvs.numHashtables = 1
  · rw [addHashtableIndexToCursor, if_pos hone]
    omega
  · rw [(add_eq hd hnum hbits hc hone).1]
    have hpos := Nat.two_pow_pos kvs.numHashtablesBits
    rcases hne with hne | hne
    · have := Nat.mul_pos (Nat.pos_of_ne_zero hne) hpos
      omega
    · omega

end Cursors

/-! ### One call -/

/-- What is assumed of the scan of one table: a call leaves the entries as they are and passes on
entries of the table only, its cursors leave room for the index, and the calls from `0` on come back
to `0` and pass on every entry. -/
structure TableScan (T : HashtableType K E) (bits : Nat)
    (scan : Hashtable E → Nat → Option (Nat × Hashtable E × List E)) : Prop where
  keeps : ∀ {ht c r}, Stored T ht → scan ht c = some r →
    Stored T r.2.1 ∧ r.2.1.items.map Prod.snd = ht.items.map Prod.snd ∧
      ∀ e ∈ r.2.2, e ∈ ht.items.map Prod.snd
  fits : ∀ {ht c r}, Stored T ht → scan ht c = some r → r.1 < 2 ^ (64 - bits)
  sweeps : ∀ {ht}, Stored T ht → ∃ es, Sweep scan ht 0 es ∧ ∀ e ∈ ht.items.map Prod.snd, e ∈ es

/-- A store with one table, or one with several whose counts are right. -/
inductive Ready (T : HashtableType K E) (kvs : Kvstore E) : Prop
  | single (num_eq : kvs.numHashtables = 1) (bits_eq : kvs.numHashtablesBits = 0)
      (importing_eq : kvs.importing = ∅) (stored : ∀ d ht, kvs.hashtables d = some ht → Stored T ht)
  | several {num : Nat} (inv : Inv T num kvs)

def entriesAt (kvs : Kvstore E) (d : Nat) : Multiset E :=
  match kvstoreGetHashtable kvs d with
  | none => 0
  | some ht => ht.items.map Prod.snd

/-- The store has the same tables with the same entries. -/
structure SameContent (kvs kvs' : Kvstore E) : Prop where
  num_eq : kvs'.numHashtables = kvs.numHashtables
  bits_eq : kvs'.numHashtablesBits = kvs.numHashtablesBits
  importing_eq : kvs'.importing = kvs.importing
  entries_eq : ∀ d, entriesAt kvs' d = entriesAt kvs d

theorem SameContent.refl (kvs : Kvstore E) : SameContent kvs kvs := ⟨rfl, rfl, rfl, fun _ => rfl⟩

theorem SameContent.trans {kvs kvs' kvs'' : Kvstore E} (h : SameContent kvs kvs')
    (h' : SameContent kvs' kvs'') : SameContent kvs kvs'' :=
  ⟨h'.num_eq.trans h.num_eq, h'.bits_eq.trans h.bits_eq, h'.importing_eq.trans h.importing_eq,
    fun d => (h'.entries_eq d).trans (h.entries_eq d)⟩

theorem SameContent.readBack_eq {kvs kvs' : Kvstore E} (h : SameContent kvs kvs') (i : Nat) :
    readBack kvs' i = readBack kvs i := by
  rw [readBack, readBack, h.num_eq]

variable {ht : Hashtable E} {kvs' : Kvstore E}

theorem size_eq_card (h : Stored T ht) : ht.size = (ht.items.map Prod.snd).card := by
  obtain ⟨⟨m, hrep⟩, -⟩ := h
  rw [card_map, Hashtable.items, card_add, ← (hrep.inv.ok 0).used_eq, ← (hrep.inv.ok 1).used_eq]
  rfl

namespace Ready

variable {kvs : Kvstore E} {d c : Nat}

variable (h : Ready T kvs)
include h

theorem stored {d : Nat} (hht : kvs.hashtables d = some ht) : Stored T ht := by
  cases h with
  | single _ _ _ stored => exact stored d ht hht
  | several inv => exact inv.stored d ht hht

theorem num_pos : 0 < kvs.numHashtables := by
  cases h with
  | single num_eq => omega
  | several inv =>
    have := inv.counts.two_le
    omega

theorem num_le : kvs.numHashtables ≤ 2 ^ kvs.numHashtablesBits := by
  cases h with
  | single num_eq bits_eq =>
    rw [num_eq, bits_eq]
    decide
  | several inv => exact inv.counts.num_le

theorem bits_le : kvs.numHashtablesBits ≤ 64 := by
  cases h with
  | single _ bits_eq => omega
  | several inv =>
    have := inv.counts.bits_le
    omega

variable (hd : d < kvs.numHashtables)
include hd

theorem isImporting_eq : kvstoreIsImporting kvs d = some (decide (d ∈ kvs.importing)) := by
  cases h with
  | single num_eq _ importing_eq =>
    rw [kvstoreIsImporting, if_pos num_eq, importing_eq, decide_eq_false (Finset.notMem_empty d)]
  | several inv => exact kvstoreIsImporting_eq inv.counts.two_le hd

theorem next_spec :
    ∃ o, kvstoreGetNextNonEmptyHashtableIndex kvs d = some o ∧ match o with
      | some e => d < e ∧ e < kvs.numHashtables ∧ Counted kvs e ∧ ∀ i, d < i → i < e →
      ¬ Counted kvs i
      | none => ∀ i, d < i → i < kvs.numHashtables → ¬ Counted kvs i := by
  cases h with
  | single num_eq =>
    refine ⟨none, ?_, fun i hi hlt => by omega⟩
    rw [kvstoreGetNextNonEmptyHashtableIndex, if_pos num_eq, if_pos (by omega)]
  | several inv => exact inv.next_spec hd

theorem set {ht ht' : Hashtable E} (hht : kvs.hashtables d = some ht)
    (hst : Stored T ht') (hsize : ht'.size = ht.size) :
    Ready T (kvs.setHashtable d (some ht')) := by
  cases h with
  | single num_eq bits_eq importing_eq stored =>
    exact .single num_eq bits_eq importing_eq
      (stored_update stored fun hti heq => some.inj heq ▸ hst)
  | several inv =>
    refine .several (inv.set hd (fun hti heq => some.inj heq ▸ hst) ?_)
    rw [kvstoreHashtableSize_eq kvs hd, hht]
    exact hsize

theorem free : Ready T (freeHashtableIfNeeded kvs d) := by
  cases h with
  | single num_eq bits_eq importing_eq stored =>
    rcases free_cases kvs d with heq | ⟨n, heq⟩
    · rw [heq]
      exact .single num_eq bits_eq importing_eq stored
    · rw [heq]
      exact .single num_eq bits_eq importing_eq (stored_update stored nofun)
  | several inv => exact .several (inv.free hd)

omit hd

theorem counted_iff : Counted kvs d ↔ d ∉ kvs.importing ∧ entriesAt kvs d ≠ 0 := by
  rw [Counted, kvstoreHashtableSize, entriesAt]
  refine and_congr_right fun _ => ?_
  cases hht : kvstoreGetHashtable kvs d with
  | none => simp
  | some ht =>
    rw [kvstoreGetHashtable] at hht
    split at hht
    · change ht.size ≠ 0 ↔ ht.items.map Prod.snd ≠ 0
      rw [size_eq_card (h.stored hht), ne_eq, ne_eq, card_eq_zero]
    · cases hht

theorem counted_congr (h' : Ready T kvs') (hsame : SameContent kvs kvs') :
    Counted kvs' d ↔ Counted kvs d := by
  rw [h.counted_iff, h'.counted_iff, hsame.importing_eq, hsame.entries_eq]

omit h

end Ready

theorem entriesAt_eq {kvs : Kvstore E} {d : Nat} (hd : d < kvs.numHashtables)
    (hht : kvs.hashtables d = some ht) : entriesAt kvs d = ht.items.map Prod.snd := by
  rw [entriesAt, kvstoreGetHashtable, if_pos hd, hht]

theorem entriesAt_set_of_ne (kvs : Kvstore E) {d i : Nat} (hi : i ≠ d) (o : Option (Hashtable E)) :
    entriesAt (kvs.setHashtable d o) i = entriesAt kvs i := by
  rw [entriesAt, entriesAt, kvstoreGetHashtable, kvstoreGetHashtable,
    show (kvs.setHashtable d o).hashtables i = kvs.hashtables i from update_of_ne hi ..]
  rfl

theorem SameContent.set {kvs : Kvstore E} {d : Nat} (hd : d < kvs.numHashtables)
    {ht ht' : Hashtable E}
    (hht : kvs.hashtables d = some ht) (hitems : ht'.items.map Prod.snd = ht.items.map Prod.snd) :
    SameContent kvs (kvs.setHashtable d (some ht')) := by
  refine ⟨rfl, rfl, rfl, fun i => ?_⟩
  by_cases hi : i = d
  · subst hi
    rw [entriesAt_eq hd hht,
      entriesAt_eq (show i < (kvs.setHashtable i (some ht')).numHashtables from hd)
        (update_self ..), hitems]
  · exact entriesAt_set_of_ne kvs hi _

theorem SameContent.free {kvs : Kvstore E} (h : Ready T kvs) {d : Nat}
    (hd : d < kvs.numHashtables) : SameContent kvs (freeHashtableIfNeeded kvs d) := by
  rw [freeHashtableIfNeeded, kvstoreGetHashtable, if_pos hd]
  cases hht : kvs.hashtables d with
  | none => exact .refl kvs
  | some ht =>
    simp only
    split
    · exact .refl kvs
    · rename_i hfree
      have hzero : ht.items.map Prod.snd = 0 := by
        rw [← card_eq_zero, ← size_eq_card (h.stored hht)]
        by_contra hne
        exact hfree (.inr (.inl hne))
      refine ⟨rfl, rfl, rfl, fun i => ?_⟩
      by_cases hi : i = d
      · subst hi
        rw [entriesAt_eq hd hht, hzero, entriesAt, kvstoreGetHashtable]
        rw [show (kvs.setHashtable i none).hashtables i = none from update_self .., ite_self]
      · exact entriesAt_set_of_ne kvs hi _

section Call

variable {scan : Hashtable E → Nat → Option (Nat × Hashtable E × List E)} {kvs : Kvstore E}
  {d c cursor : Nat}

/-- No table is skipped by a callback. -/
def noSkip (_ : Hashtable E) : Bool := false

theorem scanTable_skip (h : Ready T kvs) (hd : d < kvs.numHashtables)
    (hskip : kvs.hashtables d = none ∨ d ∈ kvs.importing) :
    scanTable scan noSkip kvs d c = some (0, kvs, []) := by
  rw [scanTable, kvstoreGetHashtable, if_pos hd]
  cases hht : kvs.hashtables d with
  | none => rfl
  | some ht =>
    rcases hskip with hnone | himp
    · rw [hht] at hnone
      cases hnone
    · simp only [noSkip, Bool.false_eq_true, if_false, h.isImporting_eq hd, decide_eq_true himp,
        bind_some, if_true]

/-- A table that is scanned keeps its entries, or is freed because it has none. -/
theorem scanTable_scan (hscan : TableScan T kvs.numHashtablesBits scan) (h : Ready T kvs)
    (hd : d < kvs.numHashtables)
    (hht : kvs.hashtables d = some ht) (himp : d ∉ kvs.importing) {r : Nat × Hashtable E × List E}
    (hr : scan ht c = some r) :
    ∃ kvs', scanTable scan noSkip kvs d c = some (r.1, kvs', r.2.2.map fun e => (e, d)) ∧
      Ready T kvs'
      ∧ SameContent kvs kvs' ∧ (kvs'.hashtables d = some r.2.1 ∨ kvs'.hashtables d = none) := by
  obtain ⟨hst, hitems, -⟩ := hscan.keeps (h.stored hht) hr
  have hsize : r.2.1.size = ht.size := by rw [size_eq_card hst, size_eq_card (h.stored hht), hitems]
  have hset := h.set hd hht hst hsize
  have hd' : d < (kvs.setHashtable d (some r.2.1)).numHashtables := hd
  refine ⟨freeHashtableIfNeeded (kvs.setHashtable d (some r.2.1)) d, ?_, hset.free hd',
    (SameContent.set hd hht hitems).trans (SameContent.free hset hd'), ?_⟩
  · rw [scanTable, kvstoreGetHashtable, if_pos hd, hht]
    simp only [noSkip, Bool.false_eq_true, if_false, h.isImporting_eq hd, decide_eq_false himp,
      bind_some, hr, map_some]
  · rcases free_cases (kvs.setHashtable d (some r.2.1)) d with heq | ⟨n, heq⟩
    · rw [heq]
      exact .inl (update_self ..)
    · rw [heq]
      exact .inr (update_self ..)

theorem not_mem_entriesAt (hd : d < kvs.numHashtables) (hnone : kvs.hashtables d = none) (e : E) :
    e ∉ entriesAt kvs d := by
  rw [entriesAt, kvstoreGetHashtable, if_pos hd, hnone]
  exact notMem_zero e

variable {t : Nat × Kvstore E × List (E × Nat)}

/-- What a call for one table leaves and passes on. -/
theorem scanTable_spec (hscan : TableScan T kvs.numHashtablesBits scan) (h : Ready T kvs)
    (hd : d < kvs.numHashtables) (hr : scanTable scan noSkip kvs d c = some t) :
    Ready T t.2.1 ∧ SameContent kvs t.2.1 ∧ t.1 < 2 ^ (64 - kvs.numHashtablesBits)
      ∧ (∀ p ∈ t.2.2, p.2 = d ∧ p.1 ∈ entriesAt kvs d)
      ∧ (c = 0 → t.1 = 0 → d ∉ kvs.importing → ∀ e ∈ entriesAt kvs d, (e, d) ∈ t.2.2) := by
  by_cases hskip : kvs.hashtables d = none ∨ d ∈ kvs.importing
  · rw [scanTable_skip h hd hskip] at hr
    obtain rfl := some.inj hr
    exact ⟨h, .refl kvs, Nat.two_pow_pos _, fun p hp => absurd hp not_mem_nil,
      fun _ _ himp e he => absurd he (not_mem_entriesAt hd (hskip.resolve_right himp) e)⟩
  · rw [not_or] at hskip
    obtain ⟨ht, hht⟩ := ne_none_iff_exists'.mp hskip.1
    cases hcall : scan ht c with
    | none =>
      simp only [scanTable, kvstoreGetHashtable, if_pos hd, hht, noSkip, Bool.false_eq_true,
        if_false, h.isImporting_eq hd, decide_eq_false hskip.2, hcall, map_none, bind_some,
        reduceCtorEq] at hr
    | some q =>
      obtain ⟨kvs', htable, h', hsame, -⟩ := scanTable_scan hscan h hd hht hskip.2 hcall
      obtain rfl := some.inj (htable.symm.trans hr)
      rw [entriesAt_eq hd hht]
      refine ⟨h', hsame, hscan.fits (h.stored hht) hcall, fun p hp => ?_, ?_⟩
      · obtain ⟨e, he, rfl⟩ := mem_map.mp hp
        exact ⟨rfl, (hscan.keeps (h.stored hht) hcall).2.2 e he⟩
      · rintro rfl hdone - e he
        obtain ⟨es, hsweep, hall⟩ := hscan.sweeps (h.stored hht)
        have hes := hall e he
        cases hsweep with
        | last hlast =>
          obtain rfl := some.inj (hcall.symm.trans hlast)
          exact mem_map.mpr ⟨e, hes, rfl⟩
        | more hmore hne =>
          obtain rfl := some.inj (hcall.symm.trans hmore)
          exact absurd hdone hne

/-- A call with the cursor goes on with table `d`, at `c`. -/
def Placed (only : Option Nat) (kvs : Kvstore E) (cursor d c : Nat) : Prop :=
  fastForward kvs only (getAndClearHashtableIndexFromCursor kvs cursor).1
    (getAndClearHashtableIndexFromCursor kvs cursor).2 = some (some (d, c))

variable {only : Option Nat}

theorem placed_of_cursor (honly : ∀ o ∈ only, o = d)
    (hcur : getAndClearHashtableIndexFromCursor kvs cursor = (d, c)) :
    Placed only kvs cursor d c := by
  rw [Placed, hcur]
  cases only with
  | none => rfl
  | some o =>
    obtain rfl := honly o rfl
    simp only [fastForward, lt_irrefl, if_false]

theorem placed_none (hcur : getAndClearHashtableIndexFromCursor kvs cursor = (d, c)) :
    Placed none kvs cursor d c :=
  placed_of_cursor (fun o ho => absurd ho (not_mem_none o)) hcur

theorem scanTable_of_scan (hplace : Placed only kvs cursor d c)
    (hcall : kvstoreScan scan noSkip only kvs cursor = some t) :
    ∃ t', scanTable scan noSkip kvs d c = some t' := by
  rw [Placed] at hplace
  simp only [kvstoreScan, hplace, bind_some] at hcall
  obtain ⟨t', ht', -⟩ := bind_eq_some_iff.mp hcall
  exact ⟨t', ht'⟩

variable {r : Kvstore E × List (E × Nat)} {out : List (E × Nat)}

theorem kvstoreScan_zero (hplace : Placed none kvs cursor d c)
    (htable : scanTable scan noSkip kvs d c = some (0, r)) :
    kvstoreScan scan noSkip none kvs cursor =
    (kvstoreGetNextNonEmptyHashtableIndex r.1 d).map fun next =>
      match next with
      | none => (0, r)
      | some e => (addHashtableIndexToCursor r.1 (some e) 0, r) := by
  rw [Placed] at hplace
  simp only [kvstoreScan, hplace, bind_some, htable, if_true, isSome_none, Bool.false_eq_true,
    if_false]

theorem kvstoreScan_only {o : Nat} (hplace : Placed (some o) kvs cursor d c)
    (htable : scanTable scan noSkip kvs d c = some (0, r)) :
    kvstoreScan scan noSkip (some o) kvs cursor = some (0, r) := by
  rw [Placed] at hplace
  simp only [kvstoreScan, hplace, bind_some, htable, isSome_some, if_true]

theorem kvstoreScan_more {c' : Nat} (hne : c' ≠ 0) (hplace : Placed only kvs cursor d c)
    (htable : scanTable scan noSkip kvs d c = some (c', r)) :
    kvstoreScan scan noSkip only kvs cursor =
    some (addHashtableIndexToCursor r.1 (some d) c', r) := by
  rw [Placed] at hplace
  simp only [kvstoreScan, hplace, bind_some, htable, if_neg hne]

/-- What is left to be passed on of the table a call goes on with. -/
inductive Pending (scan : Hashtable E → Nat → Option (Nat × Hashtable E × List E)) (kvs : Kvstore E)
    (d c : Nat) : List E → Prop
  | skipped (h : kvs.hashtables d = none ∨ d ∈ kvs.importing) : Pending scan kvs d c []
  | scanned {ht : Hashtable E} {es : List E} (hht : kvs.hashtables d = some ht)
      (himp : d ∉ kvs.importing) (hsweep : Sweep scan ht c es) : Pending scan kvs d c es

/-- All entries of the tables behind `d` were passed on. -/
def Beyond (kvs : Kvstore E) (d : Nat) (out : List (E × Nat)) : Prop :=
  ∀ i, d < i → i < kvs.numHashtables → i ∉ kvs.importing → ∀ e ∈ entriesAt kvs i, (e, i) ∈ out

theorem Beyond.mono {out out' : List (E × Nat)} (h : Beyond kvs d out) (hsub : out ⊆ out') :
    Beyond kvs d out' :=
  fun i hdi hi himp e he => hsub (h i hdi hi himp e he)

/-- The cursor for a table leads back to it if the mask keeps its index. -/
theorem getAndClear_self (h : Ready T kvs) (hd : d < kvs.numHashtables) (hkept : readBack kvs d = d)
    (hc : c < 2 ^ (64 - kvs.numHashtablesBits)) :
    getAndClearHashtableIndexFromCursor kvs (addHashtableIndexToCursor kvs (some d) c) =
    (d, c) := by
  rw [getAndClear_add hd h.num_le h.bits_le hc, hkept]

theorem pending_start (hscan : TableScan T kvs.numHashtablesBits scan) (h : Ready T kvs)
    (hd : d < kvs.numHashtables) :
    ∃ es, Pending scan kvs d 0 es ∧ (d ∉ kvs.importing → ∀ e ∈ entriesAt kvs d, e ∈ es) := by
  by_cases himp : d ∈ kvs.importing
  · exact ⟨[], .skipped (.inr himp), absurd himp⟩
  · cases hht : kvs.hashtables d with
    | none =>
      exact ⟨[], .skipped (.inl hht), fun _ e he => absurd he (not_mem_entriesAt hd hht e)⟩
    | some ht =>
      obtain ⟨es, hsweep, hall⟩ := hscan.sweeps (h.stored hht)
      refine ⟨es, .scanned hht himp hsweep, fun _ => ?_⟩
      rw [entriesAt_eq hd hht]
      exact hall

section Cover

variable {kvs₀ : Kvstore E} (hscan : TableScan T kvs₀.numHashtablesBits scan)
include hscan

/-- **One table.**  The calls that its scan takes pass on what is left of it; `P` is what holds of
the rest, once the table is finished.  The induction is on the calls. -/
theorem sweep_table (honly : ∀ o ∈ only, o = d) (hd : d < kvs₀.numHashtables)
    (hkept : readBack kvs₀ d = d) {P : List (E × Nat) → Prop}
    (hadd : ∀ es out, (∀ p ∈ es, p.2 = d ∧ p.1 ∈ entriesAt kvs₀ d) → P out → P (es ++ out))
    (hleave : ∀ {kvs cursor c kvs' es}, Placed only kvs cursor d c →
      scanTable scan noSkip kvs d c = some (0, kvs', es) → Ready T kvs' → SameContent kvs₀ kvs' →
      (∀ p ∈ es, p.2 = d ∧ p.1 ∈ entriesAt kvs₀ d) →
      ∃ out, Sweep (kvstoreScan scan noSkip only) kvs cursor out ∧ es ⊆ out ∧ P out)
    {es : List E} (h : Ready T kvs) (hsame : SameContent kvs₀ kvs)
    (hplace : Placed only kvs cursor d c) (hpending : Pending scan kvs d c es) :
    ∃ out, Sweep (kvstoreScan scan noSkip only) kvs cursor out
      ∧ (∀ e ∈ es, e ∈ entriesAt kvs₀ d → (e, d) ∈ out) ∧ P out := by
  have hskip : ∀ {kvs cursor c}, Ready T kvs → SameContent kvs₀ kvs → Placed only kvs cursor d c →
      (kvs.hashtables d = none ∨ d ∈ kvs.importing) →
      ∃ out, Sweep (kvstoreScan scan noSkip only) kvs cursor out ∧ P out := by
    intro kvs cursor c h hsame hplace hnone
    obtain ⟨out, hsweep, -, hout⟩ :=
      hleave hplace (scanTable_skip h (hsame.num_eq ▸ hd) hnone) h hsame nofun
    exact ⟨out, hsweep, hout⟩
  cases hpending with
  | skipped hnone =>
    obtain ⟨out, hsweep, hout⟩ := hskip h hsame hplace hnone
    exact ⟨out, hsweep, nofun, hout⟩
  | scanned hht himp hsweep =>
    have hown : ∀ {kvs c r}, Ready T kvs → SameContent kvs₀ kvs →
        scanTable scan noSkip kvs d c = some r → ∀ p ∈ r.2.2, p.2 = d ∧ p.1 ∈ entriesAt kvs₀ d := by
      intro kvs c r h hsame htable
      rw [← hsame.entries_eq]
      exact (scanTable_spec (hsame.bits_eq ▸ hscan) h (hsame.num_eq ▸ hd) htable).2.2.2.1
    induction hsweep generalizing kvs cursor with
    | @last ht ht' c es hcall =>
      have hscan' : TableScan T kvs.numHashtablesBits scan := hsame.bits_eq ▸ hscan
      obtain ⟨kvs', htable, h', hsame', -⟩ :=
        scanTable_scan hscan' h (hsame.num_eq ▸ hd) hht himp hcall
      obtain ⟨out, hsweep, hin, hout⟩ :=
        hleave hplace htable h' (hsame.trans hsame') (hown h hsame htable)
      exact ⟨out, hsweep, fun e he _ => hin (mem_map.mpr ⟨e, he, rfl⟩), hout⟩
    | @more ht ht' c c' es es' hcall hne rest ih =>
      have hscan' : TableScan T kvs.numHashtablesBits scan := hsame.bits_eq ▸ hscan
      obtain ⟨kvs', htable, h', hsame', htab⟩ :=
        scanTable_scan hscan' h (hsame.num_eq ▸ hd) hht himp hcall
      have hall := hsame.trans hsame'
      have hd' : d < kvs'.numHashtables := by rw [hall.num_eq]; exact hd
      have hfits : c' < 2 ^ (64 - kvs'.numHashtablesBits) := by
        rw [hsame'.bits_eq]
        exact hscan'.fits (h.stored hht) hcall
      have hstep := kvstoreScan_more hne hplace htable
      have hnonzero := add_ne_zero hd' h'.num_le h'.bits_le hfits (.inl hne)
      have hplace' :=
        placed_of_cursor honly (getAndClear_self h' hd' ((hall.readBack_eq d).trans hkept) hfits)
      have hpassed := hown h hsame htable
      rcases htab with htab | htab
      · obtain ⟨out, hsweep, hin, hout⟩ := ih h' hall hplace' htab (hsame'.importing_eq.symm ▸ himp)
        refine ⟨_, .more hstep hnonzero hsweep, fun e he hentry => ?_, hadd _ _ hpassed hout⟩
        rcases mem_append.mp he with he | he
        · exact mem_append_left _ (mem_map.mpr ⟨e, he, rfl⟩)
        · exact mem_append_right _ (hin e he hentry)
      · -- the table was empty and is gone
        obtain ⟨out, hsweep, hout⟩ := hskip h' hall hplace' (.inl htab)
        refine ⟨_, .more hstep hnonzero hsweep, fun e _ hentry => ?_, hadd _ _ hpassed hout⟩
        rw [← hall.entries_eq] at hentry
        exact absurd hentry (not_mem_entriesAt hd' htab e)

omit hscan

/-- From table `d` on the calls pass on what is left of it and all entries behind. -/
def SweepsFrom (T : HashtableType K E)
    (scan : Hashtable E → Nat → Option (Nat × Hashtable E × List E))
    (kvs₀ : Kvstore E) (d : Nat) : Prop :=
  ∀ kvs cursor c es, Ready T kvs → SameContent kvs₀ kvs → Placed none kvs cursor d c →
    Pending scan kvs d c es → ∃ out, Sweep (kvstoreScan scan noSkip none) kvs cursor out
      ∧ (∀ e ∈ es, e ∈ entriesAt kvs₀ d → (e, d) ∈ out) ∧ Beyond kvs₀ d out

variable (h₀ : Ready T kvs₀) (hgood : ∀ i < kvs₀.numHashtables, Counted kvs₀ i →
  readBack kvs₀ i = i)
include hscan h₀ hgood

/-- A table is finished, and the scan moves on to the next. -/
theorem sweep_leave (ih : ∀ i, d < i → i < kvs₀.numHashtables → readBack kvs₀ i = i →
    SweepsFrom T scan kvs₀ i) (hd : d < kvs₀.numHashtables) {es : List (E × Nat)}
    (hplace : Placed none kvs cursor d c)
    (htable : scanTable scan noSkip kvs d c = some (0, kvs', es)) (h' : Ready T kvs')
    (hsame : SameContent kvs₀ kvs') :
    ∃ out, Sweep (kvstoreScan scan noSkip none) kvs cursor out ∧ es ⊆ out ∧ Beyond kvs₀ d out := by
  have hnum := hsame.num_eq
  have hcall := kvstoreScan_zero hplace htable
  obtain ⟨o, hnext, hcase⟩ := h'.next_spec (d := d) (by omega)
  simp only [hnext, map_some] at hcall
  have hempty : ∀ i, ¬ Counted kvs' i → i ∉ kvs₀.importing → ∀ e, e ∉ entriesAt kvs₀ i := by
    intro i hcount himp e he
    refine hcount ((h₀.counted_congr h' hsame).mpr (h₀.counted_iff.mpr ⟨himp, fun hzero => ?_⟩))
    rw [hzero] at he
    exact notMem_zero e he
  cases o with
  | none =>
    refine ⟨es, .last hcall, Subset.refl es, fun i hdi hi himp e he => ?_⟩
    exact absurd he (hempty i (hcase i hdi (by omega)) himp e)
  | some i =>
    obtain ⟨hdi, hi, hcount, hbetween⟩ := hcase
    have hi₀ : i < kvs₀.numHashtables := by omega
    have hkept := hgood i hi₀ ((h₀.counted_congr h' hsame).mp hcount)
    have hroom : 0 < 2 ^ (64 - kvs'.numHashtablesBits) := Nat.two_pow_pos _
    have hscan' : TableScan T kvs'.numHashtablesBits scan := hsame.bits_eq ▸ hscan
    obtain ⟨es', hpending, hall⟩ := pending_start hscan' h' hi
    obtain ⟨out, hsweep, hin, hbeyond⟩ := ih i hdi hi₀ hkept kvs' _ 0 es' h' hsame
      (placed_none (getAndClear_self h' hi ((hsame.readBack_eq i).trans hkept) hroom)) hpending
    refine ⟨es ++ out, .more hcall (add_ne_zero hi h'.num_le h'.bits_le hroom (.inr (by omega)))
      hsweep, subset_append_left _ _, fun j hdj hj himp e he => mem_append_right _ ?_⟩
    rcases Nat.lt_trichotomy j i with hji | rfl | hij
    · exact absurd he (hempty j (hbetween j hdj hji) himp e)
    · refine hin e (hall (hsame.importing_eq ▸ himp) e ?_) he
      rw [hsame.entries_eq]
      exact he
    · exact hbeyond j hij hj himp e he

/-- **From one table to the end.**  The induction is on the tables that are left. -/
theorem sweep_from : ∀ (n d : Nat), kvs₀.numHashtables - d = n → d < kvs₀.numHashtables →
    readBack kvs₀ d = d → SweepsFrom T scan kvs₀ d := by
  intro n
  induction n using Nat.strongRecOn with
  | ind n ihn =>
    intro d hn hd hkept kvs cursor c es h hsame hplace hpending
    have ih := fun i (hdi : d < i) (hi : i < kvs₀.numHashtables) =>
      ihn (kvs₀.numHashtables - i) (by omega) i rfl hi
    exact sweep_table hscan (fun _ ho => absurd ho (not_mem_none _)) hd hkept
      (fun _ _ _ hbeyond => hbeyond.mono (subset_append_right _ _))
      (fun hplace htable h' hsame' _ => sweep_leave hscan h₀ hgood ih hd hplace htable h' hsame')
      h hsame hplace hpending

end Cover

/-- Where a call leaves the cursor. -/
theorem kvstoreScan_cases (hscan : TableScan T kvs.numHashtablesBits scan) (h : Ready T kvs)
    (hd : d < kvs.numHashtables) (hplace : Placed none kvs cursor d c)
    (hcall : kvstoreScan scan noSkip none kvs cursor = some t) :
    Ready T t.2.1 ∧ SameContent kvs t.2.1
      ∧ ((∃ c', c' ≠ 0 ∧ c' < 2 ^ (64 - kvs.numHashtablesBits) ∧
        t.1 = addHashtableIndexToCursor t.2.1 (some d) c')
        ∨ ∃ o, kvstoreGetNextNonEmptyHashtableIndex t.2.1 d = some o ∧ t.1 = match o with
            | none => 0
            | some e => addHashtableIndexToCursor t.2.1 (some e) 0) := by
  obtain ⟨⟨c', kvs', es⟩, htable⟩ := scanTable_of_scan hplace hcall
  obtain ⟨h', hsame, hfits, -⟩ := scanTable_spec hscan h hd htable
  by_cases hdone : c' = 0
  · subst hdone
    rw [kvstoreScan_zero hplace htable] at hcall
    obtain ⟨o, hnext, rfl⟩ := map_eq_some_iff.mp hcall
    cases o <;> exact ⟨h', hsame, .inr ⟨_, hnext, rfl⟩⟩
  · rw [kvstoreScan_more hdone hplace htable] at hcall
    obtain rfl := some.inj hcall
    exact ⟨h', hsame, .inl ⟨c', hdone, hfits, rfl⟩⟩

/-- While a table with keys lies ahead whose index the mask does not keep, no call ends the scan:
the calls come to that table and are sent back. -/
theorem sweep_endless {kvs₀ : Kvstore E} (hscan : TableScan T kvs₀.numHashtablesBits scan)
    (h₀ : Ready T kvs₀) {bad : Nat}
    (hbad : bad < kvs₀.numHashtables) (hcount : Counted kvs₀ bad) (hlost : readBack kvs₀ bad ≠ bad)
    (hleast : ∀ i < bad, Counted kvs₀ i → readBack kvs₀ i = i)
    (hsweep : Sweep (kvstoreScan scan noSkip none) kvs cursor out) (h : Ready T kvs)
    (hsame : SameContent kvs₀ kvs)
    (hplace : Placed none kvs cursor d c) (hd : d < bad) (hkept : readBack kvs₀ d = d) :
    False := by
  -- every call returns a cursor that is not `0` and leads to a table before the lost one
  have hstep : ∀ {kvs : Kvstore E} {cursor d c : Nat} {r}, Ready T kvs → SameContent kvs₀ kvs →
      Placed none kvs cursor d c → d < bad → readBack kvs₀ d = d →
      kvstoreScan scan noSkip none kvs cursor = some r →
      r.1 ≠ 0 ∧ Ready T r.2.1 ∧ SameContent kvs₀ r.2.1
        ∧ ∃ d' c', Placed none r.2.1 r.1 d' c' ∧ d' < bad ∧ readBack kvs₀ d' = d' := by
    intro kvs cursor d c r h hsame hplace hd hkept hcall
    have hscan' : TableScan T kvs.numHashtablesBits scan := hsame.bits_eq ▸ hscan
    obtain ⟨h', hsame', hcase⟩ :=
      kvstoreScan_cases hscan' h (by rw [hsame.num_eq]; omega) hplace hcall
    have hall := hsame.trans hsame'
    have hnum := hall.num_eq
    rcases hcase with ⟨c', hne, hfits, hr⟩ | ⟨o, hnext, hr⟩
    · rw [← hsame'.bits_eq] at hfits
      refine ⟨hr ▸ add_ne_zero (by omega) h'.num_le h'.bits_le hfits (.inl hne), h', hall, d, c',
        ?_, hd, hkept⟩
      rw [hr]
      exact placed_none (getAndClear_self h' (by omega) ((hall.readBack_eq d).trans hkept) hfits)
    · obtain ⟨o', hnext', hcase'⟩ := h'.next_spec (d := d) (by omega)
      obtain rfl := mem_unique hnext hnext'
      have hcount' : Counted r.2.1 bad := (h₀.counted_congr h' hall).mpr hcount
      cases o with
      | none => exact absurd hcount' (hcase' bad hd (by omega))
      | some i =>
        obtain ⟨hdi, hi, hci, hbetween⟩ := hcase'
        have hroom : 0 < 2 ^ (64 - r.2.1.numHashtablesBits) := Nat.two_pow_pos _
        have hile : i ≤ bad := by
          by_contra hgt
          exact hbetween bad hd (by omega) hcount'
        refine ⟨hr ▸ add_ne_zero hi h'.num_le h'.bits_le hroom (.inr (by omega)), h', hall,
          readBack kvs₀ i, 0, ?_, ?_, readBack_readBack⟩
        · rw [hr]
          refine placed_none ?_
          rw [getAndClear_add hi h'.num_le h'.bits_le hroom, hall.readBack_eq]
        · rcases Nat.lt_or_eq_of_le hile with hlt | rfl
          · rw [hleast i hlt ((h₀.counted_congr h' hall).mp hci)]
            exact hlt
          · exact Nat.lt_of_le_of_ne Nat.and_le_left hlost
  induction hsweep generalizing d c with
  | last hcall => exact (hstep h hsame hplace hd hkept hcall).1 rfl
  | more hcall hne rest ih =>
    obtain ⟨-, h', hsame', d', c', hplace', hd', hkept'⟩ := hstep h hsame hplace hd hkept hcall
    exact ih h' hsame' hplace' hd' hkept'

/-- With `onlydidx` the calls pass on the entries of that table and no others. -/
theorem sweep_only {kvs₀ : Kvstore E} (hscan : TableScan T kvs₀.numHashtablesBits scan)
    (hd : d < kvs₀.numHashtables) (hkept : readBack kvs₀ d = d) {es : List E} (h : Ready T kvs)
    (hsame : SameContent kvs₀ kvs) (hplace : Placed (some d) kvs cursor d c)
    (hpending : Pending scan kvs d c es) :
    ∃ out, Sweep (kvstoreScan scan noSkip (some d)) kvs cursor out
      ∧ (∀ e ∈ es, e ∈ entriesAt kvs₀ d → (e, d) ∈ out) ∧ ∀ p ∈ out, p.2 = d ∧
      p.1 ∈ entriesAt kvs₀ d := by
  exact sweep_table hscan (fun o ho => (mem_some_iff.mp ho).symm) hd hkept
    (fun es out hes hout => forall_mem_append.mpr ⟨hes, hout⟩)
    (fun hplace htable _ _ hes => ⟨_, .last (kvstoreScan_only hplace htable), Subset.refl _,
      hes⟩)
    h hsame hplace hpending

section Lost

variable {kvs₀ : Kvstore E} (hscan : TableScan T kvs₀.numHashtablesBits scan)
  (hd : d < kvs₀.numHashtables)
include hscan hd

/-- **An index that the mask does not keep.**  Every call for that table begins at its beginning. -/
theorem restarts (hlost : readBack kvs₀ d ≠ d) (h : Ready T kvs) (hsame : SameContent kvs₀ kvs)
    (hplace : Placed (some d) kvs cursor d 0)
    (ht : scanTable scan noSkip kvs d 0 = some t) :
    ∃ next, kvstoreScan scan noSkip (some d) kvs cursor = some (next, t.2) ∧ (next = 0 ↔ t.1 = 0)
      ∧ (t.1 ≠ 0 → Ready T t.2.1 ∧ SameContent kvs₀ t.2.1 ∧ Placed (some d) t.2.1 next d 0) := by
  obtain ⟨h', hsame', hfits, -⟩ :=
    scanTable_spec (hsame.bits_eq ▸ hscan) h (hsame.num_eq ▸ hd) ht
  have hall := hsame.trans hsame'
  obtain ⟨c', r⟩ := t
  by_cases hdone : c' = 0
  · subst hdone
    exact ⟨0, kvstoreScan_only hplace ht, Iff.rfl, absurd rfl⟩
  · rw [← hsame'.bits_eq] at hfits
    have hd' : d < r.1.numHashtables := hall.num_eq ▸ hd
    refine ⟨_, kvstoreScan_more hdone hplace ht,
      iff_of_false (add_ne_zero hd' h'.num_le h'.bits_le hfits (.inl hdone)) hdone,
      fun _ => ⟨h', hall, ?_⟩⟩
    have hlt : readBack r.1 d < d :=
      Nat.lt_of_le_of_ne Nat.and_le_left (hall.readBack_eq d ▸ hlost)
    rw [Placed, getAndClear_add hd' h'.num_le h'.bits_le hfits]
    simp only [fastForward, if_pos hlt, if_pos hd']

theorem sweep_restarts_iff (hlost : readBack kvs₀ d ≠ d) (h : Ready T kvs)
    (hsame : SameContent kvs₀ kvs) (hplace : Placed (some d) kvs cursor d 0)
    (out : List (E × Nat)) : Sweep (kvstoreScan scan noSkip (some d)) kvs cursor out
      ↔ Sweep (fun kvs _ => scanTable scan noSkip kvs d 0) kvs 0 out := by
  constructor
  · refine Sweep.of_calls (I := fun kvs c _ => Ready T kvs ∧ SameContent kvs₀ kvs ∧
      Placed (some d) kvs c d 0) ?_ ⟨h, hsame, hplace⟩
    rintro kvs c - r ⟨h, hsame, hplace⟩ hcall
    obtain ⟨t, ht⟩ := scanTable_of_scan hplace hcall
    obtain ⟨next, hnext, hzero, hmore⟩ := restarts hscan hd hlost h hsame hplace ht
    obtain rfl := some.inj (hnext.symm.trans hcall)
    exact ⟨t.1, ht, hzero.symm, fun hne => hmore (mt hzero.mpr hne)⟩
  · refine Sweep.of_calls (I := fun kvs _ c => Ready T kvs ∧ SameContent kvs₀ kvs ∧
      Placed (some d) kvs c d 0) ?_ ⟨h, hsame, hplace⟩
    rintro kvs - c t ⟨h, hsame, hplace⟩ ht
    exact restarts hscan hd hlost h hsame hplace ht

/-- The last of the calls from the beginning passes on the whole table. -/
theorem restarts_cover (himp : d ∉ kvs₀.importing)
    (hsweep : Sweep (fun kvs _ => scanTable scan noSkip kvs d 0) kvs c out) (h : Ready T kvs)
    (hsame : SameContent kvs₀ kvs) :
    (∀ p ∈ out, p.2 = d ∧ p.1 ∈ entriesAt kvs₀ d) ∧ ∀ e ∈ entriesAt kvs₀ d, (e, d) ∈ out := by
  have hstep := fun {kvs t} (h : Ready T kvs) (hsame : SameContent kvs₀ kvs) =>
    scanTable_spec (c := 0) (t := t) (hsame.bits_eq ▸ hscan) h (hsame.num_eq ▸ hd)
  induction hsweep with
  | last hcall =>
    obtain ⟨-, -, -, hown, hall⟩ := hstep h hsame hcall
    rw [hsame.entries_eq] at hown hall
    exact ⟨hown, hall rfl rfl (hsame.importing_eq ▸ himp)⟩
  | more hcall _ _ ih =>
    obtain ⟨h', hsame', -, hown, -⟩ := hstep h hsame hcall
    rw [hsame.entries_eq] at hown
    obtain ⟨hown', hall⟩ := ih h' (hsame.trans hsame')
    exact ⟨forall_mem_append.mpr ⟨hown, hown'⟩, fun e he => mem_append_right _ (hall e he)⟩

end Lost

end Call

/-! ### The whole scan -/

theorem getAndClear_zero (kvs : Kvstore E) :
    getAndClearHashtableIndexFromCursor kvs 0 = (0, 0) := by
  rw [getAndClearHashtableIndexFromCursor]
  split
  · rfl
  · rw [Nat.zero_and, Nat.zero_shiftRight]

/-- **The scan covers every table exactly if the mask keeps the index of every table with keys.**
Then it ends and passes on every entry of every table that is not imported, with the index of its
table; otherwise it never ends.  Restricted to one table, it passes on the entries of that table
exactly if the mask keeps its index, or the calls from the beginning of the table come to an end. -/
theorem scan_covers_iff {scan : Hashtable E → Nat → Option (Nat × Hashtable E × List E)}
    {kvs : Kvstore E} (hscan : TableScan T kvs.numHashtablesBits scan) (h : Ready T kvs) :
    ((∃ out, Sweep (kvstoreScan scan noSkip none) kvs 0 out
        ∧ ∀ d < kvs.numHashtables, d ∉ kvs.importing → ∀ e ∈ entriesAt kvs d, (e, d) ∈ out)
      ↔ ∀ d < kvs.numHashtables, Counted kvs d → d &&& (kvs.numHashtables - 1) = d)
    ∧ ∀ only < kvs.numHashtables, only ∉ kvs.importing →
      ((∃ out, Sweep (kvstoreScan scan noSkip (some only)) kvs 0 out
          ∧ ∀ e d, (e, d) ∈ out ↔ d = only ∧ e ∈ entriesAt kvs only)
        ↔ only &&& (kvs.numHashtables - 1) = only ∨
          ∃ out, Sweep (fun kvs _ => scanTable scan noSkip kvs only 0) kvs 0 out) := by
  have hpos := h.num_pos
  have hkept : readBack kvs 0 = 0 := Nat.zero_and _
  refine ⟨⟨?_, ?_⟩, ?_⟩
  · rintro ⟨out, hsweep, -⟩
    by_contra hlost
    -- the first table that is lost
    have hex : ∃ d, d < kvs.numHashtables ∧ Counted kvs d ∧ readBack kvs d ≠ d := by
      push Not at hlost
      exact hlost
    obtain ⟨hbad, hcount, hne⟩ := Nat.find_spec hex
    refine sweep_endless hscan h hbad hcount hne (fun i hi hci => ?_) hsweep h (.refl kvs)
      (placed_none (getAndClear_zero kvs)) (Nat.pos_of_ne_zero fun hzero => ?_) hkept
    · by_contra hmoved
      exact Nat.find_min hex hi ⟨by omega, hci, hmoved⟩
    · rw [hzero] at hne
      exact hne hkept
  · intro hgood
    obtain ⟨es, hpending, hall⟩ := pending_start hscan h hpos
    obtain ⟨out, hsweep, hin, hbeyond⟩ := sweep_from hscan h hgood _ 0 rfl hpos hkept kvs 0 0 es h
      (.refl kvs) (placed_none (getAndClear_zero kvs)) hpending
    refine ⟨out, hsweep, fun d hd himp e he => ?_⟩
    rcases Nat.eq_zero_or_pos d with rfl | hlt
    · exact hin e (hall himp e he) he
    · exact hbeyond d hlt hd himp e he
  · intro only hd himp
    have hplace : Placed (some only) kvs 0 only 0 := by
      rw [Placed, getAndClear_zero]
      rcases Nat.eq_zero_or_pos only with rfl | hlt
      · simp only [fastForward, lt_irrefl, if_false]
      · simp only [fastForward, if_pos hlt, if_pos hd]
    have hcovers : ∀ {out : List (E × Nat)}, (∀ p ∈ out, p.2 = only ∧ p.1 ∈ entriesAt kvs only) →
        (∀ e ∈ entriesAt kvs only, (e, only) ∈ out) →
        ∀ e d, (e, d) ∈ out ↔ d = only ∧ e ∈ entriesAt kvs only :=
      fun hown hall e d => ⟨hown (e, d), fun ⟨hd, he⟩ => hd ▸ hall e he⟩
    by_cases hself : readBack kvs only = only
    · refine iff_of_true ?_ (.inl hself)
      obtain ⟨es, hpending, hall⟩ := pending_start hscan h hd
      obtain ⟨out, hsweep, hin, hown⟩ := sweep_only hscan hd hself h (.refl kvs) hplace hpending
      exact ⟨out, hsweep, hcovers hown fun e he => hin e (hall himp e he) he⟩
    · have hiff := sweep_restarts_iff hscan hd hself h (.refl kvs) hplace
      refine ⟨fun ⟨out, hsweep, _⟩ => .inr ⟨out, (hiff _).mp hsweep⟩, ?_⟩
      rintro (hkept | ⟨out, hsweep⟩)
      · exact absurd hkept hself
      · obtain ⟨hown, hall⟩ := restarts_cover hscan hd himp hsweep h (.refl kvs)
        exact ⟨out, (hiff _).mpr hsweep, hcovers hown hall⟩

/-- A scan that passes on a whole table in one call. -/
noncomputable def wholeTable (ht : Hashtable E) (_ : Nat) : Option (Nat × Hashtable E × List E) :=
  some (0, ht, (ht.items.map Prod.snd).toList)

theorem wholeTable_scan (T : HashtableType K E) (bits : Nat) : TableScan T bits wholeTable where
  keeps := by
    intro ht c r hst hr
    obtain rfl := some.inj hr
    exact ⟨hst, rfl, fun e he => mem_toList.mp he⟩
  fits := by
    intro ht c r _ hr
    obtain rfl := some.inj hr
    exact Nat.two_pow_pos _
  sweeps := fun _ => ⟨_, .last rfl, fun e he => mem_toList.mpr he⟩

theorem ready_three (ops : List (Op Nat Nat))
    (hops : Along (step collide) (Proper collide) threeTables ops) :
    ∃ kvs rs, run (step collide) threeTables ops = some (kvs, rs) ∧ Ready collide kvs
      ∧ kvs.numHashtables = 3 := by
  obtain ⟨kvs₀, hcreate, hinv₀⟩ :=
    kvstoreCreate_spec collide (show 2 ≤ 3 by decide) (by decide) true true .allow true
  obtain rfl : threeTables = kvs₀ := some.inj hcreate
  obtain ⟨kvs, rs, hrun, hinv⟩ := run_total (fun kvs op h hop => h.step (by decide) op hop)
    hinv₀ hops
  exact ⟨kvs, rs, hrun, .several hinv, hinv.num_eq⟩

/-- Of three tables the first and the last have keys. -/
theorem scan_covers_three :
    ∃ kvs rs out, Runs.run (step collide) threeTables [.add 0 5 true, .add 2 6 true] =
      some (kvs, rs) ∧ Sweep (kvstoreScan wholeTable noSkip none) kvs 0 out
      ∧ ∀ d < kvs.numHashtables, d ∉ kvs.importing → ∀ e ∈ entriesAt kvs d, (e, d) ∈ out := by
  obtain ⟨kvs, rs, hrun, hready, hnum⟩ :=
    ready_three [.add 0 5 true, .add 2 6 true] (by decide +kernel)
  have hkept : (run (step collide) threeTables [.add 0 5 true, .add 2 6 true]).map
      (fun r : Kvstore Nat × List Bool => decide (∀ d : Nat, d < 3 → Counted r.1 d → d &&& 2 = d)) =
        some true := by decide +kernel
  rw [hrun] at hkept
  obtain ⟨out, hsweep, hall⟩ := (scan_covers_iff (wholeTable_scan collide _) hready).1.mpr (by
    rw [hnum]
    exact of_decide_eq_true (some.inj hkept))
  exact ⟨kvs, rs, out, hrun, hsweep, hall⟩

/-- Of three tables only the middle one has a key, and `1 & 2` is `0`: the first call returns the
cursor `1`, and every later one, read as the start of table `0`, returns `1` again. -/
theorem scan_three_endless :
    ∃ kvs rs, Runs.run (step collide) threeTables [.add 1 5 true] = some (kvs, rs)
      ∧ Counted kvs 1 ∧ ¬ ∃ out, Sweep (kvstoreScan wholeTable noSkip none) kvs 0 out := by
  obtain ⟨kvs, rs, hrun, hready, hnum⟩ := ready_three [.add 1 5 true] (by decide +kernel)
  have hcounted : (run (step collide) threeTables [.add 1 5 true]).map
      (fun r : Kvstore Nat × List Bool => decide (Counted r.1 1 ∧ ∀ i : Nat, i < 1 → Counted r.1 i →
        i &&& 2 = i)) = some true := by decide +kernel
  rw [hrun] at hcounted
  obtain ⟨hcount, hleast⟩ := of_decide_eq_true (some.inj hcounted)
  refine ⟨kvs, rs, hrun, hcount, ?_⟩
  rintro ⟨out, hsweep⟩
  refine sweep_endless (wholeTable_scan collide _) hready
    (show 1 < kvs.numHashtables by omega) hcount ?_ ?_ hsweep hready
    (.refl kvs) (placed_none (getAndClear_zero kvs)) Nat.one_pos (Nat.zero_and _)
  · rw [readBack, hnum]
    decide
  · intro i hi hci
    rw [readBack, hnum]
    exact hleast i hi hci

end NexCache.Kvstores
