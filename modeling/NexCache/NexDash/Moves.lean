import NexCache.Lib.Runs
import NexCache.NexDash.Resize

/-!
# What a call can do

Every call of the interface is a sequence of moves of six kinds (`NdMove`):
counting, removing an entry, rewriting an entry in place (new deadline,
promotion, new value), creating an entry, and doubling the directory.
`ndStep_moves` is the one case analysis over the code of the operations; an
invariant of the table is then a fact about the six moves.

`S` restricts the arguments of the `set` calls, `R` says whether the directory
may double.
-/

namespace NexCache.NexDash

open Machine Relation Function

/-- The slot after `nexdash_set` has overwritten it. -/
def storedSlot (sl : NexDashSlot) (key : Key) (value : Addr) (valueSize type : BitVec 32)
    (expireUs : Nat) : NexDashSlot :=
  { sl with
    valuePtr := tagSetMeta value (BitVec.ofNat 8 key.len) type (tagGetTier sl.valuePtr)
      (tagGetVer sl.valuePtr)
    expireUs32 := encodeExpire expireUs
    valueSize := valueSize }

/-- The slot after a first hit has promoted it. -/
def promotedSlot (sl : NexDashSlot) (key : Key) : NexDashSlot :=
  { sl with
    valuePtr := tagSetMeta (tagGetAddr sl.valuePtr) (BitVec.ofNat 8 key.len)
      ((tagGetType sl.valuePtr).setWidth 32) Eviction2QTier.tierProtected.code
      (tagGetVer sl.valuePtr) }

inductive NdMove (S : Key → Addr → BitVec 32 → Prop) (R : Prop) :
    NexDashTable → NexDashTable → Prop
  | count (t : NexDashTable) (stats : NexDashStats) : NdMove S R t { t with stats := stats }
  | remove {t : NexDashTable} {p : Pos} {sl : NexDashSlot} (hp : p ∈ positions t.dirSize)
      (hc : t.cell p = some sl) : NdMove S R t (ndRemoveSlot t p)
  | reexpire {t : NexDashTable} {p : Pos} {sl : NexDashSlot} (hp : p ∈ positions t.dirSize)
      (hc : t.cell p = some sl) (enc : Nat) :
      NdMove S R t (t.setSlot p { sl with expireUs32 := enc })
  | promote {t : NexDashTable} {p : Pos} {sl : NexDashSlot} {key : Key}
      (hp : p ∈ positions t.dirSize) (hc : t.cell p = some sl)
      (hm : slotMatches t key (fnv1a64 key) sl = true) :
      NdMove S R t (t.setSlot p (promotedSlot sl key))
  | store {t : NexDashTable} {p : Pos} {sl : NexDashSlot} {key : Key} {value : Addr}
      {type : BitVec 32} (hp : p ∈ positions t.dirSize) (hc : t.cell p = some sl)
      (hm : slotMatches t key (fnv1a64 key) sl = true) (hS : S key value type)
      (valueSize : BitVec 32) (expireUs : Nat) :
      NdMove S R t (ndStore t p key value valueSize type expireUs)
  | create {t t' : NexDashTable} {p : Pos} {key : Key} {value : Addr} {type : BitVec 32}
      (hkey : key.len ≠ 0) (hnew : ndProbe t key (fnv1a64 key) = none)
      (hcreate : ndCreateSlot t key (fnv1a64 key) = some (some (t', p))) (hS : S key value type)
      (valueSize : BitVec 32) (expireUs : Nat) :
      NdMove S R t (ndStore t' p key value valueSize type expireUs)
  | resize {t t' : NexDashTable} {arenaOk : Bool} (hR : R) (h : ndResize t arenaOk = some t') :
      NdMove S R t t'

/-! ### Lookup -/

variable {t : NexDashTable} {key : Key} {hash : Nat} {p : Pos}

/-- A found slot is an entry of the table that matches the key. -/
theorem ndProbe_some (hs : 0 < t.dirSize) (h : ndProbe t key hash = some p) :
    p ∈ positions t.dirSize ∧ t.cell p = some (t.slotAt p) ∧
      slotMatches t key hash (t.slotAt p) = true := by
  unfold ndProbe at h
  simp only [Option.map_eq_some_iff] at h
  obtain ⟨i, hfind, rfl⟩ := h
  have hmem : i ∈ slotIdx := mem_probeOrder.mp (List.mem_of_find?_eq_some hfind)
  have htest := List.find?_some hfind
  simp only [Bool.and_eq_true] at htest
  exact ⟨mem_positions.mpr ⟨Nat.mod_lt _ hs, hmem⟩, NexDashTable.cell_of_occupied htest.1,
    htest.2⟩

/-- A slot that matches has the hash, hence lies in the segment that is probed. -/
theorem ndProbe_none (hs : Shape t)
    (h : ndProbe t key hash = none) : ∀ sl ∈ t.contents, slotMatches t key hash sl = false := by
  intro sl hsl
  obtain ⟨p, hp, hc⟩ := NexDashTable.mem_contents.mp hsl
  obtain ⟨hocc, hslot⟩ := NexDashTable.occupied_of_cell hc
  unfold ndProbe at h
  simp only [Option.map_eq_none_iff, List.find?_eq_none] at h
  by_contra hm
  rw [Bool.not_eq_false] at hm
  have hhash : sl.keyHash = hash := by
    unfold slotMatches at hm
    simp only [Bool.and_eq_true, beq_iff_eq] at hm
    exact hm.1.1
  have hseg : hash % t.dirSize = p.1 := by
    rw [← hhash]
    exact hs.home p hp sl hc
  have hno := h p.2 (mem_probeOrder.mpr (mem_positions.mp hp).2)
  rw [hseg] at hno
  simp only [Bool.and_eq_true, not_and] at hno
  have hmatch : slotMatches t key hash (t.slotAt p) = true := by rw [hslot]; exact hm
  exact hno hocc hmatch

theorem ndProbe_eq_none_of (hs : 0 < t.dirSize)
    (h : ∀ sl ∈ t.contents, slotMatches t key hash sl = false) : ndProbe t key hash = none := by
  cases hp : ndProbe t key hash with
  | none => rfl
  | some p =>
    obtain ⟨hmem, hc, hm⟩ := ndProbe_some hs hp
    have := h _ (NexDashTable.mem_contents.mpr ⟨p, hmem, hc⟩)
    rw [hm] at this
    cases this

/-! ### The writing steps of `set` -/

theorem ndStore_eq (t : NexDashTable) (p : Pos) (key : Key) (value : Addr)
    (valueSize type : BitVec 32) (expireUs : Nat) :
    ∃ freed, ndStore t p key value valueSize type expireUs =
      { t.setSlot p (storedSlot (t.slotAt p) key value valueSize type expireUs) with
        freed := freed
        usedMemory := u64 (satSub t.usedMemory
          (if tagGetAddr (t.slotAt p).valuePtr ≠ 0#48 then (t.slotAt p).cost else 0)
            + valueSize.toNat + NEXDASH_ENTRY_OVERHEAD)
        clipped := t.clipped || decide (t.usedMemory
          < if tagGetAddr (t.slotAt p).valuePtr ≠ 0#48 then (t.slotAt p).cost else 0)
        stats := { t.stats with sets := t.stats.sets + 1 } } := by
  obtain ⟨freed, h⟩ := chargeBack_callFreeCb t (t.slotAt p).valuePtr
    (if tagGetAddr (t.slotAt p).valuePtr ≠ 0#48 then (t.slotAt p).cost else 0)
  refine ⟨freed, ?_⟩
  unfold ndStore
  simp only [h, NexDashTable.setSlot, NexDashTable.setSegment, storedSlot]

theorem cell_ndStore {sl : NexDashSlot} (hc : t.cell p = some sl) (key : Key) (value : Addr)
    (valueSize type : BitVec 32) (expireUs : Nat) :
    (ndStore t p key value valueSize type expireUs).cell
      = update t.cell p (some (storedSlot sl key value valueSize type expireUs)) := by
  obtain ⟨freed, h⟩ := ndStore_eq t p key value valueSize type expireUs
  rw [h, ← (NexDashTable.occupied_of_cell hc).2, ← NexDashTable.cell_setSlot hc]
  rfl

variable {t' : NexDashTable}

variable (h : ndCreateSlot t key hash = some (some (t', p))) {arenaOk : Bool}
include h

/-- **Everything the creation of a slot does.** -/
theorem ndCreateSlot_some :
    p.1 = hash % t.dirSize ∧ p.2 ∈ slotIdx ∧ t.cell p = none ∧
      ∃ cap, doubleTo (u32 (t.keyPool.length + key.len + 1)) 33 t.keyPoolCap = some cap ∧
        t' = { insertedTable t hash (some key) cap with
          directory := update t.directory p.1
            (filledSegment (t.directory p.1) p.2
              (ndFreshSlot t.keyPool.length hash (some key))) } := by
  unfold ndCreateSlot at h
  simp only at h
  split at h
  · simp at h
  · simp at h
  · rename_i t₁ seg i hins
    obtain ⟨rfl, rfl⟩ := Runs.result_inj (Option.some.inj h)
    obtain ⟨hi, hfree, rfl, cap, rfl, hcap⟩ := ndInsertIntoSegment_placed hins
    exact ⟨rfl, hi, hfree, cap, hcap key rfl, rfl⟩

theorem cell_ndCreateSlot :
    t'.cell = update t.cell p
      (some (ndFreshSlot t.keyPool.length hash (some key))) := by
  obtain ⟨_, hi, _, cap, _, rfl⟩ := ndCreateSlot_some h
  exact t.cell_setSegment (cell_filledSegment (t.directory p.1) hi _)

theorem cell_self_ndCreateSlot :
    t'.cell p = some (ndFreshSlot t.keyPool.length hash (some key)) := by
  rw [cell_ndCreateSlot h, update_self]

omit h

/-- The home segment of the hash has no free slot. -/
abbrev HomeFull (t : NexDashTable) (hash : Nat) : Prop :=
  ∀ i ∈ slotIdx, (t.directory (hash % t.dirSize)).cell i ≠ none

theorem ndCreateSlot_full : ndCreateSlot t key hash = some none ↔ HomeFull t hash := by
  have hiff : ndInsertIntoSegment t (t.directory (hash % t.dirSize)) (bktStartOf hash) hash
      (some key) = .full ↔ HomeFull t hash := ndInsertIntoSegment_full
  rw [← hiff]
  unfold ndCreateSlot
  simp only
  split <;> simp_all

/-- The creation spins if there is a free slot but the pool cannot grow enough. -/
theorem ndCreateSlot_none :
    ndCreateSlot t key hash = none
      ↔ (∃ i ∈ slotIdx, (t.directory (hash % t.dirSize)).cell i = none) ∧
        doubleTo (u32 (t.keyPool.length + key.len + 1)) 33 t.keyPoolCap = none := by
  have hiff : ndInsertIntoSegment t (t.directory (hash % t.dirSize)) (bktStartOf hash) hash
      (some key) = .diverges ↔ _ := ndInsertIntoSegment_diverges
  rw [← hiff]
  unfold ndCreateSlot
  simp only
  split <;> simp_all

/-! ### The outcomes of `set` -/

/-- What `set` of a non-empty key comes to, with the guard of each branch. -/
inductive SetCase (t : NexDashTable) (key : Key) (value : Addr) (valueSize type : BitVec 32)
    (expireUs now : Nat) (arenaOk : Bool) : Option (NexDashTable × Nat) → Prop
  /-- The key is there but expired: the entry is dropped and nothing is stored. -/
  | expired {p : Pos} {sl : NexDashSlot} (hp : p ∈ positions t.dirSize) (hc : t.cell p = some sl)
      (hm : slotMatches t key (fnv1a64 key) sl = true) (hexp : slotExpired sl now = true) :
      SetCase t key value valueSize type expireUs now arenaOk (some (ndRemoveSlot t p, 0))
  | overwrite {p : Pos} {sl : NexDashSlot} (hp : p ∈ positions t.dirSize)
      (hc : t.cell p = some sl) (hm : slotMatches t key (fnv1a64 key) sl = true)
      (hexp : slotExpired sl now = false) :
      SetCase t key value valueSize type expireUs now arenaOk
        (some (ndStore t p key value valueSize type expireUs, 1))
  | created {t' : NexDashTable} {p : Pos} (hnew : ndProbe t key (fnv1a64 key) = none)
      (hcreate : ndCreateSlot t key (fnv1a64 key) = some (some (t', p))) :
      SetCase t key value valueSize type expireUs now arenaOk
        (some (ndStore t' p key value valueSize type expireUs, 1))
  | spins (hnew : ndProbe t key (fnv1a64 key) = none)
      (hcreate : ndCreateSlot t key (fnv1a64 key) = none) :
      SetCase t key value valueSize type expireUs now arenaOk none
  | refused (hnew : ndProbe t key (fnv1a64 key) = none)
      (hfull : HomeFull t (fnv1a64 key)) (hresize : ndResize t arenaOk = none) :
      SetCase t key value valueSize type expireUs now arenaOk (some (t, 0))
  | doubled {t₂ t' : NexDashTable} {p : Pos} (hnew : ndProbe t key (fnv1a64 key) = none)
      (hfull : HomeFull t (fnv1a64 key)) (hresize : ndResize t arenaOk = some t₂)
      (hnew₂ : ndProbe t₂ key (fnv1a64 key) = none)
      (hcreate : ndCreateSlot t₂ key (fnv1a64 key) = some (some (t', p))) :
      SetCase t key value valueSize type expireUs now arenaOk
        (some (ndStore t' p key value valueSize type expireUs, 1))
  | doubledSpins {t₂ : NexDashTable} (hnew : ndProbe t key (fnv1a64 key) = none)
      (hfull : HomeFull t (fnv1a64 key)) (hresize : ndResize t arenaOk = some t₂)
      (hcreate : ndCreateSlot t₂ key (fnv1a64 key) = none) :
      SetCase t key value valueSize type expireUs now arenaOk none
  /-- All entries of the old segment went to the same new one. -/
  | stillFull {t₂ : NexDashTable} (hnew : ndProbe t key (fnv1a64 key) = none)
      (hfull : HomeFull t (fnv1a64 key)) (hresize : ndResize t arenaOk = some t₂)
      (hfull₂ : HomeFull t₂ (fnv1a64 key)) :
      SetCase t key value valueSize type expireUs now arenaOk (some (t₂, 0))

/-- A doubled table holds the same entries, so an absent key is still absent. -/
theorem ndProbe_ndResize {t t₂ : NexDashTable} (hs : Shape t)
    (hnew : ndProbe t key (fnv1a64 key) = none) (hresize : ndResize t arenaOk = some t₂) :
    ndProbe t₂ key (fnv1a64 key) = none := by
  obtain ⟨hcont, hs₂, ht₂⟩ := ndResize_spec hs hresize
  refine ndProbe_eq_none_of hs₂.dirPos fun sl hsl => ?_
  rw [hcont] at hsl
  have hno := ndProbe_none hs hnew sl hsl
  rw [ht₂]
  exact hno

theorem nexdashSet_case (hs : Shape t) (hkey : key.len ≠ 0) (value : Addr)
    (valueSize type : BitVec 32) (expireUs now : Nat) (arenaOk : Bool) :
    SetCase t key value valueSize type expireUs now arenaOk
      (nexdashSet t key value valueSize type expireUs now arenaOk) := by
  unfold nexdashSet ndFindSlot
  rw [if_neg hkey]
  cases hprobe : ndProbe t key (fnv1a64 key) with
  | some p =>
    obtain ⟨hp, hc, hm⟩ := ndProbe_some hs.dirPos hprobe
    cases hexp : slotExpired (t.slotAt p) now with
    | true => simpa [hexp] using SetCase.expired hp hc hm hexp
    | false => simpa [hexp] using SetCase.overwrite hp hc hm hexp
  | none =>
    cases hcreate : ndCreateSlot t key (fnv1a64 key) with
    | none => simpa [hcreate] using SetCase.spins hprobe hcreate
    | some r =>
      rcases r with _ | ⟨t', p⟩
      · have hfull := ndCreateSlot_full.mp hcreate
        cases hresize : ndResize t arenaOk with
        | none => simpa [hcreate, hresize] using SetCase.refused hprobe hfull hresize
        | some t₂ =>
          have hprobe₂ := ndProbe_ndResize hs hprobe hresize
          cases hcreate₂ : ndCreateSlot t₂ key (fnv1a64 key) with
          | none =>
            simpa [hcreate, hresize, hcreate₂]
              using SetCase.doubledSpins hprobe hfull hresize hcreate₂
          | some r =>
            rcases r with _ | ⟨t', p⟩
            · simpa [hcreate, hresize, hcreate₂] using
                SetCase.stillFull hprobe hfull hresize (ndCreateSlot_full.mp hcreate₂)
            · simpa [hcreate, hresize, hcreate₂]
                using SetCase.doubled hprobe hfull hresize hprobe₂ hcreate₂
      · simpa [hcreate] using SetCase.created hprobe hcreate

/-! ### The calls -/

section Calls

variable {S : Key → Addr → BitVec 32 → Prop} {R : Prop}

/-- The `set` calls obey `S`. -/
def NdCall.Obeys (S : Key → Addr → BitVec 32 → Prop) : NdCall → Prop
  | .set key value _ type _ _ => S key value type
  | _ => True

/-- The call is a `set` of an absent key that finds the home segment without a free
slot, and the directory can double. -/
def NdCall.Doubles (t : NexDashTable) : NdCall → Prop
  | .set key _ _ _ _ arenaOk => key.len ≠ 0 ∧ ndProbe t key (fnv1a64 key) = none ∧
      HomeFull t (fnv1a64 key) ∧ t.dirSize < u32 (t.dirSize * 2) ∧ arenaOk = true
  | _ => False

theorem moves_count (t : NexDashTable) (stats : NexDashStats) :
    ReflTransGen (NdMove S R) t { t with stats := stats } := .single (.count t stats)

theorem nexdashSet_moves {t t' : NexDashTable} (hs : Shape t) {key : Key} {value : Addr}
    {valueSize type : BitVec 32} {expireUs now rc : Nat} (hS : S key value type)
    (hR : (NdCall.set key value valueSize type expireUs arenaOk).Doubles t → R)
    (h : nexdashSet t key value valueSize type expireUs now arenaOk = some (t', rc)) :
    ReflTransGen (NdMove S R) t t' := by
  by_cases hkey : key.len = 0
  · obtain ⟨rfl, _⟩ := by simpa [nexdashSet, hkey] using h
    exact .refl
  · have hcase := nexdashSet_case hs hkey value valueSize type expireUs now arenaOk
    rw [h] at hcase
    cases hcase with
    | expired hp hc hm hexp => exact .single (.remove hp hc)
    | overwrite hp hc hm hexp => exact .single (.store hp hc hm hS valueSize expireUs)
    | created hnew hcreate => exact .single (.create hkey hnew hcreate hS valueSize expireUs)
    | refused => exact .refl
    | stillFull hnew hfull hresize =>
      exact .single (.resize (hR ⟨hkey, hnew, hfull, ndResize_isSome.mp (by rw [hresize]; rfl)⟩)
        hresize)
    | doubled hnew hfull hresize hnew₂ hcreate =>
      exact .tail (.single (.resize (hR ⟨hkey, hnew, hfull,
        ndResize_isSome.mp (by rw [hresize]; rfl)⟩) hresize))
        (.create hkey hnew₂ hcreate hS valueSize expireUs)

variable {t : NexDashTable}

/-- The three outcomes of a lookup that does not create. -/
theorem ndFindExisting_cases (hs : 0 < t.dirSize) (key : Key) (now : Nat) :
    (ndFindExisting t key now = (t, none) ∧ ndProbe t key (fnv1a64 key) = none) ∨
    (∃ p sl, p ∈ positions t.dirSize ∧ t.cell p = some sl ∧
      slotMatches t key (fnv1a64 key) sl = true ∧ slotExpired sl now = true ∧
      ndFindExisting t key now = (ndRemoveSlot t p, none)) ∨
    (∃ p sl, p ∈ positions t.dirSize ∧ t.cell p = some sl ∧ t.slotAt p = sl ∧
      slotMatches t key (fnv1a64 key) sl = true ∧ slotExpired sl now = false ∧
      ndFindExisting t key now = (t, some p)) := by
  unfold ndFindExisting
  cases hprobe : ndProbe t key (fnv1a64 key) with
  | none => exact .inl ⟨rfl, rfl⟩
  | some p =>
    obtain ⟨hp, hc, hm⟩ := ndProbe_some hs hprobe
    cases hexp : slotExpired (t.slotAt p) now with
    | true => exact .inr (.inl ⟨p, _, hp, hc, hm, hexp, by simp [hexp]⟩)
    | false => exact .inr (.inr ⟨p, _, hp, hc, rfl, hm, hexp, by simp [hexp]⟩)

theorem nexdashGet_moves (hs : Shape t) (key : Key) (now : Nat) :
    ReflTransGen (NdMove S R) t (nexdashGet t key now).1 := by
  unfold nexdashGet
  split
  · exact moves_count t _
  · split
    · exact moves_count t _
    · rcases ndFindExisting_cases hs.dirPos key now with ⟨hf, _⟩ | ⟨p, sl, hp, hc, _, _, hf⟩ |
        ⟨p, sl, hp, hc, hat, hm, _, hf⟩
      · rw [hf]
        exact moves_count t _
      · rw [hf]
        exact .tail (.single (.remove hp hc)) (.count _ _)
      · rw [hf]
        simp only [hat]
        split
        · exact .tail (.single (.promote hp hc hm)) (.count _ _)
        · exact moves_count t _

theorem nexdashDel_moves (hs : Shape t) (key : Key) :
    ReflTransGen (NdMove S R) t (nexdashDel t key).1 := by
  unfold nexdashDel
  split
  · exact .refl
  · cases hprobe : ndProbe t key (fnv1a64 key) with
    | none => exact .refl
    | some p =>
      obtain ⟨hp, hc, _⟩ := ndProbe_some hs.dirPos hprobe
      exact .tail (.single (.remove hp hc)) (.count _ _)

theorem nexdashExpire_moves (hs : Shape t) (key : Key) (expireUs now : Nat) :
    ReflTransGen (NdMove S R) t (nexdashExpire t key expireUs now).1 := by
  unfold nexdashExpire
  rcases ndFindExisting_cases hs.dirPos key now with ⟨hf, _⟩ | ⟨p, sl, hp, hc, _, _, hf⟩ |
    ⟨p, sl, hp, hc, hat, hm, _, hf⟩
  · rw [hf]
  · rw [hf]
    exact .single (.remove hp hc)
  · rw [hf]
    simp only [hat]
    exact .single (.reexpire hp hc _)

@[simp] theorem dirSize_ndRemoveSlot (t : NexDashTable) (p : Pos) :
    (ndRemoveSlot t p).dirSize = t.dirSize := by
  obtain ⟨freed, h⟩ := ndRemoveSlot_eq t p
  rw [h]

theorem ndScanExpiredSlot_moves (now : Nat) {p : Pos} (hp : p ∈ positions t.dirSize) :
    ReflTransGen (NdMove S R) t (ndScanExpiredSlot now t p) ∧
      (ndScanExpiredSlot now t p).dirSize = t.dirSize := by
  unfold ndScanExpiredSlot
  cases hc : t.cell p with
  | none => exact ⟨.refl, rfl⟩
  | some sl =>
    simp only
    split
    · exact ⟨.tail (.single (.remove hp hc)) (.count _ _), dirSize_ndRemoveSlot t p⟩
    · exact ⟨.refl, rfl⟩

theorem ndEvictSlot_moves (target : Nat) (want : Eviction2QTier)
    {acc : NexDashTable × List NexDashSlot} {p : Pos} (hp : p ∈ positions acc.1.dirSize) :
    ReflTransGen (NdMove S R) acc.1 (ndEvictSlot target want acc p).1 ∧
      (ndEvictSlot target want acc p).1.dirSize = acc.1.dirSize := by
  unfold ndEvictSlot
  split
  · cases hc : acc.1.cell p with
    | none => exact ⟨.refl, rfl⟩
    | some sl =>
      simp only
      split
      · exact ⟨.refl, rfl⟩
      · exact ⟨.tail (.single (.remove hp hc)) (.count _ _), dirSize_ndRemoveSlot acc.1 p⟩
  · exact ⟨.refl, rfl⟩

/-- A loop over slots makes moves if its body does. -/
theorem foldl_moves {β : Type} (table : β → NexDashTable) {n : Nat} {f : β → Pos → β}
    (hf : ∀ b p, p ∈ positions (table b).dirSize →
      ReflTransGen (NdMove S R) (table b) (table (f b p)) ∧
        (table (f b p)).dirSize = (table b).dirSize) :
    ∀ (ps : List Pos) (b : β), (∀ p ∈ ps, p ∈ positions n) → (table b).dirSize = n →
      ReflTransGen (NdMove S R) (table b) (table (ps.foldl f b)) ∧
        (table (ps.foldl f b)).dirSize = n := by
  intro ps
  induction ps with
  | nil => intro b _ hn; exact ⟨.refl, hn⟩
  | cons p ps ih =>
    intro b hps hn
    obtain ⟨hmv, hdir⟩ := hf b p (by rw [hn]; exact hps p (by simp))
    obtain ⟨hrest, hdir'⟩ := ih (f b p) (fun q hq => hps q (by simp [hq])) (hdir.trans hn)
    exact ⟨hmv.trans hrest, hdir'⟩

theorem nexdashScanExpired_moves (t : NexDashTable) (now : Nat) :
    ReflTransGen (NdMove S R) t (nexdashScanExpired t now) :=
  (foldl_moves (fun t => t) (fun _ _ => ndScanExpiredSlot_moves now) _ t
    (fun _ => mem_slotOrder.mp) rfl).1

theorem ndEvictPass_moves (target : Nat) (acc : NexDashTable × List NexDashSlot)
    (want : Eviction2QTier) :
    ReflTransGen (NdMove S R) acc.1 (ndEvictPass target acc want).1 :=
  (foldl_moves Prod.fst (fun _ _ => ndEvictSlot_moves target want) _ acc
    (fun _ => mem_slotOrder.mp) rfl).1

theorem ndEvict_moves (t : NexDashTable) (target : Nat) :
    ReflTransGen (NdMove S R) t (ndEvict t target).1 :=
  (ndEvictPass_moves target (t, []) .tierProbatory).trans (ndEvictPass_moves target _ _)

/-- **A call is a sequence of moves.** -/
theorem ndStep_moves {t t' : NexDashTable} (hs : Shape t) {e : NdEvent} {r : NdReply}
    (hS : e.call.Obeys S) (hR : e.call.Doubles t → R) (h : ndStep t e = some (t', r)) :
    ReflTransGen (NdMove S R) t t' := by
  obtain ⟨now, call⟩ := e
  cases call with
  | set key value valueSize type expireUs arenaOk =>
    obtain ⟨⟨t₁, rc⟩, hset, rfl, _⟩ := Runs.map_result h
    exact nexdashSet_moves hs hS hR hset
  | get key =>
    obtain ⟨rfl, _⟩ := by simpa [ndStep] using h
    exact nexdashGet_moves hs key now
  | del key =>
    obtain ⟨rfl, _⟩ := by simpa [ndStep] using h
    exact nexdashDel_moves hs key
  | expire key expireUs =>
    obtain ⟨rfl, _⟩ := by simpa [ndStep] using h
    exact nexdashExpire_moves hs key expireUs now
  | evict target =>
    obtain ⟨rfl, _⟩ := by simpa [ndStep, nexdashEvictToTarget] using h
    exact ndEvict_moves t target
  | scanExpired =>
    obtain ⟨rfl, _⟩ := by simpa [ndStep] using h
    exact nexdashScanExpired_moves t now

end Calls

end NexCache.NexDash
