import NexCache.NexDash.Operations

/-!
# What the table frees

A table with a `free_cb` hands it the value of every entry that it overwrites or
removes.  One call frees at most one value, and that is the value its own key had
(`Frees`); a call that stores nothing has then unbound the key (`FreesDropped`).
-/

namespace NexCache.NexDash

open Machine Bloom

/-- At most the value of `key` is handed to `free_cb`. -/
def Frees (t t' : NexDashTable) (key : Key) : Prop :=
  t'.freed = t.freed ∨ ∃ e, absMap t key = some e ∧ t'.freed = t.freed ++ [e.value]

/-- As `Frees`, and a key whose value is freed is unbound. -/
def FreesDropped (t t' : NexDashTable) (key : Key) : Prop :=
  t'.freed = t.freed ∨
    ∃ e, absMap t key = some e ∧ t'.freed = t.freed ++ [e.value] ∧ absMap t' key = none

theorem freed_callFreeCb (t : NexDashTable) (vp : TaggedPtr) :
    (callFreeCb t vp).freed = t.freed ∨ (callFreeCb t vp).freed = t.freed ++ [tagGetAddr vp] := by
  rw [callFreeCb]
  split
  · exact .inr rfl
  · exact .inl rfl

theorem freed_callFreeCb_null {vp : TaggedPtr} (h : tagGetAddr vp = 0#48) (t : NexDashTable) :
    (callFreeCb t vp).freed = t.freed := by
  rw [callFreeCb, if_neg fun hc => hc.1 h]

section Moves

variable {t t' : NexDashTable} {p : Pos} {sl : NexDashSlot} {key : Key}

section Stored

variable (h : Good t) (hp : p ∈ positions t.dirSize) (hc : t.cell p = some sl)
  (hm : slotMatches t key (fnv1a64 key) sl = true)
include h hp hc hm

theorem Good.frees (hfreed : t'.freed = (callFreeCb t sl.valuePtr).freed) : Frees t t' key := by
  rcases freed_callFreeCb t sl.valuePtr with heq | heq
  · exact .inl (hfreed.trans heq)
  · exact .inr ⟨sl.entry, h.absMap_of_cell hp hc (h.key_of_match hp hc hm), hfreed.trans heq⟩

theorem Good.freed_store (value : Addr) (valueSize type : BitVec 32) (expireUs : Nat) :
    Frees t (ndStore t p key value valueSize type expireUs) key := by
  refine h.frees hp hc hm ?_
  rw [← (NexDashTable.occupied_of_cell hc).2]
  rfl

theorem Good.freed_remove : FreesDropped t (ndRemoveSlot t p) key := by
  have hfrees : Frees t (ndRemoveSlot t p) key := by
    refine h.frees hp hc hm ?_
    rw [← (NexDashTable.occupied_of_cell hc).2]
    rfl
  refine hfrees.imp_right fun ⟨e, he, heq⟩ => ⟨e, he, heq, ?_⟩
  rw [h.absMap_remove hp hc (h.key_of_match hp hc hm), Function.update_self]

end Stored

/-- A new slot has no value yet. -/
theorem freed_create {hash : Nat} (hcreate : ndCreateSlot t key hash = some (some (t', p)))
    (value : Addr) (valueSize type : BitVec 32) (expireUs : Nat) :
    (ndStore t' p key value valueSize type expireUs).freed = t.freed := by
  have hslot := (NexDashTable.occupied_of_cell (cell_self_ndCreateSlot hcreate)).2
  have hnull : tagGetAddr (t'.slotAt p).valuePtr = 0#48 := by
    rw [hslot]
    exact tagGetAddr_setMeta ..
  obtain ⟨_, _, _, cap, _, rfl⟩ := ndCreateSlot_some hcreate
  exact freed_callFreeCb_null hnull _

end Moves

/-! ### The calls -/

theorem Good.nexdashSet_frees {t t' : NexDashTable} (h : Good t) {key : Key} {value : Addr}
    {valueSize type : BitVec 32} {expireUs now rc : Nat} {arenaOk : Bool}
    (hset : NexDash.nexdashSet t key value valueSize type expireUs now arenaOk = some (t', rc)) :
    (rc = 1 ∧ Frees t t' key) ∨ (rc = 0 ∧ FreesDropped t t' key) := by
  by_cases hkey : key.len = 0
  · obtain ⟨rfl, rfl⟩ := by simpa [NexDash.nexdashSet, hkey] using hset
    exact .inr ⟨rfl, .inl rfl⟩
  have hcase := nexdashSet_case h.sound.shape hkey value valueSize type expireUs now arenaOk
  rw [hset] at hcase
  cases hcase with
  | expired hp hc hm hexp => exact .inr ⟨rfl, h.freed_remove hp hc hm⟩
  | overwrite hp hc hm hexp => exact .inl ⟨rfl, h.freed_store hp hc hm ..⟩
  | created hnew hcreate => exact .inl ⟨rfl, .inl (freed_create hcreate ..)⟩
  | refused => exact .inr ⟨rfl, .inl rfl⟩
  | doubled hnew hfull hresize hnew₂ hcreate =>
    refine .inl ⟨rfl, .inl ?_⟩
    rw [freed_create hcreate, (ndResize_spec h.sound.shape hresize).2.2]
  | stillFull hnew hfull hresize =>
    refine .inr ⟨rfl, .inl ?_⟩
    rw [(ndResize_spec h.sound.shape hresize).2.2]

variable {t : NexDashTable}

theorem Good.nexdashGet_frees (h : Good t) (key : Key) (now : Nat) :
    FreesDropped t (NexDash.nexdashGet t key now).1 key := by
  unfold NexDash.nexdashGet
  split
  · exact .inl rfl
  · split
    · exact .inl rfl
    · rcases NexDash.ndFindExisting_cases h.sound.shape.dirPos key now with ⟨hf, _⟩ |
        ⟨p, sl, hp, hc, hm, _, hf⟩ | ⟨p, sl, hp, hc, _, hm, _, hf⟩
      · rw [hf]
        exact .inl rfl
      · rw [hf]
        exact h.freed_remove hp hc hm
      · -- a hit may promote the entry, which frees nothing
        rw [hf]
        simp only [countHit]
        split <;> exact .inl rfl

theorem Good.nexdashExpire_frees (h : Good t) (key : Key)
    (expireUs now : Nat) : FreesDropped t (NexDash.nexdashExpire t key expireUs now).1 key := by
  rcases NexDash.ndFindExisting_cases h.sound.shape.dirPos key now with ⟨hf, _⟩ |
    ⟨p, sl, hp, hc, hm, _, hf⟩ | ⟨p, sl, hp, hc, _, hm, _, hf⟩
  · rw [NexDash.nexdashExpire, hf]
    exact .inl rfl
  · rw [NexDash.nexdashExpire, hf]
    exact h.freed_remove hp hc hm
  · rw [NexDash.nexdashExpire, hf]
    exact .inl rfl

theorem Good.nexdashDel_frees (h : Good t) (key : Key) :
    FreesDropped t (NexDash.nexdashDel t key).1 key := by
  unfold NexDash.nexdashDel
  split
  · exact .inl rfl
  · cases hprobe : ndProbe t key (fnv1a64 key) with
    | none => exact .inl rfl
    | some p =>
      obtain ⟨hp, hc, hm⟩ := ndProbe_some h.sound.shape.dirPos hprobe
      exact h.freed_remove hp hc hm

end NexCache.NexDash
