import NexCache.Lib.Bag
import NexCache.Lib.Machine
import NexCache.Lib.Runs

/-!
# Deadlines of fields

`core/subkey_ttl.c`: an unordered array of fields with their deadlines.  `subkey_ttl_expire` walks
through it under a lock; it gives the lock away around the callback for a field that is due, and
takes the entry away at the same index when it has the lock again.

Meanwhile other threads may set and clear deadlines.  `ExpireState` is the table with the place
where the walk stands, and each `ExpireAct` is one step of the walk or one call of another
thread.  The array keeps its shape whatever they do; the entry that is taken away is the one
the callback was made for as long as the other threads spare it (`relock_removes_called_iff`).

A read outside the array, for which the source has no meaning, is `none`.
-/

namespace NexCache.Core

open Machine Runs List Option Function

/-- A field of at most 255 bytes. -/
abbrev Field := SizedBytes 8

structure SubkeyEntry where
  field : Field
  expireUnix : UInt32
  deriving DecidableEq

structure SubkeyTTL where
  entries : Bag SubkeyEntry
  capacity : Nat

/-! ### The table -/

/-- `subkey_ttl_create`. -/
def subkeyTtlCreate : SubkeyTTL := ⟨⟨fun _ => ⟨.ofList 8 [], 0⟩, 0⟩, 64⟩

/-- The loops that look for a field. -/
def SubkeyTTL.find (s : SubkeyTTL) (field : Field) : Option Nat :=
  s.entries.find fun e => e.field = field

/-- The capacity when there is room for one more entry, or should be. -/
def SubkeyTTL.grown (s : SubkeyTTL) : Nat :=
  if s.entries.count ≥ s.capacity then u32 (s.capacity * 2) else s.capacity

/-- `subkey_ttl_set`; `reallocOk` is what `realloc` answers if it is called. -/
def subkeyTtlSet (s : SubkeyTTL) (field : Field) (expireUnix : UInt32) (reallocOk : Bool) :
    Option (SubkeyTTL × Int) :=
  if field.len = 0 then some (s, -1)
  else
    match s.find field with
    | some i =>
      some ({ s with entries :=
        s.entries.set i { s.entries.cells i with expireUnix := expireUnix } }, 1)
    | none =>
      if s.entries.count ≥ s.capacity ∧ ¬reallocOk then some (s, -1)
      else if s.entries.count < s.grown then
        some (⟨s.entries.push ⟨field, expireUnix⟩, s.grown⟩, 0)
      else none

/-- `subkey_ttl_clear`. -/
def subkeyTtlClear (s : SubkeyTTL) (field : Field) : SubkeyTTL × Int :=
  match s.find field with
  | some i => ({ s with entries := s.entries.swapRemove i }, 1)
  | none => (s, 0)

/-! ### The walk -/

/-- The deadline is set and not after `now`. -/
def SubkeyEntry.Due (now : UInt32) (e : SubkeyEntry) : Prop := e.expireUnix > 0 ∧ e.expireUnix ≤ now

instance (now : UInt32) (e : SubkeyEntry) : Decidable (e.Due now) :=
  inferInstanceAs (Decidable (_ ∧ _))

/-- Where `subkey_ttl_expire` stands. -/
inductive ExpirePc
  /-- at the head of the loop, with the lock -/
  | scanning (i : Nat)
  /-- without the lock, before the callback -/
  | unlocked (i : Nat)
  /-- without the lock, after the callback for this entry -/
  | called (i : Nat) (e : SubkeyEntry)
  | finished
  deriving DecidableEq

/-- Other threads can take the lock. -/
def ExpirePc.lockFree : ExpirePc → Bool
  | unlocked _ => true
  | called _ _ => true
  | _ => false

structure ExpireState where
  table : SubkeyTTL
  pc : ExpirePc
  expired : Nat

inductive ExpireAct
  | scan
  | call
  | relock
  | set (field : Field) (expireUnix : UInt32) (reallocOk : Bool)
  | clear (field : Field)

/-- `s->entries[i] = s->entries[--s->count]`; with no entries left, `count` wraps and the read is
outside. -/
def takeAway (s : SubkeyTTL) (i : Nat) : Option SubkeyTTL :=
  if s.entries.count = 0 then none else some { s with entries := s.entries.swapRemove i }

/-- One step of the walk, or one call of another thread while the lock is free.  The steps of
the walk answer `0`. -/
def expireStep (now : UInt32) (st : ExpireState) : ExpireAct → Option (ExpireState × Int)
  | .scan =>
    match st.pc with
    | .scanning i =>
      if i < st.table.entries.count then
        if (st.table.entries.cells i).Due now then some ({ st with pc := .unlocked i }, 0)
        else some ({ st with pc := .scanning (i + 1) }, 0)
      else some ({ st with pc := .finished }, 0)
    | _ => none
  | .call =>
    match st.pc with
    | .unlocked i => some ({ st with pc := .called i (st.table.entries.cells i) }, 0)
    | _ => none
  | .relock =>
    match st.pc with
    | .called i _ =>
      (takeAway st.table i).map fun s => (⟨s, .scanning i, st.expired + 1⟩, 0)
    | _ => none
  | .set field expireUnix reallocOk =>
    if st.pc.lockFree then
      (subkeyTtlSet st.table field expireUnix reallocOk).map fun r =>
        ({ st with table := r.1 }, r.2)
    else none
  | .clear field =>
    if st.pc.lockFree then
      let r := subkeyTtlClear st.table field
      some ({ st with table := r.1 }, r.2)
    else none

/-- `subkey_ttl_expire` when it has taken the lock. -/
def expireStart (s : SubkeyTTL) : ExpireState := ⟨s, .scanning 0, 0⟩

/-! ### The shape of the table -/

/-- The entries fit the array, and no field has two. -/
structure SubkeyTTL.WellFormed (s : SubkeyTTL) : Prop where
  count_le : s.entries.count ≤ s.capacity
  nodup : (s.entries.items.map SubkeyEntry.field).Nodup

section Shape

variable {s : SubkeyTTL}

theorem wellFormed_create : subkeyTtlCreate.WellFormed := ⟨by decide, nodup_nil⟩

variable (h : s.WellFormed)
include h

theorem SubkeyTTL.WellFormed.swapRemove (hpos : 0 < s.entries.count) (i : Nat) :
    SubkeyTTL.WellFormed { s with entries := s.entries.swapRemove i } := by
  have hperm := (Bag.perm_swapRemove hpos i).map SubkeyEntry.field
  refine ⟨Nat.le_trans (Nat.sub_le _ _) h.count_le, ?_⟩
  have hnodup := hperm.nodup_iff.mp h.nodup
  rw [map_cons] at hnodup
  exact (nodup_cons.mp hnodup).2

variable {i : Nat}

theorem SubkeyTTL.WellFormed.rearm (hi : i < s.entries.count) (d : UInt32) :
    SubkeyTTL.WellFormed
      { s with entries := s.entries.set i { s.entries.cells i with expireUnix := d } } := by
  obtain ⟨rest, hold, hnew⟩ := Bag.perm_update _ hi { s.entries.cells i with expireUnix := d }
  have hfields : ((s.entries.set i { s.entries.cells i with expireUnix := d }).items.map
      SubkeyEntry.field).Perm (s.entries.items.map SubkeyEntry.field) :=
    (hnew.map SubkeyEntry.field).trans (hold.map SubkeyEntry.field).symm
  exact ⟨h.count_le, hfields.nodup_iff.mpr h.nodup⟩

variable {field : Field}

theorem SubkeyTTL.WellFormed.push (hnew : s.find field = none)
    (d : UInt32) {capacity : Nat} (hroom : s.entries.count < capacity) :
    SubkeyTTL.WellFormed ⟨s.entries.push ⟨field, d⟩, capacity⟩ := by
  refine ⟨hroom, ?_⟩
  show ((s.entries.push ⟨field, d⟩).items.map SubkeyEntry.field).Nodup
  rw [Bag.items_push, map_append, map_singleton]
  refine List.Nodup.append h.nodup (nodup_singleton _) ?_
  intro f hf hf'
  rw [mem_singleton.mp hf'] at hf
  obtain ⟨e, he, heq⟩ := mem_map.mp hf
  have hno := Bag.find_eq_none hnew e he
  rw [decide_eq_false_iff_not] at hno
  exact hno heq

theorem SubkeyTTL.WellFormed.set {d : UInt32} {ok : Bool}
    {s' : SubkeyTTL} {ret : Int} (hset : subkeyTtlSet s field d ok = some (s', ret)) :
    s'.WellFormed := by
  rw [subkeyTtlSet] at hset
  split at hset
  · obtain ⟨rfl, -⟩ := result_inj hset
    exact h
  cases hfind : s.find field with
  | some i =>
    rw [hfind] at hset
    obtain ⟨rfl, -⟩ := result_inj hset
    exact h.rearm (Bag.find_eq_some hfind).1 d
  | none =>
    rw [hfind] at hset
    dsimp only at hset
    split at hset
    · obtain ⟨rfl, -⟩ := result_inj hset
      exact h
    · split at hset
      · rename_i hroom
        obtain ⟨rfl, -⟩ := result_inj hset
        exact h.push hfind d hroom
      · cases hset

theorem SubkeyTTL.WellFormed.clear (field : Field) : (subkeyTtlClear s field).1.WellFormed := by
  rw [subkeyTtlClear]
  cases hfind : s.find field with
  | none => exact h
  | some i =>
    exact h.swapRemove (Nat.lt_of_le_of_lt (Nat.zero_le i) (Bag.find_eq_some hfind).1) i

omit h

end Shape

/-! ### Steps -/

section Steps

variable {now : UInt32} {st st' : ExpireState} {a : ExpireAct} {ret : Int}

/-- The walk leaves the table alone while it looks and calls. -/
theorem table_of_scan_or_call (ha : a = .scan ∨ a = .call)
    (hstep : expireStep now st a = some (st', ret)) : st'.table = st.table := by
  rcases ha with rfl | rfl
  · cases hpc : st.pc with
    | scanning i =>
      simp only [expireStep, hpc] at hstep
      split at hstep
      · split at hstep
        all_goals obtain ⟨rfl, -⟩ := result_inj hstep; rfl
      · obtain ⟨rfl, -⟩ := result_inj hstep
        rfl
    | unlocked i | called i e | finished => simp [expireStep, hpc] at hstep
  · cases hpc : st.pc with
    | unlocked i =>
      simp only [expireStep, hpc] at hstep
      obtain ⟨rfl, -⟩ := result_inj hstep
      rfl
    | scanning i | called i e | finished => simp [expireStep, hpc] at hstep

theorem takeAway_eq_some {s s' : SubkeyTTL} :
    takeAway s i = some s' ↔
      0 < s.entries.count ∧ s' = { s with entries := s.entries.swapRemove i } := by
  rw [takeAway]
  by_cases hzero : s.entries.count = 0
  · rw [if_pos hzero]
    exact iff_of_false (by simp) fun h => Nat.ne_of_gt h.1 hzero
  · rw [if_neg hzero, some.injEq]
    exact ⟨fun h => ⟨Nat.pos_of_ne_zero hzero, h.symm⟩, fun h => h.2.symm⟩

theorem relock_of_called {e : SubkeyEntry} (hpc : st.pc = .called i e) :
    expireStep now st .relock =
      (takeAway st.table i).map fun s => (⟨s, .scanning i, st.expired + 1⟩, 0) := by
  simp only [expireStep, hpc]

theorem called_of_relock (hstep : expireStep now st .relock = some (st', ret)) :
    ∃ i e, st.pc = .called i e := by
  cases hpc : st.pc with
  | called i e => exact ⟨i, e, rfl⟩
  | scanning i | unlocked i | finished => simp [expireStep, hpc] at hstep

/-- **One step** keeps the shape of the table. -/
theorem SubkeyTTL.WellFormed.step (h : st.table.WellFormed)
    (hstep : expireStep now st a = some (st', ret)) :
    st'.table.WellFormed := by
  cases a with
  | scan => rw [table_of_scan_or_call (.inl rfl) hstep]; exact h
  | call => rw [table_of_scan_or_call (.inr rfl) hstep]; exact h
  | relock =>
    obtain ⟨i, e, hpc⟩ := called_of_relock hstep
    rw [relock_of_called hpc] at hstep
    obtain ⟨s, hs, heq⟩ := map_eq_some_iff.mp hstep
    obtain ⟨hpos, rfl⟩ := takeAway_eq_some.mp hs
    obtain ⟨rfl, -⟩ := Prod.mk.inj heq
    exact h.swapRemove hpos i
  | set field d ok =>
    rw [expireStep] at hstep
    split at hstep
    · obtain ⟨r, hr, rfl, -⟩ := map_result hstep
      exact h.set hr
    · cases hstep
  | clear field =>
    rw [expireStep] at hstep
    split at hstep
    · obtain ⟨rfl, -⟩ := result_inj hstep
      exact h.clear field
    · cases hstep

end Steps

/-! ### Removals -/

/-- One entry is taken away, that of the called field, and it was due. -/
def RemovesCalled (now : UInt32) (e : SubkeyEntry) (s s' : SubkeyTTL) : Prop :=
  ∃ x, x.field = e.field ∧ x.Due now ∧ s.entries.items.Perm (x :: s'.entries.items)

/-- If the lock is taken again now, the entry that the callback was made for goes, and it is
inside the array. -/
def Exact (now : UInt32) (st : ExpireState) : Prop :=
  ∀ i e, st.pc = .called i e → i < st.table.entries.count ∧
    ∃ st' ret, expireStep now st .relock = some (st', ret) ∧ RemovesCalled now e st.table st'.table

/-- The place of the walk while the lock is free. -/
def ExpirePc.place : ExpirePc → Option Nat
  | unlocked i => some i
  | called i _ => some i
  | _ => none

/-- What another thread may do while the walk is at the place `i`.  The field there may be set to
another deadline that is over.  No field may be cleared if that of the walk is the last one; and
this one itself only before the callback, if the last field, which then takes its place, is due. -/
def Spares (now : UInt32) (st : ExpireState) : ExpireAct → Prop
  | .set field d _ => ∀ i ∈ st.pc.place, (st.table.entries.cells i).field = field →
      field.len ≠ 0 → 0 < d ∧ d ≤ now
  | .clear field => ∀ i ∈ st.pc.place, (st.table.find field).isSome →
      i + 1 < st.table.entries.count ∧
        ((st.table.entries.cells i).field = field →
          st.pc = .unlocked i ∧ (st.table.entries.cells (st.table.entries.count - 1)).Due now)
  | _ => True

/-- The place of the walk is inside the array, its entry is due, and it is the called one. -/
def Held (now : UInt32) (st : ExpireState) : Prop :=
  ∀ i ∈ st.pc.place, i < st.table.entries.count ∧ (st.table.entries.cells i).Due now ∧
    ∀ e, st.pc = .called i e → (st.table.entries.cells i).field = e.field

theorem removesCalled_iff {now : UInt32} {s : SubkeyTTL} (hi : i < s.entries.count)
    (e : SubkeyEntry) :
    RemovesCalled now e s { s with entries := s.entries.swapRemove i } ↔
      (s.entries.cells i).field = e.field ∧ (s.entries.cells i).Due now := by
  have hperm := Bag.perm_swapRemove_of_lt hi
  constructor
  · rintro ⟨x, hfield, hdue, hx⟩
    -- the same items are left, so the same item was taken
    have heq : [x].Perm [s.entries.cells i] :=
      (perm_append_right_iff (s.entries.swapRemove i).items).mp (hx.symm.trans hperm)
    obtain rfl := singleton_perm_singleton.mp heq
    exact ⟨hfield, hdue⟩
  · rintro ⟨hfield, hdue⟩
    exact ⟨_, hfield, hdue, hperm⟩

section Windows

variable {now : UInt32} {st st' : ExpireState} {a : ExpireAct} {ret : Int}

theorem exact_called_iff {e : SubkeyEntry} (hpc : st.pc = .called i e) :
    Exact now st ↔ i < st.table.entries.count ∧ (st.table.entries.cells i).field = e.field ∧
      (st.table.entries.cells i).Due now := by
  have hrelock : i < st.table.entries.count → expireStep now st .relock = some
      (⟨{ st.table with entries := st.table.entries.swapRemove i }, .scanning i, st.expired + 1⟩,
          0) := by
    intro hi
    rw [relock_of_called hpc, takeAway_eq_some.mpr ⟨Nat.zero_lt_of_lt hi, rfl⟩]
    rfl
  constructor
  · intro h
    obtain ⟨hi, st', ret, hstep, hrem⟩ := h i e hpc
    rw [hrelock hi] at hstep
    obtain ⟨rfl, -⟩ := result_inj hstep
    exact ⟨hi, (removesCalled_iff hi e).mp hrem⟩
  · rintro ⟨hi, hplace⟩ i' e' hpc'
    rw [hpc] at hpc'
    cases hpc'
    exact ⟨hi, _, 0, hrelock hi, (removesCalled_iff hi e).mpr hplace⟩

/-- The entry is held iff the removal will be exact if the walk goes on at once. -/
theorem held_iff : Held now st ↔
    Exact now st ∧ ∀ st' ret, expireStep now st .call = some (st', ret) → Exact now st' := by
  cases hpc : st.pc with
  | scanning i | finished =>
    simp only [Held, Exact, expireStep, hpc, ExpirePc.place]
    simp
  | unlocked i =>
    have hcalled : Exact now { st with pc := .called i (st.table.entries.cells i) } ↔ _ :=
      exact_called_iff rfl
    simp only [Held, expireStep, hpc, ExpirePc.place]
    constructor
    · intro h
      refine ⟨fun i' e h' => ?_, fun st' ret hstep => ?_⟩
      · rw [hpc] at h'
        cases h'
      · obtain ⟨rfl, -⟩ := result_inj hstep
        obtain ⟨hi, hdue, -⟩ := h i rfl
        exact hcalled.mpr ⟨hi, rfl, hdue⟩
    · rintro ⟨-, h⟩ i' hi'
      obtain ⟨hi, -, hdue⟩ := hcalled.mp (h _ 0 rfl)
      cases hi'
      exact ⟨hi, hdue, fun e he => by cases he⟩
  | called i e =>
    rw [exact_called_iff hpc]
    simp only [Held, expireStep, hpc, ExpirePc.place, mem_def, some.injEq,
      forall_eq', ExpirePc.called.injEq, true_and, forall_eq', reduceCtorEq, false_implies,
      implies_true, and_true]
    tauto

theorem SubkeyTTL.WellFormed.cells_inj {s : SubkeyTTL} (h : s.WellFormed) {i j : Nat}
    (hi : i < s.entries.count) (hj : j < s.entries.count)
    (heq : (s.entries.cells i).field = (s.entries.cells j).field) : i = j := by
  have hnodup : ((List.range s.entries.count).map fun i => (s.entries.cells i).field).Nodup := by
    have := h.nodup
    rwa [Bag.items, List.map_map] at this
  exact inj_on_of_nodup_map hnodup (mem_range.mpr hi) (mem_range.mpr hj) heq

theorem not_field_of_find {s : SubkeyTTL} (h : s.find field = none)
    (hi : i < s.entries.count) : (s.entries.cells i).field ≠ field :=
  of_decide_eq_false (Bag.find_eq_none h _ (Bag.mem_items.mpr ⟨i, hi, rfl⟩))

theorem lockFree_of_place {pc : ExpirePc} (h : i ∈ pc.place) : pc.lockFree = true := by
  cases pc with
  | unlocked j | called j e => rfl
  | scanning j | finished => cases h

/-- What a call of `subkey_ttl_set` does to the entry at one place. -/
theorem cell_set {s s' : SubkeyTTL} {d : UInt32} {ok : Bool}
    (h : s.WellFormed) (hi : i < s.entries.count)
    (hset : subkeyTtlSet s field d ok = some (s', ret)) :
    i < s'.entries.count ∧ s'.entries.cells i =
      if (s.entries.cells i).field = field ∧ field.len ≠ 0 then
        { s.entries.cells i with expireUnix := d }
      else s.entries.cells i := by
  rw [subkeyTtlSet] at hset
  split at hset
  · rename_i hlen
    obtain ⟨rfl, -⟩ := result_inj hset
    exact ⟨hi, (if_neg fun hc => hc.2 hlen).symm⟩
  rename_i hlen
  cases hfind : s.find field with
  | some j =>
    rw [hfind] at hset
    obtain ⟨rfl, -⟩ := result_inj hset
    obtain ⟨hj, hfield⟩ := Bag.find_eq_some hfind
    rw [decide_eq_true_eq] at hfield
    refine ⟨hi, ?_⟩
    by_cases hij : i = j
    · rw [hij, if_pos ⟨hfield, hlen⟩]
      exact update_self ..
    · rw [if_neg fun hc => hij (h.cells_inj hi hj (hc.1.trans hfield.symm))]
      exact update_of_ne hij ..
  | none =>
    have hother : ¬((s.entries.cells i).field = field ∧ field.len ≠ 0) := by
      exact fun hc => not_field_of_find hfind hi hc.1
    rw [hfind] at hset
    dsimp only at hset
    rw [if_neg hother]
    split at hset
    · obtain ⟨rfl, -⟩ := result_inj hset
      exact ⟨hi, rfl⟩
    · split at hset
      · obtain ⟨rfl, -⟩ := result_inj hset
        exact ⟨Nat.lt_succ_of_lt hi, update_of_ne (Nat.ne_of_lt hi) ..⟩
      · cases hset

/-- **A step** keeps the entry held iff it spares it. -/
theorem held_step_iff (h : st.table.WellFormed) (hheld : Held now st)
    (hstep : expireStep now st a = some (st', ret)) : Held now st' ↔ Spares now st a := by
  cases a with
  | scan =>
    refine iff_of_true ?_ trivial
    cases hpc : st.pc with
    | scanning i =>
      simp only [expireStep, hpc] at hstep
      split_ifs at hstep with hi hdue <;> obtain ⟨rfl, -⟩ := result_inj hstep <;>
        intro j hj <;> cases hj
      exact ⟨hi, hdue, fun e he => by cases he⟩
    | unlocked i | called i e | finished => simp [expireStep, hpc] at hstep
  | call => exact iff_of_true (held_iff.mpr ⟨(held_iff.mp hheld).2 _ _ hstep, fun _ _ hcall => by
      cases hpc : st.pc with
      | unlocked i =>
        simp only [expireStep, hpc] at hstep
        obtain ⟨rfl, -⟩ := result_inj hstep
        simp [expireStep] at hcall
      | scanning i | called i e | finished => simp [expireStep, hpc] at hstep⟩) trivial
  | relock =>
    refine iff_of_true ?_ trivial
    obtain ⟨i, e, hpc⟩ := called_of_relock hstep
    rw [relock_of_called hpc] at hstep
    obtain ⟨s, -, heq⟩ := map_eq_some_iff.mp hstep
    obtain ⟨rfl, -⟩ := Prod.mk.inj heq
    intro j hj
    cases hj
  | set field d ok =>
    rw [expireStep] at hstep
    split at hstep
    · obtain ⟨r, hr, rfl, -⟩ := map_result hstep
      refine forall_congr' fun i => forall_congr' fun hi => ?_
      obtain ⟨hlt, hdue, hcalled⟩ := hheld i hi
      obtain ⟨hlt', hcell⟩ := cell_set h hlt hr
      dsimp only
      rw [hcell]
      by_cases hc : (st.table.entries.cells i).field = field ∧ field.len ≠ 0
      · rw [if_pos hc]
        exact ⟨fun hnew _ _ => hnew.2.1, fun hnew => ⟨hlt', hnew hc.1 hc.2, hcalled⟩⟩
      · rw [if_neg hc]
        exact iff_of_true ⟨hlt', hdue, hcalled⟩ fun h₁ h₂ => absurd ⟨h₁, h₂⟩ hc
    · cases hstep
  | clear field =>
    rw [expireStep] at hstep
    split at hstep
    · obtain ⟨rfl, -⟩ := result_inj hstep
      refine forall_congr' fun i => forall_congr' fun hi => ?_
      obtain ⟨hlt, hdue, hcalled⟩ := hheld i hi
      rw [subkeyTtlClear]
      cases hfind : st.table.find field with
      | none => exact iff_of_true ⟨hlt, hdue, hcalled⟩ fun hc => by cases hc
      | some j =>
        obtain ⟨hj, hfield⟩ := Bag.find_eq_some hfind
        rw [decide_eq_true_eq] at hfield
        have hsame : (st.table.entries.cells i).field = field ↔ i = j :=
          ⟨fun hc => h.cells_inj hlt hj (hc.trans hfield.symm), fun hij => hij ▸ hfield⟩
        have hcount : i < st.table.entries.count - 1 ↔ i + 1 < st.table.entries.count := by omega
        simp only [Bag.swapRemove, isSome_some, hsame, hcount, forall_true_left]
        refine and_congr_right fun hlast => ?_
        by_cases hij : i = j
        · subst hij
          rw [update_self]
          -- the last field is another one, so it must not have been called for
          have hne : ∀ e, st.pc = .called i e →
              (st.table.entries.cells (st.table.entries.count - 1)).field ≠ e.field := by
            intro e he hc
            have := h.cells_inj (by omega) hlt (hc.trans (hcalled e he).symm)
            omega
          cases hpc : st.pc with
          | scanning k | finished =>
            rw [hpc] at hi
            cases hi
          | unlocked k =>
            rw [hpc] at hi
            cases hi
            simp
          | called k e =>
            rw [hpc] at hi
            cases hi
            have := hne e hpc
            simp [this]
        · rw [update_of_ne hij]
          exact iff_of_true ⟨hdue, hcalled⟩ fun hc => absurd hc hij
    · cases hstep

end Windows

/-- **Expiry under interleaving**: whatever other threads do while the lock is free, no field has
two entries and only the removals of the walk change the table under the lock.  At every moment of
a run the removal that would follow takes exactly the entry its callback was made for, and a due
one, iff every call of another thread has spared it. -/
theorem relock_removes_called_iff (now : UInt32) {s : SubkeyTTL} (hs : s.WellFormed)
    (acts : List ExpireAct) :
    (∀ st rets, run (expireStep now) (expireStart s) acts = some (st, rets) →
      st.table.WellFormed ∧ ∀ a st' ret, a = .scan ∨ a = .call →
        expireStep now st a = some (st', ret) → st'.table = st.table) ∧
    ((∀ acts', acts' <+: acts → ∀ st rets,
        run (expireStep now) (expireStart s) acts' = some (st, rets) →
          Exact now st ∧ ∀ st' ret, expireStep now st .call = some (st', ret) → Exact now st') ↔
      Along (expireStep now) (Spares now) (expireStart s) acts) := by
  have hshape : ∀ acts st rets, run (expireStep now) (expireStart s) acts = some (st, rets) →
      st.table.WellFormed := fun acts st rets hrun =>
    run_invariant (I := fun st => st.table.WellFormed) (fun _ _ _ _ h _ hstep => h.step hstep) hs
      (along_of_forall fun _ _ _ => trivial) hrun
  refine ⟨fun st rets hrun => ⟨hshape acts st rets hrun, fun a st' ret => table_of_scan_or_call⟩,
    ?_⟩
  rw [← along_iff_prefixes (I := fun st => st.table.WellFormed ∧ Held now st)]
  · refine forall_congr' fun acts' => forall_congr' fun _ => forall_congr' fun st =>
      forall_congr' fun rets => forall_congr' fun hrun => ?_
    rw [held_iff, and_iff_right (hshape acts' st rets hrun)]
  · intro st a st' ret hi hstep
    rw [and_iff_right (hi.1.step hstep), held_step_iff hi.1 hi.2 hstep]
  · intro st a hi hstuck
    cases a with
    | scan | call | relock => trivial
    | set field d ok =>
      -- the field is there, so the call has an entry to write to
      intro i hplace hfield hlen
      rw [expireStep, if_pos (lockFree_of_place hplace), map_eq_none_iff, subkeyTtlSet,
        if_neg hlen] at hstuck
      cases hfind : st.table.find field with
      | some j =>
        rw [hfind] at hstuck
        cases hstuck
      | none => exact absurd hfield (not_field_of_find hfind (hi.2 i hplace).1)
    | clear field =>
      intro i hplace
      rw [expireStep, if_pos (lockFree_of_place hplace)] at hstuck
      cases hstuck
  · exact ⟨hs, fun i hi => by cases hi⟩

def fieldF : Field := .ofList 8 [102]

def fieldG : Field := .ofList 8 [103]

/-- A field that is due at 5, before one that is due at 100. -/
def twoFields : SubkeyTTL :=
  { subkeyTtlCreate with
    entries := (subkeyTtlCreate.entries.push ⟨fieldF, 5⟩).push ⟨fieldG, 100⟩ }

theorem twoFields_wellFormed : twoFields.WellFormed := by
  have hroom : subkeyTtlCreate.entries.count < 64 := by decide
  have hone := wellFormed_create.push (show subkeyTtlCreate.find fieldF = none from rfl) 5 hroom
  exact hone.push (by decide +kernel) 100 (by decide)

instance (now : UInt32) (st : ExpireState) : (a : ExpireAct) → Decidable (Spares now st a)
  | .set field d _ => inferInstanceAs (Decidable (∀ i ∈ st.pc.place,
      (st.table.entries.cells i).field = field → field.len ≠ 0 → 0 < d ∧ d ≤ now))
  | .clear field => inferInstanceAs (Decidable (∀ i ∈ st.pc.place, (st.table.find field).isSome →
      i + 1 < st.table.entries.count ∧ ((st.table.entries.cells i).field = field →
        st.pc = .unlocked i ∧ (st.table.entries.cells (st.table.entries.count - 1)).Due now)))
  | .scan | .call | .relock => .isTrue trivial

def fieldH : Field := .ofList 8 [104]

/-- Other threads set the called field again, clear the second field and set a third one. -/
theorem relock_removes_called_iff_two :
    ∃ st rets, run (expireStep 10) (expireStart twoFields)
        [.scan, .set fieldF 7 true, .call, .clear fieldG, .set fieldH 50 true] = some (st, rets) ∧
      st.table.entries.items = [⟨fieldF, 7⟩, ⟨fieldH, 50⟩] ∧
      ∃ st' ret, expireStep 10 st .relock = some (st', ret) ∧
        RemovesCalled 10 ⟨fieldF, 7⟩ st.table st'.table := by
  have hspares : Along (expireStep 10) (Spares 10) (expireStart twoFields)
      [.scan, .set fieldF 7 true, .call, .clear fieldG, .set fieldH 50 true] := by
    decide +kernel
  have heval : (run (expireStep 10) (expireStart twoFields)
      [.scan, .set fieldF 7 true, .call, .clear fieldG, .set fieldH 50 true]).map (fun r =>
        (r.1.pc, r.1.table.entries.items))
      = some (.called 0 ⟨fieldF, 7⟩, [⟨fieldF, 7⟩, ⟨fieldH, 50⟩]) := by
    decide +kernel
  obtain ⟨⟨st, rets⟩, hrun, heq⟩ := map_eq_some_iff.mp heval
  obtain ⟨hpc, hitems⟩ := Prod.mk.inj heq
  have hexact := ((relock_removes_called_iff 10 twoFields_wellFormed _).2.mpr hspares _
    (prefix_refl _) st rets hrun).1
  exact ⟨st, rets, hrun, hitems, (hexact 0 ⟨fieldF, 7⟩ hpc).2⟩

/-- The field that is due is the last of three. -/
def dueLast : SubkeyTTL :=
  { subkeyTtlCreate with
    entries := ((subkeyTtlCreate.entries.push ⟨fieldG, 100⟩).push ⟨fieldH, 100⟩).push ⟨fieldF, 5⟩ }

/-- **The wrong entry goes**: the called field is cleared in between, and the field that has moved
to its place is taken away long before its deadline; so is the called field when it has got a new
deadline; and when no entry is left, `count` wraps.  If the called field is the last one, another
field that is cleared makes it move, and the entry before it goes. -/
theorem wrong_entry_goes :
    (run (expireStep 10) (expireStart twoFields) [.scan, .call, .clear fieldF, .relock]).map
        (fun r => r.1.table.entries.items) = some [] ∧
    (run (expireStep 10) (expireStart twoFields) [.scan, .call, .set fieldF 300 true, .relock]).map
        (fun r => r.1.table.entries.items) = some [⟨fieldG, 100⟩] ∧
    (run (expireStep 10) (expireStart twoFields) [.scan, .call, .clear fieldF, .clear fieldG]).map
        (fun r => (r.1.table.entries.items, (expireStep 10 r.1 .relock).isSome)) =
      some ([], false) ∧
    (run (expireStep 10) (expireStart dueLast)
        [.scan, .scan, .scan, .call, .clear fieldG, .relock]).map
      (fun r => r.1.table.entries.items) = some [⟨fieldF, 5⟩] := by
  decide +kernel

end NexCache.Core
