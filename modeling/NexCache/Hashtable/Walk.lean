import NexCache.Hashtable.Scan

/-!
# What a walk over a chain passes to the callback

While the callback runs, rehashing is paused, and an entry of the chain moves at most towards
its end (`ChainEdit.kept`).  So an entry that waits at or behind the current position still
waits there after the callback, unless it was the entry passed (`Passes`), and a walk to the
end of the chain meets every entry that waited at its start (`emitChain_spec`).

This needs that no call of the callback turns a shrink around or rehashes at once: `HasRoom`
says that there is room for each insert, in the table that it finds.
-/

namespace NexCache.HashTables

open List Option

variable {K E : Type*} {T : HashtableType K E} {ht ht' ht'' : Hashtable E} {ch : Change E}
  {c c' : Chain E} {R : List E} {e p : E} {a : Action T}

/-! ### Arrays that stay -/

/-- The arrays that are in use. -/
def Captured (ht : Hashtable E) (i : Fin 2) : Prop := i = 0 ∨ ht.rehashIdx ≠ -1

/-- The arrays in use stay where they are. -/
structure Keeps (ht ht' : Hashtable E) : Prop where
  settings_eq : ht'.settings = ht.settings
  rehash : ht.rehashIdx ≠ -1 → ht'.rehashIdx = ht.rehashIdx
  /-- the chains that were moved -/
  moved_eq : ht'.rehashIdx.toNat = ht.rehashIdx.toNat
  addr_eq : ∀ i, Captured ht i → (ht'.tables i).addr = (ht.tables i).addr
  exp_eq : ∀ i, Captured ht i → (ht'.tables i).exp = (ht.tables i).exp

namespace Keeps

theorem refl (ht : Hashtable E) : Keeps ht ht :=
  ⟨rfl, fun _ => rfl, rfl, fun _ _ => rfl, fun _ _ => rfl⟩

theorem captured (h : Keeps ht ht') {i : Fin 2} (hi : Captured ht i) : Captured ht' i := by
  rcases hi with rfl | hre
  · exact .inl rfl
  · right
    rw [h.rehash hre]
    exact hre

theorem trans (h : Keeps ht ht') (h' : Keeps ht' ht'') : Keeps ht ht'' where
  settings_eq := h'.settings_eq.trans h.settings_eq
  rehash hre := (h'.rehash (by rwa [h.rehash hre])).trans (h.rehash hre)
  moved_eq := h'.moved_eq.trans h.moved_eq
  addr_eq i hi := (h'.addr_eq i (h.captured hi)).trans (h.addr_eq i hi)
  exp_eq i hi := (h'.exp_eq i (h.captured hi)).trans (h.exp_eq i hi)

theorem pauseRehash_eq (h : Keeps ht ht') : ht'.pauseRehash = ht.pauseRehash :=
  congrArg Prod.fst h.settings_eq

end Keeps

theorem Effect.keeps (h : Effect T ht ch ht') (hinv : Inv T ht) (halloc : (ht.tables 0).exp ≠ -1) :
    Keeps ht ht' where
  settings_eq := h.settings.1
  rehash hre := h.settings.2.resolve_right fun hidle => hre hidle.1
  moved_eq := by
    rcases h.settings.2 with hsame | ⟨hidle, hzero, -⟩
    · rw [hsame]
    · rw [hidle, hzero]
      rfl
  addr_eq _ hi := (h.frame hinv halloc hi).addr_eq
  exp_eq _ hi := (h.frame hinv halloc hi).exp_eq

/-! ### Entries that wait -/

/-- `e'` is `e`, or took its place. -/
def Stands (T : HashtableType K E) (R : List E) (e e' : E) : Prop :=
  T.entryGetKey e' = T.entryGetKey e ∧ (e' = e ∨ e' ∈ R)

/-- An entry that stands for `e` is at the position `slot` of the chain or behind it. -/
def Waiting (T : HashtableType K E) (R : List E) (e : E) (c : Chain E) (slot : Nat) : Prop :=
  ∃ depth, ∃ pos : Fin 7, ∃ h2 e', cellAt c depth pos = some (h2, e') ∧ slot ≤ 7 * depth + pos
    ∧ Stands T R e e'

theorem waiting_zero : Waiting T R e c 0 ↔ ∃ h2 e', (h2, e') ∈ stored c ∧ Stands T R e e' := by
  constructor
  · rintro ⟨depth, pos, h2, e', hcell, -, hstands⟩
    exact ⟨h2, e', mem_stored.mpr ⟨depth, pos, hcell⟩, hstands⟩
  · rintro ⟨h2, e', hmem, hstands⟩
    obtain ⟨depth, pos, hcell⟩ := mem_stored.mp hmem
    exact ⟨depth, pos, h2, e', hcell, Nat.zero_le _, hstands⟩

/-- What a change may be: it takes no entry of the key away, and puts only entries of `R` in
the place of others. -/
def Mild (T : HashtableType K E) (R : List E) (k : K) : Change E → Prop
  | .removed a => T.entryGetKey a ≠ k
  | .replaced _ new => new ∈ R
  | _ => True

theorem Mild.spares {k : K} (h : Mild T R k ch) : Spares T k ch := by
  cases ch with
  | removed a => exact h
  | _ => trivial

theorem ChainEdit.waiting (h : ChainEdit T ch c c') {slot : Nat}
    (hmild : Mild T R (T.entryGetKey e) ch) (hw : Waiting T R e c slot) :
    Waiting T R e c' slot := by
  obtain ⟨depth, pos, h2, a, hcell, hle, hkey, hfor⟩ := hw
  rw [← hkey] at hmild
  obtain ⟨depth', pos', a', hcell', hkey', hsame, hfollows⟩ := h.kept hcell hmild.spares
  refine ⟨depth', pos', h2, a', hcell', ?_, hkey'.trans hkey, ?_⟩
  · rcases hfollows with ⟨rfl, rfl⟩ | ⟨rfl, -, -, rfl, rfl⟩
    · exact hle
    · -- the entry went from the last position of its bucket to the first of the next
      have hsix : ((6 : Fin 7) : Nat) = 6 := rfl
      rw [hsix] at hle
      omega
  · rcases hsame with rfl | rfl
    · exact hfor
    · exact .inr hmild

theorem ChainEdit.length_range (h : ChainEdit T ch c c') :
    c.length ≤ c'.length ∧ c'.length ≤ c.length + 1 := by
  cases h with
  | same => omega
  | cleared hcell =>
    rw [length_clearAt]
    omega
  | written hcell hkey =>
    rw [length_putAt, length_clearAt]
    omega
  | @inserted _ r h2 a hc hplace =>
    rw [length_putAt]
    rcases findPlaceForInsert_cases hc hplace with ⟨hchain, -⟩ | ⟨pre, b, x, rfl, -, -, hchain, -⟩
    · rw [hchain]
      omega
    · rw [hchain]
      simp

/-- What `n` calls of a callback to which `p` was passed leave of the arrays. -/
structure Passes (T : HashtableType K E) (R : List E) (p : E) (n : Nat) (ht ht' : Hashtable E) :
    Prop where
  keeps : Keeps ht ht'
  length_range : ∀ i, Captured ht i → ∀ idx < numBuckets (ht.tables i).exp,
    ((ht.tables i).chains idx).length ≤ ((ht'.tables i).chains idx).length
      ∧ ((ht'.tables i).chains idx).length ≤ ((ht.tables i).chains idx).length + n
  waiting : ∀ i, Captured ht i → ∀ idx < numBuckets (ht.tables i).exp, ∀ e slot,
    T.entryGetKey p ≠ T.entryGetKey e → Waiting T R e ((ht.tables i).chains idx) slot →
    Waiting T R e ((ht'.tables i).chains idx) slot

theorem Passes.refl (p : E) (ht : Hashtable E) : Passes T R p 0 ht ht :=
  ⟨.refl ht, fun _ _ _ _ => ⟨le_rfl, le_rfl⟩, fun _ _ _ _ _ _ _ hw => hw⟩

theorem Passes.mono {n n' : Nat} (h : Passes T R p n ht ht') (hle : n ≤ n') :
    Passes T R p n' ht ht' where
  keeps := h.keeps
  length_range i hi idx hidx := by
    have hrange := h.length_range i hi idx hidx
    omega
  waiting := h.waiting

theorem Passes.trans {n n' : Nat} (h : Passes T R p n ht ht') (h' : Passes T R p n' ht' ht'') :
    Passes T R p (n + n') ht ht'' where
  keeps := h.keeps.trans h'.keeps
  length_range i hi idx hidx := by
    have hidx' : idx < numBuckets (ht'.tables i).exp := by rwa [h.keeps.exp_eq i hi]
    have hfirst := h.length_range i hi idx hidx
    have hsecond := h'.length_range i (h.keeps.captured hi) idx hidx'
    omega
  waiting i hi idx hidx a slot hne hw := by
    have hidx' : idx < numBuckets (ht'.tables i).exp := by rwa [h.keeps.exp_eq i hi]
    exact h'.waiting i (h.keeps.captured hi) idx hidx' a slot hne
      (h.waiting i hi idx hidx a slot hne hw)

theorem Effect.passes (h : Effect T ht ch ht') (hinv : Inv T ht) (halloc : (ht.tables 0).exp ≠ -1)
    (hmild : ∀ k, T.entryGetKey p ≠ k → Mild T R k ch) : Passes T R p 1 ht ht' where
  keeps := h.keeps hinv halloc
  length_range _ hi idx hidx := ((h.frame hinv halloc hi).edit idx hidx).length_range
  waiting _ hi idx hidx _ _ hne hw :=
    ((h.frame hinv halloc hi).edit idx hidx).waiting (hmild _ hne) hw

/-! ### Room -/

/-- There is as much room as before in a table that only opened its second array. -/
theorem Roomy.keeps {n : Nat} (hroom : Roomy T ht n) (hkeeps : Keeps ht ht')
    (hre : ht'.rehashIdx = ht.rehashIdx
      ∨ ht.rehashIdx = -1 ∧ ht'.rehashIdx = 0 ∧ (ht'.tables 0).exp < (ht'.tables 1).exp) :
    Roomy T ht' n := by
  have hset := hkeeps.settings_eq
  simp only [Hashtable.settings, Prod.mk.injEq] at hset
  obtain ⟨-, -, hiter, hpolicy, habort⟩ := hset
  refine ⟨hroom.small, ?_, ?_⟩
  · intro hbusy hshrink hcan hzero
    rcases hre with hsame | ⟨-, -, hgrow⟩
    · rw [isRehashing_iff, hsame] at hbusy
      rw [hkeeps.exp_eq 0 (.inl rfl), hkeeps.exp_eq 1 (.inr hbusy)] at hshrink
      rw [hkeeps.exp_eq 1 (.inr hbusy)]
      exact hroom.shrinking (isRehashing_iff.mpr hbusy) hshrink (habort ▸ hcan) (hiter ▸ hzero)
    · omega
  · intro hinst hidle
    rw [not_isRehashing_iff] at hidle
    rcases hre with hsame | ⟨-, hzero, -⟩
    · rw [hkeeps.exp_eq 0 (.inl rfl), show maxFillPercent ht' = maxFillPercent ht by
        rw [maxFillPercent, hpolicy, maxFillPercent]]
      exact hroom.instant hinst (not_isRehashing_iff.mpr (hsame ▸ hidle))
    · rw [hzero] at hidle
      cases hidle

/-! ### The callback -/

/-- Lookups only. -/
def Passive (as : List (Action T)) : Prop := ∀ a ∈ as, a.modifies = false

theorem Passive.of_suffix {as as' : List (Action T)} (h : Passive as) (hs : as' <:+ as) :
    Passive as' :=
  fun a ha => h a (hs.mem ha)

section Room

variable [DecidableEq K] [DecidableEq E]

/-- The inserts among the calls `as`, made for the entry `p`, find room: each one whose key is not
there before it.  `after` is asked of the entries that the calls leave. -/
def RoomDuring (T : HashtableType K E) (room : Nat → Prop) (p : E) (after : (K → Option E) → Prop) :
    List (Action T) → (K → Option E) → Prop
  | [], m => after m
  | a :: as, m =>
    (∀ e, Causes T (a.toCall p) (.added e) → m (T.entryGetKey e) = none →
      room (Set.ncard {k | (m k).isSome} + 1)) ∧
    ∀ r m', spec T m (a.toCall p) r m' → RoomDuring T room p after as m'

/-- Whichever entries are passed to the callback, each of its inserts finds room. -/
def HasRoom (T : HashtableType K E) (room : Nat → Prop) :
    List (List (Action T)) → (K → Option E) → Prop
  | [], _ => True
  | as :: rest, m => ∀ p, m (T.entryGetKey p) = some p →
    RoomDuring T room p (HasRoom T room rest) as m

variable {room room' : Nat → Prop} (hroom : ∀ n, room n → room' n)
include hroom

theorem RoomDuring.mono {after after' : (K → Option E) → Prop} (hafter : ∀ m, after m → after' m) :
    ∀ {as : List (Action T)} {m : K → Option E},
      RoomDuring T room p after as m → RoomDuring T room' p after' as m := by
  intro as
  induction as with
  | nil => exact fun h => hafter _ h
  | cons a as ih =>
    exact fun h => ⟨fun e he hnone => hroom _ (h.1 e he hnone),
      fun r m' hspec => ih (h.2 r m' hspec)⟩

theorem HasRoom.mono : ∀ {script : List (List (Action T))} {m : K → Option E},
    HasRoom T room script m → HasRoom T room' script m := by
  intro script
  induction script with
  | nil => exact fun _ => trivial
  | cons as rest ih => exact fun h p hp => (h p hp).mono hroom fun _ => ih

omit hroom

/-- The table can take the calls to come, as far as `H` says it of its entries. -/
structure ReadyFor (T : HashtableType K E) (ht : Hashtable E) (as : List (Action T))
    (H : (Nat → Prop) → (K → Option E) → Prop) : Prop where
  rep : ∃ m, Represents T ht m
  alloc : (ht.tables 0).exp ≠ -1
  paused : ht.pauseRehash ≠ 0
  roomy : ¬ Passive as → 0 < ht.pauseRehash ∧ ∃ m, Represents T ht m ∧ H (Roomy T ht) m

/-- Between two calls of the callback. -/
abbrev Ready (T : HashtableType K E) (ht : Hashtable E) (script : List (List (Action T))) : Prop :=
  ReadyFor T ht script.flatten fun room => HasRoom T room script

/-- During a call of the callback. -/
abbrev Calling (T : HashtableType K E) (ht : Hashtable E) (p : E) (as : List (Action T))
    (rest : List (List (Action T))) : Prop :=
  ReadyFor T ht (as ++ rest.flatten) fun room => RoomDuring T room p (HasRoom T room rest) as

theorem Ready.calling {script : List (List (Action T))} (h : Ready T ht script) {h2 : BitVec 8}
    (hp : (h2, p) ∈ ht.items) : Calling T ht p (script.headD []) script.tail := by
  cases script with
  | nil => exact h
  | cons as rest =>
    refine ⟨h.rep, h.alloc, h.paused, fun hact => ?_⟩
    obtain ⟨hq, m, hrep, hroom⟩ := h.roomy hact
    exact ⟨hq, m, hrep, hroom p ((hrep.holds _ p).mpr ⟨⟨h2, hp⟩, rfl⟩)⟩

end Room

namespace Action

theorem gentle (a : Action T) (p : E) : Gentle (a.toCall p) = true := by
  cases a <;> rfl

theorem proper (a : Action T) (p : E) (hq : 0 < ht.pauseRehash) : Proper T ht (a.toCall p) := by
  cases a with
  | deleteTwoPhase allowed => exact hq.le
  | addAtPosition e allowed => exact rfl
  | replace e => exact rfl
  | reallocate old new same => exact same
  | _ => exact trivial

/-- The changes an action can cause. -/
theorem causes (h : Causes T (a.toCall p) ch) :
    ∀ k, T.entryGetKey p ≠ k → Mild T (a.replacement.toList) k ch := by
  intro k hne
  cases ch with
  | nothing | added e => exact trivial
  | removed e =>
    have hkey : T.entryGetKey e = T.entryGetKey p := by
      cases a with
      | delete allowed => exact h
      | deleteTwoPhase allowed => exact h
      | _ => cases h
    change T.entryGetKey e ≠ k
    rwa [hkey]
  | replaced old new =>
    cases a with
    | replace e | reallocate o n same => exact mem_singleton.mpr h.2
    | _ => cases h

end Action

theorem Mild.mono {R' : List E} {k : K} (h : Mild T R k ch) (hsub : R ⊆ R') : Mild T R' k ch := by
  cases ch with
  | replaced old new => exact hsub h
  | _ => exact h

section Calls

variable [DecidableEq K] [DecidableEq E] {as : List (Action T)} {rest : List (List (Action T))}

theorem find_quiet {m : K → Option E} (h : Represents T ht m) (hq : ht.pauseRehash ≠ 0) (k : K) :
    ∃ r, step T ht (.find k) = some (ht, r) := by
  obtain ⟨o, hfind, -⟩ := findBucket_quiet h.inv hq k
  rw [step, hashtableFind]
  split
  · exact ⟨_, rfl⟩
  · exact ⟨.entry (o.map (·.2)), by rw [hfind]; rfl⟩

theorem action_spec (h : Calling T ht p (a :: as) rest) (hR : a.replacement.toList ⊆ R) :
    ∃ ht' r, step T ht (a.toCall p) = some (ht', r) ∧ Calling T ht' p as rest
      ∧ Passes T R p 1 ht ht' ∧ (a.modifies = false → ht' = ht) := by
  cases hmod : a.modifies with
  | false =>
    obtain ⟨k, rfl⟩ : ∃ k, a = .find k := by
      cases a with
      | find k => exact ⟨k, rfl⟩
      | _ => cases hmod
    obtain ⟨m, hrep⟩ := h.rep
    obtain ⟨r, hr⟩ := find_quiet hrep h.paused k
    refine ⟨ht, r, hr, ⟨h.rep, h.alloc, h.paused, fun hact => ?_⟩,
      (Passes.refl p ht).mono (Nat.zero_le 1), fun _ => rfl⟩
    obtain ⟨hq, m, hrep, hroom⟩ := h.roomy fun hp => hact (hp.of_suffix (suffix_cons _ _))
    exact ⟨hq, m, hrep, hroom.2 _ m ⟨rfl, rfl⟩⟩
  | true =>
    have hact : ¬ Passive (a :: as ++ rest.flatten) := fun hp => by
      rw [hp a mem_cons_self] at hmod
      cases hmod
    obtain ⟨hq, m, hrep, hroom, hnext⟩ := h.roomy hact
    have hadds : ∀ e, Causes T (a.toCall p) (.added e) → ht.Lacks T e →
        Roomy T ht (ht.size + 1) := by
      intro e he hlacks
      rw [hrep.holds.size_eq hrep.inv]
      exact hroom e he (hrep.holds.eq_none hlacks)
    obtain ⟨ht', r, ch, hstep, heff, hcauses⟩ :=
      step_effect hrep hq h.alloc (a.gentle p) (a.proper p hq) hadds
    obtain ⟨ht₁, r₁, m', hstep', hspec, hrep'⟩ := step_spec hrep (a.toCall p) (a.proper p hq)
    rw [hstep] at hstep'
    obtain ⟨rfl, rfl⟩ := Runs.result_inj hstep'
    have hkeeps := heff.keeps hrep.inv h.alloc
    have hkept : ∀ n, Roomy T ht n → Roomy T ht' n := fun n hn => hn.keeps hkeeps heff.settings.2
    have hpause : 0 < ht'.pauseRehash := hkeeps.pauseRehash_eq ▸ hq
    refine ⟨ht', r, hstep, ⟨⟨m', hrep'⟩, ?_, hpause.ne', fun _ => ⟨hpause, m', hrep', ?_⟩⟩,
      heff.passes hrep.inv h.alloc fun k hne => (Action.causes hcauses k hne).mono hR,
      fun hfalse => by cases hfalse⟩
    · rw [hkeeps.exp_eq 0 (.inl rfl)]
      exact h.alloc
    · exact (hnext r m' hspec).mono hkept fun _ => HasRoom.mono hkept

theorem actions_spec (h : Calling T ht p as rest) (hR : ∀ a ∈ as, a.replacement.toList ⊆ R) :
    ∃ r, Runs.run (step T) ht (as.map (Action.toCall p)) = some r ∧ Ready T r.1 rest
      ∧ Passes T R p as.length ht r.1 ∧ (Passive as → r.1 = ht) := by
  induction as generalizing ht with
  | nil => exact ⟨(ht, []), rfl, h, .refl p ht, fun _ => rfl⟩
  | cons a as ih =>
    obtain ⟨ht', b, hstep, hready, hpass, hsame⟩ := action_spec h (hR a mem_cons_self)
    obtain ⟨r, hrun, hready', hpass', hsame'⟩ :=
      ih hready fun a' ha' => hR a' (mem_cons_of_mem a ha')
    refine ⟨(r.1, b :: r.2), ?_, hready', ?_, fun hp => ?_⟩
    · rw [map_cons, Runs.run, hstep]
      simp only [hrun, map_some]
    · rw [length_cons, Nat.add_comm]
      exact hpass.trans hpass'
    · exact (hsame' (hp.of_suffix (suffix_cons a as))).trans (hsame (hp a mem_cons_self))

end Calls

/-! ### The walk -/

/-- An entry that stands for `e` was passed to the callback. -/
def Emitted (R : List E) (e : E) (w : Walk T) : Prop := ∃ e' ∈ w.emitted, Stands T R e e'

/-- `e` was passed to the callback, or waits in the chain. -/
def Sought (R : List E) (e : E) (w : Walk T) (c : Chain E) (slot : Nat) : Prop :=
  Emitted R e w ∨ Waiting T R e c slot

/-- Whatever stands for `e` is valid. -/
def Accepted (R : List E) (e : E) (w : Walk T) : Prop := ∀ e', Stands T R e e' → w.valid e' = true

/-- The callback puts only entries of `R` in the place of others. -/
def Within (R : List E) (w : Walk T) : Prop := ∀ a ∈ w.actions, a.replacement.toList ⊆ R

variable {w w' w'' : Walk T} {i : Fin 2} {idx depth : Nat}

section Walks

variable [DecidableEq K] [DecidableEq E]

/-- What a part of a walk leaves of the arrays, for a walk that stands at any place. -/
structure Walked (R : List E) (w w' : Walk T) : Prop where
  keeps : Keeps w.ht w'.ht
  ready : Ready T w'.ht w'.script
  suffix : w'.actions <:+ w.actions
  valid : w'.valid = w.valid
  logs : w'.scanned = w.scanned ∧ w'.compacted = w.compacted
  emitted : w.emitted ⊆ w'.emitted
  length_range : ∀ i, Captured w.ht i → ∀ idx < numBuckets (w.ht.tables i).exp,
    ((w.ht.tables i).chains idx).length ≤ ((w'.ht.tables i).chains idx).length
      ∧ ((w'.ht.tables i).chains idx).length + w'.actions.length
        ≤ ((w.ht.tables i).chains idx).length + w.actions.length
  sought : ∀ i, Captured w.ht i → ∀ idx < numBuckets (w.ht.tables i).exp, ∀ e slot,
    Sought R e w ((w.ht.tables i).chains idx) slot →
      Sought R e w' ((w'.ht.tables i).chains idx) slot
  same : Passive w.actions → w'.ht = w.ht

namespace Walked

theorem refl (h : Ready T w.ht w.script) : Walked R w w :=
  ⟨.refl _, h, suffix_refl _, rfl, ⟨rfl, rfl⟩, Subset.refl _, fun _ _ _ _ => ⟨le_rfl, le_rfl⟩,
    fun _ _ _ _ _ _ hs => hs, fun _ => rfl⟩

theorem idx_lt (h : Walked R w w') (hi : Captured w.ht i)
    (hidx : idx < numBuckets (w.ht.tables i).exp) : idx < numBuckets (w'.ht.tables i).exp := by
  rwa [h.keeps.exp_eq i hi]

theorem within (h : Walked R w w') (hR : Within R w) : Within R w' :=
  fun a ha => hR a (h.suffix.mem ha)

theorem accepted (h : Walked R w w') (he : Accepted R e w) : Accepted R e w' :=
  fun e' hs => by rw [h.valid, he e' hs]

theorem trans (h : Walked R w w') (h' : Walked R w' w'') : Walked R w w'' where
  keeps := h.keeps.trans h'.keeps
  ready := h'.ready
  suffix := h'.suffix.trans h.suffix
  valid := h'.valid.trans h.valid
  logs := ⟨h'.logs.1.trans h.logs.1, h'.logs.2.trans h.logs.2⟩
  emitted := Subset.trans h.emitted h'.emitted
  length_range i hi idx hidx := by
    have hfirst := h.length_range i hi idx hidx
    have hsecond := h'.length_range i (h.keeps.captured hi) idx (h.idx_lt hi hidx)
    omega
  sought i hi idx hidx e slot hs :=
    h'.sought i (h.keeps.captured hi) idx (h.idx_lt hi hidx) e slot
      (h.sought i hi idx hidx e slot hs)
  same hp := (h'.same (hp.of_suffix h.suffix)).trans (h.same hp)

end Walked

end Walks

theorem chainAt_of_captured (hinv : Inv T ht) (hi : Captured ht i)
    (hidx : idx < numBuckets (ht.tables i).exp) :
    ht.chainAt (ht.tables i).addr idx = some ((ht.tables i).chains idx) := by
  rw [Hashtable.chainAt]
  match i with
  | 0 => rw [if_pos rfl, Table.chain?_of_lt hidx]
  | 1 =>
    have hre : ht.rehashIdx ≠ -1 := hi.resolve_left (by decide)
    rw [if_neg (hinv.addrs.2 hre), if_pos rfl, Table.chain?_of_lt hidx]

/-- Two entries of one key are one entry. -/
theorem Inv.entry_unique (hinv : Inv T ht) {x y : BitVec 8 × E} (hx : x ∈ ht.items)
    (hy : y ∈ ht.items) (hkey : T.entryGetKey x.2 = T.entryGetKey y.2) : x = y :=
  Multiset.inj_on_of_nodup_map hinv.distinct x hx y hy hkey

theorem mem_items_of_cellAt {pos : Fin 7} {x : BitVec 8 × E}
    (hidx : idx < numBuckets (ht.tables i).exp)
    (hx : cellAt ((ht.tables i).chains idx) depth pos = some x) : x ∈ ht.items :=
  Located.mem (show Located ht ⟨i, idx, depth, pos⟩ x from ⟨hidx, hx⟩)

section Loops

variable [DecidableEq K] [DecidableEq E]

/-- The callback is called with an entry of the table. -/
theorem emit_spec (h : Ready T w.ht w.script) (hR : Within R w) {h2 : BitVec 8}
    (hp : (h2, p) ∈ w.ht.items) :
    ∃ w', emit w p = some w' ∧ Walked R w w' ∧ p ∈ w'.emitted := by
  have hsplit : w.script.headD [] ++ w.script.tail.flatten = w.actions := by
    rw [Walk.actions]
    cases w.script with
    | nil => rfl
    | cons as rest => rfl
  have hhead : ∀ a ∈ w.script.headD [], a.replacement.toList ⊆ R :=
    fun a ha => hR a (hsplit ▸ mem_append_left _ ha)
  obtain ⟨r, hrun, hready, hpass, hsame⟩ := actions_spec (h.calling hp) hhead
  refine ⟨{ w with ht := r.1, script := w.script.tail, emitted := w.emitted ++ [p] },
    by rw [emit, hrun, map_some], ?_, by simp⟩
  have hlen : (w.script.headD []).length + w.script.tail.flatten.length = w.actions.length := by
    rw [← hsplit, length_append]
  refine ⟨hpass.keeps, hready, ⟨_, hsplit⟩, rfl, ⟨rfl, rfl⟩, subset_append_left _ _, ?_, ?_, ?_⟩
  · intro i hi idx hidx
    have hrange := hpass.length_range i hi idx hidx
    refine ⟨hrange.1, ?_⟩
    change ((r.1.tables i).chains idx).length + w.script.tail.flatten.length ≤ _
    omega
  · intro i hi idx hidx e slot hs
    rcases hs with ⟨e', hmem, hstands⟩ | hw
    · exact .inl ⟨e', mem_append_left _ hmem, hstands⟩
    · by_cases hkey : T.entryGetKey p = T.entryGetKey e
      · -- the entry that waits is the one that is passed
        obtain ⟨depth, pos, h2', e', hcell, -, hstands⟩ := hw
        obtain ⟨m, hrep⟩ := h.rep
        have hone :=
          hrep.inv.entry_unique hp (mem_items_of_cellAt hidx hcell) (hkey.trans hstands.1.symm)
        obtain ⟨-, rfl⟩ := Prod.mk.inj hone
        exact .inl ⟨p, by simp, hstands⟩
      · exact .inr (hpass.waiting i hi idx hidx e slot hkey hw)
  · intro hp
    exact hsame fun a ha => hp a (hsplit ▸ mem_append_left _ ha)

/-- The rest of a bucket, from the position `k` on. -/
theorem emitBucket_spec (n : Nat) {k : Nat} (hk : k + n = 7) (h : Ready T w.ht w.script)
    (hR : Within R w) (hi : Captured w.ht i) (hidx : idx < numBuckets (w.ht.tables i).exp)
    (hdepth : depth < ((w.ht.tables i).chains idx).length) :
    ∃ w', emitBucket (w.ht.tables i).addr idx depth ((finRange 7).drop k) w = some w'
      ∧ Walked R w w' ∧ ∀ e, Accepted R e w →
        Sought R e w ((w.ht.tables i).chains idx) (7 * depth + k) →
        Sought R e w' ((w'.ht.tables i).chains idx) (7 * (depth + 1)) := by
  induction n generalizing k w with
  | zero =>
    obtain rfl : k = 7 := by omega
    exact ⟨w, rfl, .refl h, fun e _ hs => by rwa [Nat.mul_add]⟩
  | succ n ih =>
    have hlt : k < 7 := by omega
    obtain ⟨m, hrep⟩ := h.rep
    have hdrop : (finRange 7).drop k = ⟨k, hlt⟩ :: (finRange 7).drop (k + 1) := by
      rw [drop_eq_getElem_cons (by simpa using hlt)]
      simp
    obtain ⟨b, hb⟩ : ∃ b, ((w.ht.tables i).chains idx)[depth]? = some b :=
      ⟨_, getElem?_eq_getElem hdepth⟩
    rw [hdrop, emitBucket, chainAt_of_captured hrep.inv hi hidx, bind_some, hb, bind_some]
    have hcellAt : cellAt ((w.ht.tables i).chains idx) depth ⟨k, hlt⟩ = b.cell ⟨k, hlt⟩ := by
      rw [cellAt, hb, bind_some]
    -- an entry at the position that is passed over is not one that is sought
    have hskip : (∀ x, b.cell ⟨k, hlt⟩ = some x → w.valid x.2 = false) → ∃ w',
        emitBucket (w.ht.tables i).addr idx depth ((finRange 7).drop (k + 1)) w = some w'
          ∧ Walked R w w' ∧ ∀ e, Accepted R e w →
            Sought R e w ((w.ht.tables i).chains idx) (7 * depth + k) →
            Sought R e w' ((w'.ht.tables i).chains idx) (7 * (depth + 1)) := by
      intro hcell
      obtain ⟨w', hw', hwalked, hsought⟩ := ih (show k + 1 + n = 7 by omega) h hR hi hidx hdepth
      refine ⟨w', hw', hwalked, fun e hacc hs => hsought e hacc ?_⟩
      rcases hs with hem | ⟨d, q, h2, e', hx, hle, hstands⟩
      · exact .inl hem
      · refine .inr ⟨d, q, h2, e', hx, ?_, hstands⟩
        rcases Nat.lt_or_ge (7 * depth + k) (7 * d + q) with hgt | hge
        · omega
        · exfalso
          obtain rfl : d = depth := by omega
          obtain rfl : q = ⟨k, hlt⟩ := Fin.ext (show q.val = k by omega)
          have hinvalid := hcell _ (hcellAt.symm.trans hx)
          rw [hacc e' hstands] at hinvalid
          cases hinvalid
    cases hcell : b.cell ⟨k, hlt⟩ with
    | none => exact hskip fun x hx => by cases hcell.symm.trans hx
    | some x =>
      dsimp only
      split
      · have hx : cellAt ((w.ht.tables i).chains idx) depth ⟨k, hlt⟩ = some x := hcellAt.trans hcell
        obtain ⟨w₁, hemit, hwalked, hmem⟩ := emit_spec h hR (mem_items_of_cellAt hidx hx)
        have hdepth' := lt_of_lt_of_le hdepth (hwalked.length_range i hi idx hidx).1
        obtain ⟨w', hw', hwalked', hsought⟩ := ih (show k + 1 + n = 7 by omega) hwalked.ready
          (hwalked.within hR) (hwalked.keeps.captured hi) (hwalked.idx_lt hi hidx) hdepth'
        refine ⟨w', ?_, hwalked.trans hwalked',
          fun e hacc hs => hsought e (hwalked.accepted hacc) ?_⟩
        · simp only [hemit, bind_some]
          rw [← hwalked.keeps.addr_eq i hi]
          exact hw'
        · rcases hs with hem | ⟨d, q, h2, e', hy, hle, hstands⟩
          · exact hwalked.sought i hi idx hidx e _ (.inl hem)
          · by_cases hat : d = depth ∧ q = ⟨k, hlt⟩
            · obtain ⟨rfl, rfl⟩ := hat
              rw [hx] at hy
              cases hy
              exact .inl ⟨e', hmem, hstands⟩
            · refine hwalked.sought i hi idx hidx e _ (.inr ⟨d, q, h2, e', hy, ?_, hstands⟩)
              by_contra hlt'
              refine hat ⟨by omega, Fin.ext (show q.val = k by omega)⟩
      · rename_i hinvalid
        refine hskip fun y hy => ?_
        rw [← Option.some.inj (hcell.symm.trans hy)]
        exact Bool.eq_false_of_not_eq_true hinvalid

/-- **A walk to the end of a chain** passes every entry that waited in it. -/
theorem emitChain_spec (fuel : Nat) (h : Ready T w.ht w.script) (hR : Within R w)
    (hi : Captured w.ht i) (hidx : idx < numBuckets (w.ht.tables i).exp)
    (hdepth : depth < ((w.ht.tables i).chains idx).length)
    (hfuel : ((w.ht.tables i).chains idx).length + w.actions.length ≤ fuel + depth) :
    ∃ w', emitChain (w.ht.tables i).addr idx fuel depth w = some w' ∧ Walked R w w'
      ∧ ∀ e, Accepted R e w → Sought R e w ((w.ht.tables i).chains idx) (7 * depth) →
        Emitted R e w' := by
  induction fuel generalizing depth w with
  | zero => omega
  | succ fuel ih =>
    obtain ⟨m, hrep⟩ := h.rep
    obtain ⟨b, hb⟩ : ∃ b, ((w.ht.tables i).chains idx)[depth]? = some b :=
      ⟨_, getElem?_eq_getElem hdepth⟩
    rw [emitChain, chainAt_of_captured hrep.inv hi hidx, bind_some, hb, bind_some]
    -- the bucket
    obtain ⟨w₁, hw₁, hwalked, hsought⟩ : ∃ w₁, (if b.popcount = 0 then some w
        else emitBucket (w.ht.tables i).addr idx depth (finRange 7) w) = some w₁ ∧
          Walked R w w₁
        ∧ ∀ e, Accepted R e w → Sought R e w ((w.ht.tables i).chains idx) (7 * depth) →
          Sought R e w₁ ((w₁.ht.tables i).chains idx) (7 * (depth + 1)) := by
      split
      · rename_i hempty
        refine ⟨w, rfl, .refl h, fun e _ hs => hs.imp id ?_⟩
        rintro ⟨d, q, h2, e', hx, hle, hstands⟩
        refine ⟨d, q, h2, e', hx, ?_, hstands⟩
        by_contra hlt
        obtain rfl : d = depth := by omega
        rw [cellAt, hb, bind_some] at hx
        have hmem : (h2, e') ∈ b.stored := Bucket.mem_stored.mpr ⟨q, hx⟩
        rw [Bucket.popcount_eq, Multiset.card_eq_zero] at hempty
        rw [hempty] at hmem
        exact Multiset.notMem_zero _ hmem
      · exact emitBucket_spec 7 rfl h hR hi hidx hdepth
    rw [hw₁, bind_some]
    obtain ⟨m₁, hrep₁⟩ := hwalked.ready.rep
    have hi₁ := hwalked.keeps.captured hi
    have hidx₁ := hwalked.idx_lt hi hidx
    have hlen := hwalked.length_range i hi idx hidx
    have haddr := hwalked.keeps.addr_eq i hi
    rw [← haddr, chainAt_of_captured hrep₁.inv hi₁ hidx₁, bind_some]
    split
    · rename_i hnext
      obtain ⟨w', hw', hwalked', hem⟩ :=
        ih hwalked.ready (hwalked.within hR) hi₁ hidx₁ hnext (by omega)
      exact ⟨w', hw', hwalked.trans hwalked',
        fun e hacc hs => hem e (hwalked.accepted hacc) (hsought e hacc hs)⟩
    · rename_i hlast
      refine ⟨w₁, rfl, hwalked, fun e hacc hs => (hsought e hacc hs).resolve_right ?_⟩
      rintro ⟨d, q, h2, e', hx, hle, -⟩
      have hd := lt_of_cellAt hx
      omega

end Loops

end NexCache.HashTables
