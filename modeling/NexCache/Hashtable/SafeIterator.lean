import NexCache.Hashtable.Iterator

/-!
# What a safe iterator guarantees

An iteration is a run of `hashtableNext` with calls of the table in between: insertions and
replacements of any entries, and deletions of the entry just returned.  The entries that are
still to be returned are those at places ahead of the iterator.  A call moves an entry at most
one place, to the first position of a new child bucket; so nothing that is ahead falls behind,
and only one thing that is behind comes ahead: the entry on which the iterator stands, if an
insert gives its bucket a child (`Clash`).
-/

namespace NexCache.HashTables

open Runs List Option

variable {K E : Type*} {T : HashtableType K E} {ht : Hashtable E} {x : BitVec 8 × E}

/-! ### The run -/

/-- What happened to entries during an iteration. -/
inductive Item (E : Type*)
  | returned (e : E)
  | inserted (e : E)
  deriving DecidableEq

def Item.entry : Item E → E
  | .returned e => e
  | .inserted e => e

/-- A call of `hashtableNext`, or one of the calls that may stand between two of them. -/
inductive IterEvent (T : HashtableType K E)
  | next
  | act (a : Action T)

structure Session (E : Type*) where
  it : Iter E
  /-- the entry just returned -/
  last : Option E
  log : List (Item E)
  finished : Bool

def Session.start (ht : Hashtable E) : Session E := ⟨hashtableInitIterator ht, none, [], false⟩

/-- The call, if it deletes nothing or an entry was returned. -/
def Action.call (last : Option E) : Action T → Option (Call K E)
  | .find k => some (.find k)
  | .delete allowed => last.map fun p => .pop (T.entryGetKey p) allowed
  | .deleteTwoPhase allowed => last.map fun p => .twoPhasePop (T.entryGetKey p) allowed
  | .add e allowed => some (.addOrFind e allowed)
  | .addAtPosition e allowed => some (.insertAtPosition (T.entryGetKey e) e allowed)
  | .replace e => some (.findRef (T.entryGetKey e) e)
  | .reallocate old new _ => some (.replaceReallocatedEntry old new)

/-- The entry that a call inserted, by its reply. -/
def insertedBy : Call K E → Reply E → List (Item E)
  | .addOrFind e _, .entry none => [.inserted e]
  | .insertAtPosition _ e _, .entry none => [.inserted e]
  | _, _ => []

def Session.afterNext (s : Session E) (r : Iter E × Option E) : Session E :=
  match r.2 with
  | some e => ⟨r.1, some e, s.log ++ [.returned e], s.finished⟩
  | none => { s with it := r.1, finished := true }

def sessionStep [DecidableEq K] [DecidableEq E] (T : HashtableType K E) (s : Session E) :
    IterEvent T → Option (Session E × Unit)
  | .next => (hashtableNext s.it).map fun r => (s.afterNext r, ())
  | .act a =>
      match a.call s.last with
      | none => some (s, ())
      | some c => (step T s.it.ht c).map fun r =>
          ({ s with it := { s.it with ht := r.1 }, log := s.log ++ insertedBy c r.2 }, ())

/-- An insert of `e` would move the entry on which the iterator stands to a new child bucket. -/
def Clash (T : HashtableType K E) (it : Iter E) (e : E) : Prop :=
  it.pos = 6 ∧ LastFull it.chain it.bucket.depth
    ∧ bucketIdx (T.hashEntry e) (it.ht.tables it.table).exp = it.index.toNat

/-- The entry an action inserts. -/
def Action.added : Action T → Option E
  | .add e _ => some e
  | .addAtPosition e _ => some e
  | _ => none

/-- One more entry does not make the table rehash at once. -/
def Fits (T : HashtableType K E) (ht : Hashtable E) : Prop :=
  ht.size + 1 < 2 ^ 50 ∧ (T.instantRehashing = true → ht.isRehashing = false →
    (ht.size + 1) * 100 ≤ capacity (ht.tables 0).exp * maxFillPercent ht)

/-- The iteration is not over, and once the iterator stands, an insert of a key that is not there
does not move the entry it stands on, nor make the table rehash at once. -/
def Careful (T : HashtableType K E) (s : Session E) : IterEvent T → Prop
  | .next => s.finished = false
  | .act a => s.finished = false
      ∧ ∀ e, a.added = some e → s.it.index ≠ -1 → s.it.ht.Lacks T e →
        Fits T s.it.ht ∧ ¬ Clash T s.it e

/-! ### Places -/

/-- Two entries of one key are at one place. -/
theorem Inv.place_unique (hinv : Inv T ht) {p q : Place} {x y : BitVec 8 × E} (hx : Located ht p x)
    (hy : Located ht q y) (hkey : T.entryGetKey x.2 = T.entryGetKey y.2) : p = q := by
  by_contra hne
  obtain ⟨-, hitems, -⟩ := clearPlace_spec hinv hx
  have hy' : Located (ht.clearPlace p) q y := by
    refine ⟨clearPlace_idx hy.1, ?_⟩
    have hcell := hy.2
    by_cases htable : q.table = p.table
    · rw [htable] at hcell ⊢
      rw [Hashtable.clearPlace, setTable_self]
      simp only [Table.setChain, Function.update_apply]
      split
      · rename_i hidx
        rw [hidx] at hcell
        rw [cellAt_clearAt_of_ne, hcell]
        rintro ⟨hdepth, hpos⟩
        apply hne
        obtain ⟨t', i', d', n'⟩ := q
        simp only at htable hidx hdepth hpos
        rw [htable, hidx, hdepth, hpos]
      · exact hcell
    · rw [Hashtable.clearPlace, setTable_of_ne _ htable]
      exact hcell
  have hdist := hinv.distinct
  rw [hitems, Multiset.map_cons, Multiset.nodup_cons] at hdist
  exact hdist.1 (Multiset.mem_map.mpr ⟨y, hy'.mem, hkey.symm⟩)

theorem Located.captured {p : Place} (hinv : Inv T ht) (hx : Located ht p x) :
    Captured ht p.table := by
  by_contra hcap
  obtain ⟨hne, hidle⟩ := not_or.mp hcap
  have hone : p.table = 1 := by omega
  have hlt := hx.1
  rw [hone, hinv.idle (not_not.mp hidle)] at hlt
  exact Nat.not_lt_zero _ hlt

/-! ### Calls between two steps -/

variable {it : Iter E} {k : K} {a : Action T} {m : K → Option E} {ht' : Hashtable E}
  {ev : IterEvent T}

/-- The entry of the key is still to be returned. -/
def AheadOf (T : HashtableType K E) (it : Iter E) (k : K) : Prop :=
  ∃ p h2 e, Located it.ht p (h2, e) ∧ T.entryGetKey e = k ∧ it.Ahead p

namespace Action

theorem call_some (a : Action T) (p : E) : a.call (some p) = some (a.toCall p) := by
  cases a <;> rfl

variable {c : Call K E}

theorem call_none_proper (h : a.call none = some c) : Proper T ht c := by
  cases a with
  | delete allowed => cases h
  | deleteTwoPhase allowed => cases h
  | reallocate old new same =>
    cases h
    exact same
  | addAtPosition e allowed | replace e =>
    cases h
    exact rfl
  | _ =>
    cases h
    exact trivial

theorem added_of_causes {p e : E} (h : Causes T (a.toCall p) (.added e)) :
    a.added = some e := by
  cases a with
  | add e' allowed | addAtPosition e' allowed => exact congrArg some (Eq.symm h)
  | _ => cases h

end Action

theorem Effect.added_new {e : E} (h : Effect T ht (.added e) ht') :
    ht.Lacks T e := by
  cases h with
  | added hopen hnew hfind => exact hnew

section Calls

variable [DecidableEq K] [DecidableEq E] {r : Reply E}

/-- What is reported as inserted was not there. -/
theorem insertedBy_new {m m' : K → Option E} (hspec : spec T m c r m')
    (hproper : Proper T ht c) : ∀ i ∈ insertedBy c r, m (T.entryGetKey i.entry) = none := by
  fun_cases insertedBy c r with
  | case1 e allowed =>
    rintro i hi
    rw [mem_singleton.mp hi]
    exact (Reply.entry.inj hspec.1).symm
  | case2 k' e allowed =>
    rintro i hi
    obtain rfl : T.entryGetKey e = k' := hproper
    rw [mem_singleton.mp hi]
    exact (Reply.entry.inj hspec.1).symm
  | case3 => exact nofun

theorem insertedBy_added {m m' : K → Option E} {p e : E}
    (hspec : spec T m (a.toCall p) r m') (hcauses : Causes T (a.toCall p) (.added e))
    (hnone : m (T.entryGetKey e) = none) : insertedBy (a.toCall p) r = [.inserted e] := by
  cases a with
  | add e' allowed | addAtPosition e' allowed =>
    obtain rfl : e = e' := hcauses
    obtain ⟨rfl, -⟩ := hspec
    rw [hnone]
    rfl
  | _ => cases hcauses

/-- **A call while the iterator stands.**  What is ahead stays ahead unless it has the key of the
entry just returned, and what is ahead afterwards was ahead or was inserted. -/
theorem Standing.act (h : Standing T it) (a : Action T) (p : E)
    (hsafe : ∀ e, a.added = some e → it.ht.Lacks T e → Fits T it.ht ∧ ¬ Clash T it e) :
    ∃ ht' r, step T it.ht (a.toCall p) = some (ht', r) ∧ Standing T { it with ht := ht' }
      ∧ (∀ i ∈ insertedBy (a.toCall p) r, ∀ x ∈ it.ht.items,
      T.entryGetKey x.2 ≠ T.entryGetKey i.entry)
      ∧ (∀ k, T.entryGetKey p ≠ k → AheadOf T it k → AheadOf T { it with ht := ht' } k)
      ∧ ∀ k, AheadOf T { it with ht := ht' } k →
        (∃ e, insertedBy (a.toCall p) r = [.inserted e] ∧ T.entryGetKey e = k) ∨
        AheadOf T it k := by
  obtain ⟨m, hrep⟩ := h.rep
  have hq := h.paused
  have hadds : ∀ e, Causes T (a.toCall p) (.added e) → it.ht.Lacks T e →
      Roomy T it.ht (it.ht.size + 1) := by
    intro e he hlacks
    obtain ⟨hsmall, hinstant⟩ := (hsafe e (Action.added_of_causes he) hlacks).1
    exact ⟨hsmall, fun _ _ _ hzero => absurd hzero h.watched, hinstant⟩
  obtain ⟨ht', r, ch, hstep, heff, hcauses⟩ :=
    step_effect hrep hq h.alloc (a.gentle p) (a.proper p hq) hadds
  obtain ⟨ht₁, r₁, m', hstep', hspec, hrep'⟩ := step_spec hrep (a.toCall p) (a.proper p hq)
  rw [hstep] at hstep'
  obtain ⟨rfl, rfl⟩ := result_inj hstep'
  have hkeeps := heff.keeps hrep.inv h.alloc
  have hframe := heff.frame hrep.inv h.alloc h.captured
  have hset := hkeeps.settings_eq
  simp only [Hashtable.settings, Prod.mk.injEq] at hset
  obtain ⟨hpause, -, hwatch, -⟩ := hset
  refine ⟨ht', r, hstep, ?_, ?_, ?_, ?_⟩
  · refine ⟨⟨m', hrep'⟩, hkeeps.exp_eq 0 (.inl rfl) ▸ h.alloc, ?_, ?_, hkeeps.captured h.captured,
      h.index_nonneg, ?_, ?_, ?_, h.idx_eq, ?_⟩
    · rw [hpause]
      exact hq
    · rw [hwatch]
      exact h.watched
    · exact hframe.exp_eq ▸ h.index_lt
    · exact hkeeps.moved_eq ▸ h.ahead
    · exact hframe.addr_eq ▸ h.addr_eq
    · exact lt_of_lt_of_le h.depth_lt (hframe.edit _ h.index_lt).length_range.1
  · intro i hi x hx hkey
    have hnone := insertedBy_new hspec (a.proper p hq) i hi
    have hsome := (hrep.holds (T.entryGetKey i.entry) x.2).mpr ⟨⟨x.1, hx⟩, hkey⟩
    rw [hnone] at hsome
    cases hsome
  · rintro k hne ⟨q, h2, e, hx, rfl, hahead⟩
    have hmild := Action.causes hcauses _ hne
    have hcap := hx.captured hrep.inv
    have hedit := (heff.frame hrep.inv h.alloc hcap).edit q.idx hx.1
    obtain ⟨depth, pos, e', hcell, hkey, -, hfollows⟩ := hedit.kept hx.2 hmild.spares
    refine ⟨⟨q.table, q.idx, depth, pos⟩, h2, e', ⟨hkeeps.exp_eq _ hcap ▸ hx.1, hcell⟩, hkey, ?_⟩
    rcases hahead with hfirst | hbefore
    · exact .inl hfirst
    · right
      rcases hfollows with ⟨rfl, rfl⟩ | ⟨hsix, -, -, rfl, rfl⟩
      · exact hbefore
      · -- one place further on
        simp only [Before, Iter.place, Fin.val_zero] at hbefore ⊢
        omega
  · rintro k ⟨q, h2, e, hx, rfl, hahead⟩
    rcases heff.origin hrep.inv h.alloc hx with hadd | ⟨q', e', hx', hkey, htable, hidx, hplace⟩
    · left
      subst hadd
      exact ⟨e, insertedBy_added hspec hcauses (hrep.holds.eq_none heff.added_new), rfl⟩
    · right
      have hbefore : Before it.place q := (h.ahead_iff q).mp hahead
      refine ⟨q', h2, e', hx', hkey, .inr ?_⟩
      rcases hplace with ⟨hdepth, hpos⟩ | ⟨hsix, hfull, hdepth, hzero, b, h2', rfl, hb⟩
      · rw [Before, htable, hidx, ← hdepth, ← hpos]
        exact hbefore
      · -- the entry was moved to a new child, so the iterator did not stand on it
        by_contra hnot
        simp only [Before, Iter.place] at hbefore hnot
        rw [htable, hidx] at hnot
        obtain ⟨ht₁, hi₁, hd₁, hp₁⟩ : it.table = q'.table ∧ it.index.toNat = q'.idx
            ∧ it.bucket.depth = q'.depth ∧ it.pos.val = 6 := by
          rw [htable, hidx]
          omega
        refine (hsafe b (Action.added_of_causes hcauses) heff.added_new).2 ⟨Fin.ext hp₁, ?_, ?_⟩
        · rw [Iter.chain, ht₁, hi₁, hd₁]
          exact hfull
        · have hplaced := ((hrep'.inv.ok q.table).placed q.idx hx.1 _ hb).2
          rw [ht₁, hi₁, htable, hidx, ← hkeeps.exp_eq q.table (htable ▸ hx'.captured hrep.inv)]
          exact hplaced

/-- A call before the first step leaves the settings as they are. -/
theorem step_settings (hrep : Represents T ht m)
    (hc : a.call none = some c) (hstep : step T ht c = some (ht', r)) :
    ht'.settings = ht.settings := by
  cases a with
  | find k =>
    cases hc
    obtain ⟨f, hfind, hmoved, -⟩ := findBucket_spec hrep.inv k
    rw [step, hashtableFind] at hstep
    split at hstep
    · cases hstep
      rfl
    · rw [hfind] at hstep
      cases hstep
      exact hmoved.settings_eq
  | delete allowed => cases hc
  | deleteTwoPhase allowed => cases hc
  | add e allowed =>
    cases hc
    obtain ⟨f, hadd, -, hset, -⟩ := hashtableAddOrFind_spec hrep.inv hrep.holds e allowed
    rw [step, hadd] at hstep
    cases hstep
    exact hset
  | addAtPosition e allowed =>
    cases hc
    obtain ⟨f, hadd, -, hset, -⟩ := hashtableAddOrFind_spec hrep.inv hrep.holds e allowed
    rw [insertAtPosition_addOrFind hrep.inv, hadd] at hstep
    cases hstep
    exact hset
  | replace e =>
    cases hc
    obtain ⟨⟨ht₁, o⟩, hfind, hmoved, -⟩ := findBucket_spec hrep.inv (T.entryGetKey e)
    rw [step, hashtableFindRef] at hstep
    split at hstep
    · cases hstep
      rfl
    · rw [hfind] at hstep
      cases o with
      | none | some f =>
        cases hstep
        exact hmoved.settings_eq
  | reallocate old new same =>
    cases hc
    obtain ⟨o, hsearch, -⟩ := searchTables_spec hrep.inv (T.hashEntry new) fun h2 e =>
      h2 == highBits (T.hashEntry new) && decide (e = old)
    rw [step, hashtableReplaceReallocatedEntry, hsearch] at hstep
    cases o with
    | none | some f =>
      cases hstep
      rfl

end Calls

/-! ### The whole iteration -/

/-- Where an iteration is. -/
inductive Phase (T : HashtableType K E) (s : Session E) : Prop
  | fresh (h : Fresh T s.it) (hlast : s.last = none) (hlog : ∀ e, .returned e ∉ s.log)
      (hopen : s.finished = false)
  | standing (h : Standing T s.it) (p : E) (hlast : s.last = some p) (hlog : .returned p ∈ s.log)
      (hopen : s.finished = false)
  | ended (hover : s.finished = true)

theorem Phase.rep {s : Session E} (h : Phase T s) (hopen : s.finished = false) :
    ∃ m, Represents T s.it.ht m := by
  cases h with
  | fresh h => exact h.rep
  | standing h => exact h.rep
  | ended hover =>
    rw [hopen] at hover
    cases hover

theorem Careful.unfinished {s : Session E} (h : Careful T s ev) :
    s.finished = false := by
  cases ev with
  | next => exact h
  | act a => exact h.1

/-- The key is in the table. -/
def KeyIn (T : HashtableType K E) (k : K) (ht : Hashtable E) : Prop :=
  ∃ x ∈ ht.items, T.entryGetKey x.2 = k

/-- An entry of the key was returned, or is still to be. -/
def Due (T : HashtableType K E) (k : K) (s : Session E) : Prop :=
  (∃ e, .returned e ∈ s.log ∧ T.entryGetKey e = k)
    ∨ s.finished = false ∧ (s.it.index = -1 ∨ AheadOf T s.it k)

/-- An item that may follow another one of the same key: after a return comes an insert. -/
def Alternate : Item E → Item E → Prop
  | .returned _, .returned _ => False
  | _, _ => True

theorem exists_located (h : x ∈ ht.items) : ∃ p, Located ht p x := by
  obtain ⟨i, hi⟩ := mem_items.mp h
  obtain ⟨idx, hidx, hx⟩ := Table.mem_contents.mp hi
  obtain ⟨depth, pos, hcell⟩ := mem_stored.mp hx
  exact ⟨⟨i, idx, depth, pos⟩, hidx, hcell⟩

/-- Before the first step everything in the table is ahead. -/
theorem KeyIn.ahead (h : KeyIn T k it.ht) (hfirst : it.index = -1) : AheadOf T it k := by
  obtain ⟨x, hx, hkey⟩ := h
  obtain ⟨p, hp⟩ := exists_located hx
  exact ⟨p, x.1, x.2, hp, hkey, .inl hfirst⟩

section Session

theorem insertedBy_cases (c : Call K E) (r : Reply E) :
    insertedBy c r = [] ∨ ∃ e, insertedBy c r = [.inserted e] := by
  fun_cases insertedBy c r with
  | case1 e allowed | case2 k e allowed => exact .inr ⟨e, rfl⟩
  | case3 => exact .inl rfl

theorem returned_notMem_insertedBy (e : E) : .returned e ∉ insertedBy c r := by
  intro he
  rcases insertedBy_cases c r with hnil | ⟨a, ha⟩
  · rw [hnil] at he
    cases he
  · rw [ha] at he
    cases mem_singleton.mp he

theorem start_phase (hrep : Represents T ht m)
    (hpause : 0 ≤ ht.pauseRehash ∧ ht.pauseRehash + 1 < 2 ^ 15) : Phase T (.start ht) := by
  refine .fresh ⟨⟨m, ?_⟩, Nat.succ_ne_zero _, hpause, rfl, rfl⟩ rfl nofun rfl
  exact ⟨hrep.inv.of_tables rfl rfl rfl, hrep.holds.of_items rfl, hrep.paired, hrep.range⟩

theorem eq_singleton_of_alternate {l : List (Item E)} {e : E} (hall : ∀ i ∈ l, i = .returned e)
    (hchain : l.IsChain Alternate) (hne : l ≠ []) : l = [.returned e] := by
  match l with
  | [] => exact absurd rfl hne
  | [i] => rw [hall i mem_cons_self]
  | i :: j :: l =>
    have hij : Alternate i j := (isChain_cons_cons.mp hchain).1
    rw [hall i (by simp), hall j (by simp)] at hij
    exact hij.elim

variable [DecidableEq K] {s s' : Session E}

/-- The items of one key. -/
def keyLog (T : HashtableType K E) (k : K) (log : List (Item E)) : List (Item E) :=
  log.filter fun i => decide (T.entryGetKey i.entry = k)

/-- Two returns of one key have an insert of the key between them, and a key that was returned last
is not ahead. -/
structure Tracked (T : HashtableType K E) (k : K) (s : Session E) : Prop where
  once : (keyLog T k s.log).IsChain Alternate
  passed : ∀ e, (keyLog T k s.log).getLast? = some (.returned e) → s.finished = false →
    ¬ AheadOf T s.it k

/-- What an event leads to.  It logs as returned what is in the table and as inserted what
is not. -/
structure Followed (T : HashtableType K E) (s s' : Session E) : Prop where
  phase : Phase T s'
  grows : ∃ new, s'.log = s.log ++ new ∧ (∀ e, .returned e ∈ new → e ∈ s.it.ht.items.map Prod.snd)
    ∧ ∀ e, .inserted e ∈ new → ¬ KeyIn T (T.entryGetKey e) s.it.ht
  tracked : ∀ k, Tracked T k s → Tracked T k s'
  due : ∀ k, KeyIn T k s.it.ht → Due T k s → Due T k s'

theorem keyLog_append (l l' : List (Item E)) :
    keyLog T k (l ++ l') = keyLog T k l ++ keyLog T k l' :=
  filter_append l l'

theorem keyLog_singleton (i : Item E) :
    keyLog T k [i] = if T.entryGetKey i.entry = k then [i] else [] := by
  by_cases hi : T.entryGetKey i.entry = k
  · simp [keyLog, hi]
  · simp [keyLog, hi]

/-- **`hashtableNext`.** -/
theorem next_session (hopen : s.finished = false) {r : Iter E × Option E} (hspec : Next T s.it r) :
    Followed T s (s.afterNext r) := by
  obtain ⟨it', o⟩ := r
  cases o with
  | none =>
    obtain ⟨hrep, hnone⟩ := hspec
    change Followed T s { s with it := it', finished := true }
    refine ⟨.ended rfl, ⟨[], by simp, by simp, by simp⟩,
      fun k htrack => ⟨htrack.once, fun e _ hfalse => ?_⟩, fun k hin hdue => ?_⟩
    · cases hfalse
    · rcases hdue with hret | ⟨-, hfirst | ⟨p, h2, e, hx, -, hahead⟩⟩
      · exact .inl hret
      · obtain ⟨p, h2, e, hx, -, hahead⟩ := hin.ahead hfirst
        exact absurd hahead (hnone p _ hx)
      · exact absurd hahead (hnone p _ hx)
  | some e =>
    obtain ⟨hstanding, ⟨h2, hx⟩, hrest⟩ := hspec
    change Followed T s ⟨it', some e, s.log ++ [.returned e], s.finished⟩
    obtain ⟨m, hrep⟩ := hstanding.rep
    -- the entry returned was ahead
    obtain ⟨hx', hahead'⟩ := (hrest it'.place (h2, e)).mpr ⟨hx, upto_iff.mpr (.inl rfl)⟩
    have hback : ∀ k, AheadOf T it' k → AheadOf T s.it k := by
      rintro k ⟨p, h2', a, hp, hkey, hahead⟩
      have hbefore := (hstanding.ahead_iff p).mp hahead
      obtain ⟨hp', hahead₁⟩ := (hrest p (h2', a)).mpr ⟨hp, upto_iff.mpr (.inr hbefore)⟩
      exact ⟨p, h2', a, hp', hkey, hahead₁⟩
    refine ⟨.standing hstanding e rfl (by simp) hopen, ⟨[.returned e], rfl, ?_, by simp⟩,
      fun k htrack => ?_, fun k hin hdue => ?_⟩
    · intro a ha
      obtain rfl : a = e := by simpa using ha
      exact Multiset.mem_map.mpr ⟨_, hx'.mem, rfl⟩
    · by_cases hk : T.entryGetKey e = k
      · refine ⟨?_, fun a hlast _ => ?_⟩
        · rw [keyLog_append, keyLog_singleton, Item.entry, if_pos hk]
          refine htrack.once.append (.singleton _) ?_
          intro x hlast y hy
          cases x with
          | returned a =>
            exact absurd ⟨it'.place, h2, e, hx', hk, hahead'⟩ (htrack.passed a hlast hopen)
          | inserted a => exact trivial
        · rintro ⟨p, h2', b, hp, hkey, hahead⟩
          have hplace := hrep.inv.place_unique hx hp (hk.trans hkey.symm)
          have hbefore := (hstanding.ahead_iff p).mp hahead
          rw [← hplace] at hbefore
          exact Before.irrefl _ hbefore
      · have hlog : keyLog T k (s.log ++ [.returned e]) = keyLog T k s.log := by
          rw [keyLog_append, keyLog_singleton, Item.entry, if_neg hk, append_nil]
        refine ⟨hlog ▸ htrack.once, fun a hlast _ hahead => ?_⟩
        rw [hlog] at hlast
        exact htrack.passed a hlast hopen (hback k hahead)
    · have hahead : Due T k s → (∃ a, .returned a ∈ s.log ∧ T.entryGetKey a = k) ∨
          AheadOf T s.it k := by
        rintro (hret | ⟨-, hfirst | hahead⟩)
        · exact .inl hret
        · exact .inr (hin.ahead hfirst)
        · exact .inr hahead
      rcases hahead hdue with ⟨a, ha, hkey⟩ | ⟨p, h2', a, hp, hkey, hahead⟩
      · exact .inl ⟨a, mem_append_left _ ha, hkey⟩
      · obtain ⟨hp', hupto⟩ := (hrest p (h2', a)).mp ⟨hp, hahead⟩
        rcases upto_iff.mp hupto with rfl | hbefore
        · obtain ⟨-, hcell⟩ := hp'
          rw [hx.2] at hcell
          cases hcell
          exact .inl ⟨e, by simp, hkey⟩
        · exact .inr ⟨hopen, .inr ⟨p, h2', a, hp', hkey, .inr hbefore⟩⟩

/-- What a call inserts is logged, so it was not returned last. -/
theorem tracked_insertedBy {it' : Iter E} (htrack : Tracked T k s)
    (hahead : ∀ a, (keyLog T k s.log).getLast? = some (.returned a) → AheadOf T it' k →
      (∃ e, insertedBy c r = [.inserted e] ∧ T.entryGetKey e = k) ∨ AheadOf T s.it k) :
    Tracked T k { s with it := it', log := s.log ++ insertedBy c r } := by
  rcases insertedBy_cases c r with hnil | ⟨e, he⟩
  · refine ⟨?_, fun a hlast hopen hin => ?_⟩
    · rw [hnil, append_nil]
      exact htrack.once
    · rw [hnil, append_nil] at hlast
      rcases hahead a hlast hin with ⟨e, he, -⟩ | hold
      · rw [hnil] at he
        cases he
      · exact htrack.passed a hlast hopen hold
  · by_cases hk : T.entryGetKey e = k
    · have hlog : keyLog T k (s.log ++ insertedBy c r) = keyLog T k s.log ++ [.inserted e] := by
        rw [he, keyLog_append, keyLog_singleton, Item.entry, if_pos hk]
      refine ⟨?_, fun a hlast => ?_⟩
      · rw [hlog]
        refine htrack.once.append (.singleton _) ?_
        intro x _ y hy
        obtain rfl : Item.inserted e = y := by simpa using hy
        cases x <;> exact trivial
      · rw [hlog, getLast?_concat] at hlast
        cases hlast
    · have hlog : keyLog T k (s.log ++ insertedBy c r) = keyLog T k s.log := by
        rw [he, keyLog_append, keyLog_singleton, Item.entry, if_neg hk, append_nil]
      refine ⟨hlog ▸ htrack.once, fun a hlast hopen hin => ?_⟩
      rw [hlog] at hlast
      rcases hahead a hlast hin with ⟨e', he', hkey⟩ | hold
      · rw [he] at he'
        cases he'
        exact hk hkey
      · exact htrack.passed a hlast hopen hold

/-- **A call between two steps.** -/
theorem act_session [DecidableEq E] (hphase : Phase T s) (hcareful : Careful T s (.act a)) :
    ∃ s', sessionStep T s (.act a) = some (s', ()) ∧ Followed T s s' := by
  obtain ⟨hopen, hsafe⟩ := hcareful
  cases hphase with
  | ended hover =>
    rw [hopen] at hover
    cases hover
  | fresh hfresh hlast hlog hopen' =>
    cases hc : a.call none with
    | none =>
      refine ⟨s, ?_, .fresh hfresh hlast hlog hopen, ⟨[], by simp, by simp, by simp⟩, fun _ h => h,
        fun _ _ h => h⟩
      simp only [sessionStep, hlast, hc]
    | some c =>
      have hcall : a.call s.last = some c := by rw [hlast, hc]
      obtain ⟨m, hrep⟩ := hfresh.rep
      have hproper : Proper T s.it.ht c := Action.call_none_proper hc
      obtain ⟨ht', r, m', hstep, hspec, hrep'⟩ := step_spec hrep c hproper
      have hset := step_settings hrep hc hstep
      simp only [Hashtable.settings, Prod.mk.injEq] at hset
      obtain ⟨hpause, -, hwatch, -⟩ := hset
      simp only [sessionStep, hcall, hstep, map_some]
      refine ⟨_, rfl, .fresh ⟨⟨m', hrep'⟩, ?_, ?_, hfresh.index_eq, hfresh.table_eq⟩ hlast ?_ hopen,
        ⟨insertedBy c r, rfl, fun e he => absurd he (returned_notMem_insertedBy e), ?_⟩, ?_, ?_⟩
      · rw [hwatch]
        exact hfresh.watched
      · rw [hpause]
        exact hfresh.pause
      · intro e he
        exact (mem_append.mp he).elim (hlog e) (returned_notMem_insertedBy e)
      · rintro e he ⟨x, hx, hkey⟩
        have hnone : m (T.entryGetKey e) = none := insertedBy_new hspec hproper _ he
        rw [(hrep.holds _ x.2).mpr ⟨⟨x.1, hx⟩, hkey⟩] at hnone
        cases hnone
      · intro k htrack
        refine tracked_insertedBy htrack fun e he => absurd ?_ (hlog e)
        exact mem_of_mem_filter (mem_of_getLast? he)
      · intro k hin hdue
        rcases hdue with ⟨e, he, hkey⟩ | -
        · exact .inl ⟨e, mem_append_left _ he, hkey⟩
        · exact .inr ⟨hopen, .inl hfresh.index_eq⟩
  | standing hstanding p hlast hlog hopen' =>
    have hstarted : s.it.index ≠ -1 := by
      have := hstanding.index_nonneg
      omega
    have hcall : a.call s.last = some (a.toCall p) := by rw [hlast, Action.call_some]
    obtain ⟨ht', r, hstep, hstanding', hnew, hkeep, hback⟩ :=
      hstanding.act a p fun e he => hsafe e he hstarted
    simp only [sessionStep, hcall, hstep, map_some]
    refine ⟨_, rfl, .standing hstanding' p hlast (mem_append_left _ hlog) hopen,
      ⟨insertedBy (a.toCall p) r, rfl, fun e he => absurd he (returned_notMem_insertedBy e), ?_⟩,
        ?_, ?_⟩
    · rintro e he ⟨x, hx, hkey⟩
      exact hnew _ he x hx hkey
    · intro k htrack
      exact tracked_insertedBy htrack fun _ _ hin => hback k hin
    · intro k hin hdue
      rcases hdue with ⟨e, he, hkey⟩ | ⟨-, hfirst | hahead⟩
      · exact .inl ⟨e, mem_append_left _ he, hkey⟩
      · exact absurd hfirst hstarted
      · by_cases hk : T.entryGetKey p = k
        · exact .inl ⟨p, mem_append_left _ hlog, hk⟩
        · exact .inr ⟨hopen, .inr (hkeep k hk hahead)⟩

/-- **One event of an iteration.** -/
theorem sessionStep_spec [DecidableEq E] (hphase : Phase T s)
    (hcareful : Careful T s ev) : ∃ s', sessionStep T s ev = some (s', ()) ∧ Followed T s s' := by
  cases ev with
  | act a => exact act_session hphase hcareful
  | next =>
    have hopen : s.finished = false := hcareful
    obtain ⟨r, hr, hspec⟩ : ∃ r, hashtableNext s.it = some r ∧ Next T s.it r := by
      cases hphase with
      | ended hover =>
        rw [hopen] at hover
        cases hover
      | fresh hfresh => exact hfresh.next_spec
      | standing hstanding => exact hstanding.next_spec
    exact ⟨s.afterNext r, by rw [sessionStep, hr, map_some], next_session hopen hspec⟩

/-- What holds of a key that is in the table all the time. -/
structure Resident (T : HashtableType K E) (k : K) (s : Session E) : Prop where
  phase : Phase T s
  tracked : Tracked T k s
  due : Due T k s
  stays : ∀ a, .inserted a ∈ s.log → T.entryGetKey a ≠ k

theorem start_resident (hrep : Represents T ht m)
    (hpause : 0 ≤ ht.pauseRehash ∧ ht.pauseRehash + 1 < 2 ^ 15) (k : K) :
    Resident T k (.start ht) := by
  refine ⟨start_phase hrep hpause, ⟨isChain_nil, nofun⟩, .inr ⟨rfl, .inl rfl⟩,
    nofun⟩

theorem Resident.step (h : Resident T k s) (hfollow : Followed T s s') (hin : KeyIn T k s.it.ht) :
    Resident T k s' := by
  obtain ⟨new, hlog, -, hins⟩ := hfollow.grows
  refine ⟨hfollow.phase, hfollow.tracked k h.tracked, hfollow.due k hin h.due, fun a ha => ?_⟩
  rw [hlog] at ha
  rcases mem_append.mp ha with ha | ha
  · exact h.stays a ha
  · rintro rfl
    exact hins a ha hin

/-- **The safe iterator.**  Two returns of a key have an insert of the key between them; and when
the iteration is over, an entry that was in the table to the end, from its start or as the
replacement of an entry not yet returned, was returned exactly once. -/
theorem safe_iterator_returns [DecidableEq E] {m : K → Option E} (hrep : Represents T ht m)
    (hpause : 0 ≤ ht.pauseRehash ∧ ht.pauseRehash + 1 < 2 ^ 15) (events : List (IterEvent T))
    (hcareful : Runs.Along (sessionStep T) (Careful T) (.start ht) events) :
    ∃ s us, Runs.run (sessionStep T) (.start ht) events = some (s, us)
      ∧ (∀ k, (keyLog T k s.log).IsChain Alternate)
      ∧ (s.finished = true → ∀ before after s₁ us₁, events = before ++ after →
        Runs.run (sessionStep T) (.start ht) before = some (s₁, us₁) → ∀ e,
        Runs.Along (sessionStep T) (fun s _ => KeyIn T (T.entryGetKey e) s.it.ht)
        (.start ht) before →
        (∀ a, .returned a ∈ s₁.log → T.entryGetKey a ≠ T.entryGetKey e) →
        Runs.Along (sessionStep T) (fun s _ => e ∈ s.it.ht.items.map Prod.snd) s₁ after →
        keyLog T (T.entryGetKey e) s.log = [.returned e]) := by
  obtain ⟨s, us, hrun, -⟩ := run_total
    (fun s ev hphase hc => by
      obtain ⟨s', hstep, hfollow⟩ := sessionStep_spec hphase hc
      exact ⟨s', (), hstep, hfollow.phase⟩)
    (start_phase hrep hpause) hcareful
  have hfollowed : ∀ s₁ ev s₂ u, Phase T s₁ → Careful T s₁ ev → sessionStep T s₁ ev = some (s₂, u) →
      Followed T s₁ s₂ := by
    intro s₁ ev s₂ u hphase hc hstep
    obtain ⟨s', hstep', hfollow⟩ := sessionStep_spec hphase hc
    rw [hstep] at hstep'
    obtain ⟨rfl, -⟩ := result_inj hstep'
    exact hfollow
  refine ⟨s, us, hrun, fun k => ?_, ?_⟩
  · have hstart := start_resident hrep hpause k
    obtain ⟨-, htrack⟩ := run_invariant (I := fun s => Phase T s ∧ Tracked T k s)
      (fun s₁ ev s₂ u h hc hstep => by
        have hfollow := hfollowed s₁ ev s₂ u h.1 hc hstep
        exact ⟨hfollow.phase, hfollow.tracked k h.2⟩)
      ⟨hstart.phase, hstart.tracked⟩ hcareful hrun
    exact htrack.once
  · rintro hover before after s₁ us₁ rfl hbefore e hin hnot hthere
    obtain ⟨hcareful₁, hcareful₂⟩ := hcareful.split hbefore
    obtain ⟨us₂, hafter⟩ : ∃ us₂, run (sessionStep T) s₁ after = some (s, us₂) := by
      rw [run_append, hbefore, bind_some] at hrun
      obtain ⟨r, hr, rfl, -⟩ := map_result hrun
      exact ⟨r.2, hr⟩
    -- up to the split the key is in the table
    have hresident₁ := run_invariant (I := Resident T (T.entryGetKey e))
      (fun s₂ ev s₃ u hres hc hstep => hres.step (hfollowed s₂ ev s₃ u hres.phase hc.1 hstep) hc.2)
      (start_resident hrep hpause _) (hcareful₁.and hin) hbefore
    -- from there on the entry is, so that what is returned for the key is the entry
    obtain ⟨hres, honly⟩ := run_invariant
      (I := fun s => Resident T (T.entryGetKey e) s
        ∧ ∀ a, .returned a ∈ s.log → T.entryGetKey a = T.entryGetKey e → a = e)
      (by
        rintro s₂ ev s₃ u ⟨hres, honly⟩ ⟨hc, hmem⟩ hstep
        have hfollow := hfollowed s₂ ev s₃ u hres.phase hc hstep
        obtain ⟨x, hx, rfl⟩ := Multiset.mem_map.mp hmem
        refine ⟨hres.step hfollow ⟨x, hx, rfl⟩, fun a ha hkey => ?_⟩
        obtain ⟨new, hlog, hret, -⟩ := hfollow.grows
        rw [hlog] at ha
        rcases mem_append.mp ha with ha | ha
        · exact honly a ha hkey
        · obtain ⟨y, hy, rfl⟩ := Multiset.mem_map.mp (hret a ha)
          obtain ⟨m₂, hrep₂⟩ := hres.phase.rep hc.unfinished
          rw [hrep₂.inv.entry_unique hy hx hkey])
      ⟨hresident₁, fun a ha hkey => absurd hkey (hnot a ha)⟩ (hcareful₂.and hthere) hafter
    have hmem : ∃ a, .returned a ∈ s.log ∧ T.entryGetKey a = T.entryGetKey e := by
      rcases hres.due with hret | ⟨hfalse, -⟩
      · exact hret
      · rw [hover] at hfalse
        cases hfalse
    refine eq_singleton_of_alternate (fun i hi => ?_) hres.tracked.once ?_
    · obtain ⟨hi, hkey⟩ := mem_filter.mp hi
      have hkey' : T.entryGetKey i.entry = T.entryGetKey e := of_decide_eq_true hkey
      cases i with
      | returned a => rw [honly a hi hkey']
      | inserted a => exact absurd hkey' (hres.stays a hi)
    · obtain ⟨a, ha, hkey⟩ := hmem
      exact ne_nil_of_mem (mem_filter.mpr ⟨ha, decide_eq_true hkey⟩)

end Session

/-! ### Fixed runs -/

instance decidableLastFull (chain : Chain E) (depth : Nat) : Decidable (LastFull chain depth) :=
  match h : chain[depth]? with
  | none => .isFalse fun hfull => by
      obtain ⟨-, b, hb, -⟩ := hfull
      rw [h] at hb
      cases hb
  | some b => decidable_of_iff (depth + 1 = chain.length ∧ bucketIsFull b false = true)
      ⟨fun hx => ⟨hx.1, b, h, hx.2⟩, fun hx => by
        obtain ⟨hlast, b', hb', hfull⟩ := hx
        rw [h] at hb'
        cases hb'
        exact ⟨hlast, hfull⟩⟩

instance decidableClash (T : HashtableType K E) (it : Iter E) (e : E) : Decidable (Clash T it e) :=
  inferInstanceAs (Decidable (_ ∧ _ ∧ _))

instance decidableFits (T : HashtableType K E) (ht : Hashtable E) : Decidable (Fits T ht) :=
  inferInstanceAs (Decidable (_ ∧ (_ → _ → _)))

instance decidableLacks [DecidableEq K] (T : HashtableType K E) (ht : Hashtable E) (e : E) :
    Decidable (ht.Lacks T e) :=
  Multiset.decidableForallMultiset

instance decidableCareful [DecidableEq K] (T : HashtableType K E) (s : Session E) :
    (ev : IterEvent T) → Decidable (Careful T s ev)
  | .next => inferInstanceAs (Decidable (s.finished = false))
  | .act a =>
    match h : a.added with
    | none => decidable_of_iff (s.finished = false)
        ⟨fun hopen => ⟨hopen, fun e he => by rw [h] at he; cases he⟩, fun hx => hx.1⟩
    | some e => decidable_of_iff (s.finished = false
          ∧ (s.it.index ≠ -1 → s.it.ht.Lacks T e → Fits T s.it.ht ∧ ¬ Clash T s.it e))
        ⟨fun hx => ⟨hx.1, fun e' he' => by rw [h] at he'; cases he'; exact hx.2⟩,
          fun hx => ⟨hx.1, hx.2 e h⟩⟩

/-- A table of two chains, with a full bucket in the first. -/
def crowded : Hashtable Nat :=
  { (hashtableCreate .allow true : Hashtable Nat) with
    tables := fun i =>
      if i = 0 then ⟨1, 1, fun idx => if idx = 0 then [bucketFrom 0 7] else [Bucket.empty], 7, 0⟩
      else Table.reset
    nextAddr := 2 }

theorem crowded_entries : crowded.items.map Prod.snd = Multiset.range 7 := by decide +kernel

theorem crowded_represents :
    Represents collide crowded fun k => if k < 7 then some k else none := by
  have hok : ∀ i, TableOk collide (crowded.tables i) := by decide +kernel
  exact ⟨⟨hok, fun _ => rfl, absurd rfl, nofun,
    distinct_range crowded_entries, by decide +kernel, absurd rfl⟩,
    holds_range crowded_entries, rfl, by decide⟩

/-- An insert while the iterator is at the first position, and a deletion of the entry returned. -/
def gently : List (IterEvent collide) :=
  [.next, .act (.add 7 true), .next, .act (.delete true), .act (.replace 5)] ++
    replicate 7 .next

/-- Entry 3 stays, and is returned once. -/
theorem safe_iterator_returns_crowded : ∃ s us,
    Runs.run (sessionStep collide) (.start crowded) gently = some (s, us) ∧ s.finished = true
      ∧ (∀ k, (keyLog collide k s.log).IsChain Alternate) ∧
      keyLog collide 3 s.log = [.returned 3] := by
  obtain ⟨s, us, hrun, hchain, honce⟩ :=
    safe_iterator_returns crowded_represents (by decide) gently (by decide +kernel)
  have hend : (run (sessionStep collide) (.start crowded) gently).map (fun r => r.1.finished)
      = some true := by decide +kernel
  rw [hrun] at hend
  have hover : s.finished = true := some.inj hend
  exact ⟨s, us, hrun, hover, hchain, honce hover [] gently _ _ rfl rfl 3 trivial nofun
    (by decide +kernel)⟩

/-- The eighth entry of a bucket is inserted while the iterator is on the seventh, which is then
returned a second time. -/
theorem safe_iterator_repeats :
    Represents collide crowded (fun k => if k < 7 then some k else none)
      ∧ (Runs.run (sessionStep collide) (.start crowded)
          (replicate 7 .next ++ [.act (.add 7 true)] ++ replicate 3 .next)).map
          (fun r => (r.1.finished, keyLog collide 6 r.1.log)) =
          some (true, [.returned 6, .returned 6]) :=
  ⟨crowded_represents, by decide +kernel⟩

end NexCache.HashTables
