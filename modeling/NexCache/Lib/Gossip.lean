import NexCache.Lib.Runs
import Mathlib.Data.Set.Insert
import Mathlib.Order.MinMax

/-!
# Replicas that exchange their states

Every replica has a state.  It updates its own state, or merges the state of another
replica into it.  `log` lists the updates made so far, by whichever replica, and
`known i` the updates that replica `i` has received, by its own doing or through a
merge, directly or over other replicas.  Both only watch the run: the states change as
`upd` and `join` say.

`Causal` collects what holds of any such system: a replica knows its own updates, and
with an update everything its author knew.

`MaxOf` is about a family of numbers, each raised by one replica only and merged as
maxima: every replica has for each the largest value among the updates it knows.
-/

namespace Gossip

open Runs Function List Set Nat

variable {ι σ ο κ : Type*}

/-- An update: who made it, what it was, what its author knew, and the state it left. -/
structure Event (ι σ ο : Type*) where
  node : ι
  op : ο
  past : Set Nat
  after : σ

structure System (ι σ ο : Type*) where
  state : ι → σ
  known : ι → Set Nat
  log : List (Event ι σ ο)

/-- Nothing has happened yet. -/
def start (state : ι → σ) : System ι σ ο := ⟨state, fun _ => ∅, []⟩

inductive Call (ι ο : Type*)
  | update (i : ι) (op : ο)
  | merge (dst src : ι)

/-- Replica `r` has received every update that `j` made. -/
def System.Delivered (s : System ι σ ο) (j r : ι) : Prop :=
  ∀ n (e : Event ι σ ο), s.log[n]? = some e → e.node = j → n ∈ s.known r

section Step

variable [DecidableEq ι]

/-- `none` if the operation does not return. -/
def step (upd : σ → ο → Option σ) (join : σ → σ → Option σ) (s : System ι σ ο) :
    Call ι ο → Option (System ι σ ο × Unit)
  | .update i op => (upd (s.state i) op).map fun t =>
      ({ state := update s.state i t
         known := update s.known i (insert s.log.length (s.known i))
         log := s.log ++ [⟨i, op, s.known i, t⟩] }, ())
  | .merge dst src => (join (s.state dst) (s.state src)).map fun t =>
      ({ state := update s.state dst t
         known := update s.known dst (s.known dst ∪ s.known src)
         log := s.log }, ())

end Step

theorem getElem?_concat {log : List (Event ι σ ο)} {ev e : Event ι σ ο} {n : Nat} :
    (log ++ [ev])[n]? = some e ↔ log[n]? = some e ∨ (n = log.length ∧ e = ev) := by
  rcases lt_trichotomy n log.length with hlt | rfl | hgt
  · rw [getElem?_append_left hlt]
    exact ⟨.inl, fun h => h.resolve_right fun h' => absurd h'.1 (Nat.ne_of_lt hlt)⟩
  · rw [getElem?_append_right (Nat.le_refl _), Nat.sub_self,
      getElem?_eq_none (le_refl _)]
    simp [eq_comm]
  · rw [getElem?_eq_none (by simp; omega), getElem?_eq_none (by omega)]
    simp
    omega

theorem exists_getElem?_concat {log : List (Event ι σ ο)} {ev : Event ι σ ο} {n : Nat}
    {P : Event ι σ ο → Prop} : (∃ e, (log ++ [ev])[n]? = some e ∧ P e) ↔
      (∃ e, log[n]? = some e ∧ P e) ∨ (n = log.length ∧ P ev) := by
  simp only [getElem?_concat, or_and_right, exists_or, and_assoc, exists_and_left, exists_eq_left]

/-! ### Causality -/

structure Causal (s : System ι σ ο) : Prop where
  known_lt : ∀ i, ∀ n ∈ s.known i, n < s.log.length
  /-- A replica knows its own updates. -/
  own : ∀ n (e : Event ι σ ο), s.log[n]? = some e → n ∈ s.known e.node
  /-- A replica that knows an update knows what its author knew. -/
  closed : ∀ i, ∀ n ∈ s.known i, ∀ e : Event ι σ ο, s.log[n]? = some e → e.past ⊆ s.known i
  past_lt : ∀ n (e : Event ι σ ο), s.log[n]? = some e → ∀ m ∈ e.past, m < n

theorem causal_start (state : ι → σ) : Causal (start state : System ι σ ο) where
  known_lt i n h := h.elim
  own n e h := by simp [start] at h
  closed i n h := h.elim
  past_lt n e h := by simp [start] at h

section Step

variable [DecidableEq ι] {upd : σ → ο → Option σ} {join : σ → σ → Option σ} {c : Call ι ο}
  {s s' : System ι σ ο}

/-- A replica after a step of `i`: `i` itself, or another one. -/
theorem update_cases (s : System ι σ ο) (i : ι) (t : σ) (K : Set Nat) (r : ι) :
    (r = i ∧ update s.state i t r = t ∧ update s.known i K r = K) ∨
      (r ≠ i ∧ update s.state i t r = s.state r ∧
        update s.known i K r = s.known r) := by
  by_cases hr : r = i
  · subst hr
    exact .inl ⟨rfl, update_self .., update_self ..⟩
  · exact .inr ⟨hr, update_of_ne hr .., update_of_ne hr ..⟩

theorem step_update {i : ι} {op : ο} (h : step upd join s (.update i op) = some (s', ())) :
    ∃ t, upd (s.state i) op = some t ∧ s' =
      { state := update s.state i t
        known := update s.known i (insert s.log.length (s.known i))
        log := s.log ++ [⟨i, op, s.known i, t⟩] } := by
  obtain ⟨t, ht, heq⟩ := Option.map_eq_some_iff.mp h
  exact ⟨t, ht, (Prod.mk.inj heq).1.symm⟩

theorem step_merge {dst src : ι} (h : step upd join s (.merge dst src) = some (s', ())) :
    ∃ t, join (s.state dst) (s.state src) = some t ∧ s' =
      { state := update s.state dst t
        known := update s.known dst (s.known dst ∪ s.known src)
        log := s.log } := by
  obtain ⟨t, ht, heq⟩ := Option.map_eq_some_iff.mp h
  exact ⟨t, ht, (Prod.mk.inj heq).1.symm⟩

/-- Knowledge only grows. -/
theorem known_mono (h : step upd join s c = some (s', ())) (i : ι) : s.known i ⊆ s'.known i := by
  cases c with
  | update j op =>
    obtain ⟨t, -, rfl⟩ := step_update h
    exact (forall_update_iff s.known fun i K => s.known i ⊆ K).mpr
      ⟨subset_insert _ _, fun _ _ => subset_rfl⟩ i
  | merge dst src =>
    obtain ⟨t, -, rfl⟩ := step_merge h
    exact (forall_update_iff s.known fun i K => s.known i ⊆ K).mpr
      ⟨subset_union_left, fun _ _ => subset_rfl⟩ i

/-- A property of every single state is kept by a step if updates and merges keep it. -/
theorem forall_step {P : ι → σ → Prop} (hP : ∀ i, P i (s.state i))
    (hupd : ∀ i op t, upd (s.state i) op = some t → P i t)
    (hjoin : ∀ i j t, join (s.state i) (s.state j) = some t → P i t)
    (h : step upd join s c = some (s', ())) (i : ι) : P i (s'.state i) := by
  cases c with
  | update j op =>
    obtain ⟨t, ht, rfl⟩ := step_update h
    exact (forall_update_iff s.state P).mpr ⟨hupd j op t ht, fun i _ => hP i⟩ i
  | merge dst src =>
    obtain ⟨t, ht, rfl⟩ := step_merge h
    exact (forall_update_iff s.state P).mpr ⟨hjoin dst src t ht, fun i _ => hP i⟩ i

theorem Causal.step (hc : Causal s) (h : Gossip.step upd join s c = some (s', ())) : Causal s' := by
  have hmono := known_mono h
  cases c with
  | update i op =>
    obtain ⟨t, -, rfl⟩ := step_update h
    refine ⟨fun j n hn => ?_, fun n e he => ?_, fun j n hn e he => ?_, fun n e he m hm => ?_⟩
    · rw [length_append, length_singleton]
      by_cases hj : j = i
      · subst hj
        simp only [update_self, mem_insert_iff] at hn
        rcases hn with rfl | hn
        · exact lt_succ_self _
        · exact lt_succ_of_lt (hc.known_lt j n hn)
      · simp only [update_of_ne hj] at hn
        exact lt_succ_of_lt (hc.known_lt j n hn)
    · rcases getElem?_concat.mp he with he | ⟨rfl, rfl⟩
      · exact hmono _ (hc.own n e he)
      · simp only [update_self]
        exact mem_insert _ _
    · rcases getElem?_concat.mp he with hold | ⟨rfl, rfl⟩
      · -- an old update: it was known before, since the new one is the only addition
        have hlt := (List.getElem?_eq_some_iff.mp hold).1
        have hknown : n ∈ s.known j := by
          by_cases hj : j = i
          · subst hj
            simp only [update_self, mem_insert_iff] at hn
            exact hn.resolve_left (Nat.ne_of_lt hlt)
          · simpa only [update_of_ne hj] using hn
        exact fun m hm => hmono j (hc.closed j n hknown e hold hm)
      · by_cases hj : j = i
        · subst hj
          exact hmono j
        · simp only [update_of_ne hj] at hn
          exact absurd (hc.known_lt j _ hn) (lt_irrefl _)
    · rcases getElem?_concat.mp he with he | ⟨rfl, rfl⟩
      · exact hc.past_lt n e he m hm
      · exact hc.known_lt i m hm
  | merge dst src =>
    obtain ⟨t, -, rfl⟩ := step_merge h
    refine ⟨fun j n hn => ?_, fun n e he => hmono _ (hc.own n e he), fun j n hn e he => ?_,
      hc.past_lt⟩
    · by_cases hj : j = dst
      · subst hj
        simp only [update_self] at hn
        exact hn.elim (hc.known_lt j n) (hc.known_lt src n)
      · simp only [update_of_ne hj] at hn
        exact hc.known_lt j n hn
    · by_cases hj : j = dst
      · subst hj
        simp only [update_self] at hn ⊢
        rcases hn with hn | hn
        · exact subset_union_of_subset_left (hc.closed j n hn e he) _
        · exact subset_union_of_subset_right (hc.closed src n hn e he) _
      · simp only [update_of_ne hj] at hn ⊢
        exact hc.closed j n hn e he

end Step

/-! ### Numbers merged as maxima -/

section Max

variable (f : σ → κ → Nat) (own : ι → κ)

/-- For every replica and index, the largest value among the updates it knows, and zero
if it knows none. -/
structure MaxOf (s : System ι σ ο) : Prop where
  bound : ∀ r, ∀ n ∈ s.known r, ∀ e : Event ι σ ο, s.log[n]? = some e →
    f e.after (own e.node) ≤ f (s.state r) (own e.node)
  attained : ∀ r k, f (s.state r) k = 0 ∨ ∃ n ∈ s.known r, ∃ e : Event ι σ ο,
    s.log[n]? = some e ∧ own e.node = k ∧ f e.after k = f (s.state r) k

variable {f own} {s s' : System ι σ ο}

theorem maxOf_start {state : ι → σ} (hzero : ∀ i k, f (state i) k = 0) :
    MaxOf f own (start state : System ι σ ο) where
  bound _ _ hn := hn.elim
  attained r k := .inl (hzero r k)

variable (hmax : MaxOf f own s)
include hmax

/-- Updates of `i` change only its own index and never lower it; merges take maxima. -/
theorem MaxOf.step [DecidableEq ι] {upd : σ → ο → Option σ} {join : σ → σ → Option σ}
    (hc : Causal s) (hupd : ∀ i op t, upd (s.state i) op = some t →
      (∀ k, k ≠ own i → f t k = f (s.state i) k) ∧ f (s.state i) (own i) ≤ f t (own i))
    (hjoin : ∀ i j t, join (s.state i) (s.state j) = some t →
      ∀ k, f t k = max (f (s.state i) k) (f (s.state j) k))
    (h : Gossip.step upd join s c = some (s', ())) : MaxOf f own s' := by
  cases c with
  | update i op =>
    obtain ⟨t, ht, rfl⟩ := step_update h
    obtain ⟨hother, hraise⟩ := hupd i op t ht
    have hle : ∀ k, f (s.state i) k ≤ f t k := fun k => by
      by_cases hk : k = own i
      · rw [hk]
        exact hraise
      · rw [hother k hk]
    refine ⟨fun r n hn e he => ?_, fun r k => ?_⟩
    · by_cases hr : r = i
      · subst hr
        simp only [update_self, mem_insert_iff] at hn ⊢
        rcases getElem?_concat.mp he with he | ⟨rfl, rfl⟩
        · have hlt := (List.getElem?_eq_some_iff.mp he).1
          exact (hmax.bound r n (hn.resolve_left (Nat.ne_of_lt hlt)) e he).trans (hle _)
        · exact le_refl _
      · simp only [update_of_ne hr] at hn ⊢
        have hlt := hc.known_lt r n hn
        rcases getElem?_concat.mp he with he | ⟨rfl, _⟩
        · exact hmax.bound r n hn e he
        · exact absurd hlt (lt_irrefl _)
    · by_cases hr : r = i
      · subst hr
        by_cases hk : k = own r
        · -- the new update itself
          refine .inr ⟨s.log.length, ?_, _, getElem?_concat.mpr (.inr ⟨rfl, rfl⟩), hk.symm, ?_⟩
          · simp only [update_self]
            exact mem_insert _ _
          · simp only [update_self]
        · simp only [update_self]
          rw [hother k hk]
          refine (hmax.attained r k).imp id ?_
          rintro ⟨n, hn, e, he, hown, hval⟩
          exact ⟨n, .inr hn, e, getElem?_concat.mpr (.inl he), hown, hval⟩
      · simp only [update_of_ne hr]
        refine (hmax.attained r k).imp id ?_
        rintro ⟨n, hn, e, he, hown, hval⟩
        exact ⟨n, hn, e, getElem?_concat.mpr (.inl he), hown, hval⟩
  | merge dst src =>
    obtain ⟨t, ht, rfl⟩ := step_merge h
    have hmerge := hjoin dst src t ht
    refine ⟨fun r n hn e he => ?_, fun r k => ?_⟩
    · by_cases hr : r = dst
      · subst hr
        simp only [update_self] at hn ⊢
        rw [hmerge]
        rcases hn with hn | hn
        · exact le_max_of_le_left (hmax.bound r n hn e he)
        · exact le_max_of_le_right (hmax.bound src n hn e he)
      · simp only [update_of_ne hr] at hn ⊢
        exact hmax.bound r n hn e he
    · by_cases hr : r = dst
      · subst hr
        simp only [update_self]
        rw [hmerge]
        rcases max_choice (f (s.state r) k) (f (s.state src) k) with hval | hval
        · rw [hval]
          refine (hmax.attained r k).imp id ?_
          rintro ⟨n, hn, e, he⟩
          exact ⟨n, .inl hn, e, he⟩
        · rw [hval]
          refine (hmax.attained src k).imp id ?_
          rintro ⟨n, hn, e, he⟩
          exact ⟨n, .inr hn, e, he⟩
      · simp only [update_of_ne hr]
        exact hmax.attained r k

/-- A replica that knows at least the updates that another knows has values at least as
large. -/
theorem MaxOf.mono {r r' : ι} {k : κ}
    (hknown : ∀ n ∈ s.known r, ∀ e : Event ι σ ο, s.log[n]? = some e → own e.node = k →
      n ∈ s.known r') : f (s.state r) k ≤ f (s.state r') k := by
  rcases hmax.attained r k with hzero | ⟨n, hn, e, he, rfl, hval⟩
  · rw [hzero]
    exact zero_le _
  · rw [← hval]
    exact hmax.bound r' n (hknown n hn e he rfl) e he

/-- **Same updates, same values.** -/
theorem MaxOf.agree {r r' : ι} (hknown : s.known r = s.known r') (k : κ) :
    f (s.state r) k = f (s.state r') k :=
  le_antisymm (hmax.mono fun _ hn _ _ _ => hknown ▸ hn)
    (hmax.mono fun _ hn _ _ _ => hknown ▸ hn)

/-- The owner of an index has the largest value. -/
theorem MaxOf.le_owner (hc : Causal s) (hinj : Injective own)
    (r j : ι) : f (s.state r) (own j) ≤ f (s.state j) (own j) :=
  hmax.mono fun n _ e he hown => hinj hown ▸ hc.own n e he

/-- A replica that has received all updates of the owner has the owner's value. -/
theorem MaxOf.eq_owner (hc : Causal s) (hinj : Injective own) {r j : ι} (hall : s.Delivered j r) :
    f (s.state r) (own j) = f (s.state j) (own j) :=
  le_antisymm (hmax.le_owner hc hinj r j)
    (hmax.mono fun n _ e he hown => hall n e he (hinj hown))

omit hmax

end Max

end Gossip
