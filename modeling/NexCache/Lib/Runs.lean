import Mathlib.Logic.Relation

/-!
# Runs of a partial step function

`step s a` is what the call `a` does in the state `s`: `none` if it never
returns.  `run` performs a list of calls and collects the replies.  `Along C`
says that every call of a run meets the condition `C` in the state it is made in.

`run_invariant` is the induction over runs; `closed_of_step` is the one over
sequences of moves.
-/

namespace Runs

open Option

variable {σ α β : Type*}

def run (step : σ → α → Option (σ × β)) : σ → List α → Option (σ × List β)
  | s, [] => some (s, [])
  | s, a :: as =>
    match step s a with
    | none => none
    | some (s', b) => (run step s' as).map fun r => (r.1, b :: r.2)

/-- Every call of the run meets `C`. -/
def Along (step : σ → α → Option (σ × β)) (C : σ → α → Prop) : σ → List α → Prop
  | _, [] => True
  | s, a :: as => C s a ∧ ∀ s' b, step s a = some (s', b) → Along step C s' as

variable {step : σ → α → Option (σ × β)} {C : σ → α → Prop} {a : α}

theorem along_cons {s s' : σ} {b : β} {as : List α} (hstep : step s a = some (s', b)) :
    Along step C s (a :: as) ↔ C s a ∧ Along step C s' as := by
  refine and_congr_right fun _ => ⟨fun h => h s' b hstep, fun h s'' b' hc => ?_⟩
  rw [hstep] at hc
  cases hc
  exact h

instance decidableAlong [∀ s a, Decidable (C s a)] :
    (s : σ) → (as : List α) → Decidable (Along step C s as)
  | _, [] => .isTrue trivial
  | s, a :: as =>
    match hstep : step s a with
    | none => decidable_of_iff (C s a) ⟨fun h => ⟨h, fun _ _ hc => by rw [hstep] at hc; cases hc⟩,
        fun h => h.1⟩
    | some (s', _) =>
      have := decidableAlong s' as
      decidable_of_iff _ (along_cons hstep).symm

variable {as : List α}

theorem along_of_forall : ∀ {s : σ}, (∀ a ∈ as, ∀ s, C s a) → Along step C s as := by
  induction as with
  | nil => intro s _; trivial
  | cons a as ih =>
    intro s h
    exact ⟨h a (by simp) s, fun s' b _ => ih fun a' ha' => h a' (by simp [ha'])⟩

theorem Along.and {D : σ → α → Prop} : ∀ {s : σ}, Along step C s as →
    Along step D s as → Along step (fun s a => C s a ∧ D s a) s as := by
  induction as with
  | nil => intro s _ _; trivial
  | cons a as ih =>
    intro s hC hD
    exact ⟨⟨hC.1, hD.1⟩, fun s' b hstep => ih (hC.2 s' b hstep) (hD.2 s' b hstep)⟩

variable {D : α → Prop} {s : σ}

theorem Along.and_forall (h : Along step C s as)
    (hD : ∀ a ∈ as, D a) : Along step (fun s a => C s a ∧ D a) s as :=
  h.and (along_of_forall fun a ha _ => hD a ha)

variable {I : σ → Prop}

theorem along_of_invariant (hcond : ∀ s a, I s → D a → C s a)
    (hkeep : ∀ s a s' b, I s → D a → step s a = some (s', b) → I s') :
    ∀ {s : σ}, I s → (∀ a ∈ as, D a) → Along step C s as := by
  induction as with
  | nil => intro s _ _; trivial
  | cons a as ih =>
    intro s hi hD
    obtain ⟨ha, hrest⟩ := List.forall_mem_cons.mp hD
    exact ⟨hcond s a hi ha, fun s' b hstep => ih (hkeep s a s' b hi ha hstep) hrest⟩

theorem result_inj {s t : σ} {b c : β} (h : some (s, b) = some (t, c)) : s = t ∧ b = c :=
  Prod.mk.inj (some.inj h)

/-- A result that is made of another one. -/
theorem map_result {δ : Type*} {x : Option δ} {f : δ → σ} {g : δ → β} {t : σ} {c : β}
    (h : x.map (fun d => (f d, g d)) = some (t, c)) : ∃ d, x = some d ∧ f d = t ∧ g d = c := by
  obtain ⟨d, hd, heq⟩ := map_eq_some_iff.mp h
  exact ⟨d, hd, Prod.mk.inj heq⟩

/-- The first call of a run and the rest of it. -/
theorem run_cons {s t : σ} {bs : List β} (h : run step s (a :: as) = some (t, bs)) :
    ∃ s' b bs', step s a = some (s', b) ∧ run step s' as = some (t, bs') ∧ bs = b :: bs' := by
  rw [run] at h
  split at h
  · simp at h
  · rename_i s' b hstep
    obtain ⟨r, hrun, rfl, rfl⟩ := map_result h
    exact ⟨s', b, r.2, hstep, hrun, rfl⟩

variable {as' : List α}

theorem run_append : run step s (as ++ as')
    = (run step s as).bind fun r => (run step r.1 as').map fun r' => (r'.1, r.2 ++ r'.2) := by
  induction as generalizing s with
  | nil =>
    rw [List.nil_append, run, bind_some]
    exact map_id'.symm
  | cons a as ih =>
    rw [List.cons_append, run, run]
    cases step s a with
    | none => rfl
    | some r =>
      dsimp only
      rw [ih, Option.map_bind, bind_map]
      refine congrArg _ (funext fun r => ?_)
      rw [Function.comp_apply, map_map]
      rfl

/-- A run that gets stuck does so at one of its calls. -/
theorem run_none : ∀ {s : σ}, run step s as = none →
    ∃ as₁ a as₂ t bs, as = as₁ ++ a :: as₂ ∧ run step s as₁ = some (t, bs) ∧ step t a = none := by
  induction as with
  | nil => intro s h; cases h
  | cons a as ih =>
    intro s h
    cases hstep : step s a with
    | none => exact ⟨[], a, as, s, [], rfl, rfl, hstep⟩
    | some r =>
      rw [run, hstep, map_eq_none_iff] at h
      obtain ⟨as₁, a', as₂, t, bs, rfl, hrun, hstuck⟩ := ih h
      exact ⟨a :: as₁, a', as₂, t, r.2 :: bs, rfl, by rw [run, hstep]; simp [hrun], hstuck⟩

/-- A run before, at and after one of its calls. -/
theorem run_middle {s s₁ s₂ t : σ} {b : β} {bs bs' : List β}
    (hbefore : run step s as = some (s₁, bs)) (hstep : step s₁ a = some (s₂, b))
    (hafter : run step s₂ as' = some (t, bs')) :
    run step s (as ++ a :: as') = some (t, bs ++ b :: bs') := by
  rw [run_append, hbefore, bind_some, run, hstep]
  simp only [hafter, map_some]

/-- A condition along a run holds along its two parts. -/
theorem Along.split : ∀ {s t : σ} {bs : List β}, Along step C s (as ++ as') →
    run step s as = some (t, bs) → Along step C s as ∧ Along step C t as' := by
  induction as with
  | nil =>
    intro s t bs hal hrun
    obtain ⟨rfl, _⟩ := result_inj hrun
    exact ⟨trivial, hal⟩
  | cons a as ih =>
    intro s t bs hal hrun
    obtain ⟨s', b, bs', ha, hrest, _⟩ := run_cons hrun
    have htail := ih (hal.2 s' b ha) hrest
    exact ⟨(along_cons ha).mpr ⟨hal.1, htail.1⟩, htail.2⟩

/-- **The induction over runs.** -/
theorem run_invariant (hstep : ∀ s a s' b, I s → C s a → step s a = some (s', b) → I s')
    : ∀ {s t : σ} {bs : List β}, I s → Along step C s as →
      run step s as = some (t, bs) → I t := by
  induction as with
  | nil =>
    intro s t bs hi _ hrun
    obtain ⟨rfl, _⟩ := result_inj hrun
    exact hi
  | cons a as ih =>
    intro s t bs hi hal hrun
    obtain ⟨s', b, bs', ha, hrest, _⟩ := run_cons hrun
    exact ih (hstep s a s' b hi hal.1 ha) (hal.2 s' b ha) hrest

/-- If every call that meets `C` returns and keeps `I`, so does every run. -/
theorem run_total (hstep : ∀ s a, I s → C s a → ∃ s' b, step s a = some (s', b) ∧ I s') :
    ∀ {s : σ}, I s → Along step C s as → ∃ t bs, run step s as = some (t, bs) ∧ I t := by
  induction as with
  | nil => intro s hi _; exact ⟨s, [], rfl, hi⟩
  | cons a as ih =>
    intro s hi hal
    obtain ⟨s', b, ha, hi'⟩ := hstep s a hi hal.1
    obtain ⟨t, bs, hrun, ht⟩ := ih hi' (hal.2 s' b ha)
    refine ⟨t, b :: bs, ?_, ht⟩
    rw [run, ha]
    simp only [hrun, map_some]

/-- If every call returns and keeps `I`, so does every run. -/
theorem run_always (hstep : ∀ s a, I s → ∃ s' b, step s a = some (s', b) ∧ I s') (hi : I s)
    (as : List α) : ∃ t bs, run step s as = some (t, bs) ∧ I t :=
  run_total (fun s a hi _ => hstep s a hi) hi
    (along_of_forall fun _ _ _ => trivial)

/-- If a call returns exactly when it meets `C`, so does a run. -/
theorem run_isSome_iff (hkeep : ∀ s a s' b, I s → D a → step s a = some (s', b) → I s')
    (hiff : ∀ s a, I s → D a → ((step s a).isSome ↔ C s a)) :
    ∀ {s : σ}, I s → (∀ a ∈ as, D a) → ((run step s as).isSome ↔ Along step C s as) := by
  induction as with
  | nil => intro s _ _; exact ⟨fun _ => trivial, fun _ => rfl⟩
  | cons a as ih =>
    intro s hi hD
    obtain ⟨ha, has⟩ := List.forall_mem_cons.mp hD
    have hfirst := hiff s a hi ha
    cases hstep : step s a with
    | none =>
      rw [hstep] at hfirst
      rw [run, hstep]
      exact ⟨nofun, fun h => by simpa using hfirst.mpr h.1⟩
    | some r =>
      obtain ⟨s', b⟩ := r
      rw [hstep] at hfirst
      rw [run, hstep, along_cons hstep, ← ih (hkeep s a s' b hi ha hstep) has]
      simp only [isSome_map]
      exact ⟨fun h => ⟨hfirst.mp rfl, h⟩, fun h => h.2⟩

/-- If a call keeps `I` exactly when it meets `C`, then all calls of a run meet `C` iff `I` holds
after each of them. -/
theorem along_iff_prefixes (hiff : ∀ s a s' b, I s → step s a = some (s', b) → (I s' ↔ C s a))
    (hstuck : ∀ s a, I s → step s a = none → C s a) : ∀ {s : σ}, I s →
      ((∀ as', as' <+: as → ∀ t bs, run step s as' = some (t, bs) → I t) ↔ Along step C s as) := by
  induction as with
  | nil =>
    intro s hi
    refine ⟨fun _ => trivial, fun _ as' has' t bs hrun => ?_⟩
    rw [List.prefix_nil.mp has'] at hrun
    exact (result_inj hrun).1 ▸ hi
  | cons a as ih =>
    intro s hi
    constructor
    · intro h
      refine ⟨?_, fun s' b hstep => ?_⟩
      · cases hstep : step s a with
        | none => exact hstuck s a hi hstep
        | some r =>
          refine (hiff s a r.1 r.2 hi hstep).mp (h [a] (by simp) r.1 [r.2] ?_)
          rw [run, hstep]
          rfl
      · have hnext : ∀ as', as' <+: as → ∀ t bs, run step s' as' = some (t, bs) → I t := by
          intro as' has' t bs hrun
          refine h (a :: as') (List.cons_prefix_cons.mpr ⟨rfl, has'⟩) t (b :: bs) ?_
          rw [run, hstep]
          simp only [hrun, map_some]
        exact (ih (hnext [] List.nil_prefix s' [] rfl)).mp hnext
    · rintro ⟨ha, hrest⟩ as' has' t bs hrun
      cases as' with
      | nil => exact (result_inj hrun).1 ▸ hi
      | cons a' as' =>
        obtain ⟨rfl, htail⟩ := List.cons_prefix_cons.mp has'
        obtain ⟨s', b, bs', hstep, hrun', -⟩ := run_cons hrun
        exact (ih ((hiff s a' s' b hi hstep).mpr ha)).mpr (hrest s' b hstep) as' htail t bs' hrun'

/-- The calls `as` with the replies `bs` are a history of the specification `spec`. -/
inductive Traces {μ : Type*} (spec : μ → α → β → μ → Prop) : μ → List α → List β → μ → Prop
  | nil (m : μ) : Traces spec m [] [] m
  | cons {m m' m'' : μ} {a : α} {b : β} {as : List α} {bs : List β} (hstep : spec m a b m')
      (hrest : Traces spec m' as bs m'') : Traces spec m (a :: as) (b :: bs) m''

section Histories

variable {μ : Type*} {spec : μ → α → β → μ → Prop} {p : α → Bool} {m m₁ m₂ : μ} {bs cs : List β}

/-- The replies to the calls with `p`. -/
def repliesTo (p : α → Bool) (as : List α) (bs : List β) : List β :=
  ((as.zip bs).filter (p ·.1)).map Prod.snd

/-- Calls that change nothing can be left out of a history. -/
theorem Traces.filter (hidle : ∀ m a b m', p a = false → spec m a b m' → m' = m)
    (h : Traces spec m as bs m₁) : Traces spec m (as.filter p) (repliesTo p as bs) m₁ := by
  induction h with
  | nil m => exact .nil m
  | @cons m m' m'' a b as bs hstep _ ih =>
    cases hp : p a with
    | false =>
      obtain rfl := hidle m a b m' hp hstep
      simpa [repliesTo, hp] using ih
    | true => simpa [repliesTo, hp] using Traces.cons hstep ih

/-- Where the specification leaves no choice, the calls determine the history. -/
theorem Traces.unique (hfun : ∀ m a b c m₁ m₂, p a = true → spec m a b m₁ → spec m a c m₂ →
    b = c ∧ m₁ = m₂) (h : Traces spec m as bs m₁) (h' : Traces spec m as cs m₂)
    (hp : ∀ a ∈ as, p a = true) : bs = cs ∧ m₁ = m₂ := by
  induction h generalizing cs with
  | nil m =>
    cases h'
    exact ⟨rfl, rfl⟩
  | cons hstep _ ih =>
    cases h' with
    | cons hstep' hrest' =>
      obtain ⟨ha, has⟩ := List.forall_mem_cons.mp hp
      obtain ⟨rfl, rfl⟩ := hfun _ _ _ _ _ _ ha hstep hstep'
      obtain ⟨rfl, rfl⟩ := ih hrest' has
      exact ⟨rfl, rfl⟩

end Histories

/-- **Simulation**: calls that meet `C` return and follow the specification, and so do
runs of them. -/
theorem run_traces {μ : Type*} {spec : μ → α → β → μ → Prop} {J : σ → μ → Prop}
    (hstep : ∀ s a m, J s m → C s a →
      ∃ s' b m', step s a = some (s', b) ∧ spec m a b m' ∧ J s' m') :
    ∀ {s : σ} {m : μ}, J s m → Along step C s as →
      ∃ t bs m', run step s as = some (t, bs) ∧ Traces spec m as bs m' ∧ J t m' := by
  induction as with
  | nil => intro s m hj _; exact ⟨s, [], m, rfl, .nil m, hj⟩
  | cons a as ih =>
    intro s m hj hal
    obtain ⟨s', b, m', ha, hspec, hj'⟩ := hstep s a m hj hal.1
    obtain ⟨t, bs, m'', hrun, htrace, ht⟩ := ih hj' (hal.2 s' b ha)
    refine ⟨t, b :: bs, m'', ?_, .cons hspec htrace, ht⟩
    rw [run, ha]
    simp only [hrun, map_some]

/-- A property that every move keeps holds after any number of moves. -/
theorem closed_of_step {R : σ → σ → Prop} (hstep : ∀ s s', R s s' → I s → I s') {s t : σ}
    (h : Relation.ReflTransGen R s t) (hi : I s) : I t := by
  induction h with
  | refl => exact hi
  | tail _ hst ih => exact hstep _ _ hst ih

end Runs
