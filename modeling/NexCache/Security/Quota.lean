import Mathlib.Data.List.Count
import NexCache.Lib.Machine

/-!
# Quotas

`quota_check` of `quota.c` on one namespace.  The operations are counted in windows that begin at a
call, not in a sliding window: a second that covers the end of one window and the beginning of the
next one can see twice the limit.  It is kept if no window begins in the second behind an allowed
call (`rate_limit`).
-/

namespace NexCache.Quota

open List Nat

inductive QuotaAction where
  | reject
  | throttle
  | evict
  | logOnly
  deriving DecidableEq

structure NamespaceConfig where
  maxMemoryBytes : Nat
  maxKeys : Nat
  memoryAction : QuotaAction
  maxOpsPerSec : Nat
  cpuAction : QuotaAction

structure NamespaceStats where
  usedMemoryBytes : Nat
  keyCount : Nat

structure Namespace where
  config : NamespaceConfig
  stats : NamespaceStats
  opsThisWindow : Nat
  windowStartUs : Nat

/-- `QUOTA_WINDOW_SECS` in microseconds -/
def windowUs : Nat := 1000000

/-- The count and the start of the window for a call at `now`. -/
def Namespace.count (ns : Namespace) (now : Nat) : Namespace :=
  if windowUs ≤ (now + 2 ^ 64 - ns.windowStartUs) % 2 ^ 64 then
    { ns with opsThisWindow := 1, windowStartUs := now }
  else { ns with opsThisWindow := (ns.opsThisWindow + 1) % 2 ^ 64 }

def quotaCheck (ns : Namespace) (now : Nat) : Namespace × Int :=
  let memory : Int :=
    if 0 < ns.config.maxMemoryBytes ∧ ns.config.maxMemoryBytes ≤ ns.stats.usedMemoryBytes then
      match ns.config.memoryAction with
      | .reject => -1
      | .throttle => 1
      | _ => 0
    else 0
  let counts := memory = 0 ∧ 0 < ns.config.maxOpsPerSec
  let ns' := if counts then ns.count now else ns
  let ops : Int :=
    if counts ∧ ns.config.maxOpsPerSec < ns'.opsThisWindow then
      if ns.config.cpuAction = .reject then -1 else 1
    else memory
  (ns', if ops = 0 ∧ 0 < ns.config.maxKeys ∧ ns.config.maxKeys ≤ ns.stats.keyCount then -1 else ops)

/-- The calls at the given clock readings, with their results. -/
def checks : Namespace → List Nat → List (Nat × Int)
  | _, [] => []
  | ns, now :: ts => (now, (quotaCheck ns now).2) :: checks (quotaCheck ns now).1 ts

/-- How many of the calls in `[a, b)` are allowed. -/
def allowed (a b : Nat) (rs : List (Nat × Int)) : Nat :=
  rs.countP fun r => a ≤ r.1 ∧ r.1 < b ∧ r.2 = 0

/-- Only the operations are limited. -/
structure RateOnly (ns : Namespace) (R : Nat) : Prop where
  memory : ns.config.maxMemoryBytes = 0
  keys : ns.config.maxKeys = 0
  action : ns.config.cpuAction = .reject
  rate : ns.config.maxOpsPerSec = R
  pos : 0 < R

/-- The clock does not run back, and the counter does not overflow. -/
structure Clocked (ns : Namespace) (ts : List Nat) : Prop where
  sorted : (ns.windowStartUs :: ts).Pairwise (· ≤ ·)
  lt : ∀ t ∈ ts, t < 2 ^ 64
  ops : ns.opsThisWindow + ts.length < 2 ^ 64

variable {ns : Namespace} {R now a b : Nat} {ts : List Nat}

theorem RateOnly.count (h : RateOnly ns R) (now : Nat) : RateOnly (ns.count now) R := by
  rw [Namespace.count]
  split_ifs <;> exact ⟨h.memory, h.keys, h.action, h.rate, h.pos⟩

theorem RateOnly.quotaCheck_eq (h : RateOnly ns R) (now : Nat) :
    quotaCheck ns now = (ns.count now, if R < (ns.count now).opsThisWindow then -1 else 0) := by
  simp [quotaCheck, h.memory, h.keys, h.action, h.rate, h.pos]

theorem Clocked.count_eq (h : Clocked ns (now :: ts)) :
    ns.count now = if ns.windowStartUs + windowUs ≤ now
      then { ns with opsThisWindow := 1, windowStartUs := now }
      else { ns with opsThisWindow := ns.opsThisWindow + 1 } := by
  have hle : ns.windowStartUs ≤ now := (pairwise_cons.mp h.sorted).1 now mem_cons_self
  have hlt := h.lt now mem_cons_self
  have hops := h.ops
  rw [length_cons] at hops
  have hsub : (now + 2 ^ 64 - ns.windowStartUs) % 2 ^ 64 = now - ns.windowStartUs := by omega
  rw [Namespace.count, hsub, mod_eq_of_lt (by omega)]
  exact if_congr (by omega) rfl rfl

theorem Clocked.next (h : Clocked ns (now :: ts)) : Clocked (ns.count now) ts := by
  obtain ⟨hstart, hsorted⟩ := pairwise_cons.mp h.sorted
  have hops := h.ops
  rw [length_cons] at hops
  rw [h.count_eq]
  split_ifs
  · exact ⟨hsorted, fun t ht => h.lt t (.tail _ ht), by dsimp only; omega⟩
  · refine ⟨pairwise_cons.mpr ⟨fun t ht => hstart t (.tail _ ht), hsorted.of_cons⟩,
      fun t ht => h.lt t (.tail _ ht), by dsimp only; omega⟩

/-- One call more. -/
theorem RateOnly.allowed_cons (h : RateOnly ns R) :
    allowed a b (checks ns (now :: ts)) = allowed a b (checks (ns.count now) ts) +
      if a ≤ now ∧ now < b ∧ (ns.count now).opsThisWindow ≤ R then 1 else 0 := by
  rw [checks, allowed, countP_cons, h.quotaCheck_eq]
  by_cases hops : R < (ns.count now).opsThisWindow
  · simp [allowed, hops, not_le.mpr hops]
  · simp [allowed, hops, not_lt.mp hops]

theorem allowed_late (hb : ∀ t ∈ ts, b ≤ t) (ns : Namespace) : allowed a b (checks ns ts) = 0 := by
  induction ts generalizing ns with
  | nil => rfl
  | cons now ts ih =>
    have hnow := hb now mem_cons_self
    rw [checks, allowed, countP_cons, if_neg (by simp; omega)]
    exact ih (fun t ht => hb t (.tail _ ht)) _

/-- A window begins a second or more after the `last` call that was allowed. -/
def Apart (R : Nat) : Namespace → Nat → List Nat → Prop
  | _, _, [] => True
  | ns, last, now :: ts =>
    (ns.windowStartUs + windowUs ≤ now → last + windowUs ≤ now) ∧
      Apart R (ns.count now) (if (ns.count now).opsThisWindow ≤ R then now else last) ts

variable {last : Nat}

/-- In the second behind an allowed call there is only what is left of the limit. -/
theorem RateOnly.allowed_le (h : RateOnly ns R) (hc : Clocked ns ts) (hapart : Apart R ns last ts)
    (hlast : ∀ t ∈ ts, last ≤ t) (hb : b ≤ last + windowUs) :
    allowed a b (checks ns ts) ≤ R - ns.opsThisWindow := by
  induction ts generalizing ns last with
  | nil => exact zero_le _
  | cons now ts ih =>
    obtain ⟨hnew, hrest⟩ := hapart
    obtain ⟨-, hsorted⟩ := pairwise_cons.mp hc.sorted
    have hle := (pairwise_cons.mp hsorted).1
    by_cases hnow : now < b
    · have hsame : ¬ns.windowStartUs + windowUs ≤ now := fun h => by
        have := hnew h
        omega
      have hcount := h.count now
      have hnext := hc.next
      rw [h.allowed_cons]
      rw [hc.count_eq, if_neg hsame] at hcount hnext hrest ⊢
      dsimp only at hrest ⊢
      have hback := hlast now mem_cons_self
      split_ifs at hrest with hops
      · have := ih hcount hnext hrest hle (by omega)
        dsimp only at this
        split_ifs <;> omega
      · have := ih hcount hnext hrest (fun t ht => hlast t (.tail _ ht)) hb
        dsimp only at this
        rw [if_neg fun h => hops h.2.2]
        omega
    · rw [allowed_late]
      · exact zero_le _
      · have hge := not_lt.mp hnow
        exact forall_mem_cons.mpr ⟨hge, fun t ht => hge.trans (hle t ht)⟩

/-- **The rate limit**, in every second of a run. -/
theorem rate_limit (h : RateOnly ns R) (hc : Clocked ns ts) (hapart : Apart R ns last ts)
    (a : Nat) : allowed a (a + windowUs) (checks ns ts) ≤ R := by
  induction ts generalizing ns last with
  | nil => exact zero_le _
  | cons now ts ih =>
    obtain ⟨-, hrest⟩ := hapart
    rw [h.allowed_cons]
    split_ifs with hcase
    · obtain ⟨hle, -, hops⟩ := hcase
      rw [if_pos hops] at hrest
      obtain ⟨-, hsorted⟩ := pairwise_cons.mp hc.sorted
      have hleft := (h.count now).allowed_le (a := a) (b := a + windowUs) hc.next hrest
        (pairwise_cons.mp hsorted).1 (by omega)
      have hone : 1 ≤ (ns.count now).opsThisWindow := by
        rw [hc.count_eq]
        split_ifs <;> simp
      omega
    · exact ih (h.count now) hc.next hrest

/-- In a window that begins at `now`, calls at that reading are allowed up to the limit. -/
theorem RateOnly.allowed_replicate (h : RateOnly ns R) (hR : R < 2 ^ 64) (ha : a ≤ now)
    (hb : now < b) (hstart : ns.windowStartUs = now) {n : Nat} (hn : ns.opsThisWindow + n ≤ R) :
    allowed a b (checks ns (replicate n now)) = n := by
  induction n generalizing ns with
  | zero => rfl
  | succ n ih =>
    have hcount : ns.count now = { ns with opsThisWindow := ns.opsThisWindow + 1 } := by
      rw [Namespace.count, hstart, if_neg (by rw [windowUs]; omega), mod_eq_of_lt (by omega)]
    have hrest := ih (h.count now) (by rw [hcount]; exact hstart)
      (by rw [hcount]; dsimp only; omega)
    rw [replicate_succ, h.allowed_cons, hrest, if_pos ⟨ha, hb, by rw [hcount]; dsimp only; omega⟩]

/-- **The condition is needed.**  A call that breaks it, made `R` times, exceeds the limit in the
second behind the `last` call that was allowed. -/
theorem rate_exceeded (h : RateOnly ns R) (hR : R < 2 ^ 64) (hc : Clocked ns [now])
    (hback : last ≤ now) (hbreak : ¬Apart R ns last [now]) :
    R < allowed last (last + windowUs) ((last, 0) :: checks ns (replicate R now)) := by
  obtain ⟨hbegins, hsoon⟩ := Classical.not_imp.mp fun hnew => hbreak ⟨hnew, trivial⟩
  have hlt := not_le.mp hsoon
  have hcount := hc.count_eq
  rw [if_pos hbegins] at hcount
  -- the first of the calls begins the window
  obtain ⟨n, rfl⟩ := exists_eq_succ_of_ne_zero h.pos.ne'
  have hrest := (h.count now).allowed_replicate hR hback hlt (by rw [hcount]) (n := n)
    (by rw [hcount]; dsimp only; omega)
  rw [replicate_succ, allowed, countP_cons_of_pos (by simp [windowUs]), ← allowed, h.allowed_cons,
    hrest, if_pos ⟨hback, hlt, by rw [hcount]; exact h.pos⟩]
  omega

/-- One operation a second, in a namespace created at 0. -/
def oncePerSecond : Namespace := ⟨⟨0, 0, .reject, 1, .reject⟩, ⟨0, 0⟩, 0, 0⟩

theorem rate_limit_once : allowed 5 1000005 (checks oncePerSecond [5, 6, 1000005]) ≤ 1 := by
  have hapart : Apart 1 oncePerSecond 0 [5, 6, 1000005] := by
    simp [Apart, Namespace.count, oncePerSecond, windowUs]
  exact rate_limit ⟨rfl, rfl, rfl, rfl, by decide⟩ ⟨by decide, by decide, by decide⟩ hapart 5

/-- Two calls a microsecond apart. -/
theorem rate_doubled : allowed 500000 1500000 (checks oncePerSecond [999999, 1000000]) = 2 := by
  decide

end NexCache.Quota
