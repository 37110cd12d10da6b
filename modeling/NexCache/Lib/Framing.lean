import Mathlib.Data.List.Basic

/-!
# Streams of records

A stream is a list of bytes that holds one record after the other.  `dec` takes one record
off the front; it answers `none` when the stream ends inside the record.  `replay dec` reads
records until it gets that answer; `replayRounds` is told the number of the round as well.

`Frames enc dec V` says that `dec` takes back what `enc` lays out, for the records in `V`, and
that it never looks behind the record it takes.  It then notices every cut (`Frames.cut`), and
of a stream that is cut anywhere exactly the records that lie wholly before the cut are read
(`Frames.replay_take`).
-/

namespace Framing

open List

variable {α β : Type*}

/-- At most `fuel` records. -/
def records (dec : List β → Option (α × List β)) : Nat → List β → List α
  | 0, _ => []
  | fuel + 1, bs =>
    match dec bs with
    | none => []
    | some (a, rest) => a :: records dec fuel rest

def replay (dec : List β → Option (α × List β)) (bs : List β) : List α :=
  records dec bs.length bs

/-- As `records`, with a decoder for each round. -/
def recordsFrom (dec : Nat → List β → Option (α × List β)) : Nat → Nat → List β → List α
  | 0, _, _ => []
  | fuel + 1, i, bs =>
    match dec i bs with
    | none => []
    | some (a, rest) => a :: recordsFrom dec fuel (i + 1) rest

def replayRounds (dec : Nat → List β → Option (α × List β)) (bs : List β) : List α :=
  recordsFrom dec bs.length 0 bs

/-- The records that end at `n` or before, the first of them starting at `start`. -/
def wholeUpTo (size : α → Nat) (n : Nat) : Nat → List α → List α
  | _, [] => []
  | start, a :: as =>
    (if start + size a ≤ n then [a] else []) ++ wholeUpTo size n (start + size a) as

/-- Every record takes some bytes off the stream. -/
def Shrinks (dec : List β → Option (α × List β)) : Prop :=
  ∀ bs a rest, dec bs = some (a, rest) → rest.length < bs.length

section Replay

variable {dec : List β → Option (α × List β)} {bs rest : List β} {a : α}

theorem records_fuel (h : Shrinks dec) : ∀ (fuel : Nat) (bs : List β), bs.length ≤ fuel →
    records dec fuel bs = replay dec bs := by
  intro fuel
  induction fuel using Nat.strongRecOn with
  | ind fuel ih =>
    intro bs hlen
    cases hbs : bs with
    | nil =>
      subst hbs
      cases fuel with
      | zero => rfl
      | succ fuel =>
        -- nothing can be taken off an empty stream
        cases hdec : dec [] with
        | none => simp [records, replay, hdec]
        | some r => exact absurd (h [] r.1 r.2 hdec) (Nat.not_lt_zero _)
    | cons b bs' =>
      subst hbs
      rw [length_cons] at hlen
      obtain ⟨fuel, rfl⟩ := Nat.exists_eq_succ_of_ne_zero (show fuel ≠ 0 by omega)
      rw [replay, length_cons, records, records]
      cases hdec : dec (b :: bs') with
      | none => rfl
      | some r =>
        have hshorter := h _ r.1 r.2 hdec
        rw [length_cons] at hshorter
        have hleft := ih fuel (Nat.lt_succ_self _) r.2 (by omega)
        have hright := ih bs'.length (by omega) r.2 (by omega)
        simp only [hleft, hright]

/-- Rounds that do not depend on their number. -/
theorem replayRounds_eq {γ : Type*} {dec' : Nat → List β → Option (γ × List β)} {f : α → γ}
    (h : ∀ i bs, dec' i bs = (dec bs).map (Prod.map f id)) (bs : List β) :
    replayRounds dec' bs = (replay dec bs).map f := by
  have hfrom : ∀ fuel i bs, recordsFrom dec' fuel i bs = (records dec fuel bs).map f := by
    intro fuel
    induction fuel with
    | zero => intro i bs; rfl
    | succ fuel ih =>
      intro i bs
      rw [recordsFrom, records, h]
      cases dec bs with
      | none => rfl
      | some p => exact congrArg (f p.1 :: ·) (ih (i + 1) p.2)
  exact hfrom bs.length 0 bs

theorem replay_of_none (hdec : dec bs = none) : replay dec bs = [] := by
  rw [replay]
  cases bs with
  | nil => rfl
  | cons b bs => rw [length_cons, records, hdec]

theorem replay_of_some (h : Shrinks dec) (hdec : dec bs = some (a, rest)) :
    replay dec bs = a :: replay dec rest := by
  have hlen := h bs a rest hdec
  obtain ⟨n, hn⟩ := Nat.exists_eq_succ_of_ne_zero (Nat.ne_of_gt (Nat.zero_lt_of_lt hlen))
  rw [replay, hn, records, hdec]
  dsimp only
  rw [records_fuel h n rest (by omega)]

/-- Whole records are read, whatever follows them. -/
theorem replay_flatMap_append {γ : Type*} (h : Shrinks dec) {enc : γ → List β} {f : γ → α}
    (rest : List β) : ∀ cs : List γ, (∀ c ∈ cs, ∀ more, dec (enc c ++ more) = some (f c, more)) →
      replay dec (cs.flatMap enc ++ rest) = cs.map f ++ replay dec rest := by
  intro cs
  induction cs with
  | nil => intro _; rfl
  | cons c cs ih =>
    intro hdec
    rw [flatMap_cons, append_assoc, replay_of_some h (hdec c (by simp) _),
      ih fun b hb => hdec b (by simp [hb]), map_cons, cons_append]

end Replay

/-- `dec` takes back what `enc` has laid out, and what follows a record does not matter. -/
structure Frames (enc : α → List β) (dec : List β → Option (α × List β)) (V : α → Prop) :
    Prop where
  shrinks : Shrinks dec
  whole : ∀ a, V a → dec (enc a) = some (a, [])
  extend : ∀ bs a rest, dec bs = some (a, rest) → ∀ more, dec (bs ++ more) = some (a, rest ++ more)

namespace Frames

variable {enc : α → List β} {dec : List β → Option (α × List β)} {V : α → Prop}

variable (h : Frames enc dec V) {as : List α}
include h

theorem dec_append {a : α} (ha : V a) (rest : List β) : dec (enc a ++ rest) = some (a, rest) :=
  h.extend _ _ _ (h.whole a ha) rest

/-- A record that is cut short is not taken: it would be taken from the whole one with
something left over. -/
theorem cut {a : α} (ha : V a) {n : Nat} (hn : n < (enc a).length) :
    dec ((enc a).take n) = none := by
  cases hdec : dec ((enc a).take n) with
  | none => rfl
  | some r =>
    have hwhole := h.extend _ r.1 r.2 hdec ((enc a).drop n)
    rw [take_append_drop, h.whole a ha] at hwhole
    have hleft : r.2 ++ (enc a).drop n = [] := (Prod.mk.inj (Option.some.inj hwhole)).2.symm
    have hlen := congrArg List.length hleft
    rw [length_append, length_drop, length_nil] at hlen
    omega

theorem replay_append (rest : List β) (hv : ∀ a ∈ as, V a) :
    replay dec (as.flatMap enc ++ rest) = as ++ replay dec rest := by
  have hdec : ∀ a ∈ as, ∀ more, dec (enc a ++ more) = some (id a, more) :=
    fun a ha more => h.dec_append (hv a ha) more
  rw [replay_flatMap_append h.shrinks rest as hdec, map_id]

theorem replay_flatMap (hv : ∀ a ∈ as, V a) : replay dec (as.flatMap enc) = as := by
  have hall := h.replay_append [] hv
  rwa [append_nil, show replay dec [] = [] from rfl, append_nil] at hall

omit h

theorem wholeUpTo_of_lt {size : α → Nat} {n : Nat} : ∀ (as : List α) (start : Nat),
    n < start → wholeUpTo size n start as = [] := by
  intro as
  induction as with
  | nil => intro start _; rfl
  | cons a as ih =>
    intro start hstart
    rw [wholeUpTo, if_neg (by omega), ih (start + size a) (by omega), append_nil]

/-- **A stream that is cut after `n` bytes** gives the records that lie wholly before the
cut. -/
theorem replay_take (h : Frames enc dec V) : ∀ (as : List α) (n start : Nat), (∀ a ∈ as, V a) →
    replay dec ((as.flatMap enc).take n)
      = wholeUpTo (fun a => (enc a).length) (start + n) start as := by
  intro as
  induction as with
  | nil => intro n start _; rw [flatMap_nil, take_nil]; rfl
  | cons a as ih =>
    intro n start hv
    have ha := hv a (by simp)
    rw [flatMap_cons, wholeUpTo]
    by_cases hn : (enc a).length ≤ n
    · obtain ⟨m, rfl⟩ := Nat.exists_eq_add_of_le hn
      rw [take_length_add_append, replay_of_some h.shrinks (h.dec_append ha _),
        ih m (start + (enc a).length) fun b hb => hv b (by simp [hb]), if_pos (by omega),
        singleton_append, Nat.add_assoc]
    · -- the cut lies inside the first record
      rw [take_append_of_le_length (by omega),
        replay_of_none (h.cut ha (by omega)), if_neg (by omega),
        wholeUpTo_of_lt as _ (by omega), append_nil]

end Frames

end Framing
