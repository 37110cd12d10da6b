import Mathlib.Algebra.BigOperators.Group.List.Basic
import Mathlib.Data.Nat.Bitwise

/-!
# Frequencies that decay

`lrulfu.c` keeps in the 21 bits of `o->lru` a frequency of 8 bits and the minute, modulo `2^13`, in
which it was written.  A read takes one off for every `lfu-decay-time` minutes since then and writes
the result back, with the minute of the read.

* `frequency_unobserved_iff`: reads in between leave the frequency as it would be without them iff
  the minutes that they cut off the periods are fewer than a period, or nothing is left of it.

Times are in minutes, with the milliseconds of the minute beside them.
-/

namespace NexCache.Lfu

open List

def LRULFU_MASK : Nat := 2 ^ 21 - 1

def LFU_MINUTES_MASK : Nat := 2 ^ 13 - 1

/-- The static variables of `lrulfu.c`, with the configuration. -/
structure Clock where
  lruClock : Nat
  lfuClockMinutes : Nat
  isUsingLfuPolicy : Bool
  lfuConfigDecayTime : Nat

def lrulfuUpdateClockAndPolicy (mstime : Nat) (isPolicyLfu : Bool) (decayTime : Nat) : Clock :=
  ⟨mstime / 1000 &&& LRULFU_MASK, mstime / 60000 % 2 ^ 16, isPolicyLfu, decayTime⟩

def lruGetIdleSecs (clock : Clock) (lru : Nat) : Nat :=
  (clock.lruClock + 2 ^ 32 - lru) &&& LRULFU_MASK

def LFUGetTimeInMinutes (clock : Clock) : Nat := clock.lfuClockMinutes &&& LFU_MINUTES_MASK

def lfuImport (clock : Clock) (freq : Nat) : Nat := LFUGetTimeInMinutes clock <<< 8 ||| freq

def LFUDecay (clock : Clock) (lfu : Nat) : Nat :=
  let now := LFUGetTimeInMinutes clock
  let prevTime := lfu >>> 8 &&& LFU_MINUTES_MASK
  let freq := lfu % 2 ^ 8
  let elapsed := (now + 2 ^ 32 - prevTime) &&& LFU_MINUTES_MASK
  let numPeriods :=
    if clock.lfuConfigDecayTime ≠ 0 then elapsed / clock.lfuConfigDecayTime else 0
  let freq := if numPeriods > freq then 0 else freq - numPeriods
  now <<< 8 ||| freq

/-- The new value of the field, and the frequency. -/
def lfuGetFrequency (clock : Clock) (lfu : Nat) : Nat × Nat :=
  (LFUDecay clock lfu, LFUDecay clock lfu % 2 ^ 8)

def lrulfuGetIdleness (clock : Clock) (lrulfu : Nat) : Nat × Nat :=
  if clock.isUsingLfuPolicy then
    ((lfuGetFrequency clock lrulfu).1, 255 - (lfuGetFrequency clock lrulfu).2)
  else (lrulfu, lruGetIdleSecs clock lrulfu)

/-- `o->lru` has 21 bits. -/
def objectGetLFUFrequency (clock : Clock) (lru : Nat) : Nat × Nat :=
  ((lfuGetFrequency clock lru).1 % 2 ^ 21, (lfuGetFrequency clock lru).2)

def objectGetIdleness (clock : Clock) (lru : Nat) : Nat × Nat :=
  ((lrulfuGetIdleness clock lru).1 % 2 ^ 21, (lrulfuGetIdleness clock lru).2)

/-- A read, some minutes after what was done to the object before. -/
structure Look where
  gap : Nat
  ms : Fin 60000
  viaIdleness : Bool

/-- The clock in a minute, under an LFU policy. -/
def clockAt (d minute : Nat) (ms : Fin 60000) : Clock :=
  lrulfuUpdateClockAndPolicy (minute * 60000 + ms) true d

/-- The field after some reads. -/
def afterLooks (d : Nat) : Nat → Nat → List Look → Nat
  | _, lru, [] => lru
  | minute, lru, l :: ls =>
    let clock := clockAt d (minute + l.gap) l.ms
    let lru := if l.viaIdleness then (objectGetIdleness clock lru).1
      else (objectGetLFUFrequency clock lru).1
    afterLooks d (minute + l.gap) lru ls

/-- The frequency that is read `gap` minutes after the last of some reads. -/
def frequencyAfter (d minute : Nat) (ms : Fin 60000) (f : Nat) (ls : List Look) (gap : Nat)
    (ms' : Fin 60000) : Nat :=
  let lru := afterLooks d minute (lfuImport (clockAt d minute ms) f) ls
  (objectGetLFUFrequency (clockAt d (minute + (ls.map Look.gap).sum + gap) ms') lru).2

/-! ### One read -/

/-- A minute and a frequency in one field. -/
def pack (minute freq : Nat) : Nat := (minute % 2 ^ 13) <<< 8 ||| freq

section Read

variable {d minute freq : Nat} (hfreq : freq < 2 ^ 8)

theorem getTimeInMinutes_clockAt (ms : Fin 60000) :
    LFUGetTimeInMinutes (clockAt d minute ms) = minute % 2 ^ 13 := by
  have hdiv : (minute * 60000 + ms) / 60000 = minute := by omega
  show (minute * 60000 + ms) / 60000 % 2 ^ 16 &&& (2 ^ 13 - 1) = _
  rw [hdiv, Nat.and_two_pow_sub_one_eq_mod, Nat.mod_mod_of_dvd _ (by decide)]

include hfreq

theorem pack_eq : pack minute freq = minute % 2 ^ 13 * 2 ^ 8 + freq := by
  rw [pack, ← Nat.shiftLeft_add_eq_or_of_lt hfreq, Nat.shiftLeft_eq]

/-- A read takes off the periods that are over. -/
theorem decay_pack (hd : 1 ≤ d) {gap : Nat} (hgap : gap < 2 ^ 13) (ms : Fin 60000) :
    LFUDecay (clockAt d (minute + gap) ms) (pack minute freq) =
      pack (minute + gap) (freq - gap / d) := by
  have hprev : pack minute freq >>> 8 &&& LFU_MINUTES_MASK = minute % 2 ^ 13 := by
    rw [pack_eq hfreq, Nat.shiftRight_eq_div_pow, LFU_MINUTES_MASK, Nat.and_two_pow_sub_one_eq_mod]
    omega
  have hold : pack minute freq % 2 ^ 8 = freq := by
    rw [pack_eq hfreq]
    omega
  have helapsed : ((minute + gap) % 2 ^ 13 + 2 ^ 32 - minute % 2 ^ 13) &&& LFU_MINUTES_MASK =
      gap := by
    rw [LFU_MINUTES_MASK, Nat.and_two_pow_sub_one_eq_mod]
    omega
  have hperiod : (clockAt d (minute + gap) ms).lfuConfigDecayTime = d := rfl
  rw [LFUDecay, getTimeInMinutes_clockAt]
  simp only [hprev, hold, helapsed, hperiod, if_pos (show d ≠ 0 by omega)]
  rw [pack]
  split_ifs with hover
  · rw [Nat.sub_eq_zero_of_le hover.le]
  · rfl

/-- Both ways to read write the same field. -/
theorem look_pack (hd : 1 ≤ d) {l : Look} (hgap : l.gap < 2 ^ 13) :
    (if l.viaIdleness then (objectGetIdleness (clockAt d (minute + l.gap) l.ms)
      (pack minute freq)).1
      else (objectGetLFUFrequency (clockAt d (minute + l.gap) l.ms) (pack minute freq)).1) =
      pack (minute + l.gap) (freq - l.gap / d) := by
  have hless : freq - l.gap / d < 2 ^ 8 := Nat.sub_lt_of_lt hfreq
  have hfits : pack (minute + l.gap) (freq - l.gap / d) < 2 ^ 21 := by
    rw [pack_eq hless]
    omega
  rw [← Nat.mod_eq_of_lt hfits, ← decay_pack hfreq hd hgap l.ms]
  exact ite_self _

end Read

/-! ### Reads in between -/

theorem afterLooks_pack {d : Nat} (hd : 1 ≤ d) {ls : List Look} :
    ∀ {minute freq : Nat}, freq < 2 ^ 8 → (ls.map Look.gap).sum < 2 ^ 13 →
      afterLooks d minute (pack minute freq) ls =
        pack (minute + (ls.map Look.gap).sum) (freq - (ls.map (·.gap / d)).sum) := by
  induction ls with
  | nil => intro minute freq _ _; rfl
  | cons l ls ih =>
    intro minute freq hfreq hsum
    simp only [map_cons, sum_cons] at hsum ⊢
    rw [afterLooks, look_pack hfreq hd (by omega),
      ih (Nat.sub_lt_of_lt hfreq) (by omega), Nat.add_assoc, Nat.sub_sub]

/-- The periods of the whole time are those of its parts, and what the rests of these amount to. -/
theorem sum_div {d : Nat} (hd : 1 ≤ d) (gaps : List Nat) :
    gaps.sum / d = (gaps.map (· / d)).sum + (gaps.map (· % d)).sum / d := by
  have hsum : gaps.sum = d * (gaps.map (· / d)).sum + (gaps.map (· % d)).sum := by
    induction gaps with
    | nil => rfl
    | cons g gs ih =>
      simp only [map_cons, sum_cons]
      rw [ih, Nat.mul_add]
      have hg := Nat.div_add_mod g d
      omega
  rw [hsum, Nat.mul_add_div hd]

section Reads

variable {d f gap : Nat} (hd : 1 ≤ d) (hf : f < 2 ^ 8) (minute : Nat) (ms ms' : Fin 60000)
  (ls : List Look) {gaps : List Nat} (hgaps : gaps = ls.map Look.gap ++ [gap])
  (htime : gaps.sum < 8192)
include hd hf hgaps htime

theorem frequencyAfter_eq :
    frequencyAfter d minute ms f ls gap ms' = f - (gaps.map (· / d)).sum := by
  subst hgaps
  simp only [sum_append, map_append, map_map, map_singleton, sum_singleton] at htime ⊢
  have hleft : f - (ls.map (·.gap / d)).sum < 2 ^ 8 := Nat.sub_lt_of_lt hf
  have hset : lfuImport (clockAt d minute ms) f = pack minute f := by
    rw [lfuImport, getTimeInMinutes_clockAt, pack]
  rw [frequencyAfter, hset, afterLooks_pack hd hf (by omega)]
  show LFUDecay _ _ % 2 ^ 8 = _
  rw [decay_pack hleft hd (by omega), pack_eq (Nat.sub_lt_of_lt hleft), Nat.mul_add_mod_self_right,
    Nat.mod_eq_of_lt (Nat.sub_lt_of_lt hleft), Nat.sub_sub]
  rfl

/-- **Reads in between.**  The frequency at the end is what it would be without them iff the minutes
beyond whole periods, over all the gaps, make up less than a period, or the periods that the reads
count use up the frequency. -/
theorem frequency_unobserved_iff :
    frequencyAfter d minute ms f ls gap ms' = f - gaps.sum / d ↔
      (gaps.map (· % d)).sum < d ∨ f ≤ (gaps.map (· / d)).sum := by
  rw [frequencyAfter_eq hd hf _ _ _ _ hgaps htime, sum_div hd, ← Nat.div_eq_zero_iff_lt hd]
  generalize (gaps.map (· % d)).sum / d = extra
  omega

/-- **Reads never speed the decay up**, and never raise the frequency. -/
theorem frequency_bounds : f - gaps.sum / d ≤ frequencyAfter d minute ms f ls gap ms' ∧
    frequencyAfter d minute ms f ls gap ms' ≤ f := by
  rw [frequencyAfter_eq hd hf _ _ _ _ hgaps htime, sum_div hd]
  exact ⟨Nat.sub_le_sub_left (Nat.le_add_right ..) f, Nat.sub_le ..⟩

end Reads

theorem frequency_bounds_three : 5 - [3, 1].sum / 2 ≤ frequencyAfter 2 0 0 5 [⟨3, 0, true⟩] 1 0 ∧
    frequencyAfter 2 0 0 5 [⟨3, 0, true⟩] 1 0 ≤ 5 :=
  frequency_bounds (by decide) (by decide) 0 0 0 [⟨3, 0, true⟩] rfl (by decide)

/-- Two reads, each after a full period of ten minutes. -/
theorem frequency_unobserved_iff_full :
    frequencyAfter 10 0 0 5 [⟨10, 0, true⟩] 10 0 = 5 - [10, 10].sum / 10 :=
  (frequency_unobserved_iff (by decide) (by decide) 0 0 0 [⟨10, 0, true⟩] rfl (by decide)).mpr
    (.inl (by decide))

/-- With a period of two minutes and a read in every minute the frequency never falls. -/
theorem frequency_stays :
    frequencyAfter 2 0 0 5 [⟨1, 0, true⟩, ⟨1, 0, true⟩, ⟨1, 0, false⟩] 1 0 = 5 ∧
      frequencyAfter 2 0 0 5 [] 4 0 = 3 := by
  decide +kernel

end NexCache.Lfu
