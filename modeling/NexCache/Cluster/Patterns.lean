import NexCache.Cluster.Slots
import NexCache.Util.Glob

/-!
# Slots of patterns

`patternHashSlot` of `cluster.c` gives a pattern the slot of all keys that it matches, or -1.  It
reads the pattern up to the end of a hash tag and gives up at a character that `stringmatchlen`
does not take literally.  A key that is matched begins with what was read, so the part of it
that is hashed is that of the pattern.
-/

namespace NexCache.Cluster

open Util.Glob List

/-- The loop of `patternHashSlot` at index `i`: `s` is the index of the first opening brace, -1
before there is one and -2 behind an empty tag. -/
def patternLoop (pattern : List UInt8) (s : Int) (i : Nat) : List UInt8 → Int
  | [] => (crc16 pattern &&& 0x3FFF).toNat
  | b :: rest =>
    if b = 42 ∨ b = 63 ∨ b = 91 then -1
    else if b = 92 then -1
    else if s = -1 ∧ b = braceOpen then patternLoop pattern i (i + 1) rest
    else if 0 ≤ s ∧ b = braceClose ∧ i = s + 1 then patternLoop pattern (-2) (i + 1) rest
    else if 0 ≤ s ∧ b = braceClose then
      (crc16 ((pattern.drop (s.toNat + 1)).take (i - s.toNat - 1)) &&& 0x3FFF).toNat
    else patternLoop pattern s (i + 1) rest

def patternHashSlot (pattern : List UInt8) : Int := patternLoop pattern (-1) 0 pattern

/-- The matcher takes the character as it is. -/
def Literal (b : UInt8) : Prop := b ≠ 42 ∧ b ≠ 63 ∧ b ≠ 91 ∧ b ≠ 92

/-- What is matched begins with the literal beginning of the pattern. -/
theorem matchLoop_literal (char : UInt8 → Int) {lit rest : List UInt8} (hlit : ∀ b ∈ lit, Literal b)
    {key : List UInt8} {skip : Bool} {nesting : Nat}
    (h : (matchLoop char false (lit ++ rest) key skip nesting).1 = true) :
    ∃ tail, key = lit ++ tail ∧ (rest = [] → tail = []) := by
  induction lit generalizing key with
  | nil =>
    refine ⟨key, rfl, fun hrest => ?_⟩
    rw [hrest, nil_append, matchLoop] at h
    exact isEmpty_iff.mp h
  | cons b lit ih =>
    obtain ⟨hb, hlit⟩ := forall_mem_cons.mp hlit
    cases key with
    | nil =>
      rw [cons_append, matchLoop] at h
      cases h
    | cons c key =>
      rw [cons_append, matchLoop, if_neg hb.1, if_neg hb.2.1, if_neg hb.2.2.1] at h
      simp only [hb.2.2.2, false_and, if_false] at h
      split at h
      · cases h
      · rename_i hsame
        obtain rfl : b = c := sameChar_iff.mp (Bool.eq_true_of_not_eq_false hsame)
        rw [afterToken] at h
        split at h
        · -- the string ends here, and only stars could follow
          rename_i hend
          subst hend
          cases lit with
          | nil => exact ⟨[], rfl, fun _ => rfl⟩
          | cons b' lit =>
            have hne := (hlit b' mem_cons_self).1
            simp [skipStars, hne] at h
        · obtain ⟨tail, rfl, htail⟩ := ih hlit h
          exact ⟨tail, rfl, htail⟩

/-! ### The hash tag -/

/-- What the loop has read when it is in state `s`. -/
inductive Scanned : Int → List UInt8 → Prop
  | outside {a : List UInt8} : braceOpen ∉ a → Scanned (-1) a
  | inside {a t : List UInt8} : braceOpen ∉ a → braceClose ∉ t →
      Scanned a.length (a ++ braceOpen :: t)
  | empty {a : List UInt8} (t : List UInt8) : braceOpen ∉ a →
      Scanned (-2) (a ++ braceOpen :: braceClose :: t)

variable {a t pre : List UInt8} {c : UInt8} {s : Int}

theorem memchr_none (h : c ∉ a) : memchr a c = none :=
  findIdx?_eq_none_iff.mpr fun _ hx => beq_false_of_ne (ne_of_mem_of_not_mem hx h)

theorem memchr_split (h : c ∉ a) (t : List UInt8) : memchr (a ++ c :: t) c = some a.length := by
  have hnone := memchr_none h
  rw [memchr] at hnone ⊢
  simp [findIdx?_append, hnone, findIdx?_cons]

theorem hashTag_closed (ha : braceOpen ∉ a) (ht : braceClose ∉ t) (tail : List UInt8) :
    hashTag (a ++ braceOpen :: (t ++ braceClose :: tail)) =
      if t = [] then a ++ braceOpen :: (t ++ braceClose :: tail) else t := by
  simp [hashTag, memchr_split ha, memchr_split ht]

/-- A tag that is not closed, or is empty, is none. -/
theorem Scanned.hashTag_eq (h : Scanned s pre) : hashTag pre = pre := by
  cases h with
  | outside ha => rw [hashTag, memchr_none ha]
  | inside ha ht => simp [hashTag, memchr_split ha, memchr_none ht]
  | empty t ha => exact hashTag_closed ha not_mem_nil t

/-- The slot is that of the keys which begin with a literal beginning of the pattern. -/
def SlotOfMatches (pattern : List UInt8) (slot : Int) : Prop :=
  ∃ lit rest, pattern = lit ++ rest ∧ (∀ b ∈ lit, Literal b) ∧
    ∀ tail, (rest = [] → tail = []) → keyHashSlot (lit ++ tail) = slot

theorem patternLoop_spec {pattern rest : List UInt8} (hpattern : pattern = pre ++ rest)
    (hlit : ∀ b ∈ pre, Literal b) (hs : Scanned s pre)
    (h : 0 ≤ patternLoop pattern s pre.length rest) :
    SlotOfMatches pattern (patternLoop pattern s pre.length rest) := by
  induction rest generalizing pre s with
  | nil =>
    refine ⟨pre, [], hpattern, hlit, fun tail htail => ?_⟩
    rw [htail rfl, append_nil, keyHashSlot_eq, hs.hashTag_eq, patternLoop, toNat_and_slotMask,
      hpattern, append_nil]
  | cons b rest ih =>
    rw [patternLoop] at h ⊢
    by_cases hwild : b = 42 ∨ b = 63 ∨ b = 91
    · rw [if_pos hwild] at h
      cases h
    by_cases hescape : b = 92
    · rw [if_neg hwild, if_pos hescape] at h
      cases h
    rw [if_neg hwild, if_neg hescape] at h ⊢
    have hb : ∀ x ∈ pre ++ [b], Literal x := by
      rw [forall_mem_append, forall_mem_singleton]
      exact ⟨hlit, by tauto, by tauto, by tauto, hescape⟩
    have hnext : ∀ {s'}, Scanned s' (pre ++ [b]) →
        0 ≤ patternLoop pattern s' (pre.length + 1) rest →
        SlotOfMatches pattern (patternLoop pattern s' (pre.length + 1) rest) := by
      intro s' hs' h'
      rw [← length_concat, concat_eq_append] at h' ⊢
      exact ih (by simp [hpattern]) hb hs' h'
    cases hs with
    | outside ha =>
      by_cases hopen : b = braceOpen
      · rw [if_pos ⟨rfl, hopen⟩] at h ⊢
        exact hnext (hopen ▸ .inside ha not_mem_nil) h
      · simp only [hopen, and_false, if_false, show ¬ (0 : Int) ≤ -1 by decide, false_and] at h ⊢
        exact hnext (.outside (by simp [ha, Ne.symm hopen])) h
    | @inside a t ha ht =>
      rw [if_neg (by omega)] at h ⊢
      by_cases hclose : b = braceClose
      · subst hclose
        cases t with
        | nil =>
          rw [if_pos ⟨by omega, rfl, by simp⟩] at h ⊢
          exact hnext (by simpa using Scanned.empty [] ha) h
        | cons x t =>
          rw [if_neg (by simp; omega), if_pos ⟨by omega, rfl⟩]
          refine ⟨_, rest, by simp [hpattern], hb, fun tail _ => ?_⟩
          have htag := hashTag_closed ha ht tail
          rw [if_neg (cons_ne_nil x t)] at htag
          have hkey : a ++ braceOpen :: x :: t ++ [braceClose] ++ tail =
              a ++ braceOpen :: (x :: t ++ braceClose :: tail) := by simp
          have hcut : (pattern.drop ((a.length : Int).toNat + 1)).take
              ((a ++ braceOpen :: x :: t).length - (a.length : Int).toNat - 1) = x :: t := by
            simp [hpattern]
          rw [hkey, keyHashSlot_eq, htag, hcut, toNat_and_slotMask]
      · simp only [hclose, false_and, and_false, if_false] at h ⊢
        have hnot : braceClose ∉ t ++ [b] := by simp [ht, Ne.symm hclose]
        exact hnext (by simpa using Scanned.inside ha hnot) h
    | empty t ha =>
      exact hnext (by simpa using Scanned.empty (t ++ [b]) ha) h

/-- **Patterns are routed to their keys**: a key that the pattern matches is in the slot of the
pattern, if that has one. -/
theorem pattern_slot_sound (char : UInt8 → Int) {pattern key : List UInt8}
    (hslot : 0 ≤ patternHashSlot pattern) (hmatch : stringmatchlen char false pattern key = true) :
    keyHashSlot key = patternHashSlot pattern := by
  obtain ⟨lit, rest, hpattern, hlit, hkeys⟩ := @patternLoop_spec [] _ pattern pattern rfl (by simp)
    (.outside not_mem_nil) hslot
  rw [stringmatchlen, stringmatchlenImpl, if_neg (by decide), hpattern] at hmatch
  obtain ⟨tail, rfl, htail⟩ := matchLoop_literal char hlit hmatch
  exact hkeys tail htail

/-- `"{u}*"` has the slot of `"{u}1"`, and `"*{u}"` has none. -/
theorem pattern_slot_sound_tag :
    keyHashSlot [123, 117, 125, 49] = patternHashSlot [123, 117, 125, 42] ∧
      patternHashSlot [42, 123, 117, 125] = -1 := by
  have hmatch : stringmatchlen signedChar false [123, 117, 125, 42] [123, 117, 125, 49] = true := by
    simp [stringmatchlen, stringmatchlenImpl, matchLoop, afterToken, skipStars, sameChar]
  exact ⟨pattern_slot_sound signedChar (by decide +kernel) hmatch, rfl⟩

end NexCache.Cluster
