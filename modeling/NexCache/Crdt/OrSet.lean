import NexCache.Lib.Machine
import NexCache.Lib.Gossip
import Mathlib.Data.List.Nodup

/-!
# The OR-Set

`crdt.c`: every `orset_add` appends an entry with a fresh tag, `(origin_node, add_tag)`,
and a remove marks the entries of the value that it finds.  A merge marks what the other
set has marked and appends the entries it has not got.

An add is identified by its place in the log of updates.  `OrInv` says what the entries
of a replica are: one for each add it knows, marked iff it knows a remove of the same
value whose author knew the add.
-/

namespace NexCache.Crdt

open Machine Runs Gossip Function List Nat

/-- A member as the functions receive it: `len` is a `uint16_t`. -/
abbrev Member := SizedBytes 16

/-- `value` is the whole array of 256 bytes; any `isRemoved` but zero marks the entry. -/
structure ORSetEntry where
  value : List UInt8
  valueLen : Nat
  addTag : Nat
  originNode : Nat
  isRemoved : Nat
  deriving DecidableEq

/-- `count` is the length of `entries`. -/
structure ORSet where
  entries : List ORSetEntry
  capacity : Nat
  nextTag : Nat
  selfNode : Nat
  deriving DecidableEq

namespace ORSetEntry

def tag (e : ORSetEntry) : Nat × Nat := (e.originNode, e.addTag)

/-- The bytes of the value. -/
def member (e : ORSetEntry) : List UInt8 := e.value.take e.valueLen

/-- `!e->is_removed && e->value_len == len && memcmp(e->value, value, len) == 0`. -/
def Matches (e : ORSetEntry) (v : Member) : Prop :=
  e.isRemoved = 0 ∧ e.valueLen = v.len ∧ e.value.take v.len = v.bytes

instance (e : ORSetEntry) (v : Member) : Decidable (e.Matches v) :=
  inferInstanceAs (Decidable (_ ∧ _ ∧ _))

/-- One round of the loop of `orset_remove`. -/
def kill (v : Member) (e : ORSetEntry) : ORSetEntry :=
  if e.Matches v then { e with isRemoved := 1 } else e

end ORSetEntry

open ORSetEntry

def orsetCreate (selfNodeId : Nat) : ORSet := ⟨[], 64, 1, selfNodeId⟩

/-- The capacity with room for one more entry.  Blocks of any size but zero are allocated; where
the doubled capacity is zero `realloc` frees the array and returns `NULL`, which is `some none`.
`none` where `entries[count]` lies outside the new block. -/
def orsetReserve (s : ORSet) : Option (Option Nat) :=
  if s.entries.length ≥ s.capacity then
    let newCap := u32 (s.capacity * 2)
    if newCap = 0 then some none
    else if s.entries.length < newCap then some (some newCap) else none
  else some (some s.capacity)

/-- The lengths that `orset_add` takes. -/
def Member.Accepted (v : Member) : Prop := ¬(v.len = 0 ∨ v.len > 255)

instance (v : Member) : Decidable v.Accepted := inferInstanceAs (Decidable (¬_))

/-- The entry that `orset_add` fills in, after clearing it. -/
def orsetEntry (s : ORSet) (v : Member) : ORSetEntry :=
  ⟨v.bytes ++ replicate (256 - v.len) 0, v.len, s.nextTag, s.selfNode, 0⟩

/-- The set is `none` if the call leaves it with a freed array. -/
def orsetAdd (s : ORSet) (v : Member) : Option (Option ORSet × Int) :=
  if v.len = 0 ∨ v.len > 255 then some (some s, -1)
  else
    (orsetReserve s).map fun
      | none => (none, -1)
      | some cap =>
        (some { s with
          entries := s.entries ++ [orsetEntry s v]
          capacity := cap
          nextTag := u64 (s.nextTag + 1) }, 0)

def orsetRemove (s : ORSet) (v : Member) : ORSet × Int :=
  if v.len = 0 then (s, -1)
  else
    ({ s with entries := s.entries.map (ORSetEntry.kill v) },
      if s.entries.any (fun e => e.Matches v) then 1 else 0)

def orsetContains (s : ORSet) (v : Member) : Bool :=
  if v.len = 0 then false else s.entries.any (fun e => e.Matches v)

def orsetSize (s : ORSet) : Nat := (s.entries.filter fun e => e.isRemoved = 0).length

/-- The inner loop of the merge: the mark is added to the first entry with the tag. -/
def orsetMark (se : ORSetEntry) : List ORSetEntry → Option (List ORSetEntry)
  | [] => none
  | e :: es =>
    if e.addTag = se.addTag ∧ e.originNode = se.originNode then
      some ({ e with isRemoved := e.isRemoved ||| se.isRemoved } :: es)
    else (orsetMark se es).map (e :: ·)

/-- One round of the outer loop; `none` also where it ends the loop with a freed array. -/
def orsetMergeEntry (dst : ORSet) (se : ORSetEntry) : Option ORSet :=
  match orsetMark se dst.entries with
  | some es => some { dst with entries := es }
  | none =>
    (orsetReserve dst).join.map fun cap =>
      { dst with entries := dst.entries ++ [se], capacity := cap }

def orsetMerge (dst src : ORSet) : Option ORSet := src.entries.foldlM orsetMergeEntry dst

/-! ### Entries and values -/

/-- What every entry of a set is like that only `orset_add` has filled. -/
def ORSetEntry.Ok (e : ORSetEntry) : Prop := e.value.length = 256 ∧ e.valueLen ≤ 255

variable {e : ORSetEntry}

theorem ORSetEntry.Ok.matches_iff (h : e.Ok) {v : Member} :
    e.Matches v ↔ e.isRemoved = 0 ∧ e.member = v.bytes := by
  refine and_congr_right fun _ => ⟨fun ⟨hlen, hbytes⟩ => ?_, fun hmember => ?_⟩
  · rw [member, hlen, hbytes]
  · have hlen : e.valueLen = v.len := by
      have hlength := congrArg length hmember
      rw [member, length_take, h.1] at hlength
      have hle := h.2
      rw [SizedBytes.len]
      omega
    exact ⟨hlen, by rw [← hlen]; exact hmember⟩

theorem member_orsetEntry (s : ORSet) (v : Member) : (orsetEntry s v).member = v.bytes :=
  take_left

theorem orsetEntry_ok (s : ORSet) {v : Member} (hacc : v.Accepted) : (orsetEntry s v).Ok := by
  have hlen : v.len ≤ 255 := by
    rw [Member.Accepted] at hacc
    omega
  refine ⟨?_, hlen⟩
  have hbytes : v.bytes.length = v.len := rfl
  rw [orsetEntry, length_append, length_replicate]
  omega

section Kill

variable (v : Member) (e : ORSetEntry)

@[simp] theorem ORSetEntry.tag_kill : (e.kill v).tag = e.tag := by
  rw [kill]
  split <;> rfl

@[simp] theorem ORSetEntry.member_kill : (e.kill v).member = e.member := by
  rw [kill]
  split <;> rfl

theorem ORSetEntry.Ok.kill (h : e.Ok) : (e.kill v).Ok := by
  rw [ORSetEntry.kill]
  split <;> exact h

/-- A remove marks the entries of its value, and those only. -/
theorem ORSetEntry.Ok.removed_kill (h : e.Ok) :
    (e.kill v).isRemoved ≠ 0 ↔ e.isRemoved ≠ 0 ∨ e.member = v.bytes := by
  rw [ORSetEntry.kill]
  split
  · rename_i hmatch
    simp [(h.matches_iff.mp hmatch).2]
  · rename_i hmatch
    rw [h.matches_iff] at hmatch
    tauto

end Kill

theorem ORSetEntry.tag_eq_iff {e se : ORSetEntry} :
    e.addTag = se.addTag ∧ e.originNode = se.originNode ↔ e.tag = se.tag := by
  rw [tag, tag, Prod.mk.injEq, and_comm]

/-! ### Merging entries -/

/-- `R` holds the tags of `D` and `S`, with their values, marked where either is. -/
structure JoinSpec (D S R : List ORSetEntry) : Prop where
  tags : ∀ t, (∃ e ∈ R, e.tag = t) ↔ ∃ x ∈ D ++ S, x.tag = t
  entry : ∀ e ∈ R, ∃ x ∈ D ++ S, x.tag = e.tag ∧ x.value = e.value ∧ x.valueLen = e.valueLen
  removed : ∀ e ∈ R, e.isRemoved ≠ 0 ↔ ∃ x ∈ D ++ S, x.tag = e.tag ∧ x.isRemoved ≠ 0
  nodup : (R.map ORSetEntry.tag).Nodup

theorem joinSpec_append {D S : List ORSetEntry} (h : ((D ++ S).map tag).Nodup) :
    JoinSpec D S (D ++ S) where
  tags t := Iff.rfl
  entry e he := ⟨e, he, rfl, rfl, rfl⟩
  removed e he := by
    refine ⟨fun hr => ⟨e, he, rfl, hr⟩, fun ⟨x, hx, htag, hr⟩ => ?_⟩
    exact inj_on_of_nodup_map h hx he htag ▸ hr
  nodup := h

theorem JoinSpec.refl {D : List ORSetEntry} (h : (D.map tag).Nodup) : JoinSpec D [] D := by
  have hspec := @joinSpec_append D []
  rw [append_nil] at hspec
  exact hspec h

theorem JoinSpec.trans {D S R S' R' : List ORSetEntry} (h : JoinSpec D S R)
    (h' : JoinSpec R S' R') : JoinSpec D (S ++ S') R' where
  tags t := by
    rw [h'.tags]
    simp only [mem_append, or_and_right, exists_or] at *
    have hR := h.tags t
    simp only [mem_append, or_and_right, exists_or] at hR
    rw [hR, or_assoc]
  entry e he := by
    obtain ⟨x, hx, htag, hvalue, hlen⟩ := h'.entry e he
    rcases mem_append.mp hx with hx | hx
    · obtain ⟨y, hy, htag', hvalue', hlen'⟩ := h.entry x hx
      refine ⟨y, ?_, htag'.trans htag, hvalue'.trans hvalue, hlen'.trans hlen⟩
      rw [← append_assoc]
      exact mem_append_left _ hy
    · refine ⟨x, ?_, htag, hvalue, hlen⟩
      rw [← append_assoc]
      exact mem_append_right _ hx
  removed e he := by
    rw [h'.removed e he, ← append_assoc]
    constructor
    · rintro ⟨x, hx, htag, hr⟩
      rcases mem_append.mp hx with hx | hx
      · obtain ⟨y, hy, htag', hr'⟩ := (h.removed x hx).mp hr
        exact ⟨y, mem_append_left _ hy, htag'.trans htag, hr'⟩
      · exact ⟨x, mem_append_right _ hx, htag, hr⟩
    · rintro ⟨y, hy, htag, hr⟩
      rcases mem_append.mp hy with hy | hy
      · -- the marked entry has its tag in `R` too, and is marked there
        obtain ⟨x, hx, htag'⟩ := (h.tags e.tag).mpr ⟨y, hy, htag⟩
        exact ⟨x, mem_append_left _ hx, htag',
          (h.removed x hx).mpr ⟨y, hy, htag.trans htag'.symm, hr⟩⟩
      · exact ⟨y, mem_append_right _ hy, htag, hr⟩
  nodup := h'.nodup

theorem orsetMark_none {se : ORSetEntry} {D : List ORSetEntry} (h : orsetMark se D = none) :
    ∀ e ∈ D, e.tag ≠ se.tag := by
  induction D with
  | nil => simp
  | cons e es ih =>
    rw [orsetMark] at h
    split at h
    · simp at h
    · rename_i hne
      intro x hx
      rcases mem_cons.mp hx with rfl | hx
      · exact fun htag => hne (tag_eq_iff.mpr htag)
      · exact ih (Option.map_eq_none_iff.mp h) x hx

/-- What the inner loop does to the entry with the tag of `se`. -/
def ORSetEntry.mark (se e : ORSetEntry) : ORSetEntry :=
  if e.tag = se.tag then { e with isRemoved := e.isRemoved ||| se.isRemoved } else e

section Mark

variable (se e : ORSetEntry)

@[simp] theorem ORSetEntry.tag_mark : (se.mark e).tag = e.tag := by
  rw [mark]
  split <;> rfl

@[simp] theorem ORSetEntry.value_mark : (se.mark e).value = e.value := by
  rw [mark]
  split <;> rfl

@[simp] theorem ORSetEntry.valueLen_mark : (se.mark e).valueLen = e.valueLen := by
  rw [mark]
  split <;> rfl

theorem ORSetEntry.removed_mark :
    (se.mark e).isRemoved ≠ 0 ↔ e.isRemoved ≠ 0 ∨ (se.tag = e.tag ∧ se.isRemoved ≠ 0) := by
  rw [mark]
  split
  · rename_i htag
    simp only [ne_eq, or_eq_zero_iff, htag, true_and]
    tauto
  · rename_i htag
    simp [Ne.symm htag]

end Mark

variable {se : ORSetEntry}

/-- Where tags are unique, the first entry with the tag is the only one. -/
theorem orsetMark_some {D D' : List ORSetEntry} (h : orsetMark se D = some D')
    (hnodup : (D.map tag).Nodup) : (∃ e ∈ D, e.tag = se.tag) ∧ D' = D.map se.mark := by
  induction D generalizing D' with
  | nil => simp [orsetMark] at h
  | cons e es ih =>
    rw [map_cons, nodup_cons] at hnodup
    rw [orsetMark] at h
    split at h
    · rename_i heq
      have htag := tag_eq_iff.mp heq
      obtain rfl := Option.some.inj h
      refine ⟨⟨e, by simp, htag⟩, ?_⟩
      have hrest : es.map se.mark = es := by
        refine (map_congr_left fun x hx => ?_).trans (map_id es)
        have hne : x.tag ≠ se.tag := fun hx' =>
          hnodup.1 ((hx'.trans htag.symm) ▸ mem_map_of_mem hx)
        exact if_neg hne
      rw [map_cons, hrest, mark, if_pos htag]
    · rename_i heq
      obtain ⟨es', hes, rfl⟩ := Option.map_eq_some_iff.mp h
      obtain ⟨⟨x, hx, htag⟩, rfl⟩ := ih hes hnodup.2
      refine ⟨⟨x, mem_cons_of_mem e hx, htag⟩, ?_⟩
      rw [map_cons, mark, if_neg fun htag' => heq (tag_eq_iff.mpr htag')]

variable {D : List ORSetEntry}

theorem joinSpec_mark (hfound : ∃ e ∈ D, e.tag = se.tag)
    (hnodup : (D.map tag).Nodup) : JoinSpec D [se] (D.map se.mark) where
  tags t := by
    simp only [mem_map, exists_exists_and_eq_and, tag_mark, mem_append,
      mem_singleton]
    constructor
    · rintro ⟨x, hx, htag⟩
      exact ⟨x, .inl hx, htag⟩
    · rintro ⟨x, hx | rfl, rfl⟩
      · exact ⟨x, hx, rfl⟩
      · exact hfound
  entry e he := by
    obtain ⟨x, hx, rfl⟩ := mem_map.mp he
    exact ⟨x, mem_append_left _ hx, by simp⟩
  removed e he := by
    obtain ⟨x, hx, rfl⟩ := mem_map.mp he
    rw [removed_mark]
    simp only [tag_mark, mem_append, mem_singleton]
    constructor
    · rintro (hr | ⟨htag, hr⟩)
      · exact ⟨x, .inl hx, rfl, hr⟩
      · exact ⟨se, .inr rfl, htag, hr⟩
    · rintro ⟨y, hy | rfl, htag, hr⟩
      · exact .inl (inj_on_of_nodup_map hnodup hy hx htag ▸ hr)
      · exact .inr ⟨htag, hr⟩
  nodup := by
    have htags : tag ∘ se.mark = tag := funext (tag_mark se)
    rw [map_map, htags]
    exact hnodup

theorem nodup_concat (hnew : ∀ e ∈ D, e.tag ≠ se.tag)
    (hnodup : (D.map tag).Nodup) : ((D ++ [se]).map tag).Nodup := by
  rw [map_append, map_singleton]
  refine hnodup.append (nodup_singleton _) fun t ht ht' => ?_
  obtain ⟨x, hx, rfl⟩ := mem_map.mp ht
  exact hnew x hx (mem_singleton.mp ht')

/-! ### Room -/

/-- The capacity is a power of two that the entries do not exceed. -/
def ORSet.Room (s : ORSet) : Prop :=
  ∃ k, k ≤ 31 ∧ s.capacity = 2 ^ k ∧ s.entries.length ≤ s.capacity

/-- With fewer than `2^31` entries there is room for one more. -/
theorem ORSet.Room.reserve {s : ORSet} (h : s.Room) (hlen : s.entries.length < 2 ^ 31) :
    ∃ cap, orsetReserve s = some (some cap) ∧
      ∃ k, k ≤ 31 ∧ cap = 2 ^ k ∧ s.entries.length + 1 ≤ cap := by
  obtain ⟨k, hk, hcap, hle⟩ := h
  rw [orsetReserve]
  by_cases hfull : s.entries.length ≥ s.capacity
  · have hk' : k < 31 := by
      by_contra hge
      obtain rfl : k = 31 := by omega
      omega
    have hpos := Nat.two_pow_pos k
    rw [if_pos hfull, hcap]
    simp only [u32_double_pow hk']
    rw [if_neg (Nat.two_pow_pos _).ne', if_pos (by omega)]
    exact ⟨_, rfl, k + 1, hk', rfl, by omega⟩
  · rw [if_neg hfull]
    exact ⟨_, rfl, k, hk, hcap, by omega⟩

/-- How many entries a merge appends at most. -/
def fresh (D S : List ORSetEntry) : Nat := S.countP fun se => ∀ e ∈ D, e.tag ≠ se.tag

theorem fresh_anti {D D' : List ORSetEntry} (h : ∀ e ∈ D, ∃ e' ∈ D', e'.tag = e.tag)
    (S : List ORSetEntry) : fresh D' S ≤ fresh D S := by
  refine countP_mono_left fun se _ hnew => ?_
  simp only [decide_eq_true_eq] at hnew ⊢
  intro e he htag
  obtain ⟨e', he', htag'⟩ := h e he
  exact hnew e' he' (htag'.trans htag)

theorem orsetMergeEntry_spec {dst : ORSet} (se : ORSetEntry) (hroom : dst.Room)
    (hnodup : (dst.entries.map tag).Nodup)
    (hlen : dst.entries.length + fresh dst.entries [se] ≤ 2 ^ 31) :
    ∃ dst', orsetMergeEntry dst se = some dst' ∧ JoinSpec dst.entries [se] dst'.entries
      ∧ dst'.Room ∧ dst'.nextTag = dst.nextTag ∧ dst'.selfNode = dst.selfNode
      ∧ dst'.entries.length = dst.entries.length + fresh dst.entries [se] := by
  rw [fresh, countP_singleton] at hlen ⊢
  rw [orsetMergeEntry]
  cases hmark : orsetMark se dst.entries with
  | some es =>
    obtain ⟨hfound, rfl⟩ := orsetMark_some hmark hnodup
    obtain ⟨k, hk, hcap, hle⟩ := hroom
    refine ⟨_, rfl, joinSpec_mark hfound hnodup, ⟨k, hk, hcap, ?_⟩, rfl, rfl, ?_⟩
    · rw [length_map]
      exact hle
    · rw [length_map, if_neg (by simpa using hfound), add_zero]
  | none =>
    have hnew := orsetMark_none hmark
    rw [if_pos (by simpa using hnew)] at hlen ⊢
    obtain ⟨cap, hcap, k, hk, hpow, hle⟩ := hroom.reserve (by omega)
    rw [hcap]
    refine ⟨_, rfl, joinSpec_append (nodup_concat hnew hnodup), ⟨k, hk, hpow, ?_⟩, rfl, rfl, ?_⟩
    · rw [length_append]
      exact hle
    · rw [length_append]
      rfl

/-- **What a merge does**, where the array can grow. -/
theorem orsetMerge_spec {S : List ORSetEntry} : ∀ {dst : ORSet}, dst.Room →
    (dst.entries.map tag).Nodup → dst.entries.length + fresh dst.entries S ≤ 2 ^ 31 →
    ∃ dst', S.foldlM orsetMergeEntry dst = some dst' ∧ JoinSpec dst.entries S dst'.entries
      ∧ dst'.Room ∧ dst'.nextTag = dst.nextTag ∧ dst'.selfNode = dst.selfNode
      ∧ dst.entries.length ≤ dst'.entries.length := by
  induction S with
  | nil => intro dst hroom hnodup _; exact ⟨dst, rfl, .refl hnodup, hroom, rfl, rfl, le_refl _⟩
  | cons se S ih =>
    intro dst hroom hnodup hlen
    have hcons : fresh dst.entries (se :: S) = fresh dst.entries [se] + fresh dst.entries S := by
      rw [fresh, fresh, fresh, ← countP_append, singleton_append]
    obtain ⟨mid, hmid, hspec, hroom', htag, hself, hgrow⟩ :=
      orsetMergeEntry_spec se hroom hnodup (by omega)
    have hanti := fresh_anti
      (fun e he => (hspec.tags e.tag).mpr ⟨e, mem_append_left _ he, rfl⟩) S
    obtain ⟨dst', hfold, hspec', hroom'', htag', hself', hgrow'⟩ :=
      ih hroom' hspec.nodup (by omega)
    refine ⟨dst', ?_, hspec.trans hspec', hroom'', htag'.trans htag, hself'.trans hself, by omega⟩
    rw [foldlM_cons, hmid]
    exact hfold

/-! ### Any number of replicas -/

inductive ORSetOp
  | add (v : Member)
  | remove (v : Member)

def ORSetOp.apply (s : ORSet) : ORSetOp → Option ORSet
  | .add v => (orsetAdd s v).bind Prod.fst
  | .remove v => some (orsetRemove s v).1

section Replicas

variable {ι : Type*}

abbrev ORSystem (ι : Type*) := System ι ORSet ORSetOp

abbrev ORLog (ι : Type*) := List (Event ι ORSet ORSetOp)

/-- Update `n` added `v` under the tag `t`. -/
def IsAdd (log : ORLog ι) (n : Nat) (v : Member) (t : Nat × Nat) : Prop :=
  ∃ e, log[n]? = some e ∧ e.op = .add v ∧ v.Accepted ∧ t = (e.after.selfNode, e.after.nextTag - 1)

/-- Update `m` removed `v`, and its author knew update `n`. -/
def Removes (log : ORLog ι) (m : Nat) (v : Member) (n : Nat) : Prop :=
  ∃ e, log[m]? = some e ∧ e.op = .remove v ∧ n ∈ e.past

variable {log : ORLog ι} {n : Nat}

theorem IsAdd.fn {v v' : Member} {t t' : Nat × Nat} (h : IsAdd log n v t)
    (h' : IsAdd log n v' t') : v = v' ∧ t = t' := by
  obtain ⟨e, he, hop, -, rfl⟩ := h
  obtain ⟨e', he', hop', -, rfl⟩ := h'
  obtain rfl : e = e' := Option.mem_unique he he'
  exact ⟨ORSetOp.add.inj (hop.symm.trans hop'), rfl⟩

variable {ev : Event ι ORSet ORSetOp} {v : Member} {known : Set Nat} {t : Nat × Nat}

theorem isAdd_concat
    : IsAdd (log ++ [ev]) n v t ↔ IsAdd log n v t ∨ (n = log.length ∧ ev.op = .add v
      ∧ v.Accepted ∧ t = (ev.after.selfNode, ev.after.nextTag - 1)) :=
  exists_getElem?_concat

theorem removes_concat {m : Nat}
    : Removes (log ++ [ev]) m v n ↔
      Removes log m v n ∨ (m = log.length ∧ ev.op = .remove v ∧ n ∈ ev.past) :=
  exists_getElem?_concat

theorem IsAdd.lt (h : IsAdd log n v t) : n < log.length := by
  obtain ⟨e, he, -⟩ := h
  exact (List.getElem?_eq_some_iff.mp he).1

theorem Removes.lt {m : Nat} (h : Removes log m v n) : m < log.length := by
  obtain ⟨e, he, -⟩ := h
  exact (List.getElem?_eq_some_iff.mp he).1

/-- The entry is that of a known add of `log`, marked iff a known remove had seen it. -/
def Explains (log : ORLog ι) (known : Set Nat) (e : ORSetEntry) : Prop :=
  ∃ n ∈ known, ∃ v, IsAdd log n v e.tag ∧ e.member = v.bytes
    ∧ (e.isRemoved ≠ 0 ↔ ∃ m ∈ known, Removes log m v n)

/-- An update that is not known changes nothing. -/
theorem Explains.concat (ev : Event ι ORSet ORSetOp)
    (hlt : ∀ n ∈ known, n < log.length) (h : Explains log known e) :
    Explains (log ++ [ev]) known e := by
  obtain ⟨n, hn, v, hadd, hmember, hiff⟩ := h
  refine ⟨n, hn, v, isAdd_concat.mpr (.inl hadd), hmember, hiff.trans ?_⟩
  refine exists_congr fun m => and_congr_right fun hm => ?_
  rw [removes_concat]
  exact ⟨.inl, fun h => h.resolve_right fun h' => absurd h'.1 (Nat.ne_of_lt (hlt m hm))⟩

/-- An update that adds or removes nothing that the entry depends on. -/
theorem Explains.insert (h : Explains log known e)
    (hlt : ∀ n ∈ known, n < log.length) (hop : ∀ v, ev.op = .remove v → v.bytes ≠ e.member) :
    Explains (log ++ [ev]) (insert log.length known) e := by
  obtain ⟨n, hn, v, hadd, hmember, hiff⟩ := Explains.concat ev hlt h
  refine ⟨n, .inr hn, v, hadd, hmember, hiff.trans ⟨fun ⟨m, hm, hrem⟩ => ⟨m, .inr hm, hrem⟩, ?_⟩⟩
  rintro ⟨m, rfl | hm, hrem⟩
  · rcases removes_concat.mp hrem with hold | ⟨-, hremove, -⟩
    · exact absurd hold.lt (lt_irrefl _)
    · exact absurd hmember.symm (hop v hremove)
  · exact ⟨m, hm, hrem⟩

/-- A set of node `node` by itself. -/
structure ORSet.Ok (node : Nat) (s : ORSet) : Prop where
  room : s.Room
  self_eq : s.selfNode = node
  tag_pos : 1 ≤ s.nextTag
  /-- The counter of tags is behind the number of entries, so it does not wrap. -/
  tag_le : s.nextTag ≤ s.entries.length + 1
  entries : ∀ e ∈ s.entries, e.Ok
  nodup : (s.entries.map ORSetEntry.tag).Nodup

theorem ORSet.Ok.add {node : Nat} {s : ORSet} (h : s.Ok node) (hacc : v.Accepted)
    (hlen : s.entries.length < 2 ^ 31) (hnew : ∀ e ∈ s.entries, e.tag ≠ (orsetEntry s v).tag) :
    ∃ t, orsetAdd s v = some (some t, 0) ∧ t.Ok node ∧ t.entries = s.entries ++ [orsetEntry s v]
      ∧ t.nextTag = s.nextTag + 1 := by
  obtain ⟨cap, hcap, k, hk, hpow, hroom⟩ := h.room.reserve hlen
  have hle := h.tag_le
  rw [orsetAdd, if_neg hacc, hcap, u64_of_lt (by omega)]
  refine ⟨_, rfl, ⟨⟨k, hk, hpow, ?_⟩, h.self_eq, ?_, ?_, ?_, ?_⟩, rfl, rfl⟩
  · rw [length_append]
    exact hroom
  · exact le_add_left 1 _
  · simp only [length_append, length_singleton]
    omega
  · exact forall_mem_append.mpr ⟨h.entries, forall_mem_singleton.mpr (orsetEntry_ok s hacc)⟩
  · exact nodup_concat hnew h.nodup

theorem ORSet.Ok.remove {node : Nat} {s : ORSet} (h : s.Ok node) (v : Member) :
    ORSet.Ok node { s with entries := s.entries.map (kill v) } := by
  obtain ⟨k, hk, hpow, hroom⟩ := h.room
  refine ⟨⟨k, hk, hpow, ?_⟩, h.self_eq, h.tag_pos, ?_, ?_, ?_⟩
  · rw [length_map]
    exact hroom
  · rw [length_map]
    exact h.tag_le
  · intro e he
    obtain ⟨x, hx, rfl⟩ := mem_map.mp he
    exact (h.entries x hx).kill v
  · have htags : tag ∘ kill v = tag :=
      funext (tag_kill v)
    rw [map_map, htags]
    exact h.nodup

theorem ORSet.Ok.merge {node node' : Nat} {dst src t : ORSet} (hdst : dst.Ok node)
    (hsrc : src.Ok node') (hspec : JoinSpec dst.entries src.entries t.entries) (hroom : t.Room)
    (hnext : t.nextTag = dst.nextTag) (hself : t.selfNode = dst.selfNode)
    (hgrow : dst.entries.length ≤ t.entries.length) : t.Ok node := by
  have hle := hdst.tag_le
  refine ⟨hroom, hself.trans hdst.self_eq, hnext ▸ hdst.tag_pos, by omega, fun e he => ?_,
    hspec.nodup⟩
  obtain ⟨x, hx, -, hvalue, hlen⟩ := hspec.entry e he
  rw [ORSetEntry.Ok, ← hvalue, ← hlen]
  exact (mem_append.mp hx).elim (hdst.entries x) (hsrc.entries x)

theorem orsetCreate_ok (node : Nat) : (orsetCreate node).Ok node :=
  ⟨⟨6, by decide, rfl, zero_le _⟩, rfl, le_refl 1, le_refl 1, nofun, nodup_nil⟩

/-- The pairs of tag and value that are not removed. -/
def ORSet.live (s : ORSet) : Set ((Nat × Nat) × List UInt8) :=
  { p | ∃ e ∈ s.entries, e.isRemoved = 0 ∧ p = (e.tag, e.member) }

/-- The live pairs as a list without repetitions. -/
def ORSet.pairs (s : ORSet) : List ((Nat × Nat) × List UInt8) :=
  (s.entries.filter fun e => e.isRemoved = 0).map fun e => (e.tag, e.member)

theorem ORSet.mem_pairs {s : ORSet} {p : (Nat × Nat) × List UInt8} : p ∈ s.pairs ↔ p ∈ s.live := by
  simp only [pairs, mem_map, mem_filter, decide_eq_true_eq, and_assoc]
  refine exists_congr fun e => and_congr_right fun _ => and_congr_right fun _ => eq_comm

theorem ORSet.Ok.nodup_pairs {node : Nat} {s : ORSet} (h : s.Ok node) : s.pairs.Nodup := by
  refine Nodup.of_map Prod.fst ?_
  rw [ORSet.pairs, map_map]
  exact h.nodup.sublist (filter_sublist.map tag)

/-- **The entries of the replicas against the updates they know.** -/
structure ORInv (node : ι → Nat) (s : ORSystem ι) : Prop where
  causal : Causal s
  ok : ∀ i, (s.state i).Ok (node i)
  sound : ∀ i, ∀ e ∈ (s.state i).entries, Explains s.log (s.known i) e
  /-- Every add that the replica knows has its entry. -/
  complete : ∀ i, ∀ n ∈ s.known i, ∀ v t, IsAdd s.log n v t → ∃ e ∈ (s.state i).entries, e.tag = t
  /-- No two adds have the same tag. -/
  unique : ∀ n n' v v' t, IsAdd s.log n v t → IsAdd s.log n' v' t → n = n'
  /-- The next tag of a replica is new. -/
  fresh : ∀ n v i t, IsAdd s.log n v (node i, t) → t < (s.state i).nextTag

theorem orInv_start (node : ι → Nat) : ORInv node (start fun i => orsetCreate (node i)) where
  causal := causal_start _
  ok i := orsetCreate_ok (node i)
  sound i e he := by simp [start, orsetCreate] at he
  complete i n hn := hn.elim
  unique n n' v v' t hadd := absurd hadd.lt (not_lt_zero n)
  fresh n v i t hadd := absurd hadd.lt (not_lt_zero n)

section Known

variable {node : ι → Nat} {s : ORSystem ι} (h : ORInv node s)
include h

/-- An add that a replica may know is marked there iff the replica knows a remove that had
seen it. -/
theorem ORInv.marked_iff (i : ι) {tg : Nat × Nat} (hadd : IsAdd s.log n v tg) :
    (∃ e ∈ (s.state i).entries, e.tag = tg ∧ e.isRemoved ≠ 0)
      ↔ ∃ m ∈ s.known i, Removes s.log m v n := by
  -- whatever entry has the tag comes from this add
  have hentry : ∀ e ∈ (s.state i).entries, e.tag = tg →
      (e.isRemoved ≠ 0 ↔ ∃ m ∈ s.known i, Removes s.log m v n) := by
    rintro e he rfl
    obtain ⟨n', -, v', hadd', -, hiff⟩ := h.sound i e he
    obtain rfl := h.unique n n' v v' e.tag hadd hadd'
    obtain rfl := (hadd.fn hadd').1
    exact hiff
  constructor
  · rintro ⟨e, he, htag, hr⟩
    exact (hentry e he htag).mp hr
  · rintro ⟨m, hm, hrem⟩
    -- the author of the remove knew the add, so this replica does
    obtain ⟨ev, hev, -, hpast⟩ := id hrem
    have hn : n ∈ s.known i := h.causal.closed i m hm ev hev hpast
    obtain ⟨e, he, htag⟩ := h.complete i n hn v tg hadd
    exact ⟨e, he, htag, (hentry e he htag).mpr ⟨m, hm, hrem⟩⟩

/-- What is live at a replica, in terms of the updates it knows. -/
theorem ORInv.live_iff (i : ι) (t : Nat × Nat) (b : List UInt8) :
    (t, b) ∈ (s.state i).live ↔ ∃ n ∈ s.known i, ∃ v, IsAdd s.log n v t ∧ b = v.bytes
      ∧ ∀ m ∈ s.known i, ¬Removes s.log m v n := by
  constructor
  · rintro ⟨e, he, hr, heq⟩
    obtain ⟨rfl, rfl⟩ := Prod.mk.inj heq
    obtain ⟨n, hn, v, hadd, hmember, hiff⟩ := h.sound i e he
    exact ⟨n, hn, v, hadd, hmember, fun m hm hrem => hiff.mpr ⟨m, hm, hrem⟩ hr⟩
  · rintro ⟨n, hn, v, hadd, rfl, hnone⟩
    obtain ⟨e, he, rfl⟩ := h.complete i n hn v t hadd
    obtain ⟨n', -, v', hadd', hmember, hiff⟩ := h.sound i e he
    obtain rfl := h.unique n n' v v' e.tag hadd hadd'
    obtain rfl := (hadd.fn hadd').1
    refine ⟨e, he, ?_, by rw [hmember]⟩
    by_contra hr
    obtain ⟨m, hm, hrem⟩ := hiff.mp hr
    exact hnone m hm hrem

theorem ORInv.contains_iff (i : ι) (v : Member) :
    orsetContains (s.state i) v = true ↔ ∃ t, (t, v.bytes) ∈ (s.state i).live := by
  have hmatch : ∀ e ∈ (s.state i).entries, e.Matches v ↔ e.isRemoved = 0 ∧ e.member = v.bytes :=
    fun e he => ((h.ok i).entries e he).matches_iff
  rw [orsetContains]
  split
  · rename_i hempty
    refine ⟨nofun, ?_⟩
    -- no accepted value is empty
    rintro ⟨t, hlive⟩
    obtain ⟨n, -, v', ⟨_, -, -, hacc, -⟩, hbytes, -⟩ := (h.live_iff i t _).mp hlive
    rw [SizedBytes.len, hbytes] at hempty
    exact absurd (.inl hempty) hacc
  · rw [any_eq_true]
    constructor
    · rintro ⟨e, he, hm⟩
      obtain ⟨hr, hmember⟩ := (hmatch e he).mp (of_decide_eq_true hm)
      exact ⟨e.tag, e, he, hr, by rw [hmember]⟩
    · rintro ⟨t, e, he, hr, heq⟩
      exact ⟨e, he, decide_eq_true ((hmatch e he).mpr ⟨hr, (Prod.mk.inj heq).2.symm⟩)⟩

/-- Replicas that know the same updates have the same live pairs. -/
theorem ORInv.live_agree {i j : ι} (hknown : s.known i = s.known j) :
    (s.state i).live = (s.state j).live := by
  ext ⟨t, b⟩
  rw [h.live_iff, h.live_iff, hknown]

theorem ORInv.size_agree {i j : ι} (hknown : s.known i = s.known j) :
    orsetSize (s.state i) = orsetSize (s.state j) := by
  have hperm : (s.state i).pairs.Perm (s.state j).pairs :=
    (perm_ext_iff_of_nodup (h.ok i).nodup_pairs (h.ok j).nodup_pairs).mpr fun p => by
      rw [ORSet.mem_pairs, ORSet.mem_pairs, h.live_agree hknown]
  have hlength := hperm.length_eq
  rw [ORSet.pairs, length_map, ORSet.pairs, length_map] at hlength
  exact hlength

end Known

variable [DecidableEq ι]

def orsetStep : ORSystem ι → Call ι ORSetOp → Option (ORSystem ι × Unit) :=
  step ORSetOp.apply orsetMerge

/-- Every `realloc` returns a block: adds and merges do not fill an array beyond `2^31` entries,
where the doubled capacity is zero. -/
def ORSafe (s : ORSystem ι) : Call ι ORSetOp → Prop
  | .update i (.add v) => v.Accepted → (s.state i).entries.length < 2 ^ 31
  | .update _ (.remove _) => True
  | .merge dst src => (s.state dst).entries.length
      + fresh (s.state dst).entries (s.state src).entries ≤ 2 ^ 31

variable {node : ι → Nat} {s : ORSystem ι} {i : ι} {op : ORSetOp}

theorem orsetStep_update {t : ORSet}
    (happly : op.apply (s.state i) = some t) : orsetStep s (.update i op) = some
      (⟨update s.state i t, update s.known i (insert s.log.length (s.known i)),
        s.log ++ [⟨i, op, s.known i, t⟩]⟩, ()) := by
  rw [orsetStep, step, happly, Option.map_some]

variable (h : ORInv node s)
include h

/-- The invariant after an update of replica `i`, from what the update did there. -/
theorem ORInv.update (hinj : Injective node) {t : ORSet}
    (happly : op.apply (s.state i) = some t) (hok : t.Ok (node i))
    (hsound : ∀ e ∈ t.entries, Explains (s.log ++ [⟨i, op, s.known i, t⟩])
      (insert s.log.length (s.known i)) e)
    (hkeep : ∀ e ∈ (s.state i).entries, ∃ e' ∈ t.entries, e'.tag = e.tag)
    (hnext : (s.state i).nextTag ≤ t.nextTag)
    (hnew : ∀ v, op = .add v → v.Accepted → t.nextTag = (s.state i).nextTag + 1
      ∧ ∃ e ∈ t.entries, e.tag = (node i, (s.state i).nextTag)) :
    ∃ s' u, orsetStep s (.update i op) = some (s', u) ∧ ORInv node s' := by
  have hstep := orsetStep_update happly
  refine ⟨_, _, hstep, ?_⟩
  have hlt := h.causal.known_lt
  -- the tag of the new update, if it is an add
  have htag : ∀ v tg, op = .add v ∧ v.Accepted ∧ tg = (t.selfNode, t.nextTag - 1) →
      tg = (node i, (s.state i).nextTag) := by
    rintro v tg ⟨hop, hacc, rfl⟩
    rw [hok.self_eq, (hnew v hop hacc).1, Nat.add_sub_cancel]
  refine ⟨h.causal.step hstep, fun r => ?_, fun r e he => ?_, fun r n hn v tg hadd => ?_,
    fun n n' v v' tg hadd hadd' => ?_, fun n v j tg hadd => ?_⟩
  · exact (forall_update_iff s.state fun r t => t.Ok (node r)).mpr ⟨hok, fun r _ => h.ok r⟩ r
  · by_cases hr : r = i
    · subst hr
      simp only [update_self] at he ⊢
      exact hsound e he
    · simp only [update_of_ne hr] at he ⊢
      exact (h.sound r e he).concat _ (hlt r)
  · by_cases hr : r = i
    · subst hr
      simp only [update_self] at hn ⊢
      rcases isAdd_concat.mp hadd with hold | ⟨-, hadd⟩
      · obtain ⟨e, he, rfl⟩ := h.complete r n (hn.resolve_left (Nat.ne_of_lt hold.lt)) v tg hold
        exact hkeep e he
      · rw [htag v tg hadd]
        exact (hnew v hadd.1 hadd.2.1).2
    · simp only [update_of_ne hr] at hn ⊢
      refine h.complete r n hn v tg ((isAdd_concat.mp hadd).resolve_right fun hadd' => ?_)
      exact absurd hadd'.1 (Nat.ne_of_lt (hlt r n hn))
  · rcases isAdd_concat.mp hadd with hold | ⟨rfl, hnow⟩ <;>
      rcases isAdd_concat.mp hadd' with hold' | ⟨rfl, hnow'⟩
    · exact h.unique n n' v v' tg hold hold'
    · rw [htag v' tg hnow'] at hold
      exact absurd (h.fresh n v i _ hold) (lt_irrefl _)
    · rw [htag v tg hnow] at hold'
      exact absurd (h.fresh n' v' i _ hold') (lt_irrefl _)
    · rfl
  · rcases isAdd_concat.mp hadd with hold | ⟨rfl, hnow⟩
    · have hlt' := h.fresh n v j tg hold
      by_cases hj : j = i
      · subst hj
        simp only [update_self]
        exact lt_of_lt_of_le hlt' hnext
      · simpa only [update_of_ne hj] using hlt'
    · obtain ⟨hnode, rfl⟩ := Prod.mk.inj (htag v _ hnow)
      obtain rfl := hinj hnode
      simp only [update_self]
      rw [(hnew v hnow.1 hnow.2.1).1]
      exact lt_succ_self _

theorem ORInv.idle (hinj : Injective node)
    (happly : op.apply (s.state i) = some (s.state i)) (hadd : ∀ v, op = .add v → ¬v.Accepted)
    (hrem : ∀ v, op = .remove v → v.len = 0) :
    ∃ s' u, orsetStep s (.update i op) = some (s', u) ∧ ORInv node s' := by
  refine h.update hinj happly (h.ok i) (fun e he => ?_) (fun e he => ⟨e, he, rfl⟩)
    (le_refl _) (fun v hop hacc => absurd hacc (hadd v hop))
  refine (h.sound i e he).insert (h.causal.known_lt i) fun v hop hbytes => ?_
  -- an accepted value is not empty
  obtain ⟨n, -, v', ⟨_, -, -, hacc, -⟩, hmember, -⟩ := h.sound i e he
  have hempty := hrem v hop
  rw [SizedBytes.len, hbytes.trans hmember] at hempty
  exact hacc (.inl hempty)

theorem ORInv.add (hinj : Injective node)
    (hlen : v.Accepted → (s.state i).entries.length < 2 ^ 31) :
    ∃ s' u, orsetStep s (.update i (.add v)) = some (s', u) ∧ ORInv node s' := by
  by_cases hacc : v.Accepted
  · have hlt := h.causal.known_lt i
    have htag : (orsetEntry (s.state i) v).tag = (node i, (s.state i).nextTag) := by
      rw [← (h.ok i).self_eq]
      rfl
    have hnew : ∀ e ∈ (s.state i).entries, e.tag ≠ (orsetEntry (s.state i) v).tag := by
      intro e he heq
      obtain ⟨n, -, v', hadd, -⟩ := h.sound i e he
      rw [heq, htag] at hadd
      exact absurd (h.fresh n v' i _ hadd) (lt_irrefl _)
    obtain ⟨t, ht, hok, hentries, hnext⟩ := (h.ok i).add hacc (hlen hacc) hnew
    have happly : (ORSetOp.add v).apply (s.state i) = some t := by rw [ORSetOp.apply, ht]; rfl
    refine h.update hinj happly hok ?_ ?_ (by rw [hnext]; exact le_succ _) ?_
    · intro e he
      rw [hentries] at he
      rcases mem_append.mp he with he | he
      · exact (h.sound i e he).insert hlt nofun
      · -- the new entry: no remove has seen it yet
        obtain rfl := mem_singleton.mp he
        refine ⟨s.log.length, .inl rfl, v, isAdd_concat.mpr (.inr ⟨rfl, rfl, hacc, ?_⟩),
          member_orsetEntry _ v, ?_⟩
        · rw [htag, hok.self_eq, hnext, Nat.add_sub_cancel]
        · refine ⟨absurd rfl, ?_⟩
          rintro ⟨m, -, hrem⟩
          rcases removes_concat.mp hrem with ⟨ev, hev, -, hpast⟩ | ⟨-, hop, -⟩
          · have hlt' := (List.getElem?_eq_some_iff.mp hev).1
            exact absurd (h.causal.past_lt m ev hev _ hpast) (by omega)
          · simp at hop
    · intro e he
      exact ⟨e, by rw [hentries]; exact mem_append_left _ he, rfl⟩
    · rintro v' hop -
      obtain rfl := ORSetOp.add.inj hop
      exact ⟨hnext, _, by rw [hentries]; exact mem_append_right _ (mem_singleton_self _),
        htag⟩
  · refine h.idle hinj ?_ (fun v' hop => ORSetOp.add.inj hop ▸ hacc) nofun
    rw [ORSetOp.apply, orsetAdd, if_pos (not_not.mp hacc)]
    rfl

theorem ORInv.remove (hinj : Injective node) (i : ι) (v : Member) :
    ∃ s' u, orsetStep s (.update i (.remove v)) = some (s', u) ∧ ORInv node s' := by
  by_cases hempty : v.len = 0
  · refine h.idle hinj ?_ nofun
      fun v' hop => ORSetOp.remove.inj hop ▸ hempty
    rw [ORSetOp.apply, orsetRemove, if_pos hempty]
  · have happly : (ORSetOp.remove v).apply (s.state i)
        = some { s.state i with entries := (s.state i).entries.map (kill v) } := by
      rw [ORSetOp.apply, orsetRemove, if_neg hempty]
    refine h.update hinj happly ((h.ok i).remove v) ?_ ?_ (le_refl _)
      nofun
    · intro e he
      obtain ⟨x, hx, rfl⟩ := mem_map.mp he
      obtain ⟨n, hn, v', hadd, hmember, hiff⟩ := h.sound i x hx
      refine ⟨n, .inr hn, v', ?_, by rw [member_kill, hmember], ?_⟩
      · rw [tag_kill]
        exact isAdd_concat.mpr (.inl hadd)
      · rw [((h.ok i).entries x hx).removed_kill, hiff, hmember]
        constructor
        · rintro (⟨m, hm, hrem⟩ | hbytes)
          · exact ⟨m, .inr hm, removes_concat.mpr (.inl hrem)⟩
          · -- this remove has seen the add
            obtain rfl : v' = v := SizedBytes.ext hbytes
            exact ⟨s.log.length, .inl rfl, removes_concat.mpr (.inr ⟨rfl, rfl, hn⟩)⟩
        · rintro ⟨m, hm, hrem⟩
          rcases removes_concat.mp hrem with hold | ⟨-, hop, -⟩
          · exact .inl ⟨m, hm.resolve_left (Nat.ne_of_lt hold.lt), hold⟩
          · exact .inr (by rw [ORSetOp.remove.inj hop])
    · intro e he
      exact ⟨_, mem_map_of_mem he, tag_kill v e⟩

theorem ORInv.merge {dst src : ι} (hlen : (s.state dst).entries.length
      + Crdt.fresh (s.state dst).entries (s.state src).entries ≤ 2 ^ 31) :
    ∃ s' u, orsetStep s (.merge dst src) = some (s', u) ∧ ORInv node s' := by
  obtain ⟨t, ht, hspec, hroom, hnext, hself, hgrow⟩ :=
    orsetMerge_spec (h.ok dst).room (h.ok dst).nodup hlen
  have hstep : orsetStep s (.merge dst src) = some (⟨Function.update s.state dst t,
      Function.update s.known dst (s.known dst ∪ s.known src), s.log⟩, ()) := by
    rw [orsetStep, step, orsetMerge, ht, Option.map_some]
  refine ⟨_, _, hstep, h.causal.step hstep, fun i => ?_, fun i e he => ?_,
    fun i n hn v tg hadd => ?_, h.unique, fun n v i tg hadd => ?_⟩
  · refine (forall_update_iff s.state fun i t => t.Ok (node i)).mpr ⟨?_, fun i _ => h.ok i⟩ i
    exact (h.ok dst).merge (h.ok src) hspec hroom hnext hself hgrow
  · by_cases hi : i = dst
    · subst hi
      simp only [update_self] at he ⊢
      -- the add of the entry is known on one of the two sides
      obtain ⟨n, hn, v, hadd, hmember⟩ : ∃ n ∈ s.known i ∪ s.known src, ∃ v,
          IsAdd s.log n v e.tag ∧ e.member = v.bytes := by
        obtain ⟨x, hx, htag, hvalue, hlen⟩ := hspec.entry e he
        rw [← htag, member, ← hvalue, ← hlen]
        rcases mem_append.mp hx with hx | hx
        · obtain ⟨n, hn, v, hadd, hmember, -⟩ := h.sound i x hx
          exact ⟨n, .inl hn, v, hadd, hmember⟩
        · obtain ⟨n, hn, v, hadd, hmember, -⟩ := h.sound src x hx
          exact ⟨n, .inr hn, v, hadd, hmember⟩
      refine ⟨n, hn, v, hadd, hmember, (hspec.removed e he).trans ?_⟩
      simp only [mem_append, or_and_right, exists_or, Set.mem_union]
      rw [h.marked_iff i hadd, h.marked_iff src hadd]
    · simp only [update_of_ne hi] at he ⊢
      exact h.sound i e he
  · by_cases hi : i = dst
    · subst hi
      simp only [update_self] at hn ⊢
      refine (hspec.tags tg).mpr ?_
      rcases hn with hn | hn
      · obtain ⟨x, hx, htag⟩ := h.complete i n hn v tg hadd
        exact ⟨x, mem_append_left _ hx, htag⟩
      · obtain ⟨x, hx, htag⟩ := h.complete src n hn v tg hadd
        exact ⟨x, mem_append_right _ hx, htag⟩
    · simp only [update_of_ne hi] at hn ⊢
      exact h.complete i n hn v tg hadd
  · by_cases hi : i = dst
    · subst hi
      simp only [update_self]
      rw [hnext]
      exact h.fresh n v i tg hadd
    · simp only [update_of_ne hi]
      exact h.fresh n v i tg hadd

theorem ORInv.step (hinj : Injective node) {c : Call ι ORSetOp}
    (hsafe : ORSafe s c) : ∃ s' u, orsetStep s c = some (s', u) ∧ ORInv node s' := by
  cases c with
  | update i op =>
    cases op with
    | add v => exact h.add hinj hsafe
    | remove v => exact h.remove hinj i v
  | merge dst src => exact h.merge hsafe

omit h

/-- **The OR-Set converges.**  Replicas with distinct nodes add, remove and merge in any
order, and every `realloc` returns a block.  In every state reached, a tag
belongs to one value; a replica contains a value iff it knows an add of it that no
remove it knows had seen; such an add has its live entry; and replicas that know
the same updates have the same live pairs of tag and value, and report the same size. -/
theorem orset_converges (hinj : Injective node) {calls : List (Call ι ORSetOp)}
    (hsafe : Along orsetStep ORSafe (start fun i => orsetCreate (node i)) calls) :
    ∃ s us, run orsetStep (start fun i => orsetCreate (node i)) calls = some (s, us)
      ∧ (∀ i, ((s.state i).entries.map ORSetEntry.tag).Nodup)
      ∧ (∀ i j, ∀ e ∈ (s.state i).entries, ∀ e' ∈ (s.state j).entries,
          e.tag = e'.tag → e.member = e'.member)
      ∧ (∀ i v, orsetContains (s.state i) v = true ↔ ∃ n ∈ s.known i,
          (∃ t, IsAdd s.log n v t) ∧ ∀ m ∈ s.known i, ¬Removes s.log m v n)
      ∧ (∀ i, ∀ n ∈ s.known i, ∀ v t, IsAdd s.log n v t →
          (∀ m ∈ s.known i, ¬Removes s.log m v n) → (t, v.bytes) ∈ (s.state i).live)
      ∧ ∀ i j, s.known i = s.known j → (s.state i).live = (s.state j).live
          ∧ orsetSize (s.state i) = orsetSize (s.state j) := by
  obtain ⟨s, us, hrun, h⟩ :=
    run_total (fun s c h hsafe => h.step hinj hsafe) (orInv_start node) hsafe
  refine ⟨s, us, hrun, fun i => (h.ok i).nodup, fun i j e he e' he' htag => ?_, fun i v => ?_,
    fun i n hn v t hadd hnone => (h.live_iff i t _).mpr ⟨n, hn, v, hadd, rfl, hnone⟩,
    fun i j hknown => ⟨h.live_agree hknown, h.size_agree hknown⟩⟩
  · obtain ⟨n, -, v, hadd, hmember, -⟩ := h.sound i e he
    obtain ⟨n', -, v', hadd', hmember', -⟩ := h.sound j e' he'
    rw [← htag] at hadd'
    obtain rfl := h.unique n n' v v' e.tag hadd hadd'
    rw [hmember, hmember', (hadd.fn hadd').1]
  · rw [h.contains_iff i v]
    simp only [h.live_iff]
    constructor
    · rintro ⟨t, n, hn, v', hadd, hbytes, hnone⟩
      obtain rfl : v = v' := SizedBytes.ext hbytes
      exact ⟨n, hn, ⟨t, hadd⟩, hnone⟩
    · rintro ⟨n, hn, ⟨t, hadd⟩, hnone⟩
      exact ⟨t, n, hn, v, hadd, rfl, hnone⟩

end Replicas

/-- The one-byte value `'x'`. -/
def memberX : Member := ⟨[120], by decide⟩

/-- Replica `1` removes the value that it got from replica `0`, which adds it again. -/
theorem orset_converges_two : ∃ s us,
    run orsetStep (start fun i : Fin 2 => orsetCreate i.val)
        [.update 0 (.add memberX), .merge 1 0, .update 1 (.remove memberX)] = some (s, us)
      ∧ ∀ i v, orsetContains (s.state i) v = true ↔ ∃ n ∈ s.known i,
          (∃ t, IsAdd s.log n v t) ∧ ∀ m ∈ s.known i, ¬Removes s.log m v n := by
  have hinj : Injective fun i : Fin 2 => i.val := fun _ _ h => Fin.ext h
  have hsafe : Along orsetStep ORSafe (start fun i : Fin 2 => orsetCreate i.val)
      [.update 0 (.add memberX), .merge 1 0, .update 1 (.remove memberX)] := by
    refine ⟨fun _ => by decide, fun s' _ hstep => ?_⟩
    obtain ⟨rfl, _⟩ := result_inj hstep
    refine ⟨?_, fun _ _ _ => ⟨trivial, fun _ _ _ => trivial⟩⟩
    show _ + _ ≤ 2 ^ 31
    decide +kernel
  obtain ⟨s, us, hrun, -, -, hcontains, -⟩ := orset_converges hinj hsafe
  exact ⟨s, us, hrun, hcontains⟩

end NexCache.Crdt
