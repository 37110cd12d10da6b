import Mathlib.Data.List.Nodup

/-!
# Linked lists in pointer functions

A singly linked list is a `next` function and a start pointer: `Follows next o l`
says that following `next` from `o` visits exactly `l`.  A doubly linked list has a
`prev` function too; `Seg next prev b o l b' o'` is a stretch of it, entered at `o`
with predecessor `b` and left at `o'` with predecessor `b'`.

`Follows.snoc` appends a node, `Dll.push` puts one in front, and `Seg.unlink` takes
one out of the middle by the usual two pointer writes.
-/

namespace Links

open Function List Option

variable {ι : Type*} {l : List ι}

/-! ### Singly linked -/

def Follows (next : ι → Option ι) : Option ι → List ι → Prop
  | o, [] => o = none
  | o, a :: l => o = some a ∧ Follows next (next a) l

/-- The two writes that append `n` after the last node `a`. -/
theorem Follows.snoc [DecidableEq ι] {next : ι → Option ι} {a n : ι} :
    ∀ {o : Option ι}, (l ++ [a]).Nodup → n ∉ l ++ [a] → Follows next o (l ++ [a]) →
      Follows (update (update next n none) a (some n)) o (l ++ [a, n]) := by
  induction l with
  | nil =>
    intro o _ hn h
    have hna : n ≠ a := by simpa using hn
    refine ⟨h.1, ?_, ?_⟩
    · rw [update_self]
    · rw [update_of_ne hna, update_self]
      rfl
  | cons b l ih =>
    intro o hnd hn h
    rw [cons_append] at hnd hn h
    rw [nodup_cons] at hnd
    have hba : b ≠ a := fun e => hnd.1 (by simp [e])
    have hbn : b ≠ n := fun e => hn (by simp [e])
    refine ⟨h.1, ?_⟩
    rw [update_of_ne hba, update_of_ne hbn]
    exact ih hnd.2 (fun hm => hn (mem_cons_of_mem b hm)) h.2

/-! ### Doubly linked -/

def Seg (next prev : ι → Option ι) : Option ι → Option ι → List ι → Option ι → Option ι → Prop
  | b, o, [], b', o' => b = b' ∧ o = o'
  | b, o, a :: l, b', o' => o = some a ∧ prev a = b ∧ Seg next prev (some a) (next a) l b' o'

/-- A whole list: nothing before its first node and nothing after its last. -/
def Dll (next prev : ι → Option ι) (head : Option ι) (l : List ι) : Prop :=
  ∃ last, Seg next prev none head l last none

section Seg

variable {next prev next' prev' : ι → Option ι}

theorem Seg.congr : ∀ {b o b' o' : Option ι}, (∀ a ∈ l, next' a = next a) →
    (∀ a ∈ l, prev' a = prev a) → Seg next prev b o l b' o' → Seg next' prev' b o l b' o' := by
  induction l with
  | nil => intro b o b' o' _ _ h; exact h
  | cons a l ih =>
    intro b o b' o' hn hp h
    refine ⟨h.1, by rw [hp a (by simp)]; exact h.2.1, ?_⟩
    rw [hn a (by simp)]
    exact ih (fun c hc => hn c (by simp [hc])) (fun c hc => hp c (by simp [hc])) h.2.2

theorem Dll.congr {head : Option ι} (hn : ∀ a ∈ l, next' a = next a)
    (hp : ∀ a ∈ l, prev' a = prev a) (h : Dll next prev head l) : Dll next' prev' head l := by
  obtain ⟨last, hseg⟩ := h
  exact ⟨last, hseg.congr hn hp⟩

/-- A stretch that ends the list is entered at its first node. -/
theorem Seg.head_eq {b o b' : Option ι} (h : Seg next prev b o l b' none) : o = l.head? := by
  cases l with
  | nil => exact h.2
  | cons a l => exact h.1

theorem seg_append {xs ys : List ι} : ∀ {b o b' o' : Option ι},
    Seg next prev b o (xs ++ ys) b' o'
      ↔ ∃ m n, Seg next prev b o xs m n ∧ Seg next prev m n ys b' o' := by
  induction xs with
  | nil =>
    intro b o b' o'
    constructor
    · intro h
      exact ⟨b, o, ⟨rfl, rfl⟩, h⟩
    · rintro ⟨m, n, ⟨rfl, rfl⟩, h⟩
      exact h
  | cons a xs ih =>
    intro b o b' o'
    constructor
    · rintro ⟨ho, hp, h⟩
      obtain ⟨m, n, h1, h2⟩ := ih.mp h
      exact ⟨m, n, ⟨ho, hp, h1⟩, h2⟩
    · rintro ⟨m, n, ⟨ho, hp, h1⟩, h2⟩
      exact ⟨ho, hp, ih.mpr ⟨m, n, h1, h2⟩⟩

/-- A stretch is left after its last node, or where it was entered. -/
theorem Seg.before_mem : ∀ {b o b' o' : Option ι}, Seg next prev b o l b' o' →
    (l = [] ∧ b' = b) ∨ ∃ p ∈ l, b' = some p := by
  induction l with
  | nil => intro b o b' o' h; exact .inl ⟨rfl, h.1.symm⟩
  | cons a l ih =>
    intro b o b' o' h
    rcases ih h.2.2 with ⟨_, hb⟩ | ⟨p, hp, hb⟩
    · exact .inr ⟨a, by simp, hb⟩
    · exact .inr ⟨p, by simp [hp], hb⟩

/-- The pointer after a stretch can be redirected at its last node. -/
theorem Seg.redirect [DecidableEq ι] {p : ι} (n' : Option ι) :
    ∀ {b o o' : Option ι}, l.Nodup → l ≠ [] → Seg next prev b o l (some p) o' →
      Seg (update next p n') prev b o l (some p) n' := by
  induction l with
  | nil => intro b o o' _ hne; exact absurd rfl hne
  | cons a l ih =>
    intro b o o' hnd _ h
    obtain ⟨ho, hp, hrest⟩ := h
    rw [nodup_cons] at hnd
    refine ⟨ho, hp, ?_⟩
    cases l with
    | nil =>
      obtain ⟨hap, _⟩ := hrest
      rw [some.inj hap, update_self]
      exact ⟨rfl, rfl⟩
    | cons c l =>
      have hpl : p ∈ c :: l := by
        rcases hrest.before_mem with ⟨hnil, _⟩ | ⟨q, hq, he⟩
        · cases hnil
        · rw [some.inj he]
          exact hq
      have hap : a ≠ p := fun e => hnd.1 (by rw [e]; exact hpl)
      rw [update_of_ne hap]
      exact ih hnd.2 (by simp) hrest

/-- The predecessor with which a list is entered is that of its first node. -/
theorem Seg.reenter [DecidableEq ι] {b o last : Option ι} (b₂ : Option ι)
    (hnd : l.Nodup) (h : Seg next prev b o l last none) :
    ∃ last', Seg next (fun x => if o = some x then b₂ else prev x) b₂ o l last' none := by
  cases l with
  | nil => exact ⟨b₂, rfl, h.2⟩
  | cons a l =>
    obtain ⟨ho, _, hrest⟩ := h
    rw [nodup_cons] at hnd
    refine ⟨last, ho, if_pos ho, ?_⟩
    refine hrest.congr (fun c _ => rfl) fun c hc => ?_
    rw [if_neg]
    rw [ho]
    intro e
    exact hnd.1 (by rw [some.inj e]; exact hc)

theorem Dll.push [DecidableEq ι] {o : Option ι} {a : ι} (hnd : l.Nodup)
    (h : Dll next prev o l) (hnexta : next' a = o) (hpreva : prev' a = none)
    (hnext : ∀ x ∈ l, next' x = next x)
    (hprev : ∀ x ∈ l, prev' x = if o = some x then some a else prev x) :
    Dll next' prev' (some a) (a :: l) := by
  obtain ⟨last, hseg⟩ := h
  obtain ⟨last', hseg'⟩ := hseg.reenter (some a) hnd
  refine ⟨last', rfl, hpreva, ?_⟩
  rw [hnexta]
  exact hseg'.congr hnext hprev

/-- **Unlinking**: `prev->next = next` (or the head pointer), `next->prev = prev`. -/
theorem Seg.unlink [DecidableEq ι] {xs ys : List ι} {a : ι} {m o last : Option ι}
    (hnd : (xs ++ a :: ys).Nodup) (hx : Seg next prev none o xs m (some a)) (ha : prev a = m)
    (hy : Seg next prev (some a) (next a) ys last none)
    (hnext : ∀ x ∈ xs ++ ys, next' x = if m = some x then next a else next x)
    (hprev : ∀ x ∈ xs ++ ys, prev' x = if next a = some x then m else prev x) :
    Seg next' prev' none (if m = none then next a else o) xs m (next a) ∧
      ∃ last', Seg next' prev' m (next a) ys last' none := by
  have hndx : xs.Nodup := (nodup_append.mp hnd).1
  have hndy : ys.Nodup := (nodup_cons.mp (nodup_append.mp hnd).2.1).2
  have hdisj : ∀ x ∈ xs, ∀ y ∈ a :: ys, x ≠ y := (nodup_append.mp hnd).2.2
  -- the node after `a` is not among `xs`
  have hfirst : ∀ x, next a = some x → x ∈ ys := by
    intro x hx'
    rw [hy.head_eq] at hx'
    exact mem_of_head? hx'
  refine ⟨?_, ?_⟩
  · rcases hx.before_mem with ⟨rfl, rfl⟩ | ⟨p, hp, rfl⟩
    · rw [if_pos rfl]
      exact ⟨rfl, rfl⟩
    · rw [if_neg (by simp)]
      have hne : xs ≠ [] := ne_nil_of_mem hp
      refine (hx.redirect (next a) hndx hne).congr ?_ ?_
      · intro x hxs
        rw [hnext x (mem_append_left _ hxs)]
        by_cases hxp : x = p
        · rw [hxp, if_pos rfl, update_self]
        · rw [if_neg (fun e => hxp (some.inj e).symm), update_of_ne hxp]
      · intro x hxs
        rw [hprev x (mem_append_left _ hxs), if_neg]
        intro e
        exact hdisj x hxs x (mem_cons_of_mem a (hfirst x e)) rfl
  · obtain ⟨last', hseg⟩ := hy.reenter m hndy
    refine ⟨last', hseg.congr ?_ ?_⟩
    · intro y hys
      rw [hnext y (mem_append_right _ hys), if_neg]
      intro e
      rcases hx.before_mem with ⟨_, rfl⟩ | ⟨p, hp, rfl⟩
      · simp at e
      · exact hdisj p hp y (mem_cons_of_mem a hys) (some.inj e)
    · intro y hys
      exact hprev y (mem_append_right _ hys)

section Middle

variable {head : Option ι} {xs ys : List ι} {a x : ι}

variable (h : Dll next prev head (xs ++ a :: ys))
include h

/-- The stretches before and after a node. -/
theorem Dll.split :
    ∃ last, Seg next prev none head xs (prev a) (some a) ∧
      Seg next prev (some a) (next a) ys last none := by
  obtain ⟨last, hseg⟩ := h
  obtain ⟨m, o, hx, ho, hm, hy⟩ := seg_append.mp hseg
  subst ho hm
  exact ⟨last, hx, hy⟩

theorem Dll.next_mem (hx : next a = some x) : x ∈ ys := by
  obtain ⟨last, -, hy⟩ := h.split
  rw [hy.head_eq] at hx
  exact mem_of_head? hx

theorem Dll.prev_mem (hx : prev a = some x) : x ∈ xs := by
  obtain ⟨last, hseg, -⟩ := h.split
  rcases hseg.before_mem with ⟨-, hnone⟩ | ⟨p, hp, hsome⟩
  · cases hnone.symm.trans hx
  · rw [← mem_unique hsome hx]
    exact hp

omit h

theorem Dll.unlink [DecidableEq ι] (hnd : (xs ++ a :: ys).Nodup)
    (h : Dll next prev head (xs ++ a :: ys))
    (hnext : ∀ x ∈ xs ++ ys, next' x = if prev a = some x then next a else next x)
    (hprev : ∀ x ∈ xs ++ ys, prev' x = if next a = some x then prev a else prev x) :
    Dll next' prev' (if prev a = none then next a else head) (xs ++ ys) := by
  obtain ⟨last, hx, hy⟩ := h.split
  obtain ⟨hx', last', hy'⟩ := hx.unlink hnd rfl hy hnext hprev
  exact ⟨last', seg_append.mpr ⟨prev a, next a, hx', hy'⟩⟩

end Middle

end Seg

end Links
