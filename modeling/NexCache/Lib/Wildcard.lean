import Mathlib.Computability.Language

/-!
# Languages of wildcard patterns

A wildcard pattern is a product of factors, each of which is all words (`⊤`) or one letter that
satisfies a predicate (`one`).  A word is hopeless for a language when none of its suffixes is in
it.  This is what a search that tries longer and longer words for a `⊤` may conclude from a failure
further on: hopelessness is inherited through both kinds of factors.
-/

namespace Wildcard

open List

variable {α : Type*} {L : Language α} {p : α → Prop} {c : α} {w : List α}

/-- One letter that satisfies `p`. -/
def one (p : α → Prop) : Language α := {w | ∃ c, p c ∧ w = [c]}

theorem mem_top_mul : w ∈ (⊤ : Language α) * L ↔ ∃ v, v <:+ w ∧ v ∈ L := by
  rw [Language.mem_mul]
  constructor
  · rintro ⟨u, -, v, hv, rfl⟩
    exact ⟨v, suffix_append u v, hv⟩
  · rintro ⟨v, ⟨u, rfl⟩, hv⟩
    exact ⟨u, trivial, v, hv, rfl⟩

theorem mem_top_mul_of_mem (h : w ∈ L) : w ∈ (⊤ : Language α) * L :=
  mem_top_mul.mpr ⟨w, suffix_rfl, h⟩

theorem nil_mem_top_mul : [] ∈ (⊤ : Language α) * L ↔ [] ∈ L := by
  rw [mem_top_mul]
  constructor
  · rintro ⟨v, hv, hmem⟩
    rwa [suffix_nil.mp hv] at hmem
  · exact fun h => ⟨[], suffix_rfl, h⟩

/-- The all-words factor stands for the empty word, or takes one more letter. -/
theorem cons_mem_top_mul : c :: w ∈ (⊤ : Language α) * L ↔ c :: w ∈ L ∨
    w ∈ (⊤ : Language α) * L := by
  rw [mem_top_mul, mem_top_mul]
  constructor
  · rintro ⟨v, hv, hmem⟩
    rcases suffix_cons_iff.mp hv with rfl | hv
    · exact .inl hmem
    · exact .inr ⟨v, hv, hmem⟩
  · rintro (hmem | ⟨v, hv, hmem⟩)
    · exact ⟨c :: w, suffix_rfl, hmem⟩
    · exact ⟨v, hv.trans (suffix_cons c w), hmem⟩

theorem top_mul_top_mul (L : Language α) : (⊤ : Language α) * (⊤ * L) = ⊤ * L := by
  ext w
  constructor
  · intro h
    obtain ⟨v, hv, hmem⟩ := mem_top_mul.mp h
    obtain ⟨u, hu, hmem⟩ := mem_top_mul.mp hmem
    exact mem_top_mul.mpr ⟨u, hu.trans hv, hmem⟩
  · exact mem_top_mul_of_mem

theorem cons_mem_one_mul : c :: w ∈ one p * L ↔ p c ∧ w ∈ L := by
  rw [Language.mem_mul]
  constructor
  · rintro ⟨_, ⟨d, hd, rfl⟩, v, hv, heq⟩
    obtain ⟨rfl, rfl⟩ := List.cons.inj heq
    exact ⟨hd, hv⟩
  · rintro ⟨hc, hw⟩
    exact ⟨[c], ⟨c, hc, rfl⟩, w, hw, rfl⟩

theorem nil_notMem_one_mul : [] ∉ one p * L := by
  rw [Language.mem_mul]
  rintro ⟨_, ⟨d, -, rfl⟩, v, -, heq⟩
  cases heq

/-- No suffix of the word is in the language. -/
def Hopeless (L : Language α) (w : List α) : Prop := ∀ v, v <:+ w → v ∉ L

theorem Hopeless.notMem (h : Hopeless L w) : w ∉ L := h w suffix_rfl

theorem hopeless_nil (h : [] ∉ L) : Hopeless L [] := by
  intro v hv
  rwa [suffix_nil.mp hv]

theorem Hopeless.cons (h : Hopeless L w) (hc : c :: w ∉ L) : Hopeless L (c :: w) := by
  intro v hv
  rcases suffix_cons_iff.mp hv with rfl | hv
  · exact hc
  · exact h v hv

theorem Hopeless.top_mul (h : Hopeless L w) : Hopeless (⊤ * L) w := by
  intro v hv hmem
  obtain ⟨u, hu, hmem⟩ := mem_top_mul.mp hmem
  exact h u (hu.trans hv) hmem

/-- A letter more on both sides: what follows the letter is a suffix again. -/
theorem Hopeless.one_mul (h : Hopeless L w) : Hopeless (one p * L) (c :: w) := by
  intro v hv hmem
  cases v with
  | nil => exact nil_notMem_one_mul hmem
  | cons d v =>
    have hsuffix : v <:+ w := by
      rcases suffix_cons_iff.mp hv with heq | hv
      · obtain ⟨-, rfl⟩ := List.cons.inj heq
        exact suffix_rfl
      · exact (suffix_cons d v).trans hv
    exact h v hsuffix (cons_mem_one_mul.mp hmem).2

end Wildcard
