import NexCache.Lib.Machine

/-!
# The blocked Bloom filter

`bloom/nexbloom.c`: a filter is an array of 64-byte blocks, each read as eight
64-bit lanes.  A hash selects one block by its upper half and one bit in every
lane of it by `h1 + i * h2`.

A filter may answer "maybe" for a hash that was never added; it never answers
"absent" for one that was.  `nexbloomCheck_add_self` and `nexbloomCheck_mono`
say so for one `add`.
-/

namespace NexCache.Bloom

open Machine Function

/-- A number of blocks for which the 32-bit `num_blocks * 64` and `bidx * 64` do not wrap. -/
abbrev NumBlocks := Fin (2 ^ 26)

/-- A filter.  The sizing formula of `nexbloom_create` is floating-point; here
the number of blocks is what it delivered. -/
structure NexBloom where
  numBlocks : NumBlocks
  /-- `data`, read as 64-bit lanes: block, then lane. -/
  data : Nat → Nat → BitVec 64

/-- `nexbloom_create`: all bits clear, at least one block. -/
def nexbloomCreate (sized : NumBlocks) : NexBloom where
  numBlocks := if sized = 0 then 1 else sized
  data := fun _ _ => 0#64

def getBlockIndex (hash numBlocks : Nat) : Nat := u32 (hash >>> 32) % numBlocks

/-- The bit selected in lane `i`. -/
def bitIdx (hash i : Nat) : Nat := u32 (u32 hash + u32 (i * u32 (hash >>> 32))) % 64

def setBitInBlock (block : Nat → BitVec 64) (hash : Nat) : Nat → BitVec 64 :=
  fun i => if i < 8 then block i ||| (1#64 <<< bitIdx hash i) else block i

def checkBitInBlock (block : Nat → BitVec 64) (hash : Nat) : Bool :=
  (List.range 8).all fun i => block i &&& (1#64 <<< bitIdx hash i) != 0#64

def nexbloomAdd (nb : NexBloom) (hash : Nat) : NexBloom :=
  let bidx := getBlockIndex hash nb.numBlocks
  { nb with data := Function.update nb.data bidx (setBitInBlock (nb.data bidx) hash) }

def nexbloomCheck (nb : NexBloom) (hash : Nat) : Bool :=
  checkBitInBlock (nb.data (getBlockIndex hash nb.numBlocks)) hash

/-! ### No false negatives -/

theorem and_bit_ne_zero_iff (x : BitVec 64) {k : Nat} (hk : k < 64) :
    (x &&& (1#64 <<< k) != 0#64) = x.getLsbD k := by
  have hbit : x &&& (1#64 <<< k) = if x.getLsbD k then 1#64 <<< k else 0#64 := by
    apply BitVec.eq_of_getLsbD_eq
    intro i hi
    by_cases hik : i = k
    · subst hik
      cases h : x.getLsbD i <;> simp [h]
    · cases h : x.getLsbD k <;> simp [hi] <;> omega
  have hone : (1#64 <<< k) ≠ 0#64 := by
    intro h0
    have := congrArg (fun b => b.getLsbD k) h0
    simp [hk] at this
  rw [hbit]
  cases x.getLsbD k <;> simp [hone]

theorem bitIdx_lt (hash i : Nat) : bitIdx hash i < 64 := Nat.mod_lt _ (by decide)

variable (block : Nat → BitVec 64)

theorem checkBitInBlock_iff (hash : Nat) :
    checkBitInBlock block hash = true ↔ ∀ i < 8, (block i).getLsbD (bitIdx hash i) = true := by
  simp only [checkBitInBlock, List.all_eq_true, List.mem_range]
  refine forall_congr' fun i => forall_congr' fun _ => ?_
  rw [and_bit_ne_zero_iff _ (bitIdx_lt hash i)]

theorem setBitInBlock_getLsbD (hash : Nat) {i j : Nat}
    (h : (block i).getLsbD j = true) : (setBitInBlock block hash i).getLsbD j = true := by
  unfold setBitInBlock
  split
  · simp [h]
  · exact h

theorem setBitInBlock_self (hash : Nat) {i : Nat} (hi : i < 8) :
    (setBitInBlock block hash i).getLsbD (bitIdx hash i) = true := by
  have := bitIdx_lt hash i
  simp [setBitInBlock, hi, this]

/-- **A hash that was just added is found.** -/
theorem nexbloomCheck_add_self (nb : NexBloom) (hash : Nat) :
    nexbloomCheck (nexbloomAdd nb hash) hash = true := by
  rw [nexbloomCheck, checkBitInBlock_iff]
  intro i hi
  simp only [nexbloomAdd, update_self]
  exact setBitInBlock_self _ hash hi

/-- **Adding a hash hides no other.** -/
theorem nexbloomCheck_mono (nb : NexBloom) (added hash : Nat)
    (h : nexbloomCheck nb hash = true) : nexbloomCheck (nexbloomAdd nb added) hash = true := by
  rw [nexbloomCheck, checkBitInBlock_iff] at h ⊢
  intro i hi
  simp only [nexbloomAdd]
  by_cases hb : getBlockIndex hash nb.numBlocks = getBlockIndex added nb.numBlocks
  · simp only [hb, update_self]
    exact setBitInBlock_getLsbD _ added (by rw [← hb]; exact h i hi)
  · simp only [update_of_ne hb]
    exact h i hi

end NexCache.Bloom
