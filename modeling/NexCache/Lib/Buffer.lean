import NexCache.Lib.Machine

/-!
# Byte buffers

A buffer is a function from offsets to bytes; `writeBytes` is `memcpy` into it and
`readBytes` is `memcpy` out of it.  A read that lies inside the last write gives
what was written, a read that is disjoint from it is not affected.

`toLE` and `ofLE` are the little-endian layout of a word.  `wordAt` and `slices` take
apart a list of bytes: the word at an offset, and an array of records of one size.
-/

namespace Buffer

open List

/-- `len` bytes from `off` on. -/
def readBytes (d : Nat → UInt8) (off len : Nat) : List UInt8 :=
  (List.range len).map fun i => d (off + i)

/-- Copies `bs` to `off`. -/
def writeBytes (d : Nat → UInt8) (off : Nat) (bs : List UInt8) : Nat → UInt8 :=
  fun i => if off ≤ i ∧ i < off + bs.length then bs.getD (i - off) 0 else d i

variable (d : Nat → UInt8)

@[simp] theorem length_readBytes (off len : Nat) : (readBytes d off len).length = len := by
  rw [readBytes, length_map, length_range]

theorem readBytes_congr {d d' : Nat → UInt8} {off len : Nat}
    (h : ∀ i, off ≤ i → i < off + len → d' i = d i) :
    readBytes d' off len = readBytes d off len := by
  refine map_congr_left fun i hi => ?_
  rw [mem_range] at hi
  exact h (off + i) (by omega) (by omega)

theorem readBytes_append (off m n : Nat) :
    readBytes d off (m + n) = readBytes d off m ++ readBytes d (off + m) n := by
  rw [readBytes, readBytes, readBytes, range_add, map_append, map_map]
  congr 1
  refine map_congr_left fun i _ => ?_
  show d (off + (m + i)) = d (off + m + i)
  rw [Nat.add_assoc]

theorem readBytes_write_disjoint (bs : List UInt8) {off off' len : Nat}
    (h : off' + len ≤ off ∨ off + bs.length ≤ off') :
    readBytes (writeBytes d off bs) off' len = readBytes d off' len := by
  refine readBytes_congr fun i hi hi' => ?_
  rw [writeBytes, if_neg (by omega)]

/-- What was written is read back. -/
theorem readBytes_write (off : Nat) (bs : List UInt8) :
    readBytes (writeBytes d off bs) off bs.length = bs := by
  apply ext_getElem
  · rw [length_readBytes]
  · intro i hi hi'
    simp only [readBytes, getElem_map, getElem_range, writeBytes]
    rw [if_pos (by omega), Nat.add_sub_cancel_left, getD_eq_getElem?_getD,
      List.getElem?_eq_getElem hi']
    rfl

/-- The parts of a block that is known as a whole. -/
theorem readBytes_split {d : Nat → UInt8} {off : Nat} {xs ys : List UInt8}
    (h : readBytes d off (xs ++ ys).length = xs ++ ys) :
    readBytes d off xs.length = xs ∧ readBytes d (off + xs.length) ys.length = ys := by
  rw [length_append, readBytes_append] at h
  exact append_inj h (length_readBytes ..)

/-! ### Words -/

/-- The `n` low bytes of a word, lowest first. -/
def toLE : Nat → Nat → List UInt8
  | 0, _ => []
  | n + 1, w => UInt8.ofNat w :: toLE n (w / 256)

def ofLE : List UInt8 → Nat
  | [] => 0
  | b :: bs => b.toNat + 256 * ofLE bs

theorem length_toLE (n w : Nat) : (toLE n w).length = n := by
  induction n generalizing w with
  | zero => rfl
  | succ n ih => rw [toLE, length_cons, ih]

/-- A word that fits comes back from its bytes. -/
theorem ofLE_toLE {n w : Nat} (h : w < 256 ^ n) : ofLE (toLE n w) = w := by
  induction n generalizing w with
  | zero =>
    rw [Nat.pow_zero] at h
    rw [toLE, ofLE]
    omega
  | succ n ih =>
    rw [toLE, ofLE, UInt8.toNat_ofNat', ih]
    · omega
    · rw [Nat.pow_succ] at h
      omega

/-! ### Records -/

/-- The word of `n` bytes at `off`. -/
def wordAt (bs : List UInt8) (off n : Nat) : Nat := ofLE ((bs.drop off).take n)

/-- The first `n` records of `k` bytes. -/
def slices (k : Nat) : Nat → List UInt8 → List (List UInt8)
  | 0, _ => []
  | n + 1, bs => bs.take k :: slices k n (bs.drop k)

/-- Writes `xs` over the bytes from `off` on. -/
def overwrite (bs : List UInt8) (off : Nat) (xs : List UInt8) : List UInt8 :=
  bs.take off ++ xs ++ bs.drop (off + xs.length)

/-- A field is read at the offset it was laid out at. -/
theorem wordAt_append (xs : List UInt8) {off : Nat} (hoff : xs.length = off) {n w : Nat}
    (hw : w < 256 ^ n) (ys : List UInt8) : wordAt (xs ++ (toLE n w ++ ys)) off n = w := by
  rw [wordAt, ← hoff, drop_left, take_left' (length_toLE n w), ofLE_toLE hw]

theorem slices_flatMap {α : Type*} {f : α → List UInt8} {k : Nat} {l : List α}
    (hlen : ∀ a ∈ l, (f a).length = k) : slices k l.length (l.flatMap f) = l.map f := by
  induction l with
  | nil => rfl
  | cons a l ih =>
    have ha := hlen a (by simp)
    rw [length_cons, slices, flatMap_cons, map_cons, take_left' ha,
      drop_left' ha, ih fun b hb => hlen b (by simp [hb])]

theorem length_flatMap_of {α : Type*} {f : α → List UInt8} {k : Nat} {l : List α}
    (hlen : ∀ a ∈ l, (f a).length = k) : (l.flatMap f).length = k * l.length := by
  induction l with
  | nil => rfl
  | cons a l ih =>
    rw [flatMap_cons, length_append, hlen a (by simp),
      ih fun b hb => hlen b (by simp [hb]), length_cons]
    ring

theorem length_overwrite {bs xs : List UInt8} {off n : Nat} (hbs : bs.length = n)
    (h : off + xs.length ≤ n) : (overwrite bs off xs).length = n := by
  rw [overwrite, length_append, length_append, length_take, length_drop]
  omega

end Buffer
