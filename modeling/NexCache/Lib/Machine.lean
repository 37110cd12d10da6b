import Mathlib.Tactic.Ring
import Mathlib.Data.Nat.Bitwise

/-!
# Machine words and sized byte strings

Unsigned C arithmetic is `Nat` arithmetic followed by `u32` or `u64`.  A byte
string that travels with a `w`-bit length field is a `SizedBytes w`, so a length
that does not fit the field cannot be built.
-/

namespace Machine

open List Nat

/-- A value stored into a 32-bit unsigned variable. -/
def u32 (n : Nat) : Nat := n % 2 ^ 32

/-- A value stored into a 64-bit unsigned variable. -/
def u64 (n : Nat) : Nat := n % 2 ^ 64

/-- A 64-bit word read as a signed integer. -/
def i64 (n : Nat) : Int := if n < 2 ^ 63 then n else n - 2 ^ 64

theorem u32_of_lt {n : Nat} (h : n < 2 ^ 32) : u32 n = n := mod_eq_of_lt h

theorem u64_of_lt {n : Nat} (h : n < 2 ^ 64) : u64 n = n := mod_eq_of_lt h

theorem u32_lt (n : Nat) : u32 n < 2 ^ 32 := mod_lt _ (by decide)

theorem u64_lt (n : Nat) : u64 n < 2 ^ 64 := mod_lt _ (by decide)

/-- `x++` on a 32-bit variable. -/
def incr32 (n : Nat) : Nat := u32 (n + 1)

/-- `x--` on a 32-bit variable: `0` wraps to the largest word. -/
def decr32 (n : Nat) : Nat := if n = 0 then 2 ^ 32 - 1 else n - 1

/-- A counter that holds `n` modulo `2^32` holds `n + 1` after `x++`. -/
theorem incr32_u32 (n : Nat) : incr32 (u32 n) = u32 (n + 1) := by
  simp only [incr32, u32, mod_add_mod]

/-! ### Doubling in a 32-bit variable -/

/-- `while (need > x) x *= 2` on a 32-bit `x`, within `fuel` tests. -/
def doubleTo (need : Nat) : Nat → Nat → Option Nat
  | 0, _ => none
  | fuel + 1, x => if need > x then doubleTo need fuel (u32 (x * 2)) else some x

theorem u32_double_pow {j : Nat} (hj : j < 31) : u32 (2 ^ j * 2) = 2 ^ (j + 1) := by
  rw [← pow_succ]
  exact u32_of_lt (Nat.pow_lt_pow_right (by decide) (by omega))

variable {need : Nat}

/-- Up to `2^31` the loop ends, from any power of two. -/
theorem doubleTo_pow (hneed : need ≤ 2 ^ 31) :
    ∀ (fuel : Nat) {j : Nat}, j ≤ 31 → 31 < j + fuel →
      ∃ k, j ≤ k ∧ k ≤ 31 ∧ need ≤ 2 ^ k ∧ doubleTo need fuel (2 ^ j) = some (2 ^ k) := by
  intro fuel
  induction fuel with
  | zero => intro j hj hfuel; omega
  | succ fuel ih =>
    intro j hj hfuel
    by_cases hlt : need > 2 ^ j
    · have hj' : j < 31 := by
        by_contra hge
        have : j = 31 := by omega
        subst this
        omega
      obtain ⟨k, hjk, hk, hle, heq⟩ := ih (j := j + 1) (by omega) (by omega)
      refine ⟨k, by omega, hk, hle, ?_⟩
      rw [doubleTo, if_pos hlt, u32_double_pow hj', heq]
    · exact ⟨j, le_refl j, hj, le_of_not_gt hlt, by rw [doubleTo, if_neg hlt]⟩

theorem doubleTo_zero (hneed : 0 < need) (fuel : Nat) :
    doubleTo need fuel 0 = none := by
  induction fuel with
  | zero => rfl
  | succ fuel ih => rw [doubleTo, if_pos hneed]; exact ih

/-- **Beyond `2^31` the loop never ends**: the variable wraps to `0` and stays there. -/
theorem doubleTo_spins (hneed : 2 ^ 31 < need) :
    ∀ (fuel : Nat) {j : Nat}, j ≤ 31 → doubleTo need fuel (2 ^ j) = none := by
  intro fuel
  induction fuel with
  | zero => intro j _; rfl
  | succ fuel ih =>
    intro j hj
    have hlt : need > 2 ^ j := lt_of_le_of_lt (Nat.pow_le_pow_right (by decide) hj) hneed
    rw [doubleTo, if_pos hlt]
    rcases lt_or_eq_of_le hj with hj' | rfl
    · rw [u32_double_pow hj']
      exact ih (by omega)
    · exact doubleTo_zero (by omega) fuel

/-! ### Sized byte strings -/

/-- Byte strings whose length fits a `w`-bit field. -/
def SizedBytes (w : Nat) : Type := { bytes : List UInt8 // bytes.length < 2 ^ w }

namespace SizedBytes

variable {w : Nat}

instance : DecidableEq (SizedBytes w) := inferInstanceAs (DecidableEq (Subtype _))

/-- The bytes themselves. -/
def bytes (k : SizedBytes w) : List UInt8 := k.val

/-- The length field. -/
def len (k : SizedBytes w) : Nat := k.bytes.length

theorem len_lt (k : SizedBytes w) : k.len < 2 ^ w := k.property

theorem ext {a b : SizedBytes w} (h : a.bytes = b.bytes) : a = b := Subtype.ext h

/-- A buffer whose length is stored into a `w`-bit variable: what a callee sees that is
given the pointer and that variable. -/
def ofList (w : Nat) (l : List UInt8) : SizedBytes w :=
  ⟨l.take (l.length % 2 ^ w), lt_of_le_of_lt (length_take_le _ _)
    (Nat.mod_lt _ (Nat.two_pow_pos w))⟩

/-- The length cast from a `v`-bit to a `w`-bit variable. -/
def cut {v : Nat} (k : SizedBytes v) (w : Nat) : SizedBytes w := ofList w k.bytes

theorem bytes_ofList {l : List UInt8} (h : l.length < 2 ^ w) : (ofList w l).bytes = l := by
  show l.take (l.length % 2 ^ w) = l
  rw [mod_eq_of_lt h, take_length]

theorem bytes_cut {v : Nat} {k : SizedBytes v} (h : k.len < 2 ^ w) : (k.cut w).bytes = k.bytes :=
  bytes_ofList h

/-- The cast tells apart the strings that fit. -/
theorem cut_inj {v : Nat} {a b : SizedBytes v} (ha : a.len < 2 ^ w) (hb : b.len < 2 ^ w)
    (h : a.cut w = b.cut w) : a = b := by
  refine ext ?_
  rw [← bytes_cut ha, h, bytes_cut hb]

end SizedBytes

/-- The 64-bit FNV-1a hash. -/
def fnv1a (data : List UInt8) : Nat :=
  data.foldl (fun h b => u64 ((h ^^^ b.toNat) * 0x100000001b3)) 0xcbf29ce484222325

theorem fnv1a_lt (data : List UInt8) : fnv1a data < 2 ^ 64 := by
  unfold fnv1a
  rcases eq_nil_or_concat data with rfl | ⟨data, b, rfl⟩
  · rw [foldl_nil]
    decide
  · rw [concat_eq_append, foldl_append, foldl_cons, foldl_nil]
    exact u64_lt _

end Machine
