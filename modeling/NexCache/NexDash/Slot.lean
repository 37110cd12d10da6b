import NexCache.Lib.Machine
import NexCache.Lib.Masked

/-!
# Tagged pointers, slots and buckets

`hashtable/nexdash.h`: a slot keeps its value pointer in the low 48 bits of a
word and packs the key length, the entry type, the eviction tier and a version
into the upper 16.

    [63:56] key length   [55:52] entry type   [51:50] tier   [49:48] version

`tagSetMeta` is the macro that packs the word, with the C widths: the type is a
32-bit `enum`, so a type above 15 spills into the key length.  Address and tier
always come back (`tagGetAddr_setMeta`, `tagGetTier_setMeta`); the length comes back
when the type fits its four bits (`tagGetLen_setMeta`).
-/

namespace NexCache.NexDash

open BitVec

/-- Addresses use 48 bits on the supported targets; `0` is `NULL`. -/
abbrev Addr := BitVec 48

abbrev TaggedPtr := BitVec 64

def tagGetAddr (tp : TaggedPtr) : Addr := tp.setWidth 48

def tagGetLen (tp : TaggedPtr) : BitVec 8 := (tp >>> 56).setWidth 8

def tagGetType (tp : TaggedPtr) : BitVec 4 := (tp >>> 52).setWidth 4

def tagGetTier (tp : TaggedPtr) : BitVec 2 := (tp >>> 50).setWidth 2

def tagGetVer (tp : TaggedPtr) : BitVec 2 := (tp >>> 48).setWidth 2

def tagSetMeta (addr : Addr) (len : BitVec 8) (type : BitVec 32) (tier ver : BitVec 2) :
    TaggedPtr :=
  addr.setWidth 64 ||| (len.setWidth 64 <<< 56) ||| (type.setWidth 64 <<< 52)
    ||| (tier.setWidth 64 <<< 50) ||| (ver.setWidth 64 <<< 48)

variable (a : Addr)

variable (l : BitVec 8)

variable (ty : BitVec 32)

variable (ti v : BitVec 2)

/-- Bit `i` of a packed word: the fields are shifted and joined, not masked. -/
theorem getLsbD_tagSetMeta {i : Nat} (hi : i < 64) :
    (tagSetMeta a l ty ti v).getLsbD i =
      (a.getLsbD i || (!decide (i < 56) && l.getLsbD (i - 56))
        || (!decide (i < 52) && ty.getLsbD (i - 52)) || (!decide (i < 50) && ti.getLsbD (i - 50))
        || (!decide (i < 48) && v.getLsbD (i - 48))) := by
  have h1 : i - 56 < 64 := by omega
  have h2 : i - 52 < 64 := by omega
  have h3 : i - 50 < 64 := by omega
  have h4 : i - 48 < 64 := by omega
  simp only [tagSetMeta, getLsbD_or, getLsbD_shiftLeft, getLsbD_setWidth,
    hi, h1, h2, h3, h4, decide_true, Bool.true_and]

@[simp] theorem tagGetAddr_setMeta : tagGetAddr (tagSetMeta a l ty ti v) = a := by
  apply eq_of_getLsbD_eq
  intro i hi
  have h1 : i < 56 := by omega
  have h2 : i < 52 := by omega
  have h3 : i < 50 := by omega
  rw [tagGetAddr, getLsbD_setWidth, getLsbD_tagSetMeta a l ty ti v (by omega)]
  simp [hi, h1, h2, h3]

@[simp] theorem tagGetTier_setMeta : tagGetTier (tagSetMeta a l ty ti v) = ti := by
  apply eq_of_getLsbD_eq
  intro i hi
  rw [tagGetTier, getLsbD_setWidth, getLsbD_ushiftRight,
    getLsbD_tagSetMeta a l ty ti v (by omega)]
  have hcases : i = 0 ∨ i = 1 := by omega
  rcases hcases with rfl | rfl <;> simp [getLsbD_of_ge]

/-- The type comes back modulo 16. -/
@[simp] theorem tagGetType_setMeta : tagGetType (tagSetMeta a l ty ti v) = ty.setWidth 4 := by
  apply eq_of_getLsbD_eq
  intro i hi
  have ha : a.getLsbD (52 + i) = false := getLsbD_of_ge _ _ (by omega)
  have ht : ti.getLsbD (52 + i - 50) = false := getLsbD_of_ge _ _ (by omega)
  have hv : v.getLsbD (52 + i - 48) = false := getLsbD_of_ge _ _ (by omega)
  have h56 : 52 + i < 56 := by omega
  rw [tagGetType, getLsbD_setWidth, getLsbD_ushiftRight,
    getLsbD_tagSetMeta a l ty ti v (by omega)]
  simp [hi, ha, ht, hv, h56]

theorem tagGetLen_setMeta {ty : BitVec 32} (hty : ty.toNat < 16) :
    tagGetLen (tagSetMeta a l ty ti v) = l := by
  apply eq_of_getLsbD_eq
  intro i hi
  have ha : a.getLsbD (56 + i) = false := getLsbD_of_ge _ _ (by omega)
  have ht : ti.getLsbD (56 + i - 50) = false := getLsbD_of_ge _ _ (by omega)
  have hv : v.getLsbD (56 + i - 48) = false := getLsbD_of_ge _ _ (by omega)
  -- a type below 16 has no bit left above the four of its field
  have hty4 : ty.getLsbD (56 + i - 52) = false :=
    Nat.testBit_lt_two_pow (lt_of_lt_of_le hty
      (Nat.pow_le_pow_right (n := 2) (by decide) (by omega : 4 ≤ 56 + i - 52)))
  rw [tagGetLen, getLsbD_setWidth, getLsbD_ushiftRight,
    getLsbD_tagSetMeta a l ty ti v (by omega), hty4]
  simp [hi, ha, ht, hv]

/-! ### Entry types and tiers -/

def ntypeString : BitVec 32 := 0x0#32

def ntypeDeleted : BitVec 32 := 0xF#32

/-- The 2Q eviction tiers. -/
inductive Eviction2QTier
  | tierProbatory
  | tierProtected
  | tierHot
  | tierPinned
  deriving DecidableEq

/-- The `enum` value of a tier. -/
def Eviction2QTier.code : Eviction2QTier → BitVec 2
  | tierProbatory => 0#2
  | tierProtected => 1#2
  | tierHot => 2#2
  | tierPinned => 3#2

/-! ### Slots and buckets -/

/-- `NexDashSlot`.  `valueSize` only serves the memory accounting. -/
structure NexDashSlot where
  keyHash : Nat
  valuePtr : TaggedPtr
  keyOffset : Nat
  expireUs32 : Nat
  valueSize : BitVec 32
  deriving DecidableEq

/-- A zeroed slot. -/
def NexDashSlot.zero : NexDashSlot := ⟨0, 0#64, 0, 0, 0#32⟩

def NEXDASH_BUCKET_COUNT : Nat := 56
def NEXDASH_SLOT_COUNT : Nat := 4
def NEXDASH_SEGMENT_ITEMS : Nat := NEXDASH_BUCKET_COUNT * NEXDASH_SLOT_COUNT

/-- Bytes charged for an entry on top of its `valueSize`. -/
def NEXDASH_ENTRY_OVERHEAD : Nat := 32

/-- What an occupied slot costs in `used_memory`. -/
def NexDashSlot.cost (sl : NexDashSlot) : Nat := sl.valueSize.toNat + NEXDASH_ENTRY_OVERHEAD

/-- Four slots and the mask of those in use. -/
abbrev NexDashBucket := Masked NexDashSlot

end NexCache.NexDash
