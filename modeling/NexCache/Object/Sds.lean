import NexCache.Lib.Buffer

/-!
# Dynamic strings

`sds.c`: a string is a pointer to its first byte.  In front of it stands a header of one of five
types; the byte before the string has the type in its three low bits, and `sdslen` finds the length
from there.

`SdsAt` says that a string lies at an offset of a buffer, header and final zero included.  What
`sdslen` and a read of that many bytes give follows from it (`SdsAt.sdsText_eq`), and a write
elsewhere keeps it (`SdsAt.write_disjoint`).  `sdsnewlen_reads`: a new string reads back whatever
the allocator adds to the requested size, and none of the assertions fails.

Not modelled: `SDS_NOINIT` and `NULL` as initial contents.
-/

namespace NexCache.Object

open Buffer Machine List

/-- A string that a process can hold: no C object is larger than `PTRDIFF_MAX`. -/
abbrev Text := SizedBytes 63

inductive SdsType
  | t5
  | t8
  | t16
  | t32
  | t64
  deriving DecidableEq

namespace SdsType

/-- `SDS_TYPE_5` to `SDS_TYPE_64`. -/
def code : SdsType → Nat
  | t5 => 0
  | t8 => 1
  | t16 => 2
  | t32 => 3
  | t64 => 4

/-- The bytes of the fields `len` and `alloc`. -/
def width : SdsType → Nat
  | t5 => 0
  | t8 => 1
  | t16 => 2
  | t32 => 4
  | t64 => 8

end SdsType

def sdsHdrSize : SdsType → Nat
  | .t5 => 1
  | .t8 => 3
  | .t16 => 5
  | .t32 => 9
  | .t64 => 17

def sdsReqType (stringSize : Nat) : SdsType :=
  if stringSize < 2 ^ 5 then .t5
  else if stringSize ≤ 2 ^ 8 - sdsHdrSize .t8 - 1 then .t8
  else if stringSize ≤ 2 ^ 16 - sdsHdrSize .t16 - 1 then .t16
  else if stringSize ≤ 2 ^ 32 - sdsHdrSize .t32 - 1 then .t32
  else .t64

def sdsTypeMaxSize : SdsType → Nat
  | .t5 => 2 ^ 5 - 1
  | .t8 => 2 ^ 8 - 1
  | .t16 => 2 ^ 16 - 1
  | .t32 => 2 ^ 32 - 1
  | .t64 => 2 ^ 64 - 1

/-- The header: the flags of type 5 hold the length, the other types have fields for it. -/
def sdsHdr (t : SdsType) (len alloc : Nat) : List UInt8 :=
  match t with
  | .t5 => [UInt8.ofNat (len * 2 ^ 3)]
  | t => toLE t.width len ++ (toLE t.width alloc ++ [UInt8.ofNat t.code])

/-- Everything that is written for a string: header, contents, final zero. -/
def sdsBlock (t : SdsType) (alloc : Nat) (s : List UInt8) : List UInt8 :=
  sdsHdr t s.length alloc ++ (s ++ [0])

/-- `sdslen` of the string at `s`. -/
def sdslen (mem : Nat → UInt8) (s : Nat) : Nat :=
  let flags := (mem (s - 1)).toNat
  match flags % 8 with
  | 0 => flags / 8
  | 1 => ofLE (readBytes mem (s - 3) 1)
  | 2 => ofLE (readBytes mem (s - 5) 2)
  | 3 => ofLE (readBytes mem (s - 9) 4)
  | 4 => ofLE (readBytes mem (s - 17) 8)
  | _ => 0

/-- The bytes of the string at `s`. -/
def sdsText (mem : Nat → UInt8) (s : Nat) : List UInt8 := readBytes mem s (sdslen mem s)

/-! ### Strings in a buffer -/

variable (t : SdsType)

theorem sdsHdrSize_eq : sdsHdrSize t = t.width + (t.width + 1) := by
  cases t <;> rfl

theorem length_sdsHdr (len alloc : Nat) : (sdsHdr t len alloc).length = sdsHdrSize t := by
  cases t <;> simp [sdsHdr, length_toLE, SdsType.width, sdsHdrSize]

theorem length_sdsBlock (alloc : Nat) (s : List UInt8) :
    (sdsBlock t alloc s).length = sdsHdrSize t + (s.length + 1) := by
  rw [sdsBlock, length_append, length_sdsHdr, length_append, length_singleton]

/-- The string `str` lies at `s` with a header of type `t` in front. -/
structure SdsAt (mem : Nat → UInt8) (s : Nat) (t : SdsType) (alloc : Nat) (str : List UInt8) :
    Prop where
  room : sdsHdrSize t ≤ s
  fits : str.length ≤ sdsTypeMaxSize t
  block : readBytes mem (s - sdsHdrSize t) (sdsBlock t alloc str).length = sdsBlock t alloc str

namespace SdsAt

variable {mem : Nat → UInt8} {s alloc : Nat} {t : SdsType} {str : List UInt8}

theorem of_write (mem : Nat → UInt8) (alloc : Nat) (hroom : sdsHdrSize t ≤ s)
    (hfits : str.length ≤ sdsTypeMaxSize t) :
    SdsAt (writeBytes mem (s - sdsHdrSize t) (sdsBlock t alloc str)) s t alloc str :=
  ⟨hroom, hfits, readBytes_write ..⟩

variable (h : SdsAt mem s t alloc str)
include h

theorem write_disjoint {off : Nat} {bs : List UInt8}
    (hoff : s + str.length + 1 ≤ off ∨ off + bs.length + sdsHdrSize t ≤ s) :
    SdsAt (writeBytes mem off bs) s t alloc str := by
  have hroom := h.room
  refine ⟨hroom, h.fits, ?_⟩
  rw [readBytes_write_disjoint, h.block]
  rw [length_sdsBlock]
  omega

theorem header : readBytes mem (s - sdsHdrSize t) (sdsHdrSize t) = sdsHdr t str.length alloc := by
  have hhdr := (readBytes_split h.block).1
  rwa [length_sdsHdr] at hhdr

theorem contents : readBytes mem s str.length = str := by
  have hrest := (readBytes_split h.block).2
  rw [length_sdsHdr, Nat.sub_add_cancel h.room] at hrest
  exact (readBytes_split hrest).1

omit h

end SdsAt

theorem readBytes_one (mem : Nat → UInt8) (off : Nat) : readBytes mem off 1 = [mem off] := rfl

/-- The fields of a header with fields. -/
theorem sdsHdr_wide {t : SdsType} (ht : t ≠ .t5) (len alloc : Nat) :
    sdsHdr t len alloc = toLE t.width len ++ (toLE t.width alloc ++ [UInt8.ofNat t.code]) := by
  cases t with
  | t5 => exact absurd rfl ht
  | t8 | t16 | t32 | t64 => rfl

/-- `sdslen` where the flags name a type with fields. -/
theorem sdslen_of_flags {mem : Nat → UInt8} {s : Nat} {t : SdsType} (ht : t ≠ .t5)
    (hflags : mem (s - 1) = UInt8.ofNat t.code) :
    sdslen mem s = ofLE (readBytes mem (s - sdsHdrSize t) t.width) := by
  rw [sdslen, hflags]
  cases t with
  | t5 => exact absurd rfl ht
  | t8 | t16 | t32 | t64 => rfl

theorem maxSize_lt_width {t : SdsType} (ht : t ≠ .t5) : sdsTypeMaxSize t < 256 ^ t.width := by
  cases t with
  | t5 => exact absurd rfl ht
  | t8 | t16 | t32 | t64 => decide

namespace SdsAt

variable {mem : Nat → UInt8} {s alloc : Nat} {t : SdsType} {str : List UInt8}

theorem sdslen_eq (h : SdsAt mem s t alloc str) : sdslen mem s = str.length := by
  have hhdr := h.header
  have hroom := h.room
  have hfits := h.fits
  by_cases ht : t = .t5
  · subst ht
    have hflags : mem (s - 1) = UInt8.ofNat (str.length * 2 ^ 3) := singleton_inj.mp hhdr
    have hlen : str.length ≤ 31 := hfits
    have hnat : (UInt8.ofNat (str.length * 2 ^ 3)).toNat = str.length * 8 := by
      rw [UInt8.toNat_ofNat']
      omega
    rw [sdslen, hflags, hnat, Nat.mul_mod_left, Nat.mul_div_cancel _ (by decide)]
    rfl
  · rw [sdsHdr_wide ht, sdsHdrSize_eq] at hhdr
    rw [sdsHdrSize_eq] at hroom
    have hlen : (sdsHdr t str.length alloc).length = t.width + (t.width + 1) := by
      rw [length_sdsHdr, sdsHdrSize_eq]
    rw [sdsHdr_wide ht] at hlen
    -- the field `len`, the field `alloc` and the flags follow each other
    rw [← hlen] at hhdr
    obtain ⟨hfield, hrest⟩ := readBytes_split hhdr
    have hflags := (readBytes_split hrest).2
    rw [length_toLE] at hfield hrest hflags
    rw [hlen, length_toLE, length_singleton, readBytes_one, singleton_inj] at hflags
    have hoff : s - (t.width + (t.width + 1)) + t.width + t.width = s - 1 := by omega
    rw [hoff] at hflags
    rw [sdslen_of_flags ht hflags, sdsHdrSize_eq, ← hlen, hfield,
      ofLE_toLE (lt_of_le_of_lt hfits (maxSize_lt_width ht))]

theorem sdsText_eq (h : SdsAt mem s t alloc str) : sdsText mem s = str := by
  rw [sdsText, h.sdslen_eq, h.contents]

end SdsAt

/-! ### New strings -/

/-- The allocator: the size that a request gets, and what the bytes hold before they are written. -/
structure Heap where
  usable : Nat → Nat
  le_usable : ∀ n, n ≤ usable n
  usable_lt : ∀ n, n < 2 ^ 64 → usable n < 2 ^ 64
  bytes : Nat → UInt8

/-- A string with an allocation of its own: the allocation and where the string begins in it. -/
structure SdsPtr where
  mem : Nat → UInt8
  off : Nat

def SdsPtr.text (p : SdsPtr) : List UInt8 := sdsText p.mem p.off

def adjustTypeIfNeeded (t : SdsType) (bufsize : Nat) : SdsType :=
  let usable := bufsize - sdsHdrSize t - 1
  if t ≠ .t5 ∧ usable > sdsTypeMaxSize t then sdsReqType usable else t

/-- `none` where an assertion fails. -/
def sdswrite (buf : Nat → UInt8) (bufsize : Nat) (t : SdsType) (init : List UInt8) :
    Option SdsPtr :=
  let usable := bufsize - sdsHdrSize t - 1
  if bufsize < init.length + sdsHdrSize t + 1 then none
  else if t ≠ .t5 ∧ usable > sdsTypeMaxSize t then none
  else some ⟨writeBytes buf 0 (sdsBlock t usable init), sdsHdrSize t⟩

/-- The type of a new string before its buffer is known. -/
def newlenType (initlen : Nat) : SdsType :=
  if sdsReqType initlen = .t5 ∧ initlen = 0 then .t8 else sdsReqType initlen

def sdsnewlen (heap : Heap) (init : List UInt8) : Option SdsPtr :=
  let t := newlenType init.length
  if u64 (init.length + sdsHdrSize t + 1) ≤ init.length then none
  else
    let bufsize := heap.usable (sdsHdrSize t + init.length + 1)
    sdswrite heap.bytes bufsize (adjustTypeIfNeeded t bufsize) init

def sdsdup (heap : Heap) (s : SdsPtr) : Option SdsPtr := sdsnewlen heap s.text

theorem sdsHdrSize_le : sdsHdrSize t ≤ 17 := by
  cases t <;> decide

/-- The type is chosen so that the string and its header fit the widest field. -/
theorem sdsReqType_fits {n : Nat} (hn : n < 2 ^ 64) : n ≤ sdsTypeMaxSize (sdsReqType n) := by
  unfold sdsReqType
  split_ifs <;> simp only [sdsTypeMaxSize, sdsHdrSize] at * <;> omega

theorem newlenType_fits {n : Nat} (hn : n < 2 ^ 64) : n ≤ sdsTypeMaxSize (newlenType n) := by
  unfold newlenType
  split_ifs with h
  · rw [h.2]
    exact Nat.zero_le _
  · exact sdsReqType_fits hn

/-- A type that is replaced for the size of the buffer has a larger header, and room for it. -/
theorem sdsReqType_room {n len : Nat} (hn : n < 2 ^ 64) (ht : newlenType len ≠ .t5)
    (hmax : sdsTypeMaxSize (newlenType len) < n) :
    sdsHdrSize (newlenType len) ≤ sdsHdrSize (sdsReqType n) ∧
      len + sdsHdrSize (sdsReqType n) ≤ n + sdsHdrSize (newlenType len) := by
  unfold newlenType sdsReqType at *
  split_ifs at * <;> simp only [sdsTypeMaxSize, sdsHdrSize, ne_eq, not_true_eq_false] at * <;> omega

theorem adjustTypeIfNeeded_spec {len bufsize : Nat} (hlen : len < 2 ^ 64) (hbuf : bufsize < 2 ^ 64)
    (hroom : sdsHdrSize (newlenType len) + len + 1 ≤ bufsize) :
    ∃ t, adjustTypeIfNeeded (newlenType len) bufsize = t ∧ len + sdsHdrSize t + 1 ≤ bufsize ∧
      (t ≠ .t5 → bufsize - sdsHdrSize t - 1 ≤ sdsTypeMaxSize t) ∧ len ≤ sdsTypeMaxSize t := by
  refine ⟨_, rfl, ?_⟩
  rw [adjustTypeIfNeeded]
  split_ifs with h
  · have husable : bufsize - sdsHdrSize (newlenType len) - 1 < 2 ^ 64 := by omega
    obtain ⟨hhdr, hroom'⟩ := sdsReqType_room husable h.1 h.2
    have hfits := sdsReqType_fits husable
    exact ⟨by omega, fun _ => by omega, by omega⟩
  · refine ⟨by omega, fun ht => ?_, newlenType_fits hlen⟩
    by_contra hlt
    exact h ⟨ht, by omega⟩

/-- A new string reads back, and no assertion fails. -/
theorem sdsnewlen_reads (heap : Heap) (init : Text) :
    ∃ p, sdsnewlen heap init.bytes = some p ∧ p.text = init.bytes := by
  have hinit : init.bytes.length < 2 ^ 63 := init.len_lt
  have hhdr := sdsHdrSize_le (newlenType init.bytes.length)
  rw [sdsnewlen, u64_of_lt (by omega), if_neg (by omega)]
  have hle := heap.le_usable (sdsHdrSize (newlenType init.bytes.length) + init.bytes.length + 1)
  have hlt := heap.usable_lt _ (by omega : sdsHdrSize (newlenType init.bytes.length) +
    init.bytes.length + 1 < _)
  generalize heap.usable _ = bufsize at hle hlt ⊢
  obtain ⟨t, ht, hroom, husable, hfits⟩ := adjustTypeIfNeeded_spec (by omega) hlt hle
  simp only [ht]
  rw [sdswrite, if_neg (by omega), if_neg fun h => absurd (husable h.1) (by omega)]
  refine ⟨_, rfl, ?_⟩
  have hat := SdsAt.of_write heap.bytes (bufsize - sdsHdrSize t - 1) le_rfl hfits
  rw [Nat.sub_self] at hat
  exact hat.sdsText_eq

end NexCache.Object
