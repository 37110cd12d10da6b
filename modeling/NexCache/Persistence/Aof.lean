import NexCache.Lib.Buffer
import NexCache.Lib.Framing
import Mathlib.Data.List.Forall2
import Mathlib.Data.List.Induction

/-!
# The append-only file

`persistence/persist.c`: `aof_write` appends one record with up to three calls of `write`, the
header, the key and the value, and `aof_replay` reads records until the file ends inside one.

What `write` does is an input: it fails, or it writes a part of the buffer.  The file is its
bytes; `read` takes what is left of them, so it comes short only at the end of the file.  (A
single call of `write` or `read` moves at most `0x7ffff000` bytes: a longer value is not written
completely in the first place.)

What `malloc` returns in a replay is an input of `aofReplayWith`.  In `aofReplay` every `malloc`
succeeds (`aofReplayWith_eq`).

`aof_replay_truncated`: after complete writes, a file that is cut anywhere behind its magic
gives the records before the cut, if every allocation succeeds.  `aof_recovers_iff`: a log whose
writes may fail can be recovered at every moment iff each of its calls is `Clean`.

Not modelled: the statistics, `fsync`, and the case that the log is switched off, in which
`aof_write` does nothing.
-/

namespace NexCache.Persistence

open Buffer Framing List Option Nat

inductive AOFEntryType
  | set
  | del
  | expire
  | flush
  | select
  deriving DecidableEq

/-- The `enum` value, cut to the byte of the header. -/
def AOFEntryType.code : AOFEntryType → UInt8
  | set => 1
  | del => 2
  | expire => 3
  | flush => 4
  | select => 5

/-- A pointer and a length. -/
inductive Ptr
  | null (len : Nat)
  | data (bytes : List UInt8)
  deriving DecidableEq

def Ptr.len : Ptr → Nat
  | null len => len
  | data bytes => bytes.length

/-! ### Writing -/

def UINT32_MAX : Nat := 2 ^ 32 - 1

def AOF_MAGIC : List UInt8 := [78, 69, 88, 65, 79, 70, 49]

def AOF_HEADER_LEN : Nat := 16

/-- `struct AOFEntry`, packed. -/
def aofHeader (type : UInt8) (keyLen valueLen : Nat) (expireUs : UInt64) : List UInt8 :=
  toLE 1 type.toNat ++ (toLE 1 0 ++ (toLE 2 keyLen ++ (toLE 4 valueLen ++ toLE 8 expireUs.toNat)))

/-- The arguments of `aof_write`, and what the three calls of `write` do: `none` is `-1`. -/
structure AofCall where
  type : AOFEntryType
  key : Ptr
  value : Ptr
  expireUs : UInt64
  hdrOut : Option Nat
  keyOut : Option Nat
  valueOut : Option Nat
  deriving DecidableEq

/-- `write` on a file that is open for appending, with its result. -/
def writeFd (file buf : List UInt8) : Option Nat → List UInt8 × Int
  | none => (file, -1)
  | some n => (file ++ buf.take n, (min n buf.length : Nat))

def aofKeyLen (key : List UInt8) : Nat := if key.length > 65535 then 65535 else key.length

def aofValueLen (value : Ptr) : Nat :=
  if value.len > UINT32_MAX then UINT32_MAX else value.len

/-- The key is written if the header was; the pair is the file and the last result. -/
def aofWriteKey (key : List UInt8) (out : Option Nat) (r : List UInt8 × Int) : List UInt8 × Int :=
  if r.2 = AOF_HEADER_LEN then writeFd r.1 (key.take (aofKeyLen key)) out else r

/-- The value is written if the last `write` has written something. -/
def aofWriteValue (value : Ptr) (out : Option Nat) (r : List UInt8 × Int) : List UInt8 × Int :=
  match value with
  | .null _ => r
  | .data bytes =>
    if bytes.length > 0 ∧ r.2 > 0 then writeFd r.1 (bytes.take (aofValueLen value)) out else r

/-- `aof_write`: the file afterwards and the result. -/
def aofWrite (file : List UInt8) (c : AofCall) : List UInt8 × Int :=
  match c.key with
  | .null _ => (file, -1)
  | .data key =>
    if key.length = 0 then (file, -1)
    else
      let hdr := aofHeader c.type.code (aofKeyLen key) (aofValueLen c.value) c.expireUs
      let r := writeFd file hdr c.hdrOut
      let r := aofWriteKey key c.keyOut r
      let r := aofWriteValue c.value c.valueOut r
      (r.1, if r.2 < 0 then -1 else 0)

/-- The file that `aof_init` leaves, after these calls. -/
def aofFile (cs : List AofCall) : List UInt8 :=
  cs.foldl (fun file c => (aofWrite file c).1) AOF_MAGIC

/-! ### Reading -/

/-- One record of the file. -/
structure AOFRecord where
  type : UInt8
  key : List UInt8
  value : List UInt8
  expireUs : UInt64
  deriving DecidableEq

/-- One call of `apply_fn`. -/
structure ApplyCall where
  type : UInt8
  key : List UInt8
  value : Ptr
  expireUs : UInt64
  deriving DecidableEq

/-- One round of the loop of `aof_replay`, by what `malloc` returns for the key and the value. -/
def aofRound (keyOk valueOk : Bool) (bs : List UInt8) : Option (ApplyCall × List UInt8) :=
  let hdr := bs.take AOF_HEADER_LEN
  if hdr.length ≠ AOF_HEADER_LEN then none
  else
    let bs := bs.drop AOF_HEADER_LEN
    let keyLen := wordAt hdr 2 2
    let valueLen := wordAt hdr 4 4
    let key := bs.take keyLen
    if keyOk = false then none
    else if key.length ≠ keyLen then none
    else
      let bs := bs.drop keyLen
      let type := UInt8.ofNat (wordAt hdr 0 1)
      let expireUs := UInt64.ofNat (wordAt hdr 8 8)
      if valueLen > 0 ∧ valueOk then
        let value := bs.take valueLen
        if value.length ≠ valueLen then none
        else some (⟨type, key, .data value, expireUs⟩, bs.drop valueLen)
      else
        -- the value is `NULL`; its bytes, if there are any, stay in the file
        some (⟨type, key, .null valueLen, expireUs⟩, bs)

/-- `aof_replay`: the calls of `apply_fn`; `none` if the magic is wrong. -/
def aofReplayWith (keyOk valueOk : Nat → Bool) (file : List UInt8) : Option (List ApplyCall) :=
  if file.take AOF_MAGIC.length = AOF_MAGIC then
    some (replayRounds (fun i => aofRound (keyOk i) (valueOk i)) (file.drop AOF_MAGIC.length))
  else none

/-- One round in which `malloc` succeeds, with the record that it reads. -/
def aofNext (bs : List UInt8) : Option (AOFRecord × List UInt8) :=
  let hdr := bs.take AOF_HEADER_LEN
  if hdr.length ≠ AOF_HEADER_LEN then none
  else
    let bs := bs.drop AOF_HEADER_LEN
    let keyLen := wordAt hdr 2 2
    let valueLen := wordAt hdr 4 4
    let key := bs.take keyLen
    if key.length ≠ keyLen then none
    else
      let bs := bs.drop keyLen
      let value := bs.take valueLen
      if valueLen > 0 ∧ value.length ≠ valueLen then none
      else
        some (⟨UInt8.ofNat (wordAt hdr 0 1), key, value, UInt64.ofNat (wordAt hdr 8 8)⟩,
          bs.drop valueLen)

/-- The records that `aof_replay` reads if every `malloc` succeeds. -/
def aofReplay (file : List UInt8) : Option (List AOFRecord) :=
  if file.take AOF_MAGIC.length = AOF_MAGIC then
    some (replay aofNext (file.drop AOF_MAGIC.length))
  else none

/-- A value without bytes is passed on as `NULL`. -/
def AOFRecord.call (r : AOFRecord) : ApplyCall :=
  ⟨r.type, r.key, if r.value = [] then .null 0 else .data r.value, r.expireUs⟩

theorem aofRound_true (bs : List UInt8) :
    aofRound true true bs = (aofNext bs).map (Prod.map AOFRecord.call id) := by
  rw [aofRound, aofNext]
  dsimp only
  split
  · rfl
  rw [if_neg (by decide)]
  split
  · rfl
  generalize wordAt (bs.take AOF_HEADER_LEN) 4 4 = valueLen
  generalize (bs.drop AOF_HEADER_LEN).drop (wordAt (bs.take AOF_HEADER_LEN) 2 2) = bs'
  by_cases h0 : valueLen > 0
  · rw [if_pos ⟨h0, rfl⟩]
    split
    · rename_i hlen
      rw [if_pos ⟨h0, hlen⟩, map_none]
    · rename_i hlen
      have hne : bs'.take valueLen ≠ [] := by
        intro hnil
        rw [hnil] at hlen
        exact hlen (Nat.ne_of_lt h0)
      rw [if_neg fun h => hlen h.2, map_some, Prod.map_apply, AOFRecord.call, if_neg hne]
      rfl
  · obtain rfl : valueLen = 0 := by omega
    rw [if_neg fun h => h0 h.1, if_neg fun h => h0 h.1]
    rfl

/-- A replay in which every `malloc` succeeds. -/
theorem aofReplayWith_eq {keyOk valueOk : Nat → Bool} (hkey : ∀ i, keyOk i = true)
    (hvalue : ∀ i, valueOk i = true) (file : List UInt8) :
    aofReplayWith keyOk valueOk file = (aofReplay file).map (map AOFRecord.call) := by
  rw [aofReplayWith, aofReplay]
  split
  · refine congrArg some (replayRounds_eq ?_ _)
    intro i bs
    rw [hkey, hvalue, aofRound_true]
  · rfl

/-! ### One record -/

def AOFRecord.Valid (r : AOFRecord) : Prop := r.key.length ≤ 65535 ∧ r.value.length < 2 ^ 32

/-- The bytes of a record. -/
def AOFRecord.bytes (r : AOFRecord) : List UInt8 :=
  aofHeader r.type r.key.length r.value.length r.expireUs ++ (r.key ++ r.value)

@[simp]
theorem length_aofHeader (type : UInt8) (keyLen valueLen : Nat) (expireUs : UInt64) :
    (aofHeader type keyLen valueLen expireUs).length = AOF_HEADER_LEN := by
  simp [aofHeader, length_toLE, AOF_HEADER_LEN]

section Header

variable (type : UInt8) {keyLen valueLen : Nat} (expireUs : UInt64)

theorem type_aofHeader (keyLen valueLen : Nat) :
    UInt8.ofNat (wordAt (aofHeader type keyLen valueLen expireUs) 0 1) = type := by
  have hword := wordAt_append [] (show ([] : List UInt8).length = 0 from rfl)
    (show type.toNat < 256 ^ 1 from type.toNat_lt)
    (toLE 1 0 ++ (toLE 2 keyLen ++ (toLE 4 valueLen ++ toLE 8 expireUs.toNat)))
  rw [nil_append] at hword
  rw [aofHeader, hword, UInt8.ofNat_toNat]

theorem keyLen_aofHeader (h : keyLen < 256 ^ 2) (valueLen : Nat) :
    wordAt (aofHeader type keyLen valueLen expireUs) 2 2 = keyLen := by
  have hoff : (toLE 1 type.toNat ++ toLE 1 0).length = 2 := by simp [length_toLE]
  have hword := wordAt_append _ hoff h (toLE 4 valueLen ++ toLE 8 expireUs.toNat)
  rwa [append_assoc] at hword

theorem valueLen_aofHeader (keyLen : Nat) (h : valueLen < 256 ^ 4) :
    wordAt (aofHeader type keyLen valueLen expireUs) 4 4 = valueLen := by
  have hoff : (toLE 1 type.toNat ++ (toLE 1 0 ++ toLE 2 keyLen)).length = 4 := by
    simp [length_toLE]
  have hword := wordAt_append _ hoff h (toLE 8 expireUs.toNat)
  rwa [append_assoc, append_assoc] at hword

theorem expireUs_aofHeader (keyLen valueLen : Nat) :
    UInt64.ofNat (wordAt (aofHeader type keyLen valueLen expireUs) 8 8) = expireUs := by
  have hoff : (toLE 1 type.toNat ++ (toLE 1 0 ++ (toLE 2 keyLen ++ toLE 4 valueLen))).length =
      8 := by
    simp [length_toLE]
  have hword := wordAt_append _ hoff (show expireUs.toNat < 256 ^ 8 from expireUs.toNat_lt) []
  rw [append_nil, append_assoc, append_assoc, append_assoc] at hword
  rw [aofHeader, hword, UInt64.ofNat_toNat]

end Header

variable {bs rest : List UInt8} {r : AOFRecord}

/-- **One round**: the bytes are a header, a key and a value of the lengths that the header
gives, and the rest. -/
theorem aofNext_eq_some_iff :
    aofNext bs = some (r, rest) ↔ ∃ hdr : List UInt8, hdr.length = AOF_HEADER_LEN ∧
      bs = hdr ++ (r.key ++ (r.value ++ rest)) ∧ wordAt hdr 2 2 = r.key.length ∧
      wordAt hdr 4 4 = r.value.length ∧ UInt8.ofNat (wordAt hdr 0 1) = r.type ∧
      UInt64.ofNat (wordAt hdr 8 8) = r.expireUs := by
  constructor
  · intro h
    rw [aofNext] at h
    dsimp only at h
    split at h
    · cases h
    rename_i hhdr
    split at h
    · cases h
    rename_i hkey
    split at h
    · cases h
    rename_i hvalue
    obtain ⟨rfl, rfl⟩ := Prod.mk.inj (some.inj h)
    rw [not_not] at hhdr hkey
    refine ⟨bs.take AOF_HEADER_LEN, hhdr, ?_, hkey.symm, ?_, rfl, rfl⟩
    · rw [take_append_drop, take_append_drop, take_append_drop]
    · -- a value of length 0 is not read
      by_contra hne
      refine hvalue ⟨pos_of_ne_zero fun h0 => hne ?_, fun heq => hne heq.symm⟩
      rw [h0, take_zero, length_nil]
  · rintro ⟨hdr, hlen, rfl, hkey, hvalue, htype, hexpire⟩
    rw [aofNext]
    dsimp only
    rw [take_left' hlen, drop_left' hlen, hkey, hvalue, take_left, drop_left,
      take_left, drop_left, htype, hexpire, if_neg (not_not.mpr hlen),
      if_neg (not_not.mpr rfl), if_neg (fun h => h.2 rfl)]

theorem aofNext_length (h : aofNext bs = some (r, rest)) :
    bs.length = AOF_HEADER_LEN + r.key.length + r.value.length + rest.length := by
  obtain ⟨hdr, hlen, rfl, -⟩ := aofNext_eq_some_iff.mp h
  simp only [length_append, hlen]
  omega

theorem aofNext_bytes (h : r.Valid) : aofNext r.bytes = some (r, []) := by
  have hkey : r.key.length < 256 ^ 2 := lt_of_le_of_lt h.1 (by decide)
  have hvalue : r.value.length < 256 ^ 4 := h.2
  refine aofNext_eq_some_iff.mpr ⟨_, length_aofHeader .., ?_, keyLen_aofHeader _ _ hkey _,
    valueLen_aofHeader _ _ _ hvalue, type_aofHeader .., expireUs_aofHeader ..⟩
  rw [append_nil]
  rfl

theorem aofFrames : Frames AOFRecord.bytes aofNext AOFRecord.Valid where
  shrinks bs r rest h := by
    have hlen := aofNext_length h
    have hpos : 0 < AOF_HEADER_LEN := by decide
    omega
  whole r h := aofNext_bytes h
  extend bs r rest h more := by
    obtain ⟨hdr, hlen, rfl, hfields⟩ := aofNext_eq_some_iff.mp h
    refine aofNext_eq_some_iff.mpr ⟨hdr, hlen, ?_, hfields⟩
    simp only [append_assoc]

/-! ### One call -/

/-- The bytes behind a pointer; none behind `NULL`. -/
def Ptr.bytes : Ptr → List UInt8
  | null _ => []
  | data bytes => bytes

/-- The record that a call stands for. -/
def AofCall.record (c : AofCall) : AOFRecord :=
  ⟨c.type.code, c.key.bytes, c.value.bytes, c.expireUs⟩

/-- The call `write` with this outcome writes all of `len` bytes. -/
def Wrote (out : Option Nat) (len : Nat) : Prop := ∃ n, out = some n ∧ len ≤ n

/-- A call with a key and a value that the header can describe, whose writes are complete. -/
structure AofCall.Complete (c : AofCall) : Prop where
  key_pos : 0 < c.key.bytes.length
  key_le : c.key.bytes.length ≤ 65535
  value_eq : c.value.bytes.length = c.value.len
  value_lt : c.value.len < 2 ^ 32
  hdr : Wrote c.hdrOut AOF_HEADER_LEN
  key : Wrote c.keyOut c.key.bytes.length
  value : 0 < c.value.len → Wrote c.valueOut c.value.len

theorem writeFd_eq (file buf : List UInt8) (out : Option Nat) :
    writeFd file buf out = (file ++ (writeFd [] buf out).1, (writeFd [] buf out).2) := by
  cases out <;> simp [writeFd]

theorem aofWriteKey_eq (key : List UInt8) (out : Option Nat) (file new : List UInt8) (w : Int) :
    aofWriteKey key out (file ++ new, w)
      = (file ++ (aofWriteKey key out (new, w)).1, (aofWriteKey key out (new, w)).2) := by
  rw [aofWriteKey, aofWriteKey]
  split
  · rw [writeFd_eq, writeFd_eq new, append_assoc]
  · rfl

theorem aofWriteValue_eq (value : Ptr) (out : Option Nat) (file new : List UInt8) (w : Int) :
    aofWriteValue value out (file ++ new, w)
      = (file ++ (aofWriteValue value out (new, w)).1, (aofWriteValue value out (new, w)).2) := by
  cases value with
  | null len => rfl
  | data bytes =>
    rw [aofWriteValue, aofWriteValue]
    split
    · rw [writeFd_eq, writeFd_eq new, append_assoc]
    · rfl

/-- What a call appends and returns does not depend on the file. -/
theorem aofWrite_eq (file : List UInt8) (c : AofCall) :
    aofWrite file c = (file ++ (aofWrite [] c).1, (aofWrite [] c).2) := by
  unfold aofWrite
  cases c.key with
  | null len => simp
  | data key =>
    dsimp only
    split
    · rw [append_nil]
    · rw [writeFd_eq file, aofWriteKey_eq, aofWriteValue_eq]

variable {c : AofCall} {key : List UInt8}

theorem aofWrite_rejected (h : c.key.bytes = []) (file : List UInt8) :
    aofWrite file c = (file, -1) := by
  rw [aofWrite]
  cases hkey : c.key with
  | null len => rfl
  | data key =>
    rw [hkey] at h
    dsimp only
    rw [if_pos (by rw [show key = [] from h]; rfl)]

theorem AofCall.Complete.valid (h : c.Complete) : c.record.Valid :=
  ⟨h.key_le, by rw [show c.record.value.length = c.value.len from h.value_eq]; exact h.value_lt⟩

theorem aofKeyLen_of_le (h : key.length ≤ 65535) :
    aofKeyLen key = key.length := if_neg (not_lt.mpr h)

theorem aofValueLen_of_lt {value : Ptr} (h : value.len < 2 ^ 32) :
    aofValueLen value = value.len := if_neg (by rw [UINT32_MAX]; omega)

theorem aofValueLen_le (value : Ptr) : aofValueLen value ≤ 2 ^ 32 - 1 := by
  rw [aofValueLen]
  split
  · exact le_refl _
  · rename_i hle
    exact not_lt.mp hle

variable {out : Option Nat}

section Parts

variable (file : List UInt8)

theorem writeFd_complete {buf : List UInt8} (h : Wrote out buf.length) :
    writeFd file buf out = (file ++ buf, ((buf.length : Nat) : Int)) := by
  obtain ⟨n, rfl, hn⟩ := h
  rw [writeFd, take_of_length_le hn, min_eq_right hn]

theorem aofWriteKey_complete (hle : key.length ≤ 65535) (h : Wrote out key.length) :
    aofWriteKey key out (file, (AOF_HEADER_LEN : Int)) = (file ++ key, (key.length : Int)) := by
  rw [aofWriteKey, if_pos rfl, aofKeyLen_of_le hle, take_length, writeFd_complete file h]

theorem aofWriteValue_complete {value : Ptr} (heq : value.bytes.length = value.len)
    (hlt : value.len < 2 ^ 32) (h : 0 < value.len → Wrote out value.len) {w : Int} (hw : 0 < w) :
    (aofWriteValue value out (file, w)).1 = file ++ value.bytes ∧
      0 < (aofWriteValue value out (file, w)).2 := by
  cases value with
  | null len => exact ⟨(append_nil file).symm, hw⟩
  | data bytes =>
    rw [aofWriteValue, aofValueLen_of_lt hlt]
    dsimp only [Ptr.len, Ptr.bytes] at h ⊢
    by_cases hpos : bytes.length > 0
    · rw [if_pos ⟨hpos, hw⟩, take_length, writeFd_complete file (h hpos)]
      exact ⟨rfl, Int.natCast_pos.mpr hpos⟩
    · have hnil : bytes = [] := eq_nil_of_length_eq_zero (by omega)
      rw [if_neg (fun hb => hpos hb.1), hnil, append_nil]
      exact ⟨rfl, hw⟩

/-- **A complete call** appends its record. -/
theorem aofWrite_complete (h : c.Complete) :
    aofWrite file c = (file ++ c.record.bytes, 0) := by
  obtain ⟨type, key, value, expireUs, hdrOut, keyOut, valueOut⟩ := c
  cases key with
  | null len => exact absurd h.key_pos (lt_irrefl 0)
  | data key =>
    have hpos : 0 < key.length := h.key_pos
    have hle : key.length ≤ 65535 := h.key_le
    have hhdr : Wrote hdrOut (aofHeader type.code key.length value.len expireUs).length := by
      rw [length_aofHeader]
      exact h.hdr
    rw [aofWrite]
    dsimp only
    rw [if_neg (ne_of_gt hpos), aofKeyLen_of_le hle, aofValueLen_of_lt h.value_lt,
      writeFd_complete file hhdr, length_aofHeader, aofWriteKey_complete _ hle h.key]
    obtain ⟨hfile, hw⟩ := aofWriteValue_complete
      (file ++ aofHeader type.code key.length value.len expireUs ++ key) h.value_eq h.value_lt
      h.value (show (0 : Int) < key.length by exact_mod_cast hpos)
    rw [hfile, if_neg (Int.not_lt.mpr (Int.le_of_lt hw)), AOFRecord.bytes, AofCall.record,
      show value.bytes.length = value.len from h.value_eq, append_assoc, append_assoc]
    rfl

/-- The key fails, or is written in part; all of it only if it is short enough. -/
theorem aofWriteKey_cases (key : List UInt8) (out : Option Nat) :
    aofWriteKey key out (file, (AOF_HEADER_LEN : Int)) = (file, -1) ∨
      ∃ part : List UInt8, aofWriteKey key out (file, (AOF_HEADER_LEN : Int))
          = (file ++ part, (part.length : Int)) ∧ part.length ≤ key.length ∧
        (part.length = key.length → key.length ≤ 65535 ∧ Wrote out key.length) := by
  rw [aofWriteKey, if_pos rfl]
  cases out with
  | none => exact .inl rfl
  | some n =>
    refine .inr ⟨(key.take (aofKeyLen key)).take n, ?_, ?_, ?_⟩
    · rw [writeFd, length_take (i := n)]
    · simp only [length_take]
      omega
    · intro heq
      simp only [length_take, aofKeyLen] at heq
      split at heq
      · omega
      · exact ⟨by omega, n, rfl, by omega⟩

/-- The value fails, or is written in part; all of it only if it is there and short enough. -/
theorem aofWriteValue_cases (value : Ptr) (out : Option Nat) {w : Int} (hw : 0 ≤ w) :
    (aofWriteValue value out (file, w) = (file, -1) ∧ 0 < w) ∨
      (0 ≤ (aofWriteValue value out (file, w)).2 ∧ ∃ part : List UInt8,
        (aofWriteValue value out (file, w)).1 = file ++ part ∧ part.length ≤ value.len ∧
        (part.length = value.len → value.bytes.length = value.len ∧ value.len < 2 ^ 32 ∧
          (0 < value.len → 0 < w → Wrote out value.len))) := by
  cases value with
  | null len =>
    refine .inr ⟨hw, [], (append_nil file).symm, zero_le _, fun heq => ?_⟩
    rw [← heq]
    exact ⟨rfl, by decide, fun h0 => absurd h0 (lt_irrefl 0)⟩
  | data bytes =>
    rw [aofWriteValue]
    dsimp only [Ptr.len, Ptr.bytes]
    by_cases hcond : bytes.length > 0 ∧ w > 0
    · rw [if_pos hcond]
      cases out with
      | none => exact .inl ⟨rfl, hcond.2⟩
      | some n =>
        refine .inr ⟨Int.natCast_nonneg _, (bytes.take (aofValueLen (.data bytes))).take n, rfl, ?_,
          ?_⟩
        · simp only [length_take]
          omega
        · intro heq
          have hmax := aofValueLen_le (.data bytes)
          rw [length_take, length_take] at heq
          exact ⟨rfl, by omega, fun _ _ => ⟨n, rfl, by omega⟩⟩
    · rw [if_neg hcond]
      refine .inr ⟨hw, [], (append_nil file).symm, zero_le _, fun heq => ?_⟩
      rw [← heq]
      exact ⟨rfl, by decide, fun h0 => absurd h0 (lt_irrefl 0)⟩

end Parts

theorem aofHeader_cons (type : UInt8) (keyLen valueLen : Nat) (expireUs : UInt64) :
    ∃ rest, aofHeader type keyLen valueLen expireUs = type :: rest := by
  refine ⟨toLE 1 0 ++ (toLE 2 keyLen ++ (toLE 4 valueLen ++ toLE 8 expireUs.toNat)), ?_⟩
  rw [aofHeader, toLE, toLE, UInt8.ofNat_toNat, singleton_append]

/-- A call whose header is not refused returns `0` without being complete only after it has
written too little, and fails only after it has written something. -/
theorem aofWrite_incomplete (hkey : c.key.bytes ≠ []) (hhdr : c.hdrOut ≠ none) (hc : ¬ c.Complete) :
    ((aofWrite [] c).2 = 0 ∧ (aofWrite [] c).1.length
        < AOF_HEADER_LEN + c.key.bytes.length + c.value.len) ∨
      ((aofWrite [] c).2 = -1 ∧ ∃ rest, (aofWrite [] c).1 = c.type.code :: rest) := by
  obtain ⟨type, key, value, expireUs, hdrOut, keyOut, valueOut⟩ := c
  cases key with
  | null len => exact absurd rfl hkey
  | data key =>
    have hpos : 0 < key.length := length_pos_of_ne_nil hkey
    obtain ⟨n, rfl⟩ := ne_none_iff_exists'.mp hhdr
    rw [aofWrite]
    dsimp only [Ptr.bytes]
    rw [if_neg (ne_of_gt hpos)]
    generalize hbytes : aofHeader type.code (aofKeyLen key) (aofValueLen value) expireUs = hdr
    have hlen : hdr.length = AOF_HEADER_LEN := by rw [← hbytes, length_aofHeader]
    have hcons : ∃ rest, hdr = type.code :: rest := hbytes ▸ aofHeader_cons ..
    obtain ⟨tail, htail⟩ := hcons
    by_cases hn : n < AOF_HEADER_LEN
    · -- a part of the header; the key is left out
      have hshort : aofWriteKey key keyOut (writeFd [] hdr (some n)) = (hdr.take n, (n : Int)) := by
        rw [writeFd, nil_append, aofWriteKey, hlen, Nat.min_eq_left (by omega)]
        exact if_neg (by dsimp only; omega)
      rw [hshort]
      rcases aofWriteValue_cases (hdr.take n) value valueOut (Int.natCast_nonneg n) with
        ⟨hfail, hn0⟩ | ⟨hok, part, hpart, hle, -⟩
      · rw [hfail]
        obtain ⟨m, rfl⟩ := exists_eq_succ_of_ne_zero (show n ≠ 0 by omega)
        exact .inr ⟨rfl, tail.take m, by rw [htail, take_succ_cons]⟩
      · refine .inl ⟨if_neg (Int.not_lt.mpr hok), ?_⟩
        rw [hpart, length_append, length_take]
        omega
    · have hfull : writeFd [] hdr (some n) = (hdr, (AOF_HEADER_LEN : Int)) := by
        rw [writeFd_complete [] ⟨n, rfl, by omega⟩, nil_append, hlen]
      rw [hfull]
      rcases aofWriteKey_cases hdr key keyOut with hfail | ⟨part, hpart, hle, hall⟩
      · -- the key fails, and the value is left out
        have hskip : aofWriteValue value valueOut (hdr, -1) = (hdr, -1) := by
          cases value with
          | null len => rfl
          | data bytes => exact if_neg fun h => absurd h.2 (show ¬ (-1 : Int) > 0 by decide)
        rw [hfail, hskip]
        exact .inr ⟨rfl, tail, htail⟩
      · rw [hpart]
        rcases aofWriteValue_cases (hdr ++ part) value valueOut
            (Int.natCast_nonneg part.length) with
          ⟨hfail, -⟩ | ⟨hok, part', hpart', hle', hall'⟩
        · rw [hfail]
          exact .inr ⟨rfl, tail ++ part, by rw [htail, cons_append]⟩
        · refine .inl ⟨if_neg (Int.not_lt.mpr hok), ?_⟩
          rw [hpart', length_append, length_append, hlen]
          -- with nothing missing the call would be complete
          by_contra hge
          obtain ⟨hkeyLe, hkeyOut⟩ := hall (by omega)
          obtain ⟨hvalue, hvalueLt, hvalueOut⟩ := hall' (by omega)
          exact hc ⟨hpos, hkeyLe, hvalue, hvalueLt, ⟨n, rfl, by omega⟩, hkeyOut,
            fun h0 => hvalueOut h0 (by omega)⟩

/-! ### Logs -/

theorem aofFile_concat (cs : List AofCall) (c : AofCall) :
    aofFile (cs ++ [c]) = aofFile cs ++ (aofWrite [] c).1 := by
  rw [aofFile, foldl_append, foldl_cons, foldl_nil, aofWrite_eq]
  rfl

theorem aofReplay_append (bs : List UInt8) :
    aofReplay (AOF_MAGIC ++ bs) = some (replay aofNext bs) := by
  rw [aofReplay, take_left, drop_left, if_pos rfl]

theorem aofFile_complete : ∀ cs : List AofCall, (∀ c ∈ cs, c.Complete) →
    aofFile cs = AOF_MAGIC ++ (cs.map AofCall.record).flatMap AOFRecord.bytes := by
  intro cs
  induction cs using reverseRecOn with
  | nil => intro _; rfl
  | append_singleton cs c ih =>
    intro h
    rw [aofFile_concat, ih fun c' hc' => h c' (by simp [hc']),
      aofWrite_complete _ (h c (by simp)), map_append, flatMap_append]
    simp

/-- **Crash recovery**: after complete writes, a file that is cut at `n`, behind its magic or
at its end, is replayed as the records that lie wholly before `n`, if every `malloc` of the
replay succeeds. -/
theorem aof_replay_truncated (cs : List AofCall) (hcs : ∀ c ∈ cs, c.Complete) (n : Nat)
    (hn : AOF_MAGIC.length ≤ n) (keyOk valueOk : Nat → Bool) (hkey : ∀ i, keyOk i = true)
    (hvalue : ∀ i, valueOk i = true) :
    aofReplayWith keyOk valueOk ((aofFile cs).take n)
      = some ((wholeUpTo (fun r => r.bytes.length) n AOF_MAGIC.length
          (cs.map AofCall.record)).map AOFRecord.call) := by
  obtain ⟨m, rfl⟩ := Nat.exists_eq_add_of_le hn
  rw [aofReplayWith_eq hkey hvalue, aofFile_complete cs hcs, take_length_add_append,
    aofReplay_append, map_some]
  refine congrArg (fun rs => some (rs.map AOFRecord.call)) (aofFrames.replay_take _ m _ ?_)
  intro r hr
  obtain ⟨c, hc, rfl⟩ := mem_map.mp hr
  exact (hcs c hc).valid

/-- A call without an expiry, whose writes are complete. -/
def plainCall (type : AOFEntryType) (key value : List UInt8) : AofCall :=
  ⟨type, .data key, .data value, 0, some AOF_HEADER_LEN, some key.length, some value.length⟩

theorem plainCall_complete (type : AOFEntryType) {key value : List UInt8} (hpos : 0 < key.length)
    (hkey : key.length ≤ 65535) (hvalue : value.length < 2 ^ 32) :
    (plainCall type key value).Complete :=
  ⟨hpos, hkey, rfl, hvalue, ⟨_, rfl, le_refl _⟩, ⟨_, rfl, le_refl _⟩,
    fun _ => ⟨_, rfl, le_refl _⟩⟩

/-- Two records, and a cut in the value of the second. -/
theorem aof_replay_truncated_two :
    aofReplayWith (fun _ => true) (fun _ => true)
        ((aofFile [plainCall .set [107] [1, 2], plainCall .set [108] [3, 4]]).take 44)
      = some [⟨1, [107], .data [1, 2], 0⟩] := by
  rw [aof_replay_truncated _ _ 44 (by decide) _ _ (fun _ => rfl) (fun _ => rfl)]
  · decide
  · refine forall_mem_cons.mpr ⟨?_, forall_mem_singleton.mpr ?_⟩ <;>
      exact plainCall_complete .set (by decide) (by decide) (by decide)

/-- **A `malloc` that fails**: the only value of the log is the record of a deletion.  If there is
no memory for it, its key is applied with `NULL` for the 17 bytes and then deleted; if there is
none for the key, the replay ends there. -/
theorem unread_value_is_replayed :
    let log := [plainCall .set [107] (aofHeader 2 1 0 0 ++ [107])]
    aofReplayWith (fun _ => true) (fun i => i ≠ 0) (aofFile log)
        = some [⟨1, [107], .null 17, 0⟩, ⟨2, [107], .null 0, 0⟩] ∧
      aofReplayWith (fun i => i ≠ 0) (fun _ => true) (aofFile log) = some [] := by
  decide +kernel

/-! ### Writes that fail -/

/-- The call is refused, its header cannot be written, or it is complete. -/
def AofCall.Clean (c : AofCall) : Prop := c.key.bytes = [] ∨ c.hdrOut = none ∨ c.Complete

/-- The record has the type, the key, the value and the expiry of the call. -/
def AofCall.Decodes (c : AofCall) (r : AOFRecord) : Prop :=
  r = c.record ∧ c.value.bytes.length = c.value.len

/-- The calls that returned `0`. -/
def acked (cs : List AofCall) : List AofCall := cs.filter fun c => (aofWrite [] c).2 = 0

/-- The file is replayed as the calls that returned `0`. -/
def Recovered (cs : List AofCall) : Prop :=
  ∃ rs, aofReplay (aofFile cs) = some rs ∧ Forall₂ AofCall.Decodes (acked cs) rs

theorem acked_concat (cs : List AofCall) (c : AofCall) :
    acked (cs ++ [c]) = acked cs ++ if (aofWrite [] c).2 = 0 then [c] else [] := by
  rw [acked, filter_append, filter_singleton]
  by_cases h : (aofWrite [] c).2 = 0
  · rw [if_pos h, decide_eq_true h]
    rfl
  · rw [if_neg h, decide_eq_false h]
    rfl

/-- A clean call leaves its record or nothing. -/
theorem AofCall.Clean.cases (h : c.Clean) :
    aofWrite [] c = ([], -1) ∨ (c.Complete ∧ aofWrite [] c = (c.record.bytes, 0)) := by
  rcases h with hkey | hhdr | hc
  · exact .inl (aofWrite_rejected hkey [])
  · by_cases hkey : c.key.bytes = []
    · exact .inl (aofWrite_rejected hkey [])
    · left
      obtain ⟨type, key, value, expireUs, hdrOut, keyOut, valueOut⟩ := c
      obtain rfl : hdrOut = none := hhdr
      cases key with
      | null len => exact absurd rfl hkey
      | data key =>
        rw [aofWrite]
        dsimp only
        rw [if_neg (show key.length ≠ 0 from ne_of_gt (length_pos_of_ne_nil hkey))]
        cases value with
        | null len => rfl
        | data bytes =>
          rw [writeFd, aofWriteKey, if_neg (by decide), aofWriteValue]
          rw [if_neg fun h => absurd h.2 (by decide)]
          rfl
  · exact .inr ⟨hc, aofWrite_complete [] hc⟩

/-- The file of clean calls is the records of those that returned `0`. -/
theorem aofFile_clean : ∀ cs : List AofCall, (∀ c ∈ cs, c.Clean) →
    aofFile cs = AOF_MAGIC ++ ((acked cs).map AofCall.record).flatMap AOFRecord.bytes ∧
      ∀ c ∈ acked cs, c.Complete := by
  intro cs
  induction cs using reverseRecOn with
  | nil => intro _; exact ⟨rfl, nofun⟩
  | append_singleton cs c ih =>
    intro h
    obtain ⟨hfile, hcomplete⟩ := ih fun c' hc' => h c' (by simp [hc'])
    rw [aofFile_concat, acked_concat, hfile]
    rcases (h c (by simp)).cases with hnone | ⟨hc, hwrote⟩
    · rw [hnone, if_neg (by decide), append_nil, append_nil]
      exact ⟨rfl, hcomplete⟩
    · rw [hwrote, if_pos rfl]
      exact ⟨by simp, forall_mem_append.mpr ⟨hcomplete, forall_mem_singleton.mpr hc⟩⟩

theorem AofCall.Complete.decodes (h : c.Complete) : c.Decodes c.record :=
  ⟨rfl, h.value_eq⟩

theorem recovered_of_clean {cs : List AofCall} (h : ∀ c ∈ cs, c.Clean) : Recovered cs := by
  obtain ⟨hfile, hcomplete⟩ := aofFile_clean cs h
  refine ⟨(acked cs).map AofCall.record, ?_, ?_⟩
  · rw [hfile, aofReplay_append, aofFrames.replay_flatMap]
    intro r hr
    obtain ⟨c, hc, rfl⟩ := mem_map.mp hr
    exact (hcomplete c hc).valid
  · rw [forall₂_map_right_iff, forall₂_same]
    exact fun c hc => (hcomplete c hc).decodes

/-- Behind clean calls, the bytes of one more acknowledged call begin with its record. -/
theorem aofNext_of_recovered {cs cs' : List AofCall} {g : List UInt8} (h : ∀ c ∈ cs, c.Clean)
    (hfile : aofFile cs' = aofFile cs ++ g) (hacked : acked cs' = acked cs ++ [c])
    (hrec : Recovered cs') :
    c.Decodes c.record ∧ ∃ rest, aofNext g = some (c.record, rest) := by
  obtain ⟨hclean, hcomplete⟩ := aofFile_clean cs h
  obtain ⟨rs, hreplay, hall⟩ := hrec
  have hvalid : ∀ r ∈ (acked cs).map AofCall.record, r.Valid := by
    intro r hr
    obtain ⟨c', hc', rfl⟩ := mem_map.mp hr
    exact (hcomplete c' hc').valid
  rw [hfile, hclean, append_assoc, aofReplay_append, aofFrames.replay_append g hvalid] at hreplay
  obtain rfl := some.inj hreplay
  have hlast := forall₂_drop (acked cs).length hall
  rw [hacked, drop_left, drop_left' (length_map _)] at hlast
  cases hnext : aofNext g with
  | none => rw [replay_of_none hnext] at hlast; cases hlast
  | some p =>
    rw [replay_of_some aofFrames.shrinks hnext] at hlast
    cases hlast with
    | cons hd _ => exact ⟨⟨rfl, hd.2⟩, p.2, by rw [← hd.1]⟩

theorem type_of_aofNext {b : UInt8} (h : aofNext (b :: bs) = some (r, rest)) : r.type = b := by
  obtain ⟨hdr, hlen, heq, -, -, htype, -⟩ := aofNext_eq_some_iff.mp h
  cases hdr with
  | nil => cases hlen
  | cons b' hdr =>
    obtain ⟨rfl, -⟩ := cons.inj heq
    rw [← htype]
    simp [wordAt, ofLE]

/-- **Recovery under failing writes**: at every moment of a log, the file is replayed as the
calls that returned `0`, and so it is after one more complete call, iff every call of the log
is clean. -/
theorem aof_recovers_iff (cs : List AofCall) :
    (∀ cs', cs' <+: cs → Recovered cs' ∧ ∀ c, c.Complete → Recovered (cs' ++ [c])) ↔
      ∀ c ∈ cs, c.Clean := by
  constructor
  · induction cs using reverseRecOn with
    | nil => intro _ c hc; cases hc
    | append_singleton cs c ih =>
      intro h
      have hclean := ih fun cs' hcs' => h cs' (hcs'.trans (prefix_append cs [c]))
      obtain ⟨hrec, hmore⟩ := h _ (prefix_refl _)
      intro c' hc'
      rcases mem_append.mp hc' with hold | hnew
      · exact hclean c' hold
      rw [mem_singleton.mp hnew]
      by_contra hbad
      simp only [AofCall.Clean, not_or] at hbad
      obtain ⟨hkey, hhdr, hc⟩ := hbad
      rcases aofWrite_incomplete hkey hhdr hc with ⟨hret, hlen⟩ | ⟨hret, tail, htail⟩
      · -- the call is acknowledged, and too short for its record
        obtain ⟨hdec, rest, hnext⟩ := aofNext_of_recovered hclean (aofFile_concat cs c)
          (by rw [acked_concat, if_pos hret]) hrec
        have hsize := aofNext_length hnext
        rw [show c.record.value.length = c.value.len from hdec.2] at hsize
        change _ = _ + c.key.bytes.length + _ + _ at hsize
        omega
      · -- the call has failed: the next one, of another type, is read from its first byte
        let next := plainCall (if c.type = .set then .del else .set) [107] []
        have hnext : next.Complete := plainCall_complete _ (by decide) (by decide) (by decide)
        obtain ⟨-, rest, hread⟩ := aofNext_of_recovered hclean
          (g := (aofWrite [] c).1 ++ (aofWrite [] next).1)
          (by rw [aofFile_concat, aofFile_concat, append_assoc])
          (by rw [acked_concat, acked_concat, if_neg (by rw [hret]; decide), append_nil,
            aofWrite_complete _ hnext, if_pos rfl])
          (hmore next hnext)
        rw [htail, cons_append] at hread
        have htype : next.type.code = c.type.code := type_of_aofNext hread
        revert htype
        show (if c.type = .set then AOFEntryType.del else .set).code = _ → False
        cases c.type <;> decide
  · intro h cs' hcs'
    have hclean : ∀ c ∈ cs', c.Clean := fun c hc => h c (hcs'.subset hc)
    exact ⟨recovered_of_clean hclean, fun c hc => recovered_of_clean
      (forall_mem_append.mpr ⟨hclean, forall_mem_singleton.mpr (.inr (.inr hc))⟩)⟩

/-- **A write that fails in the middle**: the key of the first call cannot be written; the second
call returns `0`, and its record is not found again.  A call with `NULL` for a value of one
byte returns `0`, and so does one whose key is written in part. -/
theorem failed_key_hides_next :
    (aofWrite [] { plainCall .set [107] [1] with keyOut := none }).2 = -1 ∧
    (aofWrite [] (plainCall .set [108] [2])).2 = 0 ∧
    aofReplay (aofFile [{ plainCall .set [107] [1] with keyOut := none }, plainCall .set [108] [2]])
      = some [⟨1, [1], [0], 0⟩] ∧
    (aofWrite [] { plainCall .set [107] [] with value := .null 1 }).2 = 0 ∧
    aofReplay (aofFile [{ plainCall .set [107] [] with value := .null 1 }]) = some [] ∧
    (aofWrite [] { plainCall .set [107, 108] [] with keyOut := some 1 }).2 = 0 ∧
    aofReplay (aofFile [{ plainCall .set [107, 108] [] with keyOut := some 1 }]) = some [] := by
  decide +kernel

end NexCache.Persistence
