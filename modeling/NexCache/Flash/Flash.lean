import NexCache.Lib.Bag
import NexCache.Lib.Buffer
import NexCache.Storage.NexStorage

/-!
# The flash store

`flash/flash.c` appends records to a file and keeps an unordered index of them in memory; an index
entry has the 64-bit hash of a key, and a lookup takes the first entry with the hash.
`core/nexstorage.c` offers the store as a backend (`flashapi_*`).

The hash is a parameter.  Reads and writes of the file succeed; `realloc` of the index may fail,
which is an input.  `time(NULL)` is the input `now`.

Not modelled: the heat of an entry and the graph of accesses, which no call below looks at, the
statistics, and `NULL` pointers.
-/

namespace NexCache.Flash

open Buffer Machine
open Storage (Bytes NexStorageResult NexDataType NexEntry)

/-- `sizeof(FlashRecord)`. -/
def FLASH_RECORD_LEN : Nat := 24

structure FlashIndex where
  keyHash : UInt64
  fileOffset : Nat
  recordSize : Nat
  deriving DecidableEq

structure FlashStorage where
  file : Nat → UInt8
  index : Bag FlashIndex
  indexCap : Nat
  writeOffset : Nat
  maxSizeBytes : Nat

/-- `struct FlashRecord`: hash, key length, value length, deadline; the record is not compressed. -/
def flashRecord (keyHash : UInt64) (keyLen valueLen : Nat) (expireUnix : UInt32) : List UInt8 :=
  toLE 8 keyHash.toNat ++ (toLE 4 keyLen ++ (toLE 4 valueLen ++
    (toLE 4 expireUnix.toNat ++ toLE 4 0)))

def recordKeyLen (hdr : List UInt8) : Nat := wordAt hdr 8 4

def recordValueLen (hdr : List UInt8) : Nat := wordAt hdr 12 4

def recordExpireUnix (hdr : List UInt8) : Nat := wordAt hdr 16 4

/-! ### The file and the index -/

/-- The header of the record that an index entry leads to. -/
def FlashStorage.header (fs : FlashStorage) (x : FlashIndex) : List UInt8 :=
  readBytes fs.file x.fileOffset FLASH_RECORD_LEN

/-- The first index entry with the hash. -/
def FlashStorage.find (fs : FlashStorage) (keyHash : UInt64) : Option Nat :=
  fs.index.find fun x => x.keyHash = keyHash

/-- The size of the index array before an entry is appended. -/
def FlashStorage.grown (fs : FlashStorage) (reallocOk : Bool) : Nat :=
  if fs.index.count ≥ fs.indexCap ∧ reallocOk then u32 (fs.indexCap * 2) else fs.indexCap

/-- `flash_write`. -/
def flashWrite (fs : FlashStorage) (keyHash : UInt64) (key value : Bytes) (expireUnix : UInt32)
    (reallocOk : Bool) : FlashStorage × Int :=
  if fs.maxSizeBytes > 0 ∧
      fs.writeOffset + FLASH_RECORD_LEN + key.len + value.len > fs.maxSizeBytes then (fs, -1)
  else
    let offset := fs.writeOffset
    let file := writeBytes fs.file offset (flashRecord keyHash key.len value.len expireUnix)
    let file := writeBytes file (offset + FLASH_RECORD_LEN) key.bytes
    let file := writeBytes file (offset + FLASH_RECORD_LEN + key.len) value.bytes
    let totalSize := u32 (FLASH_RECORD_LEN + key.len + value.len)
    let indexCap := fs.grown reallocOk
    -- an entry that has no room is dropped
    let index := if fs.index.count < indexCap then fs.index.push ⟨keyHash, offset, totalSize⟩
      else fs.index
    ({ fs with file, index, indexCap, writeOffset := fs.writeOffset + totalSize }, 0)

/-- The record has a deadline, and it is over. -/
def Over (now expireUnix : Nat) : Prop := expireUnix > 0 ∧ expireUnix ≤ u32 now

instance (now expireUnix : Nat) : Decidable (Over now expireUnix) :=
  inferInstanceAs (Decidable (_ ∧ _))

/-- What `flash_read` returns, `*value_len_out`, which was `0`, and what it has copied. -/
structure FlashRead where
  rc : Int
  valueLen : Nat
  value : List UInt8

/-- `flash_read` with a buffer of `bufLen` bytes. -/
def flashRead (fs : FlashStorage) (now : Nat) (keyHash : UInt64) (bufLen : Nat) :
    FlashStorage × FlashRead :=
  match fs.find keyHash with
  | none => (fs, ⟨-1, 0, []⟩)
  | some i =>
    let x := fs.index.cells i
    let hdr := fs.header x
    if Over now (recordExpireUnix hdr) then
      ({ fs with index := fs.index.swapRemove i }, ⟨-1, 0, []⟩)
    else if recordValueLen hdr > bufLen then (fs, ⟨-2, recordValueLen hdr, []⟩)
    else
      let valOff := x.fileOffset + FLASH_RECORD_LEN + recordKeyLen hdr
      (fs, ⟨0, recordValueLen hdr, readBytes fs.file valOff (recordValueLen hdr)⟩)

/-- `flash_delete`. -/
def flashDelete (fs : FlashStorage) (keyHash : UInt64) : FlashStorage × Int :=
  match fs.find keyHash with
  | none => (fs, 0)
  | some i => ({ fs with index := fs.index.swapRemove i }, 1)

/-- `flash_expire`: the header is written again with another deadline. -/
def flashExpire (fs : FlashStorage) (keyHash : UInt64) (expireUnix : UInt32) : FlashStorage × Int :=
  match fs.find keyHash with
  | none => (fs, 0)
  | some i =>
    let x := fs.index.cells i
    let hdr := overwrite (fs.header x) 16 (toLE 4 expireUnix.toNat)
    ({ fs with file := writeBytes fs.file x.fileOffset hdr }, 1)

/-! ### The backend -/

section Api

variable (hash : Bytes → UInt64)

/-- The buffer of `flashapi_get`. -/
def FLASH_BUF_LEN : Nat := 1024 * 1024

/-- `flashapi_get`. -/
def flashapiGet (fs : FlashStorage) (now : Nat) (k : Bytes) (out : NexEntry) :
    FlashStorage × NexStorageResult × NexEntry :=
  let r := flashRead fs now (hash k) FLASH_BUF_LEN
  if r.2.rc ≠ 0 then (r.1, .notFound, out)
  else (r.1, .ok, { out with value := .ofList 32 r.2.value, type := .string, ttlMs := -1 })

/-- The deadline in seconds that a TTL in milliseconds gives; `0` is none. -/
def flashDeadline (now : Nat) (ttlMs : Int) : UInt32 :=
  if ttlMs ≥ 0 then UInt32.ofNat (now + ttlMs.toNat / 1000) else 0

/-- `flashapi_set`; the type is not used. -/
def flashapiSet (fs : FlashStorage) (now : Nat) (k v : Bytes) (_type : NexDataType) (ttlMs : Int)
    (reallocOk : Bool) : FlashStorage × NexStorageResult :=
  let r := flashWrite fs (hash k) k v (flashDeadline now ttlMs) reallocOk
  (r.1, if r.2 = 0 then .ok else .error)

/-- `flashapi_del`. -/
def flashapiDel (fs : FlashStorage) (k : Bytes) : FlashStorage × NexStorageResult :=
  let r := flashDelete fs (hash k)
  (r.1, if r.2 > 0 then .ok else .notFound)

/-- `flashapi_exists`. -/
def flashapiExists (fs : FlashStorage) (now : Nat) (k : Bytes) : FlashStorage × Bool :=
  let r := flashRead fs now (hash k) 0
  (r.1, r.2.rc = -2 ∨ r.2.valueLen > 0)

/-- `flashapi_expire`. -/
def flashapiExpire (fs : FlashStorage) (now : Nat) (k : Bytes) (ttlMs : Int) :
    FlashStorage × NexStorageResult :=
  let r := flashExpire fs (hash k) (flashDeadline now ttlMs)
  (r.1, if r.2 = 1 then .ok else .notFound)

inductive FlashCall
  | get (k : Bytes) (out : NexEntry)
  | set (k v : Bytes) (type : NexDataType) (ttlMs : Int) (reallocOk : Bool)
  | del (k : Bytes)
  | «exists» (k : Bytes)
  | expire (k : Bytes) (ttlMs : Int)

inductive FlashReply
  | entry (res : NexStorageResult) (out : NexEntry)
  | result (res : NexStorageResult)
  | found (b : Bool)
  deriving DecidableEq

structure FlashEvent where
  now : Nat
  call : FlashCall

def flashStep (fs : FlashStorage) (ev : FlashEvent) : Option (FlashStorage × FlashReply) :=
  match ev.call with
  | .get k out =>
    let r := flashapiGet hash fs ev.now k out
    some (r.1, .entry r.2.1 r.2.2)
  | .set k v type ttlMs reallocOk =>
    let r := flashapiSet hash fs ev.now k v type ttlMs reallocOk
    some (r.1, .result r.2)
  | .del k =>
    let r := flashapiDel hash fs k
    some (r.1, .result r.2)
  | .exists k =>
    let r := flashapiExists hash fs ev.now k
    some (r.1, .found r.2)
  | .expire k ttlMs =>
    let r := flashapiExpire hash fs ev.now k ttlMs
    some (r.1, .result r.2)

end Api

end NexCache.Flash
