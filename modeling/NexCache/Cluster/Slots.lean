import NexCache.Lib.Crc

/-!
# Slots of keys

Two routing layers compute the slot of a key: `keyHashSlot` in `cluster.c`, with the table of
`crc16.c`, and `cluster_key_to_slot` in `cluster/cluster.c`, with a table of its own.  Both hash
the part between braces if there is one.

The table of `crc16.c` is that of CRC16/XMODEM.  In the other one the first 64 entries are right
and the rest is wrong, so the slots agree where XMODEM meets the first 64 indices only
(`key_slots_agree`).

Keys are lists of bytes; the length is theirs.
-/

namespace NexCache.Cluster

open Crc List BitVec

def CLUSTER_SLOT_COUNT : Nat := 16384

/-- The table in `crc16.c`. -/
def crc16tab : List (BitVec 16) :=
   [0x0000, 0x1021, 0x2042, 0x3063, 0x4084, 0x50a5, 0x60c6, 0x70e7,
    0x8108, 0x9129, 0xa14a, 0xb16b, 0xc18c, 0xd1ad, 0xe1ce, 0xf1ef,
    0x1231, 0x0210, 0x3273, 0x2252, 0x52b5, 0x4294, 0x72f7, 0x62d6,
    0x9339, 0x8318, 0xb37b, 0xa35a, 0xd3bd, 0xc39c, 0xf3ff, 0xe3de,
    0x2462, 0x3443, 0x0420, 0x1401, 0x64e6, 0x74c7, 0x44a4, 0x5485,
    0xa56a, 0xb54b, 0x8528, 0x9509, 0xe5ee, 0xf5cf, 0xc5ac, 0xd58d,
    0x3653, 0x2672, 0x1611, 0x0630, 0x76d7, 0x66f6, 0x5695, 0x46b4,
    0xb75b, 0xa77a, 0x9719, 0x8738, 0xf7df, 0xe7fe, 0xd79d, 0xc7bc,
    0x48c4, 0x58e5, 0x6886, 0x78a7, 0x0840, 0x1861, 0x2802, 0x3823,
    0xc9cc, 0xd9ed, 0xe98e, 0xf9af, 0x8948, 0x9969, 0xa90a, 0xb92b,
    0x5af5, 0x4ad4, 0x7ab7, 0x6a96, 0x1a71, 0x0a50, 0x3a33, 0x2a12,
    0xdbfd, 0xcbdc, 0xfbbf, 0xeb9e, 0x9b79, 0x8b58, 0xbb3b, 0xab1a,
    0x6ca6, 0x7c87, 0x4ce4, 0x5cc5, 0x2c22, 0x3c03, 0x0c60, 0x1c41,
    0xedae, 0xfd8f, 0xcdec, 0xddcd, 0xad2a, 0xbd0b, 0x8d68, 0x9d49,
    0x7e97, 0x6eb6, 0x5ed5, 0x4ef4, 0x3e13, 0x2e32, 0x1e51, 0x0e70,
    0xff9f, 0xefbe, 0xdfdd, 0xcffc, 0xbf1b, 0xaf3a, 0x9f59, 0x8f78,
    0x9188, 0x81a9, 0xb1ca, 0xa1eb, 0xd10c, 0xc12d, 0xf14e, 0xe16f,
    0x1080, 0x00a1, 0x30c2, 0x20e3, 0x5004, 0x4025, 0x7046, 0x6067,
    0x83b9, 0x9398, 0xa3fb, 0xb3da, 0xc33d, 0xd31c, 0xe37f, 0xf35e,
    0x02b1, 0x1290, 0x22f3, 0x32d2, 0x4235, 0x5214, 0x6277, 0x7256,
    0xb5ea, 0xa5cb, 0x95a8, 0x8589, 0xf56e, 0xe54f, 0xd52c, 0xc50d,
    0x34e2, 0x24c3, 0x14a0, 0x0481, 0x7466, 0x6447, 0x5424, 0x4405,
    0xa7db, 0xb7fa, 0x8799, 0x97b8, 0xe75f, 0xf77e, 0xc71d, 0xd73c,
    0x26d3, 0x36f2, 0x0691, 0x16b0, 0x6657, 0x7676, 0x4615, 0x5634,
    0xd94c, 0xc96d, 0xf90e, 0xe92f, 0x99c8, 0x89e9, 0xb98a, 0xa9ab,
    0x5844, 0x4865, 0x7806, 0x6827, 0x18c0, 0x08e1, 0x3882, 0x28a3,
    0xcb7d, 0xdb5c, 0xeb3f, 0xfb1e, 0x8bf9, 0x9bd8, 0xabbb, 0xbb9a,
    0x4a75, 0x5a54, 0x6a37, 0x7a16, 0x0af1, 0x1ad0, 0x2ab3, 0x3a92,
    0xfd2e, 0xed0f, 0xdd6c, 0xcd4d, 0xbdaa, 0xad8b, 0x9de8, 0x8dc9,
    0x7c26, 0x6c07, 0x5c64, 0x4c45, 0x3ca2, 0x2c83, 0x1ce0, 0x0cc1,
    0xef1f, 0xff3e, 0xcf5d, 0xdf7c, 0xaf9b, 0xbfba, 0x8fd9, 0x9ff8,
    0x6e17, 0x7e36, 0x4e55, 0x5e74, 0x2e93, 0x3eb2, 0x0ed1, 0x1ef0]

namespace Sharding

/-- The table in `cluster/cluster.c`. -/
def CRC16_TABLE : List (BitVec 16) :=
   [0x0000, 0x1021, 0x2042, 0x3063, 0x4084, 0x50a5, 0x60c6, 0x70e7,
    0x8108, 0x9129, 0xa14a, 0xb16b, 0xc18c, 0xd1ad, 0xe1ce, 0xf1ef,
    0x1231, 0x0210, 0x3273, 0x2252, 0x52b5, 0x4294, 0x72f7, 0x62d6,
    0x9339, 0x8318, 0xb37b, 0xa35a, 0xd3bd, 0xc39c, 0xf3ff, 0xe3de,
    0x2462, 0x3443, 0x0420, 0x1401, 0x64e6, 0x74c7, 0x44a4, 0x5485,
    0xa56a, 0xb54b, 0x8528, 0x9509, 0xe5ee, 0xf5cf, 0xc5ac, 0xd58d,
    0x3653, 0x2672, 0x1611, 0x0630, 0x76d7, 0x66f6, 0x5695, 0x46b4,
    0xb75b, 0xa77a, 0x9719, 0x8738, 0xf7df, 0xe7fe, 0xd79d, 0xc7bc,
    0x4864, 0x5845, 0x6826, 0x7807, 0x08e0, 0x18c1, 0x28a2, 0x38c3,
    0xc92c, 0xd90d, 0xe96e, 0xf94f, 0x89a8, 0x99b9, 0xa9da, 0xb9fb,
    0x5a55, 0x4a74, 0x7a17, 0x6a36, 0x1ad1, 0x0af0, 0x3a93, 0x2ab2,
    0xdb5d, 0xcb7c, 0xfb1f, 0xeb3e, 0x9bd9, 0x8bf8, 0xbb9b, 0xabbe,
    0x6c66, 0x7c47, 0x4c24, 0x5c05, 0x2ce2, 0x3cc3, 0x0ca0, 0x1c81,
    0xed6e, 0xfd4f, 0xcd2c, 0xdd0d, 0xadea, 0xbdcb, 0x8da8, 0x9d89,
    0x7e57, 0x6e76, 0x5e15, 0x4e34, 0x3ed3, 0x2ef2, 0x1e91, 0x0eb0,
    0xff5f, 0xef7e, 0xdf1d, 0xcf3c, 0xbffb, 0xafda, 0x9fb9, 0x8f98,
    0x9168, 0x8149, 0xb12a, 0xa10b, 0xd1ec, 0xc1cd, 0xf1ae, 0xe18f,
    0x1060, 0x0041, 0x3022, 0x2003, 0x50e4, 0x40c5, 0x70a6, 0x6087,
    0x8368, 0x9349, 0xa32a, 0xb30b, 0xc3ec, 0xd3cd, 0xe3ae, 0xf38f,
    0x0260, 0x1241, 0x2222, 0x3203, 0x42e4, 0x52c5, 0x62a6, 0x7287,
    0xb51b, 0xa53a, 0x9559, 0x8578, 0xf59f, 0xe5be, 0xd5dd, 0xc5fc,
    0x3413, 0x2432, 0x1451, 0x0470, 0x7497, 0x64b6, 0x54d5, 0x44f4,
    0xc713, 0xd732, 0xe751, 0xf770, 0x8797, 0x97b6, 0xa7d5, 0xb7f4,
    0x461b, 0x563a, 0x6659, 0x7678, 0x069f, 0x16be, 0x26dd, 0x36fc,
    0xd98d, 0xc9ac, 0xf9cf, 0xe9ee, 0x990b, 0x892a, 0xb949, 0xa968,
    0x5876, 0x4857, 0x7834, 0x6815, 0x18f2, 0x08d3, 0x38b0, 0x28c1,
    0xeb2f, 0xfb0e, 0xcb6d, 0xdb4c, 0xabab, 0xbb8a, 0x8be9, 0x9bc8,
    0x6a27, 0x7a06, 0x4a65, 0x5a44, 0x2aa3, 0x3a82, 0x0ae1, 0x1ac0,
    0xed86, 0xfda7, 0xcdc4, 0xdde5, 0xad02, 0xbd23, 0x8d40, 0x9d61,
    0x6caf, 0x7c8e, 0x4ced, 0x5ccc, 0x2c2b, 0x3c0a, 0x0c69, 0x1c48,
    0xcfdf, 0xdfbe, 0xeffd, 0xffdc, 0x8f3b, 0x9f1a, 0xaf79, 0xbf58,
    0x7eb7, 0x6e96, 0x5ef5, 0x4ed4, 0x3e33, 0x2e12, 0x1e71, 0x0e50]

end Sharding

/-- The body of the loop of both functions `crc16`. -/
def crc16Step (table : List (BitVec 16)) (crc : BitVec 16) (b : UInt8) : BitVec 16 :=
  (crc <<< 8) ^^^ table.getD (((crc >>> 8) ^^^ b.toBitVec.setWidth 16) &&& 0xFF).toNat 0

def crc16 (buf : List UInt8) : BitVec 16 := buf.foldl (crc16Step crc16tab) 0

def Sharding.crc16 (buf : List UInt8) : BitVec 16 := buf.foldl (crc16Step CRC16_TABLE) 0

/-- The byte of an opening brace. -/
def braceOpen : UInt8 := 123

/-- The byte of a closing brace. -/
def braceClose : UInt8 := 125

/-- `keyHashSlot` of `cluster.c`. -/
def keyHashSlot (key : List UInt8) : Nat :=
  let s := key.findIdx (· == braceOpen)
  if s = key.length then (crc16 key &&& 0x3FFF).toNat
  else
    let e := s + 1 + (key.drop (s + 1)).findIdx (· == braceClose)
    if e = key.length ∨ e = s + 1 then (crc16 key &&& 0x3FFF).toNat
    else (crc16 ((key.drop (s + 1)).take (e - s - 1)) &&& 0x3FFF).toNat

def memchr (buf : List UInt8) (c : UInt8) : Option Nat := buf.findIdx? (· == c)

/-- `cluster_key_to_slot` of `cluster/cluster.c`; both pointers are offsets into the key. -/
def Sharding.clusterKeyToSlot (key : List UInt8) : Nat :=
  if key.length = 0 then 0
  else
    match memchr key braceOpen with
    | none => (crc16 key).toNat % CLUSTER_SLOT_COUNT
    | some s =>
      match (memchr (key.drop (s + 1)) braceClose).map (s + 1 + ·) with
      | none => (crc16 key).toNat % CLUSTER_SLOT_COUNT
      | some e =>
        if e > s + 1 then (crc16 ((key.drop (s + 1)).take (e - s - 1))).toNat % CLUSTER_SLOT_COUNT
        else (crc16 key).toNat % CLUSTER_SLOT_COUNT

/-! ### The part that is hashed -/

/-- What stands between the first opening brace and the first closing one behind it, if that is
not empty, or the whole key. -/
def hashTag (key : List UInt8) : List UInt8 :=
  match memchr key braceOpen with
  | none => key
  | some s =>
    match memchr (key.drop (s + 1)) braceClose with
    | none => key
    | some n => if n = 0 then key else (key.drop (s + 1)).take n

variable {buf : List UInt8}

theorem findIdx_of_memchr_none {c : UInt8} (h : memchr buf c = none) :
    buf.findIdx (· == c) = buf.length := List.findIdx?_eq_none_iff_findIdx_eq.mp h

theorem findIdx_of_memchr_some {c : UInt8} {i : Nat}
    (h : memchr buf c = some i) : buf.findIdx (· == c) = i ∧ i < buf.length := by
  obtain ⟨hlt, heq⟩ := List.findIdx?_eq_some_iff_findIdx_eq.mp h
  exact ⟨heq, hlt⟩

theorem toNat_and_slotMask (x : BitVec 16) :
    (x &&& 0x3FFF).toNat = x.toNat % CLUSTER_SLOT_COUNT := by
  rw [toNat_and]
  exact Nat.and_two_pow_sub_one_eq_mod x.toNat 14

theorem keyHashSlot_eq (key : List UInt8) :
    keyHashSlot key = (crc16 (hashTag key)).toNat % CLUSTER_SLOT_COUNT := by
  rw [keyHashSlot, hashTag]
  simp only [toNat_and_slotMask]
  cases hs : memchr key braceOpen with
  | none => rw [if_pos (findIdx_of_memchr_none hs)]
  | some s =>
    obtain ⟨hsIdx, hsLt⟩ := findIdx_of_memchr_some hs
    rw [hsIdx, if_neg (Nat.ne_of_lt hsLt)]
    dsimp only
    cases he : memchr (key.drop (s + 1)) braceClose with
    | none =>
      have hend := findIdx_of_memchr_none he
      rw [length_drop] at hend
      rw [hend, if_pos (.inl (by omega))]
    | some n =>
      obtain ⟨hnIdx, hnLt⟩ := findIdx_of_memchr_some he
      rw [length_drop] at hnLt
      rw [hnIdx]
      dsimp only
      by_cases hn : n = 0
      · rw [if_pos (.inr (by omega)), if_pos hn]
      · have hlen : s + 1 + n - s - 1 = n := by omega
        rw [if_neg (by omega), if_neg hn, hlen]

theorem Sharding.clusterKeyToSlot_eq (key : List UInt8) :
    clusterKeyToSlot key = (crc16 (hashTag key)).toNat % CLUSTER_SLOT_COUNT := by
  rw [clusterKeyToSlot, hashTag]
  by_cases hkey : key.length = 0
  · -- the empty key has no brace, and its remainder is 0
    rw [if_pos hkey, eq_nil_of_length_eq_zero hkey]
    rfl
  rw [if_neg hkey]
  cases hs : memchr key braceOpen with
  | none => rfl
  | some s =>
    dsimp only
    cases he : memchr (key.drop (s + 1)) braceClose with
    | none => rfl
    | some n =>
      have hlen : s + 1 + n - s - 1 = n := by omega
      dsimp only [Option.map_some]
      by_cases hn : n = 0
      · rw [if_neg (by omega), if_pos hn]
      · rw [if_pos (by omega), if_neg hn, hlen]

/-! ### The tables -/

/-- The polynomial of CRC16/XMODEM. -/
def xmodemPoly : BitVec 16 := 0x1021

/-- CRC16/XMODEM, bit by bit. -/
def xmodem (bs : List UInt8) : BitVec 16 := (bs.map UInt8.toBitVec).foldl (step xmodemPoly) 0

def entryOf (table : List (BitVec 16)) (i : BitVec 8) : BitVec 16 := table.getD i.toNat 0

theorem crc16Step_eq_tableStep (table : List (BitVec 16)) (crc : BitVec 16) (b : UInt8) :
    crc16Step table crc b = tableStep (entryOf table) crc b.toBitVec := by
  have hindex : (((crc >>> 8) ^^^ b.toBitVec.setWidth 16) &&& 0xFF).toNat
      = (top crc ^^^ b.toBitVec).toNat := by
    have hlow : ((crc >>> 8) ^^^ b.toBitVec.setWidth 16).setWidth 8 = top crc ^^^ b.toBitVec := by
      rw [setWidth_xor, setWidth_setWidth_of_le _ (by decide), setWidth_eq]
      rfl
    rw [← hlow, toNat_and, toNat_setWidth]
    exact Nat.and_two_pow_sub_one_eq_mod _ 8
  rw [crc16Step, tableStep, entryOf, hindex]

theorem foldl_crc16Step (table : List (BitVec 16)) (bs : List UInt8) (s : BitVec 16) :
    bs.foldl (crc16Step table) s = (bs.map UInt8.toBitVec).foldl (tableStep (entryOf table)) s := by
  rw [foldl_map]
  exact congrArg (fun f => bs.foldl f s) (funext fun s => funext (crc16Step_eq_tableStep table s))

theorem crc16tab_tabulates : Tabulates xmodemPoly (entryOf crc16tab) := by
  unfold Tabulates
  decide +kernel

/-- The last 192 entries are wrong, in the lower 14 bits too. -/
theorem CRC16_TABLE_right_iff : ∀ i : BitVec 8,
    (entryOf Sharding.CRC16_TABLE i).setWidth 14 = (entryOf crc16tab i).setWidth 14 ↔
      i.toNat < 64 := by
  decide +kernel

theorem CRC16_TABLE_right : ∀ i : BitVec 8, i.toNat < 64 →
    entryOf Sharding.CRC16_TABLE i = entryOf crc16tab i := by
  decide +kernel

theorem crc16_eq_xmodem (bs : List UInt8) : crc16 bs = xmodem bs := by
  have hstep : tableStep (entryOf crc16tab) = step xmodemPoly :=
    funext fun s => funext (tableStep_eq_step (by decide) crc16tab_tabulates s)
  rw [crc16, foldl_crc16Step, hstep, xmodem]

/-- The table indices that CRC16/XMODEM meets. -/
def xmodemIndices (bs : List UInt8) : List (BitVec 8) :=
  indicesMet xmodemPoly 0 (bs.map UInt8.toBitVec)

theorem toNat_mod_eq_iff (x y : BitVec 16) :
    x.toNat % CLUSTER_SLOT_COUNT = y.toNat % CLUSTER_SLOT_COUNT ↔
      x.setWidth 14 = y.setWidth 14 := by
  rw [← toNat_inj, toNat_setWidth, toNat_setWidth]
  rfl

/-- The lower 14 bits agree on every prefix iff XMODEM meets the first 64 entries only. -/
theorem prefixes_agree_iff (bs : List UInt8) :
    (∀ p, p <+: bs → (Sharding.crc16 p).toNat % CLUSTER_SLOT_COUNT
      = (crc16 p).toNat % CLUSTER_SLOT_COUNT) ↔ ∀ i ∈ xmodemIndices bs, i.toNat < 64 := by
  have hlow : ∀ i, (entryOf Sharding.CRC16_TABLE i).setWidth 14 = (entryOf crc16tab i).setWidth 14 →
      entryOf Sharding.CRC16_TABLE i = entryOf crc16tab i :=
    fun i hi => CRC16_TABLE_right i ((CRC16_TABLE_right_iff i).mp hi)
  have hright : (∀ i ∈ xmodemIndices bs, i.toNat < 64) ↔
      ∀ i ∈ xmodemIndices bs, entryOf Sharding.CRC16_TABLE i = entryOf crc16tab i :=
    forall₂_congr fun i _ => ⟨CRC16_TABLE_right i,
      fun heq => (CRC16_TABLE_right_iff i).mp (by rw [heq])⟩
  rw [hright, xmodemIndices, ← crc_prefixes_iff (by decide) crc16tab_tabulates hlow]
  simp only [toNat_mod_eq_iff, crc16_eq_xmodem, Sharding.crc16, foldl_crc16Step, xmodem]
  constructor
  · rintro hagree _ hp
    obtain ⟨p, hp', rfl⟩ := prefix_map_iff.mp hp
    exact hagree p hp'
  · intro hagree p hp
    exact hagree _ (hp.map _)

/-- **Two routing layers**: `keyHashSlot` is CRC16/XMODEM of the hash tag.  The slots agree if
XMODEM meets only the first 64 table indices on the hash tag; and if it meets another one, then
the two functions `crc16` disagree on the part of the hash tag that ends there. -/
theorem key_slots_agree (key : List UInt8) :
    keyHashSlot key = (xmodem (hashTag key)).toNat % CLUSTER_SLOT_COUNT ∧
    ((∀ i ∈ xmodemIndices (hashTag key), i.toNat < 64) →
      Sharding.clusterKeyToSlot key = keyHashSlot key) ∧
    ((∀ p, p <+: hashTag key → (Sharding.crc16 p).toNat % CLUSTER_SLOT_COUNT
      = (crc16 p).toNat % CLUSTER_SLOT_COUNT) ↔
      ∀ i ∈ xmodemIndices (hashTag key), i.toNat < 64) := by
  refine ⟨by rw [keyHashSlot_eq, crc16_eq_xmodem], fun hmet => ?_, prefixes_agree_iff _⟩
  rw [Sharding.clusterKeyToSlot_eq, keyHashSlot_eq]
  exact (prefixes_agree_iff _).mpr hmet _ prefix_rfl

/-- On the hash tag `373999` XMODEM meets right entries only. -/
theorem key_slots_agree_digits :
    Sharding.clusterKeyToSlot [97, 123, 51, 55, 51, 57, 57, 57, 125, 98] =
      keyHashSlot [97, 123, 51, 55, 51, 57, 57, 57, 125, 98] :=
  (key_slots_agree [97, 123, 51, 55, 51, 57, 57, 57, 125, 98]).2.1 (by decide +kernel)

/-- The key `foo` is in slot 12182, and in slot 13835 for the sharding module. -/
theorem key_slots_disagree_foo :
    keyHashSlot [102, 111, 111] = 12182 ∧ Sharding.clusterKeyToSlot [102, 111, 111] = 13835 := by
  decide +kernel

end NexCache.Cluster
