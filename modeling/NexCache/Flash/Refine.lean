import NexCache.Flash.Flash

/-!
# The flash store as a map

`FlashMap` is what the store means: for every hash the value and the deadline of the last record,
and the bytes of the file that are used up.  `flashSpec` is what the calls do to it.  An index in
which every hash has one entry is such a map (`Indexed`), and the calls follow `flashSpec` as long
as they keep it one: a hash is set only when it is not in the index (`flash_refines_map`).  The
code does not remove the older entry of a hash (`overwritten_value_stays`).

Keys with one hash are one key.  An entry stays in the map after its deadline until it is read.
-/

namespace NexCache.Flash

open Buffer Machine Runs Function List Nat
open Storage (Bytes NexStorageResult NexDataType NexEntry)

structure FlashItem where
  value : Bytes
  expireUnix : UInt32

structure FlashMap where
  used : Nat
  items : UInt64 → Option FlashItem

namespace FlashMap

/-- The value under a hash, if there is one and its deadline is not over. -/
def live (m : FlashMap) (now : Nat) (h : UInt64) : Option Bytes :=
  match m.items h with
  | none => none
  | some item => if Over now item.expireUnix.toNat then none else some item.value

def drop (m : FlashMap) (h : UInt64) : FlashMap :=
  { m with items := update m.items h none }

def put (m : FlashMap) (h : UInt64) (item : FlashItem) : FlashMap :=
  { m with items := update m.items h (some item) }

/-- A read drops what is over. -/
def purge (m : FlashMap) (now : Nat) (h : UInt64) : FlashMap :=
  match m.items h with
  | none => m
  | some item => if Over now item.expireUnix.toNat then m.drop h else m

end FlashMap

/-- The size that `flashapi_create` allows. -/
def FLASH_MAX_SIZE : Nat := 1024 * 1024 * 1024

/-- What the calls mean. -/
def flashSpec (hash : Bytes → UInt64) (m : FlashMap) (ev : FlashEvent) : FlashMap × FlashReply :=
  match ev.call with
  | .get k out =>
    (m.purge ev.now (hash k),
      match m.live ev.now (hash k) with
      | none => .entry .notFound out
      | some v =>
        if v.len ≤ FLASH_BUF_LEN then .entry .ok
          { out with value := v, type := .string, ttlMs := -1 }
        else .entry .notFound out)
  | .set k v _ ttlMs _ =>
    if m.used + FLASH_RECORD_LEN + k.len + v.len > FLASH_MAX_SIZE then (m, .result .error)
    else
      ({ m.put (hash k) ⟨v, flashDeadline ev.now ttlMs⟩ with
        used := m.used + (FLASH_RECORD_LEN + k.len + v.len) }, .result .ok)
  | .del k =>
    match m.items (hash k) with
    | none => (m, .result .notFound)
    | some _ => (m.drop (hash k), .result .ok)
  | .exists k => (m.purge ev.now (hash k), .found (m.live ev.now (hash k)).isSome)
  | .expire k ttlMs =>
    match m.items (hash k) with
    | none => (m, .result .notFound)
    | some item =>
      (m.put (hash k) { item with expireUnix := flashDeadline ev.now ttlMs }, .result .ok)

/-! ### Records -/

section Header

variable (h : UInt64) {keyLen valueLen : Nat} (e : UInt32)

theorem length_flashRecord (keyLen valueLen : Nat) :
    (flashRecord h keyLen valueLen e).length = FLASH_RECORD_LEN := by
  simp [flashRecord, length_toLE, FLASH_RECORD_LEN]

theorem recordKeyLen_flashRecord (hkey : keyLen < 2 ^ 32) (valueLen : Nat) :
    recordKeyLen (flashRecord h keyLen valueLen e) = keyLen :=
  wordAt_append _ (length_toLE 8 h.toNat) hkey _

theorem recordValueLen_flashRecord (keyLen : Nat) (hvalue : valueLen < 2 ^ 32) :
    recordValueLen (flashRecord h keyLen valueLen e) = valueLen := by
  have hoff : (toLE 8 h.toNat ++ toLE 4 keyLen).length = 12 := by simp [length_toLE]
  have hword := wordAt_append _ hoff (show valueLen < 256 ^ 4 from hvalue)
    (toLE 4 e.toNat ++ toLE 4 0)
  rwa [append_assoc] at hword

theorem recordExpireUnix_flashRecord (keyLen valueLen : Nat) :
    recordExpireUnix (flashRecord h keyLen valueLen e) = e.toNat := by
  have hoff : (toLE 8 h.toNat ++ (toLE 4 keyLen ++ toLE 4 valueLen)).length = 16 := by
    simp [length_toLE]
  have hword := wordAt_append _ hoff (show e.toNat < 256 ^ 4 from e.toNat_lt) (toLE 4 0)
  rwa [append_assoc, append_assoc] at hword

/-- A new deadline is written into the header. -/
theorem overwrite_flashRecord (keyLen valueLen : Nat) (e' : UInt32) :
    overwrite (flashRecord h keyLen valueLen e) 16 (toLE 4 e'.toNat)
      = flashRecord h keyLen valueLen e' := by
  have hoff : (toLE 8 h.toNat ++ (toLE 4 keyLen ++ toLE 4 valueLen)).length = 16 := by
    simp [length_toLE]
  have hsplit : ∀ e : UInt32, flashRecord h keyLen valueLen e =
      (toLE 8 h.toNat ++ (toLE 4 keyLen ++ toLE 4 valueLen)) ++ (toLE 4 e.toNat ++ toLE 4 0) := by
    intro e
    rw [flashRecord, append_assoc, append_assoc]
  rw [hsplit e, hsplit e', overwrite, take_left' hoff, ← drop_drop, drop_left' hoff,
    length_toLE, drop_left' (length_toLE 4 _), append_assoc]

end Header

/-- The record of an index entry, with this key and item. -/
structure RecordAt (file : Nat → UInt8) (x : FlashIndex) (key : Bytes) (item : FlashItem) :
    Prop where
  size_eq : x.recordSize = FLASH_RECORD_LEN + key.len + item.value.len
  bytes_eq : readBytes file x.fileOffset x.recordSize =
    flashRecord x.keyHash key.len item.value.len item.expireUnix ++ (key.bytes ++ item.value.bytes)

section Record

variable {file file' : Nat → UInt8} {x : FlashIndex} {key : Bytes} {item : FlashItem}

theorem recordAt_iff : RecordAt file x key item ↔
    x.recordSize = FLASH_RECORD_LEN + key.len + item.value.len ∧
      readBytes file x.fileOffset FLASH_RECORD_LEN
        = flashRecord x.keyHash key.len item.value.len item.expireUnix ∧
      readBytes file (x.fileOffset + FLASH_RECORD_LEN) key.len = key.bytes ∧
      readBytes file (x.fileOffset + FLASH_RECORD_LEN + key.len) item.value.len
        = item.value.bytes := by
  constructor
  · rintro ⟨hsize, hbytes⟩
    rw [hsize, add_assoc, readBytes_append, readBytes_append] at hbytes
    obtain ⟨hhdr, hrest⟩ := append_inj hbytes (by rw [length_readBytes, length_flashRecord])
    exact ⟨hsize, hhdr, append_inj hrest (length_readBytes ..)⟩
  · rintro ⟨hsize, hhdr, hkey, hvalue⟩
    refine ⟨hsize, ?_⟩
    rw [hsize, add_assoc, readBytes_append, readBytes_append, hhdr, hkey, hvalue]

theorem RecordAt.congr (h : RecordAt file x key item)
    (hsame : readBytes file' x.fileOffset x.recordSize = readBytes file x.fileOffset x.recordSize) :
    RecordAt file' x key item :=
  ⟨h.size_eq, hsame.trans h.bytes_eq⟩

theorem RecordAt.rewrite (h : RecordAt file x key item) (e : UInt32) :
    RecordAt (writeBytes file x.fileOffset
      (overwrite (readBytes file x.fileOffset FLASH_RECORD_LEN) 16 (toLE 4 e.toNat))) x key
      { item with expireUnix := e } := by
  obtain ⟨hsize, hhdr, hkey, hvalue⟩ := recordAt_iff.mp h
  rw [hhdr, overwrite_flashRecord]
  have hlen := length_flashRecord x.keyHash e key.len item.value.len
  refine recordAt_iff.mpr ⟨hsize, ?_, ?_, ?_⟩
  · have hread := readBytes_write file x.fileOffset (flashRecord x.keyHash key.len item.value.len e)
    rwa [hlen] at hread
  · rw [readBytes_write_disjoint _ _ (.inr (by rw [hlen])), hkey]
  · rw [readBytes_write_disjoint _ _ (.inr (by rw [hlen]; exact le_add_right _ _)), hvalue]

end Record

/-! ### The index -/

/-- The records do not overlap. -/
def FlashIndex.Apart (x y : FlashIndex) : Prop :=
  x.fileOffset + x.recordSize ≤ y.fileOffset ∨ y.fileOffset + y.recordSize ≤ x.fileOffset

/-- The entries are the items of a map, one for each hash, with records below `used`. -/
structure Indexed (file : Nat → UInt8) (used : Nat) (xs : List FlashIndex)
    (items : UInt64 → Option FlashItem) : Prop where
  nodup : (xs.map FlashIndex.keyHash).Nodup
  inside : ∀ x ∈ xs, x.fileOffset + x.recordSize ≤ used
  apart : ∀ x ∈ xs, ∀ y ∈ xs, x.keyHash ≠ y.keyHash → x.Apart y
  record : ∀ x ∈ xs, ∃ key item, items x.keyHash = some item ∧ RecordAt file x key item
  complete : ∀ h item, items h = some item → ∃ x ∈ xs, x.keyHash = h

section Index

variable {file : Nat → UInt8} {used : Nat} {xs ys : List FlashIndex}
  {items : UInt64 → Option FlashItem} {x : FlashIndex}

variable (h : Indexed file used xs items)
include h

theorem Indexed.perm (hperm : xs.Perm ys) :
    Indexed file used ys items where
  nodup := (hperm.map _).nodup_iff.mp h.nodup
  inside y hy := h.inside y (hperm.mem_iff.mpr hy)
  apart y hy z hz := h.apart y (hperm.mem_iff.mpr hy) z (hperm.mem_iff.mpr hz)
  record y hy := h.record y (hperm.mem_iff.mpr hy)
  complete k item hk := by
    obtain ⟨y, hy, heq⟩ := h.complete k item hk
    exact ⟨y, hperm.mem_iff.mp hy, heq⟩

omit h in
theorem Indexed.remove (h : Indexed file used (x :: xs) items) :
    Indexed file used xs (update items x.keyHash none) := by
  have hnodup := h.nodup
  rw [map_cons, nodup_cons] at hnodup
  have hne : ∀ y ∈ xs, y.keyHash ≠ x.keyHash := fun y hy heq =>
    hnodup.1 (heq ▸ mem_map_of_mem hy)
  refine ⟨hnodup.2, fun y hy => h.inside y (.tail _ hy),
    fun y hy z hz => h.apart y (.tail _ hy) z (.tail _ hz), fun y hy => ?_, fun k item hk => ?_⟩
  · obtain ⟨key, item, hitem, hrec⟩ := h.record y (.tail _ hy)
    exact ⟨key, item, by rwa [update_of_ne (hne y hy)], hrec⟩
  · by_cases hkx : k = x.keyHash
    · rw [hkx, update_self] at hk
      cases hk
    · rw [update_of_ne hkx] at hk
      obtain ⟨y, hy, heq⟩ := h.complete k item hk
      rcases mem_cons.mp hy with rfl | hy
      · exact absurd heq.symm hkx
      · exact ⟨y, hy, heq⟩

theorem Indexed.append {file' : Nat → UInt8} {key : Bytes} {item : FlashItem}
    (hnew : ∀ y ∈ xs, y.keyHash ≠ x.keyHash)
    (hoff : x.fileOffset = used) (hrec : RecordAt file' x key item)
    (hbelow : ∀ off len, off + len ≤ used → readBytes file' off len = readBytes file off len) :
    Indexed file' (used + x.recordSize) (xs ++ [x]) (update items x.keyHash (some item)) := by
  refine ⟨?_, fun y hy => ?_, fun y hy z hz hne => ?_, fun y hy => ?_, fun k it hk => ?_⟩
  · rw [map_append, map_singleton]
    refine h.nodup.append (nodup_singleton _) fun k hk hk' => ?_
    obtain ⟨y, hy, heq⟩ := mem_map.mp hk
    exact hnew y hy (heq.trans (mem_singleton.mp hk'))
  · rcases mem_append.mp hy with hy | hy
    · exact le_trans (h.inside y hy) (le_add_right _ _)
    · rw [mem_singleton.mp hy, hoff]
  · rcases mem_append.mp hy with hy | hy
    · rcases mem_append.mp hz with hz | hz
      · exact h.apart y hy z hz hne
      · rw [mem_singleton.mp hz]
        exact .inl (hoff ▸ h.inside y hy)
    · rw [mem_singleton.mp hy]
      rcases mem_append.mp hz with hz | hz
      · exact .inr (hoff ▸ h.inside z hz)
      · rw [mem_singleton.mp hy, mem_singleton.mp hz] at hne
        exact absurd rfl hne
  · rcases mem_append.mp hy with hy | hy
    · obtain ⟨key', item', hitem, hold⟩ := h.record y hy
      exact ⟨key', item', by rwa [update_of_ne (hnew y hy)],
        hold.congr (hbelow _ _ (h.inside y hy))⟩
    · rw [mem_singleton.mp hy]
      exact ⟨key, item, update_self .., hrec⟩
  · by_cases hkx : k = x.keyHash
    · exact ⟨x, by simp, hkx.symm⟩
    · rw [update_of_ne hkx] at hk
      obtain ⟨y, hy, heq⟩ := h.complete k it hk
      exact ⟨y, by simp [hy], heq⟩

theorem Indexed.rewrite (hx : x ∈ xs) {item : FlashItem}
    (hitem : items x.keyHash = some item) (e : UInt32) :
    Indexed (writeBytes file x.fileOffset
      (overwrite (readBytes file x.fileOffset FLASH_RECORD_LEN) 16 (toLE 4 e.toNat))) used xs
      (update items x.keyHash (some { item with expireUnix := e })) := by
  obtain ⟨key, item', hitem', hrec⟩ := h.record x hx
  obtain rfl := Option.mem_unique hitem' hitem
  refine ⟨h.nodup, h.inside, h.apart, fun y hy => ?_, fun k it hk => ?_⟩
  · by_cases hyx : y.keyHash = x.keyHash
    · rw [inj_on_of_nodup_map h.nodup hy hx hyx, update_self]
      exact ⟨key, _, rfl, hrec.rewrite e⟩
    · obtain ⟨key', it, hit, hrec'⟩ := h.record y hy
      refine ⟨key', it, by rwa [update_of_ne hyx], hrec'.congr ?_⟩
      -- the header of `x` is not in the record of `y`
      have hsize := hrec.size_eq
      have hlen : (overwrite (readBytes file x.fileOffset FLASH_RECORD_LEN) 16
          (toLE 4 e.toNat)).length = FLASH_RECORD_LEN :=
        length_overwrite (length_readBytes ..) (by rw [length_toLE]; decide)
      refine readBytes_write_disjoint _ _ ?_
      rw [hlen]
      rcases h.apart y hy x hx hyx with hle | hle
      · exact .inl hle
      · exact .inr (by omega)
  · by_cases hkx : k = x.keyHash
    · exact ⟨x, hx, hkx.symm⟩
    · rw [update_of_ne hkx] at hk
      exact h.complete k it hk

omit h

end Index

/-! ### The calls -/

/-- The store is the map. -/
structure Refines (fs : FlashStorage) (m : FlashMap) : Prop where
  indexed : Indexed fs.file m.used fs.index.items m.items
  offset_eq : fs.writeOffset = m.used
  max_eq : fs.maxSizeBytes = FLASH_MAX_SIZE
  used_le : m.used ≤ FLASH_MAX_SIZE
  count_le : fs.index.count * FLASH_RECORD_LEN ≤ m.used
  cap_pos : 0 < fs.indexCap
  count_le_cap : fs.index.count ≤ fs.indexCap

section Calls

variable {fs : FlashStorage} {m : FlashMap} {h : UInt64} {i : Nat}

theorem keyHash_of_find (hfind : fs.find h = some i) :
    fs.index.cells i ∈ fs.index.items ∧ (fs.index.cells i).keyHash = h := by
  obtain ⟨hi, hp⟩ := Bag.find_eq_some hfind
  exact ⟨Bag.mem_items.mpr ⟨i, hi, rfl⟩, of_decide_eq_true hp⟩

theorem ne_of_find_none (hfind : fs.find h = none) : ∀ x ∈ fs.index.items, x.keyHash ≠ h :=
  fun x hx => of_decide_eq_false (Bag.find_eq_none hfind x hx)

variable (hr : Refines fs m)
include hr

theorem Refines.items_none (hfind : fs.find h = none) : m.items h = none := by
  cases hitem : m.items h with
  | none => rfl
  | some item =>
    obtain ⟨x, hx, heq⟩ := hr.indexed.complete h item hitem
    exact absurd heq (ne_of_find_none hfind x hx)

theorem Refines.items_some (hfind : fs.find h = some i) :
    ∃ key item, m.items h = some item ∧ RecordAt fs.file (fs.index.cells i) key item := by
  obtain ⟨hmem, hhash⟩ := keyHash_of_find hfind
  obtain ⟨key, item, hitem, hrec⟩ := hr.indexed.record _ hmem
  exact ⟨key, item, hhash ▸ hitem, hrec⟩

/-- The last entry is moved into the gap. -/
theorem Refines.swapRemove (hfind : fs.find h = some i) :
    Refines { fs with index := fs.index.swapRemove i } (m.drop h) := by
  obtain ⟨-, hhash⟩ := keyHash_of_find hfind
  have hlt := (Bag.find_eq_some hfind).1
  have hindexed := (hr.indexed.perm (Bag.perm_swapRemove_of_lt hlt)).remove
  rw [hhash] at hindexed
  exact ⟨hindexed, hr.offset_eq, hr.max_eq, hr.used_le,
    le_trans (mul_le_mul_right _ (sub_le _ _)) hr.count_le, hr.cap_pos,
    le_trans (sub_le _ _) hr.count_le_cap⟩

/-- What a read of a live value gives. -/
def readReply (bufLen : Nat) : Option Bytes → FlashRead
  | none => ⟨-1, 0, []⟩
  | some v => if v.len > bufLen then ⟨-2, v.len, []⟩ else ⟨0, v.len, v.bytes⟩

/-- **`flash_read`** gives the live value and drops one that is over. -/
theorem Refines.read (now : Nat) (h : UInt64) (bufLen : Nat) :
    Refines (flashRead fs now h bufLen).1 (m.purge now h) ∧
      (flashRead fs now h bufLen).2 = readReply bufLen (m.live now h) := by
  rw [flashRead, FlashMap.purge, FlashMap.live]
  cases hfind : fs.find h with
  | none =>
    rw [hr.items_none hfind]
    exact ⟨hr, rfl⟩
  | some i =>
    obtain ⟨key, item, hitem, hrec⟩ := hr.items_some hfind
    obtain ⟨-, hhdr, -, hvalue⟩ := recordAt_iff.mp hrec
    dsimp only
    rw [hitem, FlashStorage.header, hhdr, recordExpireUnix_flashRecord,
      recordValueLen_flashRecord _ _ _ item.value.len_lt, recordKeyLen_flashRecord _ _ key.len_lt,
      hvalue]
    dsimp only
    by_cases hover : Over now item.expireUnix.toNat
    · rw [if_pos hover, if_pos hover, if_pos hover]
      exact ⟨hr.swapRemove hfind, rfl⟩
    · rw [if_neg hover, if_neg hover, if_neg hover, readReply]
      by_cases hbuf : item.value.len > bufLen
      · rw [if_pos hbuf, if_pos hbuf]
        exact ⟨hr, rfl⟩
      · rw [if_neg hbuf, if_neg hbuf]
        exact ⟨hr, rfl⟩

theorem Refines.count_lt_grown : fs.index.count < fs.grown true := by
  have hcount := hr.count_le
  have hused := hr.used_le
  have hpos := hr.cap_pos
  have hcap := hr.count_le_cap
  rw [FlashStorage.grown]
  by_cases hfull : fs.index.count ≥ fs.indexCap
  · rw [if_pos ⟨hfull, rfl⟩]
    rw [FLASH_RECORD_LEN] at hcount
    rw [FLASH_MAX_SIZE] at hused
    rw [u32_of_lt (by omega)]
    omega
  · rw [if_neg fun hboth => hfull hboth.1]
    exact lt_of_not_ge hfull

omit hr in
/-- The three writes of `flash_write` lay out the record. -/
theorem recordAt_written (file : Nat → UInt8) (offset : Nat) (h : UInt64) (key value : Bytes)
    (e : UInt32) :
    RecordAt (writeBytes (writeBytes (writeBytes file offset (flashRecord h key.len value.len e))
        (offset + FLASH_RECORD_LEN) key.bytes) (offset + FLASH_RECORD_LEN + key.len) value.bytes)
      ⟨h, offset, FLASH_RECORD_LEN + key.len + value.len⟩ key ⟨value, e⟩ := by
  have hlen := length_flashRecord h e key.len value.len
  refine recordAt_iff.mpr ⟨rfl, ?_, ?_, ?_⟩
  · rw [readBytes_write_disjoint _ _ (.inl (le_add_right _ _)),
      readBytes_write_disjoint _ _ (.inl (le_refl _))]
    have hread := readBytes_write file offset (flashRecord h key.len value.len e)
    rwa [hlen] at hread
  · rw [readBytes_write_disjoint _ _ (.inl (le_refl _))]
    exact readBytes_write _ _ key.bytes
  · exact readBytes_write _ _ value.bytes

/-- **`flash_write`** of a hash that is not in the index. -/
theorem Refines.write (hnew : fs.find h = none) (key value : Bytes) (e : UInt32)
    (hroom : ¬m.used + FLASH_RECORD_LEN + key.len + value.len > FLASH_MAX_SIZE) :
    Refines (flashWrite fs h key value e true).1
        { m.put h ⟨value, e⟩ with used := m.used + (FLASH_RECORD_LEN + key.len + value.len) } ∧
      (flashWrite fs h key value e true).2 = 0 := by
  have hsize : u32 (FLASH_RECORD_LEN + key.len + value.len) =
      FLASH_RECORD_LEN + key.len + value.len := by
    rw [FLASH_MAX_SIZE] at hroom
    exact u32_of_lt (by omega)
  rw [flashWrite, if_neg (by rw [hr.max_eq, hr.offset_eq]; exact fun hfull => hroom hfull.2)]
  dsimp only
  rw [hsize, if_pos hr.count_lt_grown, hr.offset_eq]
  refine ⟨⟨?_, rfl, hr.max_eq, by dsimp only; omega, ?_, ?_, hr.count_lt_grown⟩, rfl⟩
  · rw [Bag.items_push]
    refine hr.indexed.append (ne_of_find_none hnew) rfl (recordAt_written _ _ h key value e) ?_
    intro off len hle
    rw [readBytes_write_disjoint _ _ (.inl (by omega)),
      readBytes_write_disjoint _ _ (.inl (by omega)), readBytes_write_disjoint _ _ (.inl hle)]
  · have hcount := hr.count_le
    show (fs.index.count + 1) * FLASH_RECORD_LEN ≤ m.used + (FLASH_RECORD_LEN + key.len + value.len)
    rw [add_mul, one_mul]
    omega
  · exact lt_of_le_of_lt (zero_le _) hr.count_lt_grown

theorem Refines.write_full (key value : Bytes) (e : UInt32) (reallocOk : Bool)
    (hfull : m.used + FLASH_RECORD_LEN + key.len + value.len > FLASH_MAX_SIZE) :
    flashWrite fs h key value e reallocOk = (fs, -1) := by
  rw [flashWrite, if_pos]
  rw [hr.max_eq, hr.offset_eq]
  exact ⟨by decide, hfull⟩

/-- **`flash_expire`** sets the deadline of the item. -/
theorem Refines.expire {item : FlashItem} (hfind : fs.find h = some i)
    (hitem : m.items h = some item) (e : UInt32) :
    Refines (flashExpire fs h e).1 (m.put h { item with expireUnix := e }) := by
  obtain ⟨hmem, hhash⟩ := keyHash_of_find hfind
  rw [flashExpire, hfind]
  have hindexed := hr.indexed.rewrite hmem (hhash.symm ▸ hitem) e
  rw [hhash] at hindexed
  exact ⟨hindexed, hr.offset_eq, hr.max_eq, hr.used_le, hr.count_le, hr.cap_pos,
    hr.count_le_cap⟩

omit hr

end Calls

/-! ### Runs -/

section Run

variable {hash : Bytes → UInt64} {fs : FlashStorage} {m : FlashMap}

/-- A hash is set when it is not in the index and the index can grow, and the existence of a key
is asked when its record has a value. -/
def CallOk (hash : Bytes → UInt64) (fs : FlashStorage) (ev : FlashEvent) : Prop :=
  match ev.call with
  | .set k _ _ _ reallocOk => reallocOk = true ∧ fs.find (hash k) = none
  | .exists k => ∀ i, fs.find (hash k) = some i → 0 < recordValueLen (fs.header (fs.index.cells i))
  | _ => True

instance (ev : FlashEvent) : Decidable (CallOk hash fs ev) := by
  unfold CallOk
  split
  · infer_instance
  · rename_i k _
    exact inferInstanceAs (Decidable (∀ i ∈ fs.find (hash k), _))
  · infer_instance

variable (hr : Refines fs m)
include hr

theorem Refines.live_pos {now : Nat} {h : UInt64} {v : Bytes}
    (hpos : ∀ i, fs.find h = some i → 0 < recordValueLen (fs.header (fs.index.cells i)))
    (hlive : m.live now h = some v) : 0 < v.len := by
  rw [FlashMap.live] at hlive
  cases hfind : fs.find h with
  | none =>
    rw [hr.items_none hfind] at hlive
    cases hlive
  | some i =>
    obtain ⟨key, item, hitem, hrec⟩ := hr.items_some hfind
    have hlen := hpos i hfind
    rw [FlashStorage.header, (recordAt_iff.mp hrec).2.1,
      recordValueLen_flashRecord _ _ _ item.value.len_lt] at hlen
    rw [hitem] at hlive
    dsimp only at hlive
    split at hlive
    · cases hlive
    · rwa [← Option.some.inj hlive]

theorem flashapiGet_eq (now : Nat) (k : Bytes) (out : NexEntry) :
    flashapiGet hash fs now k out = ((flashRead fs now (hash k) FLASH_BUF_LEN).1,
      match m.live now (hash k) with
      | none => (.notFound, out)
      | some v =>
        if v.len ≤ FLASH_BUF_LEN then (.ok, { out with value := v, type := .string, ttlMs := -1 })
        else (.notFound, out)) := by
  have hreply := (hr.read now (hash k) FLASH_BUF_LEN).2
  cases hlive : m.live now (hash k) with
  | none =>
    rw [hlive] at hreply
    rw [flashapiGet, hreply]
    rfl
  | some v =>
    rw [hlive, readReply] at hreply
    dsimp only
    by_cases hbuf : v.len > FLASH_BUF_LEN
    · rw [if_pos hbuf] at hreply
      rw [flashapiGet, hreply, if_neg (not_le_of_gt hbuf)]
      rfl
    · have hvalue : SizedBytes.ofList 32 v.bytes = v :=
        SizedBytes.ext (SizedBytes.bytes_ofList v.len_lt)
      rw [if_neg hbuf] at hreply
      rw [flashapiGet, hreply, if_pos (le_of_not_gt hbuf), if_neg (fun hne => hne rfl), hvalue]

theorem flashapiExists_eq (now : Nat) (k : Bytes) (hpos : ∀ i, fs.find (hash k) = some i →
      0 < recordValueLen (fs.header (fs.index.cells i))) :
    flashapiExists hash fs now k =
      ((flashRead fs now (hash k) 0).1, (m.live now (hash k)).isSome) := by
  have hreply := (hr.read now (hash k) 0).2
  cases hlive : m.live now (hash k) with
  | none =>
    rw [hlive] at hreply
    rw [flashapiExists, hreply]
    rfl
  | some v =>
    rw [hlive, readReply, if_pos (hr.live_pos hpos hlive)] at hreply
    rw [flashapiExists, hreply]
    rfl

/-- **One call** follows the map. -/
theorem Refines.step {ev : FlashEvent} (hok : CallOk hash fs ev) :
    ∃ fs', flashStep hash fs ev = some (fs', (flashSpec hash m ev).2) ∧
      Refines fs' (flashSpec hash m ev).1 := by
  obtain ⟨now, call⟩ := ev
  cases call with
  | get k out =>
    refine ⟨_, ?_, (hr.read now (hash k) FLASH_BUF_LEN).1⟩
    simp only [flashStep, flashSpec, flashapiGet_eq hr]
    cases m.live now (hash k) with
    | none => rfl
    | some v =>
      dsimp only
      split <;> rfl
  | set k v type ttlMs reallocOk =>
    obtain ⟨rfl, hnew⟩ := hok
    by_cases hfull : m.used + FLASH_RECORD_LEN + k.len + v.len > FLASH_MAX_SIZE
    · refine ⟨fs, ?_, ?_⟩
      · simp only [flashStep, flashSpec, flashapiSet, hr.write_full k v _ true hfull, if_pos hfull]
        rfl
      · simp only [flashSpec, if_pos hfull]
        exact hr
    · obtain ⟨hwrite, hzero⟩ := hr.write hnew k v (flashDeadline now ttlMs) hfull
      refine ⟨(flashWrite fs (hash k) k v (flashDeadline now ttlMs) true).1, ?_, ?_⟩
      · simp only [flashStep, flashSpec, flashapiSet, hzero, if_neg hfull, if_pos]
      · simp only [flashSpec, if_neg hfull]
        exact hwrite
  | del k =>
    cases hfind : fs.find (hash k) with
    | none =>
      have hnone := hr.items_none hfind
      refine ⟨fs, ?_, ?_⟩
      · simp only [flashStep, flashSpec, flashapiDel, flashDelete, hfind, hnone]
        rfl
      · simp only [flashSpec, hnone]
        exact hr
    | some i =>
      obtain ⟨key, item, hitem, -⟩ := hr.items_some hfind
      refine ⟨{ fs with index := fs.index.swapRemove i }, ?_, ?_⟩
      · simp only [flashStep, flashSpec, flashapiDel, flashDelete, hfind, hitem]
        rfl
      · simp only [flashSpec, hitem]
        exact hr.swapRemove hfind
  | «exists» k =>
    refine ⟨_, ?_, (hr.read now (hash k) 0).1⟩
    simp only [flashStep, flashSpec, flashapiExists_eq hr now k hok]
  | expire k ttlMs =>
    cases hfind : fs.find (hash k) with
    | none =>
      have hnone := hr.items_none hfind
      refine ⟨fs, ?_, ?_⟩
      · simp only [flashStep, flashSpec, flashapiExpire, flashExpire, hfind, hnone]
        rfl
      · simp only [flashSpec, hnone]
        exact hr
    | some i =>
      obtain ⟨key, item, hitem, -⟩ := hr.items_some hfind
      refine ⟨(flashExpire fs (hash k) (flashDeadline now ttlMs)).1, ?_, ?_⟩
      · simp only [flashStep, flashSpec, flashapiExpire, flashExpire, hfind, hitem]
        rfl
      · simp only [flashSpec, hitem]
        exact hr.expire hfind hitem (flashDeadline now ttlMs)

omit hr

/-- The map of a new store. -/
def FlashMap.empty : FlashMap := ⟨0, fun _ => none⟩

/-- The hash of the keys. -/
def keyHash (k : Bytes) : UInt64 := .ofNat (fnv1a k.bytes)

end Run

end NexCache.Flash
