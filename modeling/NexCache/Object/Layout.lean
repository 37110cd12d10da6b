import NexCache.Object.Sds
import NexCache.Server.Lookup

/-!
# The layout of objects

`object.c` in the `RUBIN_MODE` build: an object is a header of 24 bytes and `svi_payload`, into
which a deadline, a key and a short string value are embedded.  Two constructors place them and
three readers find them again, each with offsets of its own.

Offsets count from `svi_payload`.  The allocator returns multiples of 8 and `svi_payload` is at 24,
so an address is rounded where its offset is.  Bytes beyond the allocation are other objects':
a write there is made all the same.

* `unembedded_laidOut`: an object whose value has an allocation of its own is laid out well.
* `embedded_laidOut_iff`: an object with its value embedded is laid out well iff the value ends
  inside `svi_payload`; the estimate of `shouldEmbedStringObject` is short by up to three bytes.

Not modelled: reference counts going down, `NULL` as a string, and the `lru` clock.
-/

namespace NexCache.Object

open Buffer Machine List Option
open Server (ObjType)

/-! ### Objects -/

def EXPIRY_NONE : Int64 := -1

def KEY_SIZE_TO_INCLUDE_EXPIRE_THRESHOLD : Nat := 128

/-- `sizeof(robj)`. -/
def ROBJ_SIZE : Nat := 256

/-- Where `svi_payload` begins. -/
def SVI_OFFSET : Nat := 24

/-- The size of `svi_payload`. -/
def SVI_PAYLOAD : Nat := 232

inductive Encoding
  | raw
  | int
  | hashtable
  | intset
  | skiplist
  | embstr
  | quicklist
  | stream
  | listpack
  deriving DecidableEq

/-- `o->ptr`: into the object itself, to a string or another structure, or an integer. -/
inductive Ptr
  | inner (off : Nat)
  | sds (p : SdsPtr)
  | long (n : Int64)
  | other (id : Nat)

structure ServerObject where
  type : ObjType
  encoding : Encoding
  hasexpire : Bool
  hasembkey : Bool
  hasembval : Bool
  lru : Nat
  refcount : Nat
  ptr : Ptr
  vitality : Nat
  /-- The bytes from `svi_payload` on. -/
  payload : Nat → UInt8
  /-- The size of the allocation. -/
  size : Nat

/-- `zcalloc`, from `svi_payload` on. -/
def zcalloc (heap : Heap) (size : Nat) : Nat → UInt8 :=
  fun i => if SVI_OFFSET + i < size then 0 else heap.bytes i

/-- The bytes of a `long long`. -/
def expireBytes (expire : Int64) : List UInt8 := toLE 8 expire.toUInt64.toNat

/-- The next multiple of 8. -/
def alignUp (n : Nat) : Nat := (n + 7) / 8 * 8

/-- The first bytes of the payload, where there is a slot for the deadline. -/
def putExpire (hasexpire : Bool) (expire : Int64) (payload : Nat → UInt8) : Nat → UInt8 :=
  if hasexpire then writeBytes payload 0 (expireBytes expire) else payload

/-- Where the slot for the deadline ends. -/
def expireEnd (hasexpire : Bool) : Nat := if hasexpire then 8 else 0

/-! ### Objects whose value is not embedded -/

def keySdsType (keyLen : Nat) : SdsType :=
  if sdsReqType keyLen = .t5 then .t8 else sdsReqType keyLen

/-- From the byte with the size of the header to the key. -/
def keyGap (khlen : Nat) : Nat := (1 + khlen + 7) / 8 * 8

/-- Whether the slot for the deadline is asked for. -/
def wantsExpire (key : Option (List UInt8)) (expire : Int64) : Bool :=
  expire ≠ EXPIRY_NONE ||
    key.any fun k => k.length ≥ KEY_SIZE_TO_INCLUDE_EXPIRE_THRESHOLD

def minSize (key : Option (List UInt8)) (expire : Int64) : Nat :=
  ROBJ_SIZE + (if wantsExpire key expire then 8 else 0) +
    match key with
    | none => 0
    | some k => keyGap (sdsHdrSize (keySdsType k.length)) + k.length + 1

def allocSize (key : Option (List UInt8)) (expire : Int64) : Nat :=
  (minSize key expire + 255) / 256 * 256

/-- The slot is there too where the allocation has room for it beside a key. -/
def hasExpire (key : Option (List UInt8)) (expire : Int64) : Bool :=
  wantsExpire key expire ||
    (key.isSome && decide (allocSize key expire ≥ minSize key expire + 8))

/-- The key region: the size of the header, the gap, the key. -/
def putKey (start : Nat) (key : Option (List UInt8)) (payload : Nat → UInt8) : Nat → UInt8 :=
  match key with
  | none => payload
  | some k =>
    let t := keySdsType k.length
    let data := start + keyGap (sdsHdrSize t)
    writeBytes (writeBytes payload start [UInt8.ofNat (sdsHdrSize t)])
      (data - sdsHdrSize t) (sdsBlock t k.length k)

def createUnembeddedObjectWithKeyAndExpire (heap : Heap) (type : ObjType) (val : Ptr)
    (key : Option (List UInt8)) (expire : Int64) : ServerObject where
  type := type
  encoding := .raw
  hasexpire := hasExpire key expire
  hasembkey := key.isSome
  hasembval := false
  lru := 0
  refcount := 1
  ptr := val
  vitality := 255
  payload := putKey (expireEnd (hasExpire key expire)) key
    (putExpire (hasExpire key expire) expire (zcalloc heap (allocSize key expire)))
  size := allocSize key expire

/-! ### Objects whose value is embedded -/

/-- Where an embedded key begins, from the end of the slot for the deadline. -/
def embKeyOff (data : Nat) : Nat := if data / 8 * 8 + 8 < 8 then 8 else data / 8 * 8 + 8

/-- Where an embedded value begins, from the end of what is before it. -/
def embValOff (data : Nat) : Nat := if alignUp data + 8 < 8 then 8 else alignUp data + 8

/-- The key with its header; the size of the header is written four bytes before the key. -/
def putEmbKey (start : Nat) (key : Option (List UInt8)) (payload : Nat → UInt8) : Nat → UInt8 :=
  match key with
  | none => payload
  | some k =>
    let data := embKeyOff start
    writeBytes (writeBytes payload (data - 4) [3])
      (data - sdsHdrSize .t8) (sdsBlock .t8 k.length k)

/-- Where an embedded key ends. -/
def embKeyEnd (start : Nat) (key : Option (List UInt8)) : Nat :=
  match key with
  | none => start
  | some k => embKeyOff start + k.length + 1

/-- The field `alloc` of an embedded value. -/
def embValAlloc (off valLen : Nat) : Nat :=
  if off + valLen + 1 > SVI_PAYLOAD then 0 else SVI_PAYLOAD - (off + valLen + 1)

def createEmbeddedStringObjectWithKeyAndExpire (heap : Heap) (val : List UInt8)
    (key : Option (List UInt8)) (expire : Int64) : ServerObject :=
  let hasexpire : Bool := expire ≠ EXPIRY_NONE
  let off := embValOff (embKeyEnd (expireEnd hasexpire) key)
  { type := .string
    encoding := .embstr
    hasexpire := hasexpire
    hasembkey := key.isSome
    hasembval := true
    lru := 0
    refcount := 1
    ptr := .inner off
    vitality := 255
    payload :=
      writeBytes (putEmbKey (expireEnd hasexpire) key
          (putExpire hasexpire expire (zcalloc heap ROBJ_SIZE)))
        (off - sdsHdrSize .t8) (sdsBlock .t8 (embValAlloc off val.length) val)
    size := ROBJ_SIZE }

def shouldEmbedStringObject (valLen : Nat) (key : Option (List UInt8)) (expire : Int64) : Bool :=
  let overhead := if expire ≠ EXPIRY_NONE then 8 else 0
  let overhead := match key with
    | none => overhead
    | some k => overhead + (1 + 3 + k.length + 1 + 7)
  let overhead := overhead + (3 + 7)
  !decide (valLen + overhead > SVI_PAYLOAD)

def createStringObjectWithKeyAndExpire (heap : Heap) (val : List UInt8)
    (key : Option (List UInt8)) (expire : Int64) : Option ServerObject :=
  if shouldEmbedStringObject val.length key expire then
    some (createEmbeddedStringObjectWithKeyAndExpire heap val key expire)
  else
    (sdsnewlen heap val).map fun p =>
      createUnembeddedObjectWithKeyAndExpire heap .string (.sds p) key expire

/-! ### Readers -/

def objectGetVal (o : ServerObject) : Ptr := o.ptr

def objectGetKey (o : ServerObject) : Option Nat :=
  if o.hasembkey then
    let start := expireEnd o.hasexpire
    let khlen := (o.payload start).toNat
    some (start + keyGap khlen)
  else none

def objectGetExpire (o : ServerObject) : Int64 :=
  if o.hasexpire then (UInt64.ofNat (ofLE (readBytes o.payload 0 8))).toInt64 else EXPIRY_NONE

inductive Value
  | str (s : List UInt8)
  | long (n : Int64)
  | other (id : Nat)
  deriving DecidableEq

namespace ServerObject

/-- What `objectGetVal` leads to; a string with its length. -/
def value (o : ServerObject) : Value :=
  match objectGetVal o with
  | .inner off => .str (sdsText o.payload off)
  | .sds p => .str p.text
  | .long n => .long n
  | .other id => .other id

/-- The key with its length. -/
def keyText (o : ServerObject) : Option (List UInt8) := (objectGetKey o).map (sdsText o.payload)

end ServerObject

/-- The pointer that the new object gets: that of `o`, or a copy of a string that others refer to;
`none` where the server stops ("Not implemented"). -/
def takePtr (heap : Heap) (o : ServerObject) : Option Ptr :=
  if o.refcount = 1 then some o.ptr
  else if o.type = .string ∧ o.encoding = .int then some o.ptr
  else if o.type = .string ∧ o.encoding = .raw then
    match o.ptr with
    | .sds p => (sdsdup heap p).map .sds
    | _ => none
  else none

def objectSetKeyAndExpire (heap : Heap) (o : ServerObject) (key : Option (List UInt8))
    (expire : Int64) : Option ServerObject :=
  if o.type = .string ∧ o.encoding = .embstr then
    match o.value with
    | .str s =>
      (createStringObjectWithKeyAndExpire heap s key expire).map fun new =>
        { new with lru := o.lru }
    | _ => none
  else
    (takePtr heap o).map fun ptr =>
      { createUnembeddedObjectWithKeyAndExpire heap o.type ptr key expire with
        encoding := o.encoding
        lru := o.lru }

/-! ### Regions -/

structure Region where
  start : Nat
  stop : Nat
  deriving DecidableEq

def Region.Disjoint (a b : Region) : Prop := a.stop ≤ b.start ∨ b.stop ≤ a.start

namespace ServerObject

def expireRegion (o : ServerObject) : Option Region := if o.hasexpire then some ⟨0, 8⟩ else none

def keyRegion (o : ServerObject) : Option Region :=
  (objectGetKey o).map fun s => ⟨expireEnd o.hasexpire, s + sdslen o.payload s + 1⟩

def valRegion (o : ServerObject) : Option Region :=
  match objectGetVal o with
  | .inner s => some ⟨s - sdsHdrSize .t8, s + sdslen o.payload s + 1⟩
  | _ => none

/-- The parts of the payload that are in use. -/
def regions (o : ServerObject) : List Region :=
  o.expireRegion.toList ++ (o.keyRegion.toList ++ o.valRegion.toList)

/-- The bytes of the allocation from `svi_payload` on. -/
def room (o : ServerObject) : Nat := if o.hasembval then SVI_PAYLOAD else o.size - SVI_OFFSET

/-- The object reads back as it should, and its parts are beside each other in its allocation. -/
structure LaidOut (o : ServerObject) (value : Value) (key : Option (List UInt8)) (expire : Int64) :
    Prop where
  value_eq : o.value = value
  key_eq : o.keyText = key
  expire_eq : objectGetExpire o = expire
  disjoint : o.regions.Pairwise Region.Disjoint
  inside : ∀ r ∈ o.regions, r.stop ≤ o.room

/-- The encodings that an object has, and what they say of its pointer. -/
structure Valid (o : ServerObject) : Prop where
  string : o.type = .string →
    o.encoding = .embstr ∧ (∃ off, o.ptr = .inner off) ∨ o.encoding = .raw ∧ (∃ p, o.ptr = .sds p) ∨
      o.encoding = .int ∧ ∃ n, o.ptr = .long n
  other : o.type ≠ .string → ∃ id, o.ptr = .other id
  fits : ∀ s, o.value = .str s → s.length < 2 ^ 63

variable {o : ServerObject}

/-- The string of an embedded object is in its payload. -/
theorem Valid.embedded (hvalid : o.Valid) (h : o.type = .string ∧ o.encoding = .embstr) :
    ∃ off, o.ptr = .inner off ∧ o.value = .str (sdsText o.payload off) := by
  rcases hvalid.string h.1 with ⟨-, off, hptr⟩ | ⟨henc, -⟩ | ⟨henc, -⟩
  · exact ⟨off, hptr, by rw [ServerObject.value, objectGetVal, hptr]⟩
  · cases h.2.symm.trans henc
  · cases h.2.symm.trans henc

end ServerObject

/-! ### The slot for the deadline and the key -/

theorem length_expireBytes (expire : Int64) : (expireBytes expire).length = 8 := length_toLE 8 _

variable {i : Nat}

theorem putExpire_apply {hasexpire : Bool} (expire : Int64) (payload : Nat → UInt8)
    (hi : expireEnd hasexpire ≤ i) : putExpire hasexpire expire payload i = payload i := by
  cases hasexpire with
  | false => rfl
  | true =>
    have hi8 : 8 ≤ i := hi
    rw [putExpire, if_pos rfl, writeBytes, if_neg]
    rw [length_expireBytes]
    omega

variable {o : ServerObject} {k : List UInt8} {value : Value}

/-- The deadline is read back from its slot; without a slot there is none. -/
theorem expire_of_slot (payload : Nat → UInt8) {expire : Int64}
    (hnone : o.hasexpire = false → expire = EXPIRY_NONE)
    (hslot : o.hasexpire = true → ∀ i < 8, o.payload i = putExpire true expire payload i) :
    objectGetExpire o = expire := by
  rw [objectGetExpire]
  cases h : o.hasexpire with
  | false => exact (hnone h).symm
  | true =>
    have hbytes := readBytes_write payload 0 (expireBytes expire)
    rw [length_expireBytes] at hbytes
    have hframe : readBytes o.payload 0 8 = expireBytes expire :=
      (readBytes_congr fun i _ hi => hslot h i (by omega)).trans hbytes
    rw [if_pos rfl, hframe, expireBytes,
      ofLE_toLE (show expire.toUInt64.toNat < 256 ^ 8 from expire.toUInt64.toNat_lt),
      UInt64.ofNat_toNat]
    rfl

/-- The key `k` lies where the reader looks for it, with its header behind the byte that the reader
takes for the size of the header. -/
structure ServerObject.Keyed (o : ServerObject) (k : List UInt8) : Prop where
  hasembkey : o.hasembkey = true
  placed : ∃ t alloc off, expireEnd o.hasexpire +
      keyGap (o.payload (expireEnd o.hasexpire)).toNat = off ∧
    expireEnd o.hasexpire + sdsHdrSize t < off ∧ SdsAt o.payload off t alloc k

/-- Where the reader looks for the key, from the byte that it takes for the size of the header. -/
def ServerObject.keyStart (o : ServerObject) : Nat :=
  expireEnd o.hasexpire + keyGap (o.payload (expireEnd o.hasexpire)).toNat

theorem ServerObject.Keyed.get (h : o.Keyed k) : o.keyText = some k ∧
    o.keyRegion = some ⟨expireEnd o.hasexpire, o.keyStart + k.length + 1⟩ := by
  obtain ⟨hkey, t, alloc, off, hoff, -, hat⟩ := h
  have hget : objectGetKey o = some off := by
    rw [objectGetKey, if_pos hkey]
    exact congrArg some hoff
  rw [ServerObject.keyText, ServerObject.keyRegion, hget, map_some, map_some,
    hat.sdsText_eq, hat.sdslen_eq, ← hoff]
  exact ⟨rfl, rfl⟩

theorem ServerObject.Keyed.keyText_eq (h : o.Keyed k) : o.keyText = some k := h.get.1

/-- Where the key is, if there is one. -/
theorem key_of_keyed {key : Option (List UInt8)} {bound : Nat} (hemb : o.hasembkey = key.isSome)
    (hkeyed : ∀ k ∈ key, o.Keyed k ∧ o.keyStart + k.length + 1 ≤ bound) :
    o.keyText = key ∧ ∀ r ∈ o.keyRegion, r.start = expireEnd o.hasexpire ∧ r.stop ≤ bound := by
  cases key with
  | none =>
    have hget : objectGetKey o = none := by
      rw [objectGetKey, hemb]
      rfl
    rw [ServerObject.keyText, ServerObject.keyRegion, hget]
    exact ⟨rfl, fun r hr => absurd hr (not_mem_none r)⟩
  | some k =>
    obtain ⟨hk, hbound⟩ := hkeyed k rfl
    obtain ⟨htext, hregion⟩ := hk.get
    refine ⟨htext, fun r hr => ?_⟩
    rw [hregion, mem_some_iff] at hr
    subst hr
    exact ⟨rfl, hbound⟩

/-! ### Regions in order -/

theorem pairwise_toList {R : Region → Region → Prop} (r : Option Region) : r.toList.Pairwise R := by
  cases r with
  | none => exact Pairwise.nil
  | some r => exact pairwise_singleton R r

theorem mem_expireRegion {r : Region} (hr : r ∈ o.expireRegion.toList) :
    o.hasexpire = true ∧ r = ⟨0, 8⟩ := by
  rw [mem_toList, ServerObject.expireRegion] at hr
  split_ifs at hr with h
  exact ⟨h, (some.inj hr).symm⟩

/-- The slot, the key and the value follow each other. -/
theorem disjoint_of_order (hkey : ∀ r ∈ o.keyRegion, expireEnd o.hasexpire ≤ r.start)
    (hval : ∀ r ∈ o.valRegion, expireEnd o.hasexpire ≤ r.start)
    (hkeyval : ∀ r ∈ o.keyRegion, ∀ s ∈ o.valRegion, r.stop ≤ s.start) :
    o.regions.Pairwise Region.Disjoint := by
  refine pairwise_append.mpr ⟨pairwise_toList _, pairwise_append.mpr
    ⟨pairwise_toList _, pairwise_toList _, ?_⟩, ?_⟩
  · intro r hr s hs
    exact .inl (hkeyval r (mem_toList.mp hr) s (mem_toList.mp hs))
  · intro r hr s hs
    obtain ⟨hflag, rfl⟩ := mem_expireRegion hr
    rw [hflag] at hkey hval
    rcases mem_append.mp hs with hs | hs
    · exact .inl (hkey s (mem_toList.mp hs))
    · exact .inl (hval s (mem_toList.mp hs))

theorem inside_iff (hroom : 8 ≤ o.room) :
    (∀ r ∈ o.regions, r.stop ≤ o.room) ↔
      (∀ r ∈ o.keyRegion, r.stop ≤ o.room) ∧ ∀ r ∈ o.valRegion, r.stop ≤ o.room := by
  simp only [ServerObject.regions, mem_append, mem_toList]
  constructor
  · intro h
    exact ⟨fun r hr => h r (.inr (.inl hr)), fun r hr => h r (.inr (.inr hr))⟩
  · rintro ⟨hkey, hval⟩ r (hr | hr | hr)
    · obtain ⟨-, rfl⟩ := mem_expireRegion (mem_toList.mpr hr)
      exact hroom
    · exact hkey r hr
    · exact hval r hr

/-! ### Objects whose value is not embedded are laid out well -/

theorem keySdsType_fits {n : Nat} (hn : n < 2 ^ 64) : n ≤ sdsTypeMaxSize (keySdsType n) := by
  unfold keySdsType
  split_ifs with h
  · have hle := sdsReqType_fits hn
    rw [h] at hle
    exact le_trans hle (by decide)
  · exact sdsReqType_fits hn

theorem lt_keyGap (khlen : Nat) : khlen < keyGap khlen := by
  rw [keyGap]
  omega

theorem expireEnd_le (hasexpire : Bool) : expireEnd hasexpire ≤ 8 := by
  cases hasexpire <;> decide

/-- Nothing before the key region is written with the key. -/
theorem putKey_apply (key : Option (List UInt8)) (payload : Nat → UInt8) {start i : Nat}
    (hi : i < start) : putKey start key payload i = payload i := by
  cases key with
  | none => rfl
  | some k =>
    have hgap := lt_keyGap (sdsHdrSize (keySdsType k.length))
    simp only [putKey]
    rw [writeBytes, if_neg (by omega), writeBytes, if_neg (by omega)]

/-- The reader finds the size of the header. -/
theorem putKey_khlen (k : List UInt8) (start : Nat) (payload : Nat → UInt8) :
    (putKey start (some k) payload start).toNat = sdsHdrSize (keySdsType k.length) := by
  have hgap := lt_keyGap (sdsHdrSize (keySdsType k.length))
  have hhdr := sdsHdrSize_le (keySdsType k.length)
  simp only [putKey]
  rw [writeBytes, if_neg (by omega), writeBytes, if_pos ⟨le_rfl, Nat.lt_succ_self _⟩,
    Nat.sub_self, getD_cons_zero, UInt8.toNat_ofNat']
  exact Nat.mod_eq_of_lt (by omega)

theorem putKey_at (hk : k.length < 2 ^ 64) (start : Nat) (payload : Nat → UInt8) :
    SdsAt (putKey start (some k) payload) (start + keyGap (sdsHdrSize (keySdsType k.length)))
      (keySdsType k.length) k.length k := by
  have hgap := lt_keyGap (sdsHdrSize (keySdsType k.length))
  exact SdsAt.of_write _ _ (by omega) (keySdsType_fits hk)

section Unembedded

variable (key : Option (List UInt8)) (expire : Int64)

theorem le_minSize : ROBJ_SIZE ≤ minSize key expire := by
  unfold minSize
  omega

theorem le_allocSize : minSize key expire ≤ allocSize key expire := by
  rw [allocSize]
  omega

variable {heap : Heap} {type : ObjType} {val : Ptr} {key expire}
  (ho : createUnembeddedObjectWithKeyAndExpire heap type val key expire = o)
include ho

theorem unembedded_expire : objectGetExpire o = expire := by
  subst ho
  refine expire_of_slot (zcalloc heap (allocSize key expire)) (fun h => ?_) fun h i hi => ?_
  · by_contra hne
    simp [createUnembeddedObjectWithKeyAndExpire, hasExpire, wantsExpire, hne] at h
  · have hslot : hasExpire key expire = true := h
    simp only [createUnembeddedObjectWithKeyAndExpire, hslot]
    exact putKey_apply key _ hi

variable (hkey : ∀ k ∈ key, k.length < 2 ^ 64)
include hkey

theorem unembedded_keyed : ∀ k ∈ key, o.Keyed k ∧ o.keyStart + k.length + 1 ≤ o.room := by
  rintro k rfl
  have hgap := lt_keyGap (sdsHdrSize (keySdsType k.length))
  have hstart : o.keyStart = expireEnd o.hasexpire + keyGap (sdsHdrSize (keySdsType k.length)) := by
    subst ho
    exact congrArg (fun n => expireEnd _ + keyGap n) (putKey_khlen k _ _)
  have hat : SdsAt o.payload (expireEnd o.hasexpire + keyGap (sdsHdrSize (keySdsType k.length)))
      (keySdsType k.length) k.length k := by
    subst ho
    exact putKey_at (hkey k rfl) _ _
  refine ⟨⟨ho ▸ rfl, _, _, _, hstart, Nat.add_lt_add_left hgap _, hat⟩, ?_⟩
  have hmin : 256 + keyGap (sdsHdrSize (keySdsType k.length)) + k.length + 1 ≤
      minSize (some k) expire := by
    simp only [minSize, ROBJ_SIZE]
    omega
  have halloc := le_allocSize (some k) expire
  have hend := expireEnd_le o.hasexpire
  have hroom : o.room = allocSize (some k) expire - 24 := ho ▸ rfl
  omega

theorem unembedded_laidOut (hval : ∀ off, val ≠ .inner off)
    (hvalue : o.value = value) : o.LaidOut value key expire := by
  have hemb : o.hasembkey = key.isSome := ho ▸ rfl
  obtain ⟨htext, hregion⟩ := key_of_keyed hemb (unembedded_keyed ho hkey)
  have hvalRegion : o.valRegion = none := by
    subst ho
    cases val with
    | inner off => exact absurd rfl (hval off)
    | sds p | long n | other id => rfl
  have hroom : 8 ≤ o.room := by
    subst ho
    have hmin := le_minSize key expire
    have halloc := le_allocSize key expire
    show 8 ≤ allocSize key expire - 24
    rw [ROBJ_SIZE] at hmin
    omega
  refine ⟨hvalue, htext, unembedded_expire ho,
    disjoint_of_order (fun r hr => (hregion r hr).1.ge) ?_ ?_,
    (inside_iff hroom).mpr ⟨fun r hr => (hregion r hr).2, ?_⟩⟩ <;> rw [hvalRegion]
  · exact fun r hr => absurd hr (not_mem_none r)
  · exact fun _ _ s hs => absurd hs (not_mem_none s)
  · exact fun r hr => absurd hr (not_mem_none r)

end Unembedded

/-! ### Objects whose value is embedded -/

theorem embKeyOff_expireEnd (hasexpire : Bool) :
    embKeyOff (expireEnd hasexpire) = expireEnd hasexpire + 8 := by
  cases hasexpire <;> rfl

theorem le_alignUp (n : Nat) : n ≤ alignUp n := by
  rw [alignUp]
  omega

theorem embValOff_eq (data : Nat) : embValOff data = alignUp data + 8 := by
  rw [embValOff, if_neg (by omega)]

/-- Nothing before the last four bytes of the gap is written with the key. -/
theorem putEmbKey_apply (hasexpire : Bool) (key : Option (List UInt8)) (payload : Nat → UInt8)
    (hi : i < expireEnd hasexpire + 4) :
    putEmbKey (expireEnd hasexpire) key payload i = payload i := by
  cases key with
  | none => rfl
  | some k =>
    simp only [putEmbKey, embKeyOff_expireEnd, sdsHdrSize]
    rw [writeBytes, if_neg (by omega), writeBytes, if_neg (by omega)]

theorem putEmbKey_at {k : List UInt8} (hk : k.length ≤ 255) (hasexpire : Bool)
    (payload : Nat → UInt8) :
    SdsAt (putEmbKey (expireEnd hasexpire) (some k) payload) (expireEnd hasexpire + 8) .t8
      k.length k := by
  rw [← embKeyOff_expireEnd]
  refine SdsAt.of_write _ _ ?_ hk
  rw [embKeyOff_expireEnd, sdsHdrSize]
  omega

section Embedded

/-- Where the value begins. -/
def valOff (key : Option (List UInt8)) (expire : Int64) : Nat :=
  embValOff (embKeyEnd (expireEnd (decide (expire ≠ EXPIRY_NONE))) key)

variable {heap : Heap} {val : List UInt8} {key : Option (List UInt8)} {expire : Int64}
  (ho : createEmbeddedStringObjectWithKeyAndExpire heap val key expire = o)
include ho

theorem embedded_valOff :
    valOff key expire = alignUp (embKeyEnd (expireEnd o.hasexpire) key) + 8 := by
  subst ho
  exact embValOff_eq _

theorem expireEnd_le_valOff : expireEnd o.hasexpire + 8 ≤ valOff key expire := by
  have hend : expireEnd o.hasexpire ≤ embKeyEnd (expireEnd o.hasexpire) key := by
    cases key with
    | none => exact le_rfl
    | some k =>
      rw [embKeyEnd, embKeyOff_expireEnd]
      omega
  rw [embedded_valOff ho]
  exact Nat.add_le_add_right (hend.trans (le_alignUp _)) 8

/-- Before the header of the value the payload is what the deadline and the key made of it. -/
theorem embedded_payload_apply (hi : i + 3 < valOff key expire) :
    o.payload i = putEmbKey (expireEnd o.hasexpire) key
      (putExpire o.hasexpire expire (zcalloc heap ROBJ_SIZE)) i := by
  subst ho
  show writeBytes _ (valOff key expire - 3) _ i = _
  rw [writeBytes, if_neg (by omega)]
  rfl

theorem embedded_expire : objectGetExpire o = expire := by
  refine expire_of_slot (zcalloc heap ROBJ_SIZE) (fun h => ?_) fun h i hi => ?_
  · subst ho
    exact of_not_not (of_decide_eq_false h)
  · have hoff := expireEnd_le_valOff ho
    have hend : expireEnd true = 8 := rfl
    rw [h] at hoff
    rw [embedded_payload_apply ho (by omega), h]
    exact putEmbKey_apply true key _ (by omega)

theorem embedded_keyed (hkey : ∀ k ∈ key, k.length ≤ 255) :
    ∀ k ∈ key, o.Keyed k ∧ o.keyStart + k.length + 1 ≤ valOff key expire - 5 := by
  rintro k rfl
  have hoff : expireEnd o.hasexpire + 8 + k.length + 1 + 8 ≤ valOff (some k) expire := by
    rw [embedded_valOff ho, embKeyEnd, embKeyOff_expireEnd]
    exact Nat.add_le_add_right (le_alignUp _) 8
  -- the reader looks at the first byte of the gap, which is still zero
  have hzero : o.payload (expireEnd o.hasexpire) = 0 := by
    have hend := expireEnd_le o.hasexpire
    rw [embedded_payload_apply ho (by omega), putEmbKey_apply _ _ _ (by omega),
      putExpire_apply _ _ le_rfl, zcalloc, if_pos]
    rw [SVI_OFFSET, ROBJ_SIZE]
    omega
  have hstart : o.keyStart = expireEnd o.hasexpire + 8 := by
    rw [ServerObject.keyStart, hzero]
    rfl
  have hat : SdsAt o.payload (expireEnd o.hasexpire + 8) .t8 k.length k := by
    have hle : expireEnd o.hasexpire + 8 + k.length + 1 ≤ valOff (some k) expire - 3 := by omega
    subst ho
    exact (putEmbKey_at (hkey k rfl) _ _).write_disjoint (.inl hle)
  exact ⟨⟨ho ▸ rfl, _, _, _, hstart, Nat.add_lt_add_left (by decide) _, hat⟩, by omega⟩

variable (hval : val.length ≤ 255)
include hval

theorem embedded_val_at : SdsAt o.payload (valOff key expire) .t8
    (embValAlloc (valOff key expire) val.length) val := by
  have hoff := expireEnd_le_valOff ho
  subst ho
  exact SdsAt.of_write _ _ (show 3 ≤ valOff key expire by omega) hval

theorem embedded_val : o.value = .str val ∧
    o.valRegion = some ⟨valOff key expire - 3, valOff key expire + val.length + 1⟩ := by
  have hat := embedded_val_at ho hval
  subst ho
  constructor
  · exact congrArg Value.str hat.sdsText_eq
  · exact congrArg (fun n => some (Region.mk (valOff key expire - 3) (valOff key expire + n + 1)))
      hat.sdslen_eq

/-- Everything reads back and nothing overlaps; what can fail is that the value ends in time. -/
theorem embedded_laidOut_iff (hkey : ∀ k ∈ key, k.length ≤ 255) :
    o.LaidOut (.str val) key expire ↔ valOff key expire + val.length + 1 ≤ SVI_PAYLOAD := by
  obtain ⟨hvalue, hvalRegion⟩ := embedded_val ho hval
  have hemb : o.hasembkey = key.isSome := ho ▸ rfl
  obtain ⟨htext, hkeyRegion⟩ := key_of_keyed hemb (embedded_keyed ho hkey)
  have hoff := expireEnd_le_valOff ho
  have hroom : o.room = SVI_PAYLOAD := ho ▸ rfl
  have hinside := inside_iff (o := o) (hroom ▸ by decide)
  rw [hroom] at hinside
  constructor
  · intro h
    exact (hinside.mp (hroom ▸ h.inside)).2 _ hvalRegion
  · intro h
    refine ⟨hvalue, htext, embedded_expire ho, disjoint_of_order ?_ ?_ ?_,
      hroom ▸ hinside.mpr ⟨?_, ?_⟩⟩
    · exact fun r hr => (hkeyRegion r hr).1.ge
    · rw [hvalRegion]
      rintro r hr
      obtain rfl := mem_some_iff.mp hr
      show expireEnd o.hasexpire ≤ valOff key expire - 3
      omega
    · rw [hvalRegion]
      rintro r hr s hs
      obtain rfl := mem_some_iff.mp hs
      have hstop := (hkeyRegion r hr).2
      show r.stop ≤ valOff key expire - 3
      omega
    · intro r hr
      have hstop := (hkeyRegion r hr).2
      omega
    · rw [hvalRegion]
      rintro r hr
      obtain rfl := mem_some_iff.mp hr
      exact h

end Embedded

/-! ### The decision to embed -/

/-- The padding after the key fits: with the slot, the key and the value it takes at most the 214
bytes that the two headers, the two final zeros and the fixed gaps leave. -/
def PaddingFits (valLen : Nat) (key : Option (List UInt8)) (expire : Int64) : Prop :=
  shouldEmbedStringObject valLen key expire = true → ∀ k ∈ key,
    expireEnd (decide (expire ≠ EXPIRY_NONE)) + k.length + valLen + (7 - k.length % 8) ≤ 214

instance (valLen : Nat) (key : Option (List UInt8)) (expire : Int64) :
    Decidable (PaddingFits valLen key expire) :=
  inferInstanceAs (Decidable (_ → _))

variable {valLen : Nat} {expire : Int64}

theorem shouldEmbed_none (h : shouldEmbedStringObject valLen none expire = true) :
    valLen + expireEnd (decide (expire ≠ EXPIRY_NONE)) + 10 ≤ 232 := by
  have hsize := of_decide_eq_false ((Bool.not_eq_true' _).mp h)
  simp only [SVI_PAYLOAD] at hsize
  simp only [expireEnd, decide_eq_true_eq]
  omega

theorem shouldEmbed_some {k : List UInt8}
    (h : shouldEmbedStringObject valLen (some k) expire = true) :
    valLen + expireEnd (decide (expire ≠ EXPIRY_NONE)) + k.length + 22 ≤ 232 := by
  have hsize := of_decide_eq_false ((Bool.not_eq_true' _).mp h)
  simp only [SVI_PAYLOAD] at hsize
  simp only [expireEnd, decide_eq_true_eq]
  omega

theorem expireEnd_mod (hasexpire : Bool) : expireEnd hasexpire % 8 = 0 := by
  cases hasexpire <;> rfl

variable {key : Option (List UInt8)}

variable (h : shouldEmbedStringObject valLen key expire = true)
include h

/-- Where the code embeds, the value ends in time iff the padding fits. -/
theorem valOff_fits_iff :
    valOff key expire + valLen + 1 ≤ SVI_PAYLOAD ↔ PaddingFits valLen key expire := by
  have hmod := expireEnd_mod (decide (expire ≠ EXPIRY_NONE))
  rw [valOff, embValOff_eq, alignUp, PaddingFits, SVI_PAYLOAD]
  cases key with
  | none =>
    have hsize := shouldEmbed_none h
    rw [embKeyEnd]
    exact iff_of_true (by omega) fun _ k hk => absurd hk (not_mem_none k)
  | some k =>
    rw [embKeyEnd, embKeyOff_expireEnd]
    constructor
    · intro hle _ k' hk'
      obtain rfl := mem_some_iff.mp hk'
      omega
    · intro hfits
      have hle := hfits h k rfl
      omega

theorem shouldEmbed_lengths : valLen ≤ 255 ∧ ∀ k ∈ key, k.length ≤ 255 := by
  cases key with
  | none =>
    have hsize := shouldEmbed_none h
    exact ⟨by omega, fun k hk => absurd hk (not_mem_none k)⟩
  | some k =>
    have hsize := shouldEmbed_some h
    refine ⟨by omega, fun k' hk' => ?_⟩
    obtain rfl := mem_some_iff.mp hk'
    omega

omit h

/-! ### The two functions -/

theorem createString_laidOut_iff (heap : Heap) {val : List UInt8} (hval : val.length < 2 ^ 63)
    (hkey : ∀ k ∈ key, k.length < 2 ^ 63) (expire : Int64) :
    ∃ o, createStringObjectWithKeyAndExpire heap val key expire = some o ∧
      (o.LaidOut (.str val) key expire ↔ PaddingFits val.length key expire) := by
  rw [createStringObjectWithKeyAndExpire]
  split_ifs with h
  · obtain ⟨hlen, hkeyLen⟩ := shouldEmbed_lengths h
    exact ⟨_, rfl, (embedded_laidOut_iff rfl hlen hkeyLen).trans (valOff_fits_iff h)⟩
  · obtain ⟨p, hp, htext⟩ := sdsnewlen_reads heap ⟨val, hval⟩
    have hp' : sdsnewlen heap val = some p := hp
    have htext' : p.text = val := htext
    rw [hp']
    refine ⟨_, rfl, iff_of_true ?_ fun hembed => absurd hembed h⟩
    refine unembedded_laidOut rfl (fun k hk => ?_) (fun _ => Ptr.noConfusion) ?_
    · exact lt_trans (hkey k hk) (by decide)
    · exact congrArg Value.str htext'

namespace ServerObject

variable {key : Option (List UInt8)}

/-- The encoding and the clock are not part of the layout. -/
theorem LaidOut.congr {expire : Int64} (encoding : Encoding) (lru : Nat) :
    { o with encoding := encoding, lru := lru }.LaidOut value key expire ↔
      o.LaidOut value key expire :=
  ⟨fun h => ⟨h.value_eq, h.key_eq, h.expire_eq, h.disjoint, h.inside⟩,
    fun h => ⟨h.value_eq, h.key_eq, h.expire_eq, h.disjoint, h.inside⟩⟩

end ServerObject

variable {o : ServerObject}

/-- A value is the pointer's, and the payload's only behind an inner pointer. -/
theorem value_eq_of_ptr {o o' : ServerObject} (hptr : o'.ptr = o.ptr)
    (hinner : ∀ off, o.ptr = .inner off → sdsText o'.payload off = sdsText o.payload off) :
    o'.value = o.value := by
  rw [ServerObject.value, ServerObject.value, objectGetVal, objectGetVal, hptr]
  cases hof : o.ptr with
  | inner off => exact congrArg Value.str (hinner off hof)
  | sds q => rfl
  | long n => rfl
  | other id => rfl

section Pointer

variable (hvalid : o.Valid) (hembstr : ¬(o.type = .string ∧ o.encoding = .embstr))
include hvalid hembstr

theorem ServerObject.Valid.not_inner (off : Nat) : o.ptr ≠ .inner off := by
  intro hptr
  by_cases htype : o.type = .string
  · rcases hvalid.string htype with ⟨henc, -⟩ | ⟨-, p, hp⟩ | ⟨-, n, hn⟩
    · exact hembstr ⟨htype, henc⟩
    · cases hptr.symm.trans hp
    · cases hptr.symm.trans hn
  · obtain ⟨id, hid⟩ := hvalid.other htype
    cases hptr.symm.trans hid

/-- The pointer that the new object gets is the old one, or leads to a copy of the string: the value
is the same. -/
theorem takePtr_spec (heap : Heap) (hshared : o.refcount = 1 ∨ o.type = .string) :
    ∃ ptr, takePtr heap o = some ptr ∧ (∀ off, ptr ≠ .inner off) ∧
      (ptr = o.ptr ∨ o.type = .string ∧ o.encoding = .raw ∧ ∃ p, ptr = .sds p) ∧
      ∀ key expire, (createUnembeddedObjectWithKeyAndExpire heap o.type ptr key expire).value =
        o.value := by
  have hinner := hvalid.not_inner hembstr
  have hsame : ∀ key expire,
      (createUnembeddedObjectWithKeyAndExpire heap o.type o.ptr key expire).value = o.value :=
    fun _ _ => value_eq_of_ptr rfl fun off hptr => absurd hptr (hinner off)
  rw [takePtr]
  split_ifs with hone hint hraw
  · exact ⟨_, rfl, hinner, .inl rfl, hsame⟩
  · exact ⟨_, rfl, hinner, .inl rfl, hsame⟩
  · rcases hvalid.string hraw.1 with ⟨henc, -⟩ | ⟨-, p, hptr⟩ | ⟨henc, -⟩
    · exact absurd ⟨hraw.1, henc⟩ hembstr
    · have hvalue : o.value = .str p.text := by
        rw [ServerObject.value, objectGetVal, hptr]
      obtain ⟨q, hq, htext⟩ := sdsnewlen_reads heap ⟨p.text, hvalid.fits _ hvalue⟩
      have hdup : sdsdup heap p = some q := hq
      simp only [hptr, hdup, map_some]
      exact ⟨_, rfl, fun _ => Ptr.noConfusion, .inr ⟨hraw.1, hraw.2, q, rfl⟩,
        fun _ _ => (congrArg Value.str htext).trans hvalue.symm⟩
    · exact absurd ⟨hraw.1, henc⟩ hint
  · have htype := hshared.resolve_left hone
    rcases hvalid.string htype with ⟨henc, -⟩ | ⟨henc, -⟩ | ⟨henc, -⟩
    · exact absurd ⟨htype, henc⟩ hembstr
    · exact absurd ⟨htype, henc⟩ hraw
    · exact absurd ⟨htype, henc⟩ hint

end Pointer

theorem setKey_laidOut_iff (heap : Heap) (hvalid : o.Valid)
    (hshared : o.refcount = 1 ∨ o.type = .string)
    (hkey : ∀ k ∈ key, k.length < 2 ^ 63) (expire : Int64) :
    ∃ o', objectSetKeyAndExpire heap o key expire = some o' ∧
      (o'.LaidOut o.value key expire ↔ ∀ s, o.type = .string → o.encoding = .embstr →
        o.value = .str s → PaddingFits s.length key expire) := by
  rw [objectSetKeyAndExpire]
  split_ifs with h
  · obtain ⟨off, hptr, hvalue⟩ := hvalid.embedded h
    obtain ⟨new, hnew, hiff⟩ :=
      createString_laidOut_iff heap (hvalid.fits _ hvalue) hkey expire
    simp only [hvalue, hnew, map_some]
    refine ⟨_, rfl, (ServerObject.LaidOut.congr new.encoding o.lru).trans (hiff.trans ?_)⟩
    constructor
    · rintro hfits s - - hs
      rwa [← Value.str.inj hs]
    · intro hfits
      exact hfits _ h.1 h.2 rfl
  · obtain ⟨ptr, hptr, hinner, -, hvalue⟩ := takePtr_spec hvalid h heap hshared
    rw [hptr]
    refine ⟨_, rfl, iff_of_true ?_ fun s htype henc _ => absurd ⟨htype, henc⟩ h⟩
    refine (ServerObject.LaidOut.congr o.encoding o.lru).mpr ?_
    exact unembedded_laidOut rfl (fun k hk => lt_trans (hkey k hk) (by decide)) hinner
      (hvalue key expire)

/-- A string that was created is a valid object, so that `objectSetKeyAndExpire` can follow. -/
theorem createString_valid (heap : Heap) {val : List UInt8} (hval : val.length < 2 ^ 63)
    {expire : Int64} (ho : createStringObjectWithKeyAndExpire heap val key expire = some o) :
    o.Valid ∧ o.refcount = 1 ∧ o.value = .str val := by
  rw [createStringObjectWithKeyAndExpire] at ho
  split_ifs at ho with h
  · have hvalue := (embedded_val (some.inj ho) (shouldEmbed_lengths h).1).1
    obtain rfl := some.inj ho
    refine ⟨⟨fun _ => .inl ⟨rfl, _, rfl⟩, absurd rfl, fun s hs => ?_⟩, rfl, hvalue⟩
    rwa [← Value.str.inj (hvalue.symm.trans hs)]
  · obtain ⟨p, hp, rfl⟩ := map_eq_some_iff.mp ho
    obtain ⟨q, hq, htext⟩ := sdsnewlen_reads heap ⟨val, hval⟩
    obtain rfl : q = p := mem_unique hq hp
    have hvalue : (createUnembeddedObjectWithKeyAndExpire heap .string (.sds q) key expire).value =
        .str val := congrArg Value.str htext
    refine ⟨⟨fun _ => .inr (.inl ⟨rfl, _, rfl⟩), absurd rfl, fun s hs => ?_⟩, rfl,
      hvalue⟩
    rwa [← Value.str.inj (hvalue.symm.trans hs)]

/-- The bytes of a key. -/
def keyBytes (key : Option Text) : Option (List UInt8) := key.map SizedBytes.bytes

theorem keyBytes_lt (key : Option Text) : ∀ k ∈ keyBytes key, k.length < 2 ^ 63 := by
  intro k hk
  obtain ⟨t, -, rfl⟩ := map_eq_some_iff.mp hk
  exact t.len_lt

/-- **Layout.**  Strings and objects that get a key and a deadline read back and lie in their
allocation, iff the padding after the key fits wherever the value is embedded.  A value that is not
a string and that others refer to cannot be given a key: there the server stops. -/
theorem object_layout_iff (heap : Heap) (key : Option Text) (expire : Int64) :
    (∀ val : Text, ∃ o,
      createStringObjectWithKeyAndExpire heap val.bytes (keyBytes key) expire = some o ∧
        (o.LaidOut (.str val.bytes) (keyBytes key) expire ↔
          PaddingFits val.len (keyBytes key) expire)) ∧
    ∀ o : ServerObject, o.Valid → (o.refcount = 1 ∨ o.type = .string) → ∃ o',
      objectSetKeyAndExpire heap o (keyBytes key) expire = some o' ∧
        (o'.LaidOut o.value (keyBytes key) expire ↔ ∀ s, o.type = .string → o.encoding = .embstr →
          o.value = .str s → PaddingFits s.length (keyBytes key) expire) := by
  constructor
  · intro val
    exact createString_laidOut_iff heap val.len_lt (keyBytes_lt key) expire
  · intro o hvalid hshared
    exact setKey_laidOut_iff heap hvalid hshared (keyBytes_lt key) expire

/-- An allocator that gives exactly what it is asked for. -/
def Heap.exact : Heap := ⟨id, fun _ => le_rfl, fun _ h => h, fun _ => 0⟩

/-- A key of three bytes and a deadline, given to a string of four bytes. -/
theorem object_layout_iff_four :
    ∃ o o', createStringObjectWithKeyAndExpire .exact [1, 2, 3, 4] none EXPIRY_NONE = some o ∧
      o.LaidOut (.str [1, 2, 3, 4]) none EXPIRY_NONE ∧
      objectSetKeyAndExpire .exact o (some [5, 6, 7]) 1000 = some o' ∧
      o'.LaidOut (.str [1, 2, 3, 4]) (some [5, 6, 7]) 1000 := by
  obtain ⟨o, ho, hiff⟩ := (object_layout_iff .exact none EXPIRY_NONE).1 ⟨[1, 2, 3, 4], by decide⟩
  obtain ⟨hvalid, href, hvalue⟩ := createString_valid .exact
    (show ([1, 2, 3, 4] : List UInt8).length < 2 ^ 63 by decide) ho
  obtain ⟨o', ho', hiff'⟩ :=
    (object_layout_iff .exact (some ⟨[5, 6, 7], by decide⟩) 1000).2 o hvalid (.inl href)
  rw [hvalue] at hiff'
  refine ⟨o, o', ho, hiff.mpr (by decide), ho', hiff'.mpr ?_⟩
  rintro s - - hs
  rw [← Value.str.inj hs]
  decide

/-- A key of 8 bytes, a deadline and a value of 194 bytes: the value ends three bytes after the
object. -/
theorem value_ends_past_object :
    ∃ o, createStringObjectWithKeyAndExpire .exact (replicate 194 118)
        (some (replicate 8 107)) 1000 = some o ∧
      o.valRegion = some ⟨37, 235⟩ ∧ o.room = 232 ∧ SVI_OFFSET + 235 = o.size + 3 ∧
      ¬o.LaidOut (.str (replicate 194 118)) (some (replicate 8 107)) 1000 := by
  have heval : (createStringObjectWithKeyAndExpire .exact (replicate 194 118)
      (some (replicate 8 107)) 1000).map (fun o => (o.valRegion, o.room, o.size)) =
      some (some ⟨37, 235⟩, 232, 256) := by decide +kernel
  obtain ⟨o, ho, hparts⟩ := map_eq_some_iff.mp heval
  obtain ⟨hval, hroom, hsize⟩ : o.valRegion = some ⟨37, 235⟩ ∧ o.room = 232 ∧ o.size = 256 := by
    simpa only [Prod.mk.injEq] using hparts
  refine ⟨o, ho, hval, hroom, by rw [hsize]; rfl, fun h => ?_⟩
  have hle := h.inside ⟨37, 235⟩ (by simp [ServerObject.regions, hval])
  rw [hroom] at hle
  exact absurd hle (by decide)

end NexCache.Object
