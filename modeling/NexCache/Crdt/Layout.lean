import NexCache.Lib.Buffer
import NexCache.Crdt.Lww

/-!
# The stored bytes

The store keeps a counter or a register as the bytes of its `struct`, and a set in the
format of `orset_serialize`: the count, the next tag cut to 32 bits, and the array of
entries.  The layout is that of the 64-bit Linux ABI; padding is written as zero.

The functions of `crdt.c` trust the node counts they find.  Where bytes of another type
are read as a counter, an index may lie outside the array; the versions below that return
an `Option` answer `none` there.
-/

namespace NexCache.Crdt

open Machine Buffer List

/-! ### Counters -/

/-- `sizeof(GCounter)`. -/
def GCOUNTER_SIZE : Nat := 1032

/-- `sizeof(PNCounter)`. -/
def PNCOUNTER_SIZE : Nat := 2056

/-- An array of `CRDT_MAX_NODES` words. -/
def nodesBytes (values : Nat → Nat) : List UInt8 :=
  (List.range CRDT_MAX_NODES).flatMap fun i => toLE 8 (values i)

def gcounterBytes (g : GCounter) : List UInt8 :=
  nodesBytes g.values ++ (toLE 4 g.numNodes ++ toLE 4 g.selfNode)

def gcounterOf (bs : List UInt8) : GCounter :=
  ⟨fun i => wordAt bs (8 * i) 8, wordAt bs 1024 4, wordAt bs 1028 4⟩

def pncounterBytes (p : PNCounter) : List UInt8 :=
  nodesBytes p.positive ++ (nodesBytes p.negative ++ (toLE 4 p.numNodes ++ toLE 4 p.selfNode))

def pncounterOf (bs : List UInt8) : PNCounter :=
  ⟨fun i => wordAt bs (8 * i) 8, fun i => wordAt bs (1024 + 8 * i) 8, wordAt bs 2048 4,
    wordAt bs 2052 4⟩

/-- An increment at the own node writes into the array. -/
def NodeInside (numNodes selfNode : Nat) : Prop :=
  selfNode < numNodes → selfNode < CRDT_MAX_NODES

instance (numNodes selfNode : Nat) : Decidable (NodeInside numNodes selfNode) :=
  inferInstanceAs (Decidable (_ → _))

/-- The rounds of `for (int i = 0; i < num_nodes; i++)`; `none` if they leave the array. -/
def nodeRounds (numNodes : Nat) : Option Nat :=
  if 2 ^ 31 ≤ numNodes then some 0
  else if CRDT_MAX_NODES < numNodes then none
  else some numNodes

/-- `gcounter_increment` on whatever `memcpy` has left in the counter. -/
def gcounterIncrementRaw (g : GCounter) (delta : Nat) : Option GCounter :=
  if NodeInside g.numNodes g.selfNode then some (gcounterIncrement g delta) else none

def gcounterValueRaw (g : GCounter) : Option Nat :=
  (nodeRounds g.numNodes).map fun n => gcounterValue { g with numNodes := n }

/-- The negation of `INT64_MIN` overflows. -/
def pncounterAddRaw (p : PNCounter) (delta : BitVec 64) : Option PNCounter :=
  if NodeInside p.numNodes p.selfNode then
    if 0 ≤ delta.toInt then some (pncounterIncrement p delta.toNat)
    else if delta.toInt = -2 ^ 63 then none
    else some (pncounterDecrement p (-delta.toInt).toNat)
  else none

def pncounterValueRaw (p : PNCounter) : Option Int :=
  (nodeRounds p.numNodes).bind fun n => pncounterValue { p with numNodes := n }

theorem length_nodesBytes (values : Nat → Nat) : (nodesBytes values).length = 1024 := by
  rw [nodesBytes, length_flatMap_of fun i _ => length_toLE 8 (values i), length_range]
  rfl

theorem length_gcounterBytes (g : GCounter) : (gcounterBytes g).length = GCOUNTER_SIZE := by
  simp only [gcounterBytes, length_append, length_nodesBytes, length_toLE, GCOUNTER_SIZE]

theorem length_pncounterBytes (p : PNCounter) : (pncounterBytes p).length = PNCOUNTER_SIZE := by
  simp only [pncounterBytes, length_append, length_nodesBytes, length_toLE, PNCOUNTER_SIZE]

/-! ### Registers -/

/-- `sizeof(LWWRegister)`; the last 40 bytes are the mutex. -/
def LWW_SIZE : Nat := 2120

def lwwOf (bs : List UInt8) : LWWRegister :=
  ⟨bs.take (wordAt bs 1024 2), wordAt bs 1032 8, wordAt bs 1040 4,
    ⟨fun i => wordAt bs (1048 + 8 * i) 8, wordAt bs 2072 4⟩⟩

/-- The fields of `r` written over the bytes of a register: what `memcpy` does not reach
keeps its contents. -/
def lwwBytes (bs : List UInt8) (r : LWWRegister) : List UInt8 :=
  let bs := overwrite bs 0 r.value
  let bs := overwrite bs 1024 (toLE 2 r.value.length)
  let bs := overwrite bs 1032 (toLE 8 r.timestampUs)
  let bs := overwrite bs 1040 (toLE 4 r.nodeId)
  overwrite bs 1048 (nodesBytes r.vc.clocks)

/-- A mutex that is all zero is free, and is so again after a lock and an unlock. -/
def MutexFree (bs : List UInt8) : Prop := ∀ b ∈ (bs.drop 2080).take 40, b = 0

instance (bs : List UInt8) : Decidable (MutexFree bs) :=
  inferInstanceAs (Decidable (∀ b ∈ _, b = 0))

/-- `lww_set` on the bytes of a register: `none` if the mutex is not free or the clock of
the node lies outside the array. -/
def lwwSetRaw (bs : List UInt8) (value : Member) (now : Nat) : Option (List UInt8) :=
  let r := lwwOf bs
  let (r', rc) := lwwSet r value now
  if rc = -1 then some bs
  else if MutexFree bs ∧ NodeInside r.vc.numNodes r.nodeId then some (lwwBytes bs r')
  else none

theorem length_lwwBytes {bs : List UInt8} (hbs : bs.length = LWW_SIZE) {r : LWWRegister}
    (hr : r.value.length ≤ 1023) : (lwwBytes bs r).length = LWW_SIZE := by
  rw [LWW_SIZE] at hbs ⊢
  refine length_overwrite (length_overwrite (length_overwrite (length_overwrite (length_overwrite
    hbs ?_) ?_) ?_) ?_) ?_
  · omega
  iterate 3 rw [length_toLE]; omega
  · rw [length_nodesBytes]; omega

theorem length_lwwSetRaw {bs bs' : List UInt8} (hbs : bs.length = LWW_SIZE) {value : Member}
    {now : Nat} (hset : lwwSetRaw bs value now = some bs') : bs'.length = LWW_SIZE := by
  rw [lwwSetRaw, lwwSet] at hset
  by_cases hrefused : value.len = 0 ∨ value.len > 1023
  · rw [if_pos hrefused] at hset
    obtain rfl := Option.some.inj hset
    exact hbs
  · rw [if_neg hrefused] at hset
    simp only [if_neg (show ¬ (0 : Int) = -1 by decide)] at hset
    split at hset
    · obtain rfl := Option.some.inj hset
      refine length_lwwBytes hbs ?_
      show value.len ≤ 1023
      omega
    · cases hset

/-- `lww_get` into a buffer of `bufLen` bytes. -/
def lwwGet (r : LWWRegister) (bufLen : Nat) : List UInt8 := r.value.take bufLen

/-! ### Sets -/

/-- `sizeof(ORSetEntry)`. -/
def ORSET_ENTRY_SIZE : Nat := 280

def orsetEntryBytes (e : ORSetEntry) : List UInt8 :=
  e.value ++ (toLE 2 e.valueLen ++ (List.replicate 6 0 ++
    (toLE 8 e.addTag ++ (toLE 4 e.originNode ++ (toLE 4 e.isRemoved ++ [])))))

def orsetEntryOf (bs : List UInt8) : ORSetEntry :=
  ⟨bs.take 256, wordAt bs 256 2, wordAt bs 264 8, wordAt bs 272 4, wordAt bs 276 4⟩

def orsetSerializedSize (s : ORSet) : Nat := 8 + ORSET_ENTRY_SIZE * s.entries.length

def orsetSerialize (s : ORSet) : List UInt8 :=
  toLE 4 s.entries.length ++ (toLE 4 (u32 s.nextTag) ++ s.entries.flatMap orsetEntryBytes)

/-- A buffer that is too short for its count gives an empty set. -/
def orsetDeserialize (bs : List UInt8) (selfNodeId : Nat) : ORSet :=
  if bs.length < 8 then orsetCreate selfNodeId
  else
    let count := wordAt bs 0 4
    let nextTag := wordAt bs 4 4
    if bs.length < 8 + ORSET_ENTRY_SIZE * count then orsetCreate selfNodeId
    else
      ⟨(slices ORSET_ENTRY_SIZE count (bs.drop 8)).map orsetEntryOf,
        if count > 0 then count else 1, nextTag, selfNodeId⟩

/-- The fields fit their types. -/
structure ORSetEntry.Fits (e : ORSetEntry) : Prop where
  value : e.value.length = 256
  valueLen : e.valueLen < 2 ^ 16
  addTag : e.addTag < 2 ^ 64
  originNode : e.originNode < 2 ^ 32
  isRemoved : e.isRemoved < 2 ^ 32

theorem ORSetEntry.Fits.length {e : ORSetEntry} (h : e.Fits) :
    (orsetEntryBytes e).length = ORSET_ENTRY_SIZE := by
  simp only [orsetEntryBytes, length_append, length_toLE, length_replicate, h.value,
    length_nil, ORSET_ENTRY_SIZE]

theorem ORSetEntry.Fits.of_bytes {e : ORSetEntry} (h : e.Fits) :
    orsetEntryOf (orsetEntryBytes e) = e := by
  have hlen := h.value
  have hvalue : (orsetEntryBytes e).take 256 = e.value := take_left' hlen
  have hvalueLen : wordAt (orsetEntryBytes e) 256 2 = e.valueLen :=
    wordAt_append _ hlen (by have := h.valueLen; omega) _
  -- each later field is read behind everything before it
  have htag : wordAt (orsetEntryBytes e) 264 8 = e.addTag := by
    rw [orsetEntryBytes, ← append_assoc, ← append_assoc]
    exact wordAt_append _ (by simp [hlen, length_toLE]) (by have := h.addTag; omega) _
  have horigin : wordAt (orsetEntryBytes e) 272 4 = e.originNode := by
    rw [orsetEntryBytes, ← append_assoc, ← append_assoc, ← append_assoc]
    exact wordAt_append _ (by simp [hlen, length_toLE]) (by have := h.originNode; omega) _
  have hremoved : wordAt (orsetEntryBytes e) 276 4 = e.isRemoved := by
    rw [orsetEntryBytes, ← append_assoc, ← append_assoc, ← append_assoc,
      ← append_assoc]
    exact wordAt_append _ (by simp [hlen, length_toLE]) (by have := h.isRemoved; omega) _
  rw [orsetEntryOf, hvalue, hvalueLen, htag, horigin, hremoved]

theorem length_orsetSerialize {s : ORSet} (h : ∀ e ∈ s.entries, e.Fits) :
    (orsetSerialize s).length = orsetSerializedSize s := by
  rw [orsetSerialize, length_append, length_append, length_toLE, length_toLE,
    length_flatMap_of fun e he => (h e he).length, orsetSerializedSize]
  omega

/-- **What `orset_serialize` writes, `orset_deserialize` reads**, but for the capacity, the
high half of the next tag and the node. -/
theorem orsetDeserialize_serialize {s : ORSet} (h : ∀ e ∈ s.entries, e.Fits)
    (hcount : s.entries.length < 2 ^ 32) (node : Nat) :
    orsetDeserialize (orsetSerialize s) node
      = ⟨s.entries, if s.entries.length > 0 then s.entries.length else 1, u32 s.nextTag, node⟩ := by
  have hlen := length_orsetSerialize h
  rw [orsetSerializedSize] at hlen
  have hword : wordAt (orsetSerialize s) 0 4 = s.entries.length :=
    wordAt_append [] rfl (by omega) _
  have htag : wordAt (orsetSerialize s) 4 4 = u32 s.nextTag :=
    wordAt_append _ (length_toLE 4 _) (by have := u32_lt s.nextTag; omega) _
  have hrest : (orsetSerialize s).drop 8 = s.entries.flatMap orsetEntryBytes := by
    rw [orsetSerialize, ← append_assoc]
    exact drop_left' (by simp [length_toLE])
  have hentries : (slices ORSET_ENTRY_SIZE s.entries.length
      (s.entries.flatMap orsetEntryBytes)).map orsetEntryOf = s.entries := by
    rw [slices_flatMap fun e he => (h e he).length, map_map]
    exact (map_congr_left fun e he => (h e he).of_bytes).trans (map_id _)
  rw [orsetDeserialize, if_neg (by omega)]
  simp only [hword, htag]
  rw [if_neg (by omega), hrest, hentries]

end NexCache.Crdt
