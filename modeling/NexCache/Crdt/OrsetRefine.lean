import NexCache.Crdt.Commands

/-!
# The set commands refine a set

`SetStep` is the mathematical set of byte strings that `ORSET.ADD`, `ORSET.REMOVE` and
`ORSET.MEMBERS` on one key are to keep.  They keep it in every run that stays within
`OrsetSafe`: members of at most 255 bytes, none added while it is present, none removed
whose length the cast to 16 bits changes into that of a member, and no listing of a value
that does not fit the read buffer.
-/

namespace NexCache.Crdt

open Machine Storage Runs SizedBytes List Nat

/-! ### Members -/

/-- The stored entries are well formed, and the members are those of `M`, once each. -/
structure ORSet.Holds (s : ORSet) (M : Finset (List UInt8)) : Prop where
  fits : ∀ e ∈ s.entries, e.Fits
  short : ∀ e ∈ s.entries, e.valueLen ≤ 255
  nodup : s.members.Nodup
  members : s.members.toFinset = M

section Members

variable {s : ORSet} {M : Finset (List UInt8)} {v : Member}

variable (h : s.Holds M) {es : List ORSetEntry}
include h

theorem ORSet.Holds.ok : ∀ e ∈ s.entries, e.Ok :=
  fun e he => ⟨(h.fits e he).value, h.short e he⟩

theorem ORSet.Holds.mem_iff {b : List UInt8} : b ∈ M ↔ b ∈ s.members := by
  rw [← h.members, mem_toFinset]

theorem ORSet.Holds.length_le {b : List UInt8} (hb : b ∈ s.members) : b.length ≤ 255 := by
  obtain ⟨e, he, rfl⟩ := mem_map.mp hb
  exact (length_take_le _ _).trans (h.short e (mem_filter.mp he).1)

/-- What a set holds depends on its entries only. -/
theorem ORSet.Holds.congr {s' : ORSet} (heq : s'.entries = s.entries) : s'.Holds M := by
  refine ⟨heq ▸ h.fits, heq ▸ h.short, ?_, ?_⟩
  · rw [ORSet.members, heq]
    exact h.nodup
  · rw [ORSet.members, heq]
    exact h.members

omit h

theorem holds_create (node : Nat) : (orsetCreate node).Holds ∅ :=
  ⟨by simp [orsetCreate], by simp [orsetCreate], nodup_nil, rfl⟩

/-- A remove takes its value out of the members. -/
theorem members_kill (hok : ∀ e ∈ es, e.Ok) :
    ((es.map (ORSetEntry.kill v)).filter fun e => e.isRemoved = 0).map ORSetEntry.member
      = ((es.filter fun e => e.isRemoved = 0).map ORSetEntry.member).filter (· ≠ v.bytes) := by
  induction es with
  | nil => rfl
  | cons e es ih =>
    have hrest := ih fun e' he' => hok e' (by simp [he'])
    have hkill := (hok e (by simp)).removed_kill v
    by_cases hlive : e.isRemoved = 0
    · by_cases hmember : e.member = v.bytes
      · have hdead : (e.kill v).isRemoved ≠ 0 := hkill.mpr (.inr hmember)
        simp [hlive, hdead, hmember, hrest]
      · have hkept : (e.kill v).isRemoved = 0 := by
          by_contra hne
          exact (hkill.mp hne).elim (· hlive) hmember
        simp [hlive, hkept, hmember, hrest]
    · have hdead : (e.kill v).isRemoved ≠ 0 := hkill.mpr (.inl hlive)
      simp [hlive, hdead, hrest]

theorem any_matches_iff (hok : ∀ e ∈ es, e.Ok) :
    (es.any fun e => e.Matches v) = true
      ↔ v.bytes ∈ (es.filter fun e => e.isRemoved = 0).map ORSetEntry.member := by
  simp only [any_eq_true, decide_eq_true_eq, mem_map, mem_filter]
  constructor
  · rintro ⟨e, he, hmatch⟩
    obtain ⟨hlive, hmember⟩ := (hok e he).matches_iff.mp hmatch
    exact ⟨e, ⟨he, hlive⟩, hmember⟩
  · rintro ⟨e, ⟨he, hlive⟩, hmember⟩
    exact ⟨e, he, (hok e he).matches_iff.mpr ⟨hlive, hmember⟩⟩

/-- **`orset_remove` on a stored set.** -/
theorem ORSet.Holds.remove (h : s.Holds M) (hv : v.len ≠ 0) :
    (orsetRemove s v).1.Holds (M.erase v.bytes) ∧
      (orsetRemove s v).2 = if v.bytes ∈ M then 1 else 0 := by
  rw [orsetRemove, if_neg hv]
  have hmembers := members_kill (v := v) h.ok
  refine ⟨⟨?_, ?_, ?_, ?_⟩, ?_⟩
  · intro e he
    obtain ⟨e₀, he₀, rfl⟩ := mem_map.mp he
    have hfits := h.fits e₀ he₀
    rw [ORSetEntry.kill]
    split
    · exact ⟨hfits.value, hfits.valueLen, hfits.addTag, hfits.originNode,
        Nat.one_lt_two_pow (by decide)⟩
    · exact hfits
  · intro e he
    obtain ⟨e₀, he₀, rfl⟩ := mem_map.mp he
    exact ((h.ok e₀ he₀).kill v).2
  · rw [ORSet.members, hmembers]
    exact h.nodup.filter _
  · rw [ORSet.members, hmembers, ← h.members, ← Finset.filter_ne', toFinset_filter]
    simp [ORSet.members]
  · refine if_congr ?_ rfl rfl
    rw [any_matches_iff h.ok, h.mem_iff]
    rfl

/-- **`orset_add` of a member that is absent.** -/
theorem ORSet.Holds.add (h : s.Holds M) (hacc : v.Accepted) (hnew : v.bytes ∉ M)
    (htag : s.nextTag < 2 ^ 64) (hself : s.selfNode < 2 ^ 32) {cap : Nat}
    (hcap : orsetReserve s = some (some cap)) :
    ∃ s', orsetAdd s v = some (some s', 0) ∧ s'.Holds (insert v.bytes M) ∧
      orsetSerializedSize s' = orsetSerializedSize s + ORSET_ENTRY_SIZE := by
  have hok := orsetEntry_ok s hacc
  have hlive : (orsetEntry s v).isRemoved = 0 := rfl
  refine ⟨_, by rw [orsetAdd, if_neg hacc, hcap]; rfl, ⟨?_, ?_, ?_, ?_⟩, ?_⟩
  · exact forall_mem_append.mpr ⟨h.fits, forall_mem_singleton.mpr
      ⟨hok.1, v.len_lt, htag, hself, Nat.two_pow_pos 32⟩⟩
  · exact forall_mem_append.mpr ⟨h.short, forall_mem_singleton.mpr hok.2⟩
  · rw [ORSet.members, filter_append, map_append]
    refine h.nodup.append (by simp [hlive]) ?_
    simp only [hlive, decide_true, filter_cons_of_pos, filter_nil, map_cons,
      map_nil, member_orsetEntry]
    exact fun b hb hb' => hnew (h.mem_iff.mpr (mem_singleton.mp hb' ▸ hb))
  · rw [ORSet.members, filter_append, map_append, toFinset_append]
    simp only [hlive, decide_true, filter_cons_of_pos, filter_nil, map_cons,
      map_nil, member_orsetEntry, toFinset_cons, toFinset_nil, insert_empty_eq]
    have hM := h.members
    rw [ORSet.members] at hM
    rw [hM, Finset.union_comm, ← Finset.insert_eq]
  · rw [orsetSerializedSize, orsetSerializedSize, length_append, length_singleton,
      mul_succ, add_assoc]

end Members

/-! ### Stored sets -/

/-- What the object store holds for a key whose set is `M`: nothing, or the bytes of a set
without expiry. -/
def OrsetAt (M : Finset (List UInt8)) : Option Held → Prop
  | none => M = ∅
  | some h => h.deadline = 0 ∧ h.val.expireUs < 0 ∧ h.val.type = .crdt ∧
      ∃ s : ORSet, h.val.data.bytes = orsetSerialize s ∧ s.Holds M

/-- A set as a command finds it: it holds `M` and can grow. -/
structure Loaded (node : Nat) (s : ORSet) (M : Finset (List UInt8)) : Prop where
  holds : s.Holds M
  grows : ∃ cap, orsetReserve s = some (some cap)
  size_lt : orsetSerializedSize s < 2 ^ 32
  tag_lt : s.nextTag < 2 ^ 64
  self_eq : s.selfNode = node

theorem loaded_create (node : Nat) : Loaded node (orsetCreate node) ∅ :=
  ⟨holds_create node, ⟨64, rfl⟩, by simp [orsetSerializedSize, orsetCreate],
    Nat.one_lt_two_pow (by decide), rfl⟩

variable {s : ORSet}

theorem loaded_deserialize {M : Finset (List UInt8)} (h : s.Holds M) (node : Nat)
    (hsize : orsetSerializedSize s < 2 ^ 32) :
    Loaded node (orsetDeserialize (orsetSerialize s) node) M ∧
      orsetSerializedSize (orsetDeserialize (orsetSerialize s) node)
        = (orsetSerialize s).length := by
  have hsize' := hsize
  rw [orsetSerializedSize, ORSET_ENTRY_SIZE] at hsize'
  rw [orsetDeserialize_serialize h.fits (by omega) node, length_orsetSerialize h.fits]
  refine ⟨⟨h.congr rfl, ?_, hsize, lt_trans (u32_lt _) (by decide), rfl⟩, rfl⟩
  by_cases hempty : s.entries.length > 0
  · refine ⟨u32 (s.entries.length * 2), ?_⟩
    rw [orsetReserve, if_pos (by simp [hempty])]
    simp only [if_pos hempty]
    rw [u32_of_lt (by omega), if_neg (by omega), if_pos (by omega)]
  · refine ⟨1, ?_⟩
    have hzero : s.entries.length = 0 := by omega
    simp [orsetReserve, hzero]

section Stored

variable {M : Finset (List UInt8)} {b : NdBackend} {key : NexDash.Key}

theorem OrsetAt.liveAt (h : OrsetAt M (ndView b key)) (now : Nat) :
    HeldMap.liveAt (ndView b) now key = ndView b key := by
  rw [HeldMap.liveAt]
  cases hview : ndView b key with
  | none => rfl
  | some s =>
    rw [hview] at h
    rw [Option.filter_some, if_pos]
    simp [Held.expired, h.1]

theorem OrsetAt.drops (h : OrsetAt M (ndView b key)) {now : Nat} {m' : HeldMap}
    (hdrops : (ndView b).Drops now m') : m' key = ndView b key := by
  rcases hdrops key with heq | ⟨_, s, hs, hexp⟩
  · exact heq
  · rw [hs] at h
    simp [Held.expired, h.1] at hexp

/-- The set that a stored value is read as. -/
theorem OrsetAt.load {held : Held} (h : OrsetAt M (some held)) (node : Nat) :
    Loaded node (orsetDeserialize held.val.data.bytes node) M ∧
      orsetSerializedSize (orsetDeserialize held.val.data.bytes node) = held.val.data.len := by
  obtain ⟨_, _, _, s, hbytes, hholds⟩ := h
  have hsize : orsetSerializedSize s < 2 ^ 32 := by
    rw [← length_orsetSerialize hholds.fits, ← hbytes]
    exact held.val.data.len_lt
  rw [len, hbytes]
  exact loaded_deserialize hholds node hsize

theorem OrsetAt.entry (h : OrsetAt M (ndView b key)) (env : Env) (node : Nat) :
    (rmwEntry b env key).ttlMs = -1 ∧ Loaded node (orsetLoad node (rmwEntry b env key)) M ∧
      ((rmwEntry b env key).type = .crdt ∨ M = ∅) := by
  rw [rmwEntry, h.liveAt]
  cases hview : ndView b key with
  | none =>
    rw [hview] at h
    obtain rfl : M = ∅ := h
    exact ⟨rfl, loaded_create node, .inr rfl⟩
  | some held =>
    rw [hview] at h
    obtain ⟨_, hexpire, htype, _⟩ := id h
    refine ⟨?_, ?_, .inl htype⟩
    · show ndTtlMs held.val.expireUs env.now = -1
      rw [ndTtlMs, if_pos hexpire]
    · show Loaded node (if held.val.type = .crdt then orsetDeserialize held.val.data.bytes node
        else orsetCreate node) M
      rw [if_pos htype]
      exact (h.load node).1

/-- What a callback writes back. -/
theorem orsetAt_stored (h : s.Holds M) (hsize : orsetSerializedSize s < 2 ^ 32)
    {existing : NexEntry} (httl : existing.ttlMs = -1) (now : Nat) :
    OrsetAt M (some (storedAt now (crdtEntry existing (orsetSerialize s)).value
      (crdtEntry existing (orsetSerialize s)).type
      (crdtEntry existing (orsetSerialize s)).ttlMs)) := by
  have hneg : (crdtEntry existing (orsetSerialize s)).ttlMs < 0 := by
    show existing.ttlMs < 0
    rw [httl]
    decide
  refine ⟨?_, ?_, rfl, s, bytes_ofList ?_, h⟩
  · simp only [storedAt, ndExpireArg, if_neg (not_le.mpr hneg)]
    rfl
  · simp only [storedAt, ndExpireUs, if_neg (not_le.mpr hneg)]
    decide
  · rw [length_orsetSerialize h.fits]
    exact hsize

end Stored

/-! ### Commands -/

/-- The set that a command finds under its key. -/
def orsetSeen (node : Nat) (ns : ServerStore) (e : CrdtEvent) : ORSet :=
  ((rmwSees ns.objectBackend e.env e.key).map (orsetLoad node)).getD (orsetCreate node)

/-- A set command on `key`, with a member that is not empty. -/
def CrdtEvent.OnSet (key : Bytes) (e : CrdtEvent) : Prop :=
  e.key = key ∧ match e.cmd with
    | .orsetAdd val => val ≠ []
    | .orsetRemove val => val ≠ []
    | .orsetMembers => True
    | _ => False

/-- **The condition on a command.**  An add is of an absent member of at most 255 bytes,
and the set with it can be stored.  A remove is of a value that the cast of its length
leaves alone, or turns into one that is not a member.  A listing is of a value that the
read buffer can take, under a key that the table can hold. -/
def OrsetSafe (node : Fin CRDT_MAX_NODES) (ns : ServerStore) (e : CrdtEvent) : Prop :=
  match e.cmd with
  | .orsetAdd val => val.length ≤ 255 ∧ val ∉ (orsetSeen node ns e).members ∧
      orsetSerializedSize (orsetSeen node ns e) + ORSET_ENTRY_SIZE < 2 ^ 32 ∧
      PoolFits ns.objectBackend e.env e.key
  | .orsetRemove val => (SizedBytes.ofList 16 val).bytes = val ∨
      (SizedBytes.ofList 16 val).bytes ∉ (orsetSeen node ns e).members
  | .orsetMembers => e.key.len ≤ ND_MAX_KEY_LEN ∧
      orsetSerializedSize (orsetSeen node ns e) ≤ ND_BUF_LEN
  | _ => True

/-- **The set.**  An add replies `1` and inserts, or replies an error and does nothing; a
remove replies `1` and erases iff the member is there; a listing has every member once. -/
def SetStep (M : Finset (List UInt8)) (e : CrdtEvent) (r : CrdtReply) (M' : Finset (List UInt8)) :
    Prop :=
  match e.cmd with
  | .orsetAdd val => (r = .int 1 ∧ M' = insert val M) ∨ ((∃ text, r = .error text) ∧ M' = M)
  | .orsetRemove val => if val ∈ M then r = .int 1 ∧ M' = M.erase val else r ≠ .int 1 ∧ M' = M
  | .orsetMembers => ∃ items, r = .array items ∧ items.Nodup ∧ items.toFinset = M ∧ M' = M
  | _ => True

/-- The store keeps `M` under the key.  Under a key that is too long for the table it keeps
nothing. -/
structure OrsetInv (key : Bytes) (ns : ServerStore) (M : Finset (List UInt8)) : Prop where
  own : Owned ns.objectBackend
  main : key.len ≤ ND_MAX_KEY_LEN → MainLacks ns.mainBackend key
  stored : key.len ≤ ND_MAX_KEY_LEN → OrsetAt M (ndView ns.objectBackend (key.cut 8))
  long : ND_MAX_KEY_LEN < key.len → M = ∅

section Commands

variable {key : Bytes} {ns : ServerStore} {M : Finset (List UInt8)} {env : Env} {node : Nat}

variable (h : OrsetInv key ns M)
include h

theorem OrsetInv.seen_eq (hlen : key.len ≤ ND_MAX_KEY_LEN)
    (cmd : CrdtCommand) : orsetSeen node ns ⟨env, key, cmd⟩
      = orsetLoad node (rmwEntry ns.objectBackend env (key.cut 8)) := by
  rw [orsetSeen, rmwSees, if_neg (not_lt.mpr hlen), h.own.entry_ndLookup]
  rfl

/-- A state in which only expired values have gone. -/
theorem OrsetInv.drops {b' : NdBackend} (hown : Owned b') {now : Nat}
    (hdrops : (ndView ns.objectBackend).Drops now (ndView b')) :
    OrsetInv key ⟨ns.mainBackend, b'⟩ M where
  own := hown
  main := h.main
  stored hlen := by
    rw [(h.stored hlen).drops hdrops]
    exact h.stored hlen
  long := h.long

/-- **A command that writes a set back.** -/
theorem OrsetInv.write {α : Type} (hlen : key.len ≤ ND_MAX_KEY_LEN) {cb : CrdtCallback α} {out : α}
    (hcb : cb (rmwEntry ns.objectBackend env (key.cut 8)) = some (.ok,
      crdtEntry (rmwEntry ns.objectBackend env (key.cut 8)) (orsetSerialize s), out))
    {M' : Finset (List UInt8)} (hholds : s.Holds M') (hsize : orsetSerializedSize s < 2 ^ 32)
    (hmalloc : MallocWorks ns.objectBackend env key) (hfits : PoolFits ns.objectBackend env key)
    (initial : α) (onOk : α → CrdtReply) (failed : String) :
    ∃ ns' reply, rmwCommand cb initial onOk failed ns env key = some (ns', reply) ∧
      (reply = onOk out ∧ OrsetInv key ns' M' ∨ reply = .error failed ∧ OrsetInv key ns' M ∧
        HeldMap.liveAt (ndView ns.objectBackend) env.now (key.cut 8) = none) := by
  obtain ⟨httl, _, _⟩ := (h.stored hlen).entry env 0
  obtain ⟨b', res', hcommand, hown, hout⟩ := rmwCommand_outcome h.own hlen hcb
    nofun hmalloc (fun _ => hfits) initial onOk failed
  have hrun := CrdtCallback.run_of hcb
  refine ⟨_, _, hcommand, ?_⟩
  cases hout with
  | declined hno _ => exact absurd (congrArg Prod.fst hrun) hno
  | stored hentry hkey =>
    obtain ⟨_, rfl⟩ := Prod.mk.inj (hrun.symm.trans hentry)
    have hat : OrsetAt M' (ndView b' (key.cut 8)) := by
      rw [hkey]
      exact orsetAt_stored hholds hsize httl env.now
    exact .inl ⟨if_pos rfl, hown, h.main, fun _ => hat,
      fun hlong => absurd hlong (not_lt.mpr hlen)⟩
  | refused habsent hdrops =>
    exact .inr ⟨if_neg (by decide), h.drops hown hdrops, habsent⟩

variable {node : Fin CRDT_MAX_NODES} {val : List UInt8}

theorem OrsetInv.add (hval : val ≠ []) (hsafe : OrsetSafe node ns ⟨env, key, .orsetAdd val⟩)
    (hmalloc : MallocWorks ns.objectBackend env key) :
    ∃ ns' r M', orsetAddCommand node val ns env key = some (ns', r) ∧
      SetStep M ⟨env, key, .orsetAdd val⟩ r M' ∧ OrsetInv key ns' M' := by
  by_cases hlen : key.len ≤ ND_MAX_KEY_LEN
  · obtain ⟨hshort, hnew, hsize, hfits⟩ := hsafe
    rw [h.seen_eq hlen] at hnew hsize
    obtain ⟨_, hloaded, _⟩ := (h.stored hlen).entry env node
    have hlt : val.length < 2 ^ 16 := by omega
    have hbytes : (ofList 16 (val.take 255)).bytes = val := by
      rw [take_of_length_le hshort, bytes_ofList hlt]
    have hacc : Member.Accepted (.ofList 16 (val.take 255)) := by
      have hpos := length_pos_iff.mpr hval
      rw [Member.Accepted, len, hbytes]
      omega
    obtain ⟨cap, hcap⟩ := hloaded.grows
    obtain ⟨s, hadd, hholds, hgrown⟩ := hloaded.holds.add hacc
      (by rw [hbytes, hloaded.holds.mem_iff]; exact hnew) hloaded.tag_lt
      (by rw [hloaded.self_eq]; exact node.isLt.trans (by decide)) hcap
    rw [hbytes] at hholds
    have hcb : orsetCallback node val (rmwEntry ns.objectBackend env (key.cut 8)) = some (.ok,
        crdtEntry (rmwEntry ns.objectBackend env (key.cut 8)) (orsetSerialize s), 1) := by
      rw [orsetCallback, hadd]
      rfl
    rw [← hgrown] at hsize
    obtain ⟨ns', reply, hcommand, ⟨rfl, hinv⟩ | ⟨rfl, hinv, _⟩⟩ :=
      h.write hlen hcb hholds hsize hmalloc hfits 0 (fun _ => .int 1)
        "Errore durante l'aggiunta all'ORSet"
    · exact ⟨ns', _, _, hcommand, .inl ⟨rfl, rfl⟩, hinv⟩
    · exact ⟨ns', _, _, hcommand, .inr ⟨⟨_, rfl⟩, rfl⟩, hinv⟩
  · exact ⟨ns, _, M, rmwCommand_long (Nat.lt_of_not_le hlen) .., .inr ⟨⟨_, rfl⟩, rfl⟩, h⟩

omit h

/-- A value that the cast changes is longer than any member. -/
theorem ORSet.Holds.not_mem_of_cast (h : s.Holds M)
    (hcast : (ofList 16 val).bytes ≠ val) : val ∉ M := by
  intro hmem
  have hle := h.length_le (h.mem_iff.mp hmem)
  exact hcast (bytes_ofList (by omega))

/-- What `orset_remove` with the cast length does to the set. -/
theorem ORSet.Holds.remove_cast (h : s.Holds M) (hval : val ≠ [])
    (hsafe : (ofList 16 val).bytes = val ∨ (ofList 16 val).bytes ∉ s.members) :
    (orsetRemove s (.ofList 16 val)).1.Holds (M.erase val) ∧
      ((orsetRemove s (.ofList 16 val)).2 = 1 ↔ val ∈ M) := by
  by_cases hcast : (ofList 16 val).bytes = val
  · have hlen : (ofList 16 val).len ≠ 0 := by
      rw [len, hcast]
      exact (length_pos_iff.mpr hval).ne'
    have hremove := h.remove hlen
    rw [hcast] at hremove
    refine ⟨hremove.1, ?_⟩
    rw [hremove.2]
    split <;> simp_all
  · have hnot := h.not_mem_of_cast hcast
    have hout := hsafe.resolve_left hcast
    rw [← h.mem_iff] at hout
    rw [Finset.erase_eq_of_notMem hnot]
    by_cases hlen : (ofList 16 val).len = 0
    · rw [orsetRemove, if_pos hlen]
      exact ⟨h, by simp [hnot]⟩
    · have hremove := h.remove hlen
      rw [Finset.erase_eq_of_notMem hout, if_neg hout] at hremove
      exact ⟨hremove.1, by rw [hremove.2]; simp [hnot]⟩

theorem length_orsetRemove (s : ORSet) (v : Member) :
    (orsetRemove s v).1.entries.length = s.entries.length := by
  rw [orsetRemove]
  split
  · rfl
  · exact length_map ..

theorem setStep_remove_empty (env : Env) (key : Bytes) (val : List UInt8) (text : String) :
    SetStep ∅ ⟨env, key, .orsetRemove val⟩ (.error text) ∅ := by
  simp [SetStep]

theorem OrsetInv.remove (h : OrsetInv key ns M)
    (hval : val ≠ []) (hsafe : OrsetSafe node ns ⟨env, key, .orsetRemove val⟩)
    (hmalloc : MallocWorks ns.objectBackend env key) :
    ∃ ns' r M', orsetRemoveCommand node val ns env key = some (ns', r) ∧
      SetStep M ⟨env, key, .orsetRemove val⟩ r M' ∧ OrsetInv key ns' M' := by
  by_cases hlen : key.len ≤ ND_MAX_KEY_LEN
  · obtain ⟨_, hloaded, htype⟩ := (h.stored hlen).entry env node
    by_cases hcrdt : (rmwEntry ns.objectBackend env (key.cut 8)).type = .crdt
    · rw [OrsetSafe, h.seen_eq hlen] at hsafe
      obtain ⟨hholds, hreply⟩ := hloaded.holds.remove_cast hval hsafe
      have hsize := hloaded.size_lt
      rw [orsetSerializedSize, ← length_orsetRemove _ (.ofList 16 val)] at hsize
      rw [orsetLoad, if_pos hcrdt] at hholds hreply hsize
      have hcb : orsetRemoveCallback node val (rmwEntry ns.objectBackend env (key.cut 8))
          = some (.ok, crdtEntry (rmwEntry ns.objectBackend env (key.cut 8)) (orsetSerialize _),
              _) :=
        if_neg (not_not.mpr hcrdt)
      -- an entry of the type is one that is live
      have hlive : HeldMap.liveAt (ndView ns.objectBackend) env.now (key.cut 8) ≠ none := by
        intro hnone
        rw [rmwEntry, hnone] at hcrdt
        cases hcrdt
      obtain ⟨held, hheld⟩ := Option.ne_none_iff_exists'.mp hlive
      obtain ⟨ns', reply, hcommand, ⟨rfl, hinv⟩ | ⟨_, _, habsent⟩⟩ :=
        h.write hlen hcb hholds hsize hmalloc (h.own.poolFits_of_live hheld) 0 .int
          "Errore durante la rimozione dall'ORSet"
      · refine ⟨ns', _, _, hcommand, ?_, hinv⟩
        show if val ∈ M then _ else _
        split
        · rename_i hmem
          exact ⟨congrArg _ (hreply.mpr hmem), rfl⟩
        · rename_i hmem
          exact ⟨fun hone => hmem (hreply.mp (CrdtReply.int.inj hone)),
            Finset.erase_eq_of_notMem hmem⟩
      · exact absurd habsent hlive
    · obtain rfl := htype.resolve_left hcrdt
      have hcb : orsetRemoveCallback node val (rmwEntry ns.objectBackend env (key.cut 8))
          = some (.notFound, rmwEntry ns.objectBackend env (key.cut 8), 0) := if_pos hcrdt
      obtain ⟨b', res', hcommand, hown, hout⟩ := rmwCommand_outcome h.own hlen hcb
        (h.own.type_rmwEntry env _) hmalloc (fun hc => by cases hc) 0 CrdtReply.int
        "Errore durante la rimozione dall'ORSet"
      refine ⟨_, _, ∅, hcommand, ?_⟩
      have hrun := CrdtCallback.run_of hcb
      cases hout with
      | declined hno hdrops =>
        rw [if_neg hno]
        exact ⟨setStep_remove_empty .., h.drops hown hdrops⟩
      | stored hentry _ =>
        rw [hrun] at hentry
        cases hentry
      | refused _ hdrops =>
        rw [if_neg (by decide)]
        exact ⟨setStep_remove_empty .., h.drops hown hdrops⟩
  · obtain rfl := h.long (Nat.lt_of_not_le hlen)
    exact ⟨ns, _, ∅, rmwCommand_long (Nat.lt_of_not_le hlen) .., setStep_remove_empty .., h⟩

theorem OrsetInv.list (h : OrsetInv key ns M)
    (hsafe : OrsetSafe node ns ⟨env, key, .orsetMembers⟩) :
    ∃ ns' r M', orsetMembersCommand node ns env key = some (ns', r) ∧
      SetStep M ⟨env, key, .orsetMembers⟩ r M' ∧ OrsetInv key ns' M' := by
  obtain ⟨hlen, hbuf⟩ := hsafe
  rw [h.seen_eq hlen] at hbuf
  have hat := h.stored hlen
  obtain ⟨sc', hlacks, hget⟩ := (h.main hlen).nexstorageGet env .zero
  obtain ⟨hown, hdrops⟩ := h.own.ndapiGet_keeps env key .zero
  have hinv : OrsetInv key ⟨sc', (ndapiGet ns.objectBackend env key .zero).1⟩ M :=
    ⟨hown, fun _ => hlacks, fun _ => by rw [hat.drops hdrops]; exact hat, h.long⟩
  rw [h.own.ndapiGet_eq, if_neg (not_lt.mpr hlen), hat.liveAt] at hget
  cases hview : ndView ns.objectBackend (key.cut 8) with
  | none =>
    rw [hview] at hget hat
    obtain rfl : M = ∅ := hat
    refine ⟨_, .array [], ∅, ?_, ⟨[], rfl, nodup_nil, rfl, rfl⟩, hinv⟩
    simp only [orsetMembersCommand, hget, if_true]
  | some held =>
    obtain ⟨hloaded, hsize⟩ := OrsetAt.load (hview ▸ hat) node
    have htype : held.val.type = .crdt := by
      rw [hview] at hat
      exact hat.2.2.1
    have hfits : ¬ held.val.data.len > ND_BUF_LEN := by
      rw [rmwEntry, hat.liveAt, hview] at hbuf
      rw [← hsize]
      have hload : orsetLoad node (ndEntry held.val env.now)
          = orsetDeserialize held.val.data.bytes node := if_pos htype
      rw [← hload]
      exact not_lt.mpr hbuf
    simp only [hview, if_neg hfits] at hget
    have hread : orsetReadMembers (orsetDeserialize held.val.data.bytes node)
        = some (.array (orsetDeserialize held.val.data.bytes node).members) := by
      refine if_neg ?_
      rintro ⟨e, he, _, hlong⟩
      have hshort := hloaded.holds.short e he
      omega
    refine ⟨_, _, M, ?_, ⟨_, rfl, hloaded.holds.nodup, hloaded.holds.members, rfl⟩, hinv⟩
    simp only [orsetMembersCommand, hget]
    rw [if_neg (by decide), if_neg (by simp [ndEntry, htype])]
    simp only [ndEntry, hread, Option.map_some]

end Commands

/-! ### Runs -/

/-- **One set command.** -/
theorem OrsetInv.step {key : Bytes} {ns : ServerStore}
    {M : Finset (List UInt8)} (h : OrsetInv key ns M) {e : CrdtEvent} (hset : e.OnSet key)
    (hsafe : OrsetSafe node ns e) (hmalloc : MallocWorks ns.objectBackend e.env e.key) :
    ∃ ns' r M', crdtStep node ns e = some (ns', r) ∧ SetStep M e r M' ∧ OrsetInv key ns' M' := by
  obtain ⟨env, key', cmd⟩ := e
  obtain ⟨rfl, hcmd⟩ := hset
  cases cmd with
  | orsetAdd val => exact h.add hcmd hsafe hmalloc
  | orsetRemove val => exact h.remove hcmd hsafe hmalloc
  | orsetMembers => exact h.list hsafe
  | _ => exact hcmd.elim

/-- **The set commands on one key refine a set**, in every run that is safe. -/
theorem orset_commands_refine_set {node : Fin CRDT_MAX_NODES} {key : Bytes} {ns₀ : ServerStore}
    (habsent : KeyAbsent ns₀ key) {es : List CrdtEvent} (hset : ∀ e ∈ es, e.OnSet key)
    (hsafe : Along (crdtStep node)
      (fun ns e => OrsetSafe node ns e ∧ MallocWorks ns.objectBackend e.env e.key) ns₀ es) :
    ∃ ns rs M, run (crdtStep node) ns₀ es = some (ns, rs) ∧ Traces SetStep ∅ es rs M := by
  have hinv : OrsetInv key ns₀ ∅ :=
    ⟨habsent.own, habsent.main, fun hlen => by rw [habsent.object hlen]; rfl, fun _ => rfl⟩
  have hstep : ∀ ns e M, OrsetInv key ns M →
      (OrsetSafe node ns e ∧ MallocWorks ns.objectBackend e.env e.key) ∧ e.OnSet key →
        ∃ ns' r M', crdtStep node ns e = some (ns', r) ∧ SetStep M e r M' ∧ OrsetInv key ns' M' :=
    fun ns e M hinv ⟨⟨hsafe, hmalloc⟩, hset⟩ => hinv.step hset hsafe hmalloc
  obtain ⟨ns, rs, M, hrun, htrace, _⟩ :=
    run_traces hstep hinv (hsafe.and_forall hset)
  exact ⟨ns, rs, M, hrun, htrace⟩

/-- An add and a listing. -/
def addThenList : List CrdtEvent := [onKey 1 (.orsetAdd [97]), onKey 2 .orsetMembers]

theorem orset_commands_refine_set_two :
    ∃ ns₀ ns rs M, nexstorageCreate 0 1 = some ns₀ ∧
      run (crdtStep 0) ns₀ addThenList = some (ns, rs) ∧ rs = [.int 1, .array [[97]]] ∧
      Traces SetStep ∅ addThenList rs M := by
  have heval : (nexstorageCreate 0 1).bind (fun ns₀ =>
      (crdtStep 0 ns₀ (onKey 1 (.orsetAdd [97]))).map fun r =>
        ((orsetSeen (0 : Fin CRDT_MAX_NODES) ns₀ (onKey 1 (.orsetAdd [97]))).entries.length,
          (ndLookup ns₀.objectBackend ((oneByte 107).cut 8) 1).1.table.keyPool.length,
          decide (MallocWorks ns₀.objectBackend (onKey 1 .orsetMembers).env (oneByte 107)),
          orsetSerializedSize (orsetSeen (0 : Fin CRDT_MAX_NODES) r.1 (onKey 2 .orsetMembers)),
          decide (MallocWorks r.1.objectBackend (onKey 2 .orsetMembers).env (oneByte 107))))
        = some (0, 0, true, 288, true) := by
    decide +kernel
  have hreplies : (nexstorageCreate 0 1).bind (fun ns₀ =>
      (run (crdtStep 0) ns₀ addThenList).map Prod.snd) = some [.int 1, .array [[97]]] := by
    decide +kernel
  obtain ⟨ns₀, hcreate, heval⟩ := Option.bind_eq_some_iff.mp heval
  obtain ⟨⟨ns₁, r₁⟩, hadd, heval⟩ := Option.map_eq_some_iff.mp heval
  simp only [Prod.mk.injEq, decide_eq_true_eq] at heval
  obtain ⟨hempty, hpool, hmalloc, hsize, hmalloc'⟩ := heval
  have hsafe : Along (crdtStep 0) (fun ns e => OrsetSafe 0 ns e ∧
      MallocWorks ns.objectBackend e.env e.key) ns₀ addThenList := by
    refine ⟨⟨⟨by decide, ?_, ?_, fun _ => ?_⟩, hmalloc⟩, fun ns r hstep => ?_⟩
    · rw [ORSet.members, length_eq_zero_iff.mp hempty]
      decide
    · rw [orsetSerializedSize]
      exact (congrArg (fun n => 8 + ORSET_ENTRY_SIZE * n + ORSET_ENTRY_SIZE < 2 ^ 32) hempty).mpr
        (by decide)
    · exact (congrArg (fun n => n + 1 + 1 ≤ 2 ^ 31) hpool).mpr (by decide)
    · obtain ⟨rfl, rfl⟩ := result_inj (hadd.symm.trans hstep)
      refine ⟨⟨⟨by decide, ?_⟩, hmalloc'⟩, fun _ _ _ => trivial⟩
      rw [hsize]
      decide
  have hset : ∀ e ∈ addThenList, e.OnSet (oneByte 107) := by
    simp [addThenList, CrdtEvent.OnSet, onKey]
  obtain ⟨ns, rs, M, hrun, htrace⟩ :=
    orset_commands_refine_set (keyAbsent_create hcreate (oneByte 107)) hset hsafe
  rw [hcreate, Option.bind_some, hrun] at hreplies
  exact ⟨ns₀, ns, rs, M, hcreate, hrun, Option.some.inj hreplies, htrace⟩

/-- **A member that is listed twice**, and one that cannot be removed: `a` is added twice,
then a value of 256 bytes is added, and removed in vain. -/
theorem orset_members_twice :
    ((nexstorageCreate 0 1).bind fun ns₀ => (run (crdtStep 0) ns₀
        [onKey 1 (.orsetAdd [97]), onKey 2 (.orsetAdd [97]), onKey 3 .orsetMembers,
          onKey 4 (.orsetRemove [97]), onKey 5 (.orsetAdd (replicate 256 98)),
          onKey 6 (.orsetRemove (replicate 256 98)), onKey 7 .orsetMembers]).map Prod.snd)
      = some [.int 1, .int 1, .array [[97], [97]], .int 1, .int 1, .int 0,
          .array [replicate 255 98]] := by
  decide +kernel

end NexCache.Crdt
