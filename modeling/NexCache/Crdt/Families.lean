import NexCache.Crdt.Commands

/-!
# One family's value under another family's command

All CRDT values carry the same type tag, so the commands tell them apart by their length,
if at all.  `Rejects` is what a command should do with a value of another family: reply an
error, and leave the stored bytes.  `Guards` is when it does.
-/

namespace NexCache.Crdt

open Machine Storage Runs Option

/-- A value that a write command of the family has left. -/
def WrittenBy (value : Bytes) : CrdtFamily → Prop
  | .gcounter => ∃ node delta existing entry out,
      gincrCallback node delta existing = some (.ok, entry, out) ∧ entry.value = value
  | .pncounter => ∃ node delta existing entry out,
      pnincrCallback node delta existing = some (.ok, entry, out) ∧ entry.value = value
  | .orset => ∃ node val existing entry,
      ((∃ out, orsetCallback node val existing = some (.ok, entry, out)) ∨
        ∃ out, orsetRemoveCallback node val existing = some (.ok, entry, out)) ∧
      entry.value = value
  | .lww => ∃ val now existing entry out,
      lwwCallback val now existing = some (.ok, entry, out) ∧ entry.value = value

/-- The store keeps a live value that the family has written. -/
structure StoresFamily (ns : ServerStore) (env : Env) (key : Bytes) (family : CrdtFamily)
    (held : Held) : Prop where
  own : Owned ns.objectBackend
  main : MainLacks ns.mainBackend key
  short : key.len ≤ ND_MAX_KEY_LEN
  live : HeldMap.liveAt (ndView ns.objectBackend) env.now (key.cut 8) = some held
  type_eq : held.val.type = .crdt
  written : WrittenBy held.val.data family

def storedBytes (ns : ServerStore) (key : Bytes) : Option Bytes :=
  (ndView ns.objectBackend (key.cut 8)).map fun held => held.val.data

/-- **The command replies an error and leaves the bytes.**  One that reads beyond the value
is `none`, so it does not reject. -/
def Rejects (node : Fin CRDT_MAX_NODES) (ns : ServerStore) (e : CrdtEvent) : Prop :=
  ∃ ns' text, crdtStep node ns e = some (ns', .error text) ∧
    storedBytes ns' e.key = storedBytes ns e.key

/-- **When a command rejects a value of `len` bytes**: a read by its length check, or
because the value does not fit the read buffer; a counter's write by its argument. -/
def Guards (len : Nat) : CrdtCommand → Prop
  | .gincr delta => delta = none
  | .pnincr delta => delta = none
  | .gcounterGet => len < GCOUNTER_SIZE ∨ ND_BUF_LEN < len
  | .pncounterGet => len < PNCOUNTER_SIZE ∨ ND_BUF_LEN < len
  | .lwwGet => len < LWW_SIZE ∨ ND_BUF_LEN < len
  | _ => False

/-! ### Sizes -/

theorem len_crdtEntry {existing : NexEntry} {bytes : List UInt8} {size : Nat}
    (hlen : bytes.length = size) (hsize : size < 2 ^ 32) :
    (crdtEntry existing bytes).value.len = size := by
  show (SizedBytes.bytes (.ofList 32 bytes)).length = _
  rw [SizedBytes.bytes_ofList (hlen ▸ hsize), hlen]

variable {existing entry : NexEntry} {res : NexStorageResult} {val : List UInt8} {node out : Nat}

theorem len_gincr {node delta : Nat}
    (h : gincrCallback node delta existing = some (res, entry, out)) :
    (res = .ok ∧ entry.type = .crdt) ∧ entry.value.len = GCOUNTER_SIZE := by
  simp only [gincrCallback, bind_eq_bind, bind_eq_some_iff, some.injEq,
    Prod.mk.injEq] at h
  obtain ⟨g, _, _, _, rfl, rfl, _⟩ := h
  exact ⟨⟨rfl, rfl⟩, len_crdtEntry (length_gcounterBytes g) (by decide)⟩

theorem len_pnincr {delta : BitVec 64} {out : Int}
    (h : pnincrCallback node delta existing = some (res, entry, out)) :
    (res = .ok ∧ entry.type = .crdt) ∧ entry.value.len = PNCOUNTER_SIZE := by
  simp only [pnincrCallback, bind_eq_bind, bind_eq_some_iff, some.injEq,
    Prod.mk.injEq] at h
  obtain ⟨p, _, _, _, rfl, rfl, _⟩ := h
  exact ⟨⟨rfl, rfl⟩, len_crdtEntry (length_pncounterBytes p) (by decide)⟩

theorem len_lww {now : Nat} (h : lwwCallback val now existing = some (res, entry, out)) :
    (res = .ok ∧ entry.type = .crdt) ∧ entry.value.len = LWW_SIZE := by
  simp only [lwwCallback, bind_eq_bind, bind_eq_some_iff, some.injEq,
    Prod.mk.injEq] at h
  obtain ⟨bs, hload, bs', hset, rfl, rfl, _⟩ := h
  have hbs : bs.length = LWW_SIZE := by
    rw [lwwLoad] at hload
    split at hload
    · split at hload
      · cases hload
      · rename_i hge
        obtain rfl := some.inj hload
        exact List.length_take_of_le (Nat.le_of_not_lt hge)
    · obtain rfl := some.inj hload
      exact List.length_replicate
  exact ⟨⟨rfl, rfl⟩, len_crdtEntry (length_lwwSetRaw hbs hset) (by decide)⟩

/-- Only a set can outgrow the read buffer. -/
theorem WrittenBy.len_le {value : Bytes} {family : CrdtFamily} (h : WrittenBy value family)
    (hfamily : family ≠ .orset) : value.len ≤ ND_BUF_LEN := by
  cases family with
  | gcounter =>
    obtain ⟨_, _, _, _, _, hcb, rfl⟩ := h
    rw [(len_gincr hcb).2]
    decide
  | pncounter =>
    obtain ⟨_, _, _, _, _, hcb, rfl⟩ := h
    rw [(len_pnincr hcb).2]
    decide
  | orset => exact absurd rfl hfamily
  | lww =>
    obtain ⟨_, _, _, _, _, hcb, rfl⟩ := h
    rw [(len_lww hcb).2]
    decide

/-! ### Commands -/

section Stored

variable {ns : ServerStore} {env : Env} {key : Bytes} {family : CrdtFamily} {held : Held}

variable (h : StoresFamily ns env key family held)
include h

theorem StoresFamily.entry_eq :
    rmwEntry ns.objectBackend env (key.cut 8) = ndEntry held.val env.now := by
  rw [rmwEntry, h.live]
  rfl

/-- **A write that its callback does not decline is not answered with an error.** -/
theorem StoresFamily.not_rmwCommand_error {α : Type} {cb : CrdtCallback α}
    (hcb : ∀ res entry out, cb (ndEntry held.val env.now) = some (res, entry, out) →
      res = .ok ∧ entry.type = .crdt)
    (hmalloc : MallocWorks ns.objectBackend env key) (initial : α) {onOk : α → CrdtReply}
    (honOk : ∀ out text, onOk out ≠ .error text) (failed : String) :
    ¬ ∃ ns' text, rmwCommand cb initial onOk failed ns env key = some (ns', .error text) ∧
      storedBytes ns' key = storedBytes ns key := by
  rintro ⟨ns', text, hcommand, _⟩
  cases hout : cb (ndEntry held.val env.now) with
  | none =>
    simp [rmwCommand, crdtRmw, rmwSees, if_neg (Nat.not_lt.mpr h.short), h.own.entry_ndLookup,
      h.entry_eq, hout] at hcommand
  | some r =>
    obtain ⟨res, entry, out⟩ := r
    obtain ⟨rfl, htype⟩ := hcb res entry out hout
    rw [← h.entry_eq] at hout
    obtain ⟨b', res', hcommand', _, houtcome⟩ := rmwCommand_outcome h.own h.short hout
      (by rw [htype]; decide) hmalloc (fun _ => h.own.poolFits_of_live h.live) initial onOk failed
    have hrun := CrdtCallback.run_of hout
    cases houtcome with
    | declined hno _ => exact hno (congrArg Prod.fst hrun)
    | stored _ _ =>
      obtain ⟨_, hreply⟩ := result_inj (hcommand.symm.trans hcommand')
      exact honOk out text hreply.symm
    | refused habsent _ =>
      rw [h.live] at habsent
      cases habsent

theorem StoresFamily.nexstorageGet :
    ∃ ns', nexstorageGet ns env key .zero = (ns', if held.val.data.len > ND_BUF_LEN
        then (.tooLarge, .zero) else (.ok, ndEntry held.val env.now)) ∧
      storedBytes ns' key = storedBytes ns key := by
  obtain ⟨sc', _, hget⟩ := h.main.nexstorageGet env .zero
  obtain ⟨_, hdrops⟩ := h.own.ndapiGet_keeps env key .zero
  rw [h.own.ndapiGet_eq, if_neg (Nat.not_lt.mpr h.short), h.live] at hget
  refine ⟨_, hget, ?_⟩
  rw [storedBytes, storedBytes, hdrops.liveAt h.live, (filter_eq_some_iff.mp h.live).1]

/-- **When a read command rejects.** -/
theorem StoresFamily.getCommand_iff {size : Nat}
    {read : List UInt8 → Option CrdtReply} (hread : ∀ bytes text, read bytes ≠ some (.error text))
    (absent : CrdtReply) (failed : String) :
    (∃ ns' text, getCommand size read absent failed ns env key = some (ns', .error text) ∧
        storedBytes ns' key = storedBytes ns key)
      ↔ held.val.data.len < size ∨ ND_BUF_LEN < held.val.data.len := by
  obtain ⟨ns₁, hget, hkept⟩ := h.nexstorageGet
  rw [getCommand, hget]
  by_cases hbuf : held.val.data.len > ND_BUF_LEN
  · rw [if_pos hbuf]
    exact ⟨fun _ => .inr hbuf, fun _ => ⟨ns₁, failed, rfl, hkept⟩⟩
  · rw [if_neg hbuf]
    by_cases hsize : held.val.data.len < size
    · refine ⟨fun _ => .inl hsize, fun _ => ⟨ns₁, failed, ?_, hkept⟩⟩
      have hguard : ¬ (NexStorageResult.ok = .ok ∧ (ndEntry held.val env.now).type = .crdt ∧
          (ndEntry held.val env.now).value.len ≥ size) := fun hc => Nat.not_le.mpr hsize hc.2.2
      dsimp only
      rw [if_neg hguard]
      rfl
    · have hguard : NexStorageResult.ok = .ok ∧ (ndEntry held.val env.now).type = .crdt ∧
          (ndEntry held.val env.now).value.len ≥ size := ⟨rfl, h.type_eq, Nat.le_of_not_lt hsize⟩
      dsimp only
      rw [if_pos hguard]
      refine ⟨fun ⟨ns', text, hreply, _⟩ => ?_, fun hc => (hc.elim hsize hbuf).elim⟩
      obtain ⟨reply, hsome, heq⟩ := map_eq_some_iff.mp hreply
      exact absurd (hsome.trans (congrArg some (Prod.mk.inj heq).2)) (hread _ text)

/-- A listing of a value that fits the buffer is never an error. -/
theorem StoresFamily.members_ne_error (hfamily : family ≠ .orset) {ns' : ServerStore}
    {text : String} : orsetMembersCommand node ns env key ≠ some (ns', .error text) := by
  obtain ⟨ns₁, hget, _⟩ := h.nexstorageGet
  rw [if_neg (Nat.not_lt.mpr (h.written.len_le hfamily))] at hget
  have htype : ¬ (NexStorageResult.ok ≠ .ok ∨ (ndEntry held.val env.now).type ≠ .crdt) := by
    simp [ndEntry, h.type_eq]
  rw [orsetMembersCommand, hget]
  dsimp only
  rw [if_neg (by decide), if_neg htype]
  intro hreply
  obtain ⟨reply, hread, _, rfl⟩ := map_result hreply
  rw [orsetReadMembers] at hread
  split at hread <;> cases hread

omit h

theorem orsetCallback_ok (h : orsetCallback node val existing = some (res, entry, out)) :
    res = .ok ∧ entry.type = .crdt := by
  simp only [orsetCallback, bind_eq_bind, bind_eq_some_iff, some.injEq,
    Prod.mk.injEq] at h
  obtain ⟨_, _, _, _, rfl, rfl, _⟩ := h
  exact ⟨rfl, rfl⟩

theorem orsetRemoveCallback_ok (htype : existing.type = .crdt) {out : Int}
    (h : orsetRemoveCallback node val existing = some (res, entry, out)) :
    res = .ok ∧ entry.type = .crdt := by
  rw [orsetRemoveCallback, if_neg (not_not.mpr htype)] at h
  obtain ⟨rfl, heq⟩ := result_inj h
  obtain ⟨rfl, _⟩ := Prod.mk.inj heq
  exact ⟨rfl, rfl⟩

end Stored

/-- **When another family's command rejects a value**: exactly when its own check of the
length or of its argument stops it. -/
theorem rejects_iff_guards {node : Fin CRDT_MAX_NODES} {ns : ServerStore} {env : Env} {key : Bytes}
    {family : CrdtFamily} {held : Held} (h : StoresFamily ns env key family held)
    (hmalloc : MallocWorks ns.objectBackend env key) {cmd : CrdtCommand}
    (hother : cmd.family ≠ family) :
    Rejects node ns ⟨env, key, cmd⟩ ↔ Guards held.val.data.len cmd := by
  cases cmd with
  | gincr delta =>
    cases delta with
    | none => exact ⟨fun _ => rfl, fun _ => ⟨ns, _, rfl, rfl⟩⟩
    | some delta =>
      simp only [Rejects, crdtStep, gincrCommand, Guards, reduceCtorEq, iff_false]
      exact h.not_rmwCommand_error (fun _ _ _ hcb => (len_gincr hcb).1)
        hmalloc 0 (fun _ _ hc => by cases hc) _
  | gcounterGet =>
    simp only [Rejects, crdtStep, gcounterGetCommand, Guards]
    exact h.getCommand_iff (fun _ _ hc => by simp at hc) _ _
  | pnincr delta =>
    cases delta with
    | none => exact ⟨fun _ => rfl, fun _ => ⟨ns, _, rfl, rfl⟩⟩
    | some delta =>
      simp only [Rejects, crdtStep, pnincrCommand, Guards, reduceCtorEq, iff_false]
      exact h.not_rmwCommand_error (fun _ _ _ hcb => (len_pnincr hcb).1)
        hmalloc 0 (fun _ _ hc => by cases hc) _
  | pncounterGet =>
    simp only [Rejects, crdtStep, pncounterGetCommand, Guards]
    exact h.getCommand_iff (fun _ _ hc => by simp at hc) _ _
  | orsetAdd val =>
    simp only [Rejects, crdtStep, orsetAddCommand, Guards, iff_false]
    exact h.not_rmwCommand_error (fun _ _ _ hcb => orsetCallback_ok hcb) hmalloc 0
      (fun _ _ hc => by cases hc) _
  | orsetRemove val =>
    simp only [Rejects, crdtStep, orsetRemoveCommand, Guards, iff_false]
    exact h.not_rmwCommand_error (fun _ _ _ hcb => orsetRemoveCallback_ok h.type_eq hcb) hmalloc 0
      (fun _ _ hc => by cases hc) _
  | orsetMembers =>
    refine ⟨fun ⟨_, _, hstep, _⟩ => ?_, fun hc => hc.elim⟩
    exact h.members_ne_error (Ne.symm hother) hstep
  | lwwSet val =>
    simp only [Rejects, crdtStep, lwwSetCommand, Guards, iff_false]
    exact h.not_rmwCommand_error (fun _ _ _ hcb => (len_lww hcb).1)
      hmalloc 0 (fun _ _ hc => by cases hc) _
  | lwwGet =>
    simp only [Rejects, crdtStep, lwwGetCommand, Guards]
    exact h.getCommand_iff (fun _ _ hc => by simp at hc) _ _

/-- A register read of a counter that `PNINCR` wrote. -/
theorem rejects_iff_guards_one :
    ∃ ns₀ ns, nexstorageCreate 0 1 = some ns₀ ∧
      crdtStep 0 ns₀ (onKey 1 (.pnincr (some 5#64))) = some (ns, .int 5) ∧
      Rejects 0 ns (onKey 2 .lwwGet) := by
  have heval : (nexstorageCreate 0 1).bind (fun ns₀ =>
      (crdtStep 0 ns₀ (onKey 1 (.pnincr (some 5#64)))).map fun r => (r.2,
        (ndLookup ns₀.objectBackend ((oneByte 107).cut 8) 1).1.table.keyPool.length,
        decide (MallocWorks ns₀.objectBackend (onKey 1 .lwwGet).env (oneByte 107)),
        decide (MallocWorks r.1.objectBackend (onKey 2 .lwwGet).env (oneByte 107))))
      = some (.int 5, 0, true, true) := by
    decide +kernel
  obtain ⟨ns₀, hcreate, heval⟩ := bind_eq_some_iff.mp heval
  obtain ⟨⟨ns, r⟩, hstep, heval⟩ := map_eq_some_iff.mp heval
  simp only [Prod.mk.injEq, decide_eq_true_eq] at heval
  obtain ⟨rfl, hpool, hmalloc, hmalloc'⟩ := heval
  have habsent := keyAbsent_create hcreate (oneByte 107)
  have hentry : rmwEntry ns₀.objectBackend (onKey 1 .lwwGet).env ((oneByte 107).cut 8)
      = { NexEntry.zero with ttlMs := -1 } := by
    rw [rmwEntry, HeldMap.liveAt, habsent.object (by decide)]
    rfl
  obtain ⟨⟨res, entry, out⟩, hcb, httl⟩ := map_eq_some_iff.mp
    (show (pnincrCallback 0 5#64 { NexEntry.zero with ttlMs := -1 }).map (fun r => r.2.1.ttlMs)
      = some (-1) by decide +kernel)
  obtain ⟨⟨rfl, htype⟩, hlen⟩ := len_pnincr hcb
  have hrun := CrdtCallback.run_of hcb
  obtain ⟨b', res', hcommand, hown, hout⟩ := rmwCommand_outcome habsent.own (by decide)
    (hentry ▸ hcb) (by rw [htype]; decide) hmalloc
    (fun _ _ => (congrArg (fun n => n + 1 + 1 ≤ 2 ^ 31) hpool).mpr (by decide)) 0 CrdtReply.int
    "Errore durante l'incremento PN-Counter"
  obtain ⟨rfl, hreply⟩ := result_inj (hstep.symm.trans hcommand)
  refine ⟨ns₀, _, hcreate, hstep, ?_⟩
  cases hout with
  | declined hno _ =>
    rw [hentry, hrun] at hno
    exact absurd rfl hno
  | refused => cases hreply
  | stored hcb' hkey =>
    rw [hentry, hrun] at hcb'
    obtain rfl := (Prod.mk.inj hcb').2
    have hstores : StoresFamily ⟨ns₀.mainBackend, b'⟩ (onKey 2 .lwwGet).env (oneByte 107)
        .pncounter (storedAt 1 entry.value entry.type entry.ttlMs) := by
      refine ⟨hown, habsent.main (by decide), by decide, ?_, htype, _, _, _, _, _, hcb, rfl⟩
      rw [HeldMap.liveAt, hkey]
      simp only at httl
      rw [httl]
      rfl
    refine (rejects_iff_guards hstores hmalloc' (by decide)).mpr (.inl ?_)
    show entry.value.len < LWW_SIZE
    rw [hlen]
    decide

/-- **A counter that another family's command destroys**: `GINCR` on the counter of `PNINCR`
replies a number, after which `PNCOUNTER.GET` finds no counter; `LWW.SET` on that of `GINCR`
reads beyond its value. -/
theorem families_overwrite :
    ((nexstorageCreate 0 1).bind fun ns₀ => (run (crdtStep 0) ns₀
        [onKey 1 (.pnincr (some 5#64)), onKey 2 (.gincr (some 1#64)),
          onKey 3 .pncounterGet]).map Prod.snd)
      = some [.int 5, .int 0, .error "Chiave non trovata o non è un PN-Counter"] ∧
    ((nexstorageCreate 0 1).bind fun ns₀ => (crdtStep 0 ns₀ (onKey 1 (.gincr (some 1#64)))).map
        fun r => (crdtStep 0 r.1 (onKey 2 (.lwwSet [97]))).isNone)
      = some true := by
  decide +kernel

end NexCache.Crdt
