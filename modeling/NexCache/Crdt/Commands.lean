import NexCache.Crdt.Layout
import NexCache.Storage.ServerStore

/-!
# The CRDT commands

`t_hash.c`: every write command is one read-modify-write of the server's store, with a
callback that reads the stored bytes as its own type, changes the value and writes it
back; every read command is one `nexstorage_get`.  All values carry the one type tag
`NEXDT_CRDT`.

A command that reads outside the bytes it was given, or otherwise has no defined
behaviour, is `none`, as is one whose write does not return.

Not modelled: the checks for a store or an allocation that is missing, and the reading of
the integer argument, which arrives parsed or as `none`.
-/

namespace NexCache.Crdt

open Machine Storage

inductive CrdtReply
  | int (n : Int)
  | bulk (bytes : List UInt8)
  | array (items : List (List UInt8))
  | status (text : String)
  | null
  | error (text : String)
  deriving DecidableEq

inductive CrdtFamily
  | gcounter
  | pncounter
  | orset
  | lww
  deriving DecidableEq

/-- A command without its key. -/
inductive CrdtCommand
  | gincr (delta : Option (BitVec 64))
  | gcounterGet
  | pnincr (delta : Option (BitVec 64))
  | pncounterGet
  | orsetAdd (val : List UInt8)
  | orsetRemove (val : List UInt8)
  | orsetMembers
  | lwwSet (val : List UInt8)
  | lwwGet

def CrdtCommand.family : CrdtCommand → CrdtFamily
  | gincr _ | gcounterGet => .gcounter
  | pnincr _ | pncounterGet => .pncounter
  | orsetAdd _ | orsetRemove _ | orsetMembers => .orset
  | lwwSet _ | lwwGet => .lww

/-! ### Callbacks -/

/-- A callback with its output; `none` where its behaviour is not defined. -/
abbrev CrdtCallback (α : Type) := NexEntry → Option (NexStorageResult × NexEntry × α)

/-- `existing->value = ...; existing->type = NEXDT_CRDT`. -/
def crdtEntry (existing : NexEntry) (bytes : List UInt8) : NexEntry :=
  { existing with value := .ofList 32 bytes, type := .crdt }

def gincrCallback (node delta : Nat) : CrdtCallback Nat := fun existing => do
  let g :=
    if existing.value.len ≥ GCOUNTER_SIZE ∧ existing.type = .crdt then
      gcounterOf existing.value.bytes
    else gcounterCreate node CRDT_MAX_NODES
  let g ← gcounterIncrementRaw g delta
  let value ← gcounterValueRaw g
  some (.ok, crdtEntry existing (gcounterBytes g), value)

def pnincrCallback (node : Nat) (delta : BitVec 64) : CrdtCallback Int := fun existing => do
  let p :=
    if existing.value.len ≥ PNCOUNTER_SIZE ∧ existing.type = .crdt then
      pncounterOf existing.value.bytes
    else pncounterCreate node CRDT_MAX_NODES
  let p ← pncounterAddRaw p delta
  let value ← pncounterValueRaw p
  some (.ok, crdtEntry existing (pncounterBytes p), value)

/-- The set that a callback works on. -/
def orsetLoad (node : Nat) (existing : NexEntry) : ORSet :=
  if existing.type = .crdt then orsetDeserialize existing.value.bytes node else orsetCreate node

/-- The value is cut to 255 bytes.  The output is not used by the command. -/
def orsetCallback (node : Nat) (val : List UInt8) : CrdtCallback Nat := fun existing => do
  let (s, rc) ← orsetAdd (orsetLoad node existing) (.ofList 16 (val.take 255))
  let s ← s
  some (.ok, crdtEntry existing (orsetSerialize s), if rc = 0 then 1 else 0)

/-- The length is cast to `uint16_t`. -/
def orsetRemoveCallback (node : Nat) (val : List UInt8) : CrdtCallback Int := fun existing =>
  if existing.type ≠ .crdt then some (.notFound, existing, 0)
  else
    let (s, removed) := orsetRemove (orsetDeserialize existing.value.bytes node) (.ofList 16 val)
    some (.ok, crdtEntry existing (orsetSerialize s), removed)

/-- The register that the callback works on.  There is no check that the value is long
enough for the `memcpy`. -/
def lwwLoad (existing : NexEntry) : Option (List UInt8) :=
  if existing.type = .crdt then
    if existing.value.len < LWW_SIZE then none else some (existing.value.bytes.take LWW_SIZE)
  else some (List.replicate LWW_SIZE 0)

def lwwCallback (val : List UInt8) (now : Nat) : CrdtCallback Nat := fun existing => do
  let bytes ← lwwLoad existing
  let bytes ← lwwSetRaw bytes (.ofList 16 val) now
  some (.ok, crdtEntry existing bytes, 1)

/-! ### Commands -/

/-- What the store sees of a callback. -/
def CrdtCallback.run {α : Type} (cb : CrdtCallback α) : NexRMWCallback := fun existing =>
  match cb existing with
  | some (res, entry, _) => (res, entry)
  | none => (.error, existing)

variable {res : NexStorageResult}

theorem CrdtCallback.run_of {α : Type} {cb : CrdtCallback α} {e entry : NexEntry}
    {out : α} (h : cb e = some (res, entry, out)) :
    cb.run e = (res, entry) := by
  rw [run, h]

/-- The entry that `ndapi_rmw` hands to its callback; `none` if it does not call it. -/
def rmwSees (b : NdBackend) (env : Env) (key : Bytes) : Option NexEntry :=
  if key.len > ND_MAX_KEY_LEN then none
  else some ((ndLookup b (key.cut 8) env.now).2.elim { NexEntry.zero with ttlMs := -1 }
    fun val => ndEntry val env.now)

/-- `nexstorage_rmw` with the output of the callback. -/
def crdtRmw {α : Type} (ns : ServerStore) (env : Env) (key : Bytes) (cb : CrdtCallback α) :
    Option (ServerStore × NexStorageResult × Option α) :=
  match rmwSees ns.objectBackend env key with
  | none => (nexstorageRmw ns env key cb.run).map fun r => (r.1, r.2, none)
  | some existing =>
    (cb existing).bind fun out =>
      (nexstorageRmw ns env key cb.run).map fun r => (r.1, r.2, some out.2.2)

/-- A write command: the output starts as `initial`. -/
def rmwCommand {α : Type} (cb : CrdtCallback α) (initial : α) (onOk : α → CrdtReply)
    (failed : String) (ns : ServerStore) (env : Env) (key : Bytes) :
    Option (ServerStore × CrdtReply) :=
  (crdtRmw ns env key cb).map fun r =>
    (r.1, if r.2.1 = .ok then onOk (r.2.2.getD initial) else .error failed)

/-- A read command of a type of `size` bytes. -/
def getCommand (size : Nat) (read : List UInt8 → Option CrdtReply) (absent : CrdtReply)
    (failed : String) (ns : ServerStore) (env : Env) (key : Bytes) :
    Option (ServerStore × CrdtReply) :=
  let (ns, res, entry) := nexstorageGet ns env key .zero
  if res = .ok ∧ entry.type = .crdt ∧ entry.value.len ≥ size then
    (read entry.value.bytes).map fun reply => (ns, reply)
  else if res = .notFound then some (ns, absent)
  else some (ns, .error failed)

def notAnInteger : CrdtReply := .error "value is not an integer or out of range"

def gincrCommand (node : Nat) (delta : Option (BitVec 64)) (ns : ServerStore) (env : Env)
    (key : Bytes) : Option (ServerStore × CrdtReply) :=
  match delta with
  | none => some (ns, notAnInteger)
  | some delta =>
    rmwCommand (gincrCallback node delta.toNat) 0 (fun value => .int (i64 value))
      "Errore durante l'incremento CRDT" ns env key

def gcounterGetCommand : ServerStore → Env → Bytes → Option (ServerStore × CrdtReply) :=
  getCommand GCOUNTER_SIZE
    (fun bytes => (gcounterValueRaw (gcounterOf bytes)).map fun value => .int (i64 value)) (.int 0)
    "Chiave non trovata o non è un CRDT GCounter"

def pnincrCommand (node : Nat) (delta : Option (BitVec 64)) (ns : ServerStore) (env : Env)
    (key : Bytes) : Option (ServerStore × CrdtReply) :=
  match delta with
  | none => some (ns, notAnInteger)
  | some delta =>
    rmwCommand (pnincrCallback node delta) 0 .int "Errore durante l'incremento PN-Counter"
      ns env key

def pncounterGetCommand : ServerStore → Env → Bytes → Option (ServerStore × CrdtReply) :=
  getCommand PNCOUNTER_SIZE
    (fun bytes => (pncounterValueRaw (pncounterOf bytes)).map .int) (.int 0)
    "Chiave non trovata o non è un PN-Counter"

/-- The reply is `1` whatever the callback says. -/
def orsetAddCommand (node : Nat) (val : List UInt8) :
    ServerStore → Env → Bytes → Option (ServerStore × CrdtReply) :=
  rmwCommand (orsetCallback node val) 0 (fun _ => .int 1) "Errore durante l'aggiunta all'ORSet"

def orsetRemoveCommand (node : Nat) (val : List UInt8) :
    ServerStore → Env → Bytes → Option (ServerStore × CrdtReply) :=
  rmwCommand (orsetRemoveCallback node val) 0 .int "Errore durante la rimozione dall'ORSet"

/-- The members that are not removed, in the order of the entries. -/
def ORSet.members (s : ORSet) : List (List UInt8) :=
  (s.entries.filter fun e => e.isRemoved = 0).map ORSetEntry.member

/-- The reply is read from the arrays of 256 bytes. -/
def orsetReadMembers (s : ORSet) : Option CrdtReply :=
  if ∃ e ∈ s.entries, e.isRemoved = 0 ∧ e.valueLen > 256 then none else some (.array s.members)

def orsetMembersCommand (node : Nat) (ns : ServerStore) (env : Env) (key : Bytes) :
    Option (ServerStore × CrdtReply) :=
  let (ns, res, entry) := nexstorageGet ns env key .zero
  if res = .notFound then some (ns, .array [])
  else if res ≠ .ok ∨ entry.type ≠ .crdt then
    some (ns, .error "Chiave non trovata o non è un ORSet")
  else (orsetReadMembers (orsetDeserialize entry.value.bytes node)).map fun reply => (ns, reply)

def lwwSetCommand (val : List UInt8) (ns : ServerStore) (env : Env) (key : Bytes) :
    Option (ServerStore × CrdtReply) :=
  rmwCommand (lwwCallback val env.now) 0 (fun _ => .status "OK")
    "Errore durante il set LWW-Register" ns env key

/-- The reply is read into a buffer of 1024 bytes. -/
def lwwGetCommand : ServerStore → Env → Bytes → Option (ServerStore × CrdtReply) :=
  getCommand LWW_SIZE (fun bytes => some (.bulk (lwwGet (lwwOf bytes) 1024))) .null
    "Chiave non trovata o non è un LWW-Register"

instance : NeZero CRDT_MAX_NODES := ⟨by decide⟩

/-- A command on a key, with the environment it is made in. -/
structure CrdtEvent where
  env : Env
  key : Bytes
  cmd : CrdtCommand

/-- One command of the server with the id `node`; the configuration admits the ids below
`CRDT_MAX_NODES`. -/
def crdtStep (node : Fin CRDT_MAX_NODES) (ns : ServerStore) (e : CrdtEvent) :
    Option (ServerStore × CrdtReply) :=
  match e.cmd with
  | .gincr delta => gincrCommand node delta ns e.env e.key
  | .gcounterGet => gcounterGetCommand ns e.env e.key
  | .pnincr delta => pnincrCommand node delta ns e.env e.key
  | .pncounterGet => pncounterGetCommand ns e.env e.key
  | .orsetAdd val => orsetAddCommand node val ns e.env e.key
  | .orsetRemove val => orsetRemoveCommand node val ns e.env e.key
  | .orsetMembers => orsetMembersCommand node ns e.env e.key
  | .lwwSet val => lwwSetCommand val ns e.env e.key
  | .lwwGet => lwwGetCommand ns e.env e.key

/-- A command on the key `k` at the time `t`, when `malloc` returns the block `t`. -/
def onKey (t : Nat) (cmd : CrdtCommand) : CrdtEvent :=
  ⟨⟨t, some (BitVec.ofNat 48 t), true⟩, oneByte 107, cmd⟩

/-! ### What a write command does -/

section Writes

variable {ns : ServerStore} {env : Env} {key : Bytes} {α : Type} {cb : CrdtCallback α}

theorem rmwCommand_long (hlong : key.len > ND_MAX_KEY_LEN) (initial : α) (onOk : α → CrdtReply)
    (failed : String) :
    rmwCommand cb initial onOk failed ns env key = some (ns, .error failed) := by
  have hrmw : nexstorageRmw ns env key cb.run = some (ns, .tooLarge) := by
    show (ndapiRmw ns.objectBackend env key cb.run).map _ = _
    rw [ndapiRmw, ndapiRmwAt, if_pos hlong]
    rfl
  simp only [rmwCommand, crdtRmw, rmwSees, if_pos hlong, hrmw]
  rfl

/-- **One write command**, from the outcome of its read-modify-write. -/
theorem rmwCommand_outcome (h : Owned ns.objectBackend) (hlen : key.len ≤ ND_MAX_KEY_LEN)
    {entry : NexEntry} {out : α}
    (hcb : cb (rmwEntry ns.objectBackend env (key.cut 8)) = some (res, entry, out))
    (htype : entry.type ≠ .unknown) (hmalloc : MallocWorks ns.objectBackend env key)
    (hfits : res = .ok → PoolFits ns.objectBackend env key) (initial : α) (onOk : α → CrdtReply)
    (failed : String) :
    ∃ b' res', rmwCommand cb initial onOk failed ns env key
        = some (⟨ns.mainBackend, b'⟩, if res' = .ok then onOk out else .error failed) ∧
      Owned b' ∧ RmwOutcome ns.objectBackend env (key.cut 8) cb.run res' (ndView b') := by
  have hrun := CrdtCallback.run_of hcb
  obtain ⟨b', res', hrmw, hown, hout⟩ := h.ndapiRmw_outcome hlen cb.run
    (by rw [hrun]; exact htype) hmalloc (by rw [hrun]; exact hfits)
  refine ⟨b', res', ?_, hown, hout⟩
  have hrmw' : nexstorageRmw ns env key cb.run = some (⟨ns.mainBackend, b'⟩, res') := by
    show (ndapiRmw ns.objectBackend env key cb.run).map _ = _
    rw [hrmw]
    rfl
  simp only [rmwCommand, crdtRmw, rmwSees, if_neg (Nat.not_lt.mpr hlen), h.entry_ndLookup, hcb,
    hrmw']
  rfl

end Writes

end NexCache.Crdt
