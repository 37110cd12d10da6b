import NexCache.Core.Vll

/-!
# `EXEC` and its locks

`multi.c`, `execCommand`: the flags of the client, the watched keys, `server.in_exec` and the
request to the lock table, from the entry to each of its exits.  The request has room for 64 keys
and covers no more (`exec_covered_iff`), and the exit after a failed acquisition leaves
`deny_blocking` set (`exec_restores_iff`).
-/

namespace NexCache.Core

open Machine List

/-- `vll_request_create`; `allocOk` says whether there is memory. -/
def vllRequestCreate (keys : List VLLKey) (allocOk : Bool) : Option VLLRequest :=
  if keys = [] ∨ VLL_MAX_KEYS_PER_TXN < keys.length then none
  else if allocOk then some ⟨keys, .conflict⟩ else none

/-- The request of `execCommand` after its last attempt, and whether the commands run. -/
def execLock (hash : List UInt8 → Nat) (mgr : VLLManager) (cmds : List MultiCmd) (allocOk : Bool) :
    VLLManager × Option VLLRequest × Bool :=
  match vllRequestCreate (execKeys hash cmds) allocOk with
  | none => (mgr, none, true)
  | some req =>
    let r := vllAcquire mgr req true
    (r.1, some r.2.1, r.2.2 = some .ok)

def lockedBy (req : Option VLLRequest) : Multiset VLLKey := req.elim 0 VLLRequest.held

/-- Each key of each command has a lock, for writing if a command that writes has the key. -/
def Covered (hash : List UInt8 → Nat) (locks : Multiset VLLKey) (cmds : List MultiCmd) : Prop :=
  ∀ mc ∈ cmds, ∀ key ∈ mc.keys, ∃ lock ∈ locks, lock.keyHash = hash key ∧
    ((∃ mc' ∈ cmds, mc'.write = true ∧ key ∈ mc'.keys) → lock.lockType = .write)

variable {hash : List UInt8 → Nat} {mgr : VLLManager} {cmds : List MultiCmd} {allocOk : Bool}

/-- Coverage in terms of the entries. -/
theorem covered_iff {locks : Multiset VLLKey} :
    Covered hash locks cmds ↔ ∀ e ∈ occurrences hash cmds, ∃ lock ∈ locks,
      lock.keyHash = e.keyHash ∧ (e.lockType = .write → lock.lockType = .write) := by
  simp only [occurrences, mem_flatMap, mem_map]
  constructor
  · rintro h e ⟨mc, hmc, key, hkey, rfl⟩
    obtain ⟨lock, hlock, hhash, hwrite⟩ := h mc hmc key hkey
    refine ⟨lock, hlock, hhash, fun he => hwrite ⟨mc, hmc, ?_, hkey⟩⟩
    by_contra hmc'
    simp [hmc'] at he
  · intro h mc hmc key hkey
    by_cases hw : ∃ mc' ∈ cmds, mc'.write = true ∧ key ∈ mc'.keys
    · obtain ⟨mc', hmc', hwrite, hkey'⟩ := hw
      obtain ⟨lock, hlock, hhash, htype⟩ := h _ ⟨mc', hmc', key, hkey', rfl⟩
      exact ⟨lock, hlock, hhash, fun _ => htype (if_pos hwrite)⟩
    · obtain ⟨lock, hlock, hhash, -⟩ := h _ ⟨mc, hmc, key, hkey, rfl⟩
      exact ⟨lock, hlock, hhash, fun hw' => absurd hw' hw⟩

theorem vllRequestCreate_execKeys :
    vllRequestCreate (execKeys hash cmds) allocOk =
      if execKeys hash cmds ≠ [] ∧ allocOk then some ⟨execKeys hash cmds, .conflict⟩ else none := by
  have hlen : ¬VLL_MAX_KEYS_PER_TXN < (execKeys hash cmds).length :=
    not_lt.mpr (length_take_le _ _)
  rw [vllRequestCreate]
  by_cases hne : execKeys hash cmds = [] <;> simp [hne, hlen]

theorem vllAcquire_held {keys : List VLLKey} (hne : keys ≠ []) :
    (vllAcquire mgr ⟨keys, .conflict⟩ true).2.1.held =
      if (vllAcquire mgr ⟨keys, .conflict⟩ true).2.2 = some .ok then ↑keys else 0 := by
  rw [vllAcquire, if_neg hne]
  dsimp only
  split
  · exact (VLLRequest.held_ok rfl).trans (coe_vllSortKeys _)
  · exact VLLRequest.held_not_ok (by simp)

/-- A transaction that runs holds the entries of its request, one that is aborted nothing. -/
theorem execLock_cases :
    ((execLock hash mgr cmds allocOk).2.2 = true ∧ ¬(allocOk = true ∧ ExecAborts hash mgr cmds) ∧
      lockedBy (execLock hash mgr cmds allocOk).2.1 = if allocOk then ↑(execKeys hash cmds)
      else 0) ∨
    (execLock hash mgr cmds allocOk).2.2 = false ∧ (allocOk = true ∧ ExecAborts hash mgr cmds) ∧
      lockedBy (execLock hash mgr cmds allocOk).2.1 = 0 := by
  rw [execLock, vllRequestCreate_execKeys, ExecAborts]
  by_cases hne : execKeys hash cmds = []
  · simp [hne, lockedBy]
  cases allocOk with
  | false => simp [lockedBy]
  | true =>
    have hheld := @vllAcquire_held mgr _ hne
    by_cases hok : (vllAcquire mgr ⟨execKeys hash cmds, .conflict⟩ true).2.2 = some .ok <;>
      simp_all [lockedBy]

/-- **What the locks of a transaction cover**: everything if there is memory for the request and the
entries behind the 64th repeat earlier ones, at most as strongly. -/
theorem exec_covered_iff (hash : List UInt8 → Nat) (mgr : VLLManager) (cmds : List MultiCmd)
    (allocOk : Bool) (hruns : (execLock hash mgr cmds allocOk).2.2 = true) :
    Covered hash (lockedBy (execLock hash mgr cmds allocOk).2.1) cmds ↔
      (allocOk ∨ occurrences hash cmds = []) ∧
        ∀ e ∈ (occurrences hash cmds).drop VLL_MAX_KEYS_PER_TXN, ∃ lock ∈ execKeys hash cmds,
          lock.keyHash = e.keyHash ∧ (e.lockType = .write → lock.lockType = .write) := by
  obtain ⟨-, -, hlocks⟩ | ⟨hfalse, -⟩ := @execLock_cases hash mgr cmds allocOk
  · rw [covered_iff, hlocks]
    have hsplit : execKeys hash cmds ++ (occurrences hash cmds).drop VLL_MAX_KEYS_PER_TXN =
        occurrences hash cmds := take_append_drop _ _
    cases allocOk with
    | true =>
      rw [← hsplit, forall_mem_append, hsplit]
      simp only [if_true, Multiset.mem_coe, true_or, true_and]
      exact and_iff_right fun e he => ⟨e, he, rfl, id⟩
    | false =>
      by_cases hnil : occurrences hash cmds = []
      · simp [hnil]
      · refine iff_of_false (fun h => ?_) fun h => hnil (h.1.resolve_left (by decide))
        obtain ⟨lock, hlock, -⟩ := h _ (head_mem hnil)
        exact absurd hlock (Multiset.notMem_zero lock)
  · cases hruns.symm.trans hfalse

/-- A write and 69 reads of other keys in turn, of which the last six repeat earlier ones. -/
def repeatedReads : List MultiCmd :=
  ⟨true, [[107]]⟩ :: (List.range 69).map fun i => ⟨false, [[UInt8.ofNat (i % 3)]]⟩

theorem exec_covered_iff_reads :
    64 < (occurrences fnv1a repeatedReads).length ∧
      Covered fnv1a (lockedBy (execLock fnv1a ⟨fun _ => 0, fun _ => false, 1024⟩ repeatedReads
        true).2.1) repeatedReads :=
  ⟨by decide +kernel, (exec_covered_iff fnv1a ⟨fun _ => 0, fun _ => false, 1024⟩ _ true
    (by decide +kernel)).mpr ⟨.inl rfl, by decide +kernel⟩⟩

/-- 64 reads of one key, then a write of another: the commands run and the written key has
no lock. -/
theorem exec_write_uncovered :
    (execLock fnv1a ⟨fun _ => 0, fun _ => false, 1024⟩
        (List.replicate 64 ⟨false, [[97]]⟩ ++ [⟨true, [[98]]⟩]) true).2.map
      (fun req => req.map fun r => (r.status, r.keys.any fun k => k.keyHash = fnv1a [98])) id
      = (some (.ok, false), true) := by
  decide +kernel

/-! ### The exits -/

/-- The client's part of a transaction. -/
structure Txn where
  multi : Bool
  dirtyCas : Bool
  dirtyExec : Bool
  watched : List (List UInt8)
  queued : List MultiCmd

/-- `discardTransaction`. -/
def Txn.discarded : Txn := ⟨false, false, false, [], []⟩

structure ExecState where
  txn : Txn
  denyBlocking : Bool
  inExec : Bool
  /-- The lock table, if there is an engine. -/
  mgr : Option VLLManager

/-- The transaction is dirty; `expired` says that a watched key has expired. -/
def ExecState.dirty (s : ExecState) (expired : Bool) : Bool :=
  s.txn.dirtyCas || expired || s.txn.dirtyExec

/-- `execCommand` and what is left of its request.  `discardTransaction` undoes whatever the queued
commands do to the flags of the transaction. -/
def execCommand (hash : List UInt8 → Nat) (s : ExecState) (expired allocOk : Bool) :
    ExecState × Option VLLRequest :=
  if !s.txn.multi then (s, none)
  else if s.dirty expired then ({ s with txn := .discarded }, none)
  else
    match s.mgr.map fun mgr => execLock hash mgr s.txn.queued allocOk with
    | none => (⟨.discarded, s.denyBlocking, false, none⟩, none)
    | some (mgr, req, false) => (⟨.discarded, true, false, some mgr⟩, req)
    | some (mgr, req, true) =>
      let r := req.map (vllRelease mgr)
      (⟨.discarded, s.denyBlocking, false, some (r.elim mgr Prod.fst)⟩, r.map Prod.snd)

/-- What an `EXEC` has to leave behind. -/
structure Restored (s s' : ExecState) (req : Option VLLRequest) : Prop where
  txn : s'.txn = .discarded
  denyBlocking : s'.denyBlocking = s.denyBlocking
  inExec : s'.inExec = false
  unlocked : lockedBy req = 0
  /-- A table that records some locks, with room for the readers of one request, is as it was. -/
  table : ∀ mgr ∈ s.mgr, ∀ M, Records mgr M →
    (∀ slot, tally mgr.tableSize M .read slot + VLL_MAX_KEYS_PER_TXN < 2 ^ 32) → s'.mgr = some mgr

theorem lockedBy_release (mgr : VLLManager) (req : Option VLLRequest) :
    lockedBy ((req.map (vllRelease mgr)).map Prod.snd) = 0 := by
  cases req with
  | none => rfl
  | some req => exact VLLRequest.held_not_ok (vllRelease_status mgr req)

/-- The table after the release, or after the attempt that failed. -/
theorem execLock_table {M : Multiset VLLKey} (h : Records mgr M)
    (hfits : ∀ slot, tally mgr.tableSize M .read slot + VLL_MAX_KEYS_PER_TXN < 2 ^ 32) :
    (if (execLock hash mgr cmds allocOk).2.2 then
      ((execLock hash mgr cmds allocOk).2.1.map
        (vllRelease (execLock hash mgr cmds allocOk).1)).elim
        (execLock hash mgr cmds allocOk).1 Prod.fst
    else (execLock hash mgr cmds allocOk).1) = mgr := by
  have hfits' : Fits mgr.tableSize (↑(execKeys hash cmds) + M) := by
    intro slot
    have hlen : tally mgr.tableSize ↑(execKeys hash cmds) .read slot ≤ VLL_MAX_KEYS_PER_TXN :=
      (Multiset.countP_le_card _ _).trans (length_take_le _ _)
    have hslot := hfits slot
    rw [tally] at hlen hslot ⊢
    rw [Multiset.countP_add]
    omega
  rw [execLock, vllRequestCreate_execKeys]
  by_cases hmake : execKeys hash cmds ≠ [] ∧ allocOk = true
  · rw [if_pos hmake]
    obtain ⟨mgr', req', reply, heq, hkeys, hcase⟩ :=
      @Records.vllAcquire _ ⟨execKeys hash cmds, .conflict⟩ _ h hfits' true
    simp only [heq]
    rcases hcase with ⟨rfl, hstatus, hrec, hsize⟩ | ⟨hno, -, rfl⟩
    · simp only [decide_true, if_true, Option.map_some, Option.elim_some, vllRelease,
        if_pos hstatus]
      rw [← hkeys] at hrec
      exact h.unique hrec.unlockKeys (unlockKeys_tableSize.trans hsize)
    · simp [hno]
  · rw [if_neg hmake]
    rfl

/-- **When `EXEC` restores everything**: at a dirty transaction `in_exec` was not set, and a client
whose locks are refused was one that may not block. -/
theorem exec_restores_iff (hash : List UInt8 → Nat) (s : ExecState) (expired allocOk : Bool)
    (hmulti : s.txn.multi = true) :
    Restored s (execCommand hash s expired allocOk).1 (execCommand hash s expired allocOk).2 ↔
      if s.dirty expired then s.inExec = false
      else (allocOk = true ∧ ∃ mgr ∈ s.mgr, ExecAborts hash mgr s.txn.queued) →
        s.denyBlocking = true := by
  rw [execCommand, hmulti, if_neg (by simp)]
  split_ifs with hdirty
  · exact ⟨fun h => h.inExec, fun h => ⟨rfl, rfl, h, rfl, fun _ hmgr _ _ _ => hmgr⟩⟩
  cases hmgr : s.mgr with
  | none =>
    refine iff_of_true ⟨rfl, rfl, rfl, rfl, fun mgr hsome => ?_⟩ nofun
    rw [hmgr] at hsome
    cases hsome
  | some mgr =>
    have hcases := @execLock_cases hash mgr s.txn.queued allocOk
    have htable := @execLock_table hash mgr s.txn.queued allocOk
    simp only [Option.map_some, Option.mem_some_iff, exists_eq_left']
    generalize execLock hash mgr s.txn.queued allocOk = r at hcases htable
    obtain ⟨mgr', req, runs⟩ := r
    have hsame : ∀ mgr₁ ∈ s.mgr, mgr₁ = mgr := fun mgr₁ h₁ => Option.mem_unique h₁ hmgr
    obtain ⟨rfl, hruns, -⟩ | ⟨rfl, haborts, hheld⟩ := hcases
    · refine iff_of_true ⟨rfl, rfl, rfl, lockedBy_release mgr' req, fun mgr₁ h₁ M hM hfits => ?_⟩
        fun h => absurd h hruns
      obtain rfl := hsame mgr₁ h₁
      exact congrArg some (htable hM hfits)
    · refine ⟨fun h _ => h.denyBlocking.symm, fun h => ⟨rfl, (h haborts).symm, rfl, hheld, ?_⟩⟩
      intro mgr₁ h₁ M hM hfits
      obtain rfl := hsame mgr₁ h₁
      exact congrArg some (htable hM hfits)

/-- A `MULTI` with two commands that write `k`. -/
def twiceSet (denyBlocking : Bool) : ExecState :=
  ⟨⟨true, false, false, [], [⟨true, [[107]]⟩, ⟨true, [[107]]⟩]⟩, denyBlocking, false,
    some ⟨fun _ => 0, fun _ => false, 1024⟩⟩

theorem exec_restores_iff_denied : Restored (twiceSet true)
    (execCommand fnv1a (twiceSet true) false true).1
    (execCommand fnv1a (twiceSet true) false true).2 :=
  (exec_restores_iff fnv1a (twiceSet true) false true rfl).mpr fun _ => rfl

theorem exec_leaves_denyBlocking :
    (execCommand fnv1a (twiceSet false) false true).1.denyBlocking = true := by
  decide +kernel

end NexCache.Core
