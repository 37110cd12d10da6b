import NexCache.Lib.Machine
import NexCache.Lib.Runs
import NexCache.Lib.Cells
import Mathlib.Data.Fintype.BigOperators

/-!
# The VLL lock table

`vll.c`: transactions lock sets of keys in a table of reader counts and writer
flags indexed by key hash.  One attempt locks the keys in order under `table_lock`
and rolls back if one of them is taken.

`Records mgr M` says that the table records exactly the multiset `M` of locked
keys.  Locking a key adds it (`Records.lockKey`), unlocking removes it
(`Records.unlockKey`), and the table is determined by what it records
(`Records.unique`), so a rolled-back attempt leaves no trace.
-/

namespace NexCache.Core

open Machine Runs Function Multiset Finset Option Nat

inductive VLLLockType
  | read
  | write
  deriving DecidableEq

/-- The enumeration's values, which the comparison subtracts. -/
def VLLLockType.code : VLLLockType → Int
  | .read => 0
  | .write => 1

structure VLLKey where
  keyHash : Nat
  lockType : VLLLockType
  deriving DecidableEq

inductive VLLStatus
  | ok
  | conflict
  | timeout
  | aborted
  deriving DecidableEq

structure VLLRequest where
  keys : List VLLKey
  status : VLLStatus

structure VLLManager where
  readCounts : Nat → Nat
  writeFlags : Nat → Bool
  tableSize : Nat

/-- `none` where `while (sz < table_size) sz <<= 1` does not end. -/
def vllCreate (tableSize : Nat) : Option VLLManager :=
  (doubleTo tableSize 33 1024).map fun sz => ⟨fun _ => 0, fun _ => false, sz⟩

def keyToSlot (tableSize keyHash : Nat) : Nat := u32 (keyHash &&& (tableSize - 1))

def cmpKeyHash (ka kb : VLLKey) : Int :=
  if ka.keyHash < kb.keyHash then -1
  else if ka.keyHash > kb.keyHash then 1
  else kb.lockType.code - ka.lockType.code

/-- The `qsort` of `vll_sort_keys`: keys that compare equal are equal, so any sort gives
this list. -/
def vllSortKeys (keys : List VLLKey) : List VLLKey :=
  keys.insertionSort fun ka kb => cmpKeyHash ka kb ≤ 0

/-- One round of the acquisition loop; `none` on a conflict. -/
def lockKey (mgr : VLLManager) (key : VLLKey) : Option VLLManager :=
  let slot := keyToSlot mgr.tableSize key.keyHash
  match key.lockType with
  | .read =>
    if mgr.writeFlags slot then none
    else some { mgr with
      readCounts := update mgr.readCounts slot (incr32 (mgr.readCounts slot)) }
  | .write =>
    if mgr.writeFlags slot ∨ mgr.readCounts slot > 0 then none
    else some { mgr with writeFlags := update mgr.writeFlags slot true }

/-- One round of the rollback and release loops. -/
def unlockKey (mgr : VLLManager) (key : VLLKey) : VLLManager :=
  let slot := keyToSlot mgr.tableSize key.keyHash
  match key.lockType with
  | .read =>
    if mgr.readCounts slot > 0 then
      { mgr with readCounts := update mgr.readCounts slot (mgr.readCounts slot - 1) }
    else mgr
  | .write => { mgr with writeFlags := update mgr.writeFlags slot false }

/-- The acquisition loop: the table, `acquired_count` and `conflict`. -/
def lockKeys : VLLManager → List VLLKey → VLLManager × Nat × Bool
  | mgr, [] => (mgr, 0, false)
  | mgr, key :: keys =>
    match lockKey mgr key with
    | none => (mgr, 0, true)
    | some mgr' =>
      let r := lockKeys mgr' keys
      (r.1, r.2.1 + 1, r.2.2)

def unlockKeys (mgr : VLLManager) (keys : List VLLKey) : VLLManager := keys.foldl unlockKey mgr

/-- One attempt of `vll_acquire`: the table, the request and what the call returns, if it
does not go on to another attempt.  `late` says that the deadline has passed. -/
def vllAcquire (mgr : VLLManager) (req : VLLRequest) (late : Bool) :
    VLLManager × VLLRequest × Option VLLStatus :=
  if req.keys = [] then (mgr, req, some .aborted)
  else
    let keys := vllSortKeys req.keys
    let r := lockKeys mgr keys
    if r.2.2 = false then (r.1, ⟨keys, .ok⟩, some .ok)
    else
      let mgr' := unlockKeys r.1 (keys.take r.2.1)
      if late then (mgr', ⟨keys, .timeout⟩, some .timeout)
      else (mgr', ⟨keys, req.status⟩, none)

def vllRelease (mgr : VLLManager) (req : VLLRequest) : VLLManager × VLLRequest :=
  if req.status = .ok then (unlockKeys mgr req.keys, ⟨req.keys, .aborted⟩) else (mgr, req)

/-! ### What the table records -/

/-- The key is locked in this mode in this slot of a table of this size. -/
def VLLKey.At (tableSize : Nat) (ty : VLLLockType) (slot : Nat) (key : VLLKey) : Prop :=
  key.lockType = ty ∧ keyToSlot tableSize key.keyHash = slot

instance (tableSize : Nat) (ty : VLLLockType) (slot : Nat) :
    DecidablePred (VLLKey.At tableSize ty slot) :=
  fun _ => inferInstanceAs (Decidable (_ ∧ _))

/-- How many of the keys are locked in this mode in this slot. -/
def tally (tableSize : Nat) (M : Multiset VLLKey) (ty : VLLLockType) (slot : Nat) : Nat :=
  M.countP (VLLKey.At tableSize ty slot)

/-- A key counts in its own mode and slot and nowhere else. -/
theorem tally_cons (tableSize : Nat) (key : VLLKey) (M : Multiset VLLKey) (ty : VLLLockType) :
    tally tableSize (key ::ₘ M) ty =
      if key.lockType = ty then update (tally tableSize M ty) (keyToSlot tableSize key.keyHash)
        (tally tableSize M ty (keyToSlot tableSize key.keyHash) + 1)
      else tally tableSize M ty := by
  funext slot
  rw [tally, countP_cons, ← tally]
  by_cases hty : key.lockType = ty
  · by_cases hslot : slot = keyToSlot tableSize key.keyHash
    · simp [VLLKey.At, hty, hslot]
    · simp [VLLKey.At, hty, hslot, Ne.symm hslot]
  · simp [VLLKey.At, hty]

/-- The table records exactly the locked keys `M`. -/
structure Records (mgr : VLLManager) (M : Multiset VLLKey) : Prop where
  reads : ∀ slot, mgr.readCounts slot = tally mgr.tableSize M .read slot
  writes : ∀ slot, (mgr.writeFlags slot).toNat = tally mgr.tableSize M .write slot
  /-- A slot with a writer has no readers. -/
  exclusive : ∀ slot, mgr.writeFlags slot = true → mgr.readCounts slot = 0

/-- No reader count of the keys `M` wraps. -/
def Fits (tableSize : Nat) (M : Multiset VLLKey) : Prop :=
  ∀ slot, tally tableSize M .read slot < 2 ^ 32

variable {tableSize : Nat}

theorem Fits.of_add {M N : Multiset VLLKey} (h : Fits tableSize (M + N)) : Fits tableSize N := by
  intro slot
  have hsum := h slot
  rw [tally, countP_add] at hsum
  exact lt_of_le_of_lt (le_add_left _ _) hsum

variable {M : Multiset VLLKey}

theorem Records.unique {mgr mgr' : VLLManager} (h : Records mgr M) (h' : Records mgr' M)
    (hsize : mgr'.tableSize = mgr.tableSize) : mgr' = mgr := by
  obtain ⟨reads, writes, size⟩ := mgr
  obtain ⟨reads', writes', size'⟩ := mgr'
  obtain rfl : size' = size := hsize
  have hreads : reads' = reads := funext fun slot => (h'.reads slot).trans (h.reads slot).symm
  have hwrites : writes' = writes := by
    funext slot
    have hinj : ∀ b b' : Bool, b'.toNat = b.toNat → b' = b := by decide
    exact hinj _ _ ((h'.writes slot).trans (h.writes slot).symm)
  rw [hreads, hwrites]

@[simp] theorem unlockKey_tableSize (mgr : VLLManager) (key : VLLKey) :
    (unlockKey mgr key).tableSize = mgr.tableSize := by
  rw [unlockKey]
  split
  · split <;> rfl
  · rfl

theorem Records.lockKey {mgr mgr' : VLLManager} {key : VLLKey} (h : Records mgr M)
    (hfits : Fits mgr.tableSize (key ::ₘ M)) (hlock : Core.lockKey mgr key = some mgr') :
    Records mgr' (key ::ₘ M) ∧ mgr'.tableSize = mgr.tableSize := by
  have hle := hfits (keyToSlot mgr.tableSize key.keyHash)
  rw [Core.lockKey] at hlock
  cases hty : key.lockType with
  | read =>
    simp only [hty] at hlock
    split at hlock
    · simp at hlock
    rename_i hfree
    obtain rfl := some.inj hlock
    rw [tally_cons, if_pos hty, update_self, ← h.reads] at hle
    refine ⟨⟨fun slot => ?_, fun slot => ?_, fun slot hw => ?_⟩, rfl⟩
    · rw [tally_cons, if_pos hty, ← funext h.reads, incr32, u32_of_lt hle]
    · rw [tally_cons, if_neg (by simp [hty])]
      exact h.writes slot
    · have hslot : slot ≠ keyToSlot mgr.tableSize key.keyHash := by
        rintro rfl
        exact hfree hw
      exact (update_of_ne hslot _ _).trans (h.exclusive slot hw)
  | write =>
    simp only [hty] at hlock
    split at hlock
    · simp at hlock
    rename_i hfree
    obtain ⟨hflag, hcount⟩ := not_or.mp hfree
    obtain rfl := some.inj hlock
    refine ⟨⟨fun slot => ?_, fun slot => ?_, fun slot hw => ?_⟩, rfl⟩
    · rw [tally_cons, if_neg (by simp [hty])]
      exact h.reads slot
    · rw [tally_cons, if_pos hty, ← funext h.writes]
      dsimp only
      rw [Bool.eq_false_iff.mpr hflag]
      exact apply_update (fun _ => Bool.toNat) _ _ _ slot
    · by_cases hslot : slot = keyToSlot mgr.tableSize key.keyHash
      · rw [hslot]
        exact Nat.eq_zero_of_not_pos hcount
      · exact h.exclusive slot ((update_of_ne hslot _ _).symm.trans hw)

theorem Records.unlockKey {mgr : VLLManager} {key : VLLKey}
    (h : Records mgr (key ::ₘ M)) : Records (Core.unlockKey mgr key) M := by
  have hreads := funext h.reads
  have hwrites := funext h.writes
  have hexcl := h.exclusive
  rw [tally_cons] at hreads hwrites
  rw [Core.unlockKey]
  cases hty : key.lockType with
  | read =>
    rw [if_pos hty] at hreads
    rw [if_neg (by simp [hty])] at hwrites
    have hown := congrFun hreads (keyToSlot mgr.tableSize key.keyHash)
    rw [update_self] at hown
    simp only [if_pos (show mgr.readCounts (keyToSlot mgr.tableSize key.keyHash) > 0 by omega)]
    refine ⟨fun slot => ?_, congrFun hwrites, fun slot hw => ?_⟩
    · rw [hown, hreads, update_idem, Nat.add_sub_cancel, update_eq_self]
    · have hzero := hexcl slot hw
      have hslot : slot ≠ keyToSlot mgr.tableSize key.keyHash := by
        rintro rfl
        omega
      exact (update_of_ne hslot _ _).trans hzero
  | write =>
    rw [if_neg (by simp [hty])] at hreads
    rw [if_pos hty] at hwrites
    have hown := congrFun hwrites (keyToSlot mgr.tableSize key.keyHash)
    rw [update_self] at hown
    have hnone := le_zero.mp (le_of_succ_le_succ (hown.symm.trans_le (Bool.toNat_le _)))
    refine ⟨congrFun hreads, fun slot => ?_, fun slot hw => ?_⟩
    · refine (apply_update (fun _ => Bool.toNat) _ _ _ slot).trans ?_
      rw [hwrites, update_idem, Bool.toNat_false, ← hnone, update_eq_self]
    · by_cases hslot : slot = keyToSlot mgr.tableSize key.keyHash
      · rw [hslot] at hw
        cases (update_self ..).symm.trans hw
      · exact hexcl slot ((update_of_ne hslot _ _).symm.trans hw)

variable {keys : List VLLKey} {req : VLLRequest}

/-- The acquisition loop locks the keys before the first conflict, or all of them. -/
theorem Records.lockKeys : ∀ {mgr : VLLManager} {M : Multiset VLLKey},
    Records mgr M → Fits mgr.tableSize (↑keys + M) →
    Records (Core.lockKeys mgr keys).1 (↑(keys.take (Core.lockKeys mgr keys).2.1) + M)
      ∧ (Core.lockKeys mgr keys).1.tableSize = mgr.tableSize
      ∧ ((Core.lockKeys mgr keys).2.2 = false → (Core.lockKeys mgr keys).2.1 = keys.length) := by
  induction keys with
  | nil =>
    intro mgr M h _
    rw [Core.lockKeys]
    exact ⟨by simpa using h, rfl, fun _ => rfl⟩
  | cons key keys ih =>
    intro mgr M h hfits
    rw [Core.lockKeys]
    rw [← cons_coe, cons_add, ← add_cons] at hfits
    cases hlock : Core.lockKey mgr key with
    | none => exact ⟨by simpa using h, rfl, nofun⟩
    | some mgr' =>
      obtain ⟨h', hsize⟩ := h.lockKey hfits.of_add hlock
      obtain ⟨hrec, hsize', hall⟩ := ih h' (by rw [hsize]; exact hfits)
      refine ⟨?_, hsize'.trans hsize, fun hfalse => ?_⟩
      · rw [List.take_succ_cons, ← cons_coe, cons_add, ← add_cons]
        exact hrec
      · exact congrArg (· + 1) (hall hfalse)

theorem Records.unlockKeys : ∀ {mgr : VLLManager} {M : Multiset VLLKey},
    Records mgr (↑keys + M) → Records (Core.unlockKeys mgr keys) M := by
  induction keys with
  | nil =>
    intro mgr M h
    rw [coe_nil, zero_add] at h
    exact h
  | cons key keys ih =>
    intro mgr M h
    rw [← cons_coe, cons_add] at h
    exact ih h.unlockKey

theorem unlockKeys_tableSize :
    ∀ {mgr : VLLManager}, (unlockKeys mgr keys).tableSize = mgr.tableSize := by
  induction keys with
  | nil => intro mgr; rfl
  | cons key keys ih => intro mgr; exact ih.trans (unlockKey_tableSize mgr key)

theorem coe_vllSortKeys (keys : List VLLKey) : (↑(vllSortKeys keys) : Multiset VLLKey) = ↑keys :=
  coe_eq_coe.mpr (List.perm_insertionSort _ keys)

/-- **What an attempt does**: it locks all the keys and sets `VLL_OK`, or it leaves the
table as it found it and sets another status or none. -/
theorem Records.vllAcquire {mgr : VLLManager} (h : Records mgr M)
    (hfits : Fits mgr.tableSize (↑req.keys + M)) (late : Bool) :
    ∃ mgr' req' reply, Core.vllAcquire mgr req late = (mgr', req', reply)
      ∧ (↑req'.keys : Multiset VLLKey) = ↑req.keys
      ∧ ((reply = some .ok ∧ req'.status = .ok ∧ Records mgr' (↑req.keys + M)
            ∧ mgr'.tableSize = mgr.tableSize)
          ∨ (reply ≠ some .ok ∧ (req.status ≠ .ok → req'.status ≠ .ok) ∧ mgr' = mgr)) := by
  rw [Core.vllAcquire]
  by_cases hnil : req.keys = []
  · rw [if_pos hnil]
    exact ⟨mgr, req, some .aborted, rfl, rfl, .inr ⟨by decide, id, rfl⟩⟩
  rw [if_neg hnil]
  rw [← coe_vllSortKeys] at hfits
  obtain ⟨hrec, hsize, hall⟩ := h.lockKeys hfits
  dsimp only
  split
  · rename_i hfalse
    refine ⟨_, _, _, rfl, coe_vllSortKeys _, .inl ⟨rfl, rfl, ?_, hsize⟩⟩
    rw [hall hfalse, List.take_length, coe_vllSortKeys] at hrec
    exact hrec
  · have hback := h.unique hrec.unlockKeys (unlockKeys_tableSize.trans hsize)
    split
    · exact ⟨_, _, _, rfl, coe_vllSortKeys _, .inr ⟨by decide, fun _ => nofun, hback⟩⟩
    · exact ⟨_, _, _, rfl, coe_vllSortKeys _, .inr ⟨by decide, id, hback⟩⟩

/-! ### Any number of transactions -/

section Transactions

variable {ι : Type*} [Fintype ι] [DecidableEq ι]

structure VllState (ι : Type*) where
  mgr : VLLManager
  reqs : ι → VLLRequest

inductive VllCall (ι : Type*)
  /-- One attempt of the transaction's `vll_acquire`. -/
  | acquire (i : ι) (late : Bool)
  | release (i : ι)

/-- The steps of all transactions; the reply is what a finished `vll_acquire` returns. -/
def vllStep (s : VllState ι) : VllCall ι → Option (VllState ι × Option VLLStatus)
  | .acquire i late =>
    let r := vllAcquire s.mgr (s.reqs i) late
    some (⟨r.1, update s.reqs i r.2.1⟩, r.2.2)
  | .release i =>
    let r := vllRelease s.mgr (s.reqs i)
    some (⟨r.1, update s.reqs i r.2⟩, none)

/-- The keys a request holds. -/
def VLLRequest.held (req : VLLRequest) : Multiset VLLKey :=
  if req.status = .ok then ↑req.keys else 0

theorem VLLRequest.held_ok (h : req.status = .ok) : req.held = ↑req.keys :=
  if_pos h

theorem VLLRequest.held_not_ok (h : req.status ≠ .ok) : req.held = 0 := if_neg h

def VllState.held (s : VllState ι) : Multiset VLLKey := ∑ i, (s.reqs i).held

/-- What the transactions other than `i` hold. -/
def VllState.others (s : VllState ι) (i : ι) : Multiset VLLKey :=
  ∑ j ∈ univ \ {i}, (s.reqs j).held

theorem VllState.held_eq (s : VllState ι) (i : ι) : s.held = (s.reqs i).held + s.others i := by
  rw [held, others, sdiff_singleton_eq_erase]
  exact (add_sum_erase _ (fun j => (s.reqs j).held) (mem_univ i)).symm

theorem held_update (s : VllState ι) (mgr : VLLManager) (i : ι) (req : VLLRequest) :
    (VllState.mk mgr (update s.reqs i req)).held = req.held + s.others i := by
  rw [VllState.held_eq _ i]
  simp only [update_self]
  refine congrArg _ (sum_congr rfl fun j hj => ?_)
  have hne : j ≠ i := by simpa using hj
  simp only [update_of_ne hne]

/-- A request that holds its locks is not acquired again, and no reader count wraps. -/
def VllSafe (s : VllState ι) : VllCall ι → Prop
  | .acquire i _ => (s.reqs i).status ≠ .ok ∧ Fits s.mgr.tableSize (↑(s.reqs i).keys + s.held)
  | .release _ => True

variable {s : VllState ι}

/-- Every step keeps the table a record of what the transactions hold, and an attempt that
does not succeed leaves the table unchanged. -/
theorem vllStep_records (h : Records s.mgr s.held) {c : VllCall ι}
    (hsafe : VllSafe s c) : ∃ s' reply, vllStep s c = some (s', reply) ∧ Records s'.mgr s'.held
      ∧ s'.mgr.tableSize = s.mgr.tableSize
      ∧ (∀ i late, c = .acquire i late → reply ≠ some .ok → s'.mgr = s.mgr) := by
  cases c with
  | acquire i late =>
    obtain ⟨hfree, hfits⟩ := hsafe
    obtain ⟨mgr', req', reply, heq, hkeys, hcase⟩ := h.vllAcquire hfits late
    rw [vllStep, heq]
    refine ⟨_, _, rfl, ?_⟩
    rw [held_update]
    have hheld := s.held_eq i
    rw [VLLRequest.held_not_ok hfree, zero_add] at hheld
    rw [← hheld]
    rcases hcase with ⟨hreply, hok, hrec, hsize⟩ | ⟨_, hok, rfl⟩
    · rw [VLLRequest.held_ok hok, hkeys]
      exact ⟨hrec, hsize, fun _ _ _ hne => absurd hreply hne⟩
    · rw [VLLRequest.held_not_ok (hok hfree), zero_add]
      exact ⟨h, rfl, fun _ _ _ _ => rfl⟩
  | release i =>
    rw [vllStep]
    refine ⟨_, _, rfl, ?_⟩
    rw [held_update, vllRelease]
    rw [s.held_eq i] at h
    split
    · rename_i hok
      rw [VLLRequest.held_ok hok] at h
      rw [VLLRequest.held_not_ok (by simp), zero_add]
      exact ⟨h.unlockKeys, unlockKeys_tableSize, nofun⟩
    · exact ⟨h, rfl, nofun⟩

omit [DecidableEq ι] in
theorem records_create {mgr : VLLManager}
    (hcreate : vllCreate tableSize = some mgr) {reqs : ι → VLLRequest}
    (hnew : ∀ i, (reqs i).status = .conflict) :
    Records (VllState.mk mgr reqs).mgr (VllState.mk mgr reqs).held := by
  obtain ⟨sz, _, rfl⟩ := map_eq_some_iff.mp hcreate
  have hheld : (VllState.mk ⟨fun _ => 0, fun _ => false, sz⟩ reqs).held = 0 :=
    sum_eq_zero fun i _ => VLLRequest.held_not_ok (by simp [hnew i])
  rw [hheld]
  exact ⟨fun slot => rfl, fun slot => rfl, fun slot _ => rfl⟩

/-! ### What the record means -/

omit [DecidableEq ι] in
theorem tally_held (s : VllState ι) (tableSize : Nat) (ty : VLLLockType) (slot : Nat) :
    tally tableSize s.held ty slot
      = ∑ i with (s.reqs i).status = .ok, tally tableSize ↑(s.reqs i).keys ty slot := by
  have hsum : tally tableSize s.held ty slot = ∑ i, tally tableSize (s.reqs i).held ty slot :=
    map_sum (countPAddMonoidHom (VLLKey.At tableSize ty slot)) _ _
  rw [hsum, sum_filter]
  refine sum_congr rfl fun i _ => ?_
  by_cases hok : (s.reqs i).status = .ok
  · rw [if_pos hok, VLLRequest.held_ok hok]
  · rw [if_neg hok, VLLRequest.held_not_ok hok]
    exact countP_zero _

variable {ty : VLLLockType} {slot : Nat}

theorem tally_pos {keys : List VLLKey} :
    0 < tally tableSize ↑keys ty slot ↔ ∃ key ∈ keys, key.At tableSize ty slot := by
  rw [tally, countP_pos]
  rfl

omit [Fintype ι] in
/-- A sum that is at most one is one if and only if exactly one term is positive. -/
theorem sum_eq_one_iff {F : Finset ι} {f : ι → Nat} (hle : ∑ i ∈ F, f i ≤ 1) :
    ∑ i ∈ F, f i = 1 ↔ ∃! i, i ∈ F ∧ 0 < f i := by
  constructor
  · intro hone
    obtain ⟨i, hi, hne⟩ := exists_ne_zero_of_sum_ne_zero (by omega : ∑ i ∈ F, f i ≠ 0)
    refine ⟨i, ⟨hi, pos_of_ne_zero hne⟩, ?_⟩
    rintro j ⟨hj, hpos⟩
    by_contra hji
    -- two positive terms already give two
    have hrest := single_le_sum (f := f) (fun _ _ => zero_le _)
      (mem_erase.mpr ⟨hji, hj⟩)
    have hsum := add_sum_erase F f hi
    omega
  · rintro ⟨i, ⟨hi, hpos⟩, _⟩
    have hterm := single_le_sum (f := f) (fun _ _ => zero_le _) hi
    omega

/-- The transaction holds a key in this mode in this slot. -/
def VllState.Holds (s : VllState ι) (i : ι) (ty : VLLLockType) (slot : Nat) : Prop :=
  (s.reqs i).status = .ok ∧ ∃ key ∈ (s.reqs i).keys, key.At s.mgr.tableSize ty slot

theorem Records.flag_iff (h : Records s.mgr s.held) (slot : Nat) :
    s.mgr.writeFlags slot = true ↔ ∃! i, s.Holds i .write slot := by
  have hsum := h.writes slot
  rw [tally_held] at hsum
  have hle := Bool.toNat_le (s.mgr.writeFlags slot)
  rw [hsum] at hle
  have hiff := sum_eq_one_iff hle
  rw [← hsum] at hiff
  simp only [Finset.mem_filter, Finset.mem_univ, true_and, tally_pos] at hiff
  rw [← Bool.toNat_eq_one, hiff]
  rfl

omit [DecidableEq ι] in
theorem VllState.Holds.tally_pos {i : ι}
    (hi : s.Holds i ty slot) : 0 < tally s.mgr.tableSize s.held ty slot := by
  have hmem : i ∈ univ.filter fun j => (s.reqs j).status = .ok :=
    Finset.mem_filter.mpr ⟨Finset.mem_univ i, hi.1⟩
  rw [tally_held]
  exact lt_of_lt_of_le (Core.tally_pos.mpr hi.2) (single_le_sum
    (f := fun j => tally s.mgr.tableSize ↑(s.reqs j).keys ty slot) (fun _ _ => zero_le _) hmem)

/-- Nobody shares a slot with a writer. -/
theorem Records.alone (h : Records s.mgr s.held) {i j : ι} (hi : s.Holds i .write slot)
    (hj : s.Holds j ty slot) : j = i := by
  have hflag : s.mgr.writeFlags slot = true := by
    have hpos := hi.tally_pos
    rw [← h.writes] at hpos
    exact Bool.toNat_eq_one.mp (le_antisymm (Bool.toNat_le _) hpos)
  cases ty with
  | read =>
    have hpos := hj.tally_pos
    rw [← h.reads, h.exclusive slot hflag] at hpos
    exact absurd hpos (lt_irrefl 0)
  | write => exact ((h.flag_iff slot).mp hflag).unique hj hi

omit [DecidableEq ι] in
theorem Records.zero (h : Records s.mgr s.held) (hnone : ∀ i, (s.reqs i).status ≠ .ok)
    (slot : Nat) : s.mgr.readCounts slot = 0 ∧ s.mgr.writeFlags slot = false := by
  have hheld : s.held = 0 := sum_eq_zero fun i _ => VLLRequest.held_not_ok (hnone i)
  have hreads := h.reads slot
  have hwrites := h.writes slot
  rw [hheld] at hreads hwrites
  exact ⟨hreads, Bool.toNat_eq_zero.mp hwrites⟩

theorem vllRelease_status (mgr : VLLManager) (req : VLLRequest) :
    (vllRelease mgr req).2.status ≠ .ok := by
  rw [vllRelease]
  split
  · simp
  · assumption

/-- Releases in any order leave no transaction of the list with status `VLL_OK`. -/
theorem run_releases (is : List ι) : ∀ {s : VllState ι}, Records s.mgr s.held →
    ∃ t replies, run vllStep s (is.map .release) = some (t, replies) ∧ Records t.mgr t.held
      ∧ ∀ i, i ∈ is ∨ (s.reqs i).status ≠ .ok → (t.reqs i).status ≠ .ok := by
  induction is with
  | nil => intro s h; exact ⟨s, [], rfl, h, fun i hi => hi.resolve_left (by simp)⟩
  | cons j is ih =>
    intro s h
    obtain ⟨s', reply, hstep, h', -⟩ := vllStep_records h (c := .release j) trivial
    obtain ⟨t, replies, hrun, ht, hnone⟩ := ih h'
    refine ⟨t, reply :: replies, ?_, ht, fun i hi => hnone i ?_⟩
    · rw [List.map_cons, run, hstep]
      simp only [hrun, map_some]
    · obtain ⟨rfl, _⟩ := result_inj hstep
      dsimp only
      by_cases hij : i = j
      · subst hij
        rw [update_self]
        exact .inr (vllRelease_status _ _)
      · rw [update_of_ne hij]
        exact hi.imp_left fun hmem => (List.mem_cons.mp hmem).resolve_left hij

/-- **The lock table is exact.**  In every run in which no request is acquired again while
it holds its locks and no reader count wraps, every state has this: a slot's reader count
is the number of read keys held there; its writer flag is set iff exactly one
transaction holds a write key there; two transactions share a key only for reading; an
attempt that does not succeed leaves the table as it is; and releasing all transactions
clears it. -/
theorem vll_table_exact {tableSize : Nat} {mgr : VLLManager}
    (hcreate : vllCreate tableSize = some mgr) {reqs : ι → VLLRequest}
    (hnew : ∀ i, (reqs i).status = .conflict) {calls : List (VllCall ι)}
    (hsafe : Along vllStep VllSafe ⟨mgr, reqs⟩ calls) :
    ∃ s replies, run vllStep ⟨mgr, reqs⟩ calls = some (s, replies)
      ∧ (∀ slot, s.mgr.readCounts slot = ∑ i with (s.reqs i).status = .ok,
          tally s.mgr.tableSize ↑(s.reqs i).keys .read slot)
      ∧ (∀ slot, s.mgr.writeFlags slot = true ↔ ∃! i, s.Holds i .write slot)
      ∧ (∀ i j, i ≠ j → (s.reqs i).status = .ok → (s.reqs j).status = .ok →
          ∀ key ∈ (s.reqs i).keys, ∀ key' ∈ (s.reqs j).keys, key.keyHash = key'.keyHash →
            key.lockType = .read ∧ key'.lockType = .read)
      ∧ (∀ i late s' reply, VllSafe s (.acquire i late) →
          vllStep s (.acquire i late) = some (s', reply) → reply ≠ some .ok → s'.mgr = s.mgr)
      ∧ (∀ is : List ι, (∀ i, i ∈ is) → ∃ t replies',
          run vllStep s (is.map .release) = some (t, replies')
            ∧ ∀ slot, t.mgr.readCounts slot = 0 ∧ t.mgr.writeFlags slot = false) := by
  obtain ⟨s, replies, hrun, h⟩ := run_total (I := fun s : VllState ι => Records s.mgr s.held)
    (fun s c h hsafe => by
      obtain ⟨s', reply, hstep, h', -⟩ := vllStep_records h hsafe
      exact ⟨s', reply, hstep, h'⟩)
    (records_create hcreate hnew) hsafe
  refine ⟨s, replies, hrun, fun slot => (h.reads slot).trans (tally_held s ..), h.flag_iff,
    ?_, ?_, ?_⟩
  · intro i j hij hi hj key hkey key' hkey' hhash
    -- a writer among the two would be alone in the slot
    have hholds : s.Holds i key.lockType (keyToSlot s.mgr.tableSize key.keyHash) :=
      ⟨hi, key, hkey, rfl, rfl⟩
    have hholds' : s.Holds j key'.lockType (keyToSlot s.mgr.tableSize key.keyHash) :=
      ⟨hj, key', hkey', rfl, by rw [hhash]⟩
    constructor
    · cases hty : key.lockType with
      | read => rfl
      | write => exact absurd (h.alone (hty ▸ hholds) hholds') (Ne.symm hij)
    · cases hty : key'.lockType with
      | read => rfl
      | write => exact absurd (h.alone (hty ▸ hholds') hholds) hij
  · intro i late s' reply hsafe hstep hfail
    obtain ⟨s'', reply', hstep', -, -, hkeep⟩ := vllStep_records h hsafe
    rw [hstep'] at hstep
    obtain ⟨rfl, rfl⟩ := result_inj hstep
    exact hkeep i late rfl hfail
  · intro is hall
    obtain ⟨t, replies', hrun', ht, hnone⟩ := run_releases is h
    exact ⟨t, replies', hrun', fun slot => ht.zero (fun i => hnone i (.inl (hall i))) slot⟩

end Transactions

theorem Fits.of_card {M : Multiset VLLKey} (h : M.card < 2 ^ 32) : Fits tableSize M :=
  fun _ => lt_of_le_of_lt (countP_le_card _ _) h

/-- A writer and a reader of key `5`. -/
def twoRequests (i : Fin 2) : VLLRequest := ⟨[⟨5, if i = 0 then .write else .read⟩], .conflict⟩

/-- The reader times out behind the writer, and then the writer releases. -/
theorem vll_table_exact_two : ∃ mgr, vllCreate 1024 = some mgr
    ∧ ∃ s replies, run vllStep ⟨mgr, twoRequests⟩
        [.acquire 0 false, .acquire 1 true, .release 0] = some (s, replies)
      ∧ ∀ slot, s.mgr.writeFlags slot = true ↔ ∃! i, s.Holds i .write slot := by
  refine ⟨⟨fun _ => 0, fun _ => false, 1024⟩, rfl, ?_⟩
  have hsafe : Along vllStep VllSafe ⟨⟨fun _ => 0, fun _ => false, 1024⟩, twoRequests⟩
      [.acquire 0 false, .acquire 1 true, .release 0] := by
    refine ⟨⟨by decide, .of_card (by decide +kernel)⟩, fun s' _ hstep => ?_⟩
    obtain ⟨rfl, _⟩ := result_inj hstep
    exact ⟨⟨by decide +kernel, .of_card (by decide +kernel)⟩,
      fun _ _ _ => ⟨trivial, fun _ _ _ => trivial⟩⟩
  have hcreate : vllCreate 1024 = some ⟨fun _ => 0, fun _ => false, 1024⟩ := rfl
  obtain ⟨s, replies, hrun, -, hflags, -⟩ := vll_table_exact hcreate (fun _ => rfl) hsafe
  exact ⟨s, replies, hrun, hflags⟩

/-! ### Where the record is lost -/

/-- `n` readers of key `5`, and a writer of it. -/
def crowd {n : Nat} (i : Option (Fin n)) : VLLRequest :=
  ⟨[⟨5, if i.isNone then .write else .read⟩], .conflict⟩

theorem vllAcquire_one_reader {mgr : VLLManager} {late : Bool}
    (hkeys : req.keys = [⟨5, .read⟩]) (hfree : ∀ slot, mgr.writeFlags slot = false) :
    vllAcquire mgr req late = ({ mgr with
      readCounts := update mgr.readCounts (keyToSlot mgr.tableSize 5)
        (incr32 (mgr.readCounts (keyToSlot mgr.tableSize 5))) }, ⟨[⟨5, .read⟩], .ok⟩,
        some .ok) := by
  simp [vllAcquire, hkeys, vllSortKeys, lockKeys, lockKey, hfree]

/-- No slot has a writer, and `count` readers have come to key `5`. -/
structure Crowded {n : Nat} (s : VllState (Option (Fin n))) (count : Nat) : Prop where
  free : ∀ slot, s.mgr.writeFlags slot = false
  keys : ∀ i, (s.reqs i).keys = (crowd i).keys
  reads : s.mgr.readCounts (keyToSlot s.mgr.tableSize 5) = u32 count

variable {n : Nat}

/-- Each reader raises the count of the slot by one, modulo `2^32`. -/
theorem Crowded.reader {s : VllState (Option (Fin n))} {count : Nat} (h : Crowded s count)
    (j : Fin n) : ∃ s', vllStep s (.acquire (some j) false) = some (s', some .ok)
      ∧ Crowded s' (count + 1) ∧ (s'.reqs (some j)).status = .ok
      ∧ ∀ i, (s.reqs i).status = .ok → (s'.reqs i).status = .ok := by
  rw [vllStep, vllAcquire_one_reader (h.keys (some j)) h.free]
  refine ⟨_, rfl, ⟨h.free, fun i => ?_, ?_⟩, ?_, fun i hi => ?_⟩ <;> dsimp only
  · by_cases hij : i = some j
    · subst hij
      rw [update_self]
      rfl
    · rw [update_of_ne hij, h.keys]
  · rw [update_self, h.reads, incr32_u32]
  · rw [update_self]
  · by_cases hij : i = some j
    · subst hij
      rw [update_self]
    · rw [update_of_ne hij]
      exact hi

theorem Crowded.readers (js : List (Fin n)) : ∀ {s : VllState (Option (Fin n))}
    {count : Nat}, Crowded s count →
    ∃ t replies, run vllStep s (js.map fun j => .acquire (some j) false) = some (t, replies)
      ∧ Crowded t (count + js.length) ∧ (∀ i, (s.reqs i).status = .ok → (t.reqs i).status = .ok)
      ∧ ∀ j ∈ js, (t.reqs (some j)).status = .ok := by
  induction js with
  | nil => intro s count h; exact ⟨s, [], rfl, h, fun _ => id, by simp⟩
  | cons j js ih =>
    intro s count h
    obtain ⟨s', hstep, h', hj, hkeep⟩ := h.reader j
    obtain ⟨t, replies, hrun, ht, hkeep', hjs⟩ := ih h'
    refine ⟨t, some .ok :: replies, ?_, ?_, fun i hi => hkeep' i (hkeep i hi), ?_⟩
    · rw [List.map_cons, run, hstep]
      simp only [hrun, map_some]
    · rw [List.length_cons, add_comm js.length, ← add_assoc]
      exact ht
    · exact List.forall_mem_cons.mpr ⟨hkeep' _ hj, hjs⟩

/-- With `2^32` readers in its slot the writer finds a reader count of zero. -/
theorem Crowded.writer {s : VllState (Option (Fin n))} (h : Crowded s (2 ^ 32)) :
    ∃ t, vllStep s (.acquire none false) = some (t, some .ok)
      ∧ t.reqs none = ⟨[⟨5, .write⟩], .ok⟩ ∧ ∀ j, t.reqs (some j) = s.reqs (some j) := by
  have hzero : s.mgr.readCounts (keyToSlot s.mgr.tableSize 5) = 0 := h.reads
  have hacquire : vllAcquire s.mgr (s.reqs none) false = ({ s.mgr with
      writeFlags := update s.mgr.writeFlags (keyToSlot s.mgr.tableSize 5) true },
      ⟨[⟨5, .write⟩], .ok⟩, some .ok) := by
    simp [vllAcquire, h.keys, crowd, vllSortKeys, lockKeys, lockKey, h.free, hzero]
  rw [vllStep, hacquire]
  refine ⟨_, rfl, ?_, fun j => ?_⟩ <;> dsimp only
  · rw [update_self]
  · rw [update_of_ne (by simp)]

/-- **Locks can be lost.**  A request that is acquired a second time while it holds its
locks conflicts with itself, and the timeout replaces `VLL_OK`: `vll_release` then does
nothing and the slot stays write-locked with no transaction holding it.  And after
`2^32` readers of a key its count is zero, so a writer of the same key gets `VLL_OK`
beside them. -/
theorem vll_locks_lost :
    ((vllCreate 1024).bind fun mgr =>
      (run vllStep ⟨mgr, fun _ : Fin 1 => ⟨[⟨5, .write⟩], .conflict⟩⟩
        [.acquire 0 false, .acquire 0 true, .release 0]).map fun r =>
          (r.2, r.1.mgr.writeFlags 5, (r.1.reqs 0).status))
      = some ([some .ok, some .timeout, none], true, .timeout)
    ∧ ∃ mgr t replies, vllCreate 1024 = some mgr
      ∧ run vllStep ⟨mgr, crowd⟩ (((List.finRange (2 ^ 32)).map fun j => .acquire (some j) false)
          ++ [.acquire none false]) = some (t, replies)
      ∧ t.reqs none = ⟨[⟨5, .write⟩], .ok⟩
      ∧ (t.reqs (some 0)).status = .ok ∧ (t.reqs (some 0)).keys = [⟨5, .read⟩] := by
  refine ⟨by decide +kernel, ⟨fun _ => 0, fun _ => false, 1024⟩, ?_⟩
  have hinit : Crowded (n := 2 ^ 32) ⟨⟨fun _ => 0, fun _ => false, 1024⟩, crowd⟩ 0 :=
    ⟨fun _ => rfl, fun _ => rfl, rfl⟩
  obtain ⟨s, replies, hrun, hs, -, hok⟩ := hinit.readers (List.finRange (2 ^ 32))
  rw [List.length_finRange, zero_add] at hs
  obtain ⟨t, hstep, hnone, hkeep⟩ := hs.writer
  refine ⟨t, replies ++ [some .ok], rfl, run_middle hrun hstep rfl, hnone, ?_⟩
  rw [hkeep]
  exact ⟨hok 0 (List.mem_finRange 0), hs.keys (some 0)⟩

/-! ### One request against an idle table -/

def VLL_MAX_KEYS_PER_TXN : Nat := 64

/-- A queued command: whether it has `CMD_WRITE`, and the keys `getKeysFromCommand` finds. -/
structure MultiCmd where
  write : Bool
  keys : List (List UInt8)

/-- The entries of all keys of the queued commands, one for each occurrence of a key.  `hash` is
`multi_fnv1a_64`. -/
def occurrences (hash : List UInt8 → Nat) (cmds : List MultiCmd) : List VLLKey :=
  cmds.flatMap fun mc => mc.keys.map fun key => ⟨hash key, if mc.write then .write else .read⟩

/-- The request that `execCommand` makes. -/
def execKeys (hash : List UInt8 → Nat) (cmds : List MultiCmd) : List VLLKey :=
  (occurrences hash cmds).take VLL_MAX_KEYS_PER_TXN

/-- `execCommand` aborts the transaction: the last attempt, at the deadline, conflicts too. -/
def ExecAborts (hash : List UInt8 → Nat) (mgr : VLLManager) (cmds : List MultiCmd) : Prop :=
  execKeys hash cmds ≠ [] ∧
    (vllAcquire mgr ⟨execKeys hash cmds, .conflict⟩ true).2.2 ≠ some .ok

/-- Two keys of one request do not exclude each other. -/
def Compatible (tableSize : Nat) (a b : VLLKey) : Prop :=
  keyToSlot tableSize a.keyHash = keyToSlot tableSize b.keyHash →
    a.lockType = .read ∧ b.lockType = .read

/-- No transaction holds a slot of the keys. -/
def Idle (mgr : VLLManager) (keys : List VLLKey) : Prop :=
  ∀ key ∈ keys, mgr.writeFlags (keyToSlot mgr.tableSize key.keyHash) = false ∧
    mgr.readCounts (keyToSlot mgr.tableSize key.keyHash) = 0

/-- The table lets the key be locked. -/
def Free (mgr : VLLManager) (key : VLLKey) : Prop :=
  mgr.writeFlags (keyToSlot mgr.tableSize key.keyHash) = false ∧
    (key.lockType = .write → mgr.readCounts (keyToSlot mgr.tableSize key.keyHash) = 0)

variable {mgr mgr' : VLLManager} {key : VLLKey}

theorem lockKey_eq_none : lockKey mgr key = none ↔ ¬ Free mgr key := by
  rw [lockKey, Free]
  cases key.lockType <;> simp [pos_iff_ne_zero, imp_iff_not_or]

theorem free_of_some (hlock : lockKey mgr key = some mgr') : Free mgr key := by
  by_contra hno
  rw [lockKey_eq_none.mpr hno] at hlock
  cases hlock

/-- A locked key stands in the way of those it excludes, and of no others. -/
theorem free_of_lockKey (hlock : lockKey mgr key = some mgr')
    (hlt : mgr.readCounts (keyToSlot mgr.tableSize key.keyHash) + 1 < 2 ^ 32) (key' : VLLKey) :
    mgr'.tableSize = mgr.tableSize ∧ (∀ slot, mgr'.readCounts slot ≤ mgr.readCounts slot + 1) ∧
      (Free mgr' key' ↔ Free mgr key' ∧ Compatible mgr.tableSize key key') := by
  have hfree := free_of_some hlock
  rw [lockKey] at hlock
  cases hty : key.lockType with
  | read =>
    simp only [hty, hfree.1] at hlock
    obtain rfl := some.inj hlock
    refine ⟨rfl, fun slot => ?_, ?_⟩
    · by_cases hslot : slot = keyToSlot mgr.tableSize key.keyHash
      · simp only [hslot, update_self, incr32, u32_of_lt hlt, le_refl]
      · simp only [update_of_ne hslot, le_succ]
    · by_cases hslot : keyToSlot mgr.tableSize key'.keyHash = keyToSlot mgr.tableSize key.keyHash
      · simp only [Free, Compatible, hslot, update_self, incr32, u32_of_lt hlt, hfree.1, hty]
        cases key'.lockType <;> simp
      · simp only [Free, Compatible, update_of_ne hslot, Ne.symm hslot, false_implies, and_true]
  | write =>
    simp only [hty, hfree.1, hfree.2 hty] at hlock
    obtain rfl := some.inj hlock
    refine ⟨rfl, fun slot => le_succ _, ?_⟩
    by_cases hslot : keyToSlot mgr.tableSize key'.keyHash = keyToSlot mgr.tableSize key.keyHash
    · simp [Free, Compatible, hslot, hty]
    · simp only [Free, Compatible, update_of_ne hslot, Ne.symm hslot, false_implies, and_true]

/-- **The loop finds no conflict** exactly if every key is free and no two exclude each other. -/
theorem lockKeys_iff : ∀ {mgr : VLLManager},
    (∀ key ∈ keys, mgr.readCounts (keyToSlot mgr.tableSize key.keyHash) + keys.length < 2 ^ 32) →
    ((lockKeys mgr keys).2.2 = false ↔
      (∀ key ∈ keys, Free mgr key) ∧ keys.Pairwise (Compatible mgr.tableSize)) := by
  induction keys with
  | nil => intro mgr _; simp [lockKeys]
  | cons key keys ih =>
    intro mgr hlt
    rw [lockKeys, List.forall_mem_cons, List.pairwise_cons]
    cases hlock : lockKey mgr key with
    | none => simp [lockKey_eq_none.mp hlock]
    | some mgr' =>
      have hkey := hlt key (by simp)
      rw [List.length_cons] at hkey
      have hstep := free_of_lockKey hlock (by omega)
      obtain ⟨hsize, hcount, -⟩ := hstep key
      have hfree := free_of_some hlock
      have hrest := @ih mgr' fun k hk => by
        have hle := hlt k (by simp [hk])
        have := hcount (keyToSlot mgr.tableSize k.keyHash)
        rw [List.length_cons] at hle
        rw [hsize]
        omega
      simp only [hrest, hsize, fun k => (hstep k).2.2, hfree, true_and, forall_and, and_assoc]

/-- **With no other transaction in its slots a request is granted** exactly if entries in one
slot are all reads; the same goes for `EXEC`. -/
theorem idle_acquire_iff (mgr : VLLManager) (keys : List VLLKey) (hne : keys ≠ [])
    (hlen : keys.length ≤ VLL_MAX_KEYS_PER_TXN) (hidle : Idle mgr keys) :
    (∀ status late, (vllAcquire mgr ⟨keys, status⟩ late).2.2 = some .ok ↔
      keys.Pairwise (Compatible mgr.tableSize)) ∧
    ∀ hash cmds, execKeys hash cmds = keys →
      (¬ ExecAborts hash mgr cmds ↔ keys.Pairwise (Compatible mgr.tableSize)) := by
  have hperm : (vllSortKeys keys).Perm keys := List.perm_insertionSort _ _
  have hloop := @lockKeys_iff (vllSortKeys keys) mgr fun key hkey => by
    rw [(hidle key (hperm.mem_iff.mp hkey)).2, hperm.length_eq]
    unfold VLL_MAX_KEYS_PER_TXN at hlen
    omega
  have hsym : ∀ {a b}, Compatible mgr.tableSize a b → Compatible mgr.tableSize b a :=
    fun h heq => (h heq.symm).symm
  have hfree : ∀ key ∈ vllSortKeys keys, Free mgr key := fun key hkey =>
    ⟨(hidle key (hperm.mem_iff.mp hkey)).1, fun _ => (hidle key (hperm.mem_iff.mp hkey)).2⟩
  rw [hperm.pairwise_iff hsym, and_iff_right hfree] at hloop
  have hacquire : ∀ status late, (vllAcquire mgr ⟨keys, status⟩ late).2.2 = some .ok ↔
      keys.Pairwise (Compatible mgr.tableSize) := by
    intro status late
    rw [← hloop, vllAcquire, if_neg hne]
    dsimp only
    split
    · rename_i hfalse
      exact ⟨fun _ => hfalse, fun _ => rfl⟩
    · rename_i htrue
      cases late <;> simp [htrue]
  refine ⟨hacquire, fun hash cmds hkeys => ?_⟩
  rw [ExecAborts, hkeys, ne_eq, ne_eq, hacquire]
  simp [hne]

theorem idle_acquire_iff_reads :
    (vllAcquire ⟨fun _ => 0, fun _ => false, 1024⟩ ⟨[⟨5, .read⟩, ⟨5, .read⟩], .conflict⟩ false).2.2
      = some .ok :=
  ((idle_acquire_iff _ _ (by simp) (by decide) fun _ _ => ⟨rfl, rfl⟩).1 _ _).mpr
    (by simp [Compatible])

/-- `MULTI`, `SET k`, `SET k`, `EXEC` is aborted on an empty table. -/
theorem exec_same_key_aborted :
    ExecAborts fnv1a ⟨fun _ => 0, fun _ => false, 1024⟩ [⟨true, [[107]]⟩, ⟨true, [[107]]⟩] := by
  unfold ExecAborts
  decide +kernel

end NexCache.Core
