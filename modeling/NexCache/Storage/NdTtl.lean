import NexCache.Storage.NdValues

/-!
# The two deadlines of a key

The hash-table adapter stores a deadline twice: in microseconds in the `NDValue`, where
`ndapi_get`, `ndapi_ttl` and `ndapi_rmw` read it, and in units of `2^20` microseconds in
the slot, where the table reads it.  `ndapi_set` and `ndapi_rmw` write both, from two readings of
the clock, `ndapi_expire` only the slot.

`Held.Agrees` says that the two are one deadline up to the rounding of the slot.
`ttl_is_remaining`: in every run whose calls and readings keep to that (`TtlSafe`), the reported
TTL is the time to the deadline of the table, and a read-modify-write neither removes a deadline
nor moves it later.  `expire_not_reported` is a run of one `ndapi_expire` that does not.
-/

namespace NexCache.Storage

open Machine Bloom Runs Function Option
open NexDash (Encodes encodeExpire decodeExpire encodeExpire_of encodeExpire_ne_zero decode_encode
  Key Addr)
open HeldMap (liveAt)

variable {d now : Nat} {ttlMs : Int} {s : Held} {c : Clock}

/-! ### Deadlines that are computed -/

theorem ndExpireUs_of (hpos : 0 ≤ ttlMs) (h : Encodes (now + ttlMs.toNat * 1000)) :
    ndExpireUs now ttlMs = (now + ttlMs.toNat * 1000 : Nat) := by
  have := h.2
  rw [ndExpireUs, if_pos hpos, u64_of_lt (by omega), i64, if_pos (by omega)]

theorem ndExpireArg_of (hpos : 0 ≤ ttlMs) (h : Encodes (now + ttlMs.toNat * 1000)) :
    ndExpireArg now ttlMs = now + ttlMs.toNat * 1000 := by
  rw [ndExpireArg, if_pos hpos]
  exact u64_of_lt (by have := h.2; omega)

/-- The readings for the value and for the slot give one deadline: the slot can hold it, and it
is in one unit of the slot for both. -/
def Clock.Together (c : Clock) (ms : Nat) : Prop :=
  Encodes (c.value + ms * 1000) ∧ (c.slot + ms * 1000) / 2 ^ 20 = (c.value + ms * 1000) / 2 ^ 20

theorem Clock.Together.slot {ms : Nat} (h : c.Together ms) : Encodes (c.slot + ms * 1000) := by
  obtain ⟨⟨hlow, hhigh⟩, hsame⟩ := h
  exact ⟨by omega, by omega⟩

/-! ### Agreement -/

/-- The deadline of the value and the deadline of the slot are one. -/
def Held.Agrees (s : Held) : Prop :=
  s.val.expireUs = -1 ∧ s.deadline = 0 ∨
    ∃ d, Encodes d ∧ s.val.expireUs = (d : Nat) ∧ s.deadline = encodeExpire d

/-- What `ttl` says of a value that is live: no deadline, or the time to the deadline of
the table up to a millisecond and the rounding of the slot. -/
def Reports (s : Held) (now : Nat) (ttl : Int) : Prop :=
  s.deadline = 0 ∧ ttl = -1 ∨
    s.deadline ≠ 0 ∧ 0 ≤ ttl ∧ (decodeExpire s.deadline : Int) < now + (ttl + 1) * 1000 ∧
      now + ttl * 1000 < (decodeExpire s.deadline : Int) + 2 ^ 20

theorem Held.lt_of_live (hlive : s.expired now = false)
    (hne : s.deadline ≠ 0) : now < decodeExpire s.deadline := by
  rw [Held.expired] at hlive
  simpa [hne] using hlive

/-- What is live at one reading was live at those before. -/
theorem liveAt_of_le {m : HeldMap} {now' : Nat} {key : Key} (hle : now ≤ now')
    (hlive : m.liveAt now' key = some s) : m.liveAt now key = some s := by
  obtain ⟨hs, hexp⟩ := filter_eq_some_iff.mp hlive
  refine filter_eq_some_iff.mpr ⟨hs, ?_⟩
  cases hnow : s.expired now with
  | false => rfl
  | true => rw [Held.expired_mono hnow hle] at hexp; cases hexp

/-- The TTL of a live value with a deadline. -/
theorem ndTtlMs_of (hd : now < d) : ndTtlMs d now = ((d - now) / 1000 : Nat) := by
  rw [ndTtlMs, if_neg (by omega)]
  rw [if_pos (by omega)]
  omega

theorem Held.Agrees.reports (h : s.Agrees)
    (hlive : s.expired now = false) : Reports s now (ndTtlMs s.val.expireUs now) := by
  rcases h with ⟨hval, hslot⟩ | ⟨d, hd, hval, hslot⟩
  · refine .inl ⟨hslot, ?_⟩
    rw [hval, ndTtlMs, if_pos (by decide)]
  · have hne : s.deadline ≠ 0 := by rw [hslot]; exact encodeExpire_ne_zero hd
    have hlt := Held.lt_of_live hlive hne
    have hround := decode_encode hd
    rw [← hslot] at hround
    rw [hval, ndTtlMs_of (by omega)]
    exact .inr ⟨hne, by omega, by omega, by omega⟩

/-- The slot of what is stored with a TTL. -/
theorem deadline_storedBy (hpos : 0 ≤ ttlMs) (h : c.Together ttlMs.toNat) (value : Bytes)
    (type : NexDataType) :
    (storedBy c value type ttlMs).deadline = encodeExpire (c.slot + ttlMs.toNat * 1000) :=
  congrArg encodeExpire (ndExpireArg_of hpos h.slot)

/-- What `ndapi_set` stores agrees. -/
theorem agrees_stored (h : 0 ≤ ttlMs → c.Together ttlMs.toNat) (value : Bytes)
    (type : NexDataType) : (storedBy c value type ttlMs).Agrees := by
  rcases lt_or_ge ttlMs 0 with hneg | hpos
  · refine .inl ⟨if_neg (by omega), ?_⟩
    show encodeExpire (ndExpireArg c.slot ttlMs) = 0
    rw [ndExpireArg, if_neg (by omega)]
    rfl
  · refine .inr ⟨_, (h hpos).1, ndExpireUs_of hpos (h hpos).1, ?_⟩
    rw [deadline_storedBy hpos (h hpos), encodeExpire_of (h hpos).slot, encodeExpire_of (h hpos).1]
    exact (h hpos).2

/-! ### Runs -/

/-- The callback leaves `entry.ttl_ms` as it finds it. -/
def KeepsTtl (cb : NexRMWCallback) : Prop := ∀ entry, (cb entry).2.ttlMs = entry.ttlMs

def NdApiCall.KeepsTtl : NdApiCall → Prop
  | .rmw _ cb => Storage.KeepsTtl cb
  | _ => True

/-- A call with its readings of the clock. -/
structure ClockedCall where
  clock : Clock
  call : NdApiCall

def clockedStep (b : NdBackend) (e : ClockedCall) : Option (NdBackend × NdApiReply) :=
  ndApiStepAt b e.clock e.call

/-- The readings of a read-modify-write of a live key with a deadline: it is not over when the
TTL is read, and the deadline made of the milliseconds that were left then is in the unit of the
old one or before. -/
def RmwTimely (b : NdBackend) (c : Clock) (key : Key) : Prop :=
  ∀ s d, liveAt (ndView b) c.now key = some s → s.val.expireUs = (d : Nat) →
    c.entry < d ∧ c.Together ((d - c.entry) / 1000) ∧
      (c.slot + (d - c.entry) / 1000 * 1000) / 2 ^ 20 ≤ d / 2 ^ 20

/-- **The call writes no deadline that the slot cannot hold, its readings do not part the two
deadlines, and no `expire` changes the deadline of a live key.** -/
def TtlSafe (b : NdBackend) (e : ClockedCall) : Prop :=
  CallSound b ⟨e.clock.toEnv, e.call⟩ ∧
  match e.call with
  | .set _ _ _ ttlMs => 0 ≤ ttlMs → e.clock.Together ttlMs.toNat
  | .rmw key cb => (cb (rmwEntryAt b e.clock (key.cut 8))).1 = .ok → RmwTimely b e.clock (key.cut 8)
  | .expire key ttlMs => ∀ s, liveAt (ndView b) e.clock.now (key.cut 8) = some s →
      encodeExpire (ndExpireArg e.clock.slot ttlMs) = s.deadline ∧
        (0 ≤ ttlMs → 0 ≤ s.val.expireUs ∧
          s.val.expireUs ≤ (e.clock.slot + ttlMs.toNat * 1000 : Nat))
  | _ => True

def AllAgree (m : HeldMap) : Prop := ∀ key s, m key = some s → s.Agrees

theorem AllAgree.drops {m m' : HeldMap} (h : AllAgree m) (hd : m.Drops now m') : AllAgree m' := by
  intro key s hs
  rcases hd key with heq | ⟨hnone, _⟩
  · exact h key s (heq ▸ hs)
  · rw [hnone] at hs
    cases hs

theorem AllAgree.update {m : HeldMap} (h : AllAgree m) {key : Key} {o : Option Held}
    (ho : ∀ s, o = some s → s.Agrees) : AllAgree (update m key o) :=
  (forall_update_iff m fun _ o => ∀ s, o = some s → s.Agrees).mpr ⟨ho, fun key' _ => h key'⟩

variable {b : NdBackend} {e : ClockedCall} {r : NdApiReply}

/-- The TTL that a read-modify-write puts back is one that the slot can hold, and its
deadline is not later than the one it found. -/
theorem rmwEntryAt_deadline (hagree : AllAgree (ndView b)) {key : Key} (hsafe : RmwTimely b c key) :
    (0 ≤ (rmwEntryAt b c key).ttlMs → c.Together (rmwEntryAt b c key).ttlMs.toNat) ∧
    ∀ s, liveAt (ndView b) c.now key = some s → s.deadline ≠ 0 →
      0 ≤ (rmwEntryAt b c key).ttlMs ∧
        encodeExpire (c.slot + (rmwEntryAt b c key).ttlMs.toNat * 1000) ≤ s.deadline := by
  rw [rmwEntryAt]
  cases hlive : liveAt (ndView b) c.now key with
  | none =>
    refine ⟨fun hc => ?_, fun s hs => by cases hs⟩
    cases show (0 : Int) ≤ -1 from hc
  | some s =>
    have hs := (filter_eq_some_iff.mp hlive).1
    show (0 ≤ ndTtlMs s.val.expireUs c.entry → c.Together (ndTtlMs s.val.expireUs c.entry).toNat) ∧
      ∀ s', some s = some s' → s'.deadline ≠ 0 → 0 ≤ ndTtlMs s.val.expireUs c.entry ∧
        encodeExpire (c.slot + (ndTtlMs s.val.expireUs c.entry).toNat * 1000) ≤ s'.deadline
    rcases hagree key s hs with ⟨hval, hslot⟩ | ⟨d, hd, hval, hslot⟩
    · have hneg : ndTtlMs s.val.expireUs c.entry = -1 := by
        rw [hval, ndTtlMs, if_pos (by decide)]
      refine ⟨fun hc => ?_, fun s' hs' hne => ?_⟩
      · rw [hneg] at hc
        cases hc
      · obtain rfl := some.inj hs'
        exact absurd hslot hne
    · obtain ⟨hlt, htogether, hunit⟩ := hsafe s d hlive hval
      rw [hval, ndTtlMs_of hlt, Int.toNat_natCast]
      refine ⟨fun _ => htogether, fun s' hs' _ => ⟨by omega, ?_⟩⟩
      obtain rfl := some.inj hs'
      rw [encodeExpire_of htogether.slot, hslot, encodeExpire_of hd]
      exact hunit

theorem AllAgree.step (h : AllAgree (ndView b)) {m' : HeldMap}
    (hcb : e.call.KeepsTtl) (hsafe : TtlSafe b e)
    (hmove : HeldMove b e.clock e.call r m') : AllAgree m' := by
  obtain ⟨c, call⟩ := e
  obtain ⟨_, hsafe⟩ := hsafe
  cases hmove with
  | drops hdrops _ => exact h.drops hdrops
  | set hlen value type ttlMs =>
    refine h.update fun s hs => ?_
    obtain rfl := some.inj hs
    exact agrees_stored hsafe value type
  | del key r => exact h.update nofun
  | @rmw key cb entry m₁ hdrops hcb' =>
    refine (h.drops hdrops).update fun s hs => ?_
    obtain rfl := some.inj hs
    have hsame : entry.ttlMs = (rmwEntryAt b c (key.cut 8)).ttlMs :=
      (congrArg (fun r => r.2.ttlMs) hcb').symm.trans (hcb _)
    rw [hsame]
    exact agrees_stored (rmwEntryAt_deadline h (hsafe (congrArg Prod.fst hcb'))).1 entry.value
      entry.type
  | @expire key s hlen hlive ttlMs =>
    have hs := (filter_eq_some_iff.mp hlive).1
    refine h.update fun s' hs' => ?_
    obtain rfl := some.inj hs'
    rw [(hsafe s hlive).1]
    exact h _ s hs

/-- The invariant of a run. -/
def TtlInv (b : NdBackend) : Prop := Owned b ∧ AllAgree (ndView b)

theorem TtlInv.step {b b' : NdBackend} (h : TtlInv b)
    (hcond : TtlSafe b e ∧ e.call.KeepsTtl) (hstep : clockedStep b e = some (b', r)) :
    TtlInv b' := by
  obtain ⟨hown, hmove⟩ := h.1.step hcond.1.1 hstep
  exact ⟨hown, h.2.step hcond.2 hcond.1 hmove⟩

/-! ### What is reported -/

variable {key : Bytes}

theorem Owned.ndapiTtl_live (h : Owned b) (hlen : key.len ≤ ND_MAX_KEY_LEN)
    (hlive : liveAt (ndView b) c.now (key.cut 8) = some s) (hfits : s.val.data.len ≤ ND_BUF_LEN) :
    (ndapiTtlAt b c key).2 = ndTtlMs s.val.expireUs c.entry := by
  have hget := h.ndapiGetAt_eq c key .zero
  rw [if_neg (by omega), hlive] at hget
  rw [ndapiTtlAt]
  simp only [hget, if_neg (Nat.not_lt.mpr hfits)]
  rfl

/-- After an `expire` that is reported as done and leaves the deadline. -/
theorem TtlInv.ttl_after_expire (h : TtlInv b) {c c' : Clock} (hpos : 0 ≤ ttlMs)
    (hsafe : TtlSafe b ⟨c, .expire key ttlMs⟩) (hok : (ndapiExpireAt b c key ttlMs).2 = .ok)
    (hclock : c.slot ≤ c'.now) (hclock' : c'.now ≤ c'.entry)
    (hlive : liveAt (ndView (ndapiExpireAt b c key ttlMs).1) c'.entry (key.cut 8) = some s)
    (hfits : s.val.data.len ≤ ND_BUF_LEN) :
    0 ≤ (ndapiTtlAt (ndapiExpireAt b c key ttlMs).1 c' key).2 ∧
      (ndapiTtlAt (ndapiExpireAt b c key ttlMs).1 c' key).2 ≤ ttlMs := by
  obtain ⟨hown, hmove⟩ := h.1.move_expire c key ttlMs
  have hagree := h.2.step (e := ⟨c, .expire key ttlMs⟩) trivial hsafe hmove
  obtain ⟨hs, hexp⟩ := filter_eq_some_iff.mp hlive
  have hus : 0 ≤ s.val.expireUs ∧ s.val.expireUs ≤ (c.slot + ttlMs.toNat * 1000 : Nat) := by
    rw [hok] at hmove
    generalize ndView (ndapiExpireAt b c key ttlMs).1 = m' at hmove hs
    cases hmove with
    | drops _ hfail => exact absurd rfl (hfail trivial)
    | @expire _ s₀ hlen hlive₀ _ =>
      rw [update_self] at hs
      obtain rfl := some.inj hs
      exact (hsafe.2 s₀ hlive₀).2 hpos
  have hlen : key.len ≤ ND_MAX_KEY_LEN := by
    by_contra hlong
    rw [ndapiExpireAt, if_pos (by omega)] at hok
    cases hok
  rw [hown.ndapiTtl_live hlen (liveAt_of_le hclock' hlive) hfits]
  rcases hagree _ s hs with ⟨hval, _⟩ | ⟨d, hd, hval, hslot⟩
  · rw [hval] at hus
    omega
  · have hne : s.deadline ≠ 0 := by rw [hslot]; exact encodeExpire_ne_zero hd
    have hlt := Held.lt_of_live (by simpa using hexp) hne
    have hround := (decode_encode hd).1
    rw [← hslot] at hround
    rw [hval] at hus
    rw [hval, ndTtlMs_of (by omega)]
    omega

/-- A read-modify-write keeps every deadline that is not over, and moves none later. -/
theorem TtlInv.rmw_deadline {b b' : NdBackend} (h : TtlInv b) {cb : NexRMWCallback}
    (hcb : KeepsTtl cb) {res : NexStorageResult} (hsafe : TtlSafe b ⟨c, .rmw key cb⟩)
    (hrmw : ndapiRmwAt b c key cb = some (b', res)) {key' : Key}
    (hlive : liveAt (ndView b) c.now key' = some s) (hne : s.deadline ≠ 0) :
    (ndView b' key' = none ∧ s.expired c.write = true) ∨
      ∃ s', ndView b' key' = some s' ∧ s'.deadline ≠ 0 ∧ s'.deadline ≤ s.deadline := by
  obtain ⟨_, hmove⟩ := h.1.move_rmw hsafe.1.1 hsafe.1.2 hrmw
  generalize ndView b' = m' at hmove ⊢
  cases hmove with
  | drops hdrops _ =>
    rcases le_total c.write c.now with hle | hle
    · rw [max_eq_left hle] at hdrops
      exact .inr ⟨s, hdrops.liveAt hlive, hne, le_rfl⟩
    · rw [max_eq_right hle] at hdrops
      obtain ⟨hs, -⟩ := filter_eq_some_iff.mp hlive
      rcases hdrops key' with heq | ⟨hnone, s', hs', hexp⟩
      · exact .inr ⟨s, heq.trans hs, hne, le_rfl⟩
      · obtain rfl := mem_unique hs hs'
        exact .inl ⟨hnone, hexp⟩
  | @rmw _ _ entry m₁ hdrops hcb' =>
    right
    by_cases hk : key' = key.cut 8
    · subst hk
      have hsame : entry.ttlMs = (rmwEntryAt b c (key.cut 8)).ttlMs :=
        (congrArg (fun r => r.2.ttlMs) hcb').symm.trans (hcb _)
      obtain ⟨henc, hle⟩ := rmwEntryAt_deadline h.2 (hsafe.2 (congrArg Prod.fst hcb'))
      obtain ⟨hpos, hle⟩ := hle s hlive hne
      rw [← hsame] at henc hpos hle
      refine ⟨_, update_self .., ?_, ?_⟩
      · rw [deadline_storedBy hpos (henc hpos)]
        exact encodeExpire_ne_zero (henc hpos).slot
      · rw [deadline_storedBy hpos (henc hpos)]
        exact hle
    · refine ⟨s, ?_, hne, le_rfl⟩
      rw [update_of_ne hk]
      exact hdrops.liveAt hlive

/-- **The reported TTL is the time to the deadline of the table**, in every state that a
run of safe calls reaches; `expire` and read-modify-write treat it accordingly. -/
theorem ttl_is_remaining {bloomSized : NumBlocks} {b₀ b : NdBackend} {es : List ClockedCall}
    {replies : List NdApiReply} (hcreate : ndapiCreate bloomSized = some b₀)
    (hcb : ∀ e ∈ es, e.call.KeepsTtl) (hsafe : Along clockedStep TtlSafe b₀ es)
    (hrun : run clockedStep b₀ es = some (b, replies)) :
    (∀ c key s, key.len ≤ ND_MAX_KEY_LEN → c.now ≤ c.entry →
      liveAt (ndView b) c.entry (key.cut 8) = some s → s.val.data.len ≤ ND_BUF_LEN →
      Reports s c.entry (ndapiTtlAt b c key).2 ∧
        ∀ out, (ndapiGetAt b c key out).2.2.ttlMs = (ndapiTtlAt b c key).2) ∧
    (∀ c key ttlMs, 0 ≤ ttlMs → TtlSafe b ⟨c, .expire key ttlMs⟩ →
      (ndapiExpireAt b c key ttlMs).2 = .ok → ∀ c' s, c.slot ≤ c'.now → c'.now ≤ c'.entry →
      liveAt (ndView (ndapiExpireAt b c key ttlMs).1) c'.entry (key.cut 8) = some s →
      s.val.data.len ≤ ND_BUF_LEN →
      0 ≤ (ndapiTtlAt (ndapiExpireAt b c key ttlMs).1 c' key).2 ∧
        (ndapiTtlAt (ndapiExpireAt b c key ttlMs).1 c' key).2 ≤ ttlMs) ∧
    (∀ c key cb b' res, KeepsTtl cb → TtlSafe b ⟨c, .rmw key cb⟩ →
      ndapiRmwAt b c key cb = some (b', res) → ∀ key' s,
      liveAt (ndView b) c.now key' = some s → s.deadline ≠ 0 →
      (ndView b' key' = none ∧ s.expired c.write = true) ∨
        ∃ s', ndView b' key' = some s' ∧ s'.deadline ≠ 0 ∧ s'.deadline ≤ s.deadline) := by
  have hinit : TtlInv b₀ := by
    obtain ⟨hown, hempty⟩ := owned_create hcreate
    refine ⟨hown, fun key s hs => ?_⟩
    rw [hempty] at hs
    cases hs
  have hinv : TtlInv b := run_invariant (fun _ _ _ _ hi hc hs => TtlInv.step hi hc hs) hinit
    (hsafe.and_forall hcb) hrun
  refine ⟨fun c key s hlen hclock hlive hfits => ?_, ?_, ?_⟩
  · obtain ⟨hs, hexp⟩ := filter_eq_some_iff.mp hlive
    have hlive' := liveAt_of_le hclock hlive
    rw [hinv.1.ndapiTtl_live hlen hlive' hfits]
    refine ⟨(hinv.2 _ s hs).reports (by simpa using hexp), fun out => ?_⟩
    rw [hinv.1.ndapiGetAt_eq, if_neg (by omega), hlive']
    simp only [if_neg (Nat.not_lt.mpr hfits)]
    rfl
  · intro c key ttlMs hpos hsafe' hok c' s hclock hclock' hlive hfits
    exact hinv.ttl_after_expire hpos hsafe' hok hclock hclock' hlive hfits
  · intro c key cb b' res hcb' hsafe' hrmw key' s hlive hne
    exact hinv.rmw_deadline hcb' hsafe' hrmw hlive hne

/-- A call whose readings are `t` and each of the five microseconds after; `malloc` returns `a`. -/
def clockedAt (t : Nat) (a : Addr) (call : NdApiCall) : ClockedCall :=
  ⟨⟨⟨t, some a, true⟩, t + 1, t + 2, t + 3, t + 4, t + 5⟩, call⟩

/-- A key is set with a TTL of five seconds, and is read and written back a second later. -/
def setThenRmw : List ClockedCall :=
  [clockedAt (2 ^ 30) 1#48 (.set (oneByte 107) (oneByte 118) .string 5000),
    clockedAt (2 ^ 30 + 1000500) 2#48 (.rmw (oneByte 107) fun entry => (.ok, entry))]

/-- The value that `setThenRmw` meets and the blocks it is given. -/
def setThenRmwMeets (b₀ : NdBackend) : Option (Bool × Option Int) :=
  (clockedStep b₀ (clockedAt (2 ^ 30) 1#48
    (.set (oneByte 107) (oneByte 118) .string 5000))).map fun r =>
    (decide (MallocOk (ndLookup r.1 ((oneByte 107).cut 8) (2 ^ 30 + 1000500)).1
      ⟨2 ^ 30 + 1000500, some 2#48, true⟩),
      (liveAt (ndView r.1) (2 ^ 30 + 1000500) ((oneByte 107).cut 8)).map (·.val.expireUs))

theorem setThenRmw_safe {b₀ : NdBackend} (hcreate : ndapiCreate 1 = some b₀)
    (hmeets : setThenRmwMeets b₀ = some (true, some (2 ^ 30 + 5000003))) :
    Along clockedStep TtlSafe b₀ setThenRmw := by
  refine ⟨⟨⟨?_, by decide⟩, fun _ => ⟨⟨by decide, by decide⟩, by decide⟩⟩,
    fun b₁ r hstep => ⟨?_, fun _ _ _ => trivial⟩⟩
  · intro block hblock
    obtain rfl := some.inj hblock
    exact ⟨by decide, allocated_create hcreate _⟩
  · rw [setThenRmwMeets, hstep] at hmeets
    obtain ⟨hmalloc, hval⟩ := Prod.mk.inj (some.inj hmeets)
    refine ⟨⟨of_decide_eq_true hmalloc, fun _ => id⟩, fun _ s d hlive hd => ?_⟩
    have hlive' : liveAt (ndView b₁) (2 ^ 30 + 1000500) ((oneByte 107).cut 8) = some s := hlive
    rw [hlive', Option.map_some, hd] at hval
    obtain rfl : d = 2 ^ 30 + 5000003 := by exact_mod_cast some.inj hval
    exact ⟨by decide, ⟨⟨by decide, by decide⟩, by decide⟩, by decide⟩

/-- After it the TTL is 2999 ms at two seconds. -/
theorem ttl_is_remaining_rmw :
    ∃ b₀ b replies s, ndapiCreate 1 = some b₀ ∧
      run clockedStep b₀ setThenRmw = some (b, replies) ∧
      liveAt (ndView b) (2 ^ 30 + 2000000) ((oneByte 107).cut 8) = some s ∧
      (ndapiTtlAt b (Env.still ⟨2 ^ 30 + 2000000, none, true⟩) (oneByte 107)).2 = 2999 ∧
      Reports s (2 ^ 30 + 2000000) 2999 := by
  have heval : (ndapiCreate 1).bind (fun b₀ => (run clockedStep b₀ setThenRmw).bind fun r =>
      (liveAt (ndView r.1) (2 ^ 30 + 2000000) ((oneByte 107).cut 8)).map fun s =>
        (setThenRmwMeets b₀, s.val.data.len,
          (ndapiTtlAt r.1 (Env.still ⟨2 ^ 30 + 2000000, none, true⟩) (oneByte 107)).2))
      = some (some (true, some (2 ^ 30 + 5000003)), 1, 2999) := by
    decide +kernel
  obtain ⟨b₀, hcreate, heval⟩ := bind_eq_some_iff.mp heval
  obtain ⟨⟨b, replies⟩, hrun, heval⟩ := bind_eq_some_iff.mp heval
  obtain ⟨s, hlive, heval⟩ := map_eq_some_iff.mp heval
  obtain ⟨hmeets, hlen, httl⟩ : _ ∧ _ ∧ _ := by simpa only [Prod.mk.injEq] using heval
  refine ⟨b₀, b, replies, s, hcreate, hrun, hlive, httl, ?_⟩
  rw [← httl]
  refine ((ttl_is_remaining hcreate ?_ (setThenRmw_safe hcreate hmeets) hrun).1 _ _ s ?_ le_rfl
    hlive ?_).1
  · intro e he
    rcases List.mem_pair.mp he with rfl | rfl
    · trivial
    · exact fun _ => rfl
  · decide
  · rw [hlen]
    decide

/-- A call `s` seconds after the time `2^30`; `malloc` returns the block `a`. -/
def callAt (s : Nat) (a : Addr) (call : NdApiCall) : NdApiEvent :=
  ⟨⟨2 ^ 30 + s * 1000000, some a, true⟩, call⟩

/-- **An `expire` that is not reported and is undone**: a key without a TTL is given one of
ten seconds; `ndapi_ttl` says that it has none, a read-modify-write that leaves the TTL
alone makes it persistent again, and it is still there an hour later. -/
theorem expire_not_reported :
    ((ndapiCreate 1).bind fun b₀ => (run ndApiStep b₀
        [callAt 0 1#48 (.set (oneByte 107) (oneByte 118) .string (-1)),
          callAt 1 2#48 (.expire (oneByte 107) 10000),
          callAt 2 2#48 (.ttl (oneByte 107)),
          callAt 3 2#48 (.rmw (oneByte 107) fun entry => (.ok, entry)),
          callAt 3600 3#48 (.exists (oneByte 107))]).map Prod.snd)
      = some [.result .ok, .result .ok, .ttl (-1), .result .ok, .found true] := by
  decide +kernel

end NexCache.Storage
