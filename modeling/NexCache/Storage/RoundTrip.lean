import NexCache.Segcache.Full
import NexCache.Segcache.Ttl
import NexCache.Storage.NdValues

/-!
# What is set is read back

For each adapter: a `get` after a `set` that answered `OK` returns what was set, and the
other keys are as they were (`adapters_round_trip`).

The hash table rejects keys of more than 255 bytes, does not hand out values of more than
a megabyte, and keeps deadlines in units of `2^20` microseconds.  The segment cache has no
types: whatever is set comes back as a string, and lives as long as its segment.  It
casts lengths to 16 bits, so the statement is for keys and values that fit.
-/

namespace NexCache.Storage

open Machine Runs Option
open Segcache (NexSegcache Served Arranged Logged SetSafe scStep ttlToBucket bucketToTtlSeconds
  segAcquire shardId segHash itemSize ttlExpired ScEvent ScReply needsFresh SEG_DEFAULT_SIZE
  segcacheGet segcacheSet cell_create)

/-! ### The hash table -/

/-- **A `set` of the hash table**, in any state where the pointers are sound. -/
theorem Owned.set_get {b b' : NdBackend} (h : Owned b) {env : Env} {key value : Bytes}
    {type : NexDataType} {ttlMs : Int} (hsound : CallSound b ⟨env, .set key value type ttlMs⟩)
    (hset : ndapiSet b env key value type ttlMs = some (b', .ok)) (env' : Env) (out : NexEntry) :
    key.len ≤ ND_MAX_KEY_LEN ∧
    ((storedAt env.now value type ttlMs).expired env'.now = false →
      (ndapiGet b' env' key out).2 = if value.len > ND_BUF_LEN then (.tooLarge, out)
        else (.ok, ndEntry (storedAt env.now value type ttlMs).val env'.now)) ∧
    ∀ key', key' ≠ key → (ndapiGet b' env' key' out).2 = (ndapiGet b env' key' out).2 := by
  obtain ⟨hown, hmove⟩ := h.move_set hsound.1 hsound.2 hset
  generalize hview : ndView b' = m' at hmove
  cases hmove with
  | drops _ hfail => exact absurd rfl (hfail trivial)
  | set hlen _ _ _ =>
    have hlen' : ¬ key.len > ND_MAX_KEY_LEN := by omega
    refine ⟨hlen, fun hlive => ?_, fun key' hne => ?_⟩
    · rw [hown.ndapiGet_eq, if_neg hlen', HeldMap.liveAt, hview, Function.update_self,
        storedBy_still, filter_some, if_pos (by rw [hlive]; rfl)]
      rfl
    · rw [hown.ndapiGet_eq, h.ndapiGet_eq]
      split
      · rfl
      · rename_i hlen₁
        -- keys of at most 255 bytes stay apart
        have hcut : key'.cut 8 ≠ key.cut 8 := by
          rw [ND_MAX_KEY_LEN] at hlen hlen₁
          exact fun hc => hne (SizedBytes.cut_inj (by omega) (by omega) hc)
        rw [HeldMap.liveAt, HeldMap.liveAt, hview, Function.update_of_ne hcut]

/-! ### The segment cache -/

/-- The set takes no segment that the index still leads into. -/
def NoReuse (sc : NexSegcache) (e : ScEvent) : Prop :=
  match e.call with
  | .set key value ttlSeconds =>
      needsFresh sc (shardId (segHash key))
        (ttlToBucket ttlSeconds) (itemSize key value) = true →
      ∀ i, Segcache.nextFree sc = some i → ∀ g s e, sc.cell g s = some e → e.segIdx ≠ i
  | _ => True

/-- A reachable cache of the adapter. -/
structure ScReach (sc : NexSegcache) : Prop where
  logged : Logged SEG_DEFAULT_SIZE sc
  served : ∃ m, Served sc m

/-- Every item fits a segment of a megabyte. -/
theorem ScReach.setSafe {sc : NexSegcache} (h : ScReach sc) {key value : Segcache.Bytes}
    {ttlSeconds now : Nat} (hfree : NoReuse sc ⟨now, .set key value ttlSeconds⟩) :
    SetSafe sc key value ttlSeconds := by
  refine ⟨h.logged.setFits ttlSeconds (by decide) ?_, hfree⟩
  have hsmall := Segcache.itemSize_lt key value
  have hsize : SEG_DEFAULT_SIZE = 2 ^ 20 := rfl
  omega

theorem ScReach.step {sc sc' : NexSegcache} (h : ScReach sc) {e : ScEvent}
    {r : ScReply} (hfree : NoReuse sc e) (hstep : scStep sc e = some (sc', r)) :
    ScReach sc' := by
  have hsafe : Segcache.CallSafe sc e := by
    obtain ⟨now, call⟩ := e
    cases call with
    | set key value ttlSeconds => exact h.setSafe hfree
    | _ => trivial
  obtain ⟨m, hserved⟩ := h.served
  exact ⟨h.logged.stepped hsafe.fits hstep, (hserved.stepped h.logged.arranged hsafe hstep).2⟩

theorem scReach_create (maxMem : Nat) : ScReach (scapiCreate maxMem) := by
  have hlogged := Segcache.logged_create maxMem SEG_DEFAULT_SIZE
  rw [show Segcache.segmentBytes SEG_DEFAULT_SIZE = SEG_DEFAULT_SIZE by decide]
    at hlogged
  exact ⟨hlogged, _, Segcache.served_create _ _⟩

theorem scapiGet_snd (sc : NexSegcache) (env : Env) (key : Bytes) (out : NexEntry) :
    (scapiGet sc env key out).2
      = match (segcacheGet sc (key.cut 16) SC_BUF_LEN (segNow env)).2 with
        | .hit value =>
          (.ok, { out with value := .ofList 32 value, type := .string, ttlMs := -1 })
        | _ => (.notFound, out) := by
  rw [scapiGet]
  rcases segcacheGet sc (key.cut 16) SC_BUF_LEN (segNow env) with ⟨_, _ | _ | _⟩ <;> rfl

/-- The segment that a `set` of the adapter takes for the item. -/
abbrev scapiAcquire (sc : NexSegcache) (env : Env) (key value : Bytes) (ttlMs : Int) :
    NexSegcache × Option Nat :=
  segAcquire sc (shardId (segHash (key.cut 16))) (ttlToBucket (scTtlSeconds ttlMs))
    (itemSize (key.cut 16) (value.cut 16)) (segNow env)

section Set

variable {sc sc' sc₁ : NexSegcache} {env : Env} {key value : Bytes} {type : NexDataType}
  {ttlMs : Int} {idx : Nat}

variable (hset : scapiSet sc env key value type ttlMs = (sc', .ok))
include hset

theorem segcacheSet_of_ok :
    segcacheSet sc (key.cut 16) (value.cut 16) (scTtlSeconds ttlMs) (segNow env)
      = (sc', true) := by
  simp only [scapiSet, Prod.mk.injEq] at hset
  obtain ⟨hsc, hres⟩ := hset
  refine Prod.ext hsc ?_
  by_contra hno
  rw [if_neg hno] at hres
  cases hres

theorem segAcquire_of_ok : ∃ sc₁ idx, scapiAcquire sc env key value ttlMs = (sc₁, some idx) := by
  cases hacq : scapiAcquire sc env key value ttlMs with
  | mk sc₁ found =>
    cases found with
    | none =>
      simp only [scapiSet, segcacheSet, hacq] at hset
      cases (Prod.mk.inj hset).2
    | some idx => exact ⟨sc₁, idx, rfl⟩

variable (h : ScReach sc)
  (hfree : NoReuse sc ⟨segNow env, .set (key.cut 16) (value.cut 16) (scTtlSeconds ttlMs)⟩)
  (hacq : scapiAcquire sc env key value ttlMs = (sc₁, some idx)) (env' : Env)
include h hfree hacq

/-- A `get` right after a `set` finds the value until its segment expires. -/
theorem ScReach.get_of_set : (segcacheGet sc' (key.cut 16) SC_BUF_LEN (segNow env')).2
      = if ttlExpired (bucketToTtlSeconds (ttlToBucket (scTtlSeconds ttlMs)))
          (sc₁.segments idx).createTime (segNow env') = true
        then .miss else .hit (value.cut 16).bytes := by
  obtain ⟨m, hserved⟩ := h.served
  have hsafe := h.setSafe hfree
  have hset' := segcacheSet_of_ok hset
  have hstored := Segcache.stored_of_set h.logged.arranged hserved hsafe hset' hacq
  obtain ⟨place, free, lists, hp⟩ := h.logged.arranged
  have hserved' := hserved.of_outcome (hserved.set_outcome hp hsafe (segNow env))
  rw [hset'] at hserved'
  split
  · rename_i hexp
    obtain ⟨sc₂, hfind⟩ := hstored.htFind_expired hserved' hexp
    simp only [segcacheGet, hfind]
  · rename_i hlive
    obtain ⟨e, r, hfind, hpoints, hval⟩ := hstored.htFind hserved' (by simpa using hlive)
    have hlen := (value.cut 16).len_lt
    simp only [segcacheGet, hfind]
    rw [hpoints.segRead, hval, if_neg (by rw [SC_BUF_LEN]; omega)]

/-- **A `set` of the segment cache.** -/
theorem ScReach.set_get (hkey : key.len < 2 ^ 16) (hvalue : value.len < 2 ^ 16) (out : NexEntry) :
    (ttlExpired (bucketToTtlSeconds (ttlToBucket (scTtlSeconds ttlMs)))
        (sc₁.segments idx).createTime (segNow env') = false →
      (scapiGet sc' env' key out).2
        = (.ok, { out with value := value, type := .string, ttlMs := -1 })) ∧
    ∀ key', key'.len < 2 ^ 16 → key' ≠ key →
      (scapiGet sc' env' key' out).2 = (scapiGet sc env' key' out).2 := by
  refine ⟨fun hlive => ?_, fun key' hkey' hne => ?_⟩
  · have hget := h.get_of_set hset hfree hacq env'
    rw [hlive, if_neg (by simp), SizedBytes.bytes_cut hvalue] at hget
    rw [scapiGet_snd, hget]
    have hback : SizedBytes.ofList 32 value.bytes = value :=
      SizedBytes.ext (SizedBytes.bytes_ofList value.len_lt)
    simp only [hback]
  · obtain ⟨m, hserved⟩ := h.served
    have hsafe := h.setSafe hfree
    have hset' := segcacheSet_of_ok hset
    have hcut : key'.cut 16 ≠ key.cut 16 := fun hc => hne (SizedBytes.cut_inj hkey' hkey hc)
    rw [scapiGet_snd, scapiGet_snd,
      hserved.observe_set h.logged.arranged hsafe hset' hcut SC_BUF_LEN (segNow env')]

end Set

/-! ### Both adapters -/

/-- **Round trips.**  In every state that a run of the adapter's calls reaches, a `get`
after a `set` that answered `OK` returns what was set, and the other keys are unaffected. -/
theorem adapters_round_trip :
    (∀ bloomSized b₀ b es replies, ndapiCreate bloomSized = some b₀ →
      Along ndApiStep CallSound b₀ es → run ndApiStep b₀ es = some (b, replies) →
      ∀ env key value type ttlMs b' res, CallSound b ⟨env, .set key value type ttlMs⟩ →
        ndapiSet b env key value type ttlMs = some (b', res) →
        (key.len > ND_MAX_KEY_LEN → res = .tooLarge ∧ b' = b) ∧
        (res = .ok → ∀ env' out,
          ((storedAt env.now value type ttlMs).expired env'.now = false →
            if value.len > ND_BUF_LEN then (ndapiGet b' env' key out).2.1 = .tooLarge
            else ∃ entry, (ndapiGet b' env' key out).2 = (.ok, entry) ∧ entry.value = value ∧
              entry.type = type) ∧
          ∀ key', key' ≠ key → (ndapiGet b' env' key' out).2 = (ndapiGet b env' key' out).2)) ∧
    (∀ maxMem sc es replies, Along scStep NoReuse (scapiCreate maxMem) es →
      run scStep (scapiCreate maxMem) es = some (sc, replies) →
      ∀ env key value type ttlMs sc', key.len < 2 ^ 16 → value.len < 2 ^ 16 →
        NoReuse sc ⟨segNow env, .set (key.cut 16) (value.cut 16) (scTtlSeconds ttlMs)⟩ →
        scapiSet sc env key value type ttlMs = (sc', .ok) →
        ∃ sc₁ idx, scapiAcquire sc env key value ttlMs = (sc₁, some idx) ∧
          ∀ env' out,
            (ttlExpired (bucketToTtlSeconds (ttlToBucket (scTtlSeconds ttlMs)))
                (sc₁.segments idx).createTime (segNow env') = false →
              ∃ entry, (scapiGet sc' env' key out).2 = (.ok, entry) ∧ entry.value = value ∧
                entry.type = .string) ∧
            ∀ key', key'.len < 2 ^ 16 → key' ≠ key →
              (scapiGet sc' env' key' out).2 = (scapiGet sc env' key' out).2) := by
  refine ⟨?_, ?_⟩
  · intro bloomSized b₀ b es replies hcreate hal hrun env key value type ttlMs b' res hsound hset
    have hown : Owned b :=
      run_invariant (fun _ e _ _ hi hc hs => (hi.step (c := e.env.still) hc hs).1)
      (owned_create hcreate).1 hal hrun
    refine ⟨fun hlong => ?_, ?_⟩
    · rw [ndapiSet, ndapiSetAt, if_pos hlong] at hset
      obtain ⟨rfl, rfl⟩ := result_inj hset
      exact ⟨rfl, rfl⟩
    · rintro rfl env' out
      obtain ⟨_, hread, hothers⟩ := hown.set_get hsound hset env' out
      refine ⟨fun hlive => ?_, hothers⟩
      rw [hread hlive]
      split
      · rfl
      · exact ⟨_, rfl, rfl, rfl⟩
  · intro maxMem sc es replies hal hrun env key value type ttlMs sc' hkey hvalue hfree hset
    have hreach : ScReach sc := run_invariant (fun _ _ _ _ hi hc hs => hi.step hc hs)
      (scReach_create maxMem) hal hrun
    obtain ⟨sc₁, idx, hacq⟩ := segAcquire_of_ok hset
    refine ⟨sc₁, idx, hacq, fun env' out => ?_⟩
    obtain ⟨hread, hothers⟩ := hreach.set_get hset hfree hacq env' hkey hvalue out
    exact ⟨fun hlive => ⟨_, hread hlive, rfl, rfl⟩, hothers⟩

/-- A string `q` before the key `a`: in the table, where `a` is a hash, and in a segment that the
two share. -/
def setsQ : NdApiEvent := ⟨⟨0, some 1#48, true⟩, .set (oneByte 113) (oneByte 119) .string (-1)⟩

def setsShared : ScEvent :=
  ⟨0, .set ((oneByte 113).cut 16) ((oneByte 119).cut 16) 0⟩

theorem adapters_round_trip_two_sets :
    (∃ b₀ b b' replies, ndapiCreate 1 = some b₀ ∧ run ndApiStep b₀ [setsQ] = some (b, replies) ∧
      ndapiSet b ⟨1, some 2#48, true⟩ (oneByte 97) (oneByte 118) .hash (-1) = some (b', .ok) ∧
      (∃ entry, (ndapiGet b' ⟨2, none, true⟩ (oneByte 97) .zero).2 = (.ok, entry) ∧
        entry.value = oneByte 118 ∧ entry.type = .hash) ∧
      (ndapiGet b' ⟨2, none, true⟩ (oneByte 113) .zero).2
        = (ndapiGet b ⟨2, none, true⟩ (oneByte 113) .zero).2) ∧
    (∃ sc sc' replies, run scStep (scapiCreate 0) [setsShared] = some (sc, replies) ∧
      scapiSet sc ⟨1, none, true⟩ (oneByte 97) (oneByte 118) .string (-1) = (sc', .ok) ∧
      (∃ entry, (scapiGet sc' ⟨2, none, true⟩ (oneByte 97) .zero).2 = (.ok, entry) ∧
        entry.value = oneByte 118 ∧ entry.type = .string) ∧
      (scapiGet sc' ⟨2, none, true⟩ (oneByte 113) .zero).2
        = (scapiGet sc ⟨2, none, true⟩ (oneByte 113) .zero).2) := by
  have hne : oneByte 113 ≠ oneByte 97 := by decide
  refine ⟨?_, ?_⟩
  · have heval : (ndapiCreate 1).bind (fun b₀ => (run ndApiStep b₀ [setsQ]).bind fun r =>
        (ndapiSet r.1 ⟨1, some 2#48, true⟩ (oneByte 97) (oneByte 118) .hash (-1)).map fun q =>
          (decide (MallocOk r.1 ⟨1, some 2#48, true⟩), q.2)) = some (true, .ok) := by
      decide +kernel
    obtain ⟨b₀, hcreate, heval⟩ := bind_eq_some_iff.mp heval
    obtain ⟨⟨b, replies⟩, hrun, heval⟩ := bind_eq_some_iff.mp heval
    obtain ⟨⟨b', res⟩, hset, heval⟩ := map_eq_some_iff.mp heval
    obtain ⟨hmalloc, rfl⟩ := Prod.mk.inj heval
    have hsound : Along ndApiStep CallSound b₀ [setsQ] := by
      refine ⟨⟨fun block hblock => ?_, by decide⟩, fun _ _ _ => trivial⟩
      obtain rfl := some.inj hblock
      exact ⟨by decide, allocated_create hcreate _⟩
    have hread := (adapters_round_trip.1 1 b₀ b [setsQ] replies hcreate hsound hrun _ _ _ _ _ b' .ok
      ⟨of_decide_eq_true hmalloc, by decide⟩ hset).2 rfl ⟨2, none, true⟩ .zero
    exact ⟨b₀, b, b', replies, hcreate, hrun, hset, hread.1 rfl, hread.2 _ hne⟩
  · have heval : (run scStep (scapiCreate 0) [setsShared]).map (fun r =>
        ((scapiSet r.1 ⟨1, none, true⟩ (oneByte 97) (oneByte 118) .string (-1)).2,
          needsFresh r.1 (shardId (segHash ((oneByte 97).cut 16))) (ttlToBucket 0)
            (itemSize ((oneByte 97).cut 16) ((oneByte 118).cut 16)))) = some (.ok, false) := by
      decide +kernel
    obtain ⟨⟨sc, replies⟩, hrun, heval⟩ := map_eq_some_iff.mp heval
    obtain ⟨hok, hfresh⟩ := Prod.mk.inj heval
    have hset : scapiSet sc ⟨1, none, true⟩ (oneByte 97) (oneByte 118) .string (-1)
      = ((scapiSet sc ⟨1, none, true⟩ (oneByte 97) (oneByte 118) .string (-1)).1, .ok) :=
      Prod.ext rfl hok
    have hal : Along scStep NoReuse (scapiCreate 0) [setsShared] := by
      refine ⟨fun _ i _ g s e hc => ?_, fun _ _ _ => trivial⟩
      rw [scapiCreate, cell_create] at hc
      cases hc
    obtain ⟨sc₁, idx, _, hread⟩ := adapters_round_trip.2 0 sc [setsShared] replies hal hrun
      ⟨1, none, true⟩ _ _ _ _ _ (by decide) (by decide)
      (fun hneeds => absurd (hfresh.symm.trans hneeds) Bool.noConfusion) hset
    have hget := hread ⟨2, none, true⟩ .zero
    exact ⟨sc, _, replies, hrun, hset, hget.1 rfl, hget.2 _ (by decide) hne⟩

/-- **When a positive TTL takes effect**: never in the bucket without TTL, else when the
segment that took the item expires, which a clock that neither runs back nor wraps reaches
in time. -/
theorem scapi_ttl_expires {maxMem : Nat} {sc sc' : NexSegcache} {es : List ScEvent}
    {replies : List ScReply} (hal : Along scStep NoReuse (scapiCreate maxMem) es)
    (hrun : run scStep (scapiCreate maxMem) es = some (sc, replies)) {env : Env}
    {key value : Bytes} {type : NexDataType} {ttlMs : Int} (hpos : 0 < ttlMs)
    (hfree : NoReuse sc ⟨segNow env, .set (key.cut 16) (value.cut 16) (scTtlSeconds ttlMs)⟩)
    (hset : scapiSet sc env key value type ttlMs = (sc', .ok)) :
    ∃ sc₁ idx ttl, scapiAcquire sc env key value ttlMs = (sc₁, some idx) ∧
        ttl = bucketToTtlSeconds (ttlToBucket (scTtlSeconds ttlMs)) ∧
      ∀ env' out, ((scapiGet sc' env' key out).2.1 = .notFound ↔
          ttlToBucket (scTtlSeconds ttlMs) ≠ 0 ∧
            u32 ((sc₁.segments idx).createTime + ttl) ≤ segNow env') ∧
        ((sc₁.segments idx).createTime ≤ segNow env → env'.now < 2 ^ 32 * 1000000 →
          env.now + (ttlMs.toNat + 999) / 1000 * 1000000 ≤ env'.now →
          u32 ((sc₁.segments idx).createTime + ttl) ≤ segNow env') := by
  have hreach : ScReach sc := run_invariant (fun _ _ _ _ hi hc hs => hi.step hc hs)
    (scReach_create maxMem) hal hrun
  obtain ⟨sc₁, idx, hacq⟩ := segAcquire_of_ok hset
  refine ⟨sc₁, idx, _, hacq, rfl, fun env' out => ⟨?_, fun hcreated hword hlate => ?_⟩⟩
  · rw [scapiGet_snd, hreach.get_of_set hset hfree hacq, ← Segcache.bucketToTtl_pos]
    cases hexp : ttlExpired (bucketToTtlSeconds (ttlToBucket (scTtlSeconds ttlMs)))
      (sc₁.segments idx).createTime (segNow env') <;> simpa [ttlExpired] using hexp
  · have hle := Segcache.bucketToTtl_le (scTtlSeconds ttlMs)
    have hsec : scTtlSeconds ttlMs ≤ ttlMs.toNat / 1000 := by
      rw [scTtlSeconds, if_pos hpos.le]
      exact (Nat.mod_le _ _).trans (by omega)
    have hnow : u32 (env.now / 1000000) ≤ env.now / 1000000 := Nat.mod_le _ _
    refine (Nat.mod_le _ _).trans ?_
    rw [segNow] at hcreated
    rw [segNow, u32_of_lt (by omega)]
    omega

/-- A TTL of a second has taken effect after a second. -/
theorem scapi_ttl_expires_second : ∃ sc' : NexSegcache,
    scapiSet (scapiCreate 0) ⟨0, none, true⟩ (oneByte 107) (oneByte 118) .string 1000
      = (sc', .ok) ∧ (scapiGet sc' ⟨1000000, none, true⟩ (oneByte 107) .zero).2.1 = .notFound := by
  obtain ⟨sc', hset⟩ : ∃ sc', scapiSet (scapiCreate 0) ⟨0, none, true⟩ (oneByte 107)
      (oneByte 118) .string 1000 = (sc', .ok) := ⟨_, Prod.ext rfl (by decide +kernel)⟩
  obtain ⟨sc₁, idx, ttl, hacq, rfl, hget⟩ := @scapi_ttl_expires 0 _ sc' [] [] trivial rfl _ _ _
    .string _ (by decide)
    (fun _ i _ g s e hc => by rw [scapiCreate, cell_create] at hc; cases hc) hset
  obtain ⟨hiff, hlate⟩ := hget ⟨1000000, none, true⟩ .zero
  refine ⟨sc', hset, hiff.mpr ⟨by decide, hlate ?_ (by decide) (by decide)⟩⟩
  obtain ⟨sc₂, hacq₂, hzero⟩ : ∃ sc₂, scapiAcquire (scapiCreate 0) ⟨0, none, true⟩
      (oneByte 107) (oneByte 118) 1000 = (sc₂, some 0) ∧ (sc₂.segments 0).createTime = 0 :=
    ⟨_, Prod.ext rfl (by decide +kernel), by decide +kernel⟩
  obtain ⟨rfl, hidx⟩ := Prod.mk.inj (hacq₂.symm.trans hacq)
  obtain rfl := some.inj hidx
  exact hzero.le

/-- Half a second is no TTL, and neither are 861 hours. -/
theorem scapi_ttl_lost : [500, 3099600000].map (fun ttlMs =>
    let r := scapiSet (scapiCreate 0) ⟨0, none, true⟩ (oneByte 107) (oneByte 118) .string ttlMs
    (r.2, (scapiGet r.1 ⟨2 ^ 52, none, true⟩ (oneByte 107) .zero).2.1))
      = [(.ok, .ok), (.ok, .ok)] := by
  decide +kernel

/-- **What does not come back**: the segment cache accepts a hash and returns a string; the
table accepts a TTL of half a second at a time when its slot rounds the deadline to the
present, and the key is gone at once. -/
theorem type_and_short_ttl_lost :
    ((scapiSet (scapiCreate 0) ⟨0, none, true⟩ (oneByte 107) (oneByte 118) .hash (-1)).2 = .ok ∧
      (scapiGet (scapiSet (scapiCreate 0) ⟨0, none, true⟩ (oneByte 107) (oneByte 118) .hash
        (-1)).1 ⟨1, none, true⟩ (oneByte 107) .zero).2
          = (.ok, ⟨oneByte 118, .string, -1, 0⟩)) ∧
    ((ndapiCreate 1).bind fun b₀ =>
        (ndapiSet b₀ ⟨2 ^ 30, some 1#48, true⟩ (oneByte 107) (oneByte 118) .string 500).map
          fun r => (r.2, (ndapiGet r.1 ⟨2 ^ 30, none, true⟩ (oneByte 107) .zero).2.1))
      = some (.ok, .notFound) := by
  decide +kernel

end NexCache.Storage
