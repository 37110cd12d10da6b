import NexCache.NexDash.Refine
import NexCache.NexDash.Frees
import NexCache.Storage.Adapters

/-!
# Who owns the blocks

The table of the hash-table adapter holds pointers.  `Owned` says that they are sound:
every pointer leads to an allocated block, and no block belongs to two keys.  So a block
that the table frees for one key is not read for another, and `ndView`, the map from keys
to the values behind the pointers, changes with each call as the table's own map does.

`Owned` is kept by every call that stores types the tag can hold and that gets its block
from a `malloc` that works (`CallSound`).
-/

namespace NexCache.Storage

open Machine Bloom Function Runs Option
open NexDash (Addr Good absMap Frees FreesDropped StoresTyped encodeExpire decodeExpire Key Entry
  NexDashTable Drops liveAt nexdashGet countMiss ndStep)

/-- What the adapter keeps for a key: the value, and the deadline in the slot. -/
structure Held where
  val : NDValue
  deadline : Nat

/-- The deadline in the slot has passed. -/
def Held.expired (s : Held) (now : Nat) : Bool :=
  s.deadline != 0 && decide (decodeExpire s.deadline ≤ now)

/-- What a set stores. -/
def storedBy (c : Clock) (value : Bytes) (type : NexDataType) (ttlMs : Int) : Held :=
  ⟨⟨value, type, ndExpireUs c.value ttlMs, c.version⟩, encodeExpire (ndExpireArg c.slot ttlMs)⟩

/-- What a set at time `now` stores. -/
def storedAt (now : Nat) (value : Bytes) (type : NexDataType) (ttlMs : Int) : Held :=
  ⟨⟨value, type, ndExpireUs now ttlMs, now⟩, encodeExpire (ndExpireArg now ttlMs)⟩

theorem storedBy_still (env : Env) (value : Bytes) (type : NexDataType) (ttlMs : Int) :
    storedBy env.still value type ttlMs = storedAt env.now value type ttlMs := rfl

abbrev HeldMap := Key → Option Held

def ndView (b : NdBackend) : HeldMap := fun key =>
  (absMap b.table key).map fun e => ⟨b.heap e.value, e.deadline⟩

/-- What a key holds, unless it has expired. -/
def HeldMap.liveAt (m : HeldMap) (now : Nat) (key : Key) : Option Held :=
  (m key).filter fun s => !s.expired now

/-- `m'` is `m` without some values that have expired. -/
def HeldMap.Drops (now : Nat) (m m' : HeldMap) : Prop :=
  ∀ key, m' key = m key ∨ m' key = none ∧ ∃ s, m key = some s ∧ s.expired now = true

/-- **Every pointer of the table is sound.** -/
structure Owned (b : NdBackend) : Prop where
  good : Good b.table
  nonempty : ∀ key e, absMap b.table key = some e → key.len ≠ 0
  nonnull : ∀ key e, absMap b.table key = some e → e.value ≠ 0#48
  allocated : ∀ key e, absMap b.table key = some e → b.allocated e.value = true
  distinct : ∀ key key' e e', absMap b.table key = some e → absMap b.table key' = some e' →
    e.value = e'.value → key = key'
  typed : ∀ key e, absMap b.table key = some e → (b.heap e.value).type ≠ .unknown

/-- `malloc` returns `NULL` or a block that is not in use. -/
def MallocOk (b : NdBackend) (env : Env) : Prop :=
  ∀ block, env.block = some block → block ≠ 0#48 ∧ b.allocated block = false

instance (b : NdBackend) (env : Env) : Decidable (MallocOk b env) :=
  match hblock : env.block with
  | none => .isTrue fun _ h => by rw [hblock] at h; cases h
  | some block =>
    decidable_of_iff (block ≠ 0#48 ∧ b.allocated block = false)
      ⟨fun hok _ h => by rw [hblock] at h; cases h; exact hok, fun h => h block hblock⟩

variable {type : NexDataType} {s : Held}

theorem storesTyped_code {block : Addr} (hblock : block ≠ 0#48)
    (htype : type ≠ .unknown) (key : Key) : StoresTyped key block type.code := by
  refine ⟨hblock, ?_⟩
  cases type <;> first | exact absurd rfl htype | decide

/-! ### Blocks -/

section Blocks

variable {b : NdBackend} {block : Addr}

theorem heap_malloc (b : NdBackend) (block : Addr) (val : NDValue) :
    (b.malloc block val).heap block = val := update_self ..

variable {key : Key} {e : Entry}

variable (h : Owned b)
include h

variable (hfresh : b.allocated block = false)
include hfresh

theorem Owned.ne_of_fresh (he : absMap b.table key = some e) : e.value ≠ block := by
  rintro rfl
  rw [h.allocated key e he] at hfresh
  cases hfresh

theorem Owned.heap_malloc_of_ne (val : NDValue) (he : absMap b.table key = some e) :
    (b.malloc block val).heap e.value = b.heap e.value :=
  update_of_ne (h.ne_of_fresh hfresh he) ..

/-- A block outside the table can be written. -/
theorem Owned.malloc (val : NDValue) :
    Owned (b.malloc block val) where
  good := h.good
  nonempty := h.nonempty
  nonnull := h.nonnull
  allocated := by
    intro key e he
    show update b.allocated block true e.value = true
    rw [update_apply, h.allocated key e he, ite_self]
  distinct := h.distinct
  typed := fun key e he => by
    rw [h.heap_malloc_of_ne hfresh val he]
    exact h.typed key e he

theorem Owned.ndView_malloc (val : NDValue) : ndView (b.malloc block val) = ndView b := by
  funext key
  show (absMap b.table key).map _ = (absMap b.table key).map _
  cases he : absMap b.table key with
  | none => rfl
  | some e =>
    rw [map_some, map_some, h.heap_malloc_of_ne hfresh val he]

omit hfresh

theorem Owned.free (hunused : ∀ key e, absMap b.table key = some e → e.value ≠ block) :
    Owned (b.free block) where
  good := h.good
  nonempty := h.nonempty
  nonnull := h.nonnull
  allocated := by
    intro key e he
    show update b.allocated block false e.value = true
    rw [update_of_ne (hunused key e he)]
    exact h.allocated key e he
  distinct := h.distinct
  typed := h.typed

omit h

variable {t' : NexDashTable}

/-- What is allocated after a call that freed at most the value of `key`. -/
theorem allocated_settle (hfrees : Frees b.table t' key) {a : Addr} (ha : b.allocated a = true)
    (hne : ∀ e, absMap b.table key = some e → t'.freed = b.table.freed ++ [e.value] →
      e.value ≠ a) : (b.settle t').allocated a = true := by
  show (b.allocated a && !(t'.freed.drop b.table.freed.length).contains a) = true
  rcases hfrees with heq | ⟨e, he, heq⟩
  · rw [heq, List.drop_length, ha]
    rfl
  · have hna : a ≠ e.value := fun h => hne e he heq h.symm
    rw [heq, List.drop_left, ha]
    simp [hna]

/-- **A call that stores no pointer.** -/
theorem Owned.settle (h : Owned b) (hgood : Good t') (key : Key)
    (hfrees : FreesDropped b.table t' key) (hsub : ∀ key' e', absMap t' key' = some e' →
      ∃ e, absMap b.table key' = some e ∧ e.value = e'.value) : Owned (b.settle t') where
  good := hgood
  nonempty := fun key' e' he' => by
    obtain ⟨e, he, _⟩ := hsub key' e' he'
    exact h.nonempty key' e he
  nonnull := fun key' e' he' => by
    obtain ⟨e, he, hval⟩ := hsub key' e' he'
    exact hval ▸ h.nonnull key' e he
  allocated := by
    intro key' e' he'
    obtain ⟨e, he, hval⟩ := hsub key' e' he'
    rw [← hval]
    have hfrees' : Frees b.table t' key := by
      rcases hfrees with heq | ⟨e₀, he₀, heq, _⟩
      · exact .inl heq
      · exact .inr ⟨e₀, he₀, heq⟩
    refine allocated_settle hfrees' (h.allocated key' e he) fun e₀ he₀ heq hsame => ?_
    -- the freed block would belong to `key'`, hence to `key`, which is unbound now
    obtain rfl := h.distinct key key' e₀ e he₀ he hsame
    rcases hfrees with hno | ⟨_, _, _, hnone⟩
    · rw [hno] at heq
      simp at heq
    · cases he'.symm.trans hnone
  distinct := by
    intro key₁ key₂ e₁ e₂ h₁ h₂ heq
    obtain ⟨e₁', h₁', hv₁⟩ := hsub key₁ e₁ h₁
    obtain ⟨e₂', h₂', hv₂⟩ := hsub key₂ e₂ h₂
    exact h.distinct key₁ key₂ e₁' e₂' h₁' h₂' (by rw [hv₁, hv₂, heq])
  typed := fun key' e' he' => by
    obtain ⟨e, he, hval⟩ := hsub key' e' he'
    exact hval ▸ h.typed key' e he

/-- **A call that stores the fresh block.** -/
theorem Owned.settle_store (h : Owned b) (hgood : Good t') (hkey : key.len ≠ 0)
    (hnull : block ≠ 0#48)
    (hfresh : b.allocated block = false) {val : NDValue} (htype : val.type ≠ .unknown)
    (hfrees : Frees b.table t' key) (hval : e.value = block)
    (hmap : absMap t' = update (absMap b.table) key (some e)) :
    Owned ((b.malloc block val).settle t') := by
  have hother : ∀ key' e', absMap t' key' = some e' →
      key' = key ∧ e' = e ∨ key' ≠ key ∧ absMap b.table key' = some e' := by
    intro key' e' he'
    by_cases hk : key' = key
    · subst hk
      rw [hmap, update_self] at he'
      exact .inl ⟨rfl, (some.inj he').symm⟩
    · rw [hmap, update_of_ne hk] at he'
      exact .inr ⟨hk, he'⟩
  have hout : ∀ key' e', absMap b.table key' = some e' → e'.value ≠ block :=
    fun key' e' he' => h.ne_of_fresh hfresh he'
  refine ⟨hgood, ?_, ?_, ?_, ?_, ?_⟩
  · intro key' e' he'
    rcases hother key' e' he' with ⟨rfl, _⟩ | ⟨_, hold⟩
    · exact hkey
    · exact h.nonempty key' e' hold
  · intro key' e' he'
    rcases hother key' e' he' with ⟨_, rfl⟩ | ⟨_, hold⟩
    · rw [hval]
      exact hnull
    · exact h.nonnull key' e' hold
  · intro key' e' he'
    have hm := h.malloc hfresh val
    rcases hother key' e' he' with ⟨rfl, rfl⟩ | ⟨hk, hold⟩
    · rw [hval]
      refine allocated_settle (b := b.malloc block val) hfrees (update_self ..) ?_
      exact fun e₀ he₀ _ => hout key' e₀ he₀
    · refine allocated_settle (b := b.malloc block val) hfrees (hm.allocated key' e' hold) ?_
      exact fun e₀ he₀ _ hsame => hk (h.distinct key key' e₀ e' he₀ hold hsame).symm
  · intro key₁ key₂ e₁ e₂ h₁ h₂ heq
    rcases hother key₁ e₁ h₁ with ⟨rfl, rfl⟩ | ⟨_, hold₁⟩
    · rcases hother key₂ e₂ h₂ with ⟨rfl, _⟩ | ⟨_, hold₂⟩
      · rfl
      · exact absurd (heq.symm.trans hval) (hout key₂ e₂ hold₂)
    · rcases hother key₂ e₂ h₂ with ⟨rfl, rfl⟩ | ⟨_, hold₂⟩
      · exact absurd (heq.trans hval) (hout key₁ e₁ hold₁)
      · exact h.distinct key₁ key₂ e₁ e₂ hold₁ hold₂ heq
  · intro key' e' he'
    show ((b.malloc block val).heap e'.value).type ≠ _
    rcases hother key' e' he' with ⟨_, rfl⟩ | ⟨_, hold⟩
    · rw [hval, heap_malloc]
      exact htype
    · rw [h.heap_malloc_of_ne hfresh val hold]
      exact h.typed key' e' hold

end Blocks

/-! ### The view -/

section View

variable {b : NdBackend} {t' : NexDashTable} {now : Nat} {m m' : HeldMap}

theorem HeldMap.Drops.refl (now : Nat) (m : HeldMap) : m.Drops now m := fun _ => .inl rfl

theorem Held.expired_mono {now' : Nat} (h : s.expired now = true) (hle : now ≤ now') :
    s.expired now' = true := by
  rw [Held.expired, Bool.and_eq_true, decide_eq_true_eq] at h ⊢
  exact ⟨h.1, h.2.trans hle⟩

theorem HeldMap.Drops.mono {now' : Nat} (h : m.Drops now m') (hle : now ≤ now') :
    m.Drops now' m' := by
  intro key
  rcases h key with heq | ⟨hnone, s, hs, hexp⟩
  · exact .inl heq
  · exact .inr ⟨hnone, s, hs, Held.expired_mono hexp hle⟩

theorem HeldMap.Drops.trans {m m' m'' : HeldMap} (h : m.Drops now m') (h' : m'.Drops now m'') :
    m.Drops now m'' := by
  intro key
  rcases h' key with heq' | ⟨hnone, s, hs, hexp⟩
  · rw [heq']
    exact h key
  · rcases h key with heq | ⟨hnone', _⟩
    · exact .inr ⟨hnone, s, heq ▸ hs, hexp⟩
    · rw [hnone'] at hs
      cases hs

/-- What is live stays. -/
theorem HeldMap.Drops.liveAt (h : m.Drops now m') {key : Key}
    (hs : m.liveAt now key = some s) : m' key = some s := by
  obtain ⟨hm, hlive⟩ := filter_eq_some_iff.mp hs
  rcases h key with heq | ⟨_, s', hs', hexp⟩
  · rw [heq, hm]
  · obtain rfl := mem_unique hm hs'
    rw [hexp] at hlive
    cases hlive

theorem drops_settle (h : Drops now (absMap b.table) (absMap t')) :
    (ndView b).Drops now (ndView (b.settle t')) := by
  intro key
  rcases h key with heq | ⟨hnone, e, he, hexp⟩
  · refine .inl ?_
    show (absMap t' key).map _ = _
    rw [heq]
    rfl
  · refine .inr ⟨?_, ⟨b.heap e.value, e.deadline⟩, by rw [ndView, he]; rfl, hexp⟩
    show (absMap t' key).map _ = none
    rw [hnone]
    rfl

theorem ndView_settle_store {key : Key} {o : Option Entry}
    (hmap : absMap t' = update (absMap b.table) key o) :
    ndView (b.settle t')
      = update (ndView b) key (o.map fun e => ⟨b.heap e.value, e.deadline⟩) := by
  funext key'
  show (absMap t' key').map _ = _
  by_cases hk : key' = key
  · subst hk
    rw [hmap, update_self, update_self]
    rfl
  · rw [hmap, update_of_ne hk, update_of_ne hk]
    rfl

/-- An entry that a call leaves in the table was there before. -/
theorem exists_of_drops {m m' : Key → Option Entry}
    (h : Drops now m m') (key : Key) (e : Entry) (he : m' key = some e) :
    ∃ e₀, m key = some e₀ ∧ e₀.value = e.value := by
  rcases h key with heq | ⟨hnone, _⟩
  · exact ⟨e, heq ▸ he, rfl⟩
  · rw [hnone] at he
    cases he

theorem liveAt_ndView (b : NdBackend) (now : Nat) (key : Key) :
    HeldMap.liveAt (ndView b) now key = (liveAt (absMap b.table) now key).map
      fun e => ⟨b.heap e.value, e.deadline⟩ := by
  rw [HeldMap.liveAt, ndView, liveAt, filter_map]
  rfl

end View

/-! ### The calls -/

variable {b : NdBackend} {key : Key} {res : NexStorageResult} {bloomSized : NumBlocks}
  {cb : NexRMWCallback}

/-- The empty key is never stored. -/
theorem Owned.ndView_empty (h : Owned b) (hkey : key.len = 0) : ndView b key = none := by
  rw [ndView, map_eq_none_iff]
  by_contra hne
  obtain ⟨e, he⟩ := ne_none_iff_exists'.mp hne
  exact h.nonempty key e he hkey

/-- What a lookup returns, and what it leaves. -/
theorem Owned.ndLookup (h : Owned b) (key : Key) (now : Nat) :
    Owned (ndLookup b key now).1 ∧ (ndView b).Drops now (ndView (ndLookup b key now).1) ∧
      (Storage.ndLookup b key now).2 = (HeldMap.liveAt (ndView b) now key).map Held.val := by
  by_cases hkey : key.len = 0
  · have hnone := h.ndView_empty hkey
    have hget : nexdashGet b.table key now = (countMiss b.table, none) := by
      rw [nexdashGet, if_pos hkey]
    have hgood : Good (countMiss b.table) := h.good.move (R := True) (.count _ _)
    simp only [Storage.ndLookup, hget, HeldMap.liveAt, hnone]
    refine ⟨h.settle hgood key (.inl rfl) fun key' e' he' => ⟨e', he', rfl⟩, ?_, rfl⟩
    exact drops_settle (.refl _ _)
  · obtain ⟨hreply, hdrops⟩ := h.good.nexdashGet hkey now
    have hgood : Good (nexdashGet b.table key now).1 :=
      h.good.step (e := ⟨now, .get key⟩) hkey rfl
    refine ⟨h.settle hgood key (h.good.nexdashGet_frees key now) (exists_of_drops hdrops),
      drops_settle hdrops, ?_⟩
    rw [liveAt_ndView, Storage.ndLookup, hreply]
    cases hlive : liveAt (absMap b.table) now key with
    | none => rfl
    | some e =>
      have he : absMap b.table key = some e := (filter_eq_some_iff.mp hlive).1
      exact if_neg (h.nonnull key e he)

/-- The two outcomes of `nexdash_set` for a fresh block; the table refuses the empty key. -/
theorem Owned.nexdashSet (h : Owned b) {block : Addr} (hnull : block ≠ 0#48)
    (htype : type ≠ .unknown) {valueSize : BitVec 32} {expireUs now rc : Nat} {arenaOk : Bool}
    {t' : NexDashTable}
    (hset : NexDash.nexdashSet b.table key block valueSize type.code expireUs now arenaOk
      = some (t', rc)) :
    (rc = 1 ∧ key.len ≠ 0 ∧ Good t' ∧ absMap t' = update (absMap b.table) key
        (some ⟨block, type.code, encodeExpire expireUs⟩) ∧ Frees b.table t' key) ∨
      (rc = 0 ∧ Good t' ∧ Drops now (absMap b.table) (absMap t') ∧
        FreesDropped b.table t' key) := by
  by_cases hkey : key.len = 0
  · rw [NexDash.nexdashSet, if_pos hkey] at hset
    obtain ⟨rfl, rfl⟩ := result_inj hset
    exact .inr ⟨rfl, h.good, .refl _ _, .inl rfl⟩
  · have hS := storesTyped_code hnull htype key
    have hstep : ndStep b.table ⟨now, .set key block valueSize type.code expireUs arenaOk⟩
        = some (t', .rc rc) := by
      simp only [ndStep, hset, map_some]
    have hgood : Good t' := h.good.step
      (e := ⟨now, .set key block valueSize type.code expireUs arenaOk⟩) ⟨hkey, hS⟩ hstep
    rcases h.good.nexdashSet hkey hS hset with ⟨rfl, hmap⟩ | ⟨rfl, hdrops⟩
    · obtain ⟨_, hfrees⟩ := (h.good.nexdashSet_frees hset).resolve_right (by simp)
      exact .inl ⟨rfl, hkey, hgood, hmap, hfrees⟩
    · obtain ⟨_, hfrees⟩ := (h.good.nexdashSet_frees hset).resolve_left (by simp)
      exact .inr ⟨rfl, hgood, hdrops, hfrees⟩

/-- **What storing a value does**: it takes the block, or changes nothing that is live. -/
theorem Owned.ndPutAt {b b' : NdBackend} (h : Owned b) {c : Clock} (hmalloc : MallocOk b c.toEnv)
    {value : Bytes} (htype : type ≠ .unknown) {ttlMs : Int} {done : Bool}
    (hput : ndPutAt b c key value type ttlMs = some (b', done)) :
    Owned b' ∧
      if done = true then
        ndView b' = update (ndView b) key (some (storedBy c value type ttlMs))
      else (ndView b).Drops c.write (ndView b') := by
  cases hblock : c.block with
  | none =>
    simp only [Storage.ndPutAt, hblock, some.injEq, Prod.mk.injEq] at hput
    obtain ⟨rfl, rfl⟩ := hput
    exact ⟨h, .refl _ _⟩
  | some block =>
    obtain ⟨hnull, hfresh⟩ := hmalloc block hblock
    simp only [Storage.ndPutAt, hblock] at hput
    split at hput
    · cases hput
    · rename_i t' rc hset
      rcases h.nexdashSet hnull htype hset with ⟨rfl, hkey, hgood, hmap, hfrees⟩ |
        ⟨rfl, hgood, hdrops, hfrees⟩
      · obtain ⟨rfl, rfl⟩ := by simpa using hput
        refine ⟨h.settle_store hgood hkey hnull hfresh htype hfrees rfl hmap, ?_⟩
        rw [if_pos rfl, ← h.ndView_malloc hfresh,
          ndView_settle_store (b := b.malloc block _) hmap, map_some, heap_malloc, storedBy]
      · obtain ⟨rfl, rfl⟩ := by simpa using hput
        refine ⟨((h.malloc hfresh _).settle hgood key hfrees (exists_of_drops hdrops)).free
          fun key' e' he' => ?_, ?_⟩
        · obtain ⟨e, he, hval⟩ := exists_of_drops hdrops key' e' he'
          exact hval ▸ h.ne_of_fresh hfresh he
        · rw [if_neg (by simp), ← h.ndView_malloc hfresh]
          exact drops_settle hdrops

theorem Owned.type_of_view (h : Owned b) (hs : ndView b key = some s) :
    s.val.type ≠ .unknown := by
  obtain ⟨e, he, rfl⟩ := map_eq_some_iff.mp hs
  exact h.typed key e he

theorem Owned.nexdashDel (h : Owned b) (key : Key) :
    Owned (b.settle (NexDash.nexdashDel b.table key).1) ∧
      ndView (b.settle (NexDash.nexdashDel b.table key).1)
        = update (ndView b) key none := by
  obtain ⟨hgood, hmap⟩ : Good (NexDash.nexdashDel b.table key).1 ∧
      absMap (NexDash.nexdashDel b.table key).1 = update (absMap b.table) key none := by
    by_cases hkey : key.len = 0
    · have hnone : absMap b.table key = none := map_eq_none_iff.mp (h.ndView_empty hkey)
      rw [NexDash.nexdashDel, if_pos hkey, ← hnone, update_eq_self]
      exact ⟨h.good, rfl⟩
    · exact ⟨h.good.step (e := ⟨0, .del key⟩) hkey rfl, (h.good.nexdashDel hkey).1⟩
  refine ⟨h.settle hgood key (h.good.nexdashDel_frees key) fun key' e' he' => ?_,
    ndView_settle_store hmap⟩
  by_cases hk : key' = key
  · rw [hk, hmap, update_self] at he'
    cases he'
  · rw [hmap, update_of_ne hk] at he'
    exact ⟨e', he', rfl⟩

/-- **`nexdash_expire` writes the deadline in the slot only.** -/
theorem Owned.nexdashExpire (h : Owned b) {expireUs now rc : Nat} {t' : NexDashTable}
    (hexpire : NexDash.nexdashExpire b.table key expireUs now = (t', rc)) :
    Owned (b.settle t') ∧
      ((∃ s, HeldMap.liveAt (ndView b) now key = some s ∧ rc = 1 ∧
          ndView (b.settle t') = update (ndView b) key
            (some { s with deadline := encodeExpire expireUs })) ∨
        (HeldMap.liveAt (ndView b) now key = none ∧ rc = 0 ∧
          (ndView b).Drops now (ndView (b.settle t')))) := by
  have hfrees := h.good.nexdashExpire_frees key expireUs now
  have hgood := closed_of_step (fun _ _ hm hg => hg.move (R := True) hm)
    (NexDash.nexdashExpire_moves h.good.sound.shape key expireUs now) h.good
  have hcase := h.good.nexdashExpire key expireUs now
  rw [hexpire] at hfrees hgood hcase
  rw [liveAt_ndView]
  rcases hcase with ⟨e, hlive, hrc, hmap⟩ | ⟨hlive, hrc, hdrops⟩
  · have he : absMap b.table key = some e := (filter_eq_some_iff.mp hlive).1
    refine ⟨h.settle hgood key hfrees fun key' e' he' => ?_, .inl ⟨_, by rw [hlive]; rfl, hrc, ?_⟩⟩
    · by_cases hk : key' = key
      · subst hk
        rw [hmap, update_self] at he'
        obtain rfl := some.inj he'
        exact ⟨e, he, rfl⟩
      · rw [hmap, update_of_ne hk] at he'
        exact ⟨e', he', rfl⟩
    · exact ndView_settle_store hmap
  · refine ⟨h.settle hgood key hfrees (exists_of_drops hdrops), .inr ⟨?_, hrc, drops_settle hdrops⟩⟩
    rw [hlive]
    rfl

/-! ### Runs of the adapter -/

inductive NdApiCall
  | get (key : Bytes) (out : NexEntry)
  | set (key value : Bytes) (type : NexDataType) (ttlMs : Int)
  | del (key : Bytes)
  | exists (key : Bytes)
  | rmw (key : Bytes) (cb : NexRMWCallback)
  | expire (key : Bytes) (ttlMs : Int)
  | ttl (key : Bytes)

inductive NdApiReply
  | result (res : NexStorageResult)
  | entry (res : NexStorageResult) (out : NexEntry)
  | found (present : Bool)
  | ttl (ms : Int)
  deriving DecidableEq

/-- A call with the environment it is made in. -/
structure NdApiEvent where
  env : Env
  call : NdApiCall

/-- One call; `none` if it never returns. -/
def ndApiStepAt (b : NdBackend) (c : Clock) : NdApiCall → Option (NdBackend × NdApiReply)
  | .get key out =>
    let r := ndapiGetAt b c key out
    some (r.1, .entry r.2.1 r.2.2)
  | .set key value type ttlMs =>
    (ndapiSetAt b c key value type ttlMs).map fun r => (r.1, .result r.2)
  | .del key => some ((ndapiDel b c.toEnv key).1, .result (ndapiDel b c.toEnv key).2)
  | .exists key => some ((ndapiExists b c.toEnv key).1, .found (ndapiExists b c.toEnv key).2)
  | .rmw key cb => (ndapiRmwAt b c key cb).map fun r => (r.1, .result r.2)
  | .expire key ttlMs =>
    some ((ndapiExpireAt b c key ttlMs).1, .result (ndapiExpireAt b c key ttlMs).2)
  | .ttl key => some ((ndapiTtlAt b c key).1, .ttl (ndapiTtlAt b c key).2)

def ndApiStep (b : NdBackend) (e : NdApiEvent) : Option (NdBackend × NdApiReply) :=
  ndApiStepAt b e.env.still e.call

/-- **The allocator works and the types fit the tag.**  A callback may leave the type as
it finds it. -/
def CallSound (b : NdBackend) (e : NdApiEvent) : Prop :=
  match e.call with
  | .set _ _ type _ => MallocOk b e.env ∧ type ≠ .unknown
  | .rmw key cb => MallocOk (ndLookup b (key.cut 8) e.env.now).1 e.env ∧
      ∀ entry, entry.type ≠ .unknown → (cb entry).2.type ≠ .unknown
  | _ => True

/-- The entry that the callback of a read-modify-write sees. -/
def rmwEntryAt (b : NdBackend) (c : Clock) (key : Key) : NexEntry :=
  (HeldMap.liveAt (ndView b) c.now key).elim { NexEntry.zero with ttlMs := -1 }
    fun s => ndEntry s.val c.entry

def rmwEntry (b : NdBackend) (env : Env) (key : Key) : NexEntry :=
  (HeldMap.liveAt (ndView b) env.now key).elim { NexEntry.zero with ttlMs := -1 }
    fun s => ndEntry s.val env.now

theorem Owned.type_rmwEntryAt (h : Owned b) (c : Clock) (key : Key) :
    (rmwEntryAt b c key).type ≠ .unknown := by
  rw [rmwEntryAt]
  cases hlive : HeldMap.liveAt (ndView b) c.now key with
  | none => exact nofun
  | some s => exact h.type_of_view (filter_eq_some_iff.mp hlive).1

theorem Owned.type_rmwEntry (h : Owned b) (env : Env) (key : Key) :
    (rmwEntry b env key).type ≠ .unknown :=
  h.type_rmwEntryAt env.still key

/-- It is the one that the lookup leads to. -/
theorem Owned.entry_ndLookupAt (h : Owned b) (c : Clock) (key : Key) :
    ((Storage.ndLookup b key c.now).2.elim { NexEntry.zero with ttlMs := -1 }
      fun val => ndEntry val c.entry) = rmwEntryAt b c key := by
  rw [(h.ndLookup key c.now).2.2, rmwEntryAt]
  cases HeldMap.liveAt (ndView b) c.now key <;> rfl

theorem Owned.entry_ndLookup (h : Owned b) (env : Env) (key : Key) :
    ((Storage.ndLookup b key env.now).2.elim { NexEntry.zero with ttlMs := -1 }
      fun val => ndEntry val env.now) = rmwEntry b env key :=
  h.entry_ndLookupAt env.still key

/-- **The outcomes of a read-modify-write**: the key is too long, the callback declines,
or what the callback leaves is stored after the lookup. -/
theorem Owned.ndapiRmwAt_cases {b b' : NdBackend} (h : Owned b) {c : Clock} {key : Bytes}
    (hrmw : ndapiRmwAt b c key cb = some (b', res)) :
    (key.len > ND_MAX_KEY_LEN ∧ b' = b ∧ res = .tooLarge) ∨
      b' = (Storage.ndLookup b (key.cut 8) c.now).1 ∧
        res = (cb (rmwEntryAt b c (key.cut 8))).1 ∧ res ≠ .ok ∨
      ∃ done, Storage.ndPutAt (Storage.ndLookup b (key.cut 8) c.now).1 c (key.cut 8)
          (cb (rmwEntryAt b c (key.cut 8))).2.value (cb (rmwEntryAt b c (key.cut 8))).2.type
          (cb (rmwEntryAt b c (key.cut 8))).2.ttlMs = some (b', done) ∧
        (cb (rmwEntryAt b c (key.cut 8))).1 = .ok ∧ res = if done = true then .ok else .error := by
  have hentry := h.entry_ndLookupAt c (key.cut 8)
  simp only [ndapiRmwAt] at hrmw
  split at hrmw
  · rename_i hlong
    obtain ⟨rfl, rfl⟩ := result_inj hrmw
    exact .inl ⟨hlong, rfl, rfl⟩
  · rw [hentry] at hrmw
    split at hrmw
    · rename_i hok
      obtain ⟨⟨b₁, done⟩, hput, rfl, rfl⟩ := map_result hrmw
      exact .inr (.inr ⟨done, hput, hok, by rw [hok]⟩)
    · rename_i hno
      obtain ⟨rfl, rfl⟩ := result_inj hrmw
      exact .inr (.inl ⟨rfl, rfl, hno⟩)

theorem fst_ndapiGetAt (b : NdBackend) (c : Clock) (key : Bytes) (out : NexEntry) :
    (ndapiGetAt b c key out).1 = b ∨
      (ndapiGetAt b c key out).1 = (ndLookup b (key.cut 8) c.now).1 := by
  rw [ndapiGetAt]
  split
  · exact .inl rfl
  · refine .inr ?_
    rcases ndLookup b (key.cut 8) c.now with ⟨b', _ | val⟩
    · rfl
    · simp only
      split <;> rfl

theorem fst_ndapiExists (b : NdBackend) (env : Env) (key : Bytes) :
    (ndapiExists b env key).1 = b ∨
      (ndapiExists b env key).1 = (ndLookup b (key.cut 8) env.now).1 := by
  rw [ndapiExists]
  split
  · exact .inl rfl
  · exact .inr rfl

/-- **What `ndapi_get` answers**, from the values alone. -/
theorem Owned.ndapiGetAt_eq (h : Owned b) (c : Clock) (key : Bytes) (out : NexEntry) :
    (ndapiGetAt b c key out).2 = if key.len > ND_MAX_KEY_LEN then (.tooLarge, out)
      else match HeldMap.liveAt (ndView b) c.now (key.cut 8) with
        | none => (.notFound, out)
        | some s => if s.val.data.len > ND_BUF_LEN then (.tooLarge, out)
            else (.ok, ndEntry s.val c.entry) := by
  obtain ⟨_, _, hfound⟩ := h.ndLookup (key.cut 8) c.now
  rw [ndapiGetAt]
  split
  · rfl
  · cases hl : Storage.ndLookup b (key.cut 8) c.now with
    | mk b' found =>
      rw [hl] at hfound
      cases hlive : HeldMap.liveAt (ndView b) c.now (key.cut 8) with
      | none =>
        rw [hlive] at hfound
        obtain rfl : found = none := hfound
        rfl
      | some s =>
        rw [hlive] at hfound
        obtain rfl : found = some s.val := hfound
        simp only
        split <;> rfl

theorem Owned.ndapiGet_eq (h : Owned b) (env : Env) (key : Bytes) (out : NexEntry) :
    (ndapiGet b env key out).2 = if key.len > ND_MAX_KEY_LEN then (.tooLarge, out)
      else match HeldMap.liveAt (ndView b) env.now (key.cut 8) with
        | none => (.notFound, out)
        | some s => if s.val.data.len > ND_BUF_LEN then (.tooLarge, out)
            else (.ok, ndEntry s.val env.now) :=
  h.ndapiGetAt_eq env.still key out

/-- The calls that write when they answer `OK`. -/
def NdApiCall.Writes : NdApiCall → Prop
  | .set .. => True
  | .rmw .. => True
  | .expire .. => True
  | _ => False

/-- **What a call does to the values**, with its reply. -/
inductive HeldMove (b : NdBackend) (c : Clock) : NdApiCall → NdApiReply → HeldMap → Prop
  | drops {call : NdApiCall} {r : NdApiReply} {m' : HeldMap}
      (hdrops : (ndView b).Drops (max c.now c.write) m') (hfail : call.Writes → r ≠ .result .ok) :
      HeldMove b c call r m'
  | set {key : Bytes} (hlen : key.len ≤ ND_MAX_KEY_LEN) (value : Bytes) (type : NexDataType)
      (ttlMs : Int) :
      HeldMove b c (.set key value type ttlMs) (.result .ok)
        (update (ndView b) (key.cut 8) (some (storedBy c value type ttlMs)))
  | del (key : Bytes) (r : NdApiReply) :
      HeldMove b c (.del key) r (update (ndView b) (key.cut 8) none)
  | rmw {key : Bytes} {cb : NexRMWCallback} {entry : NexEntry} {m₁ : HeldMap}
      (hdrops : (ndView b).Drops c.now m₁)
      (hcb : cb (rmwEntryAt b c (key.cut 8)) = (.ok, entry)) :
      HeldMove b c (.rmw key cb) (.result .ok)
        (update m₁ (key.cut 8)
          (some (storedBy c entry.value entry.type entry.ttlMs)))
  | expire {key : Bytes} {s : Held} (hlen : key.len ≤ ND_MAX_KEY_LEN)
      (hlive : HeldMap.liveAt (ndView b) c.now (key.cut 8) = some s) (ttlMs : Int) :
      HeldMove b c (.expire key ttlMs) (.result .ok)
        (update (ndView b) (key.cut 8)
          (some { s with deadline := encodeExpire (ndExpireArg c.slot ttlMs) }))

section Steps

variable {b b' : NdBackend} {c : Clock}

variable (h : Owned b) {call : NdApiCall} {r : NdApiReply}
include h

/-- A call that only looks a key up. -/
theorem Owned.move_of_lookup {key : Bytes}
    (hcall : ¬ call.Writes) (hb' : b' = b ∨ b' = (Storage.ndLookup b (key.cut 8) c.now).1) :
    Owned b' ∧ HeldMove b c call r (ndView b') := by
  obtain ⟨hown, hdrops, _⟩ := h.ndLookup (key.cut 8) c.now
  rcases hb' with rfl | rfl
  · exact ⟨h, .drops (.refl _ _) fun hc => absurd hc hcall⟩
  · exact ⟨hown, .drops (hdrops.mono (le_max_left _ _)) fun hc => absurd hc hcall⟩

theorem Owned.move_set {key value : Bytes} {ttlMs : Int}
    (hmalloc : MallocOk b c.toEnv) (htype : type ≠ .unknown)
    (hset : ndapiSetAt b c key value type ttlMs = some (b', res)) :
    Owned b' ∧ HeldMove b c (.set key value type ttlMs) (.result res) (ndView b') := by
  rw [ndapiSetAt] at hset
  split at hset
  · obtain ⟨rfl, rfl⟩ := result_inj hset
    exact ⟨h, .drops (.refl _ _) nofun⟩
  · rename_i hlen
    obtain ⟨⟨b₂, done⟩, hput, rfl, rfl⟩ := map_result hset
    obtain ⟨hown, hview⟩ := h.ndPutAt hmalloc htype hput
    refine ⟨hown, ?_⟩
    cases done with
    | true =>
      rw [if_pos rfl] at hview
      simp only [hview]
      exact .set (by omega) value type ttlMs
    | false => exact .drops (hview.mono (le_max_right _ _)) nofun

theorem Owned.move_rmw {key : Bytes}
    (hmalloc : MallocOk (Storage.ndLookup b (key.cut 8) c.now).1 c.toEnv)
    (htype : ∀ entry, entry.type ≠ .unknown → (cb entry).2.type ≠ .unknown)
    (hrmw : ndapiRmwAt b c key cb = some (b', res)) :
    Owned b' ∧ HeldMove b c (.rmw key cb) (.result res) (ndView b') := by
  obtain ⟨hown, hdrops, _⟩ := h.ndLookup (key.cut 8) c.now
  have hdrops' := hdrops.mono (le_max_left c.now c.write)
  rcases h.ndapiRmwAt_cases hrmw with ⟨_, rfl, rfl⟩ | ⟨rfl, _, hno⟩ | ⟨done, hput, hok, rfl⟩
  · exact ⟨h, .drops (.refl _ _) nofun⟩
  · exact ⟨hown, .drops hdrops' fun _ hc => hno (NdApiReply.result.inj hc)⟩
  · obtain ⟨hown', hview⟩ := hown.ndPutAt hmalloc (htype _ (h.type_rmwEntryAt c _)) hput
    refine ⟨hown', ?_⟩
    cases done with
    | true =>
      rw [if_pos rfl] at hview
      rw [hview, if_pos rfl]
      exact .rmw hdrops (Prod.ext hok rfl)
    | false => exact .drops (hdrops'.trans (hview.mono (le_max_right _ _))) nofun

theorem Owned.move_expire (c : Clock) (key : Bytes) (ttlMs : Int) :
    Owned (ndapiExpireAt b c key ttlMs).1 ∧
      HeldMove b c (.expire key ttlMs) (.result (ndapiExpireAt b c key ttlMs).2)
        (ndView (ndapiExpireAt b c key ttlMs).1) := by
  rw [ndapiExpireAt]
  split
  · exact ⟨h, .drops (.refl _ _) nofun⟩
  · rename_i hlen
    generalize hexpire : NexDash.nexdashExpire b.table (key.cut 8) _ c.now = r
    obtain ⟨hown, hcase⟩ := h.nexdashExpire hexpire
    refine ⟨hown, ?_⟩
    rcases hcase with ⟨s, hlive, hrc, hview⟩ | ⟨_, hrc, hdrops⟩
    · simp only [hrc, hview]
      exact .expire (by omega) hlive ttlMs
    · simp only [hrc]
      exact .drops (hdrops.mono (le_max_left _ _)) nofun

/-- **One call.** -/
theorem Owned.step (hsound : CallSound b ⟨c.toEnv, call⟩)
    (hstep : ndApiStepAt b c call = some (b', r)) : Owned b' ∧ HeldMove b c call r (ndView b') := by
  cases call with
  | get key out =>
    obtain ⟨rfl, _⟩ := result_inj hstep
    exact h.move_of_lookup id (fst_ndapiGetAt b c key out)
  | set key value type ttlMs =>
    obtain ⟨⟨b₁, res⟩, hset, rfl, rfl⟩ := map_result hstep
    exact h.move_set hsound.1 hsound.2 hset
  | del key =>
    obtain ⟨rfl, rfl⟩ := result_inj hstep
    simp only [ndapiDel]
    split
    · exact ⟨h, .drops (.refl _ _) nofun⟩
    · obtain ⟨hown, hview⟩ := h.nexdashDel (key.cut 8)
      refine ⟨hown, ?_⟩
      simp only [hview]
      exact .del key _
  | «exists» key =>
    obtain ⟨rfl, _⟩ := result_inj hstep
    exact h.move_of_lookup id (fst_ndapiExists b c.toEnv key)
  | rmw key cb =>
    obtain ⟨⟨b₁, res⟩, hrmw, rfl, rfl⟩ := map_result hstep
    exact h.move_rmw hsound.1 hsound.2 hrmw
  | expire key ttlMs =>
    obtain ⟨rfl, rfl⟩ := result_inj hstep
    exact h.move_expire c key ttlMs
  | ttl key =>
    obtain ⟨rfl, _⟩ := result_inj hstep
    exact h.move_of_lookup id (fst_ndapiGetAt b c key .zero)

omit h

end Steps

theorem owned_create {b : NdBackend}
    (hcreate : ndapiCreate bloomSized = some b) : Owned b ∧ ndView b = fun _ => none := by
  obtain ⟨t, ht, rfl⟩ := map_eq_some_iff.mp hcreate
  obtain ⟨hgood, hempty⟩ := NexDash.good_create ht
  have hnone {key e} {p : Prop} (he : absMap t key = some e) : p := by
    rw [hempty] at he
    cases he
  refine ⟨⟨hgood, fun _ _ => hnone, fun _ _ => hnone, fun _ _ => hnone, fun _ _ _ _ => hnone,
    fun _ _ => hnone⟩, ?_⟩
  funext key
  rw [ndView, hempty]
  rfl

theorem allocated_create {b : NdBackend}
    (hcreate : ndapiCreate bloomSized = some b) (a : Addr) : b.allocated a = false := by
  obtain ⟨t, _, rfl⟩ := map_eq_some_iff.mp hcreate
  rfl

end NexCache.Storage
