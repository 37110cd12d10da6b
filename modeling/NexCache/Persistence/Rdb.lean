import Mathlib.Data.List.TakeWhile
import NexCache.Persistence.Aof

/-!
# Snapshots

`persistence/persist.c`: `rdb_save` writes a header, the entries and an end marker, and `rdb_load`
reads entries until it meets the marker or a read comes short.  Both ends of the loop return
`0`, so a file that is cut behind its magic is loaded with success (`rdb_load_prefix_iff`).

The file is its bytes.  What the calls of `write` do is an input of `rdbSave`, and what `malloc`
returns is an input of `rdbLoad`; the code looks at neither.  A call of `read` takes what is left
of the file, at most `MAX_RW_COUNT` bytes.  The variable for the expiry is not initialised: where
its read comes short, the missing bytes are those that `stack` has there.
-/

namespace NexCache.Persistence

open Buffer Framing List Nat

def RDB_MAGIC : List UInt8 := [78, 69, 88, 82, 68, 66, 49]

def RDB_EOF : Nat := 0xFFFF

/-- What `iter_fn` fills in: the contents of `key_buf`, the value and its length, the expiry. -/
structure RdbItem where
  keyBuf : List UInt8
  value : Ptr
  expireUs : UInt64

/-- `strlen`; the buffer is closed by a zero byte. -/
def strlen (buf : List UInt8) : Nat := (buf.takeWhile (· ≠ 0)).length

/-- The most bytes that one call of `read` or `write` moves. -/
def MAX_RW_COUNT : Nat := 0x7ffff000

/-- The buffers of the four or five writes for one entry; an empty one is not written. -/
def rdbItemWrites (e : RdbItem) : List (List UInt8) :=
  let klen := strlen e.keyBuf % 2 ^ 16
  let vlen := e.value.len % 2 ^ 32
  [toLE 2 klen, e.keyBuf.take klen, toLE 4 vlen, e.value.bytes.take vlen,
    toLE 8 e.expireUs.toNat]

/-- The buffers that `rdb_save` writes. -/
def rdbWrites (ts : UInt64) (es : List RdbItem) : List (List UInt8) :=
  [RDB_MAGIC, toLE 4 1, toLE 8 ts.toNat] ++ (es.flatMap rdbItemWrites ++ [toLE 2 RDB_EOF])

/-- The buffers are written, from the call `i` on. -/
def rdbWriteFrom (out : Nat → Option Nat) (i : Nat) (file : List UInt8) :
    List (List UInt8) → List UInt8
  | [] => file
  | buf :: bufs => rdbWriteFrom out (i + 1) (writeFd file buf (out i)).1 bufs

/-- The file of `rdb_save`, where the call `i` of `write` has the outcome `out i`. -/
def rdbSave (out : Nat → Option Nat) (ts : UInt64) (es : List RdbItem) : List UInt8 :=
  rdbWriteFrom out 0 [] (rdbWrites ts es)

/-- One call of `apply_fn`. -/
structure RdbEntry where
  key : List UInt8
  value : List UInt8
  expireUs : UInt64
  deriving DecidableEq

/-- One round of the loop of `rdb_load`, by what `malloc` returns; `none` is `break`. -/
def rdbNext (stack : List UInt8) (keyOk valueOk : Bool) (bs : List UInt8) :
    Option (RdbEntry × List UInt8) :=
  let klenBytes := bs.take 2
  if klenBytes.length ≠ 2 then none
  else
    let klen := ofLE klenBytes
    let bs := bs.drop 2
    if klen = RDB_EOF then none
    else if keyOk = false then none
    else
      let key := bs.take klen
      let bs := bs.drop klen
      if key.length ≠ klen then none
      else
        let vlenBytes := bs.take 4
        let bs := bs.drop 4
        if vlenBytes.length ≠ 4 then none
        else
          let vlen := ofLE vlenBytes
          let value := bs.take (min vlen MAX_RW_COUNT)
          let bs := bs.drop (min vlen MAX_RW_COUNT)
          -- reading to `NULL` fails
          if vlen > 0 ∧ (valueOk = false ∨ value.length ≠ vlen) then none
          else
            let got := bs.take 8
            let expireUs := ofLE (got ++ (stack.take 8).drop got.length)
            some (⟨key, value, UInt64.ofNat expireUs⟩, bs.drop 8)

/-- `rdb_load`: the calls of `apply_fn` and the result. -/
def rdbLoad (stack : List UInt8) (keyOk valueOk : Nat → Bool) (file : List UInt8) :
    List RdbEntry × Int :=
  if file.take RDB_MAGIC.length = RDB_MAGIC then
    -- the reads of the version and the time are not checked
    let bs := ((file.drop RDB_MAGIC.length).drop 4).drop 8
    (replayRounds (fun i => rdbNext stack (keyOk i) (valueOk i)) bs, 0)
  else ([], -1)

/-! ### A whole file -/

/-- A key of a string that fits the buffer, and a value that is there and that one call of
`write` and `read` can move. -/
structure RdbItem.Valid (e : RdbItem) : Prop where
  key_lt : e.keyBuf.length < 512
  key_ne_zero : ∀ b ∈ e.keyBuf, b ≠ 0
  value_eq : e.value.bytes.length = e.value.len
  value_le : e.value.len ≤ MAX_RW_COUNT

def RdbItem.entry (e : RdbItem) : RdbEntry := ⟨e.keyBuf, e.value.bytes, e.expireUs⟩

/-- Every call of `write` for these buffers, the first of them being the call `i`, is complete. -/
def CompleteFrom (out : Nat → Option Nat) (i : Nat) (bufs : List (List UInt8)) : Prop :=
  ∀ j buf, bufs[j]? = some buf → buf ≠ [] → Wrote (out (i + j)) buf.length

variable {out : Nat → Option Nat} {es : List RdbItem} {ts : UInt64}

theorem rdbWriteFrom_complete : ∀ (bufs : List (List UInt8)) (i : Nat)
    (file : List UInt8), CompleteFrom out i bufs →
      rdbWriteFrom out i file bufs = file ++ bufs.flatten := by
  intro bufs
  induction bufs with
  | nil => intro i file _; exact (append_nil file).symm
  | cons buf bufs ih =>
    intro i file h
    have hrest : CompleteFrom out (i + 1) bufs := by
      intro j buf' hget
      have hj := h (j + 1) buf' (by rwa [getElem?_cons_succ])
      rwa [add_comm j 1, ← add_assoc] at hj
    have hfirst : (writeFd file buf (out i)).1 = file ++ buf := by
      by_cases hnil : buf = []
      · rw [writeFd_eq, hnil]
        cases out i <;> simp [writeFd]
      · have hwrote : Wrote (out i) buf.length := h 0 buf rfl hnil
        rw [writeFd_complete file hwrote]
    rw [rdbWriteFrom, ih (i + 1) _ hrest, hfirst, flatten_cons, append_assoc]

/-- The bytes of one entry. -/
def rdbItemBytes (e : RdbItem) : List UInt8 := (rdbItemWrites e).flatten

theorem rdbSave_complete (h : CompleteFrom out 0 (rdbWrites ts es)) :
    rdbSave out ts es = RDB_MAGIC ++ (toLE 4 1 ++ (toLE 8 ts.toNat ++
      (es.flatMap rdbItemBytes ++ toLE 2 RDB_EOF))) := by
  have hitems : (es.flatMap rdbItemWrites).flatten = es.flatMap rdbItemBytes := by
    rw [← flatMap_id, flatMap_assoc]
    refine flatMap_congr fun e _ => ?_
    rw [flatMap_id, rdbItemBytes]
  rw [rdbSave, rdbWriteFrom_complete _ 0 [] h, rdbWrites, flatten_append, flatten_append, hitems]
  simp

theorem strlen_of_ne_zero {buf : List UInt8} (h : ∀ b ∈ buf, b ≠ 0) : strlen buf = buf.length := by
  rw [strlen, takeWhile_eq_self_iff.mpr fun b hb => decide_eq_true (h b hb)]

theorem RdbItem.Valid.bytes_eq {e : RdbItem} (h : e.Valid) :
    rdbItemBytes e = toLE 2 e.keyBuf.length ++ (e.keyBuf ++ (toLE 4 e.value.bytes.length ++
      (e.value.bytes ++ toLE 8 e.expireUs.toNat))) := by
  have hkey := h.key_lt
  have hvalue : e.value.len < 2 ^ 32 := lt_of_le_of_lt h.value_le (by decide)
  rw [rdbItemBytes, rdbItemWrites, strlen_of_ne_zero h.key_ne_zero, mod_eq_of_lt (by omega),
    mod_eq_of_lt hvalue, ← h.value_eq, take_length, take_length]
  simp

variable (stack : List UInt8)

/-- **One round** takes one entry off the file. -/
theorem rdbNext_bytes {e : RdbItem} (h : e.Valid) (more : List UInt8) :
    rdbNext stack true true (rdbItemBytes e ++ more) = some (e.entry, more) := by
  have hle : e.value.bytes.length ≤ MAX_RW_COUNT := by rw [h.value_eq]; exact h.value_le
  have hkey : e.keyBuf.length < 256 ^ 2 := lt_trans h.key_lt (by decide)
  have hvalue : e.value.bytes.length < 256 ^ 4 := lt_of_le_of_lt hle (by decide)
  have hexpire : e.expireUs.toNat < 256 ^ 8 := e.expireUs.toNat_lt
  have hne : e.keyBuf.length ≠ RDB_EOF := Nat.ne_of_lt (Nat.lt_trans h.key_lt (by decide))
  rw [h.bytes_eq, rdbNext]
  simp only [append_assoc, take_left' (length_toLE _ _), drop_left' (length_toLE _ _),
    length_toLE, ofLE_toLE hkey, ofLE_toLE hvalue, min_eq_left hle, take_left, drop_left, hne,
    ne_eq, not_true_eq_false, Bool.true_eq_false, or_self, and_false, if_false]
  -- nothing of the stack is left behind a whole expiry
  have hstack : (stack.take 8).drop 8 = [] := drop_eq_nil_of_le (length_take_le 8 stack)
  rw [hstack, append_nil, ofLE_toLE hexpire, UInt64.ofNat_toNat, RdbItem.entry]

theorem rdbNext_marker : rdbNext stack true true (toLE 2 RDB_EOF) = none := rfl

theorem rdbNext_shrinks : Shrinks (rdbNext stack true true) := by
  intro bs e rest h
  simp only [rdbNext] at h
  split at h
  · cases h
  · rename_i hlen
    rw [length_take] at hlen
    split_ifs at h
    obtain ⟨-, rfl⟩ := Prod.mk.inj (Option.some.inj h)
    simp only [length_drop]
    omega

/-! ### Truncation -/

section Load

variable {keyOk valueOk : Nat → Bool}

theorem rdbLoad_of_magic (rest : List UInt8) :
    rdbLoad stack keyOk valueOk (RDB_MAGIC ++ rest) =
      (replayRounds (fun i => rdbNext stack (keyOk i) (valueOk i)) ((rest.drop 4).drop 8), 0) := by
  rw [rdbLoad, take_left, if_pos rfl, drop_left]

theorem rdbLoad_of_short {file : List UInt8} (h : file.length < RDB_MAGIC.length) :
    rdbLoad stack keyOk valueOk file = ([], -1) := by
  rw [rdbLoad, if_neg]
  intro heq
  have := congrArg List.length heq
  rw [length_take] at this
  omega

theorem rdbLoad_rdbSave (hout : CompleteFrom out 0 (rdbWrites ts es)) (hv : ∀ e ∈ es, e.Valid)
    (hkey : ∀ i, keyOk i = true) (hvalue : ∀ i, valueOk i = true) :
    rdbLoad stack keyOk valueOk (rdbSave out ts es) = (es.map RdbItem.entry, 0) := by
  have hround : ∀ i bs, rdbNext stack (keyOk i) (valueOk i) bs
      = (rdbNext stack true true bs).map (Prod.map id id) := by
    intro i bs
    rw [hkey, hvalue, Prod.map_id, Option.map_id]
    rfl
  rw [rdbSave_complete hout, rdbLoad_of_magic, drop_left' (length_toLE _ _),
    drop_left' (length_toLE _ _), replayRounds_eq hround, map_id,
    replay_flatMap_append (rdbNext_shrinks stack) _ es fun e he more =>
      rdbNext_bytes stack (hv e he) more,
    replay_of_none (rdbNext_marker stack), append_nil]

theorem rdbLoad_take_result (hout : CompleteFrom out 0 (rdbWrites ts es)) (n : Nat) :
    (rdbLoad stack keyOk valueOk ((rdbSave out ts es).take n)).2 = -1 ↔ n < RDB_MAGIC.length := by
  constructor
  · intro hresult
    by_contra hge
    rw [rdbSave_complete hout, take_append, take_of_length_le (by omega),
      rdbLoad_of_magic] at hresult
    cases show (0 : Int) = -1 from hresult
  · intro hlt
    rw [rdbLoad_of_short stack (by rw [length_take]; omega)]

end Load

/-- **Snapshots**: if every write is complete and every `malloc` succeeds, a whole file is loaded
as it was saved.  A file that is cut is refused exactly when it is cut inside its magic. -/
theorem rdb_load_prefix_iff (stack : List UInt8) (keyOk valueOk : Nat → Bool)
    (out : Nat → Option Nat) (ts : UInt64) (es : List RdbItem) (hv : ∀ e ∈ es, e.Valid)
    (hout : CompleteFrom out 0 (rdbWrites ts es)) :
    ((∀ i, keyOk i = true) → (∀ i, valueOk i = true) →
        rdbLoad stack keyOk valueOk (rdbSave out ts es) = (es.map RdbItem.entry, 0)) ∧
      ∀ n < (rdbSave out ts es).length,
        ((rdbLoad stack keyOk valueOk ((rdbSave out ts es).take n)).2 = -1 ↔
          n < RDB_MAGIC.length) :=
  ⟨rdbLoad_rdbSave stack hout hv, fun n _ => rdbLoad_take_result stack hout n⟩

def rdbItemK : RdbItem := ⟨[107], .data [7], 9⟩

theorem rdbItemK_valid : rdbItemK.Valid :=
  ⟨by decide, forall_mem_singleton.mpr (by decide), rfl, by decide⟩

/-- Every call writes all of a small buffer. -/
def writeAll (_ : Nat) : Option Nat := some 100

theorem rdb_load_prefix_iff_one :
    rdbLoad [] (fun _ => true) (fun _ => true) (rdbSave writeAll 0 [rdbItemK])
        = ([⟨[107], [7], 9⟩], 0) ∧
      (rdbLoad [] (fun _ => true) (fun _ => true) ((rdbSave writeAll 0 [rdbItemK]).take 5)).2
        = -1 := by
  have hsmall : ∀ buf ∈ rdbWrites 0 [rdbItemK], buf.length ≤ 100 := by decide +kernel
  have h := rdb_load_prefix_iff [] (fun _ => true) (fun _ => true) writeAll 0 [rdbItemK]
    (forall_mem_singleton.mpr rdbItemK_valid)
    fun j buf hget _ => ⟨100, rfl, hsmall buf (mem_of_getElem? hget)⟩
  exact ⟨h.1 (fun _ => rfl) (fun _ => rfl), (h.2 5 (by decide +kernel)).mpr (by decide)⟩

/-- A file that ends behind the length of its only value is loaded with success, without the
entry; one that ends behind the value gives it an expiry from the stack.  So is a whole file
whose value could not be written, and one for which there is no memory. -/
theorem rdbLoad_cut_succeeds :
    let ok : Nat → Bool := fun _ => true
    let stack := [5, 5, 5, 5, 5, 5, 5, 5]
    let file := rdbSave writeAll 0 [rdbItemK]
    rdbLoad stack ok ok (file.take 26) = ([], 0) ∧
      rdbLoad stack ok ok (file.take 27) = ([⟨[107], [7], 0x0505050505050505⟩], 0) ∧
      rdbLoad stack ok ok (rdbSave (fun i => if i = 6 then none else some 100) 0 [rdbItemK])
        = ([⟨[107], [9], 0xff00000000000000⟩], 0) ∧
      rdbLoad stack ok (fun _ => false) file = ([], 0) := by
  decide +kernel

end NexCache.Persistence
