import NexCache.Lib.Buffer
import NexCache.Lib.Framing

/-!
# Reading WebSocket frames

`ws_read_frame` of `websocket.c`: every call receives what the socket has, as far as the read buffer
has room, and takes one frame off the front of the buffer.  The bytes that are still on their way
are part of the state, with a schedule of how `recv` hands them out.
-/

namespace NexCache.WebSocket

open Buffer Framing List Option Function

/-- `WS_MAX_PAYLOAD` -/
def maxPayload : Nat := 16 * 1024 * 1024

inductive LenEnc where
  | len7
  | len16
  | len64
  deriving DecidableEq, Repr

structure Frame where
  fin : Bool
  opcode : Fin 16
  key : Option (List UInt8)
  lenEnc : LenEnc
  payload : List UInt8
  deriving DecidableEq, Repr

/-- `ws_mask_payload` -/
def mask (key : List UInt8) (data : List UInt8) : List UInt8 :=
  data.mapIdx fun i b => b ^^^ key.getD (i % 4) 0

def unmask (key : Option (List UInt8)) (data : List UInt8) : List UInt8 :=
  key.elim data fun k => mask k data

/-- `n` bytes off the front, if they are there. -/
def takeN (n : Nat) (bs : List UInt8) : Option (List UInt8 × List UInt8) :=
  if bs.length < n then none else some (bs.take n, bs.drop n)

def bigEndian (bs : List UInt8) : Nat := bs.foldl (fun v b => v * 256 + b.toNat) 0

/-- The length of the payload, from the second byte and the bytes behind it. -/
def lengthField (b₁ : UInt8) (buf : List UInt8) : Option (LenEnc × Nat × List UInt8) :=
  if b₁.toNat % 128 = 126 then (takeN 2 buf).map fun r => (.len16, bigEndian r.1, r.2)
  else if b₁.toNat % 128 = 127 then (takeN 8 buf).map fun r => (.len64, bigEndian r.1, r.2)
  else some (.len7, b₁.toNat % 128, buf)

def maskingKey (b₁ : UInt8) (buf : List UInt8) : Option (Option (List UInt8) × List UInt8) :=
  if 128 ≤ b₁.toNat then (takeN 4 buf).map fun r => (some r.1, r.2) else some (none, buf)

/-- `none`: more bytes are needed; `some none`: the frame is refused; otherwise the frame and what
follows it. -/
def parseFrame : List UInt8 → Option (Option (Frame × List UInt8))
  | b₀ :: b₁ :: buf =>
    (lengthField b₁ buf).bind fun (lenEnc, len, buf) =>
    if maxPayload < len then some none
    else
      (maskingKey b₁ buf).bind fun (key, buf) =>
      (takeN len buf).map fun (data, buf) =>
      some (⟨decide (128 ≤ b₀.toNat), ⟨b₀.toNat % 16, Nat.mod_lt _ (by decide)⟩, key, lenEnc,
        unmask key data⟩, buf)
  | _ => none

/-! ### The connection -/

/-- What the next `recv` does: `EAGAIN`, or at most `n + 1` bytes. -/
inductive Recv where
  | again
  | upTo (n : Nat)
  deriving DecidableEq, Repr

/-- `read_buf` with `read_cap`, and the bytes on their way; behind the schedule `recv` gives all it
can. -/
structure Link where
  buf : List UInt8
  cap : Nat
  left : List UInt8
  sched : List Recv
  deriving DecidableEq, Repr

inductive Outcome where
  | closed
  | more
  | frame (f : Frame)
  deriving DecidableEq, Repr

/-- `read_cap` when the call receives -/
def Link.grown (s : Link) : Nat :=
  if s.cap - s.buf.length < 4096 ∧ s.cap < maxPayload then min (s.cap * 2) (maxPayload + 16)
    else s.cap

/-- The buffer after `recv`; `none` at the end of the stream. -/
def Link.received (s : Link) : Option Link :=
  if s.buf.length < s.grown then
    match s.sched with
    | .again :: sched => some { s with cap := s.grown, sched := sched }
    | sched =>
      if s.left = [] then none
      else
        let n := min (s.grown - s.buf.length)
          (match sched with | .upTo n :: _ => n + 1 | _ => s.grown)
        some ⟨s.buf ++ s.left.take n, s.grown, s.left.drop n, sched.tail⟩
  else some { s with cap := s.grown }

def wsReadFrame (s : Link) : Link × Outcome :=
  match s.received with
  | none => ({ s with cap := s.grown }, .closed)
  | some s =>
    match parseFrame s.buf with
    | none => (s, .more)
    | some none => (s, .closed)
    | some (some (f, rest)) => ({ s with buf := rest }, .frame f)

/-- The results of the first `n` calls. -/
def calls : Nat → Link → List Outcome
  | 0, _ => []
  | n + 1, s => (wsReadFrame s).2 :: calls n (wsReadFrame s).1

/-! ### Frames on the wire -/

def toBE (n w : Nat) : List UInt8 := (toLE n w).reverse

/-- The second byte without the mask bit, and the bytes of the length. -/
def lengthBytes : LenEnc → Nat → Nat × List UInt8
  | .len7, len => (len, [])
  | .len16, len => (126, toBE 2 len)
  | .len64, len => (127, toBE 8 len)

def wire (f : Frame) : List UInt8 :=
  UInt8.ofNat ((if f.fin then 128 else 0) + f.opcode) ::
  UInt8.ofNat ((if f.key.isSome then 128 else 0) + (lengthBytes f.lenEnc f.payload.length).1) ::
  ((lengthBytes f.lenEnc f.payload.length).2 ++ (f.key.getD [] ++ unmask f.key f.payload))

/-- A frame with a payload that its form of the length can express. -/
structure Frame.WellFormed (f : Frame) : Prop where
  key : ∀ k, f.key = some k → k.length = 4
  max : f.payload.length ≤ maxPayload
  len7 : f.lenEnc = .len7 → f.payload.length ≤ 125
  len16 : f.lenEnc = .len16 → f.payload.length < 2 ^ 16

theorem mask_mask (k data : List UInt8) : mask k (mask k data) = data := by
  refine ext_getElem (by simp [mask]) fun i _ _ => ?_
  simp only [mask, getElem_mapIdx, UInt8.xor_assoc, UInt8.xor_self, UInt8.xor_zero]

theorem unmask_unmask (key : Option (List UInt8)) (data : List UInt8) :
    unmask key (unmask key data) = data := by
  cases key with
  | none => rfl
  | some k => exact mask_mask k data

theorem length_unmask (key : Option (List UInt8)) (data : List UInt8) :
    (unmask key data).length = data.length := by
  cases key <;> simp [unmask, mask]

theorem bigEndian_toBE {n w : Nat} (h : w < 256 ^ n) : bigEndian (toBE n w) = w := by
  have hfold : ∀ l : List UInt8, bigEndian l.reverse = ofLE l := by
    intro l
    rw [bigEndian, foldl_reverse]
    induction l with
    | nil => rfl
    | cons b l ih => rw [foldr_cons, ih, ofLE]; omega
  rw [toBE, hfold, ofLE_toLE h]

theorem takeN_append {n : Nat} {bs a r : List UInt8} (h : takeN n bs = some (a, r))
    (more : List UInt8) : takeN n (bs ++ more) = some (a, r ++ more) := by
  rw [takeN] at h ⊢
  split at h
  · cases h
  · obtain ⟨rfl, rfl⟩ := Prod.mk.inj (some.inj h)
    rw [if_neg (by rw [length_append]; omega), take_append_of_le_length (by omega),
      drop_append_of_le_length (by omega)]

theorem takeN_left (a r : List UInt8) : takeN a.length (a ++ r) = some (a, r) := by
  simp [takeN]

variable {b₁ : UInt8} {buf : List UInt8}

theorem lengthField_append {r : LenEnc × Nat × List UInt8}
    (h : lengthField b₁ buf = some r) (more : List UInt8) :
    lengthField b₁ (buf ++ more) = some (r.1, r.2.1, r.2.2 ++ more) := by
  rw [lengthField] at h ⊢
  split_ifs at h ⊢
  iterate 2
    obtain ⟨x, hx, rfl⟩ := map_eq_some_iff.mp h
    rw [takeN_append hx, map_some]
  obtain rfl := some.inj h
  rfl

theorem maskingKey_append {r : Option (List UInt8) × List UInt8}
    (h : maskingKey b₁ buf = some r) (more : List UInt8) :
    maskingKey b₁ (buf ++ more) = some (r.1, r.2 ++ more) := by
  rw [maskingKey] at h ⊢
  split_ifs at h ⊢
  · obtain ⟨x, hx, rfl⟩ := map_eq_some_iff.mp h
    rw [takeN_append hx, map_some]
  · obtain rfl := some.inj h
    rfl

/-- What is decided of a frame does not depend on what follows. -/
theorem parseFrame_append {bs : List UInt8} {r : Option (Frame × List UInt8)}
    (h : parseFrame bs = some r)
    (more : List UInt8) : parseFrame (bs ++ more) = some (r.map fun x => (x.1, x.2 ++ more)) := by
  match bs, h with
  | b₀ :: b₁ :: buf, h =>
    rw [cons_append, cons_append]
    rw [parseFrame] at h ⊢
    obtain ⟨⟨lenEnc, len, buf'⟩, hlen, h⟩ := bind_eq_some_iff.mp h
    rw [lengthField_append hlen, bind_some]
    dsimp only at h ⊢
    split_ifs at h ⊢
    · obtain rfl := some.inj h
      rfl
    · obtain ⟨⟨key, buf''⟩, hkey, h⟩ := bind_eq_some_iff.mp h
      obtain ⟨⟨data, rest⟩, hdata, rfl⟩ := map_eq_some_iff.mp h
      rw [maskingKey_append hkey, bind_some]
      rw [takeN_append hdata, map_some]
      rfl

/-- The length reads back from its bytes followed by anything. -/
theorem lengthField_lengthBytes {lenEnc : LenEnc} {len : Nat}
    (hb : b₁.toNat % 128 = (lengthBytes lenEnc len).1) (h7 : lenEnc = .len7 → len ≤ 125)
    (h16 : lenEnc = .len16 → len < 2 ^ 16) (h64 : len < 2 ^ 64) (rest : List UInt8) :
    lengthField b₁ ((lengthBytes lenEnc len).2 ++ rest) = some (lenEnc, len, rest) := by
  rw [lengthField, hb]
  cases lenEnc with
  | len7 =>
    have := h7 rfl
    rw [lengthBytes, if_neg (by dsimp only; omega), if_neg (by dsimp only; omega)]
    rfl
  | len16 =>
    have htake := takeN_left (toBE 2 len) rest
    rw [toBE, length_reverse, length_toLE, ← toBE] at htake
    rw [lengthBytes, if_pos rfl, htake, map_some, bigEndian_toBE (h16 rfl)]
  | len64 =>
    have htake := takeN_left (toBE 8 len) rest
    rw [toBE, length_reverse, length_toLE, ← toBE] at htake
    rw [lengthBytes, if_neg (by dsimp only; omega), if_pos rfl, htake, map_some, bigEndian_toBE h64]

theorem parseFrame_wire {f : Frame} (hf : f.WellFormed) :
    parseFrame (wire f) = some (some (f, [])) := by
  obtain ⟨fin, opcode, key, lenEnc, payload⟩ := f
  have hmax := hf.max
  rw [maxPayload] at hmax
  dsimp only at hmax
  -- the second byte: the mask bit, and at most 127
  generalize hb : (if key.isSome then 128 else 0) + (lengthBytes lenEnc payload.length).1 = b₁
  have hbyte : (lengthBytes lenEnc payload.length).1 ≤ 127 := by
    cases lenEnc with
    | len7 => exact (hf.len7 rfl).trans (by decide)
    | len16 => exact (by decide : (126 : Nat) ≤ 127)
    | len64 => exact le_rfl
  have hmod : (UInt8.ofNat b₁).toNat % 128 = (lengthBytes lenEnc payload.length).1
      ∧ (128 ≤ (UInt8.ofNat b₁).toNat ↔ key.isSome) := by
    rw [UInt8.toNat_ofNat', ← hb]
    cases key <;> simp <;> omega
  have hlen := lengthField_lengthBytes hmod.1 hf.len7 hf.len16 (by omega)
  have hkey : ∀ rest, maskingKey (UInt8.ofNat b₁) (key.getD [] ++ rest) = some (key, rest) := by
    intro rest
    rw [maskingKey]
    cases key with
    | none => rw [if_neg fun h => Bool.false_ne_true (hmod.2.mp h)]; rfl
    | some k =>
      have htake := takeN_left k rest
      rw [hf.key k rfl] at htake
      rw [if_pos (hmod.2.mpr rfl), getD_some, htake, map_some]
  have hdata := takeN_left (unmask key payload) []
  rw [length_unmask, append_nil] at hdata
  have hfirst : ∀ b, b = (if fin then 128 else 0) + (opcode : Nat) →
      decide (128 ≤ (UInt8.ofNat b).toNat) = fin ∧ (UInt8.ofNat b).toNat % 16 = opcode := by
    rintro b rfl
    rw [UInt8.toNat_ofNat']
    cases fin <;> simp <;> omega
  rw [wire, parseFrame]
  rw [hb, hlen, bind_some]
  dsimp only
  rw [if_neg (by rw [maxPayload]; omega), hkey, bind_some]
  dsimp only
  rw [hdata, map_some, unmask_unmask]
  simp only [(hfirst _ rfl).1, (hfirst _ rfl).2, Fin.eta]

/-- Of a frame that is not there as a whole nothing is decided. -/
theorem parseFrame_cut {f : Frame} (hf : f.WellFormed) {bs rest : List UInt8}
    (h : bs ++ rest = wire f) (hrest : rest ≠ []) : parseFrame bs = none := by
  cases hparse : parseFrame bs with
  | none => rfl
  | some r =>
    have hwhole := parseFrame_append hparse rest
    rw [h, parseFrame_wire hf] at hwhole
    cases r with
    | none => cases hwhole
    | some x =>
      have := (Prod.mk.inj (some.inj (some.inj hwhole))).2
      exact absurd (append_eq_nil_iff.mp this.symm).2 hrest

/-! ### Runs -/

/-- The state after `n` calls. -/
def after (n : Nat) (s : Link) : Link := (fun s => (wsReadFrame s).1)^[n] s

/-- The next call finds the end of the stream. -/
def Link.AtEnd (s : Link) : Prop := s.received = none

/-- The frames that are still to be read are the bytes in the buffer and on their way. -/
structure Link.Holds (s : Link) (fs : List Frame) : Prop where
  bytes : s.buf ++ s.left = fs.flatMap wire
  wellFormed : ∀ f ∈ fs, f.WellFormed
  small : ∀ f ∈ fs, (wire f).length ≤ maxPayload
  pos : 0 < s.cap
  fits : s.buf.length ≤ s.cap

variable {s t : Link} {fs : List Frame}

theorem Link.lt_grown (hpos : 0 < s.cap) (hfits : s.buf.length ≤ s.cap)
    (hcap : s.cap < maxPayload) : s.buf.length < s.grown := by
  rw [Link.grown]
  split_ifs <;> omega

/-- Bytes move from the one list to the other, and something of the schedule or the bytes is used
up, unless the buffer is full. -/
theorem Link.Holds.received (h : s.Holds fs) (ht : s.received = some t) :
    t.Holds fs ∧ (t.sched.length + t.left.length < s.sched.length + s.left.length
      ∨ maxPayload ≤ t.buf.length ∧ t.sched = s.sched ∧ t.left = s.left) := by
  have hgrown : s.cap ≤ s.grown := by
    rw [Link.grown]
    split_ifs <;> omega
  have hroom : ∀ buf left sched, buf ++ left = s.buf ++ s.left → buf.length ≤ s.grown →
      (Link.mk buf s.grown left sched).Holds fs := fun buf left sched hbytes hlen =>
    ⟨hbytes.trans h.bytes, h.wellFormed, h.small, h.pos.trans_le hgrown, hlen⟩
  have hfits := h.fits
  rw [Link.received] at ht
  split at ht
  · rename_i hlt
    split at ht
    · rename_i sched hsched
      obtain rfl := some.inj ht
      exact ⟨hroom _ _ _ rfl hlt.le, Or.inl (by simp [hsched])⟩
    · rename_i sched hsched
      split at ht
      · cases ht
      · rename_i hleft
        generalize hn : min (s.grown - s.buf.length) _ = n at ht
        have hnpos : 0 < n := by
          rw [← hn]
          split <;> omega
        obtain rfl := some.inj ht
        have hpos := length_pos_iff.mpr hleft
        refine ⟨hroom _ _ _ (by rw [append_assoc, take_append_drop]) ?_, Or.inl ?_⟩
        · rw [length_append, length_take]
          omega
        · simp only [length_tail, length_drop]
          omega
  · rename_i hfull
    obtain rfl := some.inj ht
    refine ⟨hroom _ _ _ rfl (by omega), Or.inr ⟨?_, rfl, rfl⟩⟩
    by_contra hsmall
    dsimp only at hsmall
    by_cases hcap : s.cap < maxPayload
    · exact hfull (Link.lt_grown h.pos hfits hcap)
    · omega

/-- Once the bytes are there, the first frame is taken off, or it is not there as a whole. -/
theorem Link.Holds.parsed (h : s.Holds fs) :
    (parseFrame s.buf = none ∧ (s.buf.length < maxPayload ∨ fs = []))
    ∨ ∃ f fs' rest, fs = f :: fs' ∧ parseFrame s.buf = some (some (f, rest)) ∧
    Link.Holds { s with buf := rest } fs' := by
  have hbytes := h.bytes
  cases fs with
  | nil =>
    rw [flatMap_nil] at hbytes
    rw [(append_eq_nil_iff.mp hbytes).1]
    exact Or.inl ⟨rfl, Or.inr rfl⟩
  | cons f fs =>
    have hf := h.wellFormed f (mem_cons_self ..)
    rw [flatMap_cons] at hbytes
    rcases append_eq_append_iff.mp hbytes with ⟨m, hm, -⟩ | ⟨m, hm, hrest⟩
    · by_cases hnil : m = []
      · rw [hnil, append_nil] at hm
        right
        refine ⟨f, fs, [], rfl, by rw [← hm, parseFrame_wire hf], ?_,
          fun g hg => h.wellFormed g (mem_cons_of_mem f hg),
          fun g hg => h.small g (mem_cons_of_mem f hg), h.pos, Nat.zero_le _⟩
        rw [hm] at hbytes
        exact append_cancel_left hbytes
      · refine Or.inl ⟨parseFrame_cut hf hm.symm hnil, Or.inl ?_⟩
        have hsmall := h.small f (mem_cons_self ..)
        rw [hm, length_append] at hsmall
        have := length_pos_iff.mpr hnil
        omega
    · right
      have hfits := h.fits
      rw [hm, length_append] at hfits
      refine ⟨f, fs, m, rfl, by rw [hm, parseFrame_append (parseFrame_wire hf)]; rfl, hrest.symm,
        fun g hg => h.wellFormed g (mem_cons_of_mem f hg),
          fun g hg => h.small g (mem_cons_of_mem f hg), h.pos,
        by dsimp only; omega⟩

/-- The frame of a result. -/
def Outcome.frame? : Outcome → Option Frame
  | .frame f => some f
  | _ => none

/-- Every call uses up something: bytes, schedule or a frame. -/
theorem calls_of_holds (h : s.Holds fs) (hend : ∀ n, (after n s).AtEnd → (after n s).buf = []) :
    ∃ n os, calls (n + 1) s = os ++ [.closed] ∧ .closed ∉ os ∧
    os.filterMap Outcome.frame? = fs := by
  induction hk : s.sched.length + s.left.length + fs.length using Nat.strongRecOn
    generalizing s fs with
  | ind k ih =>
    cases ht : s.received with
    | none =>
      have hbuf := hend 0 ht
      have hleft : s.left = [] := by
        rw [Link.received] at ht
        split at ht
        · split at ht
          · cases ht
          · split at ht
            · assumption
            · cases ht
        · cases ht
      have hbytes := h.bytes
      rw [show s.buf = [] from hbuf, hleft, append_nil] at hbytes
      have hfs : fs = [] := by
        cases fs with
        | nil => rfl
        | cons f fs => rw [flatMap_cons, wire] at hbytes; cases hbytes
      refine ⟨0, [], ?_, not_mem_nil, hfs.symm⟩
      rw [calls, wsReadFrame, ht]
      rfl
    | some t =>
      obtain ⟨hholds, hless⟩ := h.received ht
      have hnext : ∀ u o, wsReadFrame s = (u, o) → o ≠ .closed → ∀ fs', u.Holds fs' →
          fs = o.frame?.toList ++ fs' → u.sched.length + u.left.length + fs'.length < k →
          ∃ n os, calls (n + 1) s = os ++ [.closed] ∧ .closed ∉ os ∧
              os.filterMap Outcome.frame? = fs := by
        intro u o hu ho fs' hu' hfs hlt
        obtain ⟨n, os, hcalls, hclosed, hframes⟩ := ih _ hlt hu' (fun m hm => by
          have := hend (m + 1)
          rw [after, iterate_succ_apply, hu] at this
          exact this hm) rfl
        refine ⟨n + 1, o :: os, ?_, ?_, ?_⟩
        · rw [calls, hu, hcalls, cons_append]
        · rw [mem_cons, not_or]
          exact ⟨ho.symm, hclosed⟩
        · rw [hfs, ← hframes]
          cases o <;> rfl
      rcases hholds.parsed with ⟨hparse, hpart⟩ | ⟨f, fs', rest, rfl, hparse, hrest⟩
      · refine hnext t .more (by rw [wsReadFrame, ht]; dsimp only; rw [hparse])
          (by simp) fs hholds rfl ?_
        rcases hless with hless | ⟨hfull, hsched, hleft⟩
        · omega
        · -- a full buffer has the first frame as a whole
          rcases hpart with hpart | rfl
          · omega
          · have := hholds.bytes
            rw [flatMap_nil] at this
            rw [(append_eq_nil_iff.mp this).1, maxPayload, length_nil] at hfull
            omega
      · refine hnext _ (.frame f) (by rw [wsReadFrame, ht]; dsimp only; rw [hparse])
          (by simp) fs' hrest rfl ?_
        rw [length_cons] at hk
        dsimp only
        rcases hless with hless | ⟨-, hsched, hleft⟩
        · omega
        · rw [hsched, hleft]
          omega

/-- A new connection, with frames on their way. -/
def opened (fs : List Frame) (sched : List Recv) : Link := ⟨[], 65536, fs.flatMap wire, sched⟩

/-- Frames of at most sixteen megabytes, headers included, are all read in order, if the end of the
stream is never met with bytes still in the buffer. -/
theorem frames_read (fs : List Frame) (sched : List Recv) (hwell : ∀ f ∈ fs, f.WellFormed)
    (hsmall : ∀ f ∈ fs, (wire f).length ≤ maxPayload)
    (hend : ∀ n, (after n (opened fs sched)).AtEnd → (after n (opened fs sched)).buf = []) :
    ∃ n os, calls (n + 1) (opened fs sched) = os ++ [.closed] ∧ .closed ∉ os ∧
    os.filterMap Outcome.frame? = fs :=
  calls_of_holds ⟨rfl, hwell, hsmall, Nat.zero_lt_succ 65535, Nat.zero_le _⟩ hend

/-- A ping without payload. -/
def ping : Frame := ⟨true, 9, none, .len7, []⟩

/-- Two pings, in pieces of one, two and one byte. -/
def splitPings : Link := opened [ping, ping] [.upTo 0, .upTo 1, .upTo 0]

theorem frames_read_split : ∃ n os, calls (n + 1) splitPings = os ++ [.closed] ∧ .closed ∉ os ∧
    os.filterMap Outcome.frame? = [ping, ping] := by
  refine frames_read [ping, ping] _ ?_ (by decide) ?_
  · have hping : ping.WellFormed :=
      ⟨fun k hk => (some_ne_none k hk.symm).elim, by decide, fun _ => by decide, LenEnc.noConfusion⟩
    simpa using hping
  · have hthree : after 3 splitPings = ⟨[], 65536, [], []⟩ := by decide
    intro n hend
    match n with
    | 0 => rfl
    | 1 | 2 => exact absurd hend (by rw [Link.AtEnd]; decide)
    | n + 3 =>
      rw [after] at hthree ⊢
      rw [iterate_add_apply, ← splitPings, hthree, iterate_fixed (by decide)]

/-- Two pings that arrive in one piece, followed by the end of the stream: the second is lost. -/
theorem second_frame_lost :
    calls 2 (opened [ping, ping] [.upTo 3]) = [.frame ping, .closed] := by decide

end NexCache.WebSocket
