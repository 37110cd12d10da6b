import NexCache.Network.Reply
import NexCache.Network.WebSocket

/-!
# Sending WebSocket frames

The calls of `websocket.c` that send a frame.  `decodeFrame` reads a frame as RFC 6455 defines it,
without the limits of this server.  Every call on an open connection puts one frame on the wire that
it reads back, except `ws_send_close`, which leaves the state in which frames are sent before it
sends (`send_emits_iff`).
-/

namespace NexCache.WebSocket

open Buffer Framing List Option

/-- A call with its arguments; a reason is a C string without its end. -/
inductive SendCall where
  | text (data : List UInt8)
  | binary (data : List UInt8)
  | ping
  | close (code : UInt16) (reason : Option (List UInt8))

def closeCode (code : UInt16) : List UInt8 := [(code >>> 8).toUInt8, code.toUInt8]

/-- The state behind the call, and what is sent; `none` where the call returns -1. -/
def SendCall.run (state : WsState) : SendCall → WsState × Option (List UInt8 × List UInt8)
  | .text data => (state, wsSendFrame state 1 data data.length)
  | .binary data => (state, wsSendFrame state 2 data data.length)
  | .ping => (state, wsSendFrame state 9 [] 0)
  | .close code reason =>
    let payload := closeCode code ++ (reason.getD []).take 120
    (.closing, wsSendFrame .closing 8 payload payload.length)

/-! ### What the other side reads -/

/-- The only form of a length that the standard allows. -/
def shortest (len : Nat) : LenEnc :=
  if len ≤ 125 then .len7 else if len ≤ 65535 then .len16 else .len64

/-- No extension bits, the shortest form of the length, control frames short and in one piece. -/
def Frame.Standard (b₀ : UInt8) (f : Frame) : Prop :=
  b₀.toNat / 16 % 8 = 0 ∧ f.lenEnc = shortest f.payload.length ∧ f.payload.length < 2 ^ 63 ∧
    (8 ≤ f.opcode.val → f.fin = true ∧ f.payload.length ≤ 125)

instance (b₀ : UInt8) (f : Frame) : Decidable (f.Standard b₀) :=
  inferInstanceAs (Decidable (_ ∧ _ ∧ _ ∧ (_ → _)))

theorem toNat_mod_lt (b : UInt8) : b.toNat % 16 < 16 := Nat.mod_lt _ (by decide)

/-- A frame of RFC 6455 and what follows it. -/
def decodeFrame : List UInt8 → Option (Frame × List UInt8)
  | b₀ :: b₁ :: buf =>
    (lengthField b₁ buf).bind fun (lenEnc, len, buf) =>
    (maskingKey b₁ buf).bind fun (key, buf) =>
    (takeN len buf).bind fun (data, buf) =>
    let f : Frame :=
      ⟨decide (128 ≤ b₀.toNat), ⟨b₀.toNat % 16, toNat_mod_lt b₀⟩, key, lenEnc, unmask key data⟩
    if f.Standard b₀ then some (f, buf) else none
  | _ => none

/-- The call is to be read as this frame. -/
def SendCall.Carries : SendCall → Frame → Prop
  | .text data, f => f.opcode.val = 1 ∧ f.payload = data
  | .binary data, f => f.opcode.val = 2 ∧ f.payload = data
  | .ping, f => f.opcode.val = 9 ∧ f.payload = []
  | .close code reason, f => f.opcode.val = 8 ∧ ∃ r, r <+: reason.getD [] ∧
    f.payload = closeCode code ++ r

/-- What is sent is one final unmasked frame. -/
def SendCall.Reads (c : SendCall) (sent : List UInt8 × List UInt8) : Prop :=
  ∃ f, decodeFrame (sent.1 ++ sent.2) = some (f, []) ∧ f.fin = true ∧ f.key = none ∧ c.Carries f

theorem toBE_eight (n : Nat) :
    toBE 8 n = (range 8).map fun i => UInt8.ofNat (n >>> ((7 - i) * 8)) := by
  simp [toBE, toLE, range_succ, Nat.shiftRight_eq_div_pow, Nat.div_div_eq_div_mul]

theorem wsSendFrame_eq (opcode : UInt8) (data : List UInt8) :
    wsSendFrame .open opcode data data.length =
      some ((0x80 ||| opcode) :: .ofNat (lengthBytes (shortest data.length) data.length).1 ::
        (lengthBytes (shortest data.length) data.length).2, data) := by
  have hshift : data.length >>> 8 = data.length / 256 := Nat.shiftRight_eq_div_pow _ 8
  rw [wsSendFrame, if_neg (by simp), shortest, take_length]
  split_ifs
  · rfl
  · simp [lengthBytes, toBE, toLE, hshift]
  · simp only [lengthBytes, toBE_eight]
    rfl

/-- **A frame that is sent reads back**, if a control frame is short. -/
theorem decodeFrame_send (opcode : Fin 16) {data : List UInt8} (hlen : data.length < 2 ^ 63)
    (hcontrol : 8 ≤ opcode.val → data.length ≤ 125) :
    ∃ sent, wsSendFrame .open (.ofNat opcode) data data.length = some sent ∧
      decodeFrame (sent.1 ++ sent.2) = some (⟨true, opcode, none, shortest data.length, data⟩,
      []) := by
  refine ⟨_, wsSendFrame_eq _ data, ?_⟩
  have hfirst : ∀ op : Fin 16, (0x80 ||| UInt8.ofNat op : UInt8).toNat = 128 + op := by decide
  have h7 : shortest data.length = .len7 → data.length ≤ 125 := by grind [shortest]
  have h16 : shortest data.length = .len16 → data.length < 2 ^ 16 := by grind [shortest]
  have hbyte : (lengthBytes (shortest data.length) data.length).1 < 128 := by
    grind [shortest, lengthBytes]
  have hb : (UInt8.ofNat (lengthBytes (shortest data.length) data.length).1).toNat =
      (lengthBytes (shortest data.length) data.length).1 := by
    rw [UInt8.toNat_ofNat', Nat.mod_eq_of_lt (hbyte.trans (by decide))]
  have hdata := takeN_left data []
  rw [append_nil] at hdata
  rw [cons_append, cons_append, decodeFrame,
    lengthField_lengthBytes (by rw [hb, Nat.mod_eq_of_lt hbyte]) h7 h16 (hlen.trans (by decide)),
      bind_some]
  dsimp only
  rw [maskingKey, if_neg (by rw [hb]; omega), bind_some]
  dsimp only
  rw [hdata, bind_some]
  have hop : (128 + opcode.val) % 16 = opcode := by omega
  simp only [hfirst, hop, unmask, elim_none, Fin.eta]
  rw [decide_eq_true (by omega), if_pos]
  exact ⟨by rw [hfirst]; omega, rfl, hlen, fun h => ⟨rfl, hcontrol h⟩⟩

/-- **When a send call on an open connection does its work**: unless it is `ws_send_close`. -/
theorem send_emits_iff (c : SendCall)
    (hlen : ∀ data, c = .text data ∨ c = .binary data → data.length < 2 ^ 63) :
    (∃ sent, (c.run .open).2 = some sent ∧ c.Reads sent) ↔
    ∀ code reason, c ≠ .close code reason := by
  cases c with
  | text data =>
    obtain ⟨sent, hsent, hread⟩ := decodeFrame_send 1 (hlen data (.inl rfl)) (by simp)
    exact iff_of_true ⟨sent, hsent, _, hread, rfl, rfl, rfl, rfl⟩ (by simp)
  | binary data =>
    obtain ⟨sent, hsent, hread⟩ := decodeFrame_send 2 (hlen data (.inr rfl)) (by simp)
    exact iff_of_true ⟨sent, hsent, _, hread, rfl, rfl, rfl, rfl⟩ (by simp)
  | ping => exact iff_of_true ⟨_, rfl, _, rfl, rfl, rfl, rfl, rfl⟩ (by simp)
  | close code reason =>
    refine iff_of_false ?_ fun h => h code reason rfl
    rintro ⟨sent, hsent, -⟩
    cases hsent

theorem send_emits_iff_text :
    ∃ sent, (SendCall.run .open (.text [104, 105])).2 = some sent ∧
    SendCall.Reads (.text [104, 105]) sent :=
  (send_emits_iff (.text [104, 105]) (by simp)).mpr (by simp)

/-- A close with code 1000 sends nothing. -/
theorem close_not_sent : (SendCall.close 1000 none).run .open = (.closing, none) := by
  decide

end NexCache.WebSocket
