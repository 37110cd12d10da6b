import NexCache.Lib.Json
import Mathlib.Algebra.Group.Nat.Defs

/-!
# WebSocket replies

`ws_send_response` of `websocket.c` writes a JSON object into a local buffer of 8192 bytes with
`snprintf` and sends as many bytes as `snprintf` says the text has.  Strings are the bytes before
their NUL.
-/

namespace NexCache.WebSocket

open Json List Option

def bytes (s : String) : List UInt8 := s.toUTF8.data.toList

def hexDigit (n : UInt8) : UInt8 := if n < 10 then 48 + n else 87 + n

/-- The `switch` of `ws_json_escape`. -/
def escapeByte (b : UInt8) : List UInt8 :=
  if b = 34 then [92, 34]
  else if b = 92 then [92, 92]
  else if b = 10 then [92, 110]
  else if b = 13 then [92, 114]
  else if b = 9 then [92, 116]
  else if b < 32 then [92, 117, 48, 48, hexDigit (b / 16), hexDigit (b % 16)]
  else [b]

/-- The loop of `ws_json_escape`, with what is in `dst` so far. -/
def escapeLoop (cap : Nat) : List UInt8 → List UInt8 → List UInt8
  | [], dst => dst
  | b :: src, dst => if dst.length + 6 < cap then escapeLoop cap src (dst ++ escapeByte b) else dst

/-- The string in the buffer of 2048 bytes after `ws_json_escape`; without a source it is the one
that was there. -/
def wsJsonEscape (src : Option (List UInt8)) (dst : List UInt8) : List UInt8 :=
  src.elim dst fun s => escapeLoop 2048 s []

/-- What the locals of `ws_send_response` hold before it writes them: the string in `esc_b`, and the
memory behind the text in `buf`. -/
structure Locals where
  escB : List UInt8
  behind : List UInt8

def responseText (escB : List UInt8) (reqId result error : Option (List UInt8)) : List UInt8 :=
  match error with
  | some e =>
    bytes "\x7b\"ok\":false,\"error\":\"" ++ wsJsonEscape (some e) [] ++ bytes "\",\"id\":\""
      ++ wsJsonEscape reqId escB ++ bytes "\"\x7d"
  | none =>
    let literal := result.any fun r => r.head? == some 34
    let mark := if literal then [] else [34]
    bytes "\x7b\"ok\":true,\"result\":" ++ mark
      ++ (result.elim (bytes "null") fun r => if literal then r else wsJsonEscape (some r) [])
      ++ mark ++ bytes ",\"id\":\"" ++ wsJsonEscape reqId escB ++ bytes "\"\x7d"

inductive WsState where
  | connecting
  | handshake
  | open
  | closing
  | closed
  deriving DecidableEq, Repr

/-- The header and the payload that are sent; `data` is the memory the pointer leads to. -/
def wsSendFrame (state : WsState) (opcode : UInt8) (data : List UInt8) (dataLen : Nat) :
    Option (List UInt8 × List UInt8) :=
  if state ≠ .open then none
  else
    let header :=
      if dataLen ≤ 125 then [UInt8.ofNat dataLen]
      else if dataLen ≤ 65535 then [126, UInt8.ofNat (dataLen >>> 8), UInt8.ofNat dataLen]
      else 127 :: (range 8).map fun i => UInt8.ofNat (dataLen >>> ((7 - i) * 8))
    some ((0x80 ||| opcode) :: header, data.take dataLen)

/-- What `snprintf` returns for a text of `n` bytes, as a `size_t`: it is -1 if that is no `int`. -/
def snprintfLen (n : Nat) : Nat := if n < 2 ^ 31 then n else 2 ^ 64 - 1

def wsSendResponse (state : WsState) (locals : Locals) (reqId result error : Option (List UInt8)) :
    Option (List UInt8 × List UInt8) :=
  let text := responseText locals.escB reqId result error
  wsSendFrame state 1 (text.take 8191 ++ 0 :: locals.behind) (snprintfLen text.length)

/-! ## What a reply should be -/

def Utf8 (bs : List UInt8) : Prop := ∃ cs : List Char, cs.flatMap String.utf8EncodeChar = bs

def key (s : String) : List Item := (bytes s).map .byte

/-- The value of `error`, or of `result`, is the one given. -/
def Stands (result error : Option (List UInt8)) (v : Value) : Prop :=
  match error, result with
  | some e, _ => ∃ is, v = .string is ∧ meaning is = some e
  | none, none => v = .null
  | none, some r => ∃ is, v = .string is ∧ if r.head? = some 34 then stringToken r = some (is, [])
    else meaning is = some r

def Answers (reqId result error : Option (List UInt8)) (payload : List UInt8) : Prop :=
  ∃ v is, object payload = some [(key "ok", .bool error.isNone),
      (key (if error.isSome then "error" else "result"), v),
      (key "id", .string is)] ∧ Stands result error v ∧ ∀ s ∈ reqId, meaning is = some s

/-- Whatever the locals hold, the reply is the object asked for and no byte is sent that was not
written. -/
def Safe (reqId result error : Option (List UInt8)) : Prop :=
  ∀ locals, ∃ header payload, wsSendResponse .open locals reqId result error =
    some (header, payload) ∧
    payload.length ≤ min (responseText locals.escB reqId result error).length 8191 + 1 ∧
      Utf8 payload ∧
    Answers reqId result error payload

def escape (s : List UInt8) : List UInt8 := s.flatMap escapeByte

/-- Before its last byte the escaped string leaves room for six more and the NUL. -/
def Escapes (s : List UInt8) : Prop := (escape s.dropLast).length + 6 < 2048

instance (s : List UInt8) : Decidable (Escapes s) := inferInstanceAs (Decidable (_ < _))

def Answerable (reqId result error : Option (List UInt8)) : Prop :=
  ∃ i ∈ reqId, Escapes i ∧
    match error, result with
    | some e, _ => Escapes e
    | none, none => False
    | none, some r =>
      if r.head? = some 34 then (∃ is, stringToken r = some (is, [])) ∧
        r.length + (escape i).length + 29 < 8192
      else Escapes r

/-! ## Escaping -/

theorem hex_spec : ∀ n : Fin 32, codeUnit [48, 48, hexDigit (UInt8.ofNat n / 16),
    hexDigit (UInt8.ofNat n % 16)] = some n.1 ∧ (Item.code n).meaning = some [UInt8.ofNat n] := by
  decide

/-- Every escape is read as one item, which means the byte. -/
theorem scan_escapeByte (b : UInt8) :
    ∃ i : Item, i.meaning = some [b] ∧ ∀ rest,
    scan (escapeByte b ++ rest) = (scan rest).map (push i) := by
  rw [escapeByte]
  split_ifs with hquote hback hnl hcr htab hcontrol
  · exact ⟨.byte 34, by rw [hquote]; rfl, scan_short (by decide)⟩
  · exact ⟨.byte 92, by rw [hback]; rfl, scan_short (by decide)⟩
  · exact ⟨.byte 10, by rw [hnl]; rfl, scan_short (by decide)⟩
  · exact ⟨.byte 13, by rw [hcr]; rfl, scan_short (by decide)⟩
  · exact ⟨.byte 9, by rw [htab]; rfl, scan_short (by decide)⟩
  · have hlt : b.toNat < 32 := UInt8.lt_iff_toNat_lt.mp hcontrol
    obtain ⟨hcode, hmean⟩ := hex_spec ⟨b.toNat, hlt⟩
    rw [UInt8.ofNat_toNat] at hcode hmean
    exact ⟨.code b.toNat, hmean, scan_code hcode⟩
  · exact ⟨.byte b, rfl, scan_plain hquote (UInt8.not_lt.mp hcontrol) hback⟩

theorem scan_escape (s : List UInt8) :
    ∃ is, meaning is = some s ∧ ∀ rest, scan (escape s ++ 34 :: rest) = some (is, rest) := by
  induction s with
  | nil => exact ⟨[], rfl, scan_quote⟩
  | cons b s ih =>
    obtain ⟨is, hmean, hscan⟩ := ih
    obtain ⟨i, hi, hb⟩ := scan_escapeByte b
    refine ⟨i :: is, by rw [meaning, hi, hmean]; rfl, fun rest => ?_⟩
    rw [escape, flatMap_cons, append_assoc, hb]
    exact congrArg (Option.map (push i)) (hscan rest)

theorem length_escapeByte (b : UInt8) : (escapeByte b).length ≤ 6 := by
  rw [escapeByte]
  split_ifs <;> simp

/-- A prefix of the source is escaped, all of it if there is room before the last byte. -/
theorem escapeLoop_spec (cap : Nat) (s dst : List UInt8) (hdst : dst.length < cap) :
    ∃ t, escapeLoop cap s dst = dst ++ escape t ∧ (escapeLoop cap s dst).length < cap ∧ t <+: s ∧
      (t = s ↔ s = [] ∨ dst.length + (escape s.dropLast).length + 6 < cap) := by
  induction s generalizing dst with
  | nil => exact ⟨[], by simp [escapeLoop, escape], hdst, prefix_rfl, by simp⟩
  | cons b s ih =>
    rw [escapeLoop]
    split
    · next hroom =>
      have hb := length_escapeByte b
      obtain ⟨t, ht, hlen, hpre, hall⟩ := ih (dst ++ escapeByte b) (by rw [length_append]; omega)
      refine ⟨b :: t, by rw [ht, escape, escape, flatMap_cons, append_assoc], hlen,
        cons_prefix_cons.mpr ⟨rfl, hpre⟩, ?_⟩
      rw [cons_inj_right, hall, length_append]
      cases s with
      | nil => simpa [escape] using hroom
      | cons c s =>
        rw [dropLast_cons_cons, escape, escape, flatMap_cons, length_append]
        simp only [reduceCtorEq, false_or]
        omega
    · next hroom =>
      refine ⟨[], by simp [escape], hdst, nil_prefix, ?_⟩
      simp only [reduceCtorEq, false_or, false_iff]
      omega

theorem wsJsonEscape_spec (s dst : List UInt8) :
    ∃ t, wsJsonEscape (some s) dst = escape t ∧ (escape t).length < 2048 ∧ t <+: s ∧
    (t = s ↔ Escapes s) := by
  obtain ⟨t, ht, hlen, hpre, hall⟩ := escapeLoop_spec 2048 s [] (by decide)
  rw [nil_append] at ht
  refine ⟨t, ht, ht ▸ hlen, hpre, hall.trans ?_⟩
  rw [length_nil, Nat.zero_add, Escapes]
  refine ⟨?_, .inr⟩
  rintro (rfl | h)
  · decide
  · exact h

theorem Utf8.append {as bs : List UInt8} (ha : Utf8 as) (hb : Utf8 bs) : Utf8 (as ++ bs) := by
  obtain ⟨cs, rfl⟩ := ha
  obtain ⟨ds, rfl⟩ := hb
  exact ⟨cs ++ ds, flatMap_append⟩

theorem utf8_ascii {bs : List UInt8} (h : bs.all fun b => b.toNat < 128) : Utf8 bs := by
  have hbyte : ∀ n : Fin 128, String.utf8EncodeChar (Char.ofNat n) =
    [UInt8.ofNat n] := by decide +kernel
  refine ⟨bs.map fun b => Char.ofNat b.toNat, ?_⟩
  induction bs with
  | nil => rfl
  | cons b bs ih =>
    rw [all_cons, Bool.and_eq_true, decide_eq_true_eq] at h
    have hb := hbyte ⟨b.toNat, h.1⟩
    rw [UInt8.ofNat_toNat] at hb
    rw [map_cons, flatMap_cons, ih h.2, hb]
    rfl

theorem escape_high {bs : List UInt8} (h : ∀ b ∈ bs, 128 ≤ b.toNat) : escape bs = bs := by
  have hbyte : ∀ b ∈ bs, escapeByte b = [b] := by
    intro b hb
    have hb := h b hb
    have hlt : ¬ b < 32 := fun hc => absurd (UInt8.lt_iff_toNat_lt.mp hc) (by simp; omega)
    have hne : ∀ c : UInt8, c.toNat < 128 → b ≠ c := fun c hc he => by rw [he] at hb; omega
    simp only [escapeByte, hne 34 (by decide), hne 92 (by decide), hne 10 (by decide),
      hne 13 (by decide), hne 9 (by decide), hlt, if_false]
  rw [escape, flatMap_congr hbyte, flatMap_singleton']

/-- A character is one byte below 128, or its bytes are all from 128 on. -/
theorem utf8_escapeChar (c : Char) : Utf8 (escape (String.utf8EncodeChar c)) := by
  by_cases hc : c.val.toNat ≤ 127
  · have hascii : ∀ n : Fin 128, (escapeByte (UInt8.ofNat n)).all fun b =>
      b.toNat < 128 := by decide +kernel
    rw [String.utf8EncodeChar.eq_1, if_pos hc, escape, flatMap_singleton]
    exact utf8_ascii (hascii ⟨c.val.toNat, by omega⟩)
  · rw [escape_high]
    · exact ⟨[c], flatMap_singleton ..⟩
    · intro b hb
      rw [String.utf8EncodeChar.eq_1, if_neg hc] at hb
      split_ifs at hb <;> simp only [mem_cons, not_mem_nil, or_false] at hb <;>
        rcases hb with rfl | rfl | rfl | rfl <;> simp only [UInt8.toNat_ofNat'] <;> omega

theorem Utf8.escape {s : List UInt8} (h : Utf8 s) : Utf8 (escape s) := by
  obtain ⟨cs, rfl⟩ := h
  induction cs with
  | nil => exact ⟨[], rfl⟩
  | cons c cs ih =>
    rw [flatMap_cons, WebSocket.escape, flatMap_append]
    exact (utf8_escapeChar c).append ih

/-! ## The text of a reply -/

/-- The value of `result` or `error` as it is written. -/
def token (result error : Option (List UInt8)) : List UInt8 :=
  match error, result with
  | some e, _ => 34 :: (wsJsonEscape (some e) [] ++ [34])
  | none, none => 34 :: (bytes "null" ++ [34])
  | none, some r => if r.head? = some 34 then r else 34 :: (wsJsonEscape (some r) [] ++ [34])

def enclose (ok : Bool) (tok id : List UInt8) : List UInt8 :=
  bytes (if ok then "\x7b\"ok\":true,\"result\":" else "\x7b\"ok\":false,\"error\":") ++ tok
    ++ bytes ",\"id\":\"" ++ id ++ bytes "\"\x7d"

theorem responseText_eq (escB : List UInt8) (reqId result error : Option (List UInt8)) :
    responseText escB reqId result error
      = enclose error.isNone (token result error) (wsJsonEscape reqId escB) := by
  cases error with
  | some e => simp [responseText, token, enclose, bytes]; rfl
  | none =>
    cases result with
    | none => rfl
    | some r =>
      by_cases hr : r.head? = some 34 <;> simp [responseText, token, enclose, hr]

theorem length_enclose (ok : Bool) (tok id : List UInt8) :
    (enclose ok tok id).length = tok.length + id.length + 29 := by
  have hid : (bytes ",\"id\":\"").length = 7 ∧ (bytes "\"\x7d").length = 2 := by decide
  have hok : (bytes (if ok then "\x7b\"ok\":true,\"result\":"
      else "\x7b\"ok\":false,\"error\":")).length = 20 := by
    cases ok <;> decide
  simp only [enclose, length_append, hid, hok]
  omega

theorem object_enclose (ok : Bool) {tok id : List UInt8} {v : Value} {is : List Item}
    (htok : ∀ more, value (tok ++ more) = some (v, more))
    (hid : ∀ rest, scan (id ++ 34 :: rest) = some (is, rest)) :
    object (enclose ok tok id) = some [(key "ok", .bool ok),
      (key (if ok then "result" else "error"), v), (key "id", .string is)] := by
  have hbool : ∀ more, value (bytes (if ok then "true" else "false") ++ more) =
      some (.bool ok, more) := by
    cases ok <;> exact fun more => rfl
  have hfirst : ∀ more, stringToken (bytes "\"ok\"" ++ more) = some (key "ok", more) :=
    stringToken_append (by decide)
  have hsecond : ∀ more, stringToken (bytes (if ok then "\"result\"" else "\"error\"") ++ more)
      = some (key (if ok then "result" else "error"), more) :=
    stringToken_append (by cases ok <;> decide)
  have hthird : ∀ more, stringToken (bytes "\"id\"" ++ more) = some (key "id", more) :=
    stringToken_append (by decide)
  have hstring : ∀ more, value (34 :: (id ++ [34]) ++ more) = some (.string is, more) := by
    intro more
    apply value_string
    rw [stringToken, cons_append, expect_cons, bind_some, append_assoc]
    exact hid more
  have htext : enclose ok tok id = 123 :: (bytes "\"ok\"" ++ 58 ::
      (bytes (if ok then "true" else "false") ++ 44 ::
      (bytes (if ok then "\"result\"" else "\"error\"") ++ 58 :: (tok ++ 44 ::
      (bytes "\"id\"" ++ 58 :: (34 :: (id ++ [34]) ++ [125])))))) := by
    rw [enclose]
    cases ok <;> simp [bytes] <;> rfl
  rw [htext, object, expect_cons, bind_some]
  obtain ⟨n, hn⟩ : ∃ n, (bytes "\"ok\"" ++ 58 :: (bytes (if ok then "true" else "false") ++ 44 ::
      (bytes (if ok then "\"result\"" else "\"error\"") ++ 58 :: (tok ++ 44 ::
      (bytes "\"id\"" ++ 58 :: (34 :: (id ++ [34]) ++ [125])))))).length = n + 3 :=
    Nat.exists_eq_add_of_le' (by simp; omega)
  rw [hn, (members_cons _ hfirst hbool).1, (members_cons _ hsecond htok).1,
    (members_cons _ hthird hstring).2]
  rfl

/-! ## When a reply is safe -/

/-- The value is written out, apart from the length of the whole text. -/
def Written (result error : Option (List UInt8)) : Prop :=
  match error, result with
  | some e, _ => Escapes e
  | none, none => False
  | none, some r => r.head? = some 34 ∨ Escapes r

/-- A result that begins with a quote is a string literal. -/
def LiteralOk (result error : Option (List UInt8)) : Prop :=
  error = none → ∀ r ∈ result, r.head? = some 34 → ∃ is, stringToken r = some (is, [])

theorem quoted_value (s : List UInt8) :
    ∃ is, (∀ more, value (34 :: (wsJsonEscape (some s) [] ++ [34]) ++ more) =
      some (.string is, more)) ∧ (meaning is = some s ↔ Escapes s) := by
  obtain ⟨t, ht, -, -, hall⟩ := wsJsonEscape_spec s []
  obtain ⟨is, hmean, hscan⟩ := scan_escape t
  refine ⟨is, fun more => value_string ?_, ?_⟩
  · rw [stringToken, cons_append, expect_cons, bind_some, append_assoc, ht]
    exact hscan more
  · rw [hmean, some_inj, hall]

variable {result error : Option (List UInt8)}

theorem token_value (hlit : LiteralOk result error) :
    ∃ v, (∀ more, value (token result error ++ more) = some (v, more)) ∧
      (Stands result error v ↔ Written result error) := by
  have hstring : ∀ {is : List Item} {P : List Item → Prop},
      (∃ js, Value.string is = .string js ∧ P js) ↔ P is :=
    ⟨fun ⟨js, he, h⟩ => by cases he; exact h, fun h => ⟨_, rfl, h⟩⟩
  match error, result with
  | some e, _ =>
    obtain ⟨is, hvalue, hmean⟩ := quoted_value e
    exact ⟨.string is, hvalue, hstring.trans hmean⟩
  | none, none =>
    exact ⟨.string (key "null"), fun more => value_string
      (stringToken_append (by decide) more), by simp [Stands, Written]⟩
  | none, some r =>
    by_cases hr : r.head? = some 34
    · obtain ⟨is, his⟩ := hlit rfl r rfl hr
      refine ⟨.string is, fun more => ?_, hstring.trans ?_⟩
      · rw [token, if_pos hr]
        exact value_string (stringToken_append his more)
      · rw [if_pos hr]
        exact iff_of_true his (.inl hr)
    · obtain ⟨is, hvalue, hmean⟩ := quoted_value r
      refine ⟨.string is, fun more => ?_, hstring.trans ?_⟩
      · rw [token, if_neg hr]
        exact hvalue more
      · rw [if_neg hr, hmean]
        exact (or_iff_right hr).symm

theorem length_token
    (h : ∀ r ∈ result, error = none → r.head? ≠ some 34) : (token result error).length ≤ 2049 := by
  have hquoted : ∀ s, (34 :: (wsJsonEscape (some s) [] ++ [34]) : List UInt8).length ≤ 2049 := by
    intro s
    obtain ⟨t, ht, hlen, -, -⟩ := wsJsonEscape_spec s []
    rw [ht, length_cons, length_append, length_singleton]
    omega
  match error, result with
  | some e, _ => exact hquoted e
  | none, none => decide
  | none, some r =>
    rw [token, if_neg (h r rfl rfl)]
    exact hquoted r

theorem utf8_token (h : Written result error)
    (hutf : ∀ s, s ∈ result ∨ s ∈ error → Utf8 s) : Utf8 (token result error) := by
  have hquoted : ∀ s, Escapes s → Utf8 s → Utf8 (34 :: (wsJsonEscape (some s) [] ++ [34])) := by
    intro s hs hs8
    obtain ⟨t, ht, -, -, hall⟩ := wsJsonEscape_spec s []
    rw [ht, hall.mpr hs]
    have hmark : Utf8 [34] := utf8_ascii (by decide)
    exact hmark.append (hs8.escape.append hmark)
  match error, result with
  | some e, _ => exact hquoted e h (hutf e (.inr rfl))
  | none, none => exact h.elim
  | none, some r =>
    rw [token]
    split
    · exact hutf r (.inl rfl)
    · next hr => exact hquoted r (h.resolve_left hr) (hutf r (.inl rfl))

/-- A text below 8192 bytes is sent as it is; of a longer one the NUL is sent too. -/
theorem payload_eq {locals : Locals} {reqId result error : Option (List UInt8)}
    {header payload : List UInt8}
    (h : wsSendResponse .open locals reqId result error = some (header, payload)) :
    if (responseText locals.escB reqId result error).length < 8192 then
      payload = responseText locals.escB reqId result error
    else 0 ∈ payload := by
  set text := responseText locals.escB reqId result error with htext
  simp only [wsSendResponse, wsSendFrame, ne_eq, not_true_eq_false, if_false, some.injEq,
    Prod.mk.injEq] at h
  rw [← h.2, ← htext]
  split
  · next hlen =>
    rw [take_of_length_le (show text.length ≤ 8191 by omega), snprintfLen, if_pos (by omega),
      take_left]
  · next hlen =>
    have hmore : 8191 < snprintfLen text.length := by
      rw [snprintfLen]
      split <;> omega
    have hat : (text.take 8191 ++ 0 :: locals.behind)[8191]? = some 0 := by
      have htake : (text.take 8191).length = 8191 := length_take_of_le (by omega)
      rw [getElem?_append_right (Nat.le_of_eq htake), htake]
      rfl
    rw [← getElem?_take_of_lt hmore] at hat
    exact mem_of_getElem? hat

theorem answerable_iff {i : List UInt8} (hi : Escapes i) (result error : Option (List UInt8)) :
    Answerable (some i) result error ↔ Written result error ∧ LiteralOk result error ∧
      (token result error).length + (escape i).length + 29 < 8192 := by
  obtain ⟨t, -, hlen, -, hall⟩ := wsJsonEscape_spec i []
  rw [hall.mpr hi] at hlen
  simp only [Answerable, mem_def, some.injEq, exists_eq_left', hi, true_and]
  match error, result with
  | some e, result =>
    have htok : (token result (some e)).length ≤ 2049 := length_token nofun
    exact ⟨fun h => ⟨h, (nomatch ·), by omega⟩, And.left⟩
  | none, none => exact ⟨False.elim, And.left⟩
  | none, some r =>
    by_cases hr : r.head? = some 34
    · have htok : token (some r) none = r := by rw [token, if_pos hr]
      simp only [Written, LiteralOk, hr, htok, mem_def, some.injEq, forall_eq', true_or, true_and,
        if_true, forall_const]
    · have htok : (token (some r) none).length ≤ 2049 :=
        length_token fun q hq _ => by cases hq; exact hr
      simp only [Written, LiteralOk, hr, mem_def, some.injEq, forall_eq', false_or, if_false,
        false_imp_iff, true_and, forall_const]
      exact ⟨fun h => ⟨h, by omega⟩, And.left⟩

theorem response_safe_iff (reqId result error : Option (List UInt8))
    (hutf : ∀ s, s ∈ reqId ∨ s ∈ result ∨ s ∈ error → Utf8 s) :
    Safe reqId result error ↔ Answerable reqId result error := by
  constructor
  · intro hsafe
    obtain ⟨header, payload, hsend, -, -, v, is, hobj, hstands, hid⟩ := hsafe ⟨[1], []⟩
    have hprint := object_printable hobj
    have hpay := payload_eq hsend
    have hshort : (responseText [1] reqId result error).length < 8192 := by
      by_contra hlong
      rw [if_neg hlong] at hpay
      cases hprint 0 hpay
    rw [if_pos hshort, responseText_eq] at hpay
    rw [responseText_eq, length_enclose] at hshort
    have hlit : LiteralOk result error := by
      rintro rfl r hr hhead
      cases hr
      obtain ⟨js, -, hjs⟩ := hstands
      rw [if_pos hhead] at hjs
      exact ⟨js, hjs⟩
    obtain ⟨w, hvalue, hwritten⟩ := token_value hlit
    cases reqId with
    | none =>
      -- without an id the old string in the buffer is sent
      have hold : 1 ∈ payload := by
        rw [hpay]
        simp [enclose, wsJsonEscape]
      exact absurd (hprint 1 hold) (by decide)
    | some i =>
      obtain ⟨t, ht, -, -, hall⟩ := wsJsonEscape_spec i [1]
      obtain ⟨js, hmean, hscan⟩ := scan_escape t
      rw [ht] at hpay hshort
      rw [hpay, object_enclose error.isNone hvalue hscan] at hobj
      simp only [some.injEq, cons.injEq, Prod.mk.injEq, Value.string.injEq, true_and,
        and_true] at hobj
      obtain ⟨⟨-, rfl⟩, rfl⟩ := hobj
      have hti : t = i := some_inj.mp (hmean.symm.trans (hid i rfl))
      exact (answerable_iff (hall.mp hti) result error).mpr ⟨hwritten.mp hstands, hlit,
        hti ▸ hshort⟩
  · rintro ⟨i, hi, hesc, hrest⟩ locals
    cases hi
    obtain ⟨hwritten, hlit, hlen⟩ := (answerable_iff hesc result error).mp ⟨i, rfl, hesc, hrest⟩
    obtain ⟨v, hvalue, hstands⟩ := token_value hlit
    obtain ⟨t, ht, -, -, hall⟩ := wsJsonEscape_spec i locals.escB
    rw [hall.mpr hesc] at ht
    obtain ⟨is, hmean, hscan⟩ := scan_escape i
    obtain ⟨⟨header, payload⟩, hsend⟩ :
      ∃ r, wsSendResponse .open locals (some i) result error = some r := ⟨_, rfl⟩
    have htext := responseText_eq locals.escB (some i) result error
    rw [ht] at htext
    have hpay := payload_eq hsend
    rw [htext, length_enclose, if_pos hlen] at hpay
    refine ⟨header, payload, hsend, ?_, ?_, v, is, ?_, hstands.mpr hwritten,
      fun s hs => by cases hs; exact hmean⟩
    · rw [htext, hpay, length_enclose]
      omega
    · have hfixed : ∀ ok : Bool, Utf8 (bytes (if ok then "\x7b\"ok\":true,\"result\":"
          else "\x7b\"ok\":false,\"error\":")) :=
        fun ok => utf8_ascii (by cases ok <;> decide)
      have htok := utf8_token hwritten fun s hs => hutf s (.inr hs)
      rw [hpay, enclose]
      exact ((((hfixed _).append htok).append (utf8_ascii (by decide))).append
        (hutf i (.inl rfl)).escape).append (utf8_ascii (by decide))
    · rw [hpay, object_enclose error.isNone hvalue hscan]
      cases error <;> rfl

theorem response_safe_quote : Safe (some [55]) (some [97, 34]) none :=
  (response_safe_iff _ _ _ fun s hs => utf8_ascii (by
    simp only [mem_def, some.injEq, reduceCtorEq, or_false] at hs
    rcases hs with rfl | rfl <;> decide)).mpr ⟨[55], rfl, by decide, (by decide : Escapes [97, 34])⟩

/-- No result is sent as a string of four letters. -/
theorem null_is_string : ¬ Safe (some [55]) none none := by
  intro h
  obtain ⟨header, payload, hsend, -, -, v, is, hobj, hnull, -⟩ := h ⟨[], []⟩
  cases hsend
  cases (hnull : v = .null)
  have hsecond : _ = some Value.null :=
    congrArg (fun o => o.bind fun ms => ms[1]?.map Prod.snd) hobj
  exact absurd hsecond (by decide +kernel)

end NexCache.WebSocket
