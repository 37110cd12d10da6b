import Mathlib.Data.List.Infix
import NexCache.Network.Reply

/-!
# Protocol detection

`protocol_detect` of `protocol_detect.c` on the bytes that have arrived so far.  An answer is kept
when more bytes come, unless it was given too early: of a capital letter that becomes the name of a
method, or of a request whose headers are not all there (`detect_stable_iff`).
-/

namespace NexCache.Network

open List
open WebSocket (bytes)

inductive NexProtocol where
  | unknown
  | resp2
  | resp3
  | websocket
  | graphql
  | grpc
  | httpRest
  deriving DecidableEq

structure ProtoDetectResult where
  protocol : NexProtocol
  needMoreData : Bool
  isTls : Bool
  version : String

def startsWith (data : List UInt8) (text : String) : Bool := (bytes text).isPrefixOf data

def isUpper (b : UInt8) : Bool := 65 ≤ b && b ≤ 90

def lower (b : UInt8) : UInt8 := if isUpper b then b + 32 else b

def containsHeader (data : List UInt8) (header : String) : Bool :=
  decide ((bytes header).map lower <:+: data.map lower)

def methods : List String := ["GET ", "POST ", "PUT ", "DELETE ", "OPTIONS ", "HEAD "]

def isHttp (data : List UInt8) : Bool := methods.any (startsWith data)

def isGrpc (data : List UInt8) : Bool := startsWith data "PRI * HTTP/2.0"

/-- There is enough of an HTTP request to decide. -/
def enough (data : List UInt8) : Bool :=
  decide (bytes "\r\n\r\n" <:+: data) || decide (16 ≤ data.length)

def upgrades (data : List UInt8) : Bool :=
  ["upgrade: websocket", "upgrade:websocket"].any (containsHeader data)

def namesGraphql (data : List UInt8) : Bool :=
  ["/graphql", "graphql-ws", "graphql-transport-ws"].any (containsHeader data)

def found (protocol : NexProtocol) (version : String) : ProtoDetectResult × Int :=
  (⟨protocol, false, false, version⟩, 0)

def needMore (tls : Bool) : ProtoDetectResult × Int := (⟨.unknown, true, tls, ""⟩, 1)

/-- The branch of an HTTP request. -/
def detectHttp (data : List UInt8) : ProtoDetectResult × Int :=
  if !enough data then needMore false
  else if upgrades data then
    if namesGraphql data then found .graphql "graphql-ws" else found .websocket "RFC6455"
  else found .httpRest "HTTP/1.1"

/-- The branches behind it, by the first byte; a NUL is in neither text here. -/
def detectResp (b : UInt8) (len : Nat) : ProtoDetectResult × Int :=
  if b ∈ bytes "_,#!=>|~%" then found .resp3 "3"
  else if b ∈ bytes "*$+-:" then found .resp2 "2"
  else if isUpper b then found .resp2 "2-inline"
  else if len < 16 then needMore false
  else (⟨.unknown, false, false, ""⟩, -1)

def protocolDetect : List UInt8 → ProtoDetectResult × Int
  | [] => needMore false
  | b :: bs =>
    if b = 0x16 ∧ 3 ≤ (b :: bs).length then needMore true
    else if isGrpc (b :: bs) then found .grpc "HTTP/2"
    else if isHttp (b :: bs) then detectHttp (b :: bs)
    else detectResp b (b :: bs).length

/-- What `r` decides is decided by `r'` as well. -/
def Kept (r r' : ProtoDetectResult × Int) : Prop :=
  (r.2 = 0 → r'.2 = 0 ∧ r'.1.protocol = r.1.protocol) ∧ (r.2 = -1 → r'.2 = -1)

/-- What is decided of the first bytes is decided of all. -/
def Stable (p s : List UInt8) : Prop := Kept (protocolDetect p) (protocolDetect s)

/-- A capital letter that is not yet the beginning of a request. -/
def early (p : List UInt8) : Bool := p.head?.any isUpper && !isGrpc p && !isHttp p

variable {p s : List UInt8} {b : UInt8} {text : String}

theorem startsWith_iff : startsWith p text ↔ bytes text <+: p :=
  isPrefixOf_iff_prefix

theorem startsWith_mono (h : p <+: s) (hp : startsWith p text) :
    startsWith s text :=
  startsWith_iff.mpr ((startsWith_iff.mp hp).trans h)

theorem containsHeader_mono (h : p <+: s) {header : String} (hp : containsHeader p header) :
    containsHeader s header :=
  decide_eq_true ((of_decide_eq_true hp).trans (h.map lower).isInfix)

theorem any_mono {f g : String → Bool} (h : ∀ t, f t = true → g t = true) {l : List String}
    (hf : l.any f = true) : l.any g = true := by
  obtain ⟨t, ht, hft⟩ := any_eq_true.mp hf
  exact any_eq_true.mpr ⟨t, ht, h t hft⟩

theorem enough_mono (h : p <+: s) (hp : enough p) : enough s := by
  have hlen := h.length_le
  simp only [enough, Bool.or_eq_true, decide_eq_true_eq] at hp ⊢
  exact hp.imp (fun hp => hp.trans h.isInfix) fun hp => hp.trans hlen

/-- No request begins like the preface of HTTP/2. -/
theorem not_isGrpc (h : isHttp s) : isGrpc s = false := by
  have happart : ∀ m ∈ methods,
      ¬(bytes m <+: bytes "PRI * HTTP/2.0" ∨ bytes "PRI * HTTP/2.0" <+: bytes m) := by
    decide +kernel
  obtain ⟨m, hm, hs⟩ := any_eq_true.mp h
  refine Bool.eq_false_iff.mpr fun hg => happart m hm ?_
  exact prefix_or_prefix_of_prefix (startsWith_iff.mp hs) (startsWith_iff.mp hg)

/-- Requests begin with a capital letter. -/
theorem upper_of_request {bs : List UInt8} (h : isGrpc (b :: bs) ∨ isHttp (b :: bs)) :
    isUpper b := by
  have hupper : ∀ m ∈ "PRI * HTTP/2.0" :: methods, (bytes m).head?.any isUpper := by decide +kernel
  obtain ⟨m, hm, hs⟩ : ∃ m ∈ "PRI * HTTP/2.0" :: methods, startsWith (b :: bs) m := by
    rcases h with h | h
    · exact ⟨_, mem_cons_self, h⟩
    · obtain ⟨m, hm, hs⟩ := any_eq_true.mp h
      exact ⟨m, mem_cons_of_mem _ hm, hs⟩
  have hhead := hupper m hm
  obtain ⟨rest, hrest⟩ := startsWith_iff.mp hs
  cases hm' : bytes m with
  | nil => simp [hm'] at hhead
  | cons c cs =>
    rw [hm', cons_append] at hrest
    rw [hm', (cons.inj hrest).1] at hhead
    exact hhead

theorem detectResp_upper (hb : isUpper b) (len : Nat) :
    detectResp b len = found .resp2 "2-inline" := by
  have hnot : ∀ c ∈ bytes "_,#!=>|~%" ++ bytes "*$+-:", isUpper c = false := by decide +kernel
  rw [detectResp, if_neg fun h => absurd hb (by simp [hnot b (mem_append_left _ h)]),
    if_neg fun h => absurd hb (by simp [hnot b (mem_append_right _ h)]), if_pos hb]

/-- An answer by the first byte is kept. -/
theorem detect_other (hb : isUpper b = false) {p s : List UInt8}
    (h : p.length ≤ s.length) (hone : (protocolDetect (b :: p)).2 ≠ 1) :
    protocolDetect (b :: s) = protocolDetect (b :: p) := by
  have hnot : ∀ bs, isGrpc (b :: bs) = false ∧ isHttp (b :: bs) = false := fun bs =>
    ⟨Bool.eq_false_iff.mpr fun hg => by simp [upper_of_request (.inl hg)] at hb,
      Bool.eq_false_iff.mpr fun hh => by simp [upper_of_request (.inr hh)] at hb⟩
  have h22 : ∀ len < 16, (detectResp 0x16 len).2 = 1 := by
    intro len hlen
    rw [detectResp, if_neg (by decide +kernel), if_neg (by decide +kernel), if_neg (by decide),
      if_pos hlen]
    rfl
  simp only [protocolDetect, hnot, length_cons, Bool.false_eq_true, if_false] at hone ⊢
  by_cases hb : b = 0x16
  · subst hb
    refine absurd ?_ hone
    split_ifs with h3
    · rfl
    · exact h22 _ (by simp at h3; omega)
  · simp only [hb, false_and, if_false, detectResp] at hone ⊢
    split_ifs at hone ⊢ <;> first | rfl | exact absurd rfl hone | omega

/-- An answer about a request is kept if the headers that matter were there. -/
theorem detectHttp_stable (h : p <+: s) : Kept (detectHttp p) (detectHttp s) ↔
    (enough p → (upgrades s → upgrades p) ∧ (upgrades p → namesGraphql s → namesGraphql p)) := by
  rw [Kept, detectHttp, detectHttp]
  cases he : enough p with
  | false => simp [needMore]
  | true =>
    rw [enough_mono h he]
    have hup : upgrades p → upgrades s := any_mono fun _ => containsHeader_mono h
    have hgraph : namesGraphql p → namesGraphql s := any_mono fun _ => containsHeader_mono h
    cases hp : upgrades p <;> cases hs : upgrades s <;> cases hp' : namesGraphql p <;>
      cases hs' : namesGraphql s <;> simp_all [found]

theorem detectHttp_ne_resp2 (data : List UInt8) : (detectHttp data).1.protocol ≠ .resp2 := by
  rw [detectHttp]
  split_ifs <;> exact NexProtocol.noConfusion

/-- **When an answer is kept.** -/
theorem detect_stable_iff (p s : List UInt8) (h : p <+: s) :
    Stable p s ↔ (early p → isGrpc s = false ∧ isHttp s = false) ∧
      (isHttp p → enough p → (upgrades s → upgrades p) ∧
      (upgrades p → namesGraphql s → namesGraphql p)) := by
  cases p with
  | nil =>
    have hempty : isHttp [] = false := by decide +kernel
    simp [Stable, Kept, early, protocolDetect, needMore, hempty]
  | cons b p =>
    obtain ⟨t, rfl⟩ := h
    have h : b :: p <+: b :: (p ++ t) := prefix_append _ _
    have hgrpc : isGrpc (b :: p) → isGrpc (b :: (p ++ t)) := startsWith_mono h
    have hhttp : isHttp (b :: p) → isHttp (b :: (p ++ t)) := any_mono fun _ => startsWith_mono h
    rw [cons_append, Stable]
    cases hup : isUpper b with
    | true =>
      have hne : b ≠ 0x16 := by
        rintro rfl
        cases hup
      simp only [protocolDetect, hne, false_and, if_false, detectResp_upper hup]
      cases hp : isGrpc (b :: p) with
      | true =>
        have hnot : isHttp (b :: p) ≠ true := fun hh => by simp [not_isGrpc hh] at hp
        simp [hgrpc hp, early, hp, hnot, Kept]
      | false =>
        cases hq : isHttp (b :: p) with
        | true =>
          have hs := hhttp hq
          simp only [hs, not_isGrpc hs, early, hq]
          simpa using detectHttp_stable h
        | false =>
          have hearly : early (b :: p) := by simp [early, hup, hp, hq]
          cases hg : isGrpc (b :: (p ++ t)) <;> cases hh : isHttp (b :: (p ++ t)) <;>
            simp [hearly, found, detectHttp_ne_resp2, Kept]
    | false =>
      have hnot : isHttp (b :: p) = false := Bool.eq_false_iff.mpr fun hh => by
        simp [upper_of_request (.inr hh)] at hup
      refine iff_of_true ?_ ⟨by simp [early, hup], by simp [hnot]⟩
      by_cases hone : (protocolDetect (b :: p)).2 = 1
      · simp [Kept, hone]
      · rw [detect_other hup (s := p ++ t) (by simp) hone]
        exact ⟨fun h => ⟨h, rfl⟩, id⟩

/-- The headers are there. -/
theorem detect_stable_iff_request :
    Stable (bytes "GET / HTTP/1.1\r\n\r\n") (bytes "GET / HTTP/1.1\r\n\r\nX") :=
  (detect_stable_iff _ _ (by decide +kernel)).mpr (by decide +kernel)

/-- `G` is taken for a command, and with the rest of the request for HTTP. -/
theorem get_changes_mind :
    ((protocolDetect (bytes "G")).2, (protocolDetect (bytes "G")).1.protocol,
      (protocolDetect (bytes "GET / HTTP/1.1\r\n\r\n")).1.protocol) = (0, .resp2, .httpRest) := by
  decide +kernel

end NexCache.Network
