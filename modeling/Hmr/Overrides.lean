import Hmr.Fields
import Hmr.RequestLine

/-!
# The request-URI on its way out

A written request-URI is not in the start line: it is kept beside it, and `serialize`
splices it in, at the distance that the two views of the packet have. What comes out is a
start line again, and should be read as one: the same method, and the override where the
request-URI was.

For that the override must not fall apart. It has no blank in it and none at its ends,
because the request-URI had none and no field that is written has any; and where a field
at the very end becomes empty, the `@` or the colon in front of it is the end
(`OnLine.exchange`).

## Messages that are worked on

A message is parsed, and then headers and fields are written in any order. What the
operations on headers do to the start line is nothing (`HmrSipMsg.OnlyHeaders`), so the
fields, the headers and the start line can be told apart, and each operation is shown to
keep what the others are about. The start line is kept as a view of the packet, and the
override as one of the arena that is fit to stand in it (`HmrSipMsg.UriOk`).

## Where lengths are too large

All of this is for messages below `2 ^ 32` bytes, with the texts that are made of them.
The distance of the two views is a 32-bit number, so for a longer start line the
request-URI would be looked for in another place.
-/

namespace Hmr

/-- An operation on a message: a write to its headers, or to a field. -/
inductive MessageOp
  | header (op : HeaderOp)
  | field (code : Nat) (value : StringView)

namespace MessageOp

/-- What it does to the message and its arena, and what it returns. -/
def run (op : MessageOp) (s : HmrSipMsg × HmrArena) : Bool × HmrSipMsg × HmrArena :=
  match op with
  | .header op => op.run s
  | .field code value => s.1.setField s.2 code value

/-- The message and the arena after a history of operations. -/
def runAll (ops : List MessageOp) (s : HmrSipMsg × HmrArena) : HmrSipMsg × HmrArena :=
  ops.foldl (fun s op => (op.run s).2) s

/-- **The fields were written with field texts**, and the values rebuilt were shorter than
`2 ^ 32` bytes. -/
def Regular : List MessageOp → HmrSipMsg × HmrArena → Prop
  | [], _ => True
  | op :: ops, s =>
    (∀ code v, op = .field code v → HmrSipMsg.IsFieldText v.text
        ∧ ∀ f, HmrField.ofCode code = some f → (s.1.rebuiltText f v.text).length < 2 ^ 32)
      ∧ Regular ops (op.run s).2

end MessageOp

namespace HmrSipMsg

/-! ## What the operations leave alone -/

/-- Only the header table is another. -/
def OnlyHeaders (m m' : HmrSipMsg) : Prop :=
  ∃ hs hle, m' = { m with headers := hs, headers_le := hle }

/-- A header that is appended is one in the table. -/
theorem onlyHeaders_push {m m' : HmrSipMsg} {h : Header} (hm : m.push h = some m') :
    OnlyHeaders m m' := by
  obtain ⟨hle, rfl⟩ := eq_of_push hm
  exact ⟨_, hle, rfl⟩

/-- Nothing has been done. -/
theorem OnlyHeaders.refl (m : HmrSipMsg) : OnlyHeaders m m := ⟨m.headers, m.headers_le, rfl⟩

/-- Adding a header. -/
theorem onlyHeaders_addHeader (m : HmrSipMsg) (a : HmrArena) (name value : HmrStr) :
    OnlyHeaders m (m.addHeader a name.sv value.sv).2.1 := by
  obtain ⟨-, heq⟩ | ⟨-, -, heq⟩ | ⟨dn, a₁, -, -, -, heq⟩ |
      ⟨dn, a₁, dv, a₂, m', -, -, -, hm', heq⟩ := m.addHeader_cases a name value
  · rw [heq]
    exact OnlyHeaders.refl m
  · rw [heq]
    exact OnlyHeaders.refl m
  · rw [heq]
    exact OnlyHeaders.refl m
  · rw [heq]
    exact onlyHeaders_push hm'

/-- **A write to the headers is that only.** -/
theorem onlyHeaders_run (op : HeaderOp) (m : HmrSipMsg) (a : HmrArena) :
    OnlyHeaders m (op.run (m, a)).2.1 := by
  cases op with
  | set name value =>
    show OnlyHeaders m (m.setHeader a name.sv value.sv).2.1
    obtain ⟨-, heq⟩ | ⟨dv, a₁, i, -, -, heq⟩ | ⟨dv, a₁, -, -, heq⟩ := m.setHeader_cases a name value
    · rw [heq]
      exact OnlyHeaders.refl m
    · rw [heq]
      exact ⟨_, _, rfl⟩
    · rw [heq]
      exact m.onlyHeaders_addHeader a₁ name value
  | add name value => exact m.onlyHeaders_addHeader a name value
  | delete name => exact ⟨_, _, rfl⟩

/-- **The start line is the same**, and so is the request-URI. -/
theorem OnlyHeaders.sameLine {m m' : HmrSipMsg} (h : OnlyHeaders m m') :
    SameLine m m' ∧ m'.currentRequestUri = m.currentRequestUri := by
  obtain ⟨hs, hle, rfl⟩ := h
  exact ⟨⟨rfl, rfl, rfl, rfl⟩, rfl⟩

variable {m : HmrSipMsg} {a a' : HmrArena} {f : HmrField} {v : StringView}

/-- A field is written into a header, or beside the start line. -/
theorem sameLine_putValue (m : HmrSipMsg) (f : HmrField) (value : HmrStr) :
    SameLine m (m.putValue f value) := by
  cases hh : (fieldRef f).header with
  | none =>
    rw [putValue_eq_override hh]
    exact ⟨rfl, rfl, rfl, rfl⟩
  | some name =>
    cases hi : m.find name with
    | none =>
      rw [putValue_eq_self hh hi]
      exact SameLine.refl m
    | some i =>
      rw [putValue_eq_setValue hh hi]
      exact ⟨rfl, rfl, rfl, rfl⟩

/-- **No operation changes what was read off the first line.** -/
theorem sameLine_runAll (ops : List MessageOp) (s : HmrSipMsg × HmrArena) :
    SameLine s.1 (MessageOp.runAll ops s).1 := by
  induction ops generalizing s with
  | nil => exact SameLine.refl s.1
  | cons op ops ih =>
    refine SameLine.trans ?_ (ih (op.run s).2)
    cases op with
    | header op => exact (onlyHeaders_run op s.1 s.2).sameLine.1
    | field field v =>
      show SameLine s.1 (s.1.setField s.2 field v).2.1
      obtain ⟨-, hsame⟩ | ⟨f, rebuilt, a', -, -, -, -, heq⟩ := s.1.setField_cases s.2 field v
      · rw [hsame]
        exact SameLine.refl s.1
      · rw [heq]
        exact s.1.sameLine_putValue f rebuilt

/-! ## The override -/

/-- A request-URI that can stand in a start line. -/
structure UriOk (uri : HmrStr) : Prop where
  scheme : HasScheme uri
  onLine : OnLine uri.text
  no_sp : sp ∉ uri.text

/-- It is not empty. -/
theorem UriOk.ne_nil {uri : HmrStr} (h : UriOk uri) : uri.text ≠ [] := by
  intro hnil
  refine h.scheme ?_
  obtain ⟨r, o, hsv⟩ := sv_eq uri
  rw [hsv, hnil]
  rfl

section
variable {s : Uri.Shape} {c nv : Bytes} (hc : s.scheme = some c) (hline : OnLine s.text)
  (hsp : sp ∉ s.text) (hnv : ∀ c ∈ nv, isBlankOrCr c = false ∧ c ≠ sp ∧ c ≠ lf)
include hc hline hsp hnv

/-- Behind the scheme there is a colon. -/
theorem onLine_setUser : OnLine ({ s with user := some nv } : Uri.Shape).text
    ∧ sp ∉ ({ s with user := some nv } : Uri.Shape).text := by
  have hold : s.text = (s.leadText ++ s.schemeText) ++ s.userText ++ (s.hostport ++ s.close) := by
    simp [Uri.Shape.text, Uri.Shape.address, Uri.Shape.rest]
  have hnew : ({ s with user := some nv } : Uri.Shape).text
      = (s.leadText ++ s.schemeText) ++ (nv ++ [64]) ++ (s.hostport ++ s.close) := by
    simp [Uri.Shape.text, Uri.Shape.address, Uri.Shape.rest, Uri.Shape.leadText,
      Uri.Shape.schemeText, Uri.Shape.userText, Uri.Shape.hostport, Uri.Shape.portText]
  have hlast : (s.leadText ++ s.schemeText).getLast? = some colon := by
    rw [Uri.Shape.schemeText, hc, Option.elim_some, ← List.append_assoc]
    exact List.getLast?_concat
  have hbytes : ∀ c ∈ nv ++ [64], isBlankOrCr c = false ∧ c ≠ lf := by
    rw [List.forall_mem_append, List.forall_mem_singleton]
    exact ⟨fun c hc => ⟨(hnv c hc).1, (hnv c hc).2.2⟩, rfl, by decide⟩
  rw [hold] at hline hsp
  rw [hnew]
  refine ⟨hline.exchange hlast rfl hbytes, ?_⟩
  simp only [List.mem_append, not_or] at hsp ⊢
  exact ⟨⟨hsp.1.1, fun hm => (hnv sp hm).2.1 rfl, by decide⟩, hsp.2⟩

/-- Behind the user there is an `@`. -/
theorem onLine_setHost : OnLine ({ s with host := nv } : Uri.Shape).text
    ∧ sp ∉ ({ s with host := nv } : Uri.Shape).text := by
  have hold : s.text = (s.leadText ++ s.schemeText ++ s.userText) ++ s.host
      ++ (s.portText ++ s.tail ++ s.close) := by
    simp [Uri.Shape.text, Uri.Shape.address, Uri.Shape.rest, Uri.Shape.hostport]
  have hnew : ({ s with host := nv } : Uri.Shape).text
      = (s.leadText ++ s.schemeText ++ s.userText) ++ nv ++ (s.portText ++ s.tail ++ s.close) := by
    simp [Uri.Shape.text, Uri.Shape.address, Uri.Shape.rest, Uri.Shape.leadText,
      Uri.Shape.schemeText, Uri.Shape.userText, Uri.Shape.hostport, Uri.Shape.portText]
  obtain ⟨e, hlast, he⟩ : ∃ e, (s.leadText ++ s.schemeText ++ s.userText).getLast? = some e
      ∧ isBlankOrCr e = false := by
    cases hu : s.user with
    | none =>
      refine ⟨colon, ?_, rfl⟩
      rw [Uri.Shape.userText, hu, Option.elim_none, List.append_nil, Uri.Shape.schemeText, hc,
        Option.elim_some, ← List.append_assoc]
      exact List.getLast?_concat
    | some u =>
      refine ⟨64, ?_, rfl⟩
      rw [Uri.Shape.userText, hu, Option.elim_some, ← List.append_assoc]
      exact List.getLast?_concat
  rw [hold] at hline hsp
  rw [hnew]
  refine ⟨hline.exchange hlast he fun c hc => ⟨(hnv c hc).1, (hnv c hc).2.2⟩, ?_⟩
  simp only [List.mem_append, not_or] at hsp ⊢
  exact ⟨⟨hsp.1.1, fun hm => (hnv sp hm).2.1 rfl⟩, hsp.2⟩

end

/-- **A rebuilt request-URI can stand there too.** -/
theorem UriOk.rebuilt {value rebuilt : HmrStr} (h : UriOk value)
    (hvalue : m.fieldValue f = value) (hv : IsFieldText v.text)
    (hfits : (m.rebuiltText f v.text).length < 2 ^ 32)
    (hr : Uri.rebuildUri a (m.fieldValue f).sv (fieldRef f).element v = (rebuilt, a'))
    (hnull : rebuilt.data ≠ .null) : UriOk rebuilt := by
  have hscheme := (putGet_setField hv (hvalue ▸ h.scheme) hfits hr hnull).scheme
  have hbytes : ∀ c ∈ v.text, isBlankOrCr c = false ∧ c ≠ sp ∧ c ≠ lf := by
    intro c hc
    obtain ⟨hplain, hcr, hlf⟩ := hv c hc
    simp only [Uri.isPlain, isBlank, Bool.and_eq_true, Bool.not_eq_true', Bool.or_eq_false_iff,
      beq_eq_false_iff_ne] at hplain
    refine ⟨?_, hplain.2.1, hlf⟩
    simp [isBlankOrCr, hplain.2.1, hplain.2.2, hcr]
  have htext : rebuilt.text = m.rebuiltText f v.text := by
    have hgiven : (Uri.rebuildUri a (m.fieldValue f).sv (fieldRef f).element v).1.data ≠ .null := by
      rwa [hr]
    have hrebuilt := Uri.rebuildUri_text hgiven
    rw [hr] at hrebuilt
    rw [hrebuilt]
    exact clip_of_lt hfits
  have hmade : OnLine (m.rebuiltText f v.text) ∧ sp ∉ m.rebuiltText f v.text := by
    obtain ⟨r, o, hsv⟩ := sv_eq value
    obtain ⟨s, hs, hst⟩ := Uri.Shape.exists_shape value.text
    obtain ⟨c, hc⟩ : ∃ c, s.scheme = some c := by
      have hdata := h.scheme
      unfold HasScheme at hdata
      rw [hsv, ← hst, Uri.Shape.parseUri_shape hs] at hdata
      cases hsc : s.scheme with
      | some c => exact ⟨c, rfl⟩
      | none =>
        refine absurd ?_ hdata
        show (Uri.Shape.view _ s.scheme).data = _
        rw [hsc]
        rfl
    have hline := h.onLine
    have hsp := h.no_sp
    rw [← hst] at hline hsp
    unfold rebuiltText
    rw [hvalue, hsv, ← hst]
    -- A user has its `@` behind it, and an empty host the delimiter in front of it; so the
    -- text keeps its ends.
    obtain helement | helement := element_fieldRef f
    · rw [helement, Uri.Shape.spliced_user hs]
      exact onLine_setUser hc hline hsp hbytes
    · rw [helement, Uri.Shape.spliced_host hs]
      exact onLine_setHost hc hline hsp hbytes
  refine ⟨?_, htext ▸ hmade.1, htext ▸ hmade.2⟩
  intro hnone
  have hold := h.scheme
  unfold HasScheme at hold
  rw [Uri.shown, if_pos hnone, Uri.shown, hvalue, if_neg hold] at hscheme
  cases hscheme

/-- **One operation keeps the request-URI fit for the start line**, if what is written to its
fields is. -/
theorem uriOk_run {op : MessageOp} {s : HmrSipMsg × HmrArena}
    (hregular : ∀ code v, op = .field code v → IsFieldText v.text
      ∧ ∀ f, HmrField.ofCode code = some f → (s.1.rebuiltText f v.text).length < 2 ^ 32)
    (h : UriOk s.1.currentRequestUri) : UriOk (op.run s).2.1.currentRequestUri := by
  cases op with
  | header op =>
    have hsame := (onlyHeaders_run op s.1 s.2).sameLine.2
    show UriOk (op.run (s.1, s.2)).2.1.currentRequestUri
    rw [hsame]
    exact h
  | field code v =>
    obtain ⟨hv, hfits⟩ := hregular code v rfl
    show UriOk (s.1.setField s.2 code v).2.1.currentRequestUri
    obtain ⟨-, hsame⟩ | ⟨f, rebuilt, a', hf, -, hr, hnull, heq⟩ := s.1.setField_cases s.2 code v
    · rw [hsame]
      exact h
    · rw [heq]
      cases hh : (fieldRef f).header with
      | none =>
        have hput : (s.1.putValue f rebuilt).currentRequestUri = rebuilt := by
          rw [putValue_eq_override hh]
          exact if_pos (by simpa [HmrStr.present] using hnull)
        rw [hput]
        exact h.rebuilt (fieldValue_eq_uri hh) hv (hfits f hf) hr hnull
      | some name =>
        have hput : (s.1.putValue f rebuilt).currentRequestUri = s.1.currentRequestUri := by
          cases hi : s.1.find name with
          | none => rw [putValue_eq_self hh hi]
          | some i =>
            rw [putValue_eq_setValue hh hi]
            rfl
        rw [hput]
        exact h

/-- And so does a history of them. -/
theorem uriOk_runAll {ops : List MessageOp} {s : HmrSipMsg × HmrArena}
    (hregular : MessageOp.Regular ops s) (h : UriOk s.1.currentRequestUri) :
    UriOk (MessageOp.runAll ops s).1.currentRequestUri := by
  induction ops generalizing s with
  | nil => exact h
  | cons op ops ih => exact ih hregular.2 (uriOk_run hregular.1 h)

/-! ## The start line that is put out -/

/-- **The request line of a packet**, and where `parse` found its pieces. -/
theorem exists_line {raw : Bytes} (hreq : (parse raw).isRequest = true)
    (hscheme : HasScheme (parse raw).requestUri) :
    ∃ (l : RequestLine) (o : Nat), l.Wf ∧ l.text = startOf raw
      ∧ (txt "SIP/").isPrefixOf l.text = false
      ∧ (parse raw).startLine = .of ⟨.addr .raw o, l.text⟩
      ∧ (parse raw).method = .of ⟨.addr .raw o, l.method⟩
      ∧ (parse raw).requestUri = .of ⟨.addr .raw (o + l.front.length), l.uri⟩ := by
  have hne : (parse raw).requestUri.text ≠ [] := by
    intro hnil
    refine hscheme ?_
    obtain ⟨r, o, hsv⟩ := sv_eq (parse raw).requestUri
    rw [hsv, hnil]
    rfl
  obtain hsame | ⟨o, hsame⟩ := sameLine_parse raw
  · rw [hsame.requestUri] at hne
    exact absurd rfl hne
  · obtain ⟨hstart, hmethod, huri, hrequest⟩ := hsame
    unfold parseFirst at hstart hmethod huri hrequest
    dsimp only at hstart hmethod huri hrequest
    cases hsip : (txt "SIP/").isPrefixOf (startOf raw) with
    | true =>
      rw [if_pos hsip, hreq] at hrequest
      unfold parseStatusLine at hrequest
      split at hrequest <;> cases hrequest
    | false =>
      rw [if_neg (by rw [hsip]; exact Bool.false_ne_true)] at hstart hmethod huri
      obtain ⟨l, hl, htext⟩ := RequestLine.exists_requestLine rfl (huri ▸ hne)
      dsimp only at htext
      rw [← htext, RequestLine.parseRequestLine_eq hl] at hstart hmethod huri
      exact ⟨l, o, hl, htext, htext ▸ hsip, hstart, hmethod, huri⟩

variable {raw : Bytes} {l : RequestLine} {o : Nat}

/-- The override is put where the request-URI was. -/
theorem firstLine_flatten (hreq : m.isRequest = true)
    (hstart : m.startLine.text = l.text) (hdata : m.startLine.data = .addr .raw o)
    (huri : m.requestUri.text = l.uri)
    (huridata : m.requestUri.data = .addr .raw (o + l.front.length)) :
    m.firstLine.flatten = ({ l with uri := m.currentRequestUri.text } : RequestLine).text := by
  have hpresent : m.requestUri.present = true := by
    rw [HmrStr.present, huridata]
    rfl
  have htake : l.text.take l.front.length = l.front := by
    rw [RequestLine.text_eq, List.append_assoc, List.take_left]
  have hdrop : l.text.drop (l.front.length + l.uri.length) = l.back := by
    rw [RequestLine.text_eq]
    exact List.drop_left' List.length_append
  rw [RequestLine.text_eq]
  unfold firstLine currentRequestUri
  rw [hreq, hpresent, Bool.true_and, Bool.and_true]
  cases hmod : m.modRequestUri.present with
  | false =>
    rw [if_neg Bool.false_ne_true, if_neg Bool.false_ne_true, List.flatten_singleton, hstart, huri,
      RequestLine.text_eq]
  | true =>
    rw [if_pos rfl, if_pos rfl]
    dsimp only
    rw [hdata, huridata, hstart, huri]
    have hoff : (Ptr.addr .raw (o + l.front.length)).sub (.addr .raw o) = l.front.length :=
      Nat.add_sub_cancel_left o _
    rw [hoff, htake, hdrop]
    simp [RequestLine.front, RequestLine.back]

/-- **The start line of a message that was parsed and changed**: the original one, with exactly
the request-URI exchanged for the override. -/
structure Splices (raw : Bytes) (m : HmrSipMsg) (out : Bytes) : Prop where
  intro ::
  exists_split : ∃ front back,
    startOf raw = front ++ (parse raw).requestUri.text ++ back
      ∧ (parse raw).requestUri.data = (parse raw).startLine.data.add front.length
      ∧ out = front ++ m.currentRequestUri.text ++ back ++ crlf
          ++ (m.live.flatMap renderHeader ++ crlf ++ m.body.text)

/-- **It is read back as that**: the same method, and the override as the request-URI. -/
structure ReadsBack (raw : Bytes) (m : HmrSipMsg) (out : Bytes) : Prop where
  isRequest : (parse out).isRequest = true
  method : (parse out).method.text = (parse raw).method.text
  requestUri : (parse out).requestUri.text = m.currentRequestUri.text

/-- The request-URI of a request is fit for its start line. -/
theorem uriOk_parse (hlen : (startOf raw).length < 2 ^ 32) (hreq : (parse raw).isRequest = true)
    (hscheme : HasScheme (parse raw).requestUri) : UriOk (parse raw).currentRequestUri := by
  obtain ⟨l, o, hl, htext, -, -, -, huri⟩ := exists_line hreq hscheme
  have hpart : l.uri <:+: startOf raw := by
    rw [← htext, RequestLine.text_eq]
    exact ⟨l.front, l.back, rfl⟩
  have hcurrent : (parse raw).currentRequestUri = (parse raw).requestUri := by
    unfold currentRequestUri
    rw [modRequestUri_parse]
    rfl
  have hclip : (parse raw).requestUri.text = l.uri := by
    rw [huri]
    exact clip_of_lt (lt_of_le_of_lt hpart.length_le hlen)
  rw [hcurrent]
  refine ⟨hscheme, ?_, ?_⟩
  · rw [hclip]
    exact ⟨hl.uri.1, fun hm => (onLine_startOf raw).no_lf (hpart.subset hm)⟩
  · rw [hclip]
    exact hl.uri.2.2

/-- **`serialize` splices the override into the start line**, and if it is fit for that it is
read back. -/
theorem splices_serialize {b : HmrArena} (hlen : (startOf raw).length < 2 ^ 32)
    (hreq : (parse raw).isRequest = true) (hscheme : HasScheme (parse raw).requestUri)
    (hsame : SameLine (parse raw) m) (hout : (m.serialize b).1.present = true) :
    Splices raw m (m.serialize b).1.text
      ∧ (UriOk m.currentRequestUri → ReadsBack raw m (m.serialize b).1.text) := by
  obtain ⟨l, o, hl, htext, hsip, hstart, hmethod, huri⟩ := exists_line hreq hscheme
  have hparts : l.method.length < 2 ^ 32 ∧ l.uri.length < 2 ^ 32 := by
    rw [← htext, RequestLine.text] at hlen
    simp only [List.length_append, List.length_cons] at hlen
    omega
  have horiginal : (parse raw).requestUri.text = l.uri := by
    rw [huri]
    exact clip_of_lt hparts.2
  -- The line that is put out is the old one around the override.
  have hflatten := firstLine_flatten (hsame.isRequest.trans hreq)
    ((congrArg HmrStr.text (hsame.startLine.trans hstart)).trans (clip_of_lt (htext ▸ hlen)))
    (congrArg HmrStr.data (hsame.startLine.trans hstart))
    ((congrArg HmrStr.text hsame.requestUri).trans horiginal)
    (congrArg HmrStr.data (hsame.requestUri.trans huri))
  have hrendered : (m.serialize b).1.text
      = ({ l with uri := m.currentRequestUri.text } : RequestLine).text ++ crlf
        ++ (m.live.flatMap renderHeader ++ crlf ++ m.body.text) := by
    rw [(text_of_serialize hout).1, rendered_eq, hflatten]
    simp only [List.append_assoc]
  rw [hrendered]
  constructor
  · refine ⟨l.front, l.back, ?_, ?_, ?_⟩
    · rw [horiginal, ← htext, RequestLine.text_eq]
    · rw [huri, hstart]
      rfl
    · rw [RequestLine.text_eq]
      rfl
  · intro hok
    obtain ⟨hwf, hline⟩ := RequestLine.exchange hl (htext ▸ onLine_startOf raw) hok.onLine
      hok.ne_nil hok.no_sp
    obtain ⟨hrequest, hmethod', huri'⟩ := parse_requestLine hwf hline
      ((l.isPrefixOf_text _).trans hsip) (m.live.flatMap renderHeader ++ crlf ++ m.body.text)
    refine ⟨hrequest, hmethod'.trans ?_, huri'.trans ?_⟩
    · rw [hmethod]
      rfl
    · exact m.currentRequestUri.clip_text

/-! ## Fields, headers and the start line together -/

/-- **The field accessors are coherent** after any history of writes to headers and fields. -/
structure FieldsCoherent (raw : Bytes) (a : HmrArena) (ops : List MessageOp) : Prop where
  /-- What a write to a field does. -/
  laws : ∀ code v, IsFieldText v.text →
    FieldLaws (MessageOp.runAll ops (parse raw, a)).1 (MessageOp.runAll ops (parse raw, a)).2 code v
  /-- What becomes of the start line. -/
  startLine : (startOf raw).length < 2 ^ 32 → (parse raw).isRequest = true →
    HasScheme (parse raw).requestUri → ∀ b,
    ((MessageOp.runAll ops (parse raw, a)).1.serialize b).1.present = true →
      Splices raw (MessageOp.runAll ops (parse raw, a)).1
          ((MessageOp.runAll ops (parse raw, a)).1.serialize b).1.text
        ∧ (MessageOp.Regular ops (parse raw, a) →
          ReadsBack raw (MessageOp.runAll ops (parse raw, a)).1
            ((MessageOp.runAll ops (parse raw, a)).1.serialize b).1.text)

/-- **The field accessors are coherent.** -/
theorem fields_coherent (raw : Bytes) (a : HmrArena) (ops : List MessageOp) :
    FieldsCoherent raw a ops where
  laws := fun code v hv => fieldLaws _ _ code hv
  startLine := by
    intro hlen hreq hscheme b hout
    obtain ⟨hsplices, hreads⟩ :=
      splices_serialize hlen hreq hscheme (sameLine_runAll ops (parse raw, a)) hout
    exact ⟨hsplices, fun hregular =>
      hreads (uriOk_runAll hregular (uriOk_parse hlen hreq hscheme))⟩

/-- A call to bob. -/
def invite : Bytes := txt "INVITE sip:bob@b SIP/2.0\r\nFrom: <sip:alice@a>\r\n\r\n"

/-- The call is for carol now. -/
def toCarol : List MessageOp := [.field 0 (.ofBytes (txt "carol"))]

/-- The call as it is for carol. -/
def invited : HmrSipMsg × HmrArena := MessageOp.runAll toCarol (parse invite, .fresh)

/-- Then the caller is hidden: that is got back, as `set_header` would have put it, and carol is
still called, in the start line, too. -/
theorem fields_coherent_invite :
    let v := StringView.ofBytes (txt "anonymous")
    let rebuilt := Uri.rebuildUri invited.2 (invited.1.getHeader (txt "From")).sv .user v
    shown ((invited.1.setField invited.2 2 v).2.1.getField 2) = some (txt "anonymous")
      ∧ shown ((invited.1.setField invited.2 2 v).2.1.getField 0) = shown (invited.1.getField 0)
      ∧ (invited.1.setField invited.2 2 v).2.1.withoutAddresses
        = (invited.1.setHeader rebuilt.2 (.ofBytes (txt "From")) rebuilt.1.sv).2.1.withoutAddresses
      ∧ ReadsBack invite invited.1 (invited.1.serialize invited.2).1.text := by
  have hv : IsFieldText (StringView.ofBytes (txt "anonymous")).text := by
    unfold IsFieldText
    decide +kernel
  have hset : (invited.1.setField invited.2 2 (.ofBytes (txt "anonymous"))).1 = true := by
    decide +kernel
  have hscheme : HasScheme (invited.1.fieldValue .fromUser) := by
    unfold HasScheme
    decide +kernel
  have hfits : (invited.1.rebuiltText .fromUser (StringView.ofBytes (txt "anonymous")).text).length
      < 2 ^ 32 := by
    decide +kernel
  have hregular : MessageOp.Regular toCarol (parse invite, .fresh) := by
    refine ⟨fun code v hop => ?_, trivial⟩
    cases hop
    refine ⟨by unfold IsFieldText; decide +kernel, fun f hf => ?_⟩
    cases hf
    decide +kernel
  have h := fields_coherent invite .fresh toCarol
  have hlaws := h.laws 2 _ hv
  exact ⟨hlaws.put .fromUser rfl hset hscheme hfits,
    hlaws.others .fromUser rfl hset hscheme hfits 0 (by decide),
    (hlaws.header .fromUser (txt "From") rfl rfl (by decide +kernel) hfits
      (by decide +kernel)).2.2,
    (h.startLine (by decide +kernel) (by decide +kernel) (by unfold HasScheme; decide +kernel) _
      (by decide +kernel)).2 hregular⟩

/-! ## Where they are not -/

/-- The packet has no From. -/
theorem not_header_law :
    ¬ ∀ (raw : Bytes) (a : HmrArena) (code : Nat) (v : StringView) (f : HmrField) (name : Bytes),
      IsFieldText v.text → HmrField.ofCode code = some f → (fieldRef f).header = some name →
      2 * ((parse raw).rebuiltText f v.text).length ≤ a.remaining →
      let rebuilt := Uri.rebuildUri a ((parse raw).getHeader name).sv (fieldRef f).element v
      ((parse raw).setField a code v).2.1.withoutAddresses
        = ((parse raw).setHeader rebuilt.2 (.ofBytes name) rebuilt.1.sv).2.1.withoutAddresses := by
  intro h
  have hset := h (txt "INVITE sip:b SIP/2.0") .fresh 2 (.ofBytes [97]) .fromUser (txt "From")
    (List.forall_mem_singleton.mpr ⟨rfl, by decide, by decide⟩) rfl rfl (by decide)
  have hlen := congrArg (fun m => m.headers.length) hset
  revert hlen
  decide

/-- A length is cut to 32 bits. -/
theorem clip_length (s : Bytes) : (clip s).length = s.length % 2 ^ 32 := by
  rw [clip, List.length_take, Nat.min_eq_left (Nat.mod_le _ _)]

/-- A request line that ends in a long word. -/
def longLine (t : Bytes) : RequestLine := ⟨txt "INVITE", [], txt "sip:b", [], sp :: t⟩

/-- It is a request line. -/
theorem wf_longLine (t : Bytes) : (longLine t).Wf where
  method := (by decide : sp ∉ txt "INVITE")
  gap := List.forall_mem_nil _
  uri := (by decide : trim (txt "sip:b") = txt "sip:b" ∧ txt "sip:b" ≠ [] ∧ sp ∉ txt "sip:b")
  close := List.forall_mem_nil _
  version := Or.inr ⟨t, rfl⟩

/-- The start line has `2 ^ 32 + 13` bytes, and the first thirteen of them are put out. -/
theorem not_splices :
    ¬ ∀ (raw : Bytes) (a : HmrArena), (parse raw).isRequest = true →
      HasScheme (parse raw).requestUri → ((parse raw).serialize a).1.present = true →
      Splices raw (parse raw) ((parse raw).serialize a).1.text := by
  intro h
  obtain ⟨t, hlen, hplain⟩ : ∃ t : Bytes, t.length = 2 ^ 32 ∧ ∀ c ∈ t, c = 97 :=
    ⟨List.replicate (2 ^ 32) 97, List.length_replicate, fun c hc => List.eq_of_mem_replicate hc⟩
  have hne : t ≠ [] := by
    rintro rfl
    cases hlen
  have hraw : (longLine t).text = txt "INVITE sip:b " ++ t := rfl
  have hrawlen : (longLine t).text.length = 2 ^ 32 + 13 := by
    rw [hraw, List.length_append, hlen]
    rfl
  have htrim : trim (longLine t).text = (longLine t).text := by
    rw [trim_eq_self_iff, hraw, List.getLast?_append_of_ne_nil _ hne]
    refine ⟨fun c hc => ?_, fun c hc => ?_⟩
    · cases hc
      rfl
    · rw [hplain c (List.mem_of_getLast? hc)]
      rfl
  have hlf : lf ∉ (longLine t).text := by
    rw [hraw, List.mem_append, not_or]
    exact ⟨by decide, fun hm => absurd (hplain lf hm) (by decide)⟩
  have hsplit : lineSplit (longLine t).text = some ((longLine t).text, []) :=
    lineSplit_of_not_mem (by rw [hraw]; exact List.append_ne_nil_of_right_ne_nil _ hne) hlf
  have hwire := parse_wire (longLine t).text
  rw [hsplit] at hwire
  dsimp only at hwire
  rw [htrim, firstWire_requestLine (wf_longLine t) rfl, headerLines_of_none rfl,
    bodyOf_of_none rfl] at hwire
  -- no override, and the line cut to thirteen bytes
  have hrendered : (parse (longLine t).text).rendered = clip (longLine t).text ++ crlf ++ crlf := by
    rw [rendered_of_unmodified (modRequestUri_parse _), hwire]
    exact (List.append_nil _).trans (congrArg (· ++ crlf) (List.append_nil _))
  have hfits : (parse (longLine t).text).rendered.length ≤ HmrArena.fresh.remaining := by
    rw [hrendered, List.length_append, List.length_append, clip_length, hrawlen]
    decide
  have hscheme : HasScheme (parse (longLine t).text).requestUri := by
    have huri : (parse (longLine t).text).requestUri.text = txt "sip:b" :=
      (congrArg Wire.requestUri hwire).trans rfl
    obtain ⟨r, o, hsv⟩ := sv_eq (parse (longLine t).text).requestUri
    unfold HasScheme
    rw [hsv, huri]
    exact fun hnull => Ptr.noConfusion hnull
  obtain ⟨front, back, hstart, -, hout⟩ := h (longLine t).text .fresh
    (congrArg Wire.isRequest hwire) hscheme ((serialize_iff _ _).1.mpr hfits)
  have hcurrent : (parse (longLine t).text).currentRequestUri
      = (parse (longLine t).text).requestUri := by
    unfold currentRequestUri
    rw [modRequestUri_parse]
    rfl
  have hstartOf : startOf (longLine t).text = (longLine t).text := by
    unfold startOf
    rw [hsplit, Option.elim_some, htrim]
  have hlt := ((parse (longLine t).text).serialize .fresh).1.len_lt
  rw [hout, hcurrent, ← hstart, hstartOf, List.length_append, List.length_append, hrawlen] at hlt
  omega

/-- **The two places where they are not coherent**: a header that is not there is added by
`set_header` and not by `set_field`; and the length of a start line is kept in 32 bits. -/
theorem not_fields_coherent :
    (¬ ∀ (raw : Bytes) (a : HmrArena) (code : Nat) (v : StringView) (f : HmrField) (name : Bytes),
      IsFieldText v.text → HmrField.ofCode code = some f → (fieldRef f).header = some name →
      2 * ((parse raw).rebuiltText f v.text).length ≤ a.remaining →
      let rebuilt := Uri.rebuildUri a ((parse raw).getHeader name).sv (fieldRef f).element v
      ((parse raw).setField a code v).2.1.withoutAddresses
        = ((parse raw).setHeader rebuilt.2 (.ofBytes name) rebuilt.1.sv).2.1.withoutAddresses)
    ∧ ¬ ∀ (raw : Bytes) (a : HmrArena), (parse raw).isRequest = true →
      HasScheme (parse raw).requestUri → ((parse raw).serialize a).1.present = true →
      Splices raw (parse raw) ((parse raw).serialize a).1.text :=
  ⟨not_header_law, not_splices⟩

end HmrSipMsg

end Hmr
