import Hmr.Serialize
import Hmr.Wire

/-!
# Parsing and serializing are inverse on canonical messages

`parse` accepts a great deal – lines ended by LF alone, blanks around names and values,
lines that are no header at all – and `serialize` writes one form only. A
`CanonicalMessage` is a message of that form: what `parse` recovers from it is exactly
what it is made of, and writing that out again gives the same bytes.

Every parsed packet is canonical in what it says (`canonicalOf`), so that serializing a
packet and parsing the result changes nothing more: one pass through the two is a normal
form.

What makes it so is that a canonical message has no line end in any of its parts, no colon
in a name, and no blanks at the ends of what is trimmed. A parsed packet has none because
its parts are cut out of lines and trimmed. The table limits the headers on both sides, so
a packet with more of them loses the others at once, and no more afterwards.

The arena limits what can be written out: a message that does not fit is not put out at
all, and the statement is about one that is.
-/

namespace Hmr

/-- A name or a value as it stands on a header line: trimmed, and on one
line. -/
structure OnLine (s : Bytes) : Prop where
  trimmed : trim s = s
  no_lf : lf ∉ s

instance (s : Bytes) : Decidable (OnLine s) :=
  decidable_of_iff (trim s = s ∧ lf ∉ s) ⟨fun h => ⟨h.1, h.2⟩, fun h => ⟨h.1, h.2⟩⟩

/-- **A message in the form `serialize` writes.** -/
structure CanonicalMessage where
  startLine : Bytes
  headers : HeaderList
  body : Bytes
  startLine_onLine : OnLine startLine
  headers_le : headers.length ≤ hmrMaxHeaders
  name_onLine : ∀ p ∈ headers, OnLine p.1 ∧ colon ∉ p.1
  value_onLine : ∀ p ∈ headers, OnLine p.2

namespace CanonicalMessage

/-- The bytes of the message: its start line, its headers, a blank line and
its body. -/
def text (c : CanonicalMessage) : Bytes :=
  c.startLine ++ crlf ++ c.headers.flatMap HmrSipMsg.renderHeader ++ crlf ++ c.body

/-- The line a header stands on. -/
def headerLine (p : Bytes × Bytes) : Bytes := p.1 ++ colon :: sp :: (p.2 ++ [cr])

/-- A header is put out as its line. -/
theorem renderHeader_eq (p : Bytes × Bytes) :
    HmrSipMsg.renderHeader p = headerLine p ++ [lf] := by
  show p.1 ++ [colon, sp] ++ p.2 ++ [cr, lf] = p.1 ++ colon :: sp :: (p.2 ++ [cr]) ++ [lf]
  simp

/-- A header is read off the line it stands on, with its value trimmed. -/
theorem headerOf_headerLine {p : Bytes × Bytes} (hn : OnLine p.1 ∧ colon ∉ p.1)
    (hlen : (headerLine p).length < 2 ^ 32) :
    headerOf (headerLine p) = some (p.1, trim p.2) := by
  have hlen' : p.1.length + p.2.length < 2 ^ 32 := by
    simp only [headerLine, List.length_append, List.length_cons] at hlen
    omega
  have htrim : (trim p.2).length ≤ p.2.length := (trim_isInfix p.2).length_le
  have hdrop : (headerLine p).drop (p.1.length + 1) = sp :: (p.2 ++ [cr]) := by
    rw [← List.drop_drop, headerLine, List.drop_left]
    rfl
  rw [headerOf, headerLine, find_append hn.2]
  show some (clip (trim ((headerLine p).take p.1.length)),
    clip (trim ((headerLine p).drop (p.1.length + 1)))) = some (p.1, trim p.2)
  rw [hdrop, headerLine, List.take_left, trim_sp_cons, trim_append_cr, hn.1.trimmed,
    clip_of_lt (by omega), clip_of_lt (by omega)]

/-- A header line is no blank line. -/
theorem trim_headerLine_ne (p : Bytes × Bytes) : (trim (headerLine p)).isEmpty = false := by
  have hmem : colon ∈ trim (headerLine p) :=
    colon_mem_trim (List.mem_append_right _ List.mem_cons_self)
  cases h : trim (headerLine p) with
  | nil =>
    rw [h] at hmem
    cases hmem
  | cons x l => rfl

/-- It is one line. -/
theorem lf_not_mem_headerLine {p : Bytes × Bytes} (hn : OnLine p.1) (hv : lf ∉ p.2) :
    lf ∉ headerLine p := by
  have hcolon : ¬ lf = colon := by decide
  have hsp : ¬ lf = sp := by decide
  have hcr : ¬ lf = cr := by decide
  simp [headerLine, hn.no_lf, hv, hcolon, hsp, hcr]

end CanonicalMessage

/-- **The lines of a text**: a list of lines that are not blank, then a blank
one, is split into those lines and what follows. -/
theorem headerLines_flatMap (ls : List Bytes)
    (hls : ∀ l ∈ ls, lf ∉ l ∧ (trim l).isEmpty = false) {b : Bytes} (hb : lf ∉ b)
    (hblank : (trim b).isEmpty = true) (r : Bytes) :
    headerLines (ls.flatMap (fun l => l ++ [lf]) ++ (b ++ lf :: r)) = ls
      ∧ bodyOf (ls.flatMap (fun l => l ++ [lf]) ++ (b ++ lf :: r)) = r := by
  induction ls with
  | nil =>
    have hs := lineSplit_append (r := r) hb
    refine ⟨(headerLines_of_some hs).trans (if_pos hblank),
      (bodyOf_of_some hs).trans (if_pos hblank)⟩
  | cons l ls ih =>
    obtain ⟨hl, hne⟩ := hls l List.mem_cons_self
    obtain ⟨ihl, ihb⟩ := ih (fun x hx => hls x (List.mem_cons_of_mem _ hx))
    have heq : (l :: ls).flatMap (fun l => l ++ [lf]) ++ (b ++ lf :: r)
        = l ++ lf :: (ls.flatMap (fun l => l ++ [lf]) ++ (b ++ lf :: r)) := by
      simp
    have hs := lineSplit_append (r := ls.flatMap (fun l => l ++ [lf]) ++ (b ++ lf :: r)) hl
    have hne' : ¬ (trim l).isEmpty = true := by
      rw [hne]
      exact Bool.false_ne_true
    rw [heq, headerLines_of_some hs, bodyOf_of_some hs, if_neg hne', if_neg hne', ihl, ihb]
    exact ⟨rfl, rfl⟩

namespace CanonicalMessage

/-- **Parsing what `serialize` writes**, the values of the headers being on one line each: they
are read back trimmed, and everything else as it is. None of the header lines is blank, since
each has its colon, and none has a line end in it, so the first blank line is the one behind
them; and the table has room for every header, since there are no more of them than it can hold. -/
theorem wire_parse_text {start body : Bytes} {headers : HeaderList} (hs : OnLine start)
    (hle : headers.length ≤ hmrMaxHeaders)
    (hn : ∀ p ∈ headers, OnLine p.1 ∧ colon ∉ p.1) (hv : ∀ p ∈ headers, lf ∉ p.2)
    (hlen : (start ++ crlf ++ headers.flatMap HmrSipMsg.renderHeader ++ crlf ++ body).length
      < 2 ^ 32) :
    (HmrSipMsg.parse
        (start ++ crlf ++ headers.flatMap HmrSipMsg.renderHeader ++ crlf ++ body)).wire
      = { HmrSipMsg.firstWire start with
          headers := headers.map fun p => (p.1, trim p.2)
          body := body } := by
  have hlines : headers.flatMap HmrSipMsg.renderHeader
      = (headers.map headerLine).flatMap (fun l => l ++ [lf]) := by
    rw [List.flatMap_map]
    exact congrArg List.flatten (List.map_congr_left fun p _ => renderHeader_eq p)
  have htext : start ++ crlf ++ headers.flatMap HmrSipMsg.renderHeader ++ crlf ++ body
      = (start ++ [cr]) ++ lf ::
        ((headers.map headerLine).flatMap (fun l => l ++ [lf]) ++ ([cr] ++ lf :: body)) := by
    rw [hlines]
    simp
  have hfirst : lf ∉ start ++ [cr] := by
    have hcr : ¬ lf = cr := by decide
    simp [hs.no_lf, hcr]
  -- None of the lines is blank, since each has its colon, and none has a line end in it.
  have hls : ∀ l ∈ headers.map headerLine, lf ∉ l ∧ (trim l).isEmpty = false := by
    intro l hl
    obtain ⟨p, hp, rfl⟩ := List.mem_map.mp hl
    exact ⟨lf_not_mem_headerLine (hn p hp).1 (hv p hp), trim_headerLine_ne p⟩
  obtain ⟨hhl, hbody⟩ := headerLines_flatMap _ hls (b := [cr]) (by decide) (by decide) body
  have hheaders : (headers.map headerLine).filterMap headerOf
      = headers.map fun p => (p.1, trim p.2) := by
    rw [List.filterMap_map, ← List.filterMap_eq_map]
    refine List.filterMap_congr fun p hp => ?_
    refine headerOf_headerLine (hn p hp) (Nat.lt_of_le_of_lt ?_ hlen)
    have hsub : headerLine p <:+:
        start ++ crlf ++ headers.flatMap HmrSipMsg.renderHeader ++ crlf ++ body := by
      obtain ⟨l₁, l₂, hl⟩ := List.append_of_mem hp
      rw [hl, List.flatMap_append, List.flatMap_cons, renderHeader_eq]
      exact ⟨start ++ crlf ++ l₁.flatMap HmrSipMsg.renderHeader,
        [lf] ++ l₂.flatMap HmrSipMsg.renderHeader ++ crlf ++ body, by simp⟩
    exact hsub.length_le
  have hb : body.length < 2 ^ 32 := by
    refine Nat.lt_of_le_of_lt ?_ hlen
    rw [List.length_append]
    exact Nat.le_add_left _ _
  rw [HmrSipMsg.parse_wire, htext, lineSplit_append hfirst]
  dsimp only
  rw [hhl, hbody, hheaders, trim_append_cr, hs.trimmed,
    List.take_of_length_le ((List.length_map _).trans_le hle), clip_of_lt hb]

/-- **Parsing a canonical message** recovers what it is made of. -/
theorem wire_parse (c : CanonicalMessage) (hlen : c.text.length < 2 ^ 32) :
    (HmrSipMsg.parse c.text).wire
      = { HmrSipMsg.firstWire c.startLine with headers := c.headers, body := c.body } := by
  have htrim : c.headers.map (fun p => (p.1, trim p.2)) = c.headers := by
    refine (List.map_congr_left fun p hp => ?_).trans (List.map_id _)
    rw [(c.value_onLine p hp).trimmed]
    rfl
  have h := wire_parse_text c.startLine_onLine c.headers_le c.name_onLine
    (fun p hp => (c.value_onLine p hp).no_lf) hlen
  rw [htrim] at h
  exact h

end CanonicalMessage

namespace HmrSipMsg

/-! ## A parsed packet is canonical -/

/-- A parsed packet has its own request-URI. -/
@[simp] theorem modRequestUri_parse (raw : Bytes) : (parse raw).modRequestUri = {} := by
  -- No step of the parser writes that field.
  refine parseLines_invariant (P := fun m => m.modRequestUri = {}) (fun m line _ _ _ h => ?_)
    (fun _ _ h => h) _ _ (fun _ m line _ _ _ h => ?_) rfl
  · rwa [modRequestUri_parseHeaderLine]
  · rwa [modRequestUri_parseFirst]

/-- With no request-URI override, the rendered message is what the message
says. -/
theorem rendered_of_unmodified {m : HmrSipMsg} (h : m.modRequestUri = {}) :
    m.rendered = m.wire.startLine ++ crlf ++ m.wire.headers.flatMap renderHeader
      ++ crlf ++ m.wire.body := by
  have hfirst : m.firstLine = [m.startLine.text] := by
    unfold firstLine
    rw [h, show HmrStr.present {} = false from rfl, Bool.and_false, Bool.false_and]
    rfl
  rw [rendered_eq, hfirst, List.flatten_singleton]
  rfl

/-- A header read off a line of a text is a name and a value on one line. -/
theorem onLine_headerOf {line : Bytes} {p : Bytes × Bytes} (h : headerOf line = some p)
    (hlf : lf ∉ line) (hlen : line.length < 2 ^ 32) :
    OnLine p.1 ∧ colon ∉ p.1 ∧ OnLine p.2 := by
  have hle : ∀ s : Bytes, s <:+: line → clip (trim s) = trim s := fun s hs =>
    clip_of_lt (Nat.lt_of_le_of_lt ((trim_isInfix s).trans hs).length_le hlen)
  unfold headerOf at h
  split at h
  · cases h
  · rename_i c hc
    have htake := hle _ (List.take_prefix c line).isInfix
    have hdrop := hle _ (List.drop_suffix (c + 1) line).isInfix
    obtain rfl := Option.some.inj h
    dsimp only
    rw [htake, hdrop]
    refine ⟨⟨trim_trim _, fun hm => ?_⟩, fun hm => ?_, ⟨trim_trim _, fun hm => ?_⟩⟩
    · exact hlf (List.mem_of_mem_take (mem_of_mem_trim hm))
    · exact (find_eq_some hc).2.1 (mem_of_mem_trim hm)
    · exact hlf (List.mem_of_mem_drop (mem_of_mem_trim hm))

/-- The header lines of a text are lines of it. -/
theorem mem_headerLines {s l : Bytes} (h : l ∈ headerLines s) : lf ∉ l ∧ l <:+: s := by
  induction s using headerLines.induct with
  | case1 s hs =>
    rw [headerLines_of_none hs] at h
    cases h
  | case2 s l' r hs hblank =>
    rw [headerLines_of_some hs, if_pos hblank] at h
    cases h
  | case3 s l' r hs hblank ih =>
    rw [headerLines_of_some hs, if_neg hblank] at h
    rcases List.mem_cons.mp h with rfl | h
    · exact ⟨lf_not_mem_line hs, (line_isPart hs).1.isInfix⟩
    · exact ⟨(ih h).1, (ih h).2.trans (line_isPart hs).2.isInfix⟩

/-- **What a packet says, as a canonical message.** -/
def canonicalOf (raw : Bytes) (hraw : raw.length < 2 ^ 32) : CanonicalMessage where
  startLine := (parse raw).wire.startLine
  headers := (parse raw).wire.headers
  body := (parse raw).wire.body
  startLine_onLine := by
    rw [parse_wire]
    split
    · exact ⟨rfl, List.not_mem_nil⟩
    · rename_i l r hs
      have hlen : (trim l).length < 2 ^ 32 :=
        Nat.lt_of_le_of_lt ((trim_isInfix l).trans (line_isPart hs).1.isInfix).length_le hraw
      show OnLine (firstWire (trim l)).startLine
      rw [firstWire_startLine, clip_of_lt hlen]
      exact ⟨trim_trim l, fun hm => lf_not_mem_line hs (mem_of_mem_trim hm)⟩
  headers_le := by
    rw [parse_wire]
    split
    · exact Nat.zero_le _
    · exact List.length_take_le _ _
  name_onLine := fun p hp => by
    obtain ⟨hn, hc, -⟩ := onLine_of_mem_headers hraw hp
    exact ⟨hn, hc⟩
  value_onLine := fun p hp => (onLine_of_mem_headers hraw hp).2.2
where
  onLine_of_mem_headers {raw : Bytes} (hraw : raw.length < 2 ^ 32) {p : Bytes × Bytes}
      (hp : p ∈ (parse raw).wire.headers) : OnLine p.1 ∧ colon ∉ p.1 ∧ OnLine p.2 := by
    rw [parse_wire] at hp
    split at hp
    · cases hp
    · rename_i l r hs
      obtain ⟨line, hline, hof⟩ := List.mem_filterMap.mp (List.mem_of_mem_take hp)
      obtain ⟨hlf, hinf⟩ := mem_headerLines hline
      exact onLine_headerOf hof hlf
        (Nat.lt_of_le_of_lt (hinf.trans (line_isPart hs).2.isInfix).length_le hraw)

/-- The rendered packet is the canonical message. -/
theorem rendered_parse (raw : Bytes) (hraw : raw.length < 2 ^ 32) :
    (parse raw).rendered = (canonicalOf raw hraw).text :=
  rendered_of_unmodified (modRequestUri_parse raw)

/-- The first line of a packet is read off its trimmed text. -/
theorem wire_eq_firstWire (raw : Bytes) (hraw : raw.length < 2 ^ 32) :
    (parse raw).wire
      = { firstWire (parse raw).wire.startLine with
          headers := (parse raw).wire.headers, body := (parse raw).wire.body } := by
  rw [parse_wire]
  split
  · rfl
  · rename_i l r hs
    have hlen : (trim l).length < 2 ^ 32 :=
      Nat.lt_of_le_of_lt ((trim_isInfix l).trans (line_isPart hs).1.isInfix).length_le hraw
    rw [show ∀ h b, ({ firstWire (trim l) with headers := h, body := b } : Wire).startLine
        = trim l from fun _ _ => (firstWire_startLine _).trans (clip_of_lt hlen)]

/-- Serializing succeeds exactly when the rendered message fits, and returns
it then. -/
theorem serialize_iff (m : HmrSipMsg) (a : HmrArena) :
    ((m.serialize a).1.present = true ↔ m.rendered.length ≤ a.remaining)
      ∧ ((m.serialize a).1.present = true → (m.serialize a).1.text = m.rendered) := by
  obtain ⟨-, ⟨hfit, htext, hp, -⟩ | ⟨hfit, hempty⟩⟩ := m.serialize_spec a
  · exact ⟨⟨fun _ => hfit, fun _ => hp⟩, fun _ => htext⟩
  · rw [hempty]
    refine ⟨⟨fun h => (nomatch h), fun h => ?_⟩, fun h => (nomatch h)⟩
    exact absurd hfit (Nat.not_lt_of_le h)

/-- A canonical message renders as it is. -/
theorem rendered_parse_canonical (c : CanonicalMessage) (hlen : c.text.length < 2 ^ 32) :
    (parse c.text).rendered = c.text := by
  have hw := c.wire_parse hlen
  have hstart : c.startLine.length < 2 ^ 32 := by
    refine Nat.lt_of_le_of_lt ?_ hlen
    simp only [CanonicalMessage.text, List.length_append]
    omega
  rw [rendered_of_unmodified (modRequestUri_parse _), hw]
  show (firstWire c.startLine).startLine ++ crlf ++ _ ++ crlf ++ c.body = _
  rw [firstWire_startLine, clip_of_lt hstart]
  rfl

/-- **Parsing what was serialized** says what the packet said. -/
theorem wire_parse_rendered {raw : Bytes} (hraw : raw.length < 2 ^ 32)
    (hlen : (parse raw).rendered.length < 2 ^ 32) :
    (parse (parse raw).rendered).wire = (parse raw).wire := by
  rw [rendered_parse raw hraw] at hlen ⊢
  rw [(canonicalOf raw hraw).wire_parse hlen]
  exact (wire_eq_firstWire raw hraw).symm

/-- **Parse and serialize have a normal form.** Of a packet shorter than
`2 ^ 32` bytes that serializes, the output says what the packet said, and
serializes to itself; a canonical message is returned as it is, whenever there
is room for it. -/
theorem parse_serialize_normal_form :
    (∀ raw : Bytes, raw.length < 2 ^ 32 → ∀ a : HmrArena,
        ((parse raw).serialize a).1.present = true →
          let s := ((parse raw).serialize a).1.text
          (parse s).wire = (parse raw).wire
            ∧ ∀ b : HmrArena,
              (((parse s).serialize b).1.present = true ↔ s.length ≤ b.remaining)
                ∧ (((parse s).serialize b).1.present = true →
                  ((parse s).serialize b).1.text = s))
      ∧ ∀ c : CanonicalMessage, c.text.length < 2 ^ 32 → ∀ a : HmrArena,
        (((parse c.text).serialize a).1.present = true ↔ c.text.length ≤ a.remaining)
          ∧ (((parse c.text).serialize a).1.present = true →
            ((parse c.text).serialize a).1.text = c.text) := by
  refine ⟨fun raw hraw a hp => ?_, fun c hlen a => ?_⟩
  · obtain ⟨htext, hfit⟩ := text_of_serialize hp
    have hcap : a.remaining < 2 ^ 32 :=
      Nat.lt_of_le_of_lt (Nat.sub_le _ _) (show kCapacity < 2 ^ 32 by decide)
    have hlen : (parse raw).rendered.length < 2 ^ 32 := Nat.lt_of_le_of_lt hfit hcap
    -- The message is canonical in what it says, so its text is the same the second time.
    have hagain : (parse (parse raw).rendered).rendered = (parse raw).rendered := by
      rw [rendered_parse raw hraw] at hlen ⊢
      exact rendered_parse_canonical _ hlen
    dsimp only
    rw [htext]
    refine ⟨wire_parse_rendered hraw hlen, fun b => ?_⟩
    have := (parse (parse raw).rendered).serialize_iff b
    rwa [hagain] at this
  · have := (parse c.text).serialize_iff a
    rwa [rendered_parse_canonical c hlen] at this

/-- A request with a stray blank, a line that is no header and no blank line;
and one in normal form. -/
theorem parse_serialize_normal_form_request :
    (let raw := txt "INVITE sip:b@h SIP/2.0\nVia :  x\r\nnoise\nTo:y"
      let s := ((parse raw).serialize .fresh).1.text
      (parse s).wire = (parse raw).wire)
      ∧ ((parse (txt "BYE sip:b SIP/2.0\r\nTo: y\r\n\r\nhi")).serialize .fresh).1.text
        = txt "BYE sip:b SIP/2.0\r\nTo: y\r\n\r\nhi" :=
  ⟨(parse_serialize_normal_form.1
      (txt "INVITE sip:b@h SIP/2.0\nVia :  x\r\nnoise\nTo:y") (by decide) .fresh
      (by decide)).1,
    (parse_serialize_normal_form.2
      { startLine := txt "BYE sip:b SIP/2.0", headers := [(txt "To", txt "y")],
        body := txt "hi", startLine_onLine := by decide, headers_le := by decide,
        name_onLine := by decide, value_onLine := by decide }
      (by decide) .fresh).2 (by decide)⟩

end HmrSipMsg

end Hmr
