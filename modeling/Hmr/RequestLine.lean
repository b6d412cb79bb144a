import Hmr.HeaderMemory
import Hmr.NormalForm

/-!
# Request lines

The first line of a request is a method, a blank, and behind it a word that ends with the
next blank: the request-URI, without the tabs and carriage returns that may be around it.
A `RequestLine` is a line cut up that way.

The parser looks for a blank, and for a blank behind it, and trims what is between them.
It checks nothing else: a line without a second blank has a request-URI and no version,
and one with more blanks has them in its version. So the pieces of a line are where the
blanks are (`RequestLine.Wf`), and what is in the pieces is left open. `parse` reads its
pieces off it (`RequestLine.parseRequestLine_eq`), and every request that has a
request-URI has such a line (`RequestLine.exists_requestLine`).

With another request-URI, that is fit to stand there, it is a request line still
(`RequestLine.exchange`). What is exchanged is the URI only: the tabs and carriage returns
that are trimmed off stay where they are, which is why they are pieces of their own.

## In a packet

The first line of a packet is read before the header lines, and these do not touch what is
read off it (`HmrSipMsg.sameLine_parse`). A packet that begins with a request line is
thereby parsed as that request, whatever follows the line (`HmrSipMsg.parse_requestLine`).
-/

namespace Hmr

/-! ## Texts on a line -/

/-- **What is trimmed already** begins with no blank, and ends with none and no carriage return.
Trimming takes from either end, and each end is looked at by itself: what is left of a text after
the one end has been trimmed has the other end of the text, if anything is left. -/
theorem trim_eq_self_iff {s : Bytes} :
    trim s = s ↔
      (∀ c ∈ s.head?, isBlank c = false) ∧ (∀ c ∈ s.getLast?, isBlankOrCr c = false) := by
  -- Trimming takes from either end, and each end is looked at by itself.
  have hback : s.rdropWhile isBlankOrCr = s ↔ ∀ c ∈ s.getLast?, isBlankOrCr c = false := by
    rw [List.rdropWhile_eq_self_iff]
    constructor
    · intro h c hc
      obtain ⟨hne, rfl⟩ := List.mem_getLast?_eq_getLast hc
      simpa using h hne
    · intro h hne
      simpa using h _ (List.getLast?_eq_some_getLast hne)
  have hfront : s.dropWhile isBlank = s ↔ ∀ c ∈ s.head?, isBlank c = false := by
    cases s with
    | nil => simp
    | cons c s =>
      rw [List.head?_cons]
      constructor
      · intro h d hd
        rw [Option.mem_some_iff] at hd
        subst hd
        rw [← Bool.not_eq_true]
        intro hc
        rw [List.dropWhile_cons_of_pos hc] at h
        have hlen := (List.dropWhile_suffix isBlank (l := s)).length_le
        rw [h, List.length_cons] at hlen
        omega
      · intro h
        have hc := h c rfl
        exact List.dropWhile_cons_of_neg (by simp [hc])
  constructor
  · intro h
    have hdrop : s.dropWhile isBlank = s := by
      have hprefix : trim s <+: s.dropWhile isBlank := List.rdropWhile_prefix isBlankOrCr _
      rw [h] at hprefix
      exact dropWhile_of_prefix hprefix
    rw [trim, trimBy, hdrop] at h
    exact ⟨hfront.mp hdrop, hback.mp h⟩
  · rintro ⟨hhead, hlast⟩
    rw [trim, trimBy, hfront.mpr hhead, hback.mpr hlast]

/-- What is padded with blanks is trimmed to what it was. -/
theorem trim_pad {g u g' : Bytes} (hg : ∀ c ∈ g, isBlank c = true) (hu : trim u = u)
    (hg' : ∀ c ∈ g', isBlankOrCr c = true) : trim (g ++ u ++ g') = u := by
  have hfront : ∀ s : Bytes, trim (g ++ s) = trim s := by
    intro s
    induction g with
    | nil => rfl
    | cons c g ih =>
      rw [List.forall_mem_cons] at hg
      rw [List.cons_append, trim, trimBy_cons hg.1]
      exact ih hg.2
  have hback : ∀ s : Bytes, trim (s ++ g') = trim s := by
    intro s
    induction g' using List.reverseRecOn with
    | nil => rw [List.append_nil]
    | append_singleton g' c ih =>
      rw [List.forall_mem_append, List.forall_mem_singleton] at hg'
      rw [← List.append_assoc, trim, trimBy_append_singleton hg'.2]
      exact ih hg'.1
  rw [hback, hfront, hu]

/-- **A part of a line is exchanged** for one without blanks and line ends, behind a byte that
is none either: what comes out is on a line too. -/
theorem OnLine.exchange {p x y q : Bytes} {e : UInt8} (hp : p.getLast? = some e)
    (he : isBlankOrCr e = false) (hy : ∀ c ∈ y, isBlankOrCr c = false ∧ c ≠ lf)
    (h : OnLine (p ++ x ++ q)) : OnLine (p ++ y ++ q) := by
  have hpne : p ≠ [] := by
    rintro rfl
    cases hp
  obtain ⟨htrim, hlf⟩ := h
  rw [trim_eq_self_iff] at htrim
  obtain ⟨hhead, hlast⟩ := htrim
  refine ⟨trim_eq_self_iff.mpr ⟨?_, ?_⟩, ?_⟩
  · rw [List.append_assoc, List.head?_append_of_ne_nil _ hpne] at hhead ⊢
    exact hhead
  · -- Where nothing follows, the end of what is put in is the end of the line, or the byte in
    -- front of it is.
    by_cases hq : q = []
    · subst hq
      rw [List.append_nil]
      by_cases hyne : y = []
      · subst hyne
        rw [List.append_nil, hp]
        rintro c ⟨⟩
        exact he
      · rw [List.getLast?_append_of_ne_nil _ hyne]
        exact fun c hc => (hy c (List.mem_of_getLast? hc)).1
    · rw [List.getLast?_append_of_ne_nil _ hq] at hlast ⊢
      exact hlast
  · simp only [List.mem_append, not_or] at hlf ⊢
    exact ⟨⟨hlf.1.1, fun hmem => (hy lf hmem).2 rfl⟩, hlf.2⟩

/-! ## A request line -/

/-- **A request line**, cut up: the method, and behind a blank the request-URI, between tabs
and carriage returns if there are any; then the version with the blank in front. -/
structure RequestLine where
  method : Bytes
  gap : Bytes
  uri : Bytes
  close : Bytes
  version : Bytes

namespace RequestLine

/-- The line. -/
def text (l : RequestLine) : Bytes :=
  l.method ++ sp :: (l.gap ++ l.uri ++ l.close ++ l.version)

/-- What is in front of the request-URI. -/
def front (l : RequestLine) : Bytes := l.method ++ sp :: l.gap

/-- What is behind it. -/
def back (l : RequestLine) : Bytes := l.close ++ l.version

/-- Where the pieces end. -/
structure Wf (l : RequestLine) : Prop where
  method : sp ∉ l.method
  gap : ∀ c ∈ l.gap, isBlank c = true ∧ c ≠ sp
  uri : trim l.uri = l.uri ∧ l.uri ≠ [] ∧ sp ∉ l.uri
  close : ∀ c ∈ l.close, isBlankOrCr c = true ∧ c ≠ sp
  version : l.version = [] ∨ ∃ v, l.version = sp :: v

variable {l : RequestLine}

/-- The line around its request-URI. -/
theorem text_eq (l : RequestLine) : l.text = l.front ++ l.uri ++ l.back := by
  simp [text, front, back]

/-- The words of a line, from the first blank to the second. -/
theorem find_word (a : Bytes) {b w r : Bytes} (hb : b = w ++ r) (hw : sp ∉ w)
    (hr : r = [] ∨ ∃ v, r = sp :: v) :
    (find (a ++ sp :: b) sp (a.length + 1)).getD (a ++ sp :: b).length - a.length - 1
      = w.length := by
  have hdrop : (a ++ sp :: b).drop (a.length + 1) = b := by
    rw [← List.singleton_append, ← List.append_assoc]
    exact List.drop_left' List.length_append
  have hfind : find (a ++ sp :: b) sp (a.length + 1)
      = (find b sp 0).map (· + (a.length + 1)) := by
    unfold find
    rw [hdrop, List.drop_zero]
    simp
  rw [hfind]
  obtain rfl | ⟨v, rfl⟩ := hr
  · rw [List.append_nil] at hb
    rw [hb, find_eq_none_iff.mpr hw]
    simp
  · rw [hb, find_append hw]
    simp
    omega

/-- The request-URI and the blanks around it. -/
theorem trim_word (h : l.Wf) (p : Ptr) :
    StringView.trim ⟨p, l.gap ++ l.uri ++ l.close⟩ = ⟨p.add l.gap.length, l.uri⟩ := by
  obtain ⟨huri, hne, -⟩ := h.uri
  have hfront : (l.gap ++ l.uri ++ l.close).takeWhile isBlank = l.gap := by
    obtain ⟨c, u, hu⟩ := List.exists_cons_of_ne_nil hne
    have hc : isBlank c = false := by
      refine (trim_eq_self_iff.mp huri).1 c ?_
      rw [hu]
      rfl
    rw [List.append_assoc, List.takeWhile_append_of_pos fun c hc => (h.gap c hc).1, hu,
      List.cons_append, List.takeWhile_cons_of_neg (by simp [hc]), List.append_nil]
  unfold StringView.trim
  dsimp only
  rw [hfront, trim_pad (fun c hc => (h.gap c hc).1) huri fun c hc => (h.close c hc).1]

/-- What `parse` reads off a line with a method and a word behind it. -/
theorem parseRequestLine_word {a w r : Bytes} (ha : sp ∉ a) (hw : sp ∉ w)
    (hr : r = [] ∨ ∃ v, r = sp :: v) (m : HmrSipMsg) (p : Ptr) :
    m.parseRequestLine ⟨p, a ++ sp :: (w ++ r)⟩
      = { m with
          isRequest := true
          method := .of ⟨p, a⟩
          requestUri := .of (StringView.trim ⟨p.add (a.length + 1), w⟩) } := by
  have hlen := find_word a (b := w ++ r) rfl hw hr
  unfold HmrSipMsg.parseRequestLine
  dsimp only
  rw [find_append ha]
  dsimp only
  rw [hlen, StringView.substr_left, StringView.substr_succ]

/-- **What `parse` reads off a request line.** -/
theorem parseRequestLine_eq (h : l.Wf) (m : HmrSipMsg) (p : Ptr) :
    m.parseRequestLine ⟨p, l.text⟩
      = { m with
          isRequest := true
          method := .of ⟨p, l.method⟩
          requestUri := .of ⟨p.add l.front.length, l.uri⟩ } := by
  have hword : sp ∉ l.gap ++ l.uri ++ l.close := by
    rw [List.mem_append, List.mem_append, not_or, not_or]
    exact ⟨⟨fun hm => (h.gap sp hm).2 rfl, h.uri.2.2⟩, fun hm => (h.close sp hm).2 rfl⟩
  have hfront : l.front.length = l.method.length + 1 + l.gap.length := by
    rw [front, List.length_append, List.length_cons]
    omega
  rw [text, parseRequestLine_word h.method hword h.version, trim_word h, Ptr.add_add, hfront]

/-- A line that is no status line is none with another request-URI either. -/
theorem isPrefixOf_text (l : RequestLine) (u : Bytes) :
    (txt "SIP/").isPrefixOf ({ l with uri := u } : RequestLine).text
      = (txt "SIP/").isPrefixOf l.text := by
  have hprefix : ∀ b : Bytes, txt "SIP/" <+: l.method ++ sp :: b ↔ txt "SIP/" <+: l.method := by
    intro b
    constructor
    · intro hp
      obtain hp | ⟨q, hq⟩ := List.prefix_or_prefix_of_prefix hp
        (List.prefix_append l.method (sp :: b))
      · exact hp
      · rw [← hq, List.prefix_append_right_inj] at hp
        obtain _ | ⟨c, q⟩ := q
        · rw [List.append_nil] at hq
          rw [hq]
        · obtain rfl := (List.cons_prefix_cons.mp hp).1
          have hmem : sp ∈ txt "SIP/" := by
            rw [← hq]
            exact List.mem_append_right _ List.mem_cons_self
          exact absurd hmem (by decide)
    · exact fun hp => hp.trans (List.prefix_append _ _)
  rw [Bool.eq_iff_iff, List.isPrefixOf_iff_prefix, List.isPrefixOf_iff_prefix, text, text,
    hprefix, hprefix]

/-- **Every request with a request-URI has a request line.** -/
theorem exists_requestLine {t : StringView} {m : HmrSipMsg} (hnone : m.requestUri = {})
    (huri : (m.parseRequestLine t).requestUri.text ≠ []) :
    ∃ l : RequestLine, l.Wf ∧ l.text = t.text := by
  obtain ⟨p, t⟩ := t
  obtain ⟨hno, hfind⟩ | ⟨a, b, rfl, ha, hfind⟩ := find_cases t sp
  · refine absurd ?_ huri
    unfold HmrSipMsg.parseRequestLine
    dsimp only
    rw [hfind]
    dsimp only
    rw [hnone]
  · obtain ⟨w, r, rfl, hw, hr⟩ : ∃ w r, b = w ++ r ∧ sp ∉ w ∧ (r = [] ∨ ∃ v, r = sp :: v) := by
      obtain ⟨hno, -⟩ | ⟨w, v, rfl, hw, -⟩ := find_cases b sp
      · exact ⟨b, [], (List.append_nil b).symm, hno, Or.inl rfl⟩
      · exact ⟨w, sp :: v, rfl, hw, Or.inr ⟨v, rfl⟩⟩
    rw [parseRequestLine_word ha hw hr] at huri
    have htrim : trim w ≠ [] := by
      intro hnil
      refine huri ?_
      show clip (trim w) = []
      rw [hnil]
      rfl
    -- the word is the request-URI with the blanks around it
    have hsplit : w.takeWhile isBlank ++ trim w ++ (w.dropWhile isBlank).rtakeWhile isBlankOrCr
        = w := by
      rw [List.append_assoc, trim, trimBy, List.rdropWhile_append_rtakeWhile,
        List.takeWhile_append_dropWhile]
    have hblank : ∀ c ∈ w, c ≠ sp := by
      rintro c hc rfl
      exact hw hc
    have hclose := (List.rtakeWhile_suffix isBlankOrCr (w.dropWhile isBlank)).trans
      (List.dropWhile_suffix isBlank)
    refine ⟨⟨a, w.takeWhile isBlank, trim w, (w.dropWhile isBlank).rtakeWhile isBlankOrCr, r⟩,
      ⟨ha, fun c hc => ?_, ⟨trim_trim w, htrim, fun hm => hw (mem_of_mem_trim hm)⟩,
        fun c hc => ?_, hr⟩, ?_⟩
    · exact ⟨List.mem_takeWhile_imp hc, hblank c ((List.takeWhile_prefix isBlank).subset hc)⟩
    · exact ⟨List.mem_rtakeWhile_imp hc, hblank c (hclose.subset hc)⟩
    · show a ++ sp :: (_ ++ trim w ++ _ ++ r) = _
      rw [hsplit]

/-- **With another request-URI it is a request line still**, on one line. -/
theorem exchange (h : l.Wf) (hline : OnLine l.text) {u : Bytes} (hu : OnLine u) (hne : u ≠ [])
    (hsp : sp ∉ u) :
    ({ l with uri := u } : RequestLine).Wf ∧ OnLine ({ l with uri := u } : RequestLine).text := by
  obtain ⟨htrim, hlf⟩ := hline
  rw [trim_eq_self_iff] at htrim
  obtain ⟨hhead, hlast⟩ := htrim
  have hmethod : l.method ≠ [] := by
    intro hnil
    rw [text, hnil] at hhead
    exact absurd (hhead sp rfl) (by decide)
  have htext : ({ l with uri := u } : RequestLine).text = l.front ++ u ++ l.back := text_eq _
  refine ⟨{ h with uri := ⟨hu.trimmed, hne, hsp⟩ }, trim_eq_self_iff.mpr ⟨?_, ?_⟩, ?_⟩
  · rw [text, List.head?_append_of_ne_nil _ hmethod] at hhead ⊢
    exact hhead
  · rw [text_eq] at hlast
    rw [htext]
    by_cases hback : l.back = []
    · rw [hback, List.append_nil, List.getLast?_append_of_ne_nil _ hne]
      exact (trim_eq_self_iff.mp hu.trimmed).2
    · rw [List.getLast?_append_of_ne_nil _ hback] at hlast ⊢
      exact hlast
  · rw [text_eq] at hlf
    rw [htext]
    simp only [List.mem_append, not_or] at hlf ⊢
    exact ⟨⟨hlf.1.1, hu.no_lf⟩, hlf.2⟩

end RequestLine

namespace HmrSipMsg

/-! ## The start line of a message -/

/-- The first line of a packet, trimmed. -/
def startOf (raw : Bytes) : Bytes := (lineSplit raw).elim [] fun p => trim p.1

/-- What is read off the first line is the same. -/
structure SameLine (m m' : HmrSipMsg) : Prop where
  startLine : m'.startLine = m.startLine
  method : m'.method = m.method
  requestUri : m'.requestUri = m.requestUri
  isRequest : m'.isRequest = m.isRequest

/-- It is the same in the same message. -/
theorem SameLine.refl (m : HmrSipMsg) : SameLine m m := ⟨rfl, rfl, rfl, rfl⟩

/-- And in one that comes of it in two steps. -/
theorem SameLine.trans {m m' m'' : HmrSipMsg} (h : SameLine m m') (h' : SameLine m' m'') :
    SameLine m m'' :=
  ⟨h'.startLine.trans h.startLine, h'.method.trans h.method, h'.requestUri.trans h.requestUri,
    h'.isRequest.trans h.isRequest⟩

/-- A header line is none of its business. -/
theorem sameLine_parseHeaderLine (m : HmrSipMsg) (line : StringView) :
    SameLine m (m.parseHeaderLine line) := by
  obtain ⟨_, _, hline⟩ := m.parseHeaderLine_eq line
  rw [hline]
  exact ⟨rfl, rfl, rfl, rfl⟩

/-- Nor are header lines, however many. -/
theorem sameLine_parseLines (raw : StringView) (fuel pos : Nat) (m : HmrSipMsg) :
    SameLine m (parseLines raw fuel pos false m) :=
  parseLines_invariant (fun m' line _ _ _ h => h.trans (m'.sameLine_parseHeaderLine line))
    (fun _ _ h => h.trans ⟨rfl, rfl, rfl, rfl⟩) fuel pos
    (fun h => absurd h Bool.false_ne_true) (SameLine.refl m)

/-- **The first line of a packet is what `parse` reads it off.** -/
theorem sameLine_parse (raw : Bytes) :
    SameLine {} (parse raw) ∨
      ∃ o, SameLine (parseFirst {} ⟨.addr .raw o, startOf raw⟩) (parse raw) := by
  unfold parse startOf
  rw [parseLines]
  obtain ⟨hn, hs⟩ | ⟨line, pos', l, r, hn, hs, rfl, -, -⟩ := nextLine_eq ⟨.addr .raw 0, raw⟩ 0
  · rw [hn]
    exact Or.inl (SameLine.refl {})
  · rw [List.drop_zero] at hs
    obtain ⟨o, hdata, -⟩ := (within_of_nextLine hn).trim
    rw [hn, hs]
    dsimp only
    rw [if_pos rfl]
    refine Or.inr ⟨o, ?_⟩
    have hline : line.trim = ⟨.addr .raw o, trim line.text⟩ := by
      rw [← hdata]
      rfl
    rw [Option.elim_some, ← hline]
    exact sameLine_parseLines _ _ _ _

/-- It has no line end in it. -/
theorem onLine_startOf (raw : Bytes) : OnLine (startOf raw) := by
  unfold startOf
  cases hs : lineSplit raw with
  | none => exact ⟨rfl, List.not_mem_nil⟩
  | some p => exact ⟨trim_trim p.1, fun hm => lf_not_mem_line hs (mem_of_mem_trim hm)⟩

variable {l : RequestLine}

/-- What a message with that first line, and nothing else, says. -/
theorem firstWire_requestLine (hl : l.Wf) (hsip : (txt "SIP/").isPrefixOf l.text = false) :
    firstWire l.text
      = { startLine := clip l.text
          method := clip l.method
          requestUri := clip l.uri } := by
  have heq := RequestLine.parseRequestLine_eq hl { startLine := .of (.ofBytes l.text) }
    (.addr .ext 0)
  unfold firstWire parseFirst
  dsimp only
  rw [StringView.ofBytes_text, if_neg (by rw [hsip]; exact Bool.false_ne_true)]
  unfold StringView.ofBytes at heq ⊢
  rw [heq]
  rfl

/-- **A text that begins with a request line is parsed as that request.** -/
theorem parse_requestLine (hl : l.Wf) (hline : OnLine l.text)
    (hsip : (txt "SIP/").isPrefixOf l.text = false) (rest : Bytes) :
    (parse (l.text ++ crlf ++ rest)).isRequest = true
      ∧ (parse (l.text ++ crlf ++ rest)).method.text = clip l.method
      ∧ (parse (l.text ++ crlf ++ rest)).requestUri.text = clip l.uri := by
  have hlf : lf ∉ l.text ++ [cr] := by
    rw [List.mem_append, List.mem_singleton, not_or]
    exact ⟨hline.no_lf, by decide⟩
  have htext : l.text ++ crlf ++ rest = (l.text ++ [cr]) ++ lf :: rest := by
    simp
  have hwire := parse_wire (l.text ++ crlf ++ rest)
  rw [htext, lineSplit_append hlf] at hwire
  dsimp only at hwire
  rw [trim_append_cr, hline.trimmed, ← htext, firstWire_requestLine hl hsip] at hwire
  exact ⟨congrArg Wire.isRequest hwire, congrArg Wire.method hwire,
    congrArg Wire.requestUri hwire⟩

end HmrSipMsg

end Hmr
