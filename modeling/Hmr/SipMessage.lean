import Hmr.Arena

/-!
# The message model

A parsed SIP message is a start line, a table of at most 32 headers and a body, all of
them views into the packet. Rewriting a header points its view into the arena, adding one
appends to the table, and deleting one only marks it: the entry stays where it is and is
skipped by every lookup and on output.

`parse` and `serialize` are the two ends of the wire.

The size of the table is a field of the type, so that a message with more headers than
that cannot be built. Parsing is lenient: there is no error, and a text that is no message
is one without headers. A line is ended by a line feed, and a carriage return in front of
it goes when the line is trimmed.

What is written out is put into the arena, piece by piece, where it is one view; a message
for which there is no room is not written out.
-/

namespace Hmr

/-- `HMR_MAX_HEADERS`. -/
def hmrMaxHeaders : Nat := 32

/-- An entry of the header table. -/
structure Header where
  name : HmrStr
  value : HmrStr
  /-- Deleted: kept in the table, skipped everywhere. -/
  removed : Bool := false
  deriving DecidableEq, Repr

/-- **`HmrSipMsg`.** The header array and its count are a list that cannot
outgrow the array. -/
structure HmrSipMsg where
  headers : List Header := []
  isRequest : Bool := true
  startLine : HmrStr := {}
  method : HmrStr := {}
  requestUri : HmrStr := {}
  statusCode : Nat := 0
  reasonPhrase : HmrStr := {}
  body : HmrStr := {}
  /-- The rewritten request-URI; null while it is unmodified. -/
  modRequestUri : HmrStr := {}
  headers_le : headers.length ≤ hmrMaxHeaders := by exact Nat.zero_le _
  deriving DecidableEq, Repr

namespace HmrSipMsg

/-! ## Header lookup and mutation -/

/-- An entry is live and has that name, up to case. -/
def matchesName (name : Bytes) (h : Header) : Bool :=
  !h.removed && iequals h.name.text name

/-- `find`: the first live entry of that name. -/
def find (m : HmrSipMsg) (name : Bytes) : Option Nat :=
  m.headers.findIdx? (matchesName name)

/-- `get_header`. -/
def getHeader (m : HmrSipMsg) (name : Bytes) : HmrStr :=
  match m.find name with
  | none => HmrStr.empty
  | some i => (m.headers[i]?.map Header.value).getD HmrStr.empty

/-- Point the value of an entry elsewhere. -/
def setValue (m : HmrSipMsg) (i : Nat) (v : HmrStr) : HmrSipMsg :=
  { m with
    headers := m.headers.modify i fun h => { h with value := v }
    headers_le := by rw [List.length_modify]; exact m.headers_le }

/-- Append an entry, if the table has room for it. -/
def push (m : HmrSipMsg) (h : Header) : Option HmrSipMsg :=
  if hlt : m.headers.length < hmrMaxHeaders then
    some { m with
      headers := m.headers ++ [h]
      headers_le := by rw [List.length_append]; exact hlt }
  else none

/-- **An entry that is appended** goes behind those there are, and nothing else changes. -/
theorem eq_of_push {m m' : HmrSipMsg} {h : Header} (hm : m.push h = some m') :
    ∃ hle, m' = { m with headers := m.headers ++ [h], headers_le := hle } := by
  unfold push at hm
  split at hm
  · exact ⟨_, (Option.some.inj hm).symm⟩
  · cases hm

/-- **`add_header`**: no room in the table, or in the arena for the name or
the value, and the table stays as it is. -/
def addHeader (m : HmrSipMsg) (a : HmrArena) (name value : StringView) :
    Bool × HmrSipMsg × HmrArena :=
  if hmrMaxHeaders ≤ m.headers.length then (false, m, a)
  else
    let (dn, a) := a.dup name
    if dn.data = .null ∧ name.text ≠ [] then (false, m, a)
    else
      let (dv, a) := a.dup value
      if dv.data = .null ∧ value.text ≠ [] then (false, m, a)
      else
        match m.push ⟨dn, dv, false⟩ with
        | none => (false, m, a)
        | some m => (true, m, a)

/-- **`set_header`**: rewrite the first live entry of that name, or append
one. The value is copied first, and a second time where an entry is
appended. -/
def setHeader (m : HmrSipMsg) (a : HmrArena) (name value : StringView) :
    Bool × HmrSipMsg × HmrArena :=
  let (dv, a) := a.dup value
  if dv.data = .null ∧ value.text ≠ [] then (false, m, a)
  else
    match m.find name.text with
    | some i => (true, m.setValue i dv, a)
    | none => m.addHeader a name value

/-- **`delete_header`**: mark every live entry of that name. -/
def deleteHeader (m : HmrSipMsg) (name : Bytes) : Bool × HmrSipMsg :=
  (m.headers.any (matchesName name),
    { m with
      headers := m.headers.map fun h =>
        if matchesName name h then { h with removed := true } else h
      headers_le := by rw [List.length_map]; exact m.headers_le })

/-! ## Parsing -/

/-- `next_line`: the line at the cursor, and the cursor behind it. The last
line need not be terminated. -/
def nextLine (raw : StringView) (pos : Nat) : Option (StringView × Nat) :=
  if raw.text.length ≤ pos then none
  else match Hmr.find raw.text lf pos with
    | none => some (raw.substrFrom pos, raw.text.length + 1)
    | some nl => some (raw.substr pos (nl - pos), nl + 1)

/-- The digits of a status code, modulo `2 ^ 32`. -/
def statusOf (code : Bytes) : Nat :=
  code.foldl (fun v c =>
    if 48 ≤ c ∧ c ≤ 57 then (v * 10 + (c.toNat - 48)) % 2 ^ 32 else v) 0

/-- The first line, trimmed, of a response: status code and reason. -/
def parseStatusLine (m : HmrSipMsg) (t : StringView) : HmrSipMsg :=
  match Hmr.find t.text sp 0 with
  | none => { m with isRequest := false }
  | some sp1 =>
    let sp2 := Hmr.find t.text sp (sp1 + 1)
    let code := t.substr (sp1 + 1) (sp2.getD t.text.length - sp1 - 1)
    { m with
      isRequest := false
      statusCode := statusOf code.text
      reasonPhrase := match sp2 with
        | none => m.reasonPhrase
        | some sp2 => .of (t.substrFrom (sp2 + 1)).trim }

/-- The first line, trimmed, of a request: method and request-URI. -/
def parseRequestLine (m : HmrSipMsg) (t : StringView) : HmrSipMsg :=
  match Hmr.find t.text sp 0 with
  | none => { m with isRequest := true }
  | some sp1 =>
    let sp2 := (Hmr.find t.text sp (sp1 + 1)).getD t.text.length
    { m with
      isRequest := true
      method := .of (t.substr 0 sp1)
      requestUri := .of (t.substr (sp1 + 1) (sp2 - sp1 - 1)).trim }

/-- The first line of a message. -/
def parseFirst (m : HmrSipMsg) (t : StringView) : HmrSipMsg :=
  let m := { m with startLine := .of t }
  if (txt "SIP/").isPrefixOf t.text then m.parseStatusLine t else m.parseRequestLine t

/-- **The first line writes its own fields**, and no other. -/
theorem parseFirst_eq (m : HmrSipMsg) (t : StringView) :
    ∃ request method uri code reason, m.parseFirst t = { m with
      startLine := .of t, isRequest := request, method := method, requestUri := uri
      statusCode := code, reasonPhrase := reason } := by
  unfold parseFirst
  dsimp only
  split
  · unfold parseStatusLine
    split
    · exact ⟨_, _, _, _, _, rfl⟩
    · exact ⟨_, _, _, _, _, rfl⟩
  · unfold parseRequestLine
    split
    · exact ⟨_, _, _, _, _, rfl⟩
    · exact ⟨_, _, _, _, _, rfl⟩

/-- It says its first line, -/
@[simp] theorem startLine_parseFirst (m : HmrSipMsg) (t : StringView) :
    (m.parseFirst t).startLine = .of t := by
  obtain ⟨_, _, _, _, _, hfirst⟩ := m.parseFirst_eq t
  rw [hfirst]

/-- adds no header, -/
@[simp] theorem headers_parseFirst (m : HmrSipMsg) (t : StringView) :
    (m.parseFirst t).headers = m.headers := by
  obtain ⟨_, _, _, _, _, hfirst⟩ := m.parseFirst_eq t
  rw [hfirst]

/-- sets no body, -/
@[simp] theorem body_parseFirst (m : HmrSipMsg) (t : StringView) :
    (m.parseFirst t).body = m.body := by
  obtain ⟨_, _, _, _, _, hfirst⟩ := m.parseFirst_eq t
  rw [hfirst]

/-- and overrides no request-URI. -/
@[simp] theorem modRequestUri_parseFirst (m : HmrSipMsg) (t : StringView) :
    (m.parseFirst t).modRequestUri = m.modRequestUri := by
  obtain ⟨_, _, _, _, _, hfirst⟩ := m.parseFirst_eq t
  rw [hfirst]

/-- A header line: its name and value go into the table while there is room;
a line without a colon is skipped. -/
def parseHeaderLine (m : HmrSipMsg) (line : StringView) : HmrSipMsg :=
  match Hmr.find line.text colon 0 with
  | none => m
  | some c =>
    let name := (line.substr 0 c).trim
    let value := (line.substrFrom (c + 1)).trim
    (m.push ⟨.of name, .of value, false⟩).getD m

/-- **A header line writes the table**, and nothing else. -/
theorem parseHeaderLine_eq (m : HmrSipMsg) (line : StringView) :
    ∃ hs hle, m.parseHeaderLine line = { m with headers := hs, headers_le := hle } := by
  unfold parseHeaderLine
  split
  · exact ⟨m.headers, m.headers_le, rfl⟩
  · dsimp only
    cases hm : m.push _ with
    | none => exact ⟨m.headers, m.headers_le, rfl⟩
    | some m' =>
      obtain ⟨hle, rfl⟩ := eq_of_push hm
      exact ⟨_, hle, rfl⟩

/-- It sets no body, -/
@[simp] theorem body_parseHeaderLine (m : HmrSipMsg) (line : StringView) :
    (m.parseHeaderLine line).body = m.body := by
  obtain ⟨_, _, hline⟩ := m.parseHeaderLine_eq line
  rw [hline]

/-- and overrides no request-URI. -/
@[simp] theorem modRequestUri_parseHeaderLine (m : HmrSipMsg) (line : StringView) :
    (m.parseHeaderLine line).modRequestUri = m.modRequestUri := by
  obtain ⟨_, _, hline⟩ := m.parseHeaderLine_eq line
  rw [hline]

/-- The line loop of `parse`. A line moves the cursor, so as many rounds as
there are bytes are enough. -/
def parseLines (raw : StringView) : Nat → Nat → Bool → HmrSipMsg → HmrSipMsg
  | 0, _, _, m => m
  | fuel + 1, pos, first, m =>
    match nextLine raw pos with
    | none => m
    | some (line, pos) =>
      let t := line.trim
      if first then parseLines raw fuel pos false (m.parseFirst t)
      else if t.text.isEmpty then
        -- the blank line: the rest is the body
        if pos ≤ raw.text.length then { m with body := .of (raw.substrFrom pos) } else m
      else parseLines raw fuel pos false (m.parseHeaderLine line)

/-- **What every line keeps holds of the message the loop ends with.** A loop that is behind the
first line reads none. -/
theorem parseLines_invariant {raw : StringView} {P : HmrSipMsg → Prop}
    (hheader : ∀ m line pos pos', nextLine raw pos = some (line, pos') → P m →
      P (m.parseHeaderLine line))
    (hbody : ∀ m pos, P m → P { m with body := .of (raw.substrFrom pos) }) (fuel pos : Nat)
    {first : Bool}
    (hfirst : first = true → ∀ m line pos pos', nextLine raw pos = some (line, pos') → P m →
      P (m.parseFirst line.trim))
    {m : HmrSipMsg} (hm : P m) : P (parseLines raw fuel pos first m) := by
  induction fuel generalizing pos first m with
  | zero => exact hm
  | succ fuel ih =>
    rw [parseLines]
    split
    · exact hm
    · rename_i line pos' hline
      dsimp only
      cases first with
      | true =>
        exact ih pos' (fun h => absurd h Bool.false_ne_true) (hfirst rfl m line pos pos' hline hm)
      | false =>
        rw [if_neg Bool.false_ne_true]
        split
        -- the blank line, at the end of the text or in front of a body
        · split
          · exact hbody m pos' hm
          · exact hm
        · exact ih pos' hfirst (hheader m line pos pos' hline hm)

/-- **`HmrSipMsg::parse`**, of a packet. -/
def parse (raw : Bytes) : HmrSipMsg :=
  parseLines ⟨.addr .raw 0, raw⟩ (raw.length + 1) 0 true {}

/-! ## Serialization -/

/-- `put`: append a text to the output, unless the arena is exhausted or has
been before. -/
def put (s : Bytes) (out : Bool × HmrArena) : Bool × HmrArena :=
  if !out.1 || s.isEmpty then out
  else match out.2.alloc (clip s).length with
    | none => (false, out.2)
    | some (p, a) => (true, a.write p (clip s))

/-- The first line: the start line, with the request-URI override spliced in
if there is one. -/
def firstLine (m : HmrSipMsg) : List Bytes :=
  if m.isRequest && m.modRequestUri.present && m.requestUri.present then
    let off := m.requestUri.data.sub m.startLine.data
    [m.startLine.text.take off, m.modRequestUri.text,
      m.startLine.text.drop (off + m.requestUri.text.length)]
  else [m.startLine.text]

/-- The texts `serialize` puts out, in order. -/
def pieces (m : HmrSipMsg) : List Bytes :=
  m.firstLine ++ [crlf]
    ++ (m.headers.filter (!·.removed)).flatMap
        (fun h => [h.name.text, txt ": ", h.value.text, crlf])
    ++ [crlf, m.body.text]

/-- The wire form of the message. -/
def rendered (m : HmrSipMsg) : Bytes := m.pieces.flatten

/-- **`serialize`**: the wire form, one piece after the other, in the arena;
a null view where it does not fit. -/
def serialize (m : HmrSipMsg) (a : HmrArena) : HmrStr × HmrArena :=
  let out := m.pieces.foldl (fun out s => put s out) (true, a)
  (if out.1 then
    HmrStr.of ⟨.addr .arena a.used, out.2.read a.used (out.2.used - a.used)⟩
  else HmrStr.empty, out.2)

end HmrSipMsg

end Hmr
