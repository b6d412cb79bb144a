import Hmr.Arena
import Hmr.Lowering

/-!
# Splitting and rebuilding SIP URIs

`parse_uri` splits a header value

    [display] [<] (sip|sips|tel):user@host[:port][;params] [>] …

into views of its components. It goes from the left to the right, and each step takes
something off what is left: the display name and the angle bracket, the scheme, the user
up to the first `@`, the parameters from the first `;`, `?` or `>` on, and the port behind
the last colon (`Uri.addressOf` to `Uri.takeHostPort`). No step fails, so every text at
all has a reading, and in the worst case all of it is the host.

A component that is not there is a null view, which is different from an empty one: of
`sip:@b` the user is empty, and of `sip:b` there is none. Which of the two it is decides
what `rebuild_uri` does.

`rebuild_uri` replaces one component and leaves everything around it as it is. The source
does so by five copies, from the value, the new text and two literals, and the offsets of
the copies are differences of pointers into the value. Here these offsets and literals are
a `Splice`, found by `Uri.spliceOf`; what is copied is `Uri.Splice.apply`.

What is proved in this file is that all components are parts of the value
(`Uri.partsOf_parseUri`): nothing else can ever be read from them. What the parts are, for
the values one would write down, is in `Hmr.UriText` and `Hmr.UriShape`, and what
rebuilding does to them in `Hmr.UriLaws`.
-/

namespace Hmr

/-- The components of a URI, as views into the value it was read from. -/
structure ParsedUri where
  display : StringView := {}
  scheme : StringView := {}
  user : StringView := {}
  host : StringView := {}
  port : StringView := {}
  /-- What follows the host and port. -/
  tail : StringView := {}
  /-- The address stands in angle brackets. -/
  angled : Bool := false
  /-- Where the address starts in the value. -/
  addrStart : Nat := 0
  /-- Where its host and port end. -/
  addrEnd : Nat := 0
  deriving DecidableEq, Repr

/-- `rfind`: where `c` last occurs, found from the end. -/
def rfind (s : Bytes) (c : UInt8) : Option Nat :=
  (s.reverse.idxOf? c).map fun i => s.length - 1 - i

namespace Uri

/-- A pair of double quotes around the display name is dropped. -/
def unquote (v : StringView) : StringView :=
  if v.text.length ≥ 2 ∧ v.text.head? = some 34 ∧ v.text.getLast? = some 34 then
    v.substr 1 (v.text.length - 2)
  else v

/-- `sip`, `sips` or `tel`. -/
def isScheme (s : Bytes) : Bool := s == txt "sip" || s == txt "sips" || s == txt "tel"

/-- The address part of the value `s`, behind the display name: what stands
in angle brackets, up to the end if they are not closed. -/
def addressOf (s : StringView) : StringView × ParsedUri :=
  match find s.text 60 0 with
  | none => (s, {})
  | some lt =>
    let stop := (find s.text 62 (lt + 1)).getD s.text.length
    (s.substr (lt + 1) (stop - (lt + 1)),
      { display := unquote (s.substr 0 lt).trimBlanks, angled := true,
        addrStart := lt + 1 })

/-- The scheme of an address, and where the rest starts. -/
def schemeOf (s : StringView) : Option Nat :=
  match find s.text colon 0 with
  | none => none
  | some c => if isScheme (s.text.take c) then some c else none

/-- The scheme, and what follows it. -/
def takeScheme (s : StringView) (u : ParsedUri) : ParsedUri × StringView :=
  match schemeOf s with
  | none => (u, s)
  | some c => ({ u with scheme := s.substr 0 c }, s.substrFrom (c + 1))

/-- The user, if there is one, and what follows it. It ends at the first `@`, so a user with an
`@` in it is cut there. -/
def takeUser (rest : StringView) (u : ParsedUri) : ParsedUri × StringView :=
  match find rest.text 64 0 with
  | none => (u, rest)
  | some i => ({ u with user := rest.substr 0 i }, rest.substrFrom (i + 1))

/-- The host and port, and the parameters behind them. -/
def takeTail (hostport : StringView) (u : ParsedUri) : ParsedUri × StringView :=
  match hostport.text.findIdx? fun c => c == 59 || c == 63 || c == 62 with
  | none => (u, hostport)
  | some e => ({ u with tail := hostport.substrFrom e }, hostport.substr 0 e)

/-- The host, and the port behind the last colon. Of a bare IPv6 address this takes the last
group for the port. -/
def takeHostPort (hp : StringView) (u : ParsedUri) : ParsedUri :=
  match rfind hp.text colon with
  | none => { u with host := hp }
  | some c => { u with host := hp.substr 0 c, port := hp.substrFrom (c + 1) }

/-- **`parse_uri`.** -/
def parseUri (value : StringView) : ParsedUri :=
  let (s, u) := addressOf value
  let (u, rest) := takeScheme s u
  let (u, hostport) := takeUser rest u
  let (u, hp) := takeTail hostport u
  let u := takeHostPort hp u
  { u with
    addrEnd := u.addrStart + u.host.data.sub s.data + u.host.text.length
      + (if u.port.text.isEmpty then 0 else u.port.text.length + 1) }

/-- What `rebuild_uri` puts in place of `value[start, stop)`: `pre`, the new
value and `post`. -/
structure Splice where
  start : Nat
  stop : Nat
  pre : Bytes := []
  post : Bytes := []
  deriving DecidableEq, Repr

/-- The part of the value an element occupies, or where it is to be inserted;
`none` when there is no host to go by. -/
def spliceOf (value : StringView) (element : HmrUriElement) : Option Splice :=
  let u := parseUri value
  let off := fun part : StringView => part.data.sub value.data
  match element with
  | .user =>
    if u.user.data ≠ .null then
      some { start := off u.user, stop := off u.user + u.user.text.length }
    else if u.host.data ≠ .null then
      -- there is no user, and the new one goes in front of the host, with an `@`
      some { start := off u.host, stop := off u.host, post := [64] }
    else some { start := 0, stop := value.text.length }
  | .host =>
    if u.host.data ≠ .null then
      some { start := off u.host, stop := off u.host + u.host.text.length }
    else none
  | .port =>
    if u.port.data ≠ .null then
      some { start := off u.port, stop := off u.port + u.port.text.length }
    else if u.host.data ≠ .null then
      -- there is no port, and the new one goes behind the host, with a colon
      let behind := off u.host + u.host.text.length
      some { start := behind, stop := behind, pre := [colon] }
    else none
  | .display =>
    if u.display.data ≠ .null then
      some { start := off u.display, stop := off u.display + u.display.text.length }
    -- a new display name goes in front of everything, angle bracket or not
    else some { start := 0, stop := 0, post := [sp] }
  | .whole => some { start := 0, stop := value.text.length }

/-- The spliced text. -/
def Splice.apply (p : Splice) (value nv : Bytes) : Bytes :=
  value.take p.start ++ p.pre ++ nv ++ p.post ++ value.drop p.stop

/-- **`rebuild_uri`**: the spliced text in new arena space, or the null view
where there is no room for it. The pieces are copied one behind the other.

`total` counts them modulo `2 ^ 32`, and so many bytes are asked for and
returned. Of a text of `2 ^ 32` bytes or more the source copies all pieces all
the same, past the end of what it was granted, which has no result; here so much
of the text is written as was granted, and nothing is to be read off that. What
is said about rebuilt texts is said of shorter ones, or of an arena that refuses
them; the copies themselves are followed byte by byte in `Hmr.ArenaViews`. -/
def rebuildUri (a : HmrArena) (value : StringView) (element : HmrUriElement)
    (nv : StringView) : HmrStr × HmrArena :=
  match spliceOf value element with
  | none => a.dup value
  | some p =>
    let s := clip (p.apply value.text nv.text)
    match a.alloc s.length with
    | none => (HmrStr.empty, a)
    | some (dst, a') =>
      (⟨.addr .arena dst, s, clip_length_lt _⟩, a'.write dst s)

section
variable {a a' : HmrArena} {value nv : StringView} {element : HmrUriElement} {p : Splice}
  {dst : Nat}

/-- Without a host to go by, the value is copied as it is, -/
theorem rebuildUri_of_none (hp : spliceOf value element = none) :
    rebuildUri a value element nv = a.dup value := by
  rw [rebuildUri, hp]

/-- with one nothing is written into an arena without room, -/
theorem rebuildUri_of_full (hp : spliceOf value element = some p)
    (ha : a.alloc (clip (p.apply value.text nv.text)).length = none) :
    rebuildUri a value element nv = (HmrStr.empty, a) := by
  rw [rebuildUri, hp]
  dsimp only
  rw [ha]

/-- and the spliced text into one that has room for it. -/
theorem rebuildUri_of_alloc (hp : spliceOf value element = some p)
    (ha : a.alloc (clip (p.apply value.text nv.text)).length = some (dst, a')) :
    rebuildUri a value element nv
      = (⟨.addr .arena dst, clip (p.apply value.text nv.text), clip_length_lt _⟩,
        a'.write dst (clip (p.apply value.text nv.text))) := by
  rw [rebuildUri, hp]
  dsimp only
  rw [ha]

end

/-- The component `hmr_rt_uri_get` returns. -/
def component (value : HmrStr) (element : HmrUriElement) : HmrStr :=
  let u := parseUri value.sv
  match element with
  | .whole => value
  | .display => .of u.display
  | .user => .of u.user
  | .host => .of u.host
  | .port => .of u.port

/-! ## Components are parts of the value -/

/-- A piece of a view is a part of its text, -/
theorem substr_isPart (v : StringView) (pos n : Nat) : (v.substr pos n).text <:+: v.text :=
  (List.take_prefix _ _).isInfix.trans (List.drop_suffix _ _).isInfix

/-- and so is its end, -/
theorem substrFrom_isPart (v : StringView) (pos : Nat) : (v.substrFrom pos).text <:+: v.text :=
  (List.drop_suffix _ _).isInfix

/-- and a view without its quotes. -/
theorem unquote_isPart (v : StringView) : (unquote v).text <:+: v.text := by
  unfold unquote
  split
  · exact substr_isPart _ _ _
  · exact List.infix_rfl

/-- The components are parts of `t`. -/
structure PartsOf (t : Bytes) (u : ParsedUri) : Prop where
  display : u.display.text <:+: t
  user : u.user.text <:+: t
  host : u.host.text <:+: t
  port : u.port.text <:+: t

section
variable {t : Bytes} {u : ParsedUri} {s : StringView}

/-- The display name is a part of the value, and the address is. -/
theorem partsOf_addressOf (s : StringView) :
    PartsOf s.text (addressOf s).2 ∧ (addressOf s).1.text <:+: s.text := by
  unfold addressOf
  split
  · exact ⟨⟨List.nil_infix, List.nil_infix, List.nil_infix, List.nil_infix⟩,
      List.infix_rfl⟩
  · refine ⟨⟨?_, List.nil_infix, List.nil_infix, List.nil_infix⟩, substr_isPart _ _ _⟩
    exact (unquote_isPart _).trans ((trimBy_isInfix _).trans (substr_isPart _ _ _))

/-- The steps keep this: behind the scheme, what is left is a part; -/
theorem PartsOf.takeScheme (h : PartsOf t u) (hs : s.text <:+: t) :
    PartsOf t (takeScheme s u).1 ∧ (Uri.takeScheme s u).2.text <:+: t := by
  unfold Uri.takeScheme
  split
  · exact ⟨h, hs⟩
  · exact ⟨{ h with }, (substrFrom_isPart _ _).trans hs⟩

/-- the user is one, and what is left behind it; -/
theorem PartsOf.takeUser (h : PartsOf t u) (hs : s.text <:+: t) :
    PartsOf t (takeUser s u).1 ∧ (Uri.takeUser s u).2.text <:+: t := by
  unfold Uri.takeUser
  split
  · exact ⟨h, hs⟩
  · exact ⟨{ h with user := (substr_isPart _ _ _).trans hs },
      (substrFrom_isPart _ _).trans hs⟩

/-- what is in front of the parameters is one; -/
theorem PartsOf.takeTail (h : PartsOf t u) (hs : s.text <:+: t) :
    PartsOf t (takeTail s u).1 ∧ (Uri.takeTail s u).2.text <:+: t := by
  unfold Uri.takeTail
  split
  · exact ⟨h, hs⟩
  · exact ⟨{ h with }, (substr_isPart _ _ _).trans hs⟩

/-- and the host and the port are. -/
theorem PartsOf.takeHostPort (h : PartsOf t u) (hs : s.text <:+: t) :
    PartsOf t (takeHostPort s u) := by
  unfold Uri.takeHostPort
  split
  · exact { h with host := hs }
  · exact { h with
      host := (substr_isPart _ _ _).trans hs
      port := (substrFrom_isPart _ _).trans hs }

end

/-- **The components `parse_uri` finds are parts of the value.** -/
theorem partsOf_parseUri (value : StringView) : PartsOf value.text (parseUri value) := by
  -- The splitter takes the parts in this order, each from what the ones before have left.
  obtain ⟨h₁, hs₁⟩ := partsOf_addressOf value
  obtain ⟨h₂, hs₂⟩ := h₁.takeScheme hs₁
  obtain ⟨h₃, hs₃⟩ := h₂.takeUser hs₂
  obtain ⟨h₄, hs₄⟩ := h₃.takeTail hs₃
  have hend : ∀ (u : ParsedUri) (n : Nat), PartsOf value.text u →
      PartsOf value.text { u with addrEnd := n } :=
    fun u n h => ⟨h.display, h.user, h.host, h.port⟩
  exact hend _ _ (h₄.takeHostPort hs₄)

/-- So what `hmr_rt_uri_get` returns is a part of the header's value, whatever that is. -/
theorem component_isPart (value : HmrStr) (element : HmrUriElement) :
    (component value element).text <:+: value.text := by
  have h := partsOf_parseUri value.sv
  -- A component is cut to 32 bits, which leaves a part of it.
  have hclip : ∀ v : StringView, v.text <:+: value.text → (HmrStr.of v).text <:+: value.text :=
    fun v hv => (clip_isPrefix v.text).isInfix.trans hv
  unfold component
  cases element with
  | whole => exact List.infix_rfl
  | display => exact hclip _ h.display
  | user => exact hclip _ h.user
  | host => exact hclip _ h.host
  | port => exact hclip _ h.port

end Uri

end Hmr
