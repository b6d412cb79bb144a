import Hmr.UriLaws

/-!
# Written URIs

A URI value is put together by somebody: a display name, a scheme, a user, a host, a port
and what follows, bare or in angle brackets. `Written` is such a value, with the alphabets
its parts have, and `Written.text` writes it down.

`parse_uri` looks for each delimiter by its first or last occurrence, and nothing hides a
delimiter from it: neither the quotes of a display name nor the brackets of an IPv6
address. A written value is read back as it was written exactly when no delimiter stands
where another one is looked for (`Written.Unambiguous`).

## Alphabets

The parts are taken to be made of what they may be made of. The name of a host has
letters, digits, dots and hyphens, and an address in brackets has colons besides; a port
has digits; a user has no `@` and no angle brackets; what follows begins with a semicolon
or a question mark. These alphabets are fields of `Written`, so that a value with other
parts cannot be written at all.

What is left are four delimiters that may stand in the wrong place: a `<` in a quoted
display name; the last colon of an IPv6 address, which is taken for that of a port unless
there is one; an `@` behind an address without a user; and an angle bracket behind the
address. The condition lists them, and where one of them is there, some component is read
back as another text.
-/

namespace Hmr

namespace Uri

open Value (isAlpha isDigit)

/-- A display name: none, a phrase of tokens, or a quoted text. -/
inductive Display
  | absent
  | phrase (t : Bytes)
  | quoted (t : Bytes)
  deriving DecidableEq, Repr

/-- A value without angle brackets, or with: then it may have a display name, and
header parameters behind the `>`. -/
inductive Form
  | bare
  | angled (display : Display) (params : Bytes)
  deriving DecidableEq, Repr

/-- A host: a name or an IPv4 address, or an IPv6 address in brackets. -/
inductive Host
  | name (t : Bytes)
  | ipv6 (t : Bytes)
  deriving DecidableEq, Repr

/-- The name itself. -/
def Display.text : Display → Bytes
  | absent => []
  | phrase t => t
  | quoted t => t

/-- The name as it stands in front of the `<`. -/
def Display.written : Display → Bytes
  | absent => []
  | phrase t => t ++ [sp]
  | quoted t => 34 :: (t ++ [34, sp])

/-- A phrase has no quotes and no `<`, and no blanks at its ends. A quoted text may
be anything. -/
def Display.Ok : Display → Prop
  | phrase t => t ≠ [] ∧ Shape.IsTrimmed t ∧ ∀ c ∈ t, c ≠ 60 ∧ c ≠ 34
  | _ => True

def Form.display : Form → Display
  | bare => .absent
  | angled d _ => d

def Host.text : Host → Bytes
  | name t => t
  | ipv6 t => 91 :: (t ++ [93])

/-- Letters, digits, hyphens and dots; in an IPv6 address, hexadecimal digits,
colons and dots. -/
def Host.Ok : Host → Prop
  | name t => ∀ c ∈ t, (isAlpha c || isDigit c || c == 45 || c == 46) = true
  | ipv6 t => colon ∈ t ∧ ∀ c ∈ t, (isAlpha c || isDigit c || c == colon || c == 46) = true

/-- **A written URI value.** -/
structure Written where
  form : Form := .bare
  scheme : Bytes
  user : Option Bytes := none
  host : Host
  port : Option Bytes := none
  tail : Bytes := []
  display_ok : form.display.Ok
  scheme_ok : isScheme scheme = true
  user_ok : ∀ u ∈ user, ∀ c ∈ u, c ≠ 64 ∧ c ≠ 60 ∧ c ≠ 62
  host_ok : host.Ok
  port_ok : ∀ p ∈ port, p ≠ [] ∧ ∀ c ∈ p, isDigit c = true
  tail_ok : tail = [] ∨ tail.head? = some 59 ∨ tail.head? = some 63

namespace Written

/-- The address. -/
def address (x : Written) : Bytes :=
  x.scheme ++ [colon] ++ x.user.elim [] (· ++ [64]) ++ x.host.text
    ++ x.port.elim [] (colon :: ·) ++ x.tail

/-- **The value as it is written.** -/
def text (x : Written) : Bytes :=
  match x.form with
  | .bare => x.address
  | .angled display params => display.written ++ [60] ++ x.address ++ [62] ++ params

/-- **The components are read back**; a display name or a tail that is absent
reads as empty. -/
structure ReadBack (x : Written) (u : ParsedUri) : Prop where
  display : u.display.text = x.form.display.text
  scheme : shown u.scheme = some x.scheme
  user : shown u.user = x.user
  host : shown u.host = some x.host.text
  port : shown u.port = x.port
  tail : u.tail.text = x.tail

/-- **No delimiter stands where another one is looked for**: no `<` in the display
name, no colon of an IPv6 address where the port's is looked for, no `@` in the
tail where the user's is looked for, no angle bracket in the tail where the one
around the address is looked for. -/
structure Unambiguous (x : Written) : Prop where
  display : 60 ∉ x.form.display.text
  port : ∀ t, x.host = .ipv6 t → x.port ≠ none
  user : x.user = none → 64 ∉ x.tail
  angled : x.form ≠ .bare → 62 ∉ x.tail
  bare : x.form = .bare → 60 ∉ x.tail

variable {x : Written}

/-- What the splitter is to find. -/
def shape (x : Written) : Shape where
  lead := match x.form with
    | .bare => none
    | .angled display _ => some display.written
  scheme := some x.scheme
  user := x.user
  host := x.host.text
  port := x.port
  tail := x.tail
  close := match x.form with
    | .bare => []
    | .angled _ params => 62 :: params

/-- The address of the value, as a shape. -/
@[simp] theorem shape_address (x : Written) : x.shape.address = x.address := by
  unfold Shape.address Shape.schemeText Shape.rest Shape.userText Shape.hostport Shape.portText
    address shape
  simp

/-- The text of the value, as a shape. -/
@[simp] theorem shape_text (x : Written) : x.shape.text = x.text := by
  unfold Shape.text Shape.leadText text
  rw [shape_address]
  unfold shape
  cases x.form with
  | bare => simp
  | angled d ps => simp

/-! ## The alphabets -/

/-- A byte of a class that has no delimiter is none. -/
theorem delimiters_of_class {P : UInt8 → Bool}
    (hP : P 60 = false ∧ P 62 = false ∧ P 64 = false ∧ P 59 = false ∧ P 63 = false)
    {t : Bytes} (ht : ∀ c ∈ t, P c = true) :
    60 ∉ t ∧ 62 ∉ t ∧ 64 ∉ t ∧ ∀ c ∈ t, isEnd c = false := by
  obtain ⟨h60, h62, h64, h59, h63⟩ := hP
  have hne : ∀ {d : UInt8}, P d = false → d ∉ t := fun hd hm =>
    absurd (ht _ hm) (by rw [hd]; exact Bool.false_ne_true)
  refine ⟨hne h60, hne h62, hne h64, fun c hc => ?_⟩
  have hc59 : c ≠ 59 := fun he => hne h59 (he ▸ hc)
  have hc63 : c ≠ 63 := fun he => hne h63 (he ▸ hc)
  have hc62 : c ≠ 62 := fun he => hne h62 (he ▸ hc)
  simp [isEnd, hc59, hc63, hc62]

/-- A host has neither brackets nor an `@`, and is not ended. -/
theorem host_plain (x : Written) :
    60 ∉ x.host.text ∧ 62 ∉ x.host.text ∧ 64 ∉ x.host.text
      ∧ ∀ c ∈ x.host.text, isEnd c = false := by
  refine delimiters_of_class (P := fun c => isAlpha c || isDigit c || c == 45 || c == 46
    || c == colon || c == 91 || c == 93) (by decide) fun c hc => ?_
  have hok := x.host_ok
  cases hh : x.host with
  | name t =>
    rw [hh] at hok hc
    have := hok c hc
    simp only [Bool.or_eq_true] at this ⊢
    tauto
  | ipv6 t =>
    rw [hh] at hok hc
    obtain rfl | hc := List.mem_cons.mp hc
    · decide
    · obtain hc | hc := List.mem_append.mp hc
      · have := hok.2 c hc
        simp only [Bool.or_eq_true] at this ⊢
        tauto
      · rw [List.mem_singleton.mp hc]
        decide

/-- Nor is a port. -/
theorem port_plain {p : Bytes} (hp : p ∈ x.port) :
    60 ∉ p ∧ 62 ∉ p ∧ 64 ∉ p ∧ ∀ c ∈ p, isEnd c = false :=
  delimiters_of_class (by decide) (x.port_ok p hp).2

/-- A port has no colon. -/
theorem colon_not_mem_port {p : Bytes} (hp : p ∈ x.port) : colon ∉ p :=
  fun h => absurd ((x.port_ok p hp).2 _ h) (by decide)

/-- A name has no colon, and an IPv6 address has one. -/
theorem colon_mem_host (x : Written) : colon ∈ x.host.text ↔ ∃ t, x.host = .ipv6 t := by
  have hok := x.host_ok
  cases hh : x.host with
  | name t =>
    rw [hh] at hok
    refine ⟨fun h => ?_, fun ⟨t, ht⟩ => (nomatch ht)⟩
    exact absurd (hok _ h) (by decide)
  | ipv6 t =>
    rw [hh] at hok
    exact ⟨fun _ => ⟨t, rfl⟩, fun _ =>
      List.mem_cons_of_mem _ (List.mem_append_left _ hok.1)⟩

/-- Where an angle bracket or an `@` can be in an address. -/
theorem mem_address_iff (x : Written) {c : UInt8} (hc : c = 60 ∨ c = 62) :
    c ∈ x.address ↔ c ∈ x.tail := by
  obtain ⟨hh60, hh62, -, -⟩ := host_plain x
  have hport : ∀ p ∈ x.port, c ∉ p := fun p hp h => by
    obtain ⟨h60, h62, -, -⟩ := port_plain hp
    obtain rfl | rfl := hc
    · exact h60 h
    · exact h62 h
  -- None of the parts in front of the tail may have an angle bracket.
  have hscheme : c ∉ x.scheme := fun h => by
    have hs := x.scheme_ok
    unfold isScheme at hs
    simp only [Bool.or_eq_true, beq_iff_eq] at hs
    obtain rfl | rfl := hc
    · obtain (hs | hs) | hs := hs <;> rw [hs] at h <;> exact absurd h (by decide)
    · obtain (hs | hs) | hs := hs <;> rw [hs] at h <;> exact absurd h (by decide)
  have huser : ∀ u ∈ x.user, c ∉ u := fun u hu h => by
    obtain ⟨-, h60, h62⟩ := x.user_ok u hu c h
    obtain rfl | rfl := hc
    · exact h60 rfl
    · exact h62 rfl
  have hhost : c ∉ x.host.text := by
    obtain rfl | rfl := hc
    · exact hh60
    · exact hh62
  obtain ⟨hcolon, hat⟩ : c ≠ colon ∧ c ≠ 64 := by
    obtain rfl | rfl := hc <;> decide
  have huserText : c ∉ x.user.elim [] (· ++ [64]) := by
    cases hu : x.user with
    | none => simp
    | some u => simpa using ⟨huser u hu, hat⟩
  have hportText : c ∉ x.port.elim [] (colon :: ·) := by
    cases hp : x.port with
    | none => simp
    | some p => simpa using ⟨hcolon, hport p hp⟩
  unfold address
  simp only [List.mem_append, List.mem_singleton, hscheme, hcolon, huserText, hhost, hportText,
    false_or]

/-! ## Reading back -/

/-- **An unambiguous value has its delimiters where they are looked for.** -/
theorem Unambiguous.wf (h : x.Unambiguous) : x.shape.Wf where
  angled d hd := by
    rw [shape_address]
    unfold shape at hd ⊢
    cases hf : x.form with
    | bare =>
      rw [hf] at hd
      cases hd
    | angled display params =>
      rw [hf] at hd
      have hdisplay : 60 ∉ display.text := by
        have := h.display
        rwa [hf] at this
      refine ⟨?_, fun hm => h.angled (by rw [hf]; simp)
        ((x.mem_address_iff (Or.inr rfl)).mp hm), Or.inr ⟨params, rfl⟩⟩
      rw [← Option.some.inj hd]
      cases display with
      | absent => exact List.not_mem_nil
      | phrase t => simpa [Display.written, Display.text, sp] using hdisplay
      | quoted t => simpa [Display.written, Display.text, sp] using hdisplay
  bare hl := by
    rw [shape_address]
    unfold shape at hl ⊢
    cases hf : x.form with
    | bare => exact ⟨fun hm => h.bare hf ((x.mem_address_iff (Or.inl rfl)).mp hm), rfl⟩
    | angled display params =>
      rw [hf] at hl
      cases hl
  scheme := by
    rintro c ⟨⟩
    exact x.scheme_ok
  noScheme hn := (nomatch hn)
  user u hu hm := (x.user_ok u hu _ hm).1 rfl
  noUser hu hm := by
    rw [Shape.mem_hostport] at hm
    obtain ⟨-, -, hhost, -⟩ := host_plain x
    refine h.user hu ((hm.resolve_left hhost).resolve_left fun hp => ?_)
    unfold Shape.portText shape at hp
    -- A port has digits only, so an `@` would have to be behind it.
    cases hport : x.port with
    | none =>
      rw [hport] at hp
      exact absurd hp List.not_mem_nil
    | some p =>
      rw [hport] at hp
      obtain hp | hp := List.mem_cons.mp hp
      · exact absurd hp (by decide)
      · exact (port_plain hport).2.2.1 hp
  host := (host_plain x).2.2.2
  port p hp := ⟨colon_not_mem_port hp, (port_plain hp).2.2.2⟩
  noPort hp hm := by
    obtain ⟨t, ht⟩ := x.colon_mem_host.mp hm
    exact h.port t ht hp
  tail := by
    obtain ht | ht | ht := x.tail_ok
    · exact Or.inl ht
    · obtain ⟨r, hr⟩ := List.head?_eq_some_iff.mp ht
      exact Or.inr ⟨59, r, hr, rfl⟩
    · obtain ⟨r, hr⟩ := List.head?_eq_some_iff.mp ht
      exact Or.inr ⟨63, r, hr, rfl⟩

/-- The name in front of the `<` is found without its quotes and blanks. -/
theorem displayView_written {d : Display} (hok : d.Ok) (p : Ptr) :
    (Shape.displayView p d.written).text = d.text := by
  have htrim : ∀ {t : Bytes}, Shape.IsTrimmed t → trimBlanks (t ++ [sp]) = t := by
    intro t ht
    exact Shape.trimBlanks_append (a := []) (by simp) ht (by simp [isBlank])
  unfold Shape.displayView
  cases d with
  | absent => rfl
  | phrase t =>
    obtain ⟨-, ht, hplain⟩ := hok
    show (unquote ⟨_, trimBlanks (t ++ [sp])⟩).text = t
    rw [htrim ht]
    exact congrArg StringView.text
      (if_neg fun h => (hplain 34 (List.mem_of_head? h.2.1)).2 rfl)
  | quoted t =>
    have hassoc : (34 :: (t ++ [34, sp]) : Bytes) = 34 :: (t ++ [34]) ++ [sp] := by simp
    show (unquote ⟨_, trimBlanks (34 :: (t ++ [34, sp]))⟩).text = t
    rw [hassoc, htrim (Shape.isTrimmed_quoted t), Shape.unquote_quoted]

/-- **An unambiguous value is read back.** -/
theorem Unambiguous.readBack (h : x.Unambiguous) (r : Region) (o : Nat) :
    x.ReadBack (parseUri ⟨.addr r o, x.text⟩) := by
  rw [← shape_text, Shape.parseUri_shape h.wf]
  refine ⟨?_, rfl, Shape.shown_view _ _ _, rfl, Shape.shown_view _ _ _, ?_⟩
  · show (x.shape.lead.elim {} (Shape.displayView (.addr r o))).text = _
    have hok := x.display_ok
    unfold shape
    cases hf : x.form with
    | bare => rfl
    | angled display params =>
      rw [hf] at hok
      exact displayView_written hok _
  · show (if x.tail = [] then ({} : StringView) else ⟨_, x.tail⟩).text = x.tail
    split
    · rename_i ht
      exact ht.symm
    · rfl

/-- The address that was read is the address that was written. -/
theorem ReadBack.address {s : Shape} {r : Region} {o : Nat}
    (h : x.ReadBack (s.parsed (.addr r o))) :
    s.user = x.user ∧ s.host = x.host.text ∧ s.port = x.port ∧ s.tail = x.tail
      ∧ s.address = x.address := by
  have hscheme : s.scheme = some x.scheme := (Shape.shown_view _ _ _).symm.trans h.scheme
  have huser : s.user = x.user := (Shape.shown_view _ _ _).symm.trans h.user
  have hhost : s.host = x.host.text := Option.some.inj h.host
  have hport : s.port = x.port := (Shape.shown_view _ _ _).symm.trans h.port
  have htail : s.tail = x.tail := by
    have := h.tail
    unfold Shape.parsed at this
    dsimp only at this
    split at this
    · rename_i ht
      rw [ht]
      exact this
    · exact this
  refine ⟨huser, hhost, hport, htail, ?_⟩
  unfold Shape.address Shape.schemeText Shape.rest Shape.userText Shape.hostport Shape.portText
    Written.address
  rw [hscheme, huser, hhost, hport, htail]
  simp

/-- **A value that is read back is unambiguous**: the splitter found the delimiters where they
were written. The value is taken in the shape in which it is split, and its components are those
that were written; so what a shape rules out of its components is ruled out of those. Where no
brackets were written the shape has none, since nothing is left of the value in front of the
address. -/
theorem ReadBack.unambiguous {r : Region} {o : Nat}
    (h : x.ReadBack (parseUri ⟨.addr r o, x.text⟩)) : x.Unambiguous := by
  obtain ⟨s, hs, htext⟩ := Shape.exists_shape x.text
  rw [← htext, Shape.parseUri_shape hs] at h
  obtain ⟨huser, hhost, hport, htail, haddress⟩ := h.address
  have hform : s.lead = none ↔ x.form = .bare := by
    cases hf : x.form with
    | bare =>
      -- nothing is left of the value in front of the address
      have hlen := congrArg List.length htext
      rw [Written.text, hf, Shape.text, haddress] at hlen
      cases hl : s.lead with
      | none => exact ⟨fun _ => rfl, fun _ => rfl⟩
      | some d =>
        rw [Shape.leadText, hl] at hlen
        simp at hlen
        omega
    | angled display params =>
      constructor
      · intro hl
        obtain ⟨h60, hclose⟩ := hs.bare hl
        have hmem : 60 ∈ s.text := by
          rw [htext, Written.text, hf]
          simp
        rw [Shape.text, Shape.leadText, hl, hclose] at hmem
        exact absurd (by simpa using hmem) h60
      · intro hbare
        cases hbare
  have hlead : x.form ≠ .bare → ∃ d, s.lead = some d := fun hf =>
    Option.ne_none_iff_exists'.mp fun hl => hf (hform.mp hl)
  refine {
    display := fun hm => ?_
    port := fun t ht hp => ?_
    user := fun hu hm => ?_
    angled := fun hf hm => ?_
    bare := fun hf hm => ?_ }
  · have hf : x.form ≠ .bare := by
      intro hf
      rw [hf] at hm
      exact absurd hm List.not_mem_nil
    obtain ⟨d, hd⟩ := hlead hf
    obtain ⟨a, y, b, hdy, hview, -⟩ := Shape.exists_display d
    have hdisplay : (s.lead.elim {} (Shape.displayView (.addr r o))).text = _ := h.display
    rw [hd, Option.elim_some, hview] at hdisplay
    rw [← hdisplay] at hm
    refine (hs.angled d hd).1 ?_
    rw [hdy]
    exact List.mem_append_left _ (List.mem_append_right _ hm)
  · exact hs.noPort (hport.trans hp) (hhost ▸ x.colon_mem_host.mpr ⟨t, ht⟩)
  · exact hs.noUser (huser.trans hu) (Shape.mem_hostport.mpr (Or.inr (Or.inr (htail ▸ hm))))
  · obtain ⟨d, hd⟩ := hlead hf
    exact (hs.angled d hd).2.1 (haddress ▸ (x.mem_address_iff (Or.inr rfl)).mpr hm)
  · exact (hs.bare (hform.mpr hf)).1 (haddress ▸ (x.mem_address_iff (Or.inl rfl)).mpr hm)

/-- **A written value is read back exactly when it is unambiguous.** -/
theorem parseUri_written (x : Written) (r : Region) (o : Nat) :
    x.ReadBack (parseUri ⟨.addr r o, x.text⟩) ↔ x.Unambiguous :=
  ⟨fun h => h.unambiguous, fun h => h.readBack r o⟩

/-- `sip:[2001:db8::1]`. -/
def bracketed : Written where
  form := .bare
  scheme := txt "sip"
  user := none
  host := .ipv6 (txt "2001:db8::1")
  port := none
  display_ok := trivial
  scheme_ok := rfl
  user_ok := fun _ hu => (nomatch hu)
  host_ok := ⟨by decide, by decide +kernel⟩
  port_ok := fun _ hp => (nomatch hp)
  tail_ok := Or.inl rfl

/-- **The last colon of an IPv6 address is taken for the port's.** -/
theorem parseUri_written_bracketed :
    ¬ ∀ x : Written, x.ReadBack (parseUri ⟨.addr .ext 0, x.text⟩) :=
  fun h => absurd (h bracketed).host (by decide)

end Written

end Uri

end Hmr
