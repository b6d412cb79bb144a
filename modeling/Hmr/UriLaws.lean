import Hmr.UriShape

/-!
# What a rebuilt URI is split into

`rebuild_uri` puts a new component where the old one was, or where one belongs, and the
result is split again from scratch by whoever looks at it next. As long as the new text
has no delimiter in it, what comes out is what went in: the result is the shape of the
value with one component exchanged.

There is one place where it is not. A display name that is put in front of a value without
angle brackets stands where the scheme is looked for, and the splitter finds neither.

## Shapes

A value is cut up into a shape, and what a shape is split into is known (`UriShape`). So
each law is two things: the text that is spliced is that of the shape with another
component, and that shape is well formed still. The second is where the new text must have
no delimiter, and which delimiter does harm depends on the component
(`Uri.Shape.Wf.setHost` and so on). A component that is not there is inserted with the
delimiter that introduces it, and the shape with it is the same as the one with it
exchanged.

## Views and texts

What a component shows is a text, or nothing where its view is null (`Uri.shown`): a port
that is empty is not the same as no port. The laws are about what is shown, as the
addresses are others after a rebuild. Where there is no room for the rebuilt text nothing
is rebuilt, and the laws are about rebuilds that succeed.
-/

namespace Hmr

namespace Uri

/-- What a view shows; a null view shows nothing. -/
def shown (v : StringView) : Option Bytes := if v.data = .null then none else some v.text

/-- The component an element addresses. -/
def part (u : ParsedUri) : HmrUriElement → StringView
  | .whole => {}
  | .display => u.display
  | .user => u.user
  | .host => u.host
  | .port => u.port

/-- A byte that delimits nothing: none of `<`, `>`, `@`, `:`, `;`, `?`, a quote or
a blank. -/
def isPlain (c : UInt8) : Bool :=
  c != 60 && c != 62 && c != 64 && c != colon && c != 59 && c != 63 && c != 34 && !isBlank c

/-- **The laws of putting and getting**: the element is the new one, and
everything else is as it was. -/
structure PutGet (before after : ParsedUri) (element : HmrUriElement) (nv : Bytes) : Prop where
  put : shown (part after element) = some nv
  others : ∀ e, e ≠ element → shown (part after e) = shown (part before e)
  scheme : shown after.scheme = shown before.scheme
  tail : shown after.tail = shown before.tail

/-- What `rebuild_uri` makes, when there is room for it, is the spliced text, up
to the 32 bits its length has. -/
theorem rebuildUri_text {a : HmrArena} {value : StringView} {element : HmrUriElement}
    {nv : StringView} (h : (rebuildUri a value element nv).1.data ≠ .null) :
    (rebuildUri a value element nv).1.text = clip (spliced value element nv.text) := by
  unfold spliced
  cases hs : spliceOf value element with
  | none =>
    rw [rebuildUri_of_none hs] at h ⊢
    obtain ⟨hn, hd⟩ | ⟨-, -, hd⟩ | ⟨-, -, a', -, hd⟩ := a.dup_cases value
    · rw [hd, hn]
    · rw [hd] at h
      exact absurd rfl h
    · rw [hd]
  | some p =>
    cases ha : a.alloc (clip (p.apply value.text nv.text)).length with
    | none =>
      rw [rebuildUri_of_full hs ha] at h
      exact absurd rfl h
    | some da => rw [rebuildUri_of_alloc hs ha]

namespace Shape

variable {s : Shape} {nv : Bytes}

/-! ## What is shown of a shape -/

/-- The view of a component shows it. -/
@[simp] theorem shown_view (r : Region) (o : Nat) (t : Option Bytes) :
    shown (view (.addr r o) t) = t := by
  cases t with
  | none => rfl
  | some t => rfl

/-- The tail is shown if there is one. -/
theorem shown_tail (r : Region) (o : Nat) :
    shown (s.parsed (.addr r o)).tail = if s.tail = [] then none else some s.tail := by
  unfold parsed
  dsimp only
  split
  · rfl
  · rfl

/-- The text of the display name. -/
def displayText (d : Bytes) : Bytes := (displayView (.addr .ext 0) d).text

/-- A display name is shown without its quotes. -/
theorem shown_displayView (r : Region) (o : Nat) (d : Bytes) :
    shown (displayView (.addr r o) d) = some (displayText d) := by
  obtain ⟨a, x, b, -, hd, -⟩ := exists_display d
  unfold displayText
  rw [hd, hd]
  rfl

/-- It is what is in front of the `<`. -/
theorem shown_display (r : Region) (o : Nat) :
    shown (s.parsed (.addr r o)).display = s.lead.map displayText := by
  show shown (s.lead.elim {} (displayView (.addr r o))) = _
  cases s.lead with
  | none => rfl
  | some d => exact shown_displayView r o d

/-! ## Exchanging a component -/

/-- The characters of an address are those of its components, and their delimiters. -/
@[simp] theorem mem_address {c : UInt8} :
    c ∈ s.address ↔ c ∈ s.schemeText ∨ c ∈ s.userText ∨ c ∈ s.host ∨ c ∈ s.portText
      ∨ c ∈ s.tail := by
  simp [address, rest, hostport]

/-- So are those behind the user. -/
@[simp] theorem mem_hostport {c : UInt8} :
    c ∈ s.hostport ↔ c ∈ s.host ∨ c ∈ s.portText ∨ c ∈ s.tail := by
  simp [hostport]

/-- What a text without delimiters does not have. -/
theorem not_mem_of_plain (h : ∀ c ∈ nv, isPlain c = true) :
    60 ∉ nv ∧ 62 ∉ nv ∧ 64 ∉ nv ∧ colon ∉ nv ∧ (∀ c ∈ nv, isEnd c = false) := by
  refine ⟨fun hc => ?_, fun hc => ?_, fun hc => ?_, fun hc => ?_, fun c hc => ?_⟩
  · exact absurd (h _ hc) (by decide)
  · exact absurd (h _ hc) (by decide)
  · exact absurd (h _ hc) (by decide)
  · exact absurd (h _ hc) (by decide)
  · have hp := h c hc
    simp only [isPlain, Bool.and_eq_true, bne_iff_ne] at hp
    simp [isEnd, hp]

/-- A shape with another address keeps its form, if the address has no angle
bracket the old one did not have. -/
theorem Wf.of_address (h : s.Wf) (s' : Shape) (hlead : s'.lead = s.lead)
    (hclose : s'.close = s.close) (h60 : 60 ∈ s'.address → 60 ∈ s.address)
    (h62 : 62 ∈ s'.address → 62 ∈ s.address) :
    (∀ d, s'.lead = some d →
        60 ∉ d ∧ 62 ∉ s'.address ∧ (s'.close = [] ∨ ∃ r, s'.close = 62 :: r))
      ∧ (s'.lead = none → 60 ∉ s'.address ∧ s'.close = []) := by
  rw [hlead, hclose]
  refine ⟨fun d hd => ?_, fun hn => ?_⟩
  · obtain ⟨hd60, ha62, hcl⟩ := h.angled d hd
    exact ⟨hd60, fun hm => ha62 (h62 hm), hcl⟩
  · obtain ⟨ha60, hcl⟩ := h.bare hn
    exact ⟨fun hm => ha60 (h60 hm), hcl⟩

/-- **With another host** a shape is well formed. -/
theorem Wf.setHost (h : s.Wf) {c : Bytes} (hs : s.scheme = some c)
    (hnv : ∀ c ∈ nv, isPlain c = true) : ({ s with host := nv } : Shape).Wf := by
  obtain ⟨h60, h62, h64, hcolon, hend⟩ := not_mem_of_plain hnv
  have hmem : ∀ c ∉ nv, c ∈ ({ s with host := nv } : Shape).address → c ∈ s.address := by
    intro c hc hm
    rw [mem_address] at hm ⊢
    exact hm.imp_right (Or.imp_right fun hm => Or.inr (hm.resolve_left hc))
  obtain ⟨hangled, hbare⟩ := h.of_address { s with host := nv } rfl rfl (hmem 60 h60) (hmem 62 h62)
  exact { h with
    angled := hangled
    bare := hbare
    noScheme := fun hn => absurd (hs.symm.trans hn) (by simp)
    noUser := fun hu hm => by
      rw [mem_hostport] at hm
      exact h.noUser hu (mem_hostport.mpr (Or.inr (hm.resolve_left h64)))
    host := hend
    noPort := fun _ => hcolon }

/-- **With another user**, whether it had one or not, -/
theorem Wf.setUser (h : s.Wf) {c : Bytes} (hs : s.scheme = some c)
    (hnv : ∀ c ∈ nv, isPlain c = true) : ({ s with user := some nv } : Shape).Wf := by
  obtain ⟨h60, h62, h64, -, -⟩ := not_mem_of_plain hnv
  have hmem : ∀ c ∉ nv, c ≠ 64 → c ∈ ({ s with user := some nv } : Shape).address →
      c ∈ s.address := by
    intro c hc hne hm
    rw [mem_address] at hm ⊢
    refine hm.imp_right fun hm => Or.inr (hm.resolve_left fun hm => ?_)
    exact (List.mem_append.mp hm).elim hc fun hm => hne (List.mem_singleton.mp hm)
  obtain ⟨hangled, hbare⟩ := h.of_address { s with user := some nv } rfl rfl
    (hmem 60 h60 (by decide))
    (hmem 62 h62 (by decide))
  refine { h with
    angled := hangled
    bare := hbare
    noScheme := fun hn => absurd (hs.symm.trans hn) (by simp)
    user := ?_
    noUser := fun hu => (nomatch hu) }
  rintro u ⟨⟩
  exact h64

/-- **with another port**, whether it had one or not, -/
theorem Wf.setPort (h : s.Wf) {c : Bytes} (hs : s.scheme = some c)
    (hnv : ∀ c ∈ nv, isPlain c = true) : ({ s with port := some nv } : Shape).Wf := by
  obtain ⟨h60, h62, h64, hcolon, hend⟩ := not_mem_of_plain hnv
  have hport : ∀ c ∉ nv, c ≠ colon → c ∉ ({ s with port := some nv } : Shape).portText :=
    fun c hc hne hm => (List.mem_cons.mp hm).elim hne hc
  -- Another port brings no delimiter into the address but its colon, behind the host.
  have hmem : ∀ c ∉ nv, c ≠ colon → c ∈ ({ s with port := some nv } : Shape).address →
      c ∈ s.address := by
    intro c hc hne hm
    rw [mem_address] at hm ⊢
    exact hm.imp_right (Or.imp_right (Or.imp_right fun hm =>
      Or.inr (hm.resolve_left (hport c hc hne))))
  obtain ⟨hangled, hbare⟩ := h.of_address { s with port := some nv } rfl rfl
    (hmem 60 h60 (by decide))
    (hmem 62 h62 (by decide))
  refine { h with
    angled := hangled
    bare := hbare
    noScheme := fun hn => absurd (hs.symm.trans hn) (by simp)
    noUser := fun hu hm => ?_
    port := ?_
    noPort := fun hp => (nomatch hp) }
  · rw [mem_hostport] at hm
    refine h.noUser hu (mem_hostport.mpr (hm.imp_right fun hm => Or.inr ?_))
    exact hm.resolve_left (hport 64 h64 (by decide))
  · rintro p ⟨⟩
    exact ⟨hcolon, hend⟩

/-- **and with another display name**, if it had a place for one. -/
theorem Wf.setLead (h : s.Wf) {d d' : Bytes} (hl : s.lead = some d) (hd : 60 ∉ d') :
    ({ s with lead := some d' } : Shape).Wf := by
  refine { h with angled := ?_, bare := fun hn => (nomatch hn) }
  rintro x ⟨⟩
  exact ⟨hd, (h.angled d hl).2⟩

end Shape

/-! ## The laws -/

/-- A shape with one component exchanged is split into the exchanged component
and the others. -/
theorem putGet_of_shape {s s' : Shape} {r r' : Region} {o o' : Nat} {e : HmrUriElement}
    {nv : Bytes} (hput : shown (part (s'.parsed (.addr r' o')) e) = some nv)
    (hdisplay : e ≠ .display → s'.lead = s.lead) (huser : e ≠ .user → s'.user = s.user)
    (hhost : e ≠ .host → s'.host = s.host) (hport : e ≠ .port → s'.port = s.port)
    (hscheme : s'.scheme = s.scheme) (htail : s'.tail = s.tail) :
    PutGet (s.parsed (.addr r o)) (s'.parsed (.addr r' o')) e nv where
  put := hput
  others e' he := by
    cases e' with
    | whole => rfl
    | display =>
      show shown (s'.parsed _).display = shown (s.parsed _).display
      rw [Shape.shown_display, Shape.shown_display, hdisplay he.symm]
    | user =>
      show shown (Shape.view _ s'.user) = shown (Shape.view _ s.user)
      rw [huser he.symm]
      exact (Shape.shown_view _ _ _).trans (Shape.shown_view _ _ _).symm
    | host =>
      show some s'.host = some s.host
      rw [hhost he.symm]
    | port =>
      show shown (Shape.view _ s'.port) = shown (Shape.view _ s.port)
      rw [hport he.symm]
      exact (Shape.shown_view _ _ _).trans (Shape.shown_view _ _ _).symm
  scheme := by
    show shown (Shape.view _ s'.scheme) = shown (Shape.view _ s.scheme)
    rw [hscheme]
    exact (Shape.shown_view _ _ _).trans (Shape.shown_view _ _ _).symm
  tail := by
    rw [Shape.shown_tail, Shape.shown_tail, htail]

/-- Without a `<` there is no display name. -/
theorem display_of_bare {t : Bytes} (h : 60 ∉ t) (r : Region) (o : Nat) :
    shown (parseUri ⟨.addr r o, t⟩).display = none := by
  obtain ⟨s, hs, rfl⟩ := Shape.exists_shape t
  rw [Shape.parseUri_shape hs, Shape.shown_display]
  cases hl : s.lead with
  | none => rfl
  | some d =>
    refine absurd ?_ h
    simp [Shape.text, Shape.leadText, hl]

section
variable {s : Shape} {c nv : Bytes} (h : s.Wf) (r r' : Region) (o o' : Nat)
include h

/-- **The law for the user.** -/
theorem putGet_user (hc : s.scheme = some c) (hnv : ∀ c ∈ nv, isPlain c = true) :
    PutGet (s.parsed (.addr r o)) (parseUri ⟨.addr r' o', spliced ⟨.addr r o, s.text⟩ .user nv⟩)
      .user nv := by
  rw [Shape.spliced_user h, Shape.parseUri_shape (h.setUser hc hnv)]
  exact putGet_of_shape rfl (fun _ => rfl) (fun h => absurd rfl h) (fun _ => rfl)
    (fun _ => rfl) rfl rfl

/-- **The law for the host.** -/
theorem putGet_host (hc : s.scheme = some c) (hnv : ∀ c ∈ nv, isPlain c = true) :
    PutGet (s.parsed (.addr r o)) (parseUri ⟨.addr r' o', spliced ⟨.addr r o, s.text⟩ .host nv⟩)
      .host nv := by
  rw [Shape.spliced_host h, Shape.parseUri_shape (h.setHost hc hnv)]
  exact putGet_of_shape rfl (fun _ => rfl) (fun _ => rfl) (fun h => absurd rfl h)
    (fun _ => rfl) rfl rfl

/-- **The law for the port.** -/
theorem putGet_port (hc : s.scheme = some c) (hnv : ∀ c ∈ nv, isPlain c = true) :
    PutGet (s.parsed (.addr r o)) (parseUri ⟨.addr r' o', spliced ⟨.addr r o, s.text⟩ .port nv⟩)
      .port nv := by
  rw [Shape.spliced_port h, Shape.parseUri_shape (h.setPort hc hnv)]
  exact putGet_of_shape rfl (fun _ => rfl) (fun _ => rfl) (fun _ => rfl)
    (fun h => absurd rfl h) rfl rfl

/-- In front of the `<`, the name put where the old one was is the one found. -/
theorem putGet_display {d : Bytes} (hl : s.lead = some d) (hnv : ∀ c ∈ nv, isPlain c = true) :
    PutGet (s.parsed (.addr r o))
      (parseUri ⟨.addr r' o', spliced ⟨.addr r o, s.text⟩ .display nv⟩) .display nv := by
  obtain ⟨x, y, b, rfl, hd, hget⟩ := Shape.exists_display d
  obtain ⟨h60, -, -, -, -⟩ := Shape.not_mem_of_plain hnv
  have hlead : 60 ∉ x ++ nv ++ b := by
    have := (h.angled _ hl).1
    simp only [List.mem_append, not_or] at this ⊢
    exact ⟨⟨this.1.1, h60⟩, this.2⟩
  have hblank : ∀ c ∈ nv, isBlank c = false ∧ c ≠ 34 := fun c hc => by
    have := hnv c hc
    simp only [isPlain, Bool.and_eq_true, bne_iff_ne, Bool.not_eq_true'] at this
    exact ⟨this.2, this.1.2⟩
  rw [Shape.spliced_display h hl hd, Shape.parseUri_shape (h.setLead hl hlead)]
  refine putGet_of_shape ?_ (fun h => absurd rfl h) (fun _ => rfl) (fun _ => rfl)
    (fun _ => rfl) rfl rfl
  exact (Shape.shown_display _ _).trans (congrArg some (hget _ _ hblank))

/-- Without a `<`, the name put in front is not found. -/
theorem not_putGet_display (hl : s.lead = none) (hnv : ∀ c ∈ nv, isPlain c = true) :
    ¬ PutGet (s.parsed (.addr r o))
      (parseUri ⟨.addr r' o', spliced ⟨.addr r o, s.text⟩ .display nv⟩) .display nv := by
  intro hlaws
  obtain ⟨h60, -, -, -, -⟩ := Shape.not_mem_of_plain hnv
  obtain ⟨ha60, hclose⟩ := h.bare hl
  have hnone : 60 ∉ nv ++ sp :: s.text := by
    simp only [Shape.text, Shape.leadText, hl, hclose, Option.elim_none, List.nil_append,
      List.append_nil, List.mem_append, List.mem_cons, not_or]
    exact ⟨h60, by decide, ha60⟩
  have hput := hlaws.put
  rw [Shape.spliced_display_bare h hl] at hput
  exact absurd (hput.symm.trans (display_of_bare hnone _ _)) (by simp)

end

/-- **What a rebuild returns is a view of the spliced text.** -/
theorem sv_rebuildUri {a : HmrArena} {value nv : StringView} {e : HmrUriElement}
    (hfits : (spliced value e nv.text).length < 2 ^ 32)
    (hok : (rebuildUri a value e nv).1.data ≠ .null) :
    ∃ r o, (rebuildUri a value e nv).1.sv = ⟨.addr r o, spliced value e nv.text⟩ := by
  have htext := rebuildUri_text hok
  rw [clip_of_lt hfits] at htext
  cases hd : (rebuildUri a value e nv).1.data with
  | null => exact absurd hd hok
  | addr r o =>
    refine ⟨r, o, ?_⟩
    rw [HmrStr.sv, hd, htext, if_neg (by simp)]

/-- **The spliced text** has the component that was put, and all else as it was, for every
component but one: a display name put into a value without angle brackets is not
found. -/
theorem putGet_spliced {r : Region} {o : Nat} {v nv : Bytes} {e : HmrUriElement}
    (hscheme : (parseUri ⟨.addr r o, v⟩).scheme.data ≠ .null) (he : e ≠ .whole)
    (hnv : ∀ c ∈ nv, isPlain c = true) (r' : Region) (o' : Nat) :
    PutGet (parseUri ⟨.addr r o, v⟩) (parseUri ⟨.addr r' o', spliced ⟨.addr r o, v⟩ e nv⟩) e nv
      ↔ ¬ (e = .display ∧ (parseUri ⟨.addr r o, v⟩).angled = false) := by
  obtain ⟨s, hs, rfl⟩ := Shape.exists_shape v
  rw [Shape.parseUri_shape hs] at hscheme ⊢
  obtain ⟨c, hc⟩ : ∃ c, s.scheme = some c := by
    cases hsc : s.scheme with
    | some c => exact ⟨c, rfl⟩
    | none =>
      refine absurd ?_ hscheme
      show (Shape.view _ s.scheme).data = _
      rw [hsc]
      rfl
  -- By the element: each is exchanged in the shape, or inserted, but for a display name in
  -- front of a bare address.
  cases e with
  | whole => exact absurd rfl he
  | user => exact ⟨fun _ h => (nomatch h.1), fun _ => putGet_user hs _ _ _ _ hc hnv⟩
  | host => exact ⟨fun _ h => (nomatch h.1), fun _ => putGet_host hs _ _ _ _ hc hnv⟩
  | port => exact ⟨fun _ h => (nomatch h.1), fun _ => putGet_port hs _ _ _ _ hc hnv⟩
  | display =>
    have hangled : (s.parsed (.addr r o)).angled = s.lead.isSome := rfl
    rw [hangled]
    cases hl : s.lead with
    | none =>
      exact ⟨fun h => absurd h (not_putGet_display hs _ _ _ _ hl hnv),
        fun h => absurd ⟨rfl, rfl⟩ h⟩
    | some d => exact ⟨fun _ h => (nomatch h.2), fun _ => putGet_display hs _ _ _ _ hl hnv⟩

/-- **Putting a component and getting it back.** What is put is found again, the
scheme, the tail and the other components as they were, for every component but
one: a display name put into a value without angle brackets is not found. -/
theorem rebuildUri_putGet (a : HmrArena) (r : Region) (o : Nat) (v : Bytes)
    (e : HmrUriElement) (nv : StringView)
    (hscheme : (parseUri ⟨.addr r o, v⟩).scheme.data ≠ .null) (he : e ≠ .whole)
    (hnv : ∀ c ∈ nv.text, isPlain c = true)
    (hfits : (spliced ⟨.addr r o, v⟩ e nv.text).length < 2 ^ 32)
    (hok : (rebuildUri a ⟨.addr r o, v⟩ e nv).1.data ≠ .null) :
    PutGet (parseUri ⟨.addr r o, v⟩) (parseUri (rebuildUri a ⟨.addr r o, v⟩ e nv).1.sv) e nv.text
      ↔ ¬ (e = .display ∧ (parseUri ⟨.addr r o, v⟩).angled = false) := by
  obtain ⟨r', o', hview⟩ := sv_rebuildUri hfits hok
  rw [hview]
  exact putGet_spliced hscheme he hnv r' o'

/-- A port put into an address that had none. -/
theorem rebuildUri_putGet_port :
    PutGet (parseUri ⟨.addr .ext 0, txt "<sip:alice@example.com;lr>"⟩)
      (parseUri (rebuildUri .fresh ⟨.addr .ext 0, txt "<sip:alice@example.com;lr>"⟩ .port
        ⟨.addr .ext 0, txt "5070"⟩).1.sv) .port (txt "5070") :=
  (rebuildUri_putGet .fresh .ext 0 _ .port _ (by decide) (by decide) (by decide +kernel)
    (by decide) (by decide +kernel)).mpr (by decide)

/-- A display name put in front of a bare address is lost, and the scheme with
it. -/
theorem rebuildUri_display_bare :
    ¬ ∀ (a : HmrArena) (v : Bytes) (e : HmrUriElement) (nv : StringView), e ≠ .whole →
      (parseUri ⟨.addr .ext 0, v⟩).scheme.data ≠ .null → (∀ c ∈ nv.text, isPlain c = true) →
      (rebuildUri a ⟨.addr .ext 0, v⟩ e nv).1.data ≠ .null →
      PutGet (parseUri ⟨.addr .ext 0, v⟩)
        (parseUri (rebuildUri a ⟨.addr .ext 0, v⟩ e nv).1.sv) e nv.text := by
  intro h
  have hlaws := h .fresh (txt "sip:alice@example.com") .display ⟨.addr .ext 0, txt "Bob"⟩
    (by decide) (by decide) (by decide +kernel) (by decide +kernel)
  exact absurd hlaws.scheme (by decide)

end Uri

end Hmr
