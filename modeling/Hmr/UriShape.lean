import Hmr.Uri

/-!
# The shape of a URI value

`parse_uri` looks for its delimiters one after the other, each in what the one before it
left: the first `<`, the first `>` behind it, the first colon, the first `@`, the first of
`;`, `?` and `>`, the last colon in front of that. What it makes of a value is therefore
one way of reading the value as a concatenation – the one in which no delimiter occurs
where it was not looked for.

`Shape` is such a reading. `Wf` says that the delimiters are where the splitter finds
them, and then the splitter finds the components of the shape (`parseUri_shape`). Every
value has a shape (`exists_shape`), so that whatever is to be known about splitting, or
about splitting what was rebuilt, is a question about concatenations.

Rebuilding is one, too. The offsets that `rebuild_uri` computes from pointers are lengths
of pieces of the shape, and the text that it sets out to make is the text of the shape
with one component exchanged (`Shape.spliced_host` and its like). Nothing is said there of
what the new component is: whether the shape is still well formed with it, and its text
therefore read as it was meant, is what the laws of `Hmr.UriLaws` are about.

The display name needs some care of its own. It is trimmed and unquoted, so what is found
in front of the `<` is not what is shown; `exists_display` finds the name in it, with what
stands on both sides.
-/

namespace Hmr

/-! ## The last occurrence of a byte -/

/-- The last `c` is the one behind which there is none. -/
theorem rfind_append {a b : Bytes} {c : UInt8} (h : c ∉ b) :
    rfind (a ++ c :: b) c = some a.length := by
  have hrev : (a ++ c :: b).reverse = b.reverse ++ c :: a.reverse := by simp
  have hidx : (b.reverse ++ c :: a.reverse).idxOf? c = some b.reverse.length := by
    have := find_append (a := b.reverse) (b := a.reverse) (c := c) (by simpa using h)
    simpa [find] using this
  rw [rfind, hrev, hidx, Option.map_some]
  simp

/-- Where there is no `c`, none is found. -/
theorem rfind_eq_none {s : Bytes} {c : UInt8} (h : c ∉ s) : rfind s c = none := by
  have hidx : s.reverse.idxOf? c = none := by simpa using h
  rw [rfind, hidx]
  rfl

/-- Every string either has no `c` or splits at its last one. -/
theorem exists_last (s : Bytes) (c : UInt8) : c ∉ s ∨ ∃ a b, s = a ++ c :: b ∧ c ∉ b := by
  obtain ⟨h, -⟩ | ⟨a, b, h, ha, -⟩ := find_cases s.reverse c
  · exact Or.inl (by simpa using h)
  · refine Or.inr ⟨b.reverse, a.reverse, ?_, by simpa using ha⟩
    rw [← List.reverse_reverse s, h]
    simp

namespace Uri

/-- A byte that ends the host and port. -/
abbrev isEnd (c : UInt8) : Bool := c == 59 || c == 63 || c == 62

/-- **A value read as a concatenation**: what stands in front of a `<`, the
scheme, the user, the host, the port, what follows it, and the `>` with what
follows that. -/
structure Shape where
  lead : Option Bytes := none
  scheme : Option Bytes := none
  user : Option Bytes := none
  host : Bytes := []
  port : Option Bytes := none
  tail : Bytes := []
  close : Bytes := []
  deriving DecidableEq, Repr

namespace Shape

/-- What stands in front of the address. -/
def leadText (s : Shape) : Bytes := s.lead.elim [] (· ++ [60])

/-- The scheme with its colon. -/
def schemeText (s : Shape) : Bytes := s.scheme.elim [] (· ++ [colon])

/-- The user with its `@`. -/
def userText (s : Shape) : Bytes := s.user.elim [] (· ++ [64])

/-- The port with its colon. -/
def portText (s : Shape) : Bytes := s.port.elim [] (colon :: ·)

/-- What follows the user. -/
def hostport (s : Shape) : Bytes := s.host ++ s.portText ++ s.tail

/-- What follows the scheme. -/
def rest (s : Shape) : Bytes := s.userText ++ s.hostport

/-- The address. -/
def address (s : Shape) : Bytes := s.schemeText ++ s.rest

/-- The value. -/
def text (s : Shape) : Bytes := s.leadText ++ s.address ++ s.close

/-- **No delimiter occurs where it is not looked for.** -/
structure Wf (s : Shape) : Prop where
  angled : ∀ d, s.lead = some d →
    60 ∉ d ∧ 62 ∉ s.address ∧ (s.close = [] ∨ ∃ r, s.close = 62 :: r)
  bare : s.lead = none → 60 ∉ s.address ∧ s.close = []
  scheme : ∀ c, s.scheme = some c → isScheme c = true
  noScheme : s.scheme = none → ∀ a b, s.rest = a ++ colon :: b → colon ∉ a →
    isScheme a = false
  user : ∀ u, s.user = some u → 64 ∉ u
  noUser : s.user = none → 64 ∉ s.hostport
  host : ∀ c ∈ s.host, isEnd c = false
  port : ∀ p, s.port = some p → colon ∉ p ∧ ∀ c ∈ p, isEnd c = false
  noPort : s.port = none → colon ∉ s.host
  tail : s.tail = [] ∨ ∃ c r, s.tail = c :: r ∧ isEnd c = true

/-- A component that may be missing, as a view. -/
def view (p : Ptr) : Option Bytes → StringView
  | none => {}
  | some t => ⟨p, t⟩

/-- The display name in front of the `<`. -/
def displayView (p : Ptr) (d : Bytes) : StringView := unquote (StringView.trimBlanks ⟨p, d⟩)

/-- **The components of a shape**, as views into the value at `p`. -/
def parsed (s : Shape) (p : Ptr) : ParsedUri :=
  let addr := s.leadText.length
  let user := addr + s.schemeText.length
  let host := user + s.userText.length
  let behind := host + s.host.length
  { display := s.lead.elim {} (displayView p)
    scheme := view (p.add addr) s.scheme
    user := view (p.add user) s.user
    host := ⟨p.add host, s.host⟩
    port := view (p.add (behind + 1)) s.port
    tail := if s.tail = [] then {} else ⟨p.add (behind + s.portText.length), s.tail⟩
    angled := s.lead.isSome
    addrStart := addr
    addrEnd := behind + (if (s.port.getD []).isEmpty then 0 else (s.port.getD []).length + 1) }

end Shape

/-! ## What each step of the splitter finds -/

/-- Without a `<` the address is the whole value. -/
theorem addressOf_none {t : Bytes} (h : 60 ∉ t) (p : Ptr) :
    addressOf ⟨p, t⟩ = (⟨p, t⟩, {}) := by
  unfold addressOf
  dsimp only
  rw [find_eq_none_iff.mpr h]

/-- With one, it is what stands up to the first `>`, or up to the end. -/
theorem addressOf_some {d a r : Bytes} (hd : 60 ∉ d) (ha : 62 ∉ a)
    (hr : r = [] ∨ ∃ r', r = 62 :: r') (p : Ptr) :
    addressOf ⟨p, d ++ 60 :: (a ++ r)⟩ = (⟨p.add (d.length + 1), a⟩,
      { display := Shape.displayView p d, angled := true, addrStart := d.length + 1 }) := by
  have hdrop : (d ++ 60 :: (a ++ r)).drop (d.length + 1) = a ++ r := by
    rw [← List.drop_drop, List.drop_left]
    rfl
  have hstop : (find (d ++ 60 :: (a ++ r)) 62 (d.length + 1)).getD
      (d ++ 60 :: (a ++ r)).length - (d.length + 1) = a.length := by
    unfold find
    rw [hdrop]
    obtain rfl | ⟨r', rfl⟩ := hr
    · have hn : (a ++ []).idxOf? 62 = none := by simpa using ha
      rw [hn]
      simp
      omega
    · have hs := find_append (b := r') ha
      rw [find, List.drop_zero] at hs
      obtain ⟨i, hi, hia⟩ := Option.map_eq_some_iff.mp hs
      rw [hi]
      simp at hia ⊢
      omega
  unfold addressOf
  dsimp only
  rw [find_append hd]
  dsimp only
  rw [hstop, StringView.substr_succ, StringView.substr_left]
  rfl

/-- No scheme has a colon in it. -/
theorem colon_not_mem_scheme {c : Bytes} (h : isScheme c = true) : colon ∉ c := by
  unfold isScheme at h
  simp only [Bool.or_eq_true, beq_iff_eq] at h
  obtain (rfl | rfl) | rfl := h <;> decide

/-- A scheme with a colon behind it is taken off. -/
theorem takeScheme_some {c r : Bytes} (h : isScheme c = true) (p : Ptr) (u : ParsedUri) :
    takeScheme ⟨p, c ++ colon :: r⟩ u
      = ({ u with scheme := ⟨p, c⟩ }, ⟨p.add (c.length + 1), r⟩) := by
  have hs : schemeOf ⟨p, c ++ colon :: r⟩ = some c.length := by
    unfold schemeOf
    dsimp only
    rw [find_append (colon_not_mem_scheme h)]
    dsimp only
    rw [List.take_left, if_pos h]
  unfold takeScheme
  rw [hs]
  dsimp only
  rw [StringView.substr_left, StringView.substrFrom_succ]

/-- Where what stands before the first colon is no scheme, nothing is. -/
theorem takeScheme_none {r : Bytes}
    (h : ∀ a b, r = a ++ colon :: b → colon ∉ a → isScheme a = false) (p : Ptr)
    (u : ParsedUri) : takeScheme ⟨p, r⟩ u = (u, ⟨p, r⟩) := by
  have hs : schemeOf ⟨p, r⟩ = none := by
    unfold schemeOf
    dsimp only
    obtain ⟨-, hf⟩ | ⟨a, b, hab, ha, hf⟩ := find_cases r colon
    · rw [hf]
    · rw [hf]
      dsimp only
      rw [hab, List.take_left, h a b hab ha]
      rfl
  unfold takeScheme
  rw [hs]

/-- A user with an `@` behind it is taken off, -/
theorem takeUser_some {v r : Bytes} (h : 64 ∉ v) (p : Ptr) (u : ParsedUri) :
    takeUser ⟨p, v ++ 64 :: r⟩ u
      = ({ u with user := ⟨p, v⟩ }, ⟨p.add (v.length + 1), r⟩) := by
  unfold takeUser
  dsimp only
  rw [find_append h]
  dsimp only
  rw [StringView.substr_left, StringView.substrFrom_succ]

/-- and where there is no `@`, there is no user. -/
theorem takeUser_none {r : Bytes} (h : 64 ∉ r) (p : Ptr) (u : ParsedUri) :
    takeUser ⟨p, r⟩ u = (u, ⟨p, r⟩) := by
  unfold takeUser
  dsimp only
  rw [find_eq_none_iff.mpr h]

/-- Nothing ends the host and port but the end, -/
theorem takeTail_nil {r : Bytes} (h : ∀ c ∈ r, isEnd c = false) (p : Ptr) (u : ParsedUri) :
    takeTail ⟨p, r⟩ u = (u, ⟨p, r⟩) := by
  have hf : r.findIdx? isEnd = none := List.findIdx?_eq_none_iff.mpr h
  unfold takeTail
  dsimp only
  rw [show r.findIdx? (fun c => c == 59 || c == 63 || c == 62) = none from hf]

/-- or it is the first byte that ends them. -/
theorem takeTail_cons {r : Bytes} (h : ∀ c ∈ r, isEnd c = false) {c : UInt8} {t : Bytes}
    (hc : isEnd c = true) (p : Ptr) (u : ParsedUri) :
    takeTail ⟨p, r ++ c :: t⟩ u
      = ({ u with tail := ⟨p.add r.length, c :: t⟩ }, ⟨p, r⟩) := by
  have hf : (r ++ c :: t).findIdx? isEnd = some r.length := by
    rw [List.findIdx?_append, List.findIdx?_eq_none_iff.mpr h, List.findIdx?_cons, if_pos hc]
    simp
  unfold takeTail
  dsimp only
  rw [show (r ++ c :: t).findIdx? (fun c => c == 59 || c == 63 || c == 62) = _ from hf]
  dsimp only
  rw [StringView.substr_left, StringView.substrFrom_left]

/-- Without a colon there is no port, -/
theorem takeHostPort_none {h : Bytes} (hc : colon ∉ h) (p : Ptr) (u : ParsedUri) :
    takeHostPort ⟨p, h⟩ u = { u with host := ⟨p, h⟩ } := by
  unfold takeHostPort
  dsimp only
  rw [rfind_eq_none hc]

/-- and with one, the port is behind the last. -/
theorem takeHostPort_some {h t : Bytes} (hc : colon ∉ t) (p : Ptr) (u : ParsedUri) :
    takeHostPort ⟨p, h ++ colon :: t⟩ u
      = { u with host := ⟨p, h⟩, port := ⟨p.add (h.length + 1), t⟩ } := by
  unfold takeHostPort
  dsimp only
  rw [rfind_append hc]
  dsimp only
  rw [StringView.substr_left, StringView.substrFrom_succ]

namespace Shape

variable {s : Shape}

/-- The steps of the splitter, on the text of a well-formed shape: the address, -/
theorem addressOf_text (h : s.Wf) (p : Ptr) :
    addressOf ⟨p, s.text⟩ = (⟨p.add s.leadText.length, s.address⟩,
      { display := s.lead.elim {} (displayView p), angled := s.lead.isSome,
        addrStart := s.leadText.length }) := by
  unfold text leadText
  cases hl : s.lead with
  | none =>
    obtain ⟨h60, hclose⟩ := h.bare hl
    rw [hclose, List.append_nil, Option.elim_none, List.nil_append, List.length_nil,
      Ptr.add_zero]
    exact addressOf_none h60 p
  | some d =>
    obtain ⟨h60, h62, hclose⟩ := h.angled d hl
    have hassoc : d ++ [60] ++ s.address ++ s.close = d ++ 60 :: (s.address ++ s.close) := by
      simp
    show addressOf ⟨p, d ++ [60] ++ s.address ++ s.close⟩ = _
    rw [hassoc, addressOf_some h60 h62 hclose]
    simp

/-- the scheme, -/
theorem takeScheme_address (h : s.Wf) (p : Ptr) (u : ParsedUri) (hu : u.scheme = {}) :
    takeScheme ⟨p, s.address⟩ u
      = ({ u with scheme := view p s.scheme }, ⟨p.add s.schemeText.length, s.rest⟩) := by
  unfold address schemeText
  cases hs : s.scheme with
  | none =>
    rw [Option.elim_none, List.nil_append, List.length_nil, Ptr.add_zero,
      show view p none = u.scheme from hu.symm]
    exact takeScheme_none (h.noScheme hs) p u
  | some c =>
    have hassoc : c ++ [colon] ++ s.rest = c ++ colon :: s.rest := by simp
    show takeScheme ⟨p, c ++ [colon] ++ s.rest⟩ u = _
    rw [hassoc, takeScheme_some (h.scheme c hs)]
    simp [view]

/-- the user, -/
theorem takeUser_rest (h : s.Wf) (p : Ptr) (u : ParsedUri) (hu : u.user = {}) :
    takeUser ⟨p, s.rest⟩ u
      = ({ u with user := view p s.user }, ⟨p.add s.userText.length, s.hostport⟩) := by
  unfold rest userText
  cases hs : s.user with
  | none =>
    rw [Option.elim_none, List.nil_append, List.length_nil, Ptr.add_zero,
      show view p none = u.user from hu.symm]
    exact takeUser_none (h.noUser hs) p u
  | some v =>
    have hassoc : v ++ [64] ++ s.hostport = v ++ 64 :: s.hostport := by simp
    show takeUser ⟨p, v ++ [64] ++ s.hostport⟩ u = _
    rw [hassoc, takeUser_some (h.user v hs)]
    simp [view]

/-- No byte of the host and port ends them. -/
theorem Wf.hostPart (h : s.Wf) : ∀ c ∈ s.host ++ s.portText, isEnd c = false := by
  intro c hc
  unfold portText at hc
  cases hp : s.port with
  | none =>
    rw [hp] at hc
    exact h.host c (by simpa using hc)
  | some t =>
    rw [hp] at hc
    obtain hc | hc := List.mem_append.mp hc
    · exact h.host c hc
    · obtain rfl | hc := List.mem_cons.mp hc
      · rfl
      · exact (h.port t hp).2 c hc

/-- what follows the port, with the `>` where the address is open, -/
theorem takeTail_hostport (h : s.Wf) (p : Ptr) (u : ParsedUri) (hu : u.tail = {}) :
    takeTail ⟨p, s.hostport⟩ u
      = ({ u with tail :=
          if s.tail = [] then {} else ⟨p.add (s.host ++ s.portText).length, s.tail⟩ },
        ⟨p, s.host ++ s.portText⟩) := by
  unfold hostport
  obtain ht | ⟨c, r, ht, hc⟩ := h.tail
  · rw [ht, if_pos rfl, ← hu, List.append_nil]
    exact takeTail_nil h.hostPart p u
  · rw [ht, if_neg (by simp), takeTail_cons h.hostPart hc]

/-- and the host and the port. -/
theorem takeHostPort_hostPart (h : s.Wf) (p : Ptr) (u : ParsedUri) (hu : u.port = {}) :
    takeHostPort ⟨p, s.host ++ s.portText⟩ u
      = { u with host := ⟨p, s.host⟩, port := view (p.add (s.host.length + 1)) s.port } := by
  unfold portText
  cases hp : s.port with
  | none =>
    rw [Option.elim_none, List.append_nil, show view _ none = u.port from hu.symm]
    exact takeHostPort_none (h.noPort hp) p u
  | some t => exact takeHostPort_some (h.port t hp).1 p u

/-- **The splitter finds the components of the shape.** -/
theorem parseUri_shape (h : s.Wf) (r : Region) (o : Nat) :
    parseUri ⟨.addr r o, s.text⟩ = s.parsed (.addr r o) := by
  unfold parseUri
  rw [addressOf_text h]
  dsimp only
  rw [takeScheme_address h _ _ rfl]
  dsimp only
  rw [takeUser_rest h _ _ rfl]
  dsimp only
  rw [takeTail_hostport h _ _ rfl]
  dsimp only
  rw [takeHostPort_hostPart h _ _ rfl]
  have hport : ∀ q : Ptr, (view q s.port).text = s.port.getD [] := by
    intro q
    cases s.port with
    | none => rfl
    | some t => rfl
  dsimp only
  rw [hport]
  unfold parsed
  simp only [Ptr.add, Ptr.sub, List.length_append, Nat.add_assoc]
  rw [show ∀ a b, o + (a + b) - (o + a) = b from fun a b => by omega]
  simp only [Nat.add_assoc]

/-! ## Every value has a shape -/

/-- What follows the user. -/
theorem exists_hostport (t : Bytes) :
    ∃ s : Shape, s.hostport = t ∧ (∀ c ∈ s.host, isEnd c = false)
      ∧ (∀ p, s.port = some p → colon ∉ p ∧ ∀ c ∈ p, isEnd c = false)
      ∧ (s.port = none → colon ∉ s.host)
      ∧ (s.tail = [] ∨ ∃ c r, s.tail = c :: r ∧ isEnd c = true) := by
  have hsplit := List.takeWhile_append_dropWhile (p := fun c => !isEnd c) (l := t)
  have hpart : ∀ c ∈ t.takeWhile fun c => !isEnd c, isEnd c = false := fun c hc => by
    simpa using List.mem_takeWhile_imp hc
  have htail : t.dropWhile (fun c => !isEnd c) = []
      ∨ ∃ c r, t.dropWhile (fun c => !isEnd c) = c :: r ∧ isEnd c = true := by
    cases hd : t.dropWhile fun c => !isEnd c with
    | nil => exact Or.inl rfl
    | cons c r =>
      have hc := List.head?_dropWhile_not (fun c => !isEnd c) t
      rw [hd] at hc
      exact Or.inr ⟨c, r, rfl, by simpa [isEnd, or_assoc, imp_iff_not_or] using hc⟩
  obtain hn | ⟨a, b, hab, hb⟩ := exists_last (t.takeWhile fun c => !isEnd c) colon
  · refine ⟨{ host := t.takeWhile fun c => !isEnd c, tail := t.dropWhile fun c => !isEnd c },
      ?_, hpart, fun p hp => (nomatch hp), fun _ => hn, htail⟩
    show _ ++ [] ++ _ = t
    rw [List.append_nil, hsplit]
  · rw [hab] at hpart
    refine ⟨{ host := a, port := some b, tail := t.dropWhile fun c => !isEnd c }, ?_,
      fun c hc => hpart c (List.mem_append_left _ hc), ?_, fun hp => (nomatch hp), htail⟩
    · show a ++ colon :: b ++ _ = t
      rw [← hab, hsplit]
    · rintro p ⟨⟩
      exact ⟨hb, fun c hc => hpart c (List.mem_append_right _ (List.mem_cons_of_mem _ hc))⟩

/-- **Every value has a shape.** It is found as the splitter finds it: first the address out of
the brackets, then the scheme up to the first colon, the user up to the first `@`, and of what is
left the host, the port and the tail; each is there or not, and what is not there has left no
delimiter. -/
theorem exists_shape (t : Bytes) : ∃ s : Shape, s.Wf ∧ s.text = t := by
  -- the address, out of the brackets
  obtain ⟨lead, addr, close, ht, hangled, hbare⟩ : ∃ (lead : Option Bytes) (addr close : Bytes),
      lead.elim [] (· ++ [60]) ++ addr ++ close = t
        ∧ (∀ d, lead = some d → 60 ∉ d ∧ 62 ∉ addr ∧ (close = [] ∨ ∃ r, close = 62 :: r))
        ∧ (lead = none → 60 ∉ addr ∧ close = []) := by
    obtain ⟨hn, -⟩ | ⟨d, b, rfl, hd, -⟩ := find_cases t 60
    · exact ⟨none, t, [], by simp, fun d hd => (nomatch hd), fun _ => ⟨hn, rfl⟩⟩
    · obtain ⟨hn, -⟩ | ⟨a, r, rfl, ha, -⟩ := find_cases b 62
      · refine ⟨some d, b, [], by simp, ?_, fun hl => (nomatch hl)⟩
        rintro d' ⟨⟩
        exact ⟨hd, hn, Or.inl rfl⟩
      · refine ⟨some d, a, 62 :: r, by simp, ?_, fun hl => (nomatch hl)⟩
        rintro d' ⟨⟩
        exact ⟨hd, ha, Or.inr ⟨r, rfl⟩⟩
  -- the scheme
  obtain ⟨scheme, rest, haddr, hscheme, hnoScheme⟩ : ∃ (scheme : Option Bytes) (rest : Bytes),
      scheme.elim [] (· ++ [colon]) ++ rest = addr
        ∧ (∀ c, scheme = some c → isScheme c = true)
        ∧ (scheme = none → ∀ a b, rest = a ++ colon :: b → colon ∉ a →
          isScheme a = false) := by
    obtain ⟨hn, -⟩ | ⟨a, b, hab, ha, hf⟩ := find_cases addr colon
    · refine ⟨none, addr, rfl, fun c hc => (nomatch hc), fun _ a b hab _ => ?_⟩
      exact absurd (hab ▸ List.mem_append_right a List.mem_cons_self) hn
    · cases hs : isScheme a with
      | true =>
        refine ⟨some a, b, by rw [hab]; simp, ?_, fun hl => (nomatch hl)⟩
        rintro c ⟨⟩
        exact hs
      | false =>
        refine ⟨none, addr, rfl, fun c hc => (nomatch hc), fun _ a' b' hab' ha' => ?_⟩
        -- both split at the first colon
        have hlen : a'.length = a.length := by
          rw [hab', find_append ha'] at hf
          exact Option.some.inj hf
        have : a' = a := (List.append_inj (hab'.symm.trans hab) hlen).1
        rw [this, hs]
  -- the user
  obtain ⟨user, hostport, hrest, huser, hnoUser⟩ : ∃ (user : Option Bytes) (hostport : Bytes),
      user.elim [] (· ++ [64]) ++ hostport = rest
        ∧ (∀ u, user = some u → 64 ∉ u) ∧ (user = none → 64 ∉ hostport) := by
    obtain ⟨hn, -⟩ | ⟨a, b, rfl, ha, -⟩ := find_cases rest 64
    · exact ⟨none, rest, rfl, fun u hu => (nomatch hu), fun _ => hn⟩
    · refine ⟨some a, b, by simp, ?_, fun hl => (nomatch hl)⟩
      rintro u ⟨⟩
      exact ha
  obtain ⟨s, hs, hhost, hport, hnoPort, htail⟩ := exists_hostport hostport
  subst hs hrest haddr ht
  exact ⟨{ s with lead := lead, scheme := scheme, user := user, close := close },
    ⟨hangled, hbare, hscheme, hnoScheme, huser, hnoUser, hhost, hport, hnoPort, htail⟩, rfl⟩

/-! ## The display name -/

/-- A text that starts and ends with no blank. -/
def IsTrimmed (x : Bytes) : Prop := x.dropWhile isBlank = x ∧ x.rdropWhile isBlank = x

/-- A text without blanks is trimmed. -/
theorem isTrimmed_of_forall {x : Bytes} (h : ∀ c ∈ x, isBlank c = false) : IsTrimmed x := by
  constructor
  · cases x with
    | nil => rfl
    | cons c x => exact List.dropWhile_cons_of_neg (by simp [h c List.mem_cons_self])
  · refine List.rdropWhile_eq_self_iff.mpr fun hne => ?_
    simp [h _ (List.getLast_mem hne)]

/-- Blanks around a text are trimmed off. -/
theorem trimBlanks_append {a x b : Bytes} (ha : ∀ c ∈ a, isBlank c = true)
    (hx : IsTrimmed x) (hb : ∀ c ∈ b, isBlank c = true) : trimBlanks (a ++ x ++ b) = x := by
  have hback : (x ++ b).rdropWhile isBlank = x := by
    unfold List.rdropWhile
    rw [List.reverse_append, List.dropWhile_append_of_pos (by simpa using hb)]
    exact hx.2
  have hfront : (x ++ b).dropWhile isBlank = x ++ b ∨ x = [] := by
    cases x with
    | nil => exact Or.inr rfl
    | cons c x =>
      left
      have hc : ¬ isBlank c = true := fun hc => by
        have hlen := congrArg List.length hx.1
        rw [List.dropWhile_cons_of_pos hc] at hlen
        have := (List.dropWhile_suffix (l := x) isBlank).length_le
        simp at hlen
        omega
      exact List.dropWhile_cons_of_neg hc
  unfold trimBlanks trimBy
  rw [List.append_assoc, List.dropWhile_append_of_pos ha]
  obtain hfront | rfl := hfront
  · rw [hfront, hback]
  · rw [List.nil_append, List.dropWhile_eq_nil_iff.mpr hb]
    rfl

/-- A text is its trimmed part between blanks. -/
theorem exists_trim (d : Bytes) :
    ∃ b, d = d.takeWhile isBlank ++ trimBlanks d ++ b ∧ ∀ c ∈ b, isBlank c = true := by
  refine ⟨((d.dropWhile isBlank).reverse.takeWhile isBlank).reverse, ?_, fun c hc => ?_⟩
  · have hback : trimBlanks d ++ ((d.dropWhile isBlank).reverse.takeWhile isBlank).reverse
        = d.dropWhile isBlank := by
      unfold trimBlanks trimBy List.rdropWhile
      rw [← List.reverse_append, List.takeWhile_append_dropWhile, List.reverse_reverse]
    rw [List.append_assoc, hback, List.takeWhile_append_dropWhile]
  · exact List.mem_takeWhile_imp (List.mem_reverse.mp hc)

/-- So is a text in quotes, blanks or not. -/
theorem isTrimmed_quoted (t : Bytes) : IsTrimmed (34 :: (t ++ [34])) := by
  refine ⟨List.dropWhile_cons_of_neg (by decide), ?_⟩
  rw [← List.cons_append]
  exact List.rdropWhile_concat_neg isBlank _ _ (by decide)

/-- A text in quotes is what is between them. -/
@[simp] theorem unquote_quoted (p : Ptr) (t : Bytes) :
    unquote ⟨p, 34 :: (t ++ [34])⟩ = ⟨p.add 1, t⟩ := by
  have hlast : (34 :: (t ++ [34])).getLast? = some (34 : UInt8) := by
    rw [← List.cons_append]
    exact List.getLast?_concat
  unfold unquote
  rw [if_pos ⟨by simp, rfl, hlast⟩]
  unfold StringView.substr
  simp

/-- **The display name is a part of what stands in front of the `<`**, and a name without blanks
and quotes put in its place is found in its place. A name in quotes is what is between them, and
the quotes stay where they are; any other one is what is between the blanks. -/
theorem exists_display (d : Bytes) :
    ∃ a x b, d = a ++ x ++ b ∧ (∀ p, displayView p d = ⟨p.add a.length, x⟩)
      ∧ ∀ p nv, (∀ c ∈ nv, isBlank c = false ∧ c ≠ 34) →
        (displayView p (a ++ nv ++ b)).text = nv := by
  have hfront : ∀ c ∈ d.takeWhile isBlank, isBlank c = true :=
    fun c hc => List.mem_takeWhile_imp hc
  obtain ⟨b, hd, hb⟩ := exists_trim d
  -- A name in quotes is what is between them; any other one is what is between blanks.
  by_cases hq : (trimBlanks d).length ≥ 2 ∧ (trimBlanks d).head? = some 34
      ∧ (trimBlanks d).getLast? = some 34
  · -- a quoted name: the quotes stay
    obtain ⟨y, hy⟩ : ∃ y, trimBlanks d = 34 :: (y ++ [34]) := by
      obtain ⟨hlen, hhead, hlast⟩ := hq
      obtain ⟨t, ht⟩ := List.head?_eq_some_iff.mp hhead
      rw [ht] at hlen hlast
      obtain ⟨y, hy⟩ : ∃ y, t = y ++ [34] := by
        have hne : t ≠ [] := by
          rintro rfl
          simp at hlen
        rw [List.getLast?_cons_of_ne_nil hne] at hlast
        exact List.getLast?_eq_some_iff.mp hlast
      exact ⟨y, by rw [ht, hy]⟩
    refine ⟨d.takeWhile isBlank ++ [34], y, 34 :: b, ?_, fun p => ?_, fun p nv _ => ?_⟩
    · rw [hy] at hd
      simpa using hd
    · show unquote ⟨p.add _, trimBlanks d⟩ = _
      rw [hy, unquote_quoted, Ptr.add_add]
      simp
    · have hassoc : d.takeWhile isBlank ++ [34] ++ nv ++ 34 :: b
          = d.takeWhile isBlank ++ 34 :: (nv ++ [34]) ++ b := by simp
      show (unquote ⟨_, trimBlanks _⟩).text = nv
      rw [hassoc, trimBlanks_append hfront (isTrimmed_quoted nv) hb, unquote_quoted]
  · refine ⟨d.takeWhile isBlank, trimBlanks d, b, hd, fun p => if_neg hq, fun p nv hnv => ?_⟩
    have hplain : ¬ (nv.length ≥ 2 ∧ nv.head? = some 34 ∧ nv.getLast? = some 34) :=
      fun h => (hnv 34 (List.mem_of_head? h.2.1)).2 rfl
    show (unquote ⟨_, trimBlanks _⟩).text = nv
    rw [trimBlanks_append hfront (isTrimmed_of_forall fun c hc => (hnv c hc).1) hb]
    unfold unquote
    rw [if_neg hplain]

end Shape

/-! ## Rebuilding a shape -/

/-- The text `rebuild_uri` sets out to make. -/
def spliced (value : StringView) (element : HmrUriElement) (nv : Bytes) : Bytes :=
  match spliceOf value element with
  | none => value.text
  | some p => p.apply value.text nv

/-- What a splice does to a text of three parts is to exchange the one in the middle, -/
@[simp] theorem apply_mid {a x b : Bytes} (pre post nv : Bytes) :
    (Splice.mk a.length (a.length + x.length) pre post).apply (a ++ x ++ b) nv
      = a ++ pre ++ nv ++ post ++ b := by
  unfold Splice.apply
  dsimp only
  rw [← List.length_append, List.drop_left, List.append_assoc a x b, List.take_left]

/-- and to a text of two parts, to insert between them. -/
theorem apply_between {a b : Bytes} (pre post nv : Bytes) :
    (Splice.mk a.length a.length pre post).apply (a ++ b) nv = a ++ pre ++ nv ++ post ++ b := by
  simpa using apply_mid (a := a) (x := []) (b := b) pre post nv

namespace Shape

variable {s : Shape}

/-- The offset of a component is the difference of its pointer and the value's. -/
@[simp] theorem off_add (r : Region) (o n : Nat) : (Ptr.add (.addr r o) n).sub (.addr r o) = n :=
  Nat.add_sub_cancel_left o n

/-- **Rebuilding exchanges a component of the shape**: the host, -/
theorem spliced_host (h : s.Wf) (r : Region) (o : Nat) (nv : Bytes) :
    spliced ⟨.addr r o, s.text⟩ .host nv = ({ s with host := nv } : Shape).text := by
  have htext : s.text = (s.leadText ++ s.schemeText ++ s.userText) ++ s.host
      ++ (s.portText ++ s.tail ++ s.close) := by
    simp [text, address, rest, hostport]
  unfold spliced spliceOf
  rw [parseUri_shape h]
  dsimp only
  rw [show (s.parsed (.addr r o)).host = ⟨Ptr.add (.addr r o) _, s.host⟩ from rfl]
  dsimp only
  rw [off_add, if_pos (by simp [Ptr.add])]
  dsimp only
  rw [htext, ← List.length_append, ← List.length_append, apply_mid]
  simp [text, address, rest, hostport, leadText, schemeText, userText, portText]

/-- the user, with an `@` behind it if there was none, -/
theorem spliced_user (h : s.Wf) (r : Region) (o : Nat) (nv : Bytes) :
    spliced ⟨.addr r o, s.text⟩ .user nv = ({ s with user := some nv } : Shape).text := by
  unfold spliced spliceOf
  rw [parseUri_shape h]
  dsimp only
  cases hu : s.user with
  | none =>
    have htext : s.text = (s.leadText ++ s.schemeText) ++ (s.hostport ++ s.close) := by
      simp [text, address, rest, userText, hu]
    have hparsed : s.parsed (.addr r o) = { s.parsed (.addr r o) with
        user := {}
        host := ⟨Ptr.add (.addr r o) (s.leadText ++ s.schemeText).length, s.host⟩ } := by
      simp [parsed, userText, hu, view]
    rw [hparsed]
    dsimp only
    rw [off_add, if_neg (by simp), if_pos (by simp [Ptr.add])]
    dsimp only
    rw [htext, apply_between]
    simp [text, address, rest, hostport, leadText, schemeText, userText, portText]
  | some v =>
    have htext : s.text = (s.leadText ++ s.schemeText) ++ v
        ++ ([64] ++ s.hostport ++ s.close) := by
      simp [text, address, rest, userText, hu]
    have hparsed : s.parsed (.addr r o) = { s.parsed (.addr r o) with
        user := ⟨Ptr.add (.addr r o) (s.leadText ++ s.schemeText).length, v⟩ } := by
      simp [parsed, hu, view]
    rw [hparsed]
    dsimp only
    rw [off_add, if_pos (by simp [Ptr.add])]
    dsimp only
    rw [htext, apply_mid]
    simp [text, address, rest, hostport, leadText, schemeText, userText, portText]

/-- and the port, with a colon in front of it if there was none. -/
theorem spliced_port (h : s.Wf) (r : Region) (o : Nat) (nv : Bytes) :
    spliced ⟨.addr r o, s.text⟩ .port nv = ({ s with port := some nv } : Shape).text := by
  have hhost : (s.parsed (.addr r o)).host = ⟨Ptr.add (.addr r o)
      (s.leadText ++ s.schemeText ++ s.userText).length, s.host⟩ := by
    simp [parsed, Nat.add_assoc]
  unfold spliced spliceOf
  rw [parseUri_shape h]
  dsimp only
  cases hp : s.port with
  | none =>
    have htext : s.text = (s.leadText ++ s.schemeText ++ s.userText ++ s.host)
        ++ (s.tail ++ s.close) := by
      simp [text, address, rest, hostport, portText, hp]
    have hparsed : (s.parsed (.addr r o)).port = {} := by
      simp [parsed, hp, view]
    rw [hparsed, hhost]
    dsimp only
    rw [off_add, if_neg (by simp), if_pos (by simp [Ptr.add]), ← List.length_append]
    dsimp only
    rw [htext, apply_between]
    simp [text, address, rest, hostport, leadText, schemeText, userText, portText]
  | some v =>
    have htext : s.text = (s.leadText ++ s.schemeText ++ s.userText ++ s.host ++ [colon]) ++ v
        ++ (s.tail ++ s.close) := by
      simp [text, address, rest, hostport, portText, hp]
    have hparsed : (s.parsed (.addr r o)).port = ⟨Ptr.add (.addr r o)
        (s.leadText ++ s.schemeText ++ s.userText ++ s.host ++ [colon]).length, v⟩ := by
      simp [parsed, hp, view, Nat.add_assoc]
    rw [hparsed]
    dsimp only
    rw [off_add, if_pos (by simp [Ptr.add])]
    dsimp only
    rw [htext, apply_mid]
    simp [text, address, rest, hostport, leadText, schemeText, userText, portText]

/-- In the bare form a display name is put in front, with a blank behind. -/
theorem spliced_display_bare (h : s.Wf) (hl : s.lead = none) (r : Region) (o : Nat)
    (nv : Bytes) :
    spliced ⟨.addr r o, s.text⟩ .display nv = nv ++ sp :: s.text := by
  unfold spliced spliceOf
  rw [parseUri_shape h]
  have hparsed : (s.parsed (.addr r o)).display = {} := by
    simp [parsed, hl]
  dsimp only
  rw [hparsed, if_neg (by simp)]
  simp [Splice.apply]

/-- In the angled form the display name is exchanged for the new one. -/
theorem spliced_display (h : s.Wf) {a x b : Bytes} (hl : s.lead = some (a ++ x ++ b))
    (hd : ∀ p, displayView p (a ++ x ++ b) = ⟨p.add a.length, x⟩) (r : Region) (o : Nat)
    (nv : Bytes) :
    spliced ⟨.addr r o, s.text⟩ .display nv
      = ({ s with lead := some (a ++ nv ++ b) } : Shape).text := by
  have htext : s.text = a ++ x ++ (b ++ [60] ++ s.address ++ s.close) := by
    simp [text, leadText, hl]
  unfold spliced spliceOf
  rw [parseUri_shape h]
  have hparsed : (s.parsed (.addr r o)).display = ⟨Ptr.add (.addr r o) a.length, x⟩ := by
    show s.lead.elim {} (displayView (.addr r o)) = _
    rw [hl]
    exact hd _
  dsimp only
  rw [hparsed]
  dsimp only
  rw [off_add, if_pos (by simp [Ptr.add])]
  dsimp only
  rw [htext, apply_mid]
  simp [text, address, rest, hostport, leadText, schemeText, userText, portText]

end Shape

end Uri

end Hmr
