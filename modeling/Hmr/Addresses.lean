import Hmr.Ast
import Hmr.Matchers

/-!
# The address grammar

What an address is in its textual form is a matter of a grammar: four decimal octets, or
groups of hex digits between colons, with a `::` for the zeros left out and perhaps a
dotted quad at the end. That grammar is written down first (`Matchers.IsQuad`,
`Matchers.IsV6`), with the bytes that a text stands for, and without a look at the code.

`parse_ip` is two scanners, one inside the other, that go through the text once and keep a
token and the bytes so far. They are compared with the grammar piece by piece: octets
(`Matchers.parseUint_eq_some`), quads (`parseIpv4_eq_some`), parts of a `v6` address
(`parseV6Part_eq_some`). The step that makes this easy is the same in both: what a scanner
makes of a text is what a fold makes of the pieces between the separators
(`parseIpv4From_eq`, `parseV6From_eq`), and the pieces are what the grammar speaks of.

The `::` is found first, and the two sides are read apart. The sides are determined by the
text, since neither has two colons in a row nor one at its end (`Matchers.Spaced`), so
there is one way at most to read a text as an address.

The scanner reads both sides of a `::` alike, and so takes a quad at the end of the first
one too. That is where it and the grammar part, and the only place
(`Matchers.parseIp_grammar_iff`).
-/

namespace Hmr

namespace Matchers

/-! ## The grammar -/

/-- A decimal octet: digits, of value at most 255. -/
def IsOctet (r : Bytes) : Prop :=
  r ≠ [] ∧ (∀ c ∈ r, Value.isDigit c = true) ∧ Value.digitsVal r ≤ 255

/-- **A dotted quad**, and its four bytes. -/
def IsQuad (text : Bytes) (bytes : List UInt8) : Prop :=
  ∃ runs : List Bytes, runs.length = 4 ∧ (∀ r ∈ runs, IsOctet r)
    ∧ text = [46].intercalate runs
    ∧ bytes = runs.map fun r => UInt8.ofNat (Value.digitsVal r)

/-- A group: one to four hex digits. -/
def IsGroup (g : Bytes) : Prop :=
  g ≠ [] ∧ g.length ≤ 4 ∧ ∀ c ∈ g, (hexVal c).isSome = true

/-- The number a group stands for. -/
def groupValue (g : Bytes) : Nat := g.foldl (fun v c => v * 16 + (hexVal c).getD 0) 0

/-- Its two bytes. -/
def groupBytes (g : Bytes) : List UInt8 :=
  [UInt8.ofNat (groupValue g / 256), UInt8.ofNat (groupValue g)]

/-- Groups between single colons, or nothing. -/
def IsGroups (text : Bytes) (bytes : List UInt8) : Prop :=
  ∃ gs : List Bytes, (∀ g ∈ gs, IsGroup g) ∧ text = [58].intercalate gs
    ∧ bytes = gs.flatMap groupBytes

/-- Groups and a dotted quad at the end. -/
def IsQuadEnded (text : Bytes) (bytes : List UInt8) : Prop :=
  ∃ gs quad qb, (∀ g ∈ gs, IsGroup g) ∧ IsQuad quad qb
    ∧ text = [58].intercalate (gs ++ [quad]) ∧ bytes = gs.flatMap groupBytes ++ qb

/-- The end of a `v6` address. -/
def IsTail (text : Bytes) (bytes : List UInt8) : Prop :=
  IsGroups text bytes ∨ IsQuadEnded text bytes

/-- Two parts with zeros between them, to make sixteen bytes. -/
def elided (hb tb : List UInt8) : List UInt8 :=
  hb ++ List.replicate (16 - hb.length - tb.length) 0 ++ tb

/-- A part of some form, a `::` for one group of zeros or more, and an end. -/
def Elided (part : Bytes → List UInt8 → Prop) (text : Bytes) (bytes : List UInt8) : Prop :=
  ∃ head hb tail tb, part head hb ∧ IsTail tail tb ∧ hb.length + tb.length ≤ 14
    ∧ text = head ++ [58, 58] ++ tail ∧ bytes = elided hb tb

/-- **A `v6` address**, and its sixteen bytes. -/
def IsV6 (text : Bytes) (bytes : List UInt8) : Prop :=
  (IsTail text bytes ∧ bytes.length = 16) ∨ Elided IsGroups text bytes

/-- **`parse_ip` follows the grammar** on a text. -/
structure FollowsGrammar (text : Bytes) : Prop where
  v4 : ∀ bytes, parseIp text = ⟨.v4, bytes ++ List.replicate 12 0⟩
    ↔ IsQuad (trimBlanks text) bytes
  v6 : ∀ bytes, parseIp text = ⟨.v6, bytes⟩ ↔ IsV6 (stripV6 (trimBlanks text)) bytes
  invalid : (∀ bytes, ¬ IsQuad (trimBlanks text) bytes) →
    (∀ bytes, ¬ IsV6 (stripV6 (trimBlanks text)) bytes) → parseIp text = {}

/-! ## Octets -/

/-- The scan of a number leaves early when it is past `max`, and what it returns is the number
all the same: the value grows with every digit, so that what is past `max` once stays there, and
the early exit refuses no number that would have been accepted. It is what keeps the scan from
overflowing. -/
theorem parseUintFrom_eq_some {max : Nat} {s : Bytes} {v n : Nat} (hv : v ≤ max) :
    parseUintFrom max v s = some n
      ↔ (∀ c ∈ s, Value.isDigit c = true)
        ∧ s.foldl (fun v c => v * 10 + (c.toNat - 48)) v = n ∧ n ≤ max := by
  induction s generalizing v with
  | nil =>
    rw [parseUintFrom]
    constructor
    · intro h
      cases h
      exact ⟨by simp, rfl, hv⟩
    · rintro ⟨-, rfl, -⟩
      rfl
  | cons c s ih =>
    have hgrow : ∀ (s : Bytes) (v : Nat), v ≤ s.foldl (fun v c => v * 10 + (c.toNat - 48)) v := by
      intro s
      induction s with
      | nil => exact fun v => le_rfl
      | cons c s ih =>
        intro v
        have hstep : v ≤ v * 10 + (c.toNat - 48) := by omega
        exact hstep.trans (ih _)
    rw [parseUintFrom, List.forall_mem_cons, List.foldl_cons]
    by_cases hc : 48 ≤ c ∧ c ≤ 57
    · have hdigit : Value.isDigit c = true := by simpa [Value.isDigit] using hc
      rw [if_pos hc]
      dsimp only
      split
      · rename_i hgt
        refine iff_of_false (by simp) ?_
        rintro ⟨-, rfl, hle⟩
        exact absurd ((hgrow s _).trans hle) (by omega)
      · rename_i hle
        rw [ih (by omega), and_iff_right hdigit]
    · have hdigit : ¬ Value.isDigit c = true := by simpa [Value.isDigit] using hc
      rw [if_neg hc]
      exact iff_of_false (by simp) fun h => hdigit h.1.1

/-- **A number is read exactly if it is digits of a small value.** -/
theorem parseUint_eq_some {s : Bytes} {max n : Nat} :
    parseUint s max = some n
      ↔ s ≠ [] ∧ (∀ c ∈ s, Value.isDigit c = true) ∧ Value.digitsVal s = n ∧ n ≤ max := by
  unfold parseUint
  cases s with
  | nil => simp
  | cons c s =>
    rw [List.isEmpty_cons, if_neg Bool.false_ne_true, parseUintFrom_eq_some (Nat.zero_le max),
      and_iff_right (List.cons_ne_nil c s)]
    rfl

/-- The end of an octet: it is one, and not the fifth. -/
theorem closeOctet_eq_some {tok : Bytes} {out res : List UInt8} :
    closeOctet tok out = some res
      ↔ out.length < 4 ∧ IsOctet tok ∧ res = out ++ [UInt8.ofNat (Value.digitsVal tok)] := by
  unfold closeOctet
  split
  · rename_i hge
    exact iff_of_false (by simp) fun h => absurd h.1 (by omega)
  · rename_i hlt
    rw [Option.map_eq_some_iff]
    constructor
    · rintro ⟨n, hn, rfl⟩
      obtain ⟨hne, hdigits, rfl, hle⟩ := parseUint_eq_some.mp hn
      exact ⟨by omega, ⟨hne, hdigits, hle⟩, rfl⟩
    · rintro ⟨-, ⟨hne, hdigits, hle⟩, rfl⟩
      exact ⟨_, parseUint_eq_some.mpr ⟨hne, hdigits, rfl, hle⟩, rfl⟩

/-! ## Quads -/

/-- The scanner goes through the pieces between the dots. -/
theorem parseIpv4From_eq (tok : Bytes) (out : List UInt8) (s : Bytes) (htok : 46 ∉ tok) :
    parseIpv4From tok out s
      = ((tok ++ s).splitOn 46).foldlM (fun out tok => closeOctet tok out) out := by
  induction s generalizing tok out with
  | nil =>
    rw [parseIpv4From, List.append_nil, List.splitOn_eq_singleton htok, List.foldlM_cons]
    cases closeOctet tok out <;> rfl
  | cons c s ih =>
    rw [parseIpv4From]
    by_cases hc : c = 46
    · subst hc
      rw [List.splitOn_append_cons_self_of_not_mem htok, List.foldlM_cons,
        if_pos (beq_self_eq_true _)]
      refine congrArg _ (funext fun out' => ?_)
      exact ih [] out' List.not_mem_nil
    · rw [if_neg (by simpa using hc), ih _ _ (by simpa using ⟨htok, Ne.symm hc⟩),
        List.append_assoc]
      rfl

/-- The pieces are octets, and with those before them they are four at most. -/
theorem foldlM_closeOctet {pieces : List Bytes} {out res : List UInt8} (hout : out.length ≤ 4) :
    pieces.foldlM (fun out tok => closeOctet tok out) out = some res
      ↔ (∀ r ∈ pieces, IsOctet r)
        ∧ res = out ++ pieces.map (fun r => UInt8.ofNat (Value.digitsVal r))
        ∧ res.length ≤ 4 := by
  have hgrow : ∀ (out : List UInt8) (c : UInt8), out.length < 4 → (out ++ [c]).length ≤ 4 := by
    intro out c h
    rw [List.length_append]
    exact h
  induction pieces generalizing out with
  | nil =>
    rw [List.foldlM_nil]
    constructor
    · intro h
      cases h
      exact ⟨by simp, by simp, hout⟩
    · rintro ⟨-, rfl, -⟩
      simp
  | cons r pieces ih =>
    rw [List.foldlM_cons, List.forall_mem_cons]
    constructor
    · intro h
      obtain ⟨out', hclose, hrest⟩ := Option.bind_eq_some_iff.mp h
      obtain ⟨hlt, hr, rfl⟩ := closeOctet_eq_some.mp hclose
      obtain ⟨hall, rfl, hle⟩ := (ih (hgrow _ _ hlt)).mp hrest
      exact ⟨⟨hr, hall⟩, by simp, hle⟩
    · rintro ⟨⟨hr, hall⟩, rfl, hle⟩
      have hlt : out.length < 4 := by
        simp only [List.length_append, List.length_map, List.length_cons] at hle
        omega
      refine Option.bind_eq_some_iff.mpr ⟨_, closeOctet_eq_some.mpr ⟨hlt, hr, rfl⟩, ?_⟩
      exact (ih (hgrow _ _ hlt)).mpr ⟨hall, by simp, hle⟩

/-- An octet is digits. -/
theorem IsOctet.not_mem {r : Bytes} (h : IsOctet r) {c : UInt8} (hc : Value.isDigit c = false) :
    c ∉ r := by
  intro hmem
  rw [h.2.1 c hmem] at hc
  cases hc

/-- **`parse_ipv4` reads the dotted quads.** -/
theorem parseIpv4_eq_some {text : Bytes} {bytes : List UInt8} :
    parseIpv4 text = some bytes ↔ IsQuad text bytes := by
  rw [parseIpv4, Option.filter_eq_some_iff, parseIpv4From_eq _ _ _ List.not_mem_nil,
    List.nil_append, foldlM_closeOctet (Nat.le_of_ble_eq_true rfl)]
  constructor
  · rintro ⟨⟨hall, rfl, -⟩, hlen⟩
    refine ⟨text.splitOn 46, by simpa using hlen, hall, ?_, rfl⟩
    exact (List.intercalate_splitOn 46).symm
  · rintro ⟨runs, hlen, hall, rfl, rfl⟩
    have hne : runs ≠ [] := by
      rintro rfl
      cases hlen
    have hdots : ∀ r ∈ runs, 46 ∉ r := fun r hr => (hall r hr).not_mem rfl
    rw [List.splitOn_intercalate 46 hdots hne]
    exact ⟨⟨hall, rfl, by simp [hlen]⟩, by simp [hlen]⟩

/-- A quad has four bytes, -/
theorem IsQuad.length {text : Bytes} {bytes : List UInt8} (h : IsQuad text bytes) :
    bytes.length = 4 := by
  obtain ⟨runs, hlen, -, -, rfl⟩ := h
  rw [List.length_map, hlen]

/-- What holds of the pieces and of what is between them. -/
theorem forall_intercalate {P : UInt8 → Prop} {sep : Bytes} {pieces : List Bytes}
    (hsep : ∀ c ∈ sep, P c) (h : ∀ r ∈ pieces, ∀ c ∈ r, P c) :
    ∀ c ∈ sep.intercalate pieces, P c := by
  induction pieces with
  | nil => exact List.forall_mem_nil P
  | cons r rest ih =>
    rw [List.forall_mem_cons] at h
    cases rest with
    | nil =>
      rw [List.intercalate_singleton]
      exact h.1
    | cons r' rest =>
      rw [List.intercalate_cons_cons, List.forall_mem_append, List.forall_mem_append]
      exact ⟨⟨h.1, hsep⟩, ih h.2⟩

/-- A quad is digits and dots. -/
theorem IsQuad.forall {text : Bytes} {bytes : List UInt8} (h : IsQuad text bytes) :
    ∀ c ∈ text, Value.isDigit c = true ∨ c = 46 := by
  obtain ⟨runs, -, hall, rfl, -⟩ := h
  refine forall_intercalate (fun c hc => Or.inr (List.mem_singleton.mp hc)) ?_
  exact fun r hr c hc => Or.inl ((hall r hr).2.1 c hc)

/-- and no character that is neither a digit nor a dot. -/
theorem IsQuad.not_mem {text : Bytes} {bytes : List UInt8} (h : IsQuad text bytes) {c : UInt8}
    (hdigit : Value.isDigit c = false) (hdot : c ≠ 46) : c ∉ text := by
  intro hmem
  obtain hc | hc := h.forall c hmem
  · rw [hdigit] at hc
    cases hc
  · exact hdot hc

/-- It has a dot. -/
theorem IsQuad.mem_dot {text : Bytes} {bytes : List UInt8} (h : IsQuad text bytes) :
    46 ∈ text := by
  obtain ⟨runs, hlen, -, rfl, -⟩ := h
  obtain _ | ⟨r, _ | ⟨r', runs⟩⟩ := runs
  · cases hlen
  · cases hlen
  · rw [List.intercalate_cons_cons]
    simp

/-! ## Groups -/

/-- The value of hex digits, read one by one. -/
theorem foldlM_hexVal {g : Bytes} {v n : Nat} :
    g.foldlM (fun v c => (hexVal c).map fun h => v * 16 + h) v = some n
      ↔ (∀ c ∈ g, (hexVal c).isSome = true)
        ∧ g.foldl (fun v c => v * 16 + (hexVal c).getD 0) v = n := by
  induction g generalizing v with
  | nil => simp
  | cons c g ih =>
    rw [List.foldlM_cons, List.forall_mem_cons, List.foldl_cons]
    cases hc : hexVal c with
    | none => simp
    | some h =>
      rw [and_assoc, and_iff_right (Option.isSome_some)]
      exact ih

/-- A group is hex digits, and its value is theirs. -/
theorem hextet_eq_some {g : Bytes} {n : Nat} :
    hextet g = some n ↔ (∀ c ∈ g, (hexVal c).isSome = true) ∧ groupValue g = n := foldlM_hexVal

/-- No group has a dot in it, -/
theorem IsGroup.not_mem_dot {g : Bytes} (h : IsGroup g) : 46 ∉ g := fun hmem =>
  absurd (h.2.2 46 hmem) (by decide)

/-- nor a colon. -/
theorem IsGroup.not_mem_colon {g : Bytes} (h : IsGroup g) : 58 ∉ g := fun hmem =>
  absurd (h.2.2 58 hmem) (by decide)

/-- **The end of a group** is a group, or a quad at the end of the part. A dot in the token tells
which of the two is tried: a quad has one in it and a group has none, so that no token is both.
What is returned is behind `out`, and no more than sixteen bytes altogether. -/
theorem closeGroup_eq_some {tok : Bytes} {out res : List UInt8} {last : Bool} :
    closeGroup tok out last = some res
      ↔ (IsGroup tok ∧ out.length + 2 ≤ 16 ∧ res = out ++ groupBytes tok)
        ∨ (last = true ∧ ∃ qb, IsQuad tok qb ∧ out.length + 4 ≤ 16 ∧ res = out ++ qb) := by
  unfold closeGroup
  by_cases hempty : tok = []
  · subst hempty
    refine iff_of_false (by simp) ?_
    rintro (⟨h, -⟩ | ⟨-, qb, h, -⟩)
    · exact h.1 rfl
    · exact List.not_mem_nil h.mem_dot
  · rw [if_neg (by simpa using hempty)]
    -- A dot makes it an IPv4 address, which may only come last; without one it is a group.
    by_cases hdot : 46 ∈ tok
    · have hgroup : ¬ IsGroup tok := fun h => h.not_mem_dot hdot
      rw [if_pos (by simpa using hdot)]
      cases last with
      | false => simp [hgroup]
      | true =>
        rw [if_neg (by simp), or_iff_right (fun h => hgroup h.1), and_iff_right rfl]
        constructor
        · intro h
          obtain ⟨qb, hquad, hres⟩ := Option.bind_eq_some_iff.mp h
          rw [parseIpv4_eq_some] at hquad
          split at hres
          · cases hres
          · cases hres
            exact ⟨qb, hquad, by omega, rfl⟩
        · rintro ⟨qb, hquad, hle, rfl⟩
          refine Option.bind_eq_some_iff.mpr ⟨qb, parseIpv4_eq_some.mpr hquad, ?_⟩
          rw [if_neg (by omega)]
    · rw [if_neg (by simpa using hdot), or_iff_left fun h => by
        obtain ⟨-, qb, hquad, -⟩ := h
        exact hdot hquad.mem_dot]
      split
      · rename_i hlong
        exact iff_of_false (by simp) fun h => absurd h.1.2.1 (by omega)
      · rename_i hshort
        constructor
        · intro h
          obtain ⟨n, hn, hres⟩ := Option.bind_eq_some_iff.mp h
          obtain ⟨hhex, rfl⟩ := hextet_eq_some.mp hn
          split at hres
          · cases hres
          · cases hres
            exact ⟨⟨hempty, by omega, hhex⟩, by omega, rfl⟩
        · rintro ⟨⟨-, -, hhex⟩, hle, rfl⟩
          refine Option.bind_eq_some_iff.mpr ⟨_, hextet_eq_some.mpr ⟨hhex, rfl⟩, ?_⟩
          rw [if_neg (by omega)]
          rfl

/-! ## Parts of an address -/

/-- The scanner's way through the pieces between the colons. -/
def closeGroups : List Bytes → List UInt8 → Option (List UInt8)
  | [], out => some out
  | [tok], out => closeGroup tok out true
  | tok :: tok' :: rest, out => (closeGroup tok out false).bind (closeGroups (tok' :: rest))

/-- **The scanner goes through the pieces between the colons.** -/
theorem parseV6From_eq (tok : Bytes) (out : List UInt8) (s : Bytes) (htok : 58 ∉ tok) :
    parseV6From tok out s = closeGroups ((tok ++ s).splitOn 58) out := by
  induction s generalizing tok out with
  | nil =>
    rw [parseV6From, List.append_nil, List.splitOn_eq_singleton htok]
    rfl
  | cons c s ih =>
    rw [parseV6From]
    by_cases hc : c = 58
    · subst hc
      rw [List.splitOn_append_cons_self_of_not_mem htok, if_pos (beq_self_eq_true _)]
      have hrest : ∀ out', parseV6From [] out' s = closeGroups (s.splitOn 58) out' :=
        fun out' => ih [] out' List.not_mem_nil
      cases hsplit : s.splitOn 58 with
      | nil => exact absurd hsplit (List.splitOn_ne_nil 58 s)
      | cons piece pieces =>
        rw [closeGroups, ← hsplit]
        exact congrArg _ (funext hrest)
    · rw [if_neg (by simpa using hc), ih _ _ (by simpa using ⟨htok, Ne.symm hc⟩),
        List.append_assoc]
      rfl

/-- What the pieces are. -/
def ArePieces (pieces : List Bytes) (bytes : List UInt8) : Prop :=
  ((∀ g ∈ pieces, IsGroup g) ∧ bytes = pieces.flatMap groupBytes)
    ∨ ∃ gs quad qb, pieces = gs ++ [quad] ∧ (∀ g ∈ gs, IsGroup g) ∧ IsQuad quad qb
      ∧ bytes = gs.flatMap groupBytes ++ qb

/-- One piece is a group or a quad, -/
theorem arePieces_singleton {tok : Bytes} {bytes : List UInt8} :
    ArePieces [tok] bytes
      ↔ (IsGroup tok ∧ bytes = groupBytes tok) ∨ IsQuad tok bytes := by
  constructor
  · rintro (⟨hall, rfl⟩ | ⟨gs, quad, qb, heq, hall, hquad, rfl⟩)
    · exact Or.inl ⟨hall tok (List.mem_singleton_self tok), List.append_nil _⟩
    · obtain _ | ⟨g, gs⟩ := gs
      · cases heq
        exact Or.inr hquad
      · exact absurd (List.cons.inj heq).2 (by simp)
  · rintro (⟨hgroup, rfl⟩ | hquad)
    · exact Or.inl ⟨by simpa using hgroup, (List.append_nil _).symm⟩
    · exact Or.inr ⟨[], tok, bytes, rfl, by simp, hquad, rfl⟩

/-- and a piece with others behind it is a group. -/
theorem arePieces_cons {tok tok' : Bytes} {rest : List Bytes} {bytes : List UInt8} :
    ArePieces (tok :: tok' :: rest) bytes
      ↔ IsGroup tok ∧ ∃ more, ArePieces (tok' :: rest) more ∧ bytes = groupBytes tok ++ more := by
  constructor
  · rintro (⟨hall, rfl⟩ | ⟨gs, quad, qb, heq, hall, hquad, rfl⟩)
    · rw [List.forall_mem_cons] at hall
      exact ⟨hall.1, _, Or.inl ⟨hall.2, rfl⟩, rfl⟩
    · obtain _ | ⟨g, gs⟩ := gs
      · cases heq
      · obtain ⟨rfl, hpieces⟩ := List.cons.inj heq
        rw [List.forall_mem_cons] at hall
        exact ⟨hall.1, _, Or.inr ⟨gs, quad, qb, hpieces, hall.2, hquad, rfl⟩,
          List.append_assoc _ _ _⟩
  · rintro ⟨hgroup, more, ⟨hall, rfl⟩ | ⟨gs, quad, qb, heq, hall, hquad, rfl⟩, rfl⟩
    · exact Or.inl ⟨List.forall_mem_cons.mpr ⟨hgroup, hall⟩, rfl⟩
    · refine Or.inr ⟨tok :: gs, quad, qb, ?_, List.forall_mem_cons.mpr ⟨hgroup, hall⟩, hquad,
        (List.append_assoc _ _ _).symm⟩
      rw [heq]
      rfl

/-- The scanner's way succeeds on such pieces, if their bytes fit behind those there are. The
induction is on the pieces, the last of which is a case of its own: only there a quad is allowed,
and what is in front of it are two bytes a piece. -/
theorem closeGroups_eq_some {pieces : List Bytes} (hne : pieces ≠ []) {out res : List UInt8} :
    closeGroups pieces out = some res
      ↔ ∃ bytes, ArePieces pieces bytes ∧ out.length + bytes.length ≤ 16 ∧ res = out ++ bytes := by
  induction pieces generalizing out with
  | nil => exact absurd rfl hne
  | cons tok rest ih =>
    cases rest with
    | nil =>
      rw [closeGroups, closeGroup_eq_some]
      simp only [arePieces_singleton]
      constructor
      · rintro (⟨hgroup, hle, rfl⟩ | ⟨-, qb, hquad, hle, rfl⟩)
        · exact ⟨_, Or.inl ⟨hgroup, rfl⟩, hle, rfl⟩
        · exact ⟨qb, Or.inr hquad, by rwa [hquad.length], rfl⟩
      · rintro ⟨bytes, ⟨hgroup, rfl⟩ | hquad, hle, rfl⟩
        · exact Or.inl ⟨hgroup, hle, rfl⟩
        · exact Or.inr ⟨trivial, bytes, hquad, by rwa [hquad.length] at hle, rfl⟩
    | cons tok' rest =>
      have hrest : tok' :: rest ≠ [] := List.cons_ne_nil tok' rest
      rw [closeGroups, Option.bind_eq_some_iff]
      simp only [arePieces_cons, closeGroup_eq_some, ih hrest]
      constructor
      · rintro ⟨out', ⟨hgroup, -, rfl⟩ | ⟨hlast, -⟩, more, hmore, hle, rfl⟩
        · refine ⟨_, ⟨hgroup, more, hmore, rfl⟩, ?_, List.append_assoc _ _ _⟩
          rw [List.length_append] at hle ⊢
          omega
        · cases hlast
      · rintro ⟨bytes, ⟨hgroup, more, hmore, rfl⟩, hle, rfl⟩
        have htwo : (groupBytes tok).length = 2 := rfl
        rw [List.length_append, htwo] at hle
        refine ⟨_, Or.inl ⟨hgroup, by omega, rfl⟩, more, hmore, ?_,
          (List.append_assoc _ _ _).symm⟩
        rw [List.length_append, htwo]
        omega

/-- Every piece of an end is there, and has no colon. -/
theorem ArePieces.forall {pieces : List Bytes} {bytes : List UInt8} (h : ArePieces pieces bytes) :
    ∀ r ∈ pieces, r ≠ [] ∧ 58 ∉ r := by
  have hgroup : ∀ g : Bytes, IsGroup g → g ≠ [] ∧ 58 ∉ g := fun g hg => ⟨hg.1, hg.not_mem_colon⟩
  obtain ⟨hall, -⟩ | ⟨gs, quad, qb, rfl, hall, hquad, -⟩ := h
  · exact fun r hr => hgroup r (hall r hr)
  · rw [List.forall_mem_append, List.forall_mem_singleton]
    refine ⟨fun r hr => hgroup r (hall r hr), ?_, hquad.not_mem rfl (by decide)⟩
    exact List.ne_nil_of_mem hquad.mem_dot

/-- What is there cannot be put together to nothing. -/
theorem eq_nil_of_intercalate {sep : Bytes} {pieces : List Bytes} (h : ∀ r ∈ pieces, r ≠ [])
    (hnil : sep.intercalate pieces = []) : pieces = [] := by
  obtain _ | ⟨r, _ | ⟨r', rest⟩⟩ := pieces
  · rfl
  · rw [List.intercalate_singleton] at hnil
    exact absurd hnil (h r (List.mem_singleton_self r))
  · rw [List.intercalate_cons_cons, List.append_assoc, List.append_eq_nil_iff] at hnil
    exact absurd hnil.1 (h r List.mem_cons_self)

/-- The pieces of an end are those between its colons. -/
theorem isTail_iff {text : Bytes} {bytes : List UInt8} :
    IsTail text bytes ↔ ∃ pieces, ArePieces pieces bytes ∧ text = [58].intercalate pieces := by
  constructor
  · rintro (⟨gs, hall, rfl, rfl⟩ | ⟨gs, quad, qb, hall, hquad, rfl, rfl⟩)
    · exact ⟨gs, Or.inl ⟨hall, rfl⟩, rfl⟩
    · exact ⟨_, Or.inr ⟨gs, quad, qb, rfl, hall, hquad, rfl⟩, rfl⟩
  · rintro ⟨pieces, ⟨hall, rfl⟩ | ⟨gs, quad, qb, rfl, hall, hquad, rfl⟩, rfl⟩
    · exact Or.inl ⟨pieces, hall, rfl, rfl⟩
    · exact Or.inr ⟨gs, quad, qb, hall, hquad, rfl, rfl⟩

/-- **`parse_v6_part` reads the ends of addresses**, of sixteen bytes at most. -/
theorem parseV6Part_eq_some {text : Bytes} {bytes : List UInt8} :
    parseV6Part text = some bytes ↔ IsTail text bytes ∧ bytes.length ≤ 16 := by
  unfold parseV6Part
  rw [isTail_iff]
  by_cases hempty : text = []
  · subst hempty
    rw [if_pos (List.isEmpty_nil)]
    constructor
    · intro h
      cases h
      exact ⟨⟨[], Or.inl ⟨by simp, rfl⟩, rfl⟩, Nat.zero_le _⟩
    · rintro ⟨⟨pieces, harepieces, htext⟩, -⟩
      obtain rfl := eq_nil_of_intercalate (fun r hr => (harepieces.forall r hr).1) htext.symm
      obtain ⟨-, rfl⟩ | ⟨gs, quad, qb, heq, -⟩ := harepieces
      · rfl
      · exact absurd heq (by simp)
  · rw [if_neg (by simpa using hempty), parseV6From_eq _ _ _ List.not_mem_nil, List.nil_append,
      closeGroups_eq_some (List.splitOn_ne_nil 58 text)]
    constructor
    · rintro ⟨bytes', hpieces, hle, rfl⟩
      rw [List.length_nil, Nat.zero_add] at hle
      exact ⟨⟨_, hpieces, (List.intercalate_splitOn 58).symm⟩, hle⟩
    · rintro ⟨⟨pieces, hpieces, rfl⟩, hle⟩
      have hne : pieces ≠ [] := by
        rintro rfl
        exact hempty rfl
      rw [List.splitOn_intercalate 58 (fun r hr => (hpieces.forall r hr).2) hne]
      exact ⟨bytes, hpieces, by simpa using hle, rfl⟩

/-! ## The `::` -/

/-- A `::` that does not start here is found further on. -/
theorem findDoubleColon_cons {c : UInt8} {s : Bytes} (h : c ≠ 58 ∨ s.head? ≠ some 58) :
    findDoubleColon (c :: s) = (findDoubleColon s).map (· + 1) := by
  cases s with
  | nil => rfl
  | cons d s =>
    rw [findDoubleColon, if_neg]
    rw [Bool.and_eq_true, beq_iff_eq, beq_iff_eq]
    rintro ⟨rfl, rfl⟩
    obtain h | h := h
    · exact h rfl
    · exact h rfl

/-- It is found behind a text that has none and does not end with a colon. -/
theorem findDoubleColon_append {a : Bytes} (ha : findDoubleColon a = none)
    (hback : a.getLast? ≠ some 58) (b : Bytes) :
    findDoubleColon (a ++ b) = (findDoubleColon b).map (· + a.length) := by
  induction a with
  | nil => exact Option.map_id'.symm
  | cons c a ih =>
    have hc : c ≠ 58 ∨ (a ++ b).head? ≠ some 58 := by
      cases a with
      | nil => exact Or.inl fun h => hback (congrArg some h)
      | cons d a =>
        rw [← not_and_or]
        rintro ⟨rfl, hd⟩
        rw [List.cons_append, List.head?_cons, Option.some_inj] at hd
        rw [hd] at ha
        cases ha
    have ha' : findDoubleColon a = none := by
      cases a with
      | nil => rfl
      | cons d a =>
        rw [findDoubleColon] at ha
        split at ha
        · cases ha
        · exact Option.map_eq_none_iff.mp ha
    have hback' : a.getLast? ≠ some 58 := by
      cases a with
      | nil => exact Option.some_ne_none 58 ∘ Eq.symm
      | cons d a => rwa [List.getLast?_cons_cons] at hback
    rw [List.cons_append, findDoubleColon_cons hc, ih ha' hback', Option.map_map,
      List.length_cons]
    rfl

/-- Where it is found, it is. -/
theorem findDoubleColon_eq_some {s : Bytes} {dc : Nat} (h : findDoubleColon s = some dc) :
    s = s.take dc ++ [58, 58] ++ s.drop (dc + 2) ∧ dc ≤ s.length := by
  induction s generalizing dc with
  | nil => cases h
  | cons c s ih =>
    cases s with
    | nil => cases h
    | cons d s =>
      rw [findDoubleColon] at h
      split at h
      · rename_i hcolons
        rw [Bool.and_eq_true, beq_iff_eq, beq_iff_eq] at hcolons
        obtain ⟨rfl, rfl⟩ := hcolons
        cases h
        exact ⟨rfl, Nat.zero_le _⟩
      · obtain ⟨dc', hdc, rfl⟩ := Option.map_eq_some_iff.mp h
        obtain ⟨hs, hle⟩ := ih hdc
        exact ⟨congrArg (c :: ·) hs, Nat.succ_le_succ hle⟩

/-- No two colons in a row, and none at either end. -/
structure Spaced (text : Bytes) : Prop where
  inner : findDoubleColon text = none
  front : text.head? ≠ some 58
  back : text.getLast? ≠ some 58

/-- A text without colons is such a text, -/
theorem Spaced.of_not_mem {text : Bytes} (h : 58 ∉ text) : Spaced text where
  inner := by
    induction text with
    | nil => rfl
    | cons c s ih =>
      rw [List.mem_cons, not_or] at h
      rw [findDoubleColon_cons (Or.inl (Ne.symm h.1)), ih h.2]
      rfl
  front := fun hfront => h (List.mem_of_head? hfront)
  back := fun hback => h (List.mem_of_getLast? hback)

/-- pieces with single colons between them are, -/
theorem Spaced.intercalate {pieces : List Bytes} (h : ∀ r ∈ pieces, r ≠ [] ∧ 58 ∉ r) :
    Spaced ([58].intercalate pieces) := by
  induction pieces with
  | nil => exact Spaced.of_not_mem List.not_mem_nil
  | cons r rest ih =>
    rw [List.forall_mem_cons] at h
    have hr := Spaced.of_not_mem h.1.2
    cases rest with
    | nil =>
      rw [List.intercalate_singleton]
      exact hr
    | cons r' rest =>
      have hrest := ih h.2
      have hne : [58].intercalate (r' :: rest) ≠ [] := fun hnil =>
        List.cons_ne_nil r' rest (eq_nil_of_intercalate (fun r hr => (h.2 r hr).1) hnil)
      rw [List.intercalate_cons_cons, List.append_assoc, List.singleton_append]
      refine ⟨?_, ?_, ?_⟩
      · rw [findDoubleColon_append hr.inner hr.back,
          findDoubleColon_cons (Or.inr hrest.front), hrest.inner]
        rfl
      · rw [List.head?_append_of_ne_nil _ h.1.1]
        exact hr.front
      · rw [List.getLast?_append_of_ne_nil _ (List.cons_ne_nil _ _),
          List.getLast?_cons_of_ne_nil hne]
        exact hrest.back

/-- and the end of an address is. -/
theorem IsTail.spaced {text : Bytes} {bytes : List UInt8} (h : IsTail text bytes) :
    Spaced text := by
  obtain ⟨pieces, hpieces, rfl⟩ := isTail_iff.mp h
  exact Spaced.intercalate hpieces.forall

/-- **A `::` between such texts is found**, and no other behind it. -/
theorem Spaced.findDoubleColon {head tail : Bytes} (hhead : Spaced head) (htail : Spaced tail) :
    Matchers.findDoubleColon (head ++ [58, 58] ++ tail) = some head.length
      ∧ Matchers.findDoubleColon ((head ++ [58, 58] ++ tail).drop (head.length + 1)) = none := by
  rw [List.append_assoc]
  constructor
  · rw [findDoubleColon_append hhead.inner hhead.back]
    exact congrArg some (Nat.zero_add _)
  · rw [List.drop_append, Nat.add_sub_cancel_left, List.drop_eq_nil_of_le (Nat.le_succ _)]
    show Matchers.findDoubleColon (58 :: tail) = none
    rw [findDoubleColon_cons (Or.inr htail.front), htail.inner]
    rfl

/-! ## The two families -/

/-- **What `parse_ipv6` reads**: sixteen bytes of groups, or two ends around a `::`.

The source cuts at the first `::` it finds and refuses a second one. That this loses nothing is
`Spaced.findDoubleColon`: neither end has a `::` in it, so the one that is found is the one that
was written. From the other side, what is returned says itself how it was cut. -/
theorem parseIpv6_eq_some {s : Bytes} {bytes : List UInt8} :
    parseIpv6 s = some bytes
      ↔ (IsTail (stripV6 s) bytes ∧ bytes.length = 16) ∨ Elided IsTail (stripV6 s) bytes := by
  unfold parseIpv6
  generalize stripV6 s = text
  dsimp only
  constructor
  · intro h
    split at h
    · cases h
    · split at h
      · rename_i dc hdc
        obtain ⟨htext, hle⟩ := findDoubleColon_eq_some hdc
        split at h
        · cases h
        · obtain ⟨hb, hhead, h⟩ := Option.bind_eq_some_iff.mp h
          obtain ⟨tb, htail, h⟩ := Option.bind_eq_some_iff.mp h
          split at h
          · cases h
          · cases h
            exact Or.inr ⟨_, hb, _, tb, (parseV6Part_eq_some.mp hhead).1,
              (parseV6Part_eq_some.mp htail).1, by omega, htext, rfl⟩
      · rw [Option.filter_eq_some_iff] at h
        exact Or.inl ⟨(parseV6Part_eq_some.mp h.1).1, beq_iff_eq.mp h.2⟩
  · -- From the grammar's side: a text of eight groups has no `::`, and an elided one has it
    -- where it was left out.
    rintro (⟨htail, hlen⟩ | ⟨head, hb, tail, tb, hhead, htail, hle, rfl, rfl⟩)
    · have hne : ¬ text.isEmpty = true := by
        rw [List.isEmpty_iff]
        rintro rfl
        have hnone := parseV6Part_eq_some.mpr ⟨htail, hlen.le⟩
        cases hnone
        cases hlen
      rw [if_neg hne, htail.spaced.inner, Option.filter_eq_some_iff, parseV6Part_eq_some]
      exact ⟨⟨htail, hlen.le⟩, beq_iff_eq.mpr hlen⟩
    · obtain ⟨hfound, hlast⟩ := hhead.spaced.findDoubleColon htail.spaced
      have hne : ¬ (head ++ [58, 58] ++ tail).isEmpty = true := by
        simp
      rw [if_neg hne, hfound]
      dsimp only
      have htake : (head ++ [58, 58] ++ tail).take head.length = head := by
        rw [List.append_assoc, List.take_left]
      have hdrop : (head ++ [58, 58] ++ tail).drop (head.length + 2) = tail :=
        List.drop_left' (List.length_append)
      rw [hlast, if_neg (by simp), htake, hdrop, parseV6Part_eq_some.mpr ⟨hhead, by omega⟩,
        parseV6Part_eq_some.mpr ⟨htail, by omega⟩]
      exact if_neg (by omega)

/-- Two texts around a `::` are determined by what they make. -/
theorem Spaced.inj {head head' tail tail' : Bytes} (hhead : Spaced head) (htail : Spaced tail)
    (hhead' : Spaced head') (htail' : Spaced tail')
    (h : head ++ [58, 58] ++ tail = head' ++ [58, 58] ++ tail') : head = head' ∧ tail = tail' := by
  have hlen : head.length = head'.length := by
    have hfound := (hhead.findDoubleColon htail).1
    rw [h, (hhead'.findDoubleColon htail').1] at hfound
    exact (Option.some.inj hfound).symm
  rw [List.append_assoc, List.append_assoc] at h
  obtain ⟨rfl, hrest⟩ := List.append_inj h hlen
  exact ⟨rfl, (List.append_cancel_left hrest)⟩

/-- An end is groups only, or has a quad. -/
theorem elided_isTail_iff {text : Bytes} {bytes : List UInt8} :
    Elided IsTail text bytes ↔ Elided IsGroups text bytes ∨ Elided IsQuadEnded text bytes := by
  constructor
  · rintro ⟨head, hb, tail, tb, hgroups | hquad, hrest⟩
    · exact Or.inl ⟨head, hb, tail, tb, hgroups, hrest⟩
    · exact Or.inr ⟨head, hb, tail, tb, hquad, hrest⟩
  · rintro (⟨head, hb, tail, tb, hgroups, hrest⟩ | ⟨head, hb, tail, tb, hquad, hrest⟩)
    · exact ⟨head, hb, tail, tb, Or.inl hgroups, hrest⟩
    · exact ⟨head, hb, tail, tb, Or.inr hquad, hrest⟩

/-- Groups have no dot, -/
theorem IsGroups.not_mem_dot {text : Bytes} {bytes : List UInt8} (h : IsGroups text bytes) :
    46 ∉ text := by
  obtain ⟨gs, hall, rfl, -⟩ := h
  have hne : ∀ c ∈ [58].intercalate gs, c ≠ 46 := by
    refine forall_intercalate (by simp) fun g hg c hc hdot => ?_
    exact (hall g hg).not_mem_dot (hdot ▸ hc)
  exact fun hmem => hne 46 hmem rfl

/-- what is in the last piece is in the whole, -/
theorem mem_intercalate_append {c : UInt8} {sep piece : Bytes} {pieces : List Bytes}
    (h : c ∈ piece) : c ∈ sep.intercalate (pieces ++ [piece]) := by
  induction pieces with
  | nil => rwa [List.nil_append, List.intercalate_singleton]
  | cons r rest ih =>
    rw [List.cons_append, List.intercalate_cons_of_ne_nil (by simp)]
    exact List.mem_append_right _ ih

/-- and so a text with a quad at its end has one. -/
theorem IsQuadEnded.mem_dot {text : Bytes} {bytes : List UInt8} (h : IsQuadEnded text bytes) :
    46 ∈ text := by
  obtain ⟨gs, quad, qb, -, hquad, rfl, -⟩ := h
  exact mem_intercalate_append hquad.mem_dot

/-- A text with a quad in front of a `::` is of no address. -/
theorem Elided.not_isV6 {text : Bytes} {bytes bytes' : List UInt8}
    (h : Elided IsQuadEnded text bytes) : ¬ IsV6 text bytes' := by
  obtain ⟨head, hb, tail, tb, hquad, htail, -, rfl, -⟩ := h
  have hhead : Spaced head := IsTail.spaced (Or.inr hquad)
  rintro (⟨hend, -⟩ | ⟨head', hb', tail', tb', hgroups, htail', -, htext, -⟩)
  · have hinner := hend.spaced.inner
    rw [(hhead.findDoubleColon htail.spaced).1] at hinner
    cases hinner
  · obtain ⟨rfl, -⟩ := hhead.inj htail.spaced (IsTail.spaced (Or.inl hgroups)) htail'.spaced htext
    exact hgroups.not_mem_dot hquad.mem_dot

/-- Digits and dots are no `v6` address. There are no brackets and there is no zone to strip, and
without a colon there can be neither a `::` nor a second piece; one piece alone has two bytes, or
four. -/
theorem parseIpv6_ne_of_forall {text : Bytes}
    (h : ∀ c ∈ text, Value.isDigit c = true ∨ c = 46) (bytes : List UInt8) :
    parseIpv6 text ≠ some bytes := by
  have hnot : ∀ c : UInt8, Value.isDigit c = false → c ≠ 46 → c ∉ text := by
    intro c hdigit hdot hmem
    obtain hc | hc := h c hmem
    · rw [hdigit] at hc
      cases hc
    · exact hdot hc
  have hstrip : stripV6 text = text := by
    have hopen : text.head? ≠ some 91 := fun hhead =>
      hnot 91 rfl (by decide) (List.mem_of_head? hhead)
    have hzone : ∀ c ∈ text, (c != 37) = true := by
      intro c hc
      rw [bne_iff_ne]
      rintro rfl
      exact hnot 37 rfl (by decide) hc
    unfold stripV6
    dsimp only
    rw [if_neg fun hbrackets => hopen hbrackets.2.1]
    exact List.takeWhile_eq_self_iff.mpr hzone
  have hcolon : 58 ∉ text := hnot 58 rfl (by decide)
  rw [Ne, parseIpv6_eq_some, hstrip]
  rintro (⟨htail, hlen⟩ | ⟨head, hb, tail, tb, -, -, -, rfl, -⟩)
  · obtain ⟨pieces, hpieces, htext⟩ := isTail_iff.mp htail
    obtain _ | ⟨r, _ | ⟨r', rest⟩⟩ := pieces
    · obtain ⟨-, rfl⟩ | ⟨gs, quad, qb, heq, -⟩ := hpieces
      · cases hlen
      · exact absurd heq (by simp)
    · obtain ⟨-, rfl⟩ | hquad := arePieces_singleton.mp hpieces
      · cases hlen
      · rw [hquad.length] at hlen
        cases hlen
    · rw [htext, List.intercalate_cons_cons] at hcolon
      exact hcolon (List.mem_append_left _ (List.mem_append_right _ (List.mem_singleton_self 58)))
  · exact hcolon (List.mem_append_left _ (List.mem_append_right _ (List.mem_cons_self)))

/-- **Four bytes are read of the quads**, blanks around them or not, -/
theorem parseIp_eq_v4 {text : Bytes} {bytes : List UInt8} :
    parseIp text = ⟨.v4, bytes ++ List.replicate 12 0⟩ ↔ IsQuad (trimBlanks text) bytes := by
  rw [← parseIpv4_eq_some]
  unfold parseIp
  dsimp only
  cases h4 : parseIpv4 (trimBlanks text) with
  | some v4 =>
    dsimp only
    rw [IpAddr.mk.injEq, and_iff_right rfl, List.append_cancel_right_eq, Option.some_inj]
  | none =>
    refine iff_of_false ?_ (by simp)
    cases parseIpv6 (trimBlanks text) <;> simp

/-- **and sixteen of the `v6` addresses**, of which the scanner has a kind too many. -/
theorem parseIp_eq_v6 {text : Bytes} {bytes : List UInt8} :
    parseIp text = ⟨.v6, bytes⟩
      ↔ IsV6 (stripV6 (trimBlanks text)) bytes
        ∨ Elided IsQuadEnded (stripV6 (trimBlanks text)) bytes := by
  have hshape : IsV6 (stripV6 (trimBlanks text)) bytes
      ∨ Elided IsQuadEnded (stripV6 (trimBlanks text)) bytes
        ↔ parseIpv6 (trimBlanks text) = some bytes := by
    rw [parseIpv6_eq_some, elided_isTail_iff, IsV6, or_assoc]
  rw [hshape]
  unfold parseIp
  dsimp only
  cases h4 : parseIpv4 (trimBlanks text) with
  | some v4 =>
    exact iff_of_false (by simp)
      (parseIpv6_ne_of_forall (parseIpv4_eq_some.mp h4).forall bytes)
  | none =>
    cases parseIpv6 (trimBlanks text) <;> simp

/-! ## The scanner and the grammar -/

/-- A text with a quad in front of its `::` is read, and should not be. -/
theorem FollowsGrammar.not_elided {text : Bytes} (h : FollowsGrammar text) (bytes : List UInt8) :
    ¬ Elided IsQuadEnded (stripV6 (trimBlanks text)) bytes := by
  intro helided
  exact helided.not_isV6 ((h.v6 bytes).mp (parseIp_eq_v6.mpr (Or.inr helided)))

/-- **`parse_ip` follows the grammar except on a quad in front of `::`**, which the scanner
takes for the last thing of the address because it is the last thing of its half. -/
theorem parseIp_grammar_iff (text : Bytes) :
    FollowsGrammar text
      ↔ ¬ ∃ bytes, Elided IsQuadEnded (stripV6 (trimBlanks text)) bytes := by
  constructor
  · rintro h ⟨bytes, helided⟩
    exact h.not_elided bytes helided
  · intro hnone
    have hv6 : ∀ bytes, parseIp text = ⟨.v6, bytes⟩ ↔ IsV6 (stripV6 (trimBlanks text)) bytes := by
      intro bytes
      rw [parseIp_eq_v6, or_iff_left fun helided => hnone ⟨bytes, helided⟩]
    refine ⟨fun bytes => parseIp_eq_v4, hv6, fun hno4 hno6 => ?_⟩
    have h4 : parseIpv4 (trimBlanks text) = none := by
      rw [Option.eq_none_iff_forall_ne_some]
      exact fun bytes h => hno4 bytes (parseIpv4_eq_some.mp h)
    have h6 : parseIpv6 (trimBlanks text) = none := by
      rw [Option.eq_none_iff_forall_ne_some]
      intro bytes h
      rw [parseIpv6_eq_some, elided_isTail_iff, ← or_assoc] at h
      exact h.elim (hno6 bytes) fun helided => hnone ⟨bytes, helided⟩
    unfold parseIp
    dsimp only
    rw [h4, h6]

/-- A quad, and nothing behind the `::`. -/
theorem not_followsGrammar : ¬ ∀ text, FollowsGrammar text := by
  intro h
  have hquad : IsQuadEnded (txt "1.2.3.4") [1, 2, 3, 4] :=
    ⟨[], txt "1.2.3.4", [1, 2, 3, 4], List.forall_mem_nil _, parseIpv4_eq_some.mp rfl, rfl, rfl⟩
  have hnothing : IsTail [] [] := Or.inl ⟨[], List.forall_mem_nil _, rfl, rfl⟩
  refine (h (txt "1.2.3.4::")).not_elided (elided [1, 2, 3, 4] []) ?_
  exact ⟨txt "1.2.3.4", [1, 2, 3, 4], [], [], hquad, hnothing, by decide, rfl, rfl⟩

end Matchers

end Hmr
