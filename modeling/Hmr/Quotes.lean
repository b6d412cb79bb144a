import Hmr.Indices

/-!
# Values without their quotes

The parser takes a quoted value verbatim, and reads an unquoted one: negation and
references in a match-value, references and `+` in a new-value. The printer does not write
quotes. So a value that was quoted is read when it is printed and parsed again, and it has
to be known when reading it comes to taking it verbatim.

For which texts that is so is settled here: a match-value must not start with `!` or `$`,
and a new-value must have neither a `+` nor a `$` that starts a reference
(`Value.parse_eq_verbatim_iff`). That these texts are read as themselves is shown by going
through them, byte by byte. The other direction looks at what reading has made of a text:
where no segment is a reference, no `$` has started one, and where the segments have the
text that was read, no `+` has been dropped.

So a value does without quotes when it was not quoted, or is such a text
(`Value.parse_raw_iff`). A value does not say whether it was quoted; it can be told from
its segments, unless it makes no difference.
-/

namespace Hmr

namespace Value

/-- A value keeps the text it is read from. -/
theorem raw_parse {raw : Bytes} {mode : ValueMode} {quoted : Bool} {v : Value}
    (h : parse raw mode quoted = some v) : v.raw = raw := by
  unfold parse at h
  cases quoted with
  | true =>
    cases h
    rfl
  | false =>
    cases mode with
    | literal =>
      cases h
      rfl
    | matchValue =>
      change parseMatch raw = some v at h
      simp only [parseMatch] at h
      generalize (if (raw.head? == some 33) = true then raw.tail else raw) = body at h
      split at h
      · obtain ⟨segs, -, rfl⟩ := Option.map_eq_some_iff.mp h
        rfl
      · cases h
        rfl
    | newValue =>
      obtain ⟨parts, -, hv⟩ := Option.bind_eq_some_iff.mp h
      cases hv
      rfl

/-- **No `$` of a text starts a reference.** -/
def NoReference (text : Bytes) : Prop :=
  ∀ before rest, text = before ++ 36 :: rest → startsRef rest = false

/-- **A text that is read as itself**, in a mode. -/
def Quoteless (mode : ValueMode) (raw : Bytes) : Prop :=
  match mode with
  | .literal => True
  | .matchValue => raw.head? ≠ some 33 ∧ raw.head? ≠ some 36
  | .newValue => 43 ∉ raw ∧ NoReference raw

/-- **A value that does without quotes**: if it was taken verbatim, it is a text that
is read as itself. -/
def Unquoted (mode : ValueMode) (v : Value) : Prop := v = verbatim v.raw → Quoteless mode v.raw

/-! ## Interpolation of plain text -/

section
variable {c : UInt8} {rest lit : Bytes} {fuel : Nat} {segs : List ValueSegment}

/-- A text without references has none further on. -/
theorem NoReference.tail (h : NoReference (c :: rest)) : NoReference rest := by
  rintro before after rfl
  exact h (c :: before) after rfl

/-- A byte in front starts one only if it is a `$` in front of the right things. -/
theorem noReference_cons (hc : c = 36 → startsRef rest = false) (h : NoReference rest) :
    NoReference (c :: rest) := by
  intro before after heq
  cases before with
  | nil =>
    cases heq
    exact hc rfl
  | cons d before =>
    cases heq
    exact h before after rfl

/-- Where there are no references, everything goes into the literal. -/
theorem interpolateFrom_noReference (hfuel : rest.length ≤ fuel) (h : NoReference rest) :
    interpolateFrom fuel rest lit = some (flush (lit ++ rest)) := by
  induction fuel generalizing rest lit with
  | zero =>
    obtain rfl := List.eq_nil_of_length_eq_zero (Nat.le_zero.mp hfuel)
    rw [List.append_nil]
    rfl
  | succ fuel ih =>
    cases rest with
    | nil =>
      rw [List.append_nil]
      rfl
    | cons c rest =>
      have hnot : (c == 36 && startsRef rest) = false := by
        by_cases hc : c = 36
        · subst hc
          simpa using h [] rest rfl
        · simp [hc]
      rw [interpolateFrom, hnot, if_neg Bool.false_ne_true,
        ih (Nat.le_of_succ_le_succ hfuel) h.tail, List.append_assoc]
      rfl

/-- A literal that is flushed is one segment, or none where it is empty. -/
@[simp] theorem flush_text (lit : Bytes) : (flush lit).flatMap ValueSegment.text = lit := by
  unfold flush
  split
  · rename_i hempty
    exact (List.isEmpty_iff.mp hempty).symm
  · simp [ValueSegment.text]

/-- The empty text has no reference. -/
theorem noReference_nil : NoReference [] := by
  intro before after heq
  exact absurd heq.symm (by simp)

/-- A text without a reference among its segments has none in it, and is the text of
the segments. -/
theorem noReference_of_segments (h : interpolateFrom fuel rest lit = some segs)
    (hfuel : rest.length ≤ fuel) (hsegs : ∀ s ∈ segs, s.isRef = false) :
    NoReference rest ∧ segs.flatMap ValueSegment.text = lit ++ rest := by
  -- A `$` that starts a reference would have left a segment that is one.
  induction fuel generalizing rest lit segs with
  | zero =>
    obtain rfl := List.eq_nil_of_length_eq_zero (Nat.le_zero.mp hfuel)
    cases h
    rw [List.append_nil]
    exact ⟨noReference_nil, flush_text lit⟩
  | succ fuel ih =>
    cases rest with
    | nil =>
      cases h
      rw [List.append_nil]
      exact ⟨noReference_nil, flush_text lit⟩
    | cons c rest =>
      rw [interpolateFrom] at h
      split at h
      · obtain ⟨⟨r, after⟩, -, hrest⟩ := Option.bind_eq_some_iff.mp h
        obtain ⟨more, -, heq⟩ := Option.bind_eq_some_iff.mp hrest
        cases heq
        cases hsegs (.ref r) (by simp)
      · rename_i hnot
        obtain ⟨hno, htext⟩ := ih h (Nat.le_of_succ_le_succ hfuel) hsegs
        rw [List.append_assoc, List.singleton_append] at htext
        exact ⟨noReference_cons (by simpa using hnot) hno, htext⟩

end

/-! ## Without quotes -/

/-- What is taken verbatim has its text as a literal, -/
@[simp] theorem literalText_verbatim (raw : Bytes) : (verbatim raw).literalText = raw := by
  unfold verbatim literalText
  dsimp only
  split
  · rename_i hempty
    exact (List.isEmpty_iff.mp hempty).symm
  · simp [ValueSegment.text]

/-- and no reference. -/
theorem isRef_verbatim (raw : Bytes) : ∀ s ∈ (verbatim raw).segments, s.isRef = false := by
  unfold verbatim
  dsimp only
  split <;> simp [ValueSegment.isRef]

/-- A quoteless new-value is read as itself, -/
theorem parseNew_of_quoteless {raw : Bytes} (h : Quoteless .newValue raw) :
    parseNew raw = some (verbatim raw) := by
  have hsplit : splitConcat raw = [raw] := List.splitOn_eq_singleton h.1
  rw [parseNew, hsplit]
  cases raw with
  | nil => rfl
  | cons c raw =>
    have hread : interpolate (c :: raw) = some [.literal (c :: raw)] :=
      interpolateFrom_noReference le_rfl h.2
    simp [hread, verbatim]

/-- The operands of a new-value without references. -/
theorem noReference_of_operands {operands : List Bytes} {parts : List (List ValueSegment)}
    (h : operands.mapM interpolate = some parts) (hsegs : ∀ s ∈ parts.flatten, s.isRef = false) :
    (∀ t ∈ operands, NoReference t)
      ∧ parts.flatten.flatMap ValueSegment.text = operands.flatten := by
  induction operands generalizing parts with
  | nil =>
    cases h
    exact ⟨by simp, rfl⟩
  | cons t operands ih =>
    rw [List.mapM_cons] at h
    obtain ⟨segs, hread, hrest⟩ := Option.bind_eq_some_iff.mp h
    obtain ⟨more, hmore, heq⟩ := Option.bind_eq_some_iff.mp hrest
    cases heq
    rw [List.flatten_cons, List.forall_mem_append] at hsegs
    obtain ⟨hfirst, htext⟩ := noReference_of_segments hread le_rfl hsegs.1
    obtain ⟨hothers, htexts⟩ := ih hmore hsegs.2
    rw [List.forall_mem_cons, List.flatten_cons, List.flatMap_append, List.flatten_cons, htext,
      htexts]
    exact ⟨⟨hfirst, hothers⟩, rfl⟩

/-- and no other is: a `+` would be missing in the segments, and a reference would be one of
them. -/
theorem quoteless_of_parseNew {raw : Bytes} (h : parseNew raw = some (verbatim raw)) :
    Quoteless .newValue raw := by
  obtain ⟨parts, hparts, heq⟩ := Option.bind_eq_some_iff.mp h
  have hsegs : parts.flatten = (verbatim raw).segments :=
    congrArg (·.segments) (Option.some.inj heq)
  obtain ⟨hno, htext⟩ := noReference_of_operands hparts (hsegs ▸ isRef_verbatim raw)
  have hraw : raw = ((splitConcat raw).filter (!·.isEmpty)).flatten := by
    rw [← htext, hsegs]
    exact (literalText_verbatim raw).symm
  -- The operands have no plus in them, and together they are the text.
  have hplus : 43 ∉ raw := by
    rw [hraw]
    intro hmem
    obtain ⟨piece, hpiece, hin⟩ := List.mem_flatten.mp hmem
    have hpiece' := List.mem_of_mem_filter hpiece
    rw [splitConcat, List.splitOn_eq_splitOnP] at hpiece'
    exact absurd (mem_of_mem_splitOnP hpiece' 43 hin).2 (by decide)
  refine ⟨hplus, ?_⟩
  cases raw with
  | nil => exact noReference_nil
  | cons c raw =>
    refine hno _ (List.mem_filter.mpr ⟨?_, rfl⟩)
    rw [splitConcat, List.splitOn_eq_singleton hplus]
    exact List.mem_singleton_self _

/-- What a match-value starts with. -/
theorem flags_of_parseMatch {raw : Bytes} {v : Value} (h : parseMatch raw = some v) :
    v.negated = (raw.head? == some 33)
      ∧ v.refExpression
        = ((if (raw.head? == some 33) = true then raw.tail else raw).head? == some 36) := by
  simp only [parseMatch] at h
  generalize (if (raw.head? == some 33) = true then raw.tail else raw) = body at h ⊢
  split at h
  · rename_i href
    obtain ⟨segs, -, rfl⟩ := Option.map_eq_some_iff.mp h
    exact ⟨rfl, href.symm⟩
  · rename_i href
    cases h
    exact ⟨rfl, (Bool.eq_false_iff.mpr href).symm⟩

/-- A match-value is read as itself unless it starts with what changes it. -/
theorem parseMatch_eq_verbatim_iff {raw : Bytes} :
    parseMatch raw = some (verbatim raw) ↔ Quoteless .matchValue raw := by
  constructor
  · intro h
    obtain ⟨hnegated, href⟩ := flags_of_parseMatch h
    have hnot : (raw.head? == some 33) = false := hnegated.symm
    rw [hnot, if_neg Bool.false_ne_true] at href
    have hdollar : (raw.head? == some 36) = false := href.symm
    exact ⟨by simpa using hnot, by simpa using hdollar⟩
  · intro h
    simp [parseMatch, verbatim, h.1, h.2]

/-- **A text is read as itself without quotes exactly when it is quoteless.** -/
theorem parse_eq_verbatim_iff {mode : ValueMode} {raw : Bytes} :
    parse raw mode false = some (verbatim raw) ↔ Quoteless mode raw := by
  cases mode with
  | literal => exact iff_of_true rfl trivial
  | matchValue => exact parseMatch_eq_verbatim_iff
  | newValue => exact ⟨quoteless_of_parseNew, parseNew_of_quoteless⟩

/-- **A value is read again from its text exactly when it does without quotes.** -/
theorem parse_raw_iff {raw : Bytes} {mode : ValueMode} {quoted : Bool} {v : Value}
    (h : parse raw mode quoted = some v) :
    parse v.raw mode false = some v ↔ Unquoted mode v := by
  constructor
  · intro hread hverbatim
    rw [hverbatim] at hread
    exact parse_eq_verbatim_iff.mp hread
  · intro hunquoted
    rw [raw_parse h]
    cases quoted with
    | false => exact h
    | true =>
      obtain rfl : verbatim raw = v := Option.some.inj h
      exact parse_eq_verbatim_iff.mpr (hunquoted rfl)

end Value

end Hmr
