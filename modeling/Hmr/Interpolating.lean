import Hmr.Pieces

/-!
# What interpolation keeps

Interpolation takes references out of a text and leaves the rest of it. A reference in
braces may have any characters in it. All others are of letters, digits, underscores, dots
and dollars, so that no other character is lost without a brace that is
(`Value.interpolate_keeps`). Of a new-value, the pluses are lost as well
(`Value.parseNew_keeps`).

This is for counting. A text that is printed has as many quotes, say, as its values have,
and when it is read again they are to be found in the values that are read. What is wanted
is therefore not what becomes of a text, but that nothing is added to it, and that what is
missing is of a certain class, unless a brace is missing too (`Value.Leaves`). Braces are
in no keyword and are put in by nobody, so once they are counted, everything else is.
-/

namespace Hmr

namespace Value

/-- A character of a reference that has no braces. -/
def isRefChar (c : UInt8) : Bool := isIdentCont c || c == 46 || c == 36

/-- **Some text is left of another**: nothing is added, and if no brace is lost, no
character is but for those of a class. -/
structure Leaves (p : UInt8 → Bool) (text left : Bytes) : Prop where
  sublist : left.Sublist text
  keeps : left.filter (!p ·) = text.filter (!p ·) ∨ left.count 123 < text.count 123

namespace Leaves

section
variable {p : UInt8 → Bool} {text left text' left' : Bytes}

/-- A text is left of itself. -/
theorem refl (text : Bytes) : Leaves p text text := ⟨List.Sublist.refl text, Or.inl rfl⟩

/-- What is left of two texts, one behind the other. -/
theorem append (h : Leaves p text left) (h' : Leaves p text' left') :
    Leaves p (text ++ text') (left ++ left') := by
  refine ⟨h.sublist.append h'.sublist, ?_⟩
  have hcount := h.sublist.count_le 123
  have hcount' := h'.sublist.count_le 123
  simp only [List.filter_append, List.count_append]
  obtain hkeeps | hlost := h.keeps
  · obtain hkeeps' | hlost' := h'.keeps
    · exact Or.inl (by rw [hkeeps, hkeeps'])
    · exact Or.inr (by omega)
  · exact Or.inr (by omega)

/-- A text of the class may be lost. -/
theorem of_all (h : ∀ c ∈ text, p c = true) : Leaves p text [] :=
  ⟨List.nil_sublist text,
    Or.inl (List.filter_eq_nil_iff.mpr fun c hc => by simp [h c hc]).symm⟩

/-- So may anything be, with a brace. -/
theorem of_brace (h : 123 ∈ text) : Leaves p text [] :=
  ⟨List.nil_sublist text, Or.inr (List.count_pos_iff.mpr h)⟩

/-- No brace is lost, and no character but for those of the class. -/
theorem count_eq (h : Leaves p text left) (hbrace : text.count 123 ≤ left.count 123) {x : UInt8}
    (hx : p x = false) : left.count x = text.count x := by
  obtain hkeeps | hlost := h.keeps
  · have hnot : ∀ l : Bytes, (l.filter (!p ·)).count x = l.count x :=
      fun l => List.count_filter (by simp [hx])
    rw [← hnot left, hkeeps, hnot text]
  · omega

end

end Leaves

section
variable {rest after text lit : Bytes} {segs : List ValueSegment}

/-- Identifiers are made of such characters. -/
theorem isRefChar_of_isIdentCont {c : UInt8} (h : isIdentCont c = true) : isRefChar c = true := by
  simp [isRefChar, h]

/-- So are numbers. -/
theorem isRefChar_of_isDigit {c : UInt8} (h : isDigit c = true) : isRefChar c = true :=
  isRefChar_of_isIdentCont (by simp [isIdentCont, h])

/-- What a chain takes is made of its characters. A round takes an identifier, and behind it `.$`
with the next round, `.$` with the digits of an index, or nothing. -/
theorem parseChain_takes {fuel : Nat} {path : Bytes} {r : Bytes × Int × Bytes}
    (h : parseChain fuel rest path = some r) :
    ∃ taken, rest = taken ++ r.2.2 ∧ ∀ c ∈ taken, isRefChar c = true := by
  -- A round takes an identifier, and then either a link, an index, or nothing.
  induction fuel generalizing rest path r with
  | zero =>
    cases h
    exact ⟨[], rfl, by simp⟩
  | succ fuel ih =>
    cases hstart : startsWith isIdentStart rest with
    | false =>
      rw [parseChain_stop hstart] at h
      cases h
      exact ⟨[], rfl, by simp⟩
    | true =>
      have hident : ∀ c ∈ rest.takeWhile isIdentCont, isRefChar c = true :=
        fun c hc => isRefChar_of_isIdentCont (List.mem_takeWhile_imp hc)
      have hrest := List.takeWhile_append_dropWhile (p := isIdentCont) (l := rest)
      by_cases hlink : ∃ tail, rest.dropWhile isIdentCont = 46 :: 36 :: tail
      · obtain ⟨tail, htail⟩ := hlink
        rw [htail] at hrest
        cases hindex : startsWith isDigit tail with
        | false =>
          rw [parseChain_link hstart htail hindex] at h
          obtain ⟨taken, htaken, hchars⟩ := ih h
          refine ⟨rest.takeWhile isIdentCont ++ [46, 36] ++ taken, ?_, ?_⟩
          · rw [List.append_assoc, List.append_assoc, ← htaken]
            exact hrest.symm
          · simp only [List.forall_mem_append]
            exact ⟨⟨hident, List.all_eq_true.mp rfl⟩, hchars⟩
        | true =>
          rw [parseChain_index hstart htail hindex] at h
          obtain ⟨n, -, rfl⟩ := Option.map_eq_some_iff.mp h
          refine ⟨rest.takeWhile isIdentCont ++ [46, 36] ++ tail.takeWhile isDigit, ?_, ?_⟩
          · rw [List.append_assoc, List.append_assoc, List.takeWhile_append_dropWhile]
            exact hrest.symm
          · simp only [List.forall_mem_append]
            exact ⟨⟨hident, List.all_eq_true.mp rfl⟩,
              fun c hc => isRefChar_of_isDigit (List.mem_takeWhile_imp hc)⟩
      · rw [parseChain_end hstart fun after hafter => hlink ⟨after, hafter⟩] at h
        cases h
        exact ⟨rest.takeWhile isIdentCont, hrest.symm, hident⟩

/-- **What a reference takes** is made of the characters of references, or starts with
a brace. -/
theorem parseRef_takes {r : ValueRef} (h : parseRef rest = some (r, after)) :
    ∃ taken, rest = taken ++ after ∧ Leaves isRefChar taken [] := by
  unfold parseRef at h
  split at h
  · rename_i rest
    cases h
    refine ⟨123 :: (rest.takeWhile (· != 125) ++ (rest.dropWhile (· != 125)).take 1), ?_,
      Leaves.of_brace List.mem_cons_self⟩
    rw [List.cons_append, List.append_assoc, List.take_append_drop,
      List.takeWhile_append_dropWhile]
  · dsimp only at h
    split at h
    · obtain ⟨q, hq, heq⟩ := Option.map_eq_some_iff.mp h
      cases heq
      obtain ⟨taken, htaken, hchars⟩ := parseChain_takes hq
      exact ⟨taken, htaken, Leaves.of_all hchars⟩
    · obtain ⟨n, -, heq⟩ := Option.map_eq_some_iff.mp h
      cases heq
      exact ⟨rest.takeWhile isDigit, List.takeWhile_append_dropWhile.symm,
        Leaves.of_all fun c hc => isRefChar_of_isDigit (List.mem_takeWhile_imp hc)⟩

/-- The loop of interpolation. -/
theorem interpolateFrom_keeps {fuel : Nat} (hfuel : rest.length ≤ fuel)
    (h : interpolateFrom fuel rest lit = some segs) :
    Leaves isRefChar (lit ++ rest) (segs.flatMap ValueSegment.text) := by
  -- A byte is either the beginning of a reference, or part of the literal that is collected.
  induction fuel generalizing rest lit segs with
  | zero =>
    obtain rfl := List.eq_nil_of_length_eq_zero (Nat.le_zero.mp hfuel)
    cases h
    rw [List.append_nil, flush_text]
    exact Leaves.refl lit
  | succ fuel ih =>
    cases rest with
    | nil =>
      cases h
      rw [List.append_nil, flush_text]
      exact Leaves.refl lit
    | cons c rest =>
      rw [interpolateFrom] at h
      split at h
      · rename_i hstarts
        rw [Bool.and_eq_true] at hstarts
        obtain rfl := beq_iff_eq.mp hstarts.1
        obtain ⟨⟨r, after⟩, href, hmore⟩ := Option.bind_eq_some_iff.mp h
        obtain ⟨more, hread, heq⟩ := Option.bind_eq_some_iff.mp hmore
        cases heq
        obtain ⟨taken, rfl, htaken⟩ := parseRef_takes href
        have hdollar : Leaves isRefChar [36] [] :=
          Leaves.of_all (List.all_eq_true.mp rfl)
        have hle : after.length ≤ fuel := by
          rw [List.length_cons, List.length_append] at hfuel
          omega
        rw [List.flatMap_append, flush_text]
        exact (Leaves.refl lit).append ((hdollar.append htaken).append (ih hle hread))
      · have hrest := ih (Nat.le_of_succ_le_succ hfuel) h
        rwa [List.append_assoc] at hrest

/-- **Interpolation keeps what is no reference.** -/
theorem interpolate_keeps (h : interpolate text = some segs) :
    Leaves isRefChar text (segs.flatMap ValueSegment.text) :=
  interpolateFrom_keeps le_rfl h

/-- What is interpolated operand by operand. -/
theorem mapM_interpolate_keeps {operands : List Bytes} {parts : List (List ValueSegment)}
    (h : operands.mapM interpolate = some parts) :
    Leaves isRefChar operands.flatten (parts.flatten.flatMap ValueSegment.text) := by
  induction operands generalizing parts with
  | nil =>
    cases h
    exact Leaves.refl []
  | cons t operands ih =>
    rw [List.mapM_cons] at h
    obtain ⟨segs, hread, hrest⟩ := Option.bind_eq_some_iff.mp h
    obtain ⟨more, hmore, heq⟩ := Option.bind_eq_some_iff.mp hrest
    cases heq
    rw [List.flatten_cons, List.flatten_cons, List.flatMap_append]
    exact (interpolate_keeps hread).append (ih hmore)

/-- Without its pluses, a text is its operands. -/
theorem flatten_splitConcat (raw : Bytes) : (splitConcat raw).flatten = raw.filter (· != 43) := by
  rw [splitConcat, List.splitOn_eq_splitOnP]
  induction raw with
  | nil => rfl
  | cons c raw ih =>
    rw [List.splitOnP_cons_eq_if_modifyHead]
    split
    · rename_i hc
      rw [List.flatten_cons, List.nil_append, ih, List.filter_cons_of_neg (by simpa using hc)]
    · rename_i hc
      rw [List.filter_cons_of_pos (by simpa using hc), ← ih]
      cases hs : raw.splitOnP (· == 43) with
      | nil => exact absurd hs (List.splitOnP_ne_nil _ _)
      | cons first more => rfl

/-- **A new-value keeps what is neither a reference nor a plus.** -/
theorem parseNew_keeps {raw : Bytes} {v : Value} (h : parse raw .newValue false = some v) :
    Leaves isRefChar (raw.filter (· != 43)) v.literalText := by
  obtain ⟨parts, hparts, hv⟩ := Option.bind_eq_some_iff.mp h
  cases hv
  have hkeeps := mapM_interpolate_keeps hparts
  rwa [List.flatten_filter_not_isEmpty, flatten_splitConcat] at hkeeps

end

end Value

end Hmr
