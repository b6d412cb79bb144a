import Hmr.Parser

/-!
# What the lexer takes for a string

A bareword is a maximal run of characters that are no blanks, whatever they are, and only
its first one must not be a quote. So a quote opens a string between tokens, and within a
bareword it is a character like any other. `a"b c"` are two barewords, of which the second
ends in a quote.

A token is kept next to the text it was written as (`Token.source`). These texts are the
text that was read, up to blanks and line ends, unless there was a comment, which takes a
hash away (`Lexer.tokensFrom_source`). And a text with quotes around it, with no quote
inside that is not escaped, uses two quotes up at most, and one at most where a bareword
runs into it (`Lexer.tokensFrom_quoted`). So a string that was meant to be one, and was
not read as one, can be told by the quotes that are left.

The counts are kept along the automaton. A string that is being read has taken one quote,
and will take another one (`State.pending`); what has been read of a token belongs to its
text (`Lexer.State.source`).

Joined operands are put behind one another with a blank between any two, and with none in
front of the first, so that what is joined is the texts up to blanks.
-/

namespace Hmr

namespace Token

/-- The text a token is written as. -/
def source : Token → Bytes
  | .word w => w
  | .string b => 34 :: (b ++ [34])
  | .newline => []

/-- A token of a quoted string. -/
def isString : Token → Bool
  | .string _ => true
  | _ => false

end Token

namespace Lexer

/-- How many strings there are. -/
def strings (ts : List Token) : Nat := ts.countP Token.isString

namespace State

/-- What has been read of a token. -/
def source : State → Bytes
  | .word w => w
  | .string b => 34 :: b
  | .escape b => 34 :: (b ++ [92])
  | _ => []

/-- Outside of strings. -/
def outside : State → Bool
  | .string _ | .escape _ => false
  | _ => true

/-- The quotes of a string that is still open. -/
def pending (s : State) : Nat := if s.outside then 0 else 1

end State

/-- **What may stand between the quotes of a string**: no quote and no line end but
behind a backslash. -/
def isStringBody : Bytes → Bool
  | [] => true
  | [c] => c != 34 && c != 92 && c != cr && c != lf
  | c :: e :: rest =>
    if c = 92 then isStringBody rest
    else c != 34 && c != cr && c != lf && isStringBody (e :: rest)

section
variable {c : UInt8} {text rest b : Bytes} {ts us : List Token} {s t : State}

/-! ## What is kept -/

/-- One character is kept, or not. -/
theorem next_sublist (h : next s c = some (us, t)) :
    (us.flatMap Token.source ++ t.source).Sublist (s.source ++ [c]) := by
  cases s with
  | start =>
    simp only [next] at h
    split_ifs at h with hblank hlf hcr hhash hquote <;> cases h
    · exact List.nil_sublist _
    · exact List.nil_sublist _
    · exact List.nil_sublist _
    · exact List.nil_sublist _
    · exact hquote ▸ List.Sublist.refl _
    · exact List.Sublist.refl _
  | word w =>
    simp only [next] at h
    split_ifs at h <;> cases h <;> simp [Token.source, State.source]
  | string b =>
    simp only [next] at h
    split_ifs at h with hquote hescape hbreak <;> cases h
    · simp [Token.source, State.source, hquote]
    · simp [State.source, hescape]
    · simp [State.source]
  | escape b =>
    cases h
    simp [State.source]
  | comment =>
    simp only [next] at h
    split_ifs at h <;> cases h <;> exact List.nil_sublist _
  | lineEnd =>
    simp only [next] at h
    split_ifs at h
    cases h
    exact List.nil_sublist _

/-- **Nothing is added to a text.** -/
theorem tokensFrom_sublist (h : tokensFrom s text = some ts) :
    (ts.flatMap Token.source).Sublist (s.source ++ text) := by
  induction text generalizing s ts with
  | nil =>
    cases s with
    | start =>
      cases h
      exact List.nil_sublist _
    | word w =>
      cases h
      simp [Token.source, State.source]
    | comment =>
      cases h
      exact List.nil_sublist _
    | _ => cases h
  | cons c text ih =>
    obtain ⟨us, t, vs, hnext, hvs, rfl⟩ := tokensFrom_cons h
    rw [List.flatMap_append, List.append_cons s.source c text]
    refine List.Sublist.trans ?_ ((next_sublist hnext).append_right text)
    rw [List.append_assoc]
    exact (ih hvs).append_left _

/-- **One character outside of comments is kept**, if it is none that ends a bareword: it goes
into the token that is read or completes one. Or a comment starts, and then the character is the
hash, of which no token has anything. -/
theorem next_source (h : next s c = some (us, t)) (hs : s ≠ .comment) :
    t ≠ .comment ∧ (us.flatMap Token.source ++ t.source).filter (!isBreak ·)
        = (s.source ++ [c]).filter (!isBreak ·)
      ∨ t = .comment ∧ us = [] ∧ s.source = [] ∧ c = 35 := by
  -- A character goes into the token that is read, completes one, or is a blank; or it is a
  -- hash, and the comment it opens has nothing of it.
  cases s with
  | start =>
    simp only [next] at h
    split_ifs at h with hblank hlf hcr hhash hquote <;> cases h
    · exact Or.inl ⟨State.noConfusion, by simp [State.source, isBreak, hblank]⟩
    · exact Or.inl ⟨State.noConfusion, by simp [Token.source, State.source, isBreak, hlf]⟩
    · exact Or.inl ⟨State.noConfusion, by simp [State.source, isBreak, hcr]⟩
    · exact Or.inr ⟨rfl, rfl, rfl, hhash⟩
    · exact Or.inl ⟨State.noConfusion, by rw [hquote]; rfl⟩
    · exact Or.inl ⟨State.noConfusion, rfl⟩
  | word w =>
    simp only [next] at h
    split_ifs at h with hblank hlf hcr <;> cases h
    · exact Or.inl ⟨State.noConfusion, by simp [Token.source, State.source, isBreak, hblank]⟩
    · exact Or.inl ⟨State.noConfusion, by simp [Token.source, State.source, isBreak, hlf]⟩
    · exact Or.inl ⟨State.noConfusion, by simp [Token.source, State.source, isBreak, hcr]⟩
    · exact Or.inl ⟨State.noConfusion, rfl⟩
  | string b =>
    simp only [next] at h
    split_ifs at h with hquote hescape hbreak <;> cases h
    · exact Or.inl ⟨State.noConfusion, by simp [Token.source, State.source, hquote]⟩
    · exact Or.inl ⟨State.noConfusion, by simp [State.source, hescape]⟩
    · exact Or.inl ⟨State.noConfusion, rfl⟩
  | escape b =>
    cases h
    exact Or.inl ⟨State.noConfusion, by simp [State.source]⟩
  | comment => exact absurd rfl hs
  | lineEnd =>
    simp only [next] at h
    split_ifs at h with hlf
    cases h
    exact Or.inl ⟨State.noConfusion, by simp [Token.source, State.source, isBreak, hlf]⟩

/-- **A text is kept but for blanks and line ends, or it has lost a hash.** -/
theorem tokensFrom_source (h : tokensFrom s text = some ts) (hs : s ≠ .comment) :
    (ts.flatMap Token.source).filter (!isBreak ·) = (s.source ++ text).filter (!isBreak ·)
      ∨ (ts.flatMap Token.source).count 35 < (s.source ++ text).count 35 := by
  induction text generalizing s ts with
  | nil =>
    cases s with
    | start =>
      cases h
      exact Or.inl rfl
    | word w =>
      cases h
      exact Or.inl (by simp [Token.source, State.source])
    | comment => exact absurd rfl hs
    | _ => cases h
  | cons c text ih =>
    obtain ⟨us, t, vs, hnext, hvs, rfl⟩ := tokensFrom_cons h
    rw [List.append_cons s.source c text, List.flatMap_append]
    obtain ⟨ht, hkept⟩ | ⟨rfl, rfl, hsource, rfl⟩ := next_source hnext hs
    · obtain hrest | hrest := ih hvs ht
      · refine Or.inl ?_
        rw [List.filter_append, hrest, ← List.filter_append, ← List.append_assoc,
          List.filter_append, hkept, ← List.filter_append]
      · refine Or.inr ?_
        have hfirst := (next_sublist hnext).count_le 35
        simp only [List.count_append] at hfirst hrest ⊢
        omega
    · refine Or.inr ?_
      have hrest := (tokensFrom_sublist hvs).count_le 35
      rw [hsource]
      simp only [State.source, List.nil_append, List.flatMap_nil, List.count_append,
        List.count_cons_self, List.count_nil] at hrest ⊢
      omega

/-! ## Strings and quotes -/

/-- Strings are counted together. -/
@[simp] theorem strings_append (ts us : List Token) :
    strings (ts ++ us) = strings ts + strings us :=
  List.countP_append

/-- What is not escaped stays as it is. -/
theorem isStringBody_cons (h : isStringBody (c :: text) = true) (hc : c ≠ 92) :
    (c ≠ 34 ∧ c ≠ cr ∧ c ≠ lf) ∧ isStringBody text = true := by
  cases text with
  | nil =>
    simp only [isStringBody, Bool.and_eq_true, bne_iff_ne] at h
    exact ⟨⟨h.1.1.1, h.1.2, h.2⟩, rfl⟩
  | cons e rest =>
    simp only [isStringBody, hc, if_false, Bool.and_eq_true, bne_iff_ne] at h
    exact ⟨⟨h.1.1.1, h.1.1.2, h.1.2⟩, h.2⟩

/-- A backslash escapes something. -/
theorem isStringBody_escape (h : isStringBody (92 :: text) = true) :
    ∃ e rest, text = e :: rest ∧ isStringBody rest = true := by
  cases text with
  | nil => cases h
  | cons e rest => exact ⟨e, rest, rfl, h⟩

/-- **A string is read up to its quote**, from within. -/
theorem tokensFrom_string (h : isStringBody text = true) :
    tokensFrom (.string b) (text ++ 34 :: rest)
      = (tokensFrom .start rest).map ([.string (b ++ text)] ++ ·) := by
  induction hn : text.length using Nat.strong_induction_on generalizing text b with
  | _ n ih =>
    subst hn
    cases text with
    | nil =>
      rw [List.append_nil]
      exact tokensFrom_of_next rfl
    | cons c text =>
      by_cases hc : c = 92
      · subst hc
        obtain ⟨e, more, rfl, hmore⟩ := isStringBody_escape h
        have hfirst : next (.string b) 92 = some ([], .escape b) := rfl
        have hsecond : next (.escape b) e = some ([], .string (b ++ [92, e])) := rfl
        rw [List.cons_append, List.cons_append, tokensFrom_of_next hfirst, map_nil_append,
          tokensFrom_of_next hsecond, map_nil_append,
          ih more.length (Nat.lt_succ_of_lt (Nat.lt_succ_self _)) hmore rfl, List.append_assoc]
        rfl
      · obtain ⟨⟨hquote, hcr, hlf⟩, hmore⟩ := isStringBody_cons h hc
        have hnext : next (.string b) c = some ([], .string (b ++ [c])) := by
          simp [next, hquote, hc, hcr, hlf]
        rw [List.cons_append, tokensFrom_of_next hnext, map_nil_append,
          ih text.length (by simp) hmore rfl, List.append_assoc]
        rfl

/-- **A quoted text between tokens is a string.** -/
theorem reads_string (h : isStringBody b = true) : Reads (34 :: (b ++ [34])) [.string b] :=
  fun rest => by
    have hopen : next .start 34 = some ([], .string []) := rfl
    rw [tokens, List.cons_append, List.append_assoc, tokensFrom_of_next hopen, map_nil_append]
    exact tokensFrom_string h

/-- Outside of strings only a quote opens one. -/
theorem next_outside (h : next s c = some (us, t)) (hs : s.outside = true) :
    strings us = 0 ∧ (t.outside = true ∨ c = 34 ∧ s = .start ∧ t = .string []) := by
  cases s with
  | start =>
    simp only [next] at h
    split_ifs at h with hblank hlf hcr hhash hquote <;> cases h
    · exact ⟨rfl, Or.inl rfl⟩
    · exact ⟨rfl, Or.inl rfl⟩
    · exact ⟨rfl, Or.inl rfl⟩
    · exact ⟨rfl, Or.inl rfl⟩
    · exact ⟨rfl, Or.inr ⟨hquote, rfl, rfl⟩⟩
    · exact ⟨rfl, Or.inl rfl⟩
  | word w =>
    simp only [next] at h
    split_ifs at h <;> cases h <;> exact ⟨rfl, Or.inl rfl⟩
  | comment =>
    simp only [next] at h
    split_ifs at h <;> cases h <;> exact ⟨rfl, Or.inl rfl⟩
  | lineEnd =>
    simp only [next] at h
    split_ifs at h
    cases h
    exact ⟨rfl, Or.inl rfl⟩
  | _ => cases hs

/-- Behind a backslash there is a bareword or a comment. -/
theorem next_backslash (h : next s 92 = some (us, t)) (hs : s.outside = true) :
    strings us = 0 ∧ t ≠ .start ∧ t.outside = true := by
  cases s with
  | start =>
    cases h
    exact ⟨rfl, State.noConfusion, rfl⟩
  | word w =>
    cases h
    exact ⟨rfl, State.noConfusion, rfl⟩
  | comment =>
    cases h
    exact ⟨rfl, State.noConfusion, rfl⟩
  | lineEnd => cases h
  | _ => cases hs

/-- **A text that was meant for a string** opens none outside of strings: its quotes
are in barewords. -/
theorem tokensFrom_body (hbody : isStringBody text = true)
    (h : tokensFrom s (text ++ rest) = some ts) (hs : s.outside = true) :
    ∃ t us, t.outside = true ∧ tokensFrom t rest = some us ∧ strings ts = strings us := by
  induction hn : text.length using Nat.strong_induction_on generalizing text s ts with
  | _ n ih =>
    subst hn
    cases text with
    | nil => exact ⟨s, ts, hs, h, rfl⟩
    | cons c text =>
      obtain ⟨us, t, vs, hnext, hvs, rfl⟩ := tokensFrom_cons h
      rw [strings_append]
      by_cases hc : c = 92
      · subst hc
        obtain ⟨e, more, rfl, hmore⟩ := isStringBody_escape hbody
        obtain ⟨hus, hstart, ht⟩ := next_backslash hnext hs
        obtain ⟨us', t', vs', hnext', hvs', rfl⟩ := tokensFrom_cons hvs
        obtain ⟨hus', ht' | ⟨-, hstart', -⟩⟩ := next_outside hnext' ht
        · obtain ⟨u, ws, hu, hws, hcount⟩ :=
            ih more.length (Nat.lt_succ_of_lt (Nat.lt_succ_self _)) hmore hvs' ht' rfl
          exact ⟨u, ws, hu, hws, by rw [strings_append, hus, hus', hcount]; omega⟩
        · exact absurd hstart' hstart
      · obtain ⟨⟨hquote, -, -⟩, hmore⟩ := isStringBody_cons hbody hc
        obtain ⟨hus, ht | ⟨hc', -, -⟩⟩ := next_outside hnext hs
        · obtain ⟨u, ws, hu, hws, hcount⟩ := ih text.length (by simp) hmore hvs ht rfl
          exact ⟨u, ws, hu, hws, by rw [hus, hcount, Nat.zero_add]⟩
        · exact absurd hc' hquote

/-- Outside of a string no quote is expected. -/
theorem pending_of_outside (h : s.outside = true) : s.pending = 0 := if_pos h

/-- Inside it is one. -/
theorem pending_le (s : State) : s.pending ≤ 1 := by
  unfold State.pending
  split
  · exact Nat.zero_le 1
  · exact le_rfl

/-- A text with neither quotes nor backslashes neither opens nor closes a string. -/
theorem tokensFrom_unquoted (htext : ∀ c ∈ text, c ≠ 34 ∧ c ≠ 92)
    (h : tokensFrom s (text ++ rest) = some ts) (hs : ∀ b, s ≠ .escape b) :
    ∃ t us, (∀ b, t ≠ .escape b) ∧ t.pending = s.pending ∧ tokensFrom t rest = some us
      ∧ strings ts = strings us := by
  induction text generalizing s ts with
  | nil => exact ⟨s, ts, hs, rfl, h, rfl⟩
  | cons c text ih =>
    rw [List.forall_mem_cons] at htext
    obtain ⟨us, t, vs, hnext, hvs, rfl⟩ := tokensFrom_cons h
    have hstep : (∀ b, t ≠ .escape b) ∧ t.pending = s.pending ∧ strings us = 0 := by
      cases hout : s.outside with
      | true =>
        obtain ⟨hus, ht | ⟨hc, -, -⟩⟩ := next_outside hnext hout
        · refine ⟨fun b hb => ?_, ?_, hus⟩
          · rw [hb] at ht
            cases ht
          · rw [pending_of_outside ht, pending_of_outside hout]
        · exact absurd hc htext.1.1
      | false =>
        cases s with
        | string b =>
          simp only [next, htext.1.1, htext.1.2, if_false] at hnext
          split_ifs at hnext
          cases hnext
          exact ⟨fun _ => State.noConfusion, rfl, rfl⟩
        | escape b => exact absurd rfl (hs b)
        | _ => cases hout
    obtain ⟨t', vs', ht', hpending, hvs', hcount⟩ := ih htext.2 hvs hstep.1
    refine ⟨t', vs', ht', hpending.trans hstep.2.1, hvs', ?_⟩
    rw [strings_append, hstep.2.2, hcount, Nat.zero_add]

/-- The end of a text that was meant for a string, outside of strings: its last quote
may open one. -/
theorem tokensFrom_body_quote (hbody : isStringBody b = true)
    (h : tokensFrom s (b ++ 34 :: rest) = some ts) (hs : s.outside = true) :
    ∃ t us, (∀ b, t ≠ .escape b) ∧ tokensFrom t rest = some us ∧ strings ts = strings us := by
  obtain ⟨t, us, ht, hus, hcount⟩ := tokensFrom_body hbody h hs
  obtain ⟨vs, t', ws, hnext, hws, rfl⟩ := tokensFrom_cons hus
  obtain ⟨hvs, ht'⟩ := next_outside hnext ht
  refine ⟨t', ws, fun b hb => ?_, hws, by rw [hcount, strings_append, hvs, Nat.zero_add]⟩
  obtain hout | ⟨-, -, hopen⟩ := ht'
  · rw [hb] at hout
    cases hout
  · rw [hb] at hopen
    cases hopen

/-- A bareword runs into a quoted text, and takes its first quote. -/
theorem tokensFrom_quoted_word {w : Bytes} (hbody : isStringBody b = true)
    (h : tokensFrom (.word w) (34 :: (b ++ 34 :: rest)) = some ts) :
    ∃ t us, (∀ b, t ≠ .escape b) ∧ tokensFrom t rest = some us
      ∧ 2 * strings ts + t.pending ≤ 1 + 2 * strings us := by
  have hnext : next (.word w) 34 = some ([], .word (w ++ [34])) := rfl
  rw [tokensFrom_of_next hnext, map_nil_append] at h
  obtain ⟨t, us, ht, hus, hcount⟩ := tokensFrom_body_quote hbody h rfl
  have := pending_le t
  exact ⟨t, us, ht, hus, by omega⟩

/-- **A quoted text uses up two quotes at most**, wherever the lexer is when it comes to it. At
the start of a token it is one string; in a word it is part of the word; in a string that is open
its first quote is the closing one; and in a comment it is skipped to the end of the line. -/
theorem tokensFrom_quoted (hbody : isStringBody b = true)
    (h : tokensFrom s (34 :: (b ++ 34 :: rest)) = some ts) (hs : ∀ b, s ≠ .escape b) :
    ∃ t us, (∀ b, t ≠ .escape b) ∧ tokensFrom t rest = some us
      ∧ 2 * strings ts + t.pending ≤ s.pending + 2 + 2 * strings us := by
  cases s with
  | start =>
    rw [List.append_cons, ← List.cons_append] at h
    have hread := reads_string hbody rest
    rw [tokens, h] at hread
    obtain ⟨us, hus, rfl⟩ := Option.map_eq_some_iff.mp hread.symm
    refine ⟨.start, us, fun _ => State.noConfusion, hus, ?_⟩
    rw [strings_append]
    simp [strings, Token.isString, State.pending, State.outside, Nat.mul_add]
  | word w =>
    obtain ⟨t, us, ht, hus, hcount⟩ := tokensFrom_quoted_word hbody h
    exact ⟨t, us, ht, hus, by omega⟩
  | string b' =>
    -- The quote that was to open the text closes a string.
    have hnext : next (.string b') 34 = some ([.string b'], .start) := rfl
    rw [tokensFrom_of_next hnext] at h
    obtain ⟨vs, hvs, rfl⟩ := Option.map_eq_some_iff.mp h
    obtain ⟨t, us, ht, hus, hcount⟩ := tokensFrom_body_quote hbody hvs rfl
    have := pending_le t
    have hone : strings [.string b'] = 1 := rfl
    have hopen : (State.string b').pending = 1 := rfl
    refine ⟨t, us, ht, hus, ?_⟩
    rw [strings_append, hcount, hone, hopen]
    omega
  | escape b' => exact absurd rfl (hs b')
  | comment =>
    have hnext : next .comment 34 = some ([], .comment) := rfl
    rw [tokensFrom_of_next hnext, map_nil_append] at h
    obtain ⟨t, us, ht, hus, hcount⟩ := tokensFrom_body_quote hbody h rfl
    have := pending_le t
    exact ⟨t, us, ht, hus, by omega⟩
  | lineEnd =>
    rw [tokensFrom] at h
    cases h

/-! ## Blanks -/

/-- Blanks between tokens are left out. -/
theorem tokensFrom_blanks (h : ∀ c ∈ text, isBlank c = true) :
    tokensFrom .start (text ++ rest) = tokensFrom .start rest := by
  induction text with
  | nil => rfl
  | cons c text ih =>
    rw [List.forall_mem_cons] at h
    have hnext : next .start c = some ([], .start) := by simp [next, h.1]
    rw [List.cons_append, tokensFrom_of_next hnext, map_nil_append, ih h.2]

/-- A blank ends a bareword. -/
theorem tokensFrom_word_blanks {w : Bytes} (h : ∀ c ∈ text, isBlank c = true) (hne : text ≠ []) :
    tokensFrom (.word w) (text ++ rest) = (tokensFrom .start rest).map ([.word w] ++ ·) := by
  cases text with
  | nil => exact absurd rfl hne
  | cons c text =>
    rw [List.forall_mem_cons] at h
    have hnext : next (.word w) c = some ([.word w], .start) := by simp [next, h.1]
    rw [List.cons_append, tokensFrom_of_next hnext, tokensFrom_blanks h.2]

end

end Lexer

/-! ## What is read -/

namespace Parser

open Lexer

/-- The characters an escape is made of, or stands for. -/
def escapes : Bytes := [92, 110, 116, 114, lf, tab, cr]

section
variable {x : UInt8}

/-- **All other characters are as many when a string is decoded.** -/
theorem count_unescapeString (hx : x ∉ escapes) (b : Bytes) :
    (unescapeString b).count x = b.count x := by
  simp only [escapes, List.mem_cons, List.not_mem_nil, not_or, or_false] at hx
  obtain ⟨hslash, hn, ht, hr, hlf, htab, hcr⟩ := hx
  induction b using unescapeString.induct with
  | case1 => rfl
  | case2 c => rfl
  | case3 e rest ih =>
    have hescape : ∀ d : UInt8, d ≠ x → ∀ l : Bytes, (d :: l).count x = l.count x :=
      fun d hd l => List.count_cons_of_ne hd
    rw [unescapeString, if_pos rfl, hescape 92 (Ne.symm hslash)]
    split_ifs with h110 h116 h114
    · rw [hescape _ (Ne.symm hlf), ih, hescape e (h110 ▸ Ne.symm hn)]
    · rw [hescape _ (Ne.symm htab), ih, hescape e (h116 ▸ Ne.symm ht)]
    · rw [hescape _ (Ne.symm hcr), ih, hescape e (h114 ▸ Ne.symm hr)]
    · rw [List.count_cons, ih, List.count_cons]
  | case4 c e rest hc ih =>
    rw [unescapeString, if_neg hc, List.count_cons, ih, ← List.count_cons]

/-- The texts of some atoms. -/
def texts (atoms : List Token) : Bytes := atoms.flatMap atomText

/-- The text of the first operand, and of the others. -/
@[simp] theorem texts_cons (t : Token) (atoms : List Token) :
    texts (t :: atoms) = atomText t ++ texts atoms := rfl

/-- Some atoms joined to a text that is there. -/
def joined (acc : Bytes) (atoms : List Token) : Bytes :=
  atoms.foldl (fun raw a => (if raw.isEmpty then raw else raw ++ [sp]) ++ atomText a) acc

/-- The first operand is joined to what there is. -/
theorem joined_cons (acc : Bytes) (t : Token) (atoms : List Token) :
    joined acc (t :: atoms)
      = joined ((if acc.isEmpty then acc else acc ++ [sp]) ++ atomText t) atoms := rfl

/-- The text of a value is its operands, joined. -/
theorem raw_readValue (atoms : List Token) : (readValue atoms).raw = joined [] atoms := rfl

/-- **A token is written with what its text has**, and two quotes if it is a string. The
characters counted are those that are not escaped: an escape adds a backslash, and only in front
of a character that is not among them. -/
theorem count_source (hx : x ∉ escapes) (atoms : List Token) :
    (atoms.flatMap Token.source).count x
      = (texts atoms).count x + if x = 34 then 2 * strings atoms else 0 := by
  -- A string has two quotes around it, and an escape only in front of what is no such
  -- character.
  induction atoms with
  | nil =>
    split
    · rfl
    · rfl
  | cons t atoms ih =>
    have hfirst : t.source.count x
        = (atomText t).count x + if x = 34 then 2 * strings [t] else 0 := by
      cases t with
      | word w =>
        split
        · rfl
        · rfl
      | string b =>
        have hsource : (Token.string b).source.count x
            = b.count x + [(34 : UInt8), 34].count x := by
          simp only [Token.source, List.count_cons, List.count_append, List.count_nil]
          omega
        rw [hsource, atomText, count_unescapeString hx]
        split
        · rename_i h
          subst h
          rfl
        · rename_i h
          rw [List.count_cons_of_ne (Ne.symm h), List.count_cons_of_ne (Ne.symm h)]
          rfl
      | newline =>
        split
        · rfl
        · rfl
    have hstrings : strings (t :: atoms) = strings [t] + strings atoms :=
      strings_append [t] atoms
    rw [List.flatMap_cons, List.count_append, hfirst, ih, hstrings, texts_cons, List.count_append]
    split
    · omega
    · omega

/-- Joining adds nothing but blanks. -/
theorem count_joined (hx : x ≠ sp) (atoms : List Token) (acc : Bytes) :
    (joined acc atoms).count x = acc.count x + (texts atoms).count x := by
  induction atoms generalizing acc with
  | nil => rfl
  | cons t atoms ih =>
    have hacc : (if acc.isEmpty then acc else acc ++ [sp]).count x = acc.count x := by
      split
      · rfl
      · rw [List.count_append, List.count_cons_of_ne (Ne.symm hx), List.count_nil, Nat.add_zero]
    rw [joined_cons, ih, List.count_append, hacc, texts_cons, List.count_append, Nat.add_assoc]

/-- **Joining adds a blank for every atom** behind some text. -/
theorem count_sp_joined (atoms : List Token) {acc : Bytes} (hacc : acc ≠ []) :
    (joined acc atoms).count sp = acc.count sp + (texts atoms).count sp + atoms.length := by
  induction atoms generalizing acc with
  | nil => rfl
  | cons t atoms ih =>
    have hstep : (if acc.isEmpty then acc else acc ++ [sp]) = acc ++ [sp] :=
      if_neg (by simpa using hacc)
    have hsp : [sp].count sp = 1 := rfl
    rw [joined_cons, hstep, ih (by simp), texts_cons, List.count_append, List.count_append,
      List.count_append, List.length_cons, hsp]
    omega

end

end Parser

end Hmr
