import Hmr.Bytes
import Mathlib.Data.List.Chain

/-!
# The lexer

The grammar of rulesets knows barewords, double-quoted strings, comments and line ends. A
keyword is a bareword with a certain spelling, and what it means is a matter of where it
stands, so that it is left to the parser.

The rules are told apart by their first character and never by more, so the lexer is one
automaton that goes character by character (`Lexer.next`). Outside of the ASCII range all
characters are alike to it, and so are the bytes that encode them. It fails in one case
only, where the source reports a character it cannot match, or a string that is not
closed.

## What is proved of it

Two kinds of facts are wanted elsewhere. The printer's round trip needs that a text which
is made of barewords and line ends is read as it stands. A text that is read the same
whatever follows it can be put in front of others (`Reads`), so the texts the printer is
made of are read one by one and their tokens appended (`Reads.append`, `reads_words`).

The other direction asks what a text must have been if its tokens are the expected ones.
Strings and comments are where characters are lost: a comment leaves no token at all, and
a string loses its quotes. So the quotes and hashes are counted. No step makes any
(`next_marks`), so the tokens of a text have at most as many as the text
(`tokensFrom_marks`), and where they have all of them the automaton has never been in a
string or a comment (`bare_of_marks`).
-/

namespace Hmr

/-- **A token that reaches the parser.** -/
inductive Token
  /-- A bareword, be it a keyword or not. -/
  | word (text : Bytes)
  /-- A string, without its quotes. -/
  | string (body : Bytes)
  | newline
  deriving DecidableEq, Repr

namespace Lexer

/-- A blank, of `WS`. -/
def isBlank (c : UInt8) : Bool := c == sp || c == tab

/-- A bareword ends here. -/
def isBreak (c : UInt8) : Bool := isBlank c || c == cr || c == lf

/-- A bareword starts with neither `#` nor `"`. -/
def isMark (c : UInt8) : Bool := c == 35 || c == 34

/-- Where the lexer is: between tokens, or within one, with what it has read of
it. -/
inductive State
  | start
  | word (text : Bytes)
  | string (body : Bytes)
  /-- Behind a backslash in a string. -/
  | escape (body : Bytes)
  | comment
  /-- Behind a carriage return. -/
  | lineEnd
  deriving DecidableEq, Repr

/-- **One character**: the tokens it completes, and where the lexer is then. There
is no token for a line end within a string, nor for a carriage return without a
line feed. -/
def next (s : State) (c : UInt8) : Option (List Token × State) :=
  match s with
  | .start =>
    if isBlank c then some ([], .start)
    else if c = lf then some ([.newline], .start)
    else if c = cr then some ([], .lineEnd)
    else if c = 35 then some ([], .comment)
    else if c = 34 then some ([], .string [])
    else some ([], .word [c])
  | .word w =>
    if isBlank c then some ([.word w], .start)
    else if c = lf then some ([.word w, .newline], .start)
    else if c = cr then some ([.word w], .lineEnd)
    else some ([], .word (w ++ [c]))
  | .string b =>
    if c = 34 then some ([.string b], .start)
    else if c = 92 then some ([], .escape b)
    else if c = cr ∨ c = lf then none
    else some ([], .string (b ++ [c]))
  | .escape b => some ([], .string (b ++ [92, c]))
  | .comment =>
    if c = lf then some ([.newline], .start)
    else if c = cr then some ([], .lineEnd)
    else some ([], .comment)
  | .lineEnd => if c = lf then some ([.newline], .start) else none

/-- What the end of the text completes. -/
def finish : State → Option (List Token)
  | .start | .comment => some []
  | .word w => some [.word w]
  | .string _ | .escape _ | .lineEnd => none

/-- The tokens of a text, from some state on. -/
def tokensFrom : State → Bytes → Option (List Token)
  | s, [] => finish s
  | s, c :: rest => do
    let (ts, s) ← next s c
    let more ← tokensFrom s rest
    return ts ++ more

/-- **The tokens of a text.** -/
def tokens (text : Bytes) : Option (List Token) := tokensFrom .start text

/-! ## Texts that are read as they stand -/

/-- A bareword: no blanks or line ends, and no mark at its front. -/
def isWord : Bytes → Bool
  | [] => false
  | c :: rest => !isMark c && (c :: rest).all (!isBreak ·)

/-- A text reads as some tokens, whatever follows it. -/
def Reads (text : Bytes) (ts : List Token) : Prop :=
  ∀ rest, tokens (text ++ rest) = (tokens rest).map (ts ++ ·)

/-- Texts that are read as they stand are so one behind the other. -/
theorem Reads.append {a b : Bytes} {ts us : List Token} (ha : Reads a ts) (hb : Reads b us) :
    Reads (a ++ b) (ts ++ us) := by
  intro rest
  rw [List.append_assoc, ha, hb, Option.map_map]
  congr 1
  funext more
  exact (List.append_assoc ts us more).symm

/-- The empty text is no token. -/
theorem reads_nil : Reads [] [] := fun rest => by
  cases h : tokens rest with
  | none => exact h
  | some ts => exact h

/-- A text that is read as it stands, with nothing behind it. -/
theorem tokens_of_reads {text : Bytes} {ts : List Token} (h : Reads text ts) :
    tokens text = some ts := by
  have := h []
  rw [List.append_nil] at this
  rw [this]
  simp [tokens, tokensFrom, finish]

/-- **A list of such texts**, each of them read on its own. -/
theorem Reads.flatMap {α : Type} (f : α → Bytes) (g : α → List Token) (l : List α)
    (h : ∀ a ∈ l, Reads (f a) (g a)) : Reads (l.flatMap f) (l.flatMap g) := by
  induction l with
  | nil => exact reads_nil
  | cons a l ih =>
    rw [List.forall_mem_cons] at h
    exact h.1.append (ih h.2)

section
variable {c : UInt8} {w text rest : Bytes} {ts : List Token}

/-- A blank ends a bareword, so what does not end one is no blank. -/
theorem not_blank_of_not_break (h : isBreak c = false) : isBlank c = false := by
  simp only [isBreak, Bool.or_eq_false_iff] at h
  exact h.1.1

/-- The tokens of a text are those its first character completes, and those of the rest. -/
theorem tokensFrom_of_next {s t : State} (h : next s c = some (ts, t)) :
    tokensFrom s (c :: rest) = (tokensFrom t rest).map (ts ++ ·) := by
  rw [tokensFrom, h]
  exact Option.map_eq_bind.symm

/-- Nothing in front of the tokens, if there are any. -/
@[simp] theorem map_nil_append (o : Option (List Token)) : o.map ([] ++ ·) = o := Option.map_id'

/-- A character after which the lexer is between tokens again is read on its own. -/
theorem reads_of_next (h : next .start c = some (ts, .start)) : Reads [c] ts := fun _ =>
  tokensFrom_of_next h

/-- A line feed is a line end. -/
theorem reads_lf : Reads [lf] [.newline] := reads_of_next rfl

/-- Blanks between tokens are skipped, however many there are. -/
theorem reads_blanks (n : Nat) : Reads (List.replicate n sp) [] := by
  induction n with
  | zero => exact reads_nil
  | succ n ih => exact (reads_of_next rfl : Reads [sp] []).append ih

/-- A bareword goes on until a break. -/
theorem tokensFrom_word (h : ∀ c ∈ text, isBreak c = false) :
    tokensFrom (.word w) (text ++ rest) = tokensFrom (.word (w ++ text)) rest := by
  induction text generalizing w with
  | nil => rw [List.nil_append, List.append_nil]
  | cons c text ih =>
    rw [List.forall_mem_cons] at h
    have hnext : next (.word w) c = some ([], .word (w ++ [c])) := by
      have hc := h.1
      simp only [isBreak, Bool.or_eq_false_iff, beq_eq_false_iff_ne] at hc
      simp [next, hc]
    rw [List.cons_append, tokensFrom_of_next hnext, map_nil_append, ih h.2, List.append_assoc]
    rfl

/-- A text that starts with a bareword. -/
theorem tokens_word (hw : isWord w = true) :
    tokens (w ++ rest) = tokensFrom (.word w) rest := by
  cases w with
  | nil => cases hw
  | cons c w =>
    simp only [isWord, Bool.and_eq_true, Bool.not_eq_true', List.all_eq_true] at hw
    obtain ⟨hmark, hbreak⟩ := hw
    rw [List.forall_mem_cons] at hbreak
    have hnext : next .start c = some ([], .word [c]) := by
      have hc := hbreak.1
      simp only [isBreak, isMark, Bool.or_eq_false_iff, beq_eq_false_iff_ne] at hc hmark
      simp [next, hc, hmark]
    rw [tokens, List.cons_append, tokensFrom_of_next hnext, map_nil_append,
      tokensFrom_word hbreak.2]
    rfl

/-- A bareword with a blank behind it. -/
theorem reads_word_sp (hw : isWord w = true) : Reads (w ++ [sp]) [.word w] := fun rest => by
  rw [List.append_assoc, tokens_word hw]
  exact tokensFrom_of_next rfl

/-- A bareword at the end of its line: what ends it is a token as well. -/
theorem reads_word_lf (hw : isWord w = true) :
    Reads (w ++ [lf]) [.word w, .newline] := fun rest => by
  rw [List.append_assoc, tokens_word hw]
  exact tokensFrom_of_next rfl

/-- **Barewords, a blank between any two, and a line end.** -/
theorem reads_words {ws : List Bytes} (hw : ∀ w ∈ ws, isWord w = true) :
    Reads ([sp].intercalate ws ++ [lf]) (ws.map .word ++ [.newline]) := by
  induction ws with
  | nil => exact reads_lf
  | cons w ws ih =>
    rw [List.forall_mem_cons] at hw
    cases ws with
    | nil =>
      rw [List.intercalate_singleton]
      exact reads_word_lf hw.1
    | cons v ws =>
      rw [List.intercalate_cons_cons, List.append_assoc]
      exact (reads_word_sp hw.1).append (ih hw.2)

end

/-! ## What is lost -/

/-- The marks in a text: its hashes and quotes. -/
def marks (text : Bytes) : Nat := text.countP isMark

/-- The marks a token keeps. -/
def tokenMarks : Token → Nat
  | .word w => marks w
  | .string b => marks b
  | .newline => 0

/-- The marks of the token that is being read. -/
def State.marks : State → Nat
  | .word w => Lexer.marks w
  | .string b | .escape b => Lexer.marks b
  | _ => 0

/-- The marks of some tokens. -/
def marksOf (ts : List Token) : Nat := (ts.map tokenMarks).sum

section
variable {c : UInt8} {text : Bytes} {ts us : List Token} {s t : State}

@[simp] theorem marks_nil : marks [] = 0 := rfl

/-- The marks of two texts are counted together. -/
@[simp] theorem marks_append (a b : Bytes) :
    marks (a ++ b) = marks a + marks b := List.countP_append

/-- The first character counts by itself. -/
theorem marks_cons (c : UInt8) (a : Bytes) : marks (c :: a) = marks [c] + marks a :=
  marks_append [c] a

/-- The backslash in front of an escaped character is no mark. -/
@[simp] theorem marks_escape (c : UInt8) : marks [92, c] = marks [c] :=
  (marks_cons 92 [c]).trans (Nat.zero_add _)

/-- So are the marks of tokens. -/
@[simp] theorem marksOf_append (ts us : List Token) :
    marksOf (ts ++ us) = marksOf ts + marksOf us := by
  simp [marksOf]

/-- **A text with tokens is read a character at a time**: its first step succeeds, and so does
the rest from the state it leads to. -/
theorem tokensFrom_cons (h : tokensFrom s (c :: text) = some ts) :
    ∃ us t vs, next s c = some (us, t) ∧ tokensFrom t text = some vs ∧ ts = us ++ vs := by
  cases hnext : next s c with
  | none =>
    rw [tokensFrom, hnext] at h
    cases h
  | some q =>
    rw [tokensFrom_of_next hnext] at h
    obtain ⟨vs, hvs, rfl⟩ := Option.map_eq_some_iff.mp h
    exact ⟨q.1, q.2, vs, rfl, hvs, rfl⟩

/-- **A character keeps no more marks than there are.** -/
theorem next_marks (h : next s c = some (ts, t)) :
    marksOf ts + t.marks ≤ s.marks + marks [c] := by
  cases s with
  | start =>
    simp only [next] at h
    split_ifs at h <;> cases h <;> simp [marksOf, tokenMarks, State.marks]
  | word w =>
    simp only [next] at h
    split_ifs at h <;> cases h <;> simp [marksOf, tokenMarks, State.marks]
  | string b =>
    simp only [next] at h
    split_ifs at h <;> cases h <;> simp [marksOf, tokenMarks, State.marks]
  | escape b =>
    cases h
    simp [marksOf, State.marks]
  | comment =>
    simp only [next] at h
    split_ifs at h <;> cases h <;> simp [marksOf, tokenMarks, State.marks]
  | lineEnd =>
    simp only [next] at h
    split_ifs at h
    cases h
    simp [marksOf, tokenMarks, State.marks]

/-- **Tokens have no more marks than their text**, counting those of the token that is being
read. -/
theorem tokensFrom_marks (h : tokensFrom s text = some ts) :
    marksOf ts ≤ s.marks + marks text := by
  induction text generalizing s ts with
  | nil =>
    cases s <;> cases h <;> simp [marksOf, tokenMarks, State.marks]
  | cons c text ih =>
    obtain ⟨us, t, vs, hnext, hvs, rfl⟩ := tokensFrom_cons h
    have hfirst := next_marks hnext
    have hrest := ih hvs
    rw [marksOf_append, marks_cons]
    omega

/-- No mark behind a blank. -/
def Unmarked (text : Bytes) : Prop := text.IsChain fun a b => a = sp → isMark b = false

/-- There are barewords and line ends only. -/
def Bare (ts : List Token) : Prop := ∀ b, Token.string b ∉ ts

/-- Outside of strings and comments. -/
def State.plain : State → Bool
  | .string _ | .escape _ | .comment => false
  | _ => true

/-- Bare tokens are so together. -/
theorem Bare.append (ht : Bare ts) (hu : Bare us) : Bare (ts ++ us) := fun b hb =>
  (List.mem_append.mp hb).elim (ht b) (hu b)

/-- A character in front of an unmarked text leaves it so, if it is no blank, or if no mark
follows it. -/
theorem unmarked_cons (h : Unmarked text) (hc : c = sp → ∀ d, text.head? = some d →
    isMark d = false) : Unmarked (c :: text) := by
  cases text with
  | nil => exact List.isChain_singleton c
  | cons d text => exact List.isChain_cons_cons.mpr ⟨fun h => hc h d rfl, h⟩

/-- One step outside of strings and comments stays outside, or a mark is lost. Only a quote or a
hash between tokens leaves the outside, and the token that comes of it has fewer marks than were
read: the quotes are not part of a string's text, and a comment is no token at all. -/
theorem next_plain (h : next s c = some (us, t)) (hs : s.plain = true) :
    Bare us ∧ (c = sp → t = .start)
      ∧ (t.plain = true ∧ (s = .start → isMark c = false)
        ∨ marksOf us + t.marks < s.marks + marks [c]) := by
  -- Either the step stays outside of strings and comments, or it takes a quote or a hash that
  -- no token keeps.
  cases s with
  | start =>
    simp only [next] at h
    split_ifs at h with hblank hlf hcr hhash hquote <;> cases h
    · have hc : isMark c = false := by
        simp only [isBlank, Bool.or_eq_true, beq_iff_eq] at hblank
        rcases hblank with rfl | rfl <;> rfl
      exact ⟨by simp [Bare], fun _ => rfl, Or.inl ⟨rfl, fun _ => hc⟩⟩
    · exact ⟨by simp [Bare], fun _ => rfl, Or.inl ⟨rfl, fun _ => by subst hlf; rfl⟩⟩
    · subst hcr
      exact ⟨by simp [Bare], fun h => (nomatch h), Or.inl ⟨rfl, fun _ => rfl⟩⟩
    · subst hhash
      exact ⟨by simp [Bare], fun h => (nomatch h), Or.inr (by decide)⟩
    · subst hquote
      exact ⟨by simp [Bare], fun h => (nomatch h), Or.inr (by decide)⟩
    · refine ⟨by simp [Bare], fun h => absurd (by subst h; rfl) hblank,
        Or.inl ⟨rfl, fun _ => ?_⟩⟩
      simp [isMark, hhash, hquote]
  | word w =>
    simp only [next] at h
    split_ifs at h with hblank hlf hcr <;> cases h
    · exact ⟨by simp [Bare], fun _ => rfl, Or.inl ⟨rfl, fun h => (nomatch h)⟩⟩
    · exact ⟨by simp [Bare], fun _ => rfl, Or.inl ⟨rfl, fun h => (nomatch h)⟩⟩
    · exact ⟨by simp [Bare], fun h => absurd (by subst h; rfl) hblank,
        Or.inl ⟨rfl, fun h => (nomatch h)⟩⟩
    · exact ⟨by simp [Bare], fun h => absurd (by subst h; rfl) hblank,
        Or.inl ⟨rfl, fun h => (nomatch h)⟩⟩
  | lineEnd =>
    simp only [next] at h
    split_ifs at h
    cases h
    exact ⟨by simp [Bare], fun _ => rfl, Or.inl ⟨rfl, fun h => (nomatch h)⟩⟩
  | _ => cases hs

/-- **A text all of whose marks are kept has no strings and no comments.** -/
theorem bare_of_marks (h : tokensFrom s text = some ts) (hs : s.plain = true)
    (heq : s.marks + marks text ≤ marksOf ts) :
    Bare ts ∧ Unmarked text ∧ (s = .start → ∀ d, text.head? = some d → isMark d = false) := by
  induction text generalizing s ts with
  | nil =>
    refine ⟨?_, List.isChain_nil, fun _ d hd => (nomatch hd)⟩
    cases s <;> cases h <;> simp_all [Bare, State.plain]
  | cons c text ih =>
    obtain ⟨us, t, vs, hnext, hvs, rfl⟩ := tokensFrom_cons h
    have hfirst := next_marks hnext
    have hrest := tokensFrom_marks hvs
    rw [marksOf_append, marks_cons] at heq
    obtain ⟨hus, hblank, ⟨ht, hmark⟩ | hlost⟩ := next_plain hnext hs
    · obtain ⟨hbare, hunmarked, hhead⟩ := ih hvs ht (by omega)
      refine ⟨hus.append hbare, unmarked_cons hunmarked fun hc => hhead (hblank hc), ?_⟩
      intro hstart d hd
      cases hd
      exact hmark hstart
    · omega

/-! ## Barewords -/

/-- The bareword that is being read. -/
def State.WellFormed : State → Prop
  | .word w => isWord w = true
  | _ => True

/-- **One step** completes barewords only, and goes on with one: what starts a bareword is a
character that may, what is appended to it is one that may stand in it, and it is put out as it
is when a character comes that may not. -/
theorem next_words (h : next s c = some (us, t)) (hs : s.WellFormed) :
    t.WellFormed ∧ ∀ w, Token.word w ∈ us → isWord w = true := by
  -- A bareword is started by a character that may start one, and goes on with characters that
  -- may stand in it; so what is completed is one.
  cases s with
  | start =>
    simp only [next] at h
    split_ifs at h with hblank hlf hcr hhash hquote <;> cases h
    · exact ⟨trivial, by simp⟩
    · exact ⟨trivial, by simp⟩
    · exact ⟨trivial, by simp⟩
    · exact ⟨trivial, by simp⟩
    · exact ⟨trivial, by simp⟩
    · refine ⟨?_, by simp⟩
      simp [State.WellFormed, isWord, isBreak, isMark, hblank, hlf, hcr, hhash, hquote]
  | word w =>
    simp only [next] at h
    split_ifs at h with hblank hlf hcr <;> cases h
    · exact ⟨trivial, by simpa [State.WellFormed] using hs⟩
    · exact ⟨trivial, by simpa [State.WellFormed] using hs⟩
    · exact ⟨trivial, by simpa [State.WellFormed] using hs⟩
    · refine ⟨?_, by simp⟩
      cases w with
      | nil => cases hs
      | cons d w =>
        simp_all [State.WellFormed, isWord, isBreak]
  | string b =>
    simp only [next] at h
    split_ifs at h <;> cases h <;> exact ⟨trivial, by simp⟩
  | escape b =>
    cases h
    exact ⟨trivial, by simp⟩
  | comment =>
    simp only [next] at h
    split_ifs at h <;> cases h <;> exact ⟨trivial, by simp⟩
  | lineEnd =>
    simp only [next] at h
    split_ifs at h
    cases h
    exact ⟨trivial, by simp⟩

/-- **The lexer's barewords are barewords.** -/
theorem tokensFrom_words (h : tokensFrom s text = some ts) (hs : s.WellFormed) :
    ∀ w, Token.word w ∈ ts → isWord w = true := by
  induction text generalizing s ts with
  | nil =>
    cases s <;> cases h <;> simp_all [State.WellFormed]
  | cons c text ih =>
    obtain ⟨us, t, vs, hnext, hvs, rfl⟩ := tokensFrom_cons h
    obtain ⟨ht, hus⟩ := next_words hnext hs
    intro w hw
    exact (List.mem_append.mp hw).elim (hus w) (ih hvs ht w)

end

end Lexer

end Hmr
