import Mathlib.Data.List.DropRight
import Mathlib.Tactic.Common

/-!
# Lines, comments and tokens of C++

A C++ compiler reads a file in phases. First every line end – a line feed, a carriage
return, or a carriage return and a line feed – becomes one new-line (`Cpp.newlines`).
Then lines are joined: a backslash goes that has nothing but blanks between it and the
end of its line, and the blanks and the new-line go with it (`Cpp.splice`). Then it
reads tokens – words, which numbers are here, too, operators and punctuators, the
longest one that fits, and literals – and skips blanks and `//` comments between them
(`Cpp.tokens`). Alternative tokens, raw literals and comments of the other kind are left
out.

The standard and the compiler differ about one character: for g++ NUL is a blank as a
space is. So everything here is said for a `Cpp.Dialect`.

Each phase is an automaton that reads its text once, from the front: what it puts out for
a character depends on what it is in the middle of. `Cpp.feed` runs such an automaton,
and what is read of one text behind the other is the same for all of them
(`Cpp.feed_append`).

Three facts about the automata are what everything rests on. At a line end nothing is
held back of the line, and the reader is between tokens, whatever it has read: so lines
may be read one by one (`Cpp.tokens_line`). In a comment it reads nothing up to the line
end (`Cpp.feed_comment`). And a line is joined with the next one exactly if something is
held back of it when it ends, which is a backslash with blanks behind it
(`Cpp.held_eq_nil`).
-/

namespace Cpp

/-! ## Automata -/

section
variable {α β σ : Type} (step : σ → α → List β × σ)

/-- **An automaton reads a text**: what it puts out for it, and the state it is in
then. -/
def feed : σ → List α → List β × σ
  | s, [] => ([], s)
  | s, c :: rest => ((step s c).1 ++ (feed (step s c).2 rest).1, (feed (step s c).2 rest).2)

/-- There is nothing to read. -/
@[simp] theorem feed_nil (s : σ) : feed step s [] = ([], s) := rfl

/-- A character, and the others from the state it leads to. -/
@[simp] theorem feed_cons (s : σ) (c : α) (rest : List α) :
    feed step s (c :: rest)
      = ((step s c).1 ++ (feed step (step s c).2 rest).1, (feed step (step s c).2 rest).2) := rfl

/-- **One text behind the other** is read in the state the first one leaves. -/
theorem feed_append (s : σ) (a b : List α) :
    feed step s (a ++ b)
      = ((feed step s a).1 ++ (feed step (feed step s a).2 b).1,
        (feed step (feed step s a).2 b).2) := by
  induction a generalizing s with
  | nil => rfl
  | cons c a ih => simp only [List.cons_append, feed_cons, ih, List.append_assoc]

/-- A text whose characters go through one by one goes through. -/
theorem feed_through {step : σ → α → List α × σ} {s : σ} {l : List α}
    (h : ∀ c ∈ l, step s c = ([c], s)) : feed step s l = (l, s) := by
  induction l with
  | nil => rfl
  | cons c l ih =>
    rw [feed_cons, h c List.mem_cons_self, ih fun d hd => h d (List.mem_cons_of_mem _ hd)]
    rfl

end

/-! ## Line ends -/

/-- Whose C++ it is: that of the standard, or that of g++, for which NUL is a blank. -/
inductive Dialect
  | iso
  | gnu
  deriving DecidableEq

/-- A line end, in one of its spellings: the new-line is put out at a carriage return, and
a line feed behind that adds none. The state is whether there was one just before. -/
def lineEnd (behindReturn : Bool) (c : UInt8) : List UInt8 × Bool :=
  if c = 13 then ([10], true)
  else if c = 10 ∧ behindReturn = true then ([], false)
  else ([c], false)

/-- **Line ends become new-lines.** -/
def newlines (text : List UInt8) : List UInt8 := (feed lineEnd false text).1

/-- Blanks: space, tab, vertical tab and form feed, and NUL where it is one. -/
def isBlank (d : Dialect) (c : UInt8) : Bool :=
  c == 32 || c == 9 || c == 11 || c == 12 || (d == .gnu && c == 0)

/-- **Joining lines.** A backslash is held back, and the blanks behind it; they go if the
line ends there, and are put out as soon as it goes on. -/
def join (d : Dialect) (held : List UInt8) (c : UInt8) : List UInt8 × List UInt8 :=
  if c = 92 then (held, [92])
  else if held = [] then ([c], [])
  else if c = 10 then ([], [])
  else if isBlank d c then ([], held ++ [c])
  else (held ++ [c], [])

/-- **Line splicing**; what is held back at the end of the text is part of it. -/
def splice (d : Dialect) (text : List UInt8) : List UInt8 :=
  (feed (join d) [] text).1 ++ (feed (join d) [] text).2

/-! ## Tokens -/

/-- A token: a word, an operator or punctuator, or a string or character literal. -/
inductive Token
  | word (w : List UInt8)
  | punct (p : List UInt8)
  | literal (quote : UInt8) (body : List UInt8)
  deriving DecidableEq

/-- The characters of an ASCII text. -/
def chars (s : String) : List UInt8 := s.toList.map fun c => UInt8.ofNat c.toNat

/-- The operators and punctuators of more than one character, and two dots, which may
become three. -/
def longer : List (List UInt8) :=
  ["::", ".*", "..", "...", "->", "->*", "++", "--", "<<", ">>", "<=", ">=", "<=>", "==", "!=",
    "&&", "||", "+=", "-=", "*=", "/=", "%=", "^=", "&=", "|=", "<<=", ">>=", "##"].map chars

/-- What the reader is in the middle of. -/
inductive Lex
  /-- Nothing. -/
  | between
  /-- A word. -/
  | word (w : List UInt8)
  /-- An operator or a punctuator. -/
  | punct (p : List UInt8)
  /-- A `//` comment. -/
  | comment
  /-- A literal. -/
  | literal (quote : UInt8) (body : List UInt8)
  /-- A literal, behind a backslash. -/
  | escape (quote : UInt8) (body : List UInt8)
  deriving DecidableEq

/-- Letters, digits, the underscore, and all that is not ASCII. -/
def isWordChar (c : UInt8) : Bool :=
  (48 ≤ c && c ≤ 57) || (65 ≤ c && c ≤ 90) || c == 95 || (97 ≤ c && c ≤ 122) || 128 ≤ c

namespace Lex

/-- What has been read, if nothing is added to it. -/
def flush : Lex → List Token
  | between => []
  | word w => [.word w]
  | punct p => if p = [46, 46] then [.punct [46], .punct [46]] else [.punct p]
  | comment => []
  | literal q b => [.literal q b]
  | escape q b => [.literal q b]

/-- What a character starts. -/
def start (d : Dialect) (c : UInt8) : Lex :=
  if isWordChar c then word [c]
  else if c = 34 ∨ c = 39 then literal c []
  else if isBlank d c then between
  else punct [c]

end Lex

/-- **One character.** A line end ends everything, even a literal that is not closed. -/
def step (d : Dialect) (s : Lex) (c : UInt8) : List Token × Lex :=
  if c = 10 then (s.flush, .between)
  else match s with
    | .between => ([], .start d c)
    | .word w => if isWordChar c then ([], .word (w ++ [c])) else (s.flush, .start d c)
    | .punct p =>
      if p = [47] ∧ c = 47 then ([], .comment)
      else if longer.contains (p ++ [c]) then ([], .punct (p ++ [c]))
      else (s.flush, .start d c)
    | .comment => ([], .comment)
    | .literal q b =>
      if c = 92 then ([], .escape q (b ++ [c]))
      else if c = q then (s.flush, .between)
      else ([], .literal q (b ++ [c]))
    | .escape q b => ([], .literal q (b ++ [c]))

/-- The tokens of the rest of a text. -/
def tokensFrom (d : Dialect) (s : Lex) (text : List UInt8) : List Token :=
  let read := feed (step d) s (splice d (newlines text))
  read.1 ++ read.2.flush

/-- **The tokens of a text.** -/
def tokens (d : Dialect) (text : List UInt8) : List Token := tokensFrom d .between text

/-! ## Lines -/

section
variable {α β σ : Type} {step : σ → α → List β × σ} {c : α} {s₀ : σ}

/-- Behind a character that leads everywhere to one state, that is the state. -/
theorem feed_reset_snd (h : ∀ s, (step s c).2 = s₀) (s : σ) (a : List α) :
    (feed step s (a ++ [c])).2 = s₀ := by
  rw [feed_append]
  exact h _

/-- **A character that leads everywhere to one state** parts a text. -/
theorem feed_reset (h : ∀ s, (step s c).2 = s₀) (s : σ) (a b : List α) :
    feed step s (a ++ c :: b)
      = ((feed step s (a ++ [c])).1 ++ (feed step s₀ b).1, (feed step s₀ b).2) := by
  rw [List.append_cons, feed_append, feed_reset_snd h]

end

variable {d : Dialect} {l : List UInt8} {s : Lex}

/-- A new-line is read as such. -/
@[simp] theorem lineEnd_newline (b : Bool) : (lineEnd b 10).2 = false := by cases b <;> rfl

/-- Nothing is held back behind a new-line. -/
theorem join_newline (held : List UInt8) : (join d held 10).2 = [] := by
  unfold join
  rw [if_neg (by decide)]
  split
  · rfl
  · rfl

/-- Behind it the reader is between tokens. -/
@[simp] theorem step_newline (s : Lex) : (step d s 10).2 = .between := rfl

/-- A line end in one of its spellings is one new-line. -/
example : newlines [97, 13, 98, 13, 10, 99, 10] = [97, 10, 98, 10, 99, 10] := rfl

/-- **Line ends are found line by line.** -/
theorem newlines_line (a b : List UInt8) :
    newlines (a ++ 10 :: b) = newlines (a ++ [10]) ++ newlines b := by
  rw [newlines, feed_reset lineEnd_newline]
  rfl

/-- Without a carriage return there is nothing to find. -/
theorem feed_lineEnd (h : 13 ∉ l) : feed lineEnd false l = (l, false) :=
  feed_through fun c hc => by
    rw [lineEnd, if_neg (ne_of_mem_of_not_mem hc h), if_neg fun hb => Bool.false_ne_true hb.2]

/-- **Lines are spliced line by line.** -/
theorem splice_line (a b : List UInt8) :
    splice d (a ++ 10 :: b) = splice d (a ++ [10]) ++ splice d b := by
  unfold splice
  rw [feed_reset join_newline, feed_reset_snd join_newline, List.append_nil, List.append_assoc]

/-- Without a backslash there is nothing to join. -/
theorem feed_join (h : 92 ∉ l) : feed (join d) [] l = (l, []) :=
  feed_through fun c hc => by rw [join, if_neg (ne_of_mem_of_not_mem hc h), if_pos rfl]

/-- **What is held back of a line** when it ends. -/
def held (d : Dialect) (l : List UInt8) : List UInt8 := (feed (join d) [] l).2

/-- It is a backslash with blanks behind it, if there is one at the end of the line. -/
theorem held_eq_nil : held d l = [] ↔ (l.rdropWhile (isBlank d)).getLast? ≠ some 92 := by
  induction l using List.reverseRecOn with
  | nil => exact iff_of_true rfl (by simp)
  | append_singleton l c ih =>
    have hstep : held d (l ++ [c]) = (join d (held d l) c).2 := by
      rw [held, feed_append]
      rfl
    rw [hstep, List.rdropWhile_concat]
    unfold join
    by_cases hc : c = 92
    · have hblank : isBlank d c = false := by
        rw [hc]
        cases d <;> rfl
      rw [if_pos hc, hblank, if_neg Bool.false_ne_true, List.getLast?_concat, hc]
      exact iff_of_false (by simp) (by simp)
    rw [if_neg hc]
    by_cases hnil : held d l = []
    · rw [if_pos hnil]
      split
      · exact iff_of_true rfl (ih.mp hnil)
      · exact iff_of_true rfl (by simpa using hc)
    rw [if_neg hnil]
    by_cases hlf : c = 10
    · have hblank : isBlank d c = false := by
        rw [hlf]
        cases d <;> rfl
      rw [if_pos hlf, hblank, if_neg Bool.false_ne_true, List.getLast?_concat, hlf]
      exact iff_of_true rfl (by simp)
    rw [if_neg hlf]
    cases hblank : isBlank d c with
    | true => exact iff_of_false (by simp) fun h => hnil (ih.mpr h)
    | false => exact iff_of_true rfl (by simpa using hc)

/-- Within a line nothing is lost: what is held back stands at its end. -/
theorem feed_join_append (h : 10 ∉ l) (p : List UInt8) :
    (feed (join d) p l).1 ++ (feed (join d) p l).2 = p ++ l := by
  induction l generalizing p with
  | nil => exact (List.append_nil p).symm
  | cons c l ih =>
    have hc : c ≠ 10 := fun hc => h (hc ▸ List.mem_cons_self)
    have hstep : (join d p c).1 ++ (join d p c).2 = p ++ [c] := by
      unfold join
      split_ifs with h92 hnil
      · rw [h92]
      · rw [hnil]
        rfl
      · rfl
      · exact List.append_nil _
    rw [feed_cons, List.append_assoc, ih fun hl => h (List.mem_cons_of_mem _ hl),
      ← List.append_assoc, hstep, List.append_assoc]
    rfl

/-! ## Lines that end plainly -/

/-- A character behind which a line ends as it stands there: no backslash and no blank,
and no line end itself. -/
def isEnd (c : UInt8) : Bool := c != 92 && c != 13 && c != 10 && !isBlank .gnu c

/-- **A line that is not joined with the next one**, for any dialect: it is empty, or ends
with such a character. -/
def EndsPlain (l : List UInt8) : Prop := l.getLast?.all isEnd = true

instance : DecidablePred EndsPlain := fun _ => inferInstanceAs (Decidable (_ = _))

/-- What ends a statement is no blank. -/
theorem isBlank_of_isEnd {c : UInt8} (h : isEnd c = true) (d : Dialect) :
    isBlank d c = false := by
  have hgnu : isBlank .gnu c = false := by
    unfold isEnd at h
    rw [Bool.and_eq_true, Bool.not_eq_true'] at h
    exact h.2
  cases d with
  | gnu => exact hgnu
  | iso =>
    unfold isBlank at hgnu ⊢
    simp_all

/-- **It stays a line**: its line end is one new-line, and nothing is held back. -/
theorem EndsPlain.newlines_held (h : EndsPlain l) (d : Dialect) :
    newlines (l ++ [10]) = newlines l ++ [10] ∧ held d (newlines l) = [] := by
  rcases List.eq_nil_or_concat l with rfl | ⟨l, c, rfl⟩
  · exact ⟨rfl, rfl⟩
  rw [List.concat_eq_append] at h ⊢
  have hend : isEnd c = true := by simpa [EndsPlain] using h
  have hc : c ≠ 92 ∧ c ≠ 13 ∧ c ≠ 10 := by
    unfold isEnd at hend
    simp only [Bool.and_eq_true, bne_iff_ne] at hend
    exact ⟨hend.1.1.1, hend.1.1.2, hend.1.2⟩
  have hline : ∀ b, lineEnd b c = ([c], false) := fun b => by
    rw [lineEnd, if_neg hc.2.1, if_neg fun h => hc.2.2 h.1]
  have hnewlines : newlines (l ++ [c]) = newlines l ++ [c] := by
    rw [newlines, feed_append, feed_cons, hline]
    rfl
  have hnewline : (feed lineEnd false (l ++ [c])).2 = false :=
    feed_reset_snd (fun b => congrArg Prod.snd (hline b)) _ _
  refine ⟨?_, ?_⟩
  · rw [newlines, feed_append, hnewline]
    rfl
  · have hjoin : ∀ p, (join d p c).2 = [] := fun p => by
      unfold join
      rw [if_neg hc.1, if_neg hc.2.2, isBlank_of_isEnd hend, if_neg Bool.false_ne_true]
      split
      · rfl
      · rfl
    rw [hnewlines, held, feed_reset_snd hjoin]

/-! ## Reading -/

/-- **In a comment** nothing is read up to the line end. -/
theorem feed_comment (h : 10 ∉ l) : feed (step d) .comment l = ([], .comment) := by
  induction l with
  | nil => rfl
  | cons c l ih =>
    have hc : c ≠ 10 := fun hc => h (hc ▸ List.mem_cons_self)
    have hstep : step d .comment c = ([], .comment) := if_neg hc
    rw [feed_cons, hstep, ih fun hl => h (List.mem_cons_of_mem _ hl)]
    rfl

/-- Blanks are skipped. -/
@[simp] theorem feed_blanks (n : ℕ) :
    feed (step d) .between (List.replicate n 32) = ([], .between) := by
  have hstep : step d .between 32 = ([], .between) := by cases d <;> rfl
  induction n with
  | zero => rfl
  | succ n ih =>
    rw [List.replicate_succ, feed_cons, hstep, ih]
    rfl

/-! ## What is read of lines -/

/-- **A text is read from the front on.** -/
theorem tokensFrom_append (s : Lex) (h92 : 92 ∉ l) (h13 : 13 ∉ l) (b : List UInt8) :
    tokensFrom d s (l ++ b) = (feed (step d) s l).1 ++ tokensFrom d (feed (step d) s l).2 b := by
  have hnewlines : newlines (l ++ b) = l ++ newlines b := by
    rw [newlines, feed_append, feed_lineEnd h13]
    rfl
  have hsplice : ∀ t, splice d (l ++ t) = l ++ splice d t := fun t => by
    rw [splice, feed_append, feed_join h92, List.append_assoc]
    rfl
  simp only [tokensFrom, hnewlines, hsplice, feed_append, List.append_assoc]

/-- **Lines are read one by one**, if the first one ends plainly. -/
theorem tokensFrom_line (s : Lex) (h : EndsPlain l) (b : List UInt8) :
    tokensFrom d s (l ++ 10 :: b) = tokensFrom d s (l ++ [10]) ++ tokens d b := by
  obtain ⟨hnewlines, hheld⟩ := h.newlines_held d
  have hsplice : splice d (newlines l ++ [10]) = splice d (newlines l) ++ [10] := by
    unfold held at hheld
    rw [splice, splice, feed_append, hheld, List.append_nil]
    exact List.append_nil _
  have hread : feed (step d) s (splice d (newlines l) ++ 10 :: splice d (newlines b)) = _ :=
    feed_reset step_newline s _ _
  have hstop : (feed (step d) s (splice d (newlines l) ++ [10])).2 = .between :=
    feed_reset_snd step_newline s _
  simp only [tokens, tokensFrom, newlines_line l b, hnewlines, List.append_assoc,
    List.singleton_append, splice_line, hsplice, hread, hstop, Lex.flush, List.append_nil]

/-- **A line that ends plainly is read on its own.** -/
theorem tokens_line (h : EndsPlain l) (b : List UInt8) :
    tokens d (l ++ 10 :: b) = tokens d (l ++ [10]) ++ tokens d b :=
  tokensFrom_line .between h b

/-- Blanks in front are skipped. -/
@[simp] theorem tokens_blanks (n : ℕ) (b : List UInt8) :
    tokens d (List.replicate n 32 ++ b) = tokens d b := by
  have hn : ∀ c : UInt8, c ≠ 32 → c ∉ List.replicate n 32 := fun c hc h =>
    hc (List.eq_of_mem_replicate h)
  rw [tokens, tokensFrom_append _ (hn 92 (by decide)) (hn 13 (by decide)), feed_blanks]
  rfl

/-- **A comment is skipped** up to its line end, and where the line is joined with the next
one, it goes on there. -/
theorem tokensFrom_comment (h10 : 10 ∉ l) (h13 : 13 ∉ l) (b : List UInt8) :
    tokensFrom d .comment (l ++ 10 :: b)
      = if held d l = [] then tokens d b else tokensFrom d .comment b := by
  have hnewlines : newlines (l ++ 10 :: b) = l ++ 10 :: newlines b := by
    rw [newlines, feed_append, feed_lineEnd h13, feed_cons]
    rfl
  have hskip : feed (step d) .comment (feed (join d) [] l).1 = ([], .comment) := by
    refine feed_comment fun hmem => h10 ?_
    have hline := feed_join_append (d := d) h10 []
    rw [List.nil_append] at hline
    rw [← hline]
    exact List.mem_append_left _ hmem
  have hsplice : splice d (l ++ 10 :: newlines b) = (feed (join d) [] l).1
      ++ ((if held d l = [] then [10] else []) ++ splice d (newlines b)) := by
    have hjoin : join d (held d l) 10 = (if held d l = [] then [10] else [], []) := by
      unfold join
      rw [if_neg (by decide)]
      split
      · rfl
      · rfl
    unfold splice
    rw [feed_append, feed_cons]
    rw [held] at hjoin ⊢
    rw [hjoin, List.append_assoc, List.append_assoc]
  rw [tokensFrom, hnewlines, hsplice, feed_append, hskip]
  split
  · rfl
  · rfl

end Cpp
