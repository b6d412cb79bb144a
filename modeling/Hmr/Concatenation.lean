import Hmr.BackReferences
import Hmr.Evaluation
import Hmr.Interpolating
import Hmr.Munch
import Hmr.Sources

/-!
# Concatenation

A new-value is written as operands joined by `+`, each of them a string or a reference,
and is meant to come to the contents of the strings and the values of the references, in
order. Three pieces of code have to work together for that: the lexer, which tells
strings from barewords; the joining of atoms, which puts a blank between any two of them;
and the splitting at `+`, of a text that no longer tells what was quoted.

They do not. A bareword goes on up to a blank, through pluses and quotes, so a string
must have a blank before it to be one; and that blank is one in the value. What is left
are a string alone, and references without blanks
(`Expression.concatenates_iff`) – with one exception, for nothing is put
behind an empty string, not even a blank.

That all else fails is a matter of counting, in a state where references stand for
nothing. No hash may be missing, so there is no comment; no brace may, so references
take nothing but their own characters; no quote may be too many, so every string is
read as one; and then there is no room for a blank.
-/

namespace Hmr

open Hmr.Lexer Hmr.Parser

/-! ## Expressions -/

/-- An identifier. -/
structure IsIdent (name : Bytes) : Prop where
  start : Value.startsWith Value.isIdentStart name = true
  chars : ∀ c ∈ name, Value.isIdentCont c = true

/-- Digits. -/
structure IsNumber (num : Bytes) : Prop where
  ne_nil : num ≠ []
  digits : ∀ c ∈ num, Value.isDigit c = true

/-- **The references of expressions**: `$VAR`, `$N` and `$rule.$N`. -/
inductive IsReference : Value.RefToken → Prop
  | variable (name : Bytes) (hname : IsIdent name) (hupper : Value.isAllUpper name = true) :
    IsReference (.chain name [] none)
  | capture (num : Bytes) (hnum : IsNumber num) : IsReference (.capture num)
  | group (rule num : Bytes) (hrule : IsIdent rule) (hnum : IsNumber num) :
    IsReference (.chain rule [] (some num))

/-- **An operand**: a double-quoted string, or a reference. -/
inductive Operand
  | literal (body : Bytes) (hbody : isStringBody body = true)
  | reference (t : Value.RefToken) (ht : IsReference t)

namespace Operand

/-- How an operand is written. -/
def text : Operand → Bytes
  | literal body _ => 34 :: (body ++ [34])
  | reference t _ => t.text

/-- **What an operand is to come to**: what the string decodes to, or what the reference
stands for. -/
def textWith (env : ValueRef → Bytes) : Operand → Bytes
  | literal body _ => unescapeString body
  | reference t _ => env t.ref

/-- How many strings an operand is. -/
def literals : Operand → Nat
  | literal _ _ => 1
  | reference _ _ => 0

/-- The reference an operand is. -/
def token? : Operand → Option Value.RefToken
  | literal _ _ => none
  | reference t _ => some t

end Operand

/-- A plus and an operand behind it, with blanks around the plus or none. -/
structure Link where
  before : Bytes
  after : Bytes
  operand : Operand
  before_blank : ∀ c ∈ before, Lexer.isBlank c = true
  after_blank : ∀ c ∈ after, Lexer.isBlank c = true

/-- How it is written. -/
def Link.text (k : Link) : Bytes := k.before ++ 43 :: (k.after ++ k.operand.text)

/-- **An expression**: operands joined by `+`. -/
structure Expression where
  first : Operand
  more : List Link

namespace Expression

/-- How an expression is written. -/
def text (e : Expression) : Bytes := e.first.text ++ e.more.flatMap Link.text

/-- The operands of an expression. -/
def operands (e : Expression) : List Operand := e.first :: e.more.map (·.operand)

/-- **What an expression is to come to.** -/
def textWith (env : ValueRef → Bytes) (e : Expression) : Bytes :=
  e.operands.flatMap (Operand.textWith env)

/-- The references of an expression. -/
def references (e : Expression) : List Value.RefToken := e.operands.filterMap Operand.token?

end Expression

/-- **The new-value of an attribute line**, of the text behind its key. The text has to be
read as one line. -/
def newValue? (text : Bytes) : Option Value :=
  (tokens (text ++ [lf])).bind fun ts => (lines [] ts).bind fun ls =>
    match ls with
    | [value] => (applyElementAttr ({}, {}) ⟨txt "new-value", value⟩).map fun q => q.1.newValue
    | _ => none

namespace Expression

/-- **An expression comes to what it is to come to**: read as a new-value it is the text of
its operands, whatever its references stand for, and it is evaluated to that text. -/
def Concatenates (e : Expression) : Prop :=
  ∃ v, newValue? e.text = some v ∧ (∀ env, v.textWith env = e.textWith env)
    ∧ ∀ rx st w, (e.textWith (Meaning.refText st w)).length < 2 ^ 32 →
      ((Meaning.value Meaning.callProg v).run (st.runtime rx) w).1
        = e.textWith (Meaning.refText st w)

/-- **One string**, and nothing else. -/
structure IsString (e : Expression) : Prop where
  first : e.first.literals = 1
  more : e.more = []

/-- **References without blanks.** In front of them there may be an empty string, with
blanks behind it. -/
structure IsSolid (e : Expression) : Prop where
  first : e.first.text = [34, 34] ∨ e.first.literals = 0 ∧ ∀ k ∈ e.more.head?, k.before = []
  before : ∀ k ∈ e.more.tail, k.before = []
  after : ∀ k ∈ e.more, k.after = []
  operand : ∀ k ∈ e.more, k.operand.literals = 0

end Expression

/-! ## What is written -/

/-- A number is made of characters of a reference. -/
theorem IsNumber.isRefChar {num : Bytes} (h : IsNumber num) :
    ∀ c ∈ num, Value.isRefChar c = true := fun c hc =>
  Value.isRefChar_of_isDigit (h.digits c hc)

/-- So is an identifier. -/
theorem IsIdent.isRefChar {name : Bytes} (h : IsIdent name) :
    ∀ c ∈ name, Value.isRefChar c = true := fun c hc =>
  Value.isRefChar_of_isIdentCont (h.chars c hc)

section
variable {t : Value.RefToken}

/-- What stands behind the dollar of a reference. -/
theorem IsReference.text_eq (h : IsReference t) : t.text = 36 :: t.text.tail := by
  cases h with
  | «variable» => rfl
  | capture => rfl
  | group => rfl

/-- References are made of their characters. -/
theorem IsReference.isRefChar (h : IsReference t) : ∀ c ∈ t.text, Value.isRefChar c = true := by
  cases h with
  | «variable» name hname hupper =>
    rw [Value.RefToken.text, List.forall_mem_cons]
    refine ⟨rfl, ?_⟩
    rw [Value.RefToken.linksText]
    simpa using hname.isRefChar
  | capture num hnum =>
    rw [Value.RefToken.text, List.forall_mem_cons]
    exact ⟨rfl, hnum.isRefChar⟩
  | group rule num hrule hnum =>
    rw [Value.RefToken.text, List.forall_mem_cons]
    refine ⟨rfl, ?_⟩
    simp only [Value.RefToken.linksText, List.flatMap_nil, List.nil_append, Option.elim_some,
      List.forall_mem_append]
    exact ⟨hrule.isRefChar, List.all_eq_true.mp rfl, hnum.isRefChar⟩

/-- None of these breaks a bareword. -/
theorem isBreak_of_isRefChar {c : UInt8} (h : Value.isRefChar c = true) : isBreak c = false := by
  simp only [isBreak, Lexer.isBlank, Bool.or_eq_false_iff, beq_eq_false_iff_ne]
  refine ⟨⟨⟨?_, ?_⟩, ?_⟩, ?_⟩ <;> rintro rfl <;> exact absurd h (by decide)

/-- A reference is a bareword. -/
theorem IsReference.isBreak (h : IsReference t) : ∀ c ∈ t.text, isBreak c = false :=
  fun c hc => isBreak_of_isRefChar (h.isRefChar c hc)

end

/-- No reference stands for anything. -/
def nothing : ValueRef → Bytes := fun _ => []

/-- What the references of a value stand for is left out of its text. -/
theorem textWith_nothing (v : Value) : v.textWith nothing = v.literalText := by
  unfold Value.textWith Value.literalText
  refine List.flatMap_congr fun s _ => ?_
  cases s with
  | literal text => rfl
  | ref r => rfl

/-- The strings of some operands behind the first. -/
def literalsOf (more : List Link) : Nat := (more.map (·.operand.literals)).sum

/-- The contents of the strings of some operands behind the first. -/
def contents (more : List Link) : Bytes := more.flatMap (·.operand.textWith nothing)

section
variable {x : UInt8}

/-- **An operand is written with what it decodes to**, and quotes if it is a string; that
is, as for characters that escapes and references do not have. -/
theorem Operand.count_text (hx : x ∉ escapes) (href : Value.isRefChar x = false) (o : Operand) :
    o.text.count x
      = (o.textWith nothing).count x + if x = 34 then 2 * o.literals else 0 := by
  cases o with
  | literal body hbody =>
    have hquotes : (Operand.literal body hbody).text.count x
        = body.count x + [(34 : UInt8), 34].count x := by
      simp only [Operand.text, List.count_cons, List.count_append, List.count_nil]
      omega
    rw [hquotes, Operand.textWith, count_unescapeString hx]
    split
    · rename_i h
      subst h
      rfl
    · rename_i h
      rw [List.count_cons_of_ne (Ne.symm h), List.count_cons_of_ne (Ne.symm h)]
      rfl
  | reference t ht =>
    have hnot : t.text.count x = 0 := by
      rw [List.count_eq_zero]
      intro hmem
      rw [ht.isRefChar x hmem] at href
      cases href
    rw [Operand.text, hnot]
    split
    · rfl
    · rfl

/-- No blanks are anything else. -/
theorem count_blanks {blanks : Bytes} (h : ∀ c ∈ blanks, Lexer.isBlank c = true)
    (hx : Lexer.isBlank x = false) : blanks.count x = 0 := by
  rw [List.count_eq_zero]
  intro hmem
  rw [h x hmem] at hx
  cases hx

/-- What there is of a character behind an operand: what the operand has, and quotes and a plus. -/
theorem Link.count_text (hx : x ∉ escapes) (href : Value.isRefChar x = false)
    (hblank : Lexer.isBlank x = false) (k : Link) :
    k.text.count x = (k.operand.textWith nothing).count x
      + (if x = 34 then 2 * k.operand.literals else 0) + if x = 43 then 1 else 0 := by
  rw [Link.text, List.count_append, List.count_cons, List.count_append,
    count_blanks k.before_blank hblank, count_blanks k.after_blank hblank,
    Operand.count_text hx href, Nat.zero_add, Nat.zero_add]
  by_cases h : x = 43
  · subst h
    rfl
  · have hplus : ¬ (43 == x) = true := by simpa using Ne.symm h
    rw [if_neg h, if_neg hplus, Nat.add_zero]

/-- **What the operands behind the first are written with.** -/
theorem count_links (hx : x ∉ escapes) (href : Value.isRefChar x = false)
    (hblank : Lexer.isBlank x = false) (more : List Link) :
    (more.flatMap Link.text).count x = (contents more).count x
      + (if x = 34 then 2 * literalsOf more else 0) + if x = 43 then more.length else 0 := by
  induction more with
  | nil =>
    split
    · split
      · rfl
      · rfl
    · split
      · rfl
      · rfl
  | cons k more ih =>
    have hliterals : literalsOf (k :: more) = k.operand.literals + literalsOf more := rfl
    have hcontents : contents (k :: more) = k.operand.textWith nothing ++ contents more := rfl
    rw [List.flatMap_cons, List.count_append, Link.count_text hx href hblank, ih, hliterals,
      hcontents, List.count_append, List.length_cons]
    split_ifs <;> omega

/-- The strings of an expression. -/
def Expression.literals (e : Expression) : Nat := e.first.literals + literalsOf e.more

/-- What an expression is to come to, where references come to nothing. -/
theorem Expression.textWith_nothing (e : Expression) :
    e.textWith nothing = e.first.textWith nothing ++ contents e.more := by
  rw [Expression.textWith, Expression.operands, List.flatMap_cons, List.flatMap_map]
  rfl

/-- **What an expression is written with.** -/
theorem Expression.count_text (hx : x ∉ escapes) (href : Value.isRefChar x = false)
    (hblank : Lexer.isBlank x = false) (e : Expression) :
    e.text.count x = (e.textWith nothing).count x
      + (if x = 34 then 2 * e.literals else 0) + if x = 43 then e.more.length else 0 := by
  rw [Expression.text, List.count_append, Operand.count_text hx href,
    count_links hx href hblank, e.textWith_nothing, List.count_append, Expression.literals]
  split_ifs <;> omega

end

/-! ## Every string read as one -/

/-- The characters a plus, its blanks and a reference are made of. -/
theorem not_quote_of_isRefChar {c : UInt8} (h : Value.isRefChar c = true) : c ≠ 34 ∧ c ≠ 92 := by
  constructor <;> rintro rfl <;> exact absurd h (by decide)

/-- A blank is no quote, and escapes nothing. -/
theorem not_quote_of_isBlank {c : UInt8} (h : Lexer.isBlank c = true) : c ≠ 34 ∧ c ≠ 92 := by
  constructor <;> rintro rfl <;> exact absurd h (by decide)

section
variable {more : List Link} {s : State} {ts : List Token} {w : Bytes}

/-- **There are no more strings than were meant to be**, whatever state the operands are read in.

A string that is read has two quotes of the text to itself, or one, and the quote that was
pending when the text began. The text has two for each literal, none elsewhere, and the blanks
and the plus in front of an operand have neither quotes nor backslashes. So the count of quotes
bounds it, by induction on the operands, in any state but behind a backslash. -/
theorem strings_links (h : tokensFrom s (more.flatMap Link.text ++ [lf]) = some ts)
    (hs : ∀ b, s ≠ .escape b) : 2 * strings ts ≤ s.pending + 2 * literalsOf more := by
  induction more generalizing s ts with
  | nil =>
    cases s with
    | string b => cases h
    | escape b => exact absurd rfl (hs b)
    | lineEnd =>
      cases h
      exact Nat.zero_le _
    | _ =>
      cases h
      exact Nat.zero_le _
  | cons k more ih =>
    have hliterals : literalsOf (k :: more) = k.operand.literals + literalsOf more := rfl
    have hplus : ∀ c ∈ k.before ++ 43 :: k.after, c ≠ 34 ∧ c ≠ 92 := by
      rw [List.forall_mem_append, List.forall_mem_cons]
      exact ⟨fun c hc => not_quote_of_isBlank (k.before_blank c hc), by decide,
        fun c hc => not_quote_of_isBlank (k.after_blank c hc)⟩
    have htext : (k :: more).flatMap Link.text ++ [lf]
        = (k.before ++ 43 :: k.after) ++ (k.operand.text ++ (more.flatMap Link.text ++ [lf])) := by
      simp [Link.text]
    rw [htext] at h
    obtain ⟨t, us, ht, hpending, hus, hcount⟩ := tokensFrom_unquoted hplus h hs
    rw [hliterals, hcount, ← hpending]
    cases hk : k.operand with
    | literal body hbody =>
      rw [hk, Operand.text, List.cons_append, List.append_assoc] at hus
      obtain ⟨t', vs, ht', hvs, hstep⟩ := tokensFrom_quoted hbody hus ht
      have hrest := ih hvs ht'
      rw [Operand.literals]
      omega
    | reference r hr =>
      rw [hk] at hus
      obtain ⟨t', vs, ht', hpending', hvs, hstep⟩ := tokensFrom_unquoted
        (fun c hc => not_quote_of_isRefChar (hr.isRefChar c hc)) hus ht
      have hrest := ih hvs ht'
      rw [Operand.literals, hstep]
      omega

/-- A bareword that is being read is the first token. -/
theorem tokensFrom_word_head {text : Bytes} (h : tokensFrom (.word w) text = some ts) :
    ∃ more us, ts = .word (w ++ more) :: us := by
  induction text generalizing w with
  | nil =>
    cases h
    exact ⟨[], [], by rw [List.append_nil]⟩
  | cons c text ih =>
    rw [tokensFrom] at h
    obtain ⟨⟨us, t⟩, hnext, hrest⟩ := Option.bind_eq_some_iff.mp h
    obtain ⟨vs, hvs, heq⟩ := Option.bind_eq_some_iff.mp hrest
    cases heq
    simp only [next] at hnext
    split_ifs at hnext <;> cases hnext
    · exact ⟨[], vs, by simp⟩
    · exact ⟨[], .newline :: vs, by simp⟩
    · exact ⟨[], vs, by simp⟩
    · obtain ⟨more, us, rfl⟩ := ih hvs
      exact ⟨c :: more, us, by simp⟩

/-- A plus and a reference, without blanks. -/
def Link.Bare (k : Link) : Prop := k.before = [] ∧ k.after = [] ∧ k.operand.literals = 0

/-- **What is read behind a bareword**: no blank of a string is lost, and if the bareword
is the only token, there is neither a blank nor a string. -/
structure ReadBehind (more : List Link) (ts : List Token) : Prop where
  contents : (Hmr.contents more).count sp ≤ (texts ts).count sp
  length : 2 ≤ ts.length
  bare : ts.length = 2 → ∀ k ∈ more, k.Bare

/-- The same behind a plus. -/
structure ReadOperand (k : Link) (more : List Link) (ts : List Token) : Prop where
  contents : (Hmr.contents (k :: more)).count sp ≤ (texts ts).count sp
  length : 2 ≤ ts.length
  bare : ts.length = 2 → k.after = [] ∧ k.operand.literals = 0 ∧ ∀ k ∈ more, k.Bare

/-- What is read between tokens. -/
structure ReadBetween (more : List Link) (ts : List Token) : Prop where
  contents : (Hmr.contents more).count sp ≤ (texts ts).count sp
  length : 1 ≤ ts.length

/-- The text behind the first operand, a link at a time. -/
theorem text_links (k : Link) (more : List Link) (rest : Bytes) :
    (k :: more).flatMap Link.text ++ rest
      = k.before ++ 43 :: (k.after ++ (k.operand.text ++ (more.flatMap Link.text ++ rest))) := by
  simp [Link.text]

/-- Blanks are counted operand by operand. -/
theorem contents_cons (k : Link) (more : List Link) :
    (Hmr.contents (k :: more)).count sp
      = (k.operand.textWith nothing).count sp + (Hmr.contents more).count sp :=
  List.count_append

/-- One more token in front. -/
theorem count_texts_cons (t : Token) (ts : List Token) :
    (texts (t :: ts)).count sp = (atomText t).count sp + (texts ts).count sp := by
  rw [texts_cons, List.count_append]

/-- **The operand behind a plus**, if those behind it are read as they should be. No bareword may
run into a string, or there would be too few.

The plus has begun a bareword. Without a blank the operand belongs to it: a literal would then be
read quotes and all, one string less than was meant, which `strings_links` excludes; a reference
is simply a part of it. Behind a blank the operand is read by itself, and this is an atom more,
so that the blank between atoms shows in the count. -/
theorem readOperand (k : Link)
    (hbehind : ∀ w ts, tokensFrom (.word w) (more.flatMap Link.text ++ [lf]) = some ts →
      literalsOf more ≤ strings ts → ReadBehind more ts)
    (hbetween : ∀ ts, tokensFrom .start (more.flatMap Link.text ++ [lf]) = some ts →
      literalsOf more ≤ strings ts → ReadBetween more ts)
    (h : tokensFrom (.word w)
      (k.after ++ (k.operand.text ++ (more.flatMap Link.text ++ [lf]))) = some ts)
    (hcount : literalsOf (k :: more) ≤ strings ts) : ReadOperand k more ts := by
  have hliterals : literalsOf (k :: more) = k.operand.literals + literalsOf more := rfl
  rw [hliterals] at hcount
  have hcontents := contents_cons k more
  -- Without a blank behind the plus, the operand is part of the bareword, quotes and all.
  by_cases hafter : k.after = []
  · rw [hafter, List.nil_append] at h
    cases hk : k.operand with
    | literal body hbody =>
      rw [hk, Operand.literals] at hcount
      rw [hk, Operand.text, List.cons_append, List.append_assoc] at h
      obtain ⟨t, us, ht, hus, hstep⟩ := tokensFrom_quoted_word hbody h
      have hle := strings_links hus ht
      omega
    | reference t ht =>
      rw [hk, Operand.literals, Nat.zero_add] at hcount
      rw [hk, Operand.text, tokensFrom_word ht.isBreak] at h
      have hrest := hbehind _ _ h hcount
      rw [hk, Operand.textWith, nothing, List.count_nil, Nat.zero_add] at hcontents
      exact ⟨hcontents ▸ hrest.contents, hrest.length,
        fun hlen => ⟨hafter, by rw [hk]; rfl, hrest.bare hlen⟩⟩
  · rw [tokensFrom_word_blanks k.after_blank hafter] at h
    obtain ⟨us, hus, rfl⟩ := Option.map_eq_some_iff.mp h
    have hstrings : strings ([.word w] ++ us) = strings us := by
      rw [strings_append]
      exact Nat.zero_add _
    rw [hstrings] at hcount
    have htexts : (texts ([.word w] ++ us)).count sp = w.count sp + (texts us).count sp :=
      count_texts_cons _ _
    cases hk : k.operand with
    | literal body hbody =>
      rw [hk, Operand.literals] at hcount
      rw [hk, Operand.text] at hus
      have hread := reads_string hbody (more.flatMap Link.text ++ [lf])
      rw [tokens, hus] at hread
      obtain ⟨vs, hvs, rfl⟩ := Option.map_eq_some_iff.mp hread.symm
      rw [strings_append] at hcount
      have hone : strings [.string body] = 1 := rfl
      have hrest := hbetween _ hvs (by omega)
      have htexts' : (texts ([.string body] ++ vs)).count sp
          = (unescapeString body).count sp + (texts vs).count sp := count_texts_cons _ _
      rw [hk, Operand.textWith] at hcontents
      have hle := hrest.contents
      have hlength := hrest.length
      refine ⟨by omega, by simp, fun hlen => ?_⟩
      simp only [List.length_append, List.length_cons, List.length_nil] at hlen
      omega
    | reference t ht =>
      rw [hk, Operand.literals, Nat.zero_add] at hcount
      have hword : isWord t.text = true := by
        have hbreak := ht.isBreak
        rw [ht.text_eq] at hbreak ⊢
        simp only [isWord, Bool.and_eq_true, List.all_eq_true, Bool.not_eq_true']
        exact ⟨rfl, hbreak⟩
      rw [hk, Operand.text, ← tokens, tokens_word hword] at hus
      have hrest := hbehind _ _ hus hcount
      rw [hk, Operand.textWith, nothing, List.count_nil, Nat.zero_add] at hcontents
      have hle := hrest.contents
      have hlength := hrest.length
      refine ⟨by omega, by simp; omega, fun hlen => ?_⟩
      simp only [List.length_append, List.length_cons, List.length_nil] at hlen
      omega

/-- Blanks and a plus between tokens. -/
theorem tokensFrom_plus (k : Link) (rest : Bytes) :
    tokensFrom .start (k.before ++ 43 :: rest) = tokensFrom (.word [43]) rest := by
  have hnext : next .start 43 = some ([], .word [43]) := rfl
  rw [tokensFrom_blanks k.before_blank, tokensFrom_of_next hnext, map_nil_append]

/-- **Operands are read as they should be**, behind a bareword or between tokens, if there are as
many strings as were meant to be. Both by one induction, since an operand leaves the lexer in
either state: a plus without a blank in front of it goes on with the bareword, and any other one
begins a token, and then it is `readOperand`. -/
theorem readLinks (more : List Link) :
    (∀ w ts, tokensFrom (.word w) (more.flatMap Link.text ++ [lf]) = some ts →
      literalsOf more ≤ strings ts → ReadBehind more ts)
    ∧ ∀ ts, tokensFrom .start (more.flatMap Link.text ++ [lf]) = some ts →
      literalsOf more ≤ strings ts → ReadBetween more ts := by
  induction more with
  | nil =>
    refine ⟨fun w ts h _ => ?_, fun ts h _ => ?_⟩
    · cases h
      exact ⟨Nat.zero_le _, le_rfl, by simp⟩
    · cases h
      exact ⟨Nat.zero_le _, le_rfl⟩
  | cons k more ih =>
    refine ⟨fun w ts h hcount => ?_, fun ts h hcount => ?_⟩
    · rw [text_links] at h
      by_cases hbefore : k.before = []
      · have hnext : next (.word w) 43 = some ([], .word (w ++ [43])) := rfl
        rw [hbefore, List.nil_append, tokensFrom_of_next hnext, map_nil_append] at h
        have hread := readOperand k ih.1 ih.2 h hcount
        refine ⟨hread.contents, hread.length, fun hlen => ?_⟩
        obtain ⟨hafter, hoperand, hmore⟩ := hread.bare hlen
        exact List.forall_mem_cons.mpr ⟨⟨hbefore, hafter, hoperand⟩, hmore⟩
      · rw [tokensFrom_word_blanks k.before_blank hbefore] at h
        obtain ⟨us, hus, rfl⟩ := Option.map_eq_some_iff.mp h
        have hskip : tokensFrom (.word [43])
            (k.after ++ (k.operand.text ++ (more.flatMap Link.text ++ [lf]))) = some us := by
          have hnext : next .start 43 = some ([], .word [43]) := rfl
          rw [tokensFrom_of_next hnext, map_nil_append] at hus
          exact hus
        have hstrings : strings ([.word w] ++ us) = strings us := by
          rw [strings_append]
          exact Nat.zero_add _
        have hread := readOperand k ih.1 ih.2 hskip (hstrings ▸ hcount)
        have hle := hread.contents
        have hlength := hread.length
        have htexts : (texts ([.word w] ++ us)).count sp = w.count sp + (texts us).count sp :=
          count_texts_cons _ _
        refine ⟨by omega, by simp; omega, fun hlen => ?_⟩
        simp only [List.length_append, List.length_cons, List.length_nil] at hlen
        omega
    · rw [text_links, tokensFrom_plus] at h
      have hread := readOperand k ih.1 ih.2 h hcount
      exact ⟨hread.contents, Nat.le_of_succ_le hread.length⟩

end

/-! ## The line -/

/-- Only of nothing there are no lines. -/
theorem eq_nil_of_lines {acc ts : List Token} (h : lines acc ts = some []) : ts = [] := by
  induction ts generalizing acc with
  | nil => rfl
  | cons t ts ih =>
    have hword : lines (acc ++ [t]) ts = some [] → t :: ts = [] := by
      intro h'
      obtain rfl := ih h'
      rw [lines, if_neg (by simp)] at h'
      cases h'
    cases t with
    | word w => exact hword h
    | string b => exact hword h
    | newline =>
      rw [lines] at h
      obtain ⟨ls, -, heq⟩ := Option.map_eq_some_iff.mp h
      cases heq

/-- One line is what stands before its end. -/
theorem eq_of_lines {acc ts line : List Token} (h : lines acc ts = some [line]) :
    ∃ rest, ts = rest ++ [.newline] ∧ line = acc ++ rest := by
  induction ts generalizing acc with
  | nil =>
    rw [lines] at h
    split at h
    · cases h
    · cases h
  | cons t ts ih =>
    have hword : lines (acc ++ [t]) ts = some [line] →
        ∃ rest, t :: ts = rest ++ [.newline] ∧ line = acc ++ rest := by
      intro h'
      obtain ⟨rest, rfl, rfl⟩ := ih h'
      exact ⟨t :: rest, rfl, List.append_assoc acc [t] rest⟩
    cases t with
    | word w => exact hword h
    | string b => exact hword h
    | newline =>
      rw [lines] at h
      obtain ⟨ls, hls, heq⟩ := Option.map_eq_some_iff.mp h
      obtain ⟨rfl, rfl⟩ := List.cons.inj heq
      obtain rfl := eq_nil_of_lines hls
      exact ⟨[], rfl, (List.append_nil _).symm⟩

/-- The attribute sets the new-value to what its atoms are parsed as. -/
theorem applyElementAttr_newValue (er : ElementRule) (d : Diagnostics) (value : List Token) :
    applyElementAttr (er, d) ⟨txt "new-value", value⟩
      = (Value.parse (readValue value).raw .newValue (readValue value).quoted).map
          fun v => ({ er with newValue := v }, d) := rfl

/-- **And so it does in a header-rule.** -/
theorem applyHeaderAttr_newValue (hr : HeaderRule) (d : Diagnostics) (value : List Token) :
    applyHeaderAttr (hr, d) ⟨txt "new-value", value⟩
      = (Value.parse (readValue value).raw .newValue (readValue value).quoted).map
          fun v => ({ hr with newValue := v }, d) := rfl

/-- **The new-value of a line** is what its tokens are parsed as. -/
theorem newValue?_eq_some_iff {text : Bytes} {v : Value} :
    newValue? text = some v ↔ ∃ value, tokens (text ++ [lf]) = some (value ++ [.newline])
      ∧ Token.newline ∉ value
      ∧ Value.parse (readValue value).raw .newValue (readValue value).quoted = some v := by
  constructor
  · intro h
    obtain ⟨ts, hts, h⟩ := Option.bind_eq_some_iff.mp h
    obtain ⟨ls, hls, h⟩ := Option.bind_eq_some_iff.mp h
    split at h
    · rename_i value
      rw [applyElementAttr_newValue] at h
      obtain ⟨q, hq, hv⟩ := Option.map_eq_some_iff.mp h
      obtain ⟨v', hv', rfl⟩ := Option.map_eq_some_iff.mp hq
      have hv : v' = v := hv
      obtain ⟨rest, rfl, rfl⟩ := eq_of_lines hls
      have hnewline := newline_not_mem_lines hls List.not_mem_nil _ (List.mem_singleton_self _)
      exact ⟨_, hts, hnewline, hv ▸ hv'⟩
    · cases h
  · rintro ⟨value, hts, hnewline, hv⟩
    have hls : lines [] (value ++ [.newline]) = some [value] := lines_line hnewline
    have happly := applyElementAttr_newValue {} {} value
    rw [hv, Option.map_some] at happly
    unfold newValue?
    rw [hts, Option.bind_some, hls, Option.bind_some]
    dsimp only
    rw [happly]
    rfl

/-! ## Counting -/

/-- What is lost of a new-value: of an unquoted one, references and pluses. -/
theorem leaves_of_parse {raw : Bytes} {quoted : Bool} {v : Value}
    (h : Value.parse raw .newValue quoted = some v) :
    v.literalText.Sublist raw ∧ ∀ x, Value.isRefChar x = false → (quoted = true ∨ x ≠ 43) →
      raw.count 123 ≤ v.literalText.count 123 → v.literalText.count x = raw.count x := by
  cases quoted with
  | true =>
    cases h
    rw [Value.literalText_verbatim]
    exact ⟨List.Sublist.refl raw, fun x _ _ _ => rfl⟩
  | false =>
    have hleaves := Value.parseNew_keeps h
    refine ⟨hleaves.sublist.trans List.filter_sublist, fun x href hx hbrace => ?_⟩
    have hplus : ∀ y : UInt8, y ≠ 43 → (raw.filter (· != 43)).count y = raw.count y :=
      fun y hy => List.count_filter (by simpa using hy)
    obtain hquoted | hx := hx
    · cases hquoted
    · rw [hleaves.count_eq (by rwa [hplus 123 (by decide)]) href, hplus x hx]

section
variable {e : Expression} {value : List Token} {v : Value}

/-- **An expression that comes to what it is to come to**, where references stand for
nothing, has as many strings read as were meant, and its atoms are joined without
blanks. -/
theorem Expression.counts (htokens : tokens (e.text ++ [lf]) = some (value ++ [.newline]))
    (hv : Value.parse (readValue value).raw .newValue (readValue value).quoted = some v)
    (htext : v.literalText = e.textWith nothing) :
    strings value = e.literals
      ∧ (readValue value).raw.count sp = (e.textWith nothing).count sp := by
  obtain ⟨hsub, hleaves⟩ := leaves_of_parse hv
  have hsource : (value ++ [Token.newline]).flatMap Token.source = value.flatMap Token.source := by
    simp [Token.source]
  have hraw : ∀ x, x ∉ escapes → x ≠ sp → (readValue value).raw.count x
      + (if x = 34 then 2 * strings value else 0) = (value.flatMap Token.source).count x := by
    intro x hx hsp
    rw [count_source hx, raw_readValue, count_joined hsp, List.count_nil, Nat.zero_add]
  have hwritten : ∀ x, x ∉ escapes → Value.isRefChar x = false → isBreak x = false →
      (e.text ++ [lf]).count x = (e.textWith nothing).count x
        + (if x = 34 then 2 * e.literals else 0) + if x = 43 then e.more.length else 0 := by
    intro x hx href hbreak
    have hlf : [lf].count x = 0 := by
      refine List.count_eq_zero.mpr fun hmem => ?_
      rw [List.mem_singleton.mp hmem] at hbreak
      cases hbreak
    rw [List.count_append, hlf, e.count_text hx href (not_blank_of_not_break hbreak), Nat.add_zero]
  -- No hash is lost, so there is no comment.
  have hkept : ∀ x, isBreak x = false →
      (value.flatMap Token.source).count x = (e.text ++ [lf]).count x := by
    intro x hx
    obtain hkept | hlost := tokensFrom_source htokens State.noConfusion
    · have hnot : ∀ l : Bytes, (l.filter (!isBreak ·)).count x = l.count x :=
        fun l => List.count_filter (by simp [hx])
      rw [← hnot, ← hsource, hkept, hnot]
      rfl
    · have hhash := hwritten 35 (by decide) (by decide) (by decide)
      have hhash' := hraw 35 (by decide) (by decide)
      have hle := hsub.count_le 35
      rw [htext] at hle
      rw [hsource] at hlost
      change _ < (e.text ++ [lf]).count 35 at hlost
      rw [if_neg (by decide), if_neg (by decide)] at hhash
      rw [if_neg (by decide)] at hhash'
      omega
  -- No brace is lost, so no reference takes anything but its characters.
  have hbrace : (readValue value).raw.count 123 ≤ v.literalText.count 123 := by
    have hwritten' := hwritten 123 (by decide) (by decide) (by decide)
    have hraw' := hraw 123 (by decide) (by decide)
    have hkept' := hkept 123 (by decide)
    rw [if_neg (by decide), if_neg (by decide)] at hwritten'
    rw [if_neg (by decide)] at hraw'
    rw [htext]
    omega
  constructor
  · have hwritten' := hwritten 34 (by decide) (by decide) (by decide)
    have hraw' := hraw 34 (by decide) (by decide)
    have hkept' := hkept 34 (by decide)
    have hleft := hleaves 34 (by decide) (Or.inr (by decide)) hbrace
    rw [htext] at hleft
    rw [if_pos rfl, if_neg (by decide)] at hwritten'
    rw [if_pos rfl] at hraw'
    omega
  · rw [← htext]
    exact (hleaves sp (by decide) (Or.inr (by decide)) hbrace).symm

end

/-! ## What is left -/

/-- A string that comes to nothing is empty. -/
theorem eq_nil_of_unescapeString {b : Bytes} (h : unescapeString b = []) : b = [] := by
  cases b with
  | nil => rfl
  | cons c b =>
    cases b with
    | nil => cases h
    | cons e rest =>
      rw [unescapeString] at h
      split at h
      · cases h
      · cases h

/-- A reference is a bareword. -/
theorem IsReference.isWord {t : Value.RefToken} (h : IsReference t) : isWord t.text = true := by
  have hbreak := h.isBreak
  rw [h.text_eq] at hbreak ⊢
  simp only [Lexer.isWord, Bool.and_eq_true, List.all_eq_true, Bool.not_eq_true']
  exact ⟨rfl, hbreak⟩

/-- It is not empty. -/
theorem IsReference.text_ne_nil {t : Value.RefToken} (h : IsReference t) : t.text ≠ [] := by
  rw [h.text_eq]
  exact List.cons_ne_nil _ _

/-- A line end is no text. -/
@[simp] theorem texts_newline (value : List Token) : texts (value ++ [.newline]) = texts value := by
  simp [texts, atomText]

section
variable {value : List Token}

/-- A bareword in front of other atoms, all of whose blanks are from strings, is the only
one. -/
theorem eq_nil_of_joined {w : Bytes} (hw : w ≠ []) {n : Nat}
    (hn : n ≤ (texts (.word w :: value)).count sp)
    (hsp : (joined [] (.word w :: value)).count sp ≤ n) : value = [] := by
  have hjoined : joined [] (.word w :: value) = joined w value := rfl
  rw [count_texts_cons] at hn
  rw [hjoined, count_sp_joined value hw] at hsp
  have hatom : (atomText (.word w)).count sp = w.count sp := rfl
  exact List.eq_nil_of_length_eq_zero (by omega)

/-- **An expression whose strings are all read, without a blank between atoms**, is a string or
has neither strings nor blanks.

The blanks of the text that is joined are those of the operands' contents and one between each
two atoms. As many as the contents alone have (`hsp`) leave no room for a second atom, except
behind an empty string, which is joined without a blank. So a string in front is all there is, or
it is empty and one bareword follows; and behind a reference there is its bareword and nothing
else. -/
theorem Expression.shape {e : Expression}
    (htokens : tokens (e.text ++ [lf]) = some (value ++ [.newline]))
    (hstrings : strings value = e.literals)
    (hsp : (readValue value).raw.count sp = (e.textWith nothing).count sp) :
    e.IsString ∨ e.IsSolid := by
  have hnewline : strings (value ++ [.newline]) = strings value := by
    rw [strings_append]
    exact Nat.add_zero _
  rw [raw_readValue, e.textWith_nothing, List.count_append] at hsp
  rw [Expression.text, List.append_assoc] at htokens
  -- A string in front is read as one, and what is behind it then; a reference in front begins a
  -- bareword, and that takes up all that has no blank in front of it.
  cases hfirst : e.first with
  | literal body hbody =>
    rw [hfirst, Operand.text, reads_string hbody] at htokens
    obtain ⟨us, hus, heq⟩ := Option.map_eq_some_iff.mp htokens
    cases hmore : e.more with
    | nil => exact Or.inl ⟨by rw [hfirst]; rfl, hmore⟩
    | cons k more =>
      right
      rw [hmore, text_links, tokens, tokensFrom_plus] at hus
      have hcount : literalsOf (k :: more) ≤ strings us := by
        rw [← hnewline, ← heq, strings_append, Expression.literals, hfirst, hmore] at hstrings
        have hone : strings [.string body] = 1 := rfl
        rw [Operand.literals, hone] at hstrings
        omega
      have hread := readOperand k (readLinks more).1 (readLinks more).2 hus hcount
      obtain ⟨w, us, rfl⟩ := tokensFrom_word_head hus
      cases value with
      | nil => cases heq
      | cons t value =>
        obtain ⟨rfl, htail⟩ := List.cons.inj heq
        cases value with
        | nil => cases htail
        | cons t value =>
          obtain ⟨rfl, rfl⟩ := List.cons.inj htail
          have hcontents : (contents e.more).count sp
              ≤ (texts (.word ([43] ++ w) :: value ++ [.newline])).count sp :=
            hmore ▸ hread.contents
          rw [texts_newline] at hcontents
          rw [hfirst, Operand.textWith] at hsp
          have hjoined : joined [] (.string body :: .word ([43] ++ w) :: value)
              = joined (unescapeString body) (.word ([43] ++ w) :: value) := rfl
          rw [hjoined] at hsp
          by_cases hbody' : unescapeString body = []
          · rw [hbody', List.count_nil, Nat.zero_add] at hsp
            obtain rfl := eq_nil_of_joined (by simp) hcontents hsp.le
            obtain ⟨hafter, hoperand, hbare⟩ := hread.bare rfl
            obtain rfl := eq_nil_of_unescapeString hbody'
            refine ⟨Or.inl (by rw [hfirst]; rfl), ?_, ?_, ?_⟩
            · rw [hmore]
              exact fun k' hk' => (hbare k' hk').1
            · rw [hmore, List.forall_mem_cons]
              exact ⟨hafter, fun k' hk' => (hbare k' hk').2.1⟩
            · rw [hmore, List.forall_mem_cons]
              exact ⟨hoperand, fun k' hk' => (hbare k' hk').2.2⟩
          · rw [count_sp_joined _ hbody', List.length_cons] at hsp
            omega
  | reference t ht =>
    right
    rw [hfirst, Operand.text, tokens_word ht.isWord] at htokens
    have hcount : literalsOf e.more ≤ strings (value ++ [.newline]) := by
      rw [hnewline, hstrings, Expression.literals]
      exact Nat.le_add_left _ _
    have hread := (readLinks e.more).1 _ _ htokens hcount
    obtain ⟨w, us, heq⟩ := tokensFrom_word_head htokens
    cases value with
    | nil => cases heq
    | cons a value =>
      obtain ⟨rfl, rfl⟩ := List.cons.inj heq
      have hcontents : (contents e.more).count sp
          ≤ (texts (.word (t.text ++ w) :: value ++ [.newline])).count sp := hread.contents
      rw [texts_newline] at hcontents
      rw [hfirst, Operand.textWith, nothing, List.count_nil, Nat.zero_add] at hsp
      have hne : t.text ++ w ≠ [] := by simp [ht.text_ne_nil]
      obtain rfl := eq_nil_of_joined hne hcontents hsp.le
      have hbare := hread.bare rfl
      refine ⟨Or.inr ⟨by rw [hfirst]; rfl, ?_⟩, ?_, ?_, ?_⟩
      · exact fun k hk => (hbare k (List.mem_of_mem_head? hk)).1
      · exact fun k hk => (hbare k (List.mem_of_mem_tail hk)).1
      · exact fun k hk => (hbare k hk).2.1
      · exact fun k hk => (hbare k hk).2.2

end

/-! ## References -/

namespace IsReference

section
variable {t : Value.RefToken}

/-- A number is one run of digits. -/
theorem takeWhile_number {num : Bytes} (h : IsNumber num) :
    num.takeWhile Value.isDigit = num ∧ num.dropWhile Value.isDigit = [] :=
  ⟨List.takeWhile_eq_self_iff.mpr h.digits, List.dropWhile_eq_nil_iff.mpr h.digits⟩

/-- A number starts with a digit. -/
theorem startsWith_number {num : Bytes} (h : IsNumber num) :
    Value.startsWith Value.isDigit num = true := by
  rw [Value.startsWith_eq, (takeWhile_number h).1]
  simpa using h.ne_nil

/-- What an identifier starts with, whatever follows it. -/
theorem startsWith_ident {name : Bytes} (h : IsIdent name) (rest : Bytes) :
    Value.startsWith Value.isIdentStart (name ++ rest) = true := by
  have hstart := h.start
  cases name with
  | nil => cases hstart
  | cons c name => exact hstart

/-- So it starts no identifier. -/
theorem startsWith_isIdentStart_number {num : Bytes} (h : IsNumber num) :
    Value.startsWith Value.isIdentStart num = false := by
  by_contra hident
  have hdigit := startsWith_number h
  rw [Value.startsWith_isDigit (Bool.not_eq_false _ ▸ hident)] at hdigit
  cases hdigit

/-- The text of a reference to a group. -/
theorem group_tail (rule num : Bytes) :
    (Value.RefToken.chain rule [] (some num)).text.tail = rule ++ 46 :: 36 :: num := rfl

/-- **Each reference is one token**, as long as it can be. -/
theorem nextToken (h : IsReference t) : Value.nextToken t.text.tail = some (t, []) := by
  cases h with
  | «variable» name hname hupper =>
    have htail : (Value.RefToken.chain name [] none).text.tail = name := List.append_nil _
    have hname' : name.takeWhile Value.isIdentCont = name :=
      List.takeWhile_eq_self_iff.mpr hname.chars
    have hnone : name.dropWhile Value.isIdentCont = [] := List.dropWhile_eq_nil_iff.mpr hname.chars
    rw [htail, Value.nextToken_ident hname.start, hname', hnone,
      Value.links_of_not _ fun after heq => List.noConfusion rfl (heq_of_eq heq)]
  | capture num hnum =>
    have htail : (Value.RefToken.capture num).text.tail = num := rfl
    rw [htail, Value.nextToken.eq_def]
    split
    · have hstart := startsWith_number hnum
      cases hstart
    · rw [startsWith_number hnum, if_pos rfl, (takeWhile_number hnum).1, (takeWhile_number hnum).2]
  | group rule num hrule hnum =>
    obtain ⟨hname, hrest⟩ := Value.takeWhile_name (36 :: num) hrule.chars
      (show Value.isIdentCont 46 = false by decide)
    rw [group_tail, Value.nextToken_ident (startsWith_ident hrule _), hname, hrest]
    simp only [List.length_append, List.length_cons, ← Nat.add_assoc, Value.links,
      startsWith_isIdentStart_number hnum, startsWith_number hnum, Bool.false_eq_true, if_false,
      if_true, (takeWhile_number hnum).1, (takeWhile_number hnum).2]

/-- A reference that is read has an index that fits. Its index is read by `std::stoi`, which
throws beyond 2147483647; that it is the index of the token that is read there, and not a shorter
one, is by the token's own form: `$` and digits, or a rule's name, `.$` and digits. -/
theorem fits_of_parseRef (h : IsReference t) {q : ValueRef × Bytes}
    (hread : Value.parseRef t.text.tail = some q) : t.Fits := by
  have hstoi : ∀ {num : Bytes} {n : Int}, Value.stoi num = some n →
      Value.digitsVal num ≤ 2147483647 := by
    intro num n hn
    unfold Value.stoi at hn
    split at hn
    · assumption
    · cases hn
  cases h with
  | «variable» name hname hupper =>
    intro num hnum
    cases hnum
  | capture num hnum =>
    intro num' hnum'
    obtain rfl : num = num' := Option.some.inj hnum'
    have htail : (Value.RefToken.capture num).text.tail = num := rfl
    rw [htail, Value.parseRef.eq_def] at hread
    split at hread
    · have hstart := startsWith_number hnum
      cases hstart
    · have hne : num.isEmpty = false := by simpa using hnum.ne_nil
      simp only [(takeWhile_number hnum).1, hne, Bool.false_eq_true, if_false] at hread
      obtain ⟨n, hn, -⟩ := Option.map_eq_some_iff.mp hread
      exact hstoi hn
  | group rule num hrule hnum =>
    intro num' hnum'
    obtain rfl : num = num' := Option.some.inj hnum'
    obtain ⟨hname, hrest⟩ := Value.takeWhile_name (36 :: num) hrule.chars
      (show Value.isIdentCont 46 = false by decide)
    have hstart := startsWith_ident hrule (46 :: 36 :: num)
    have hnodigit : (rule ++ 46 :: 36 :: num).takeWhile Value.isDigit = [] := by
      have hdigit := Value.startsWith_isDigit hstart
      rw [Value.startsWith_eq] at hdigit
      simpa using hdigit
    rw [group_tail, Value.parseRef.eq_def] at hread
    split at hread
    · rename_i heq
      rw [heq] at hstart
      cases hstart
    · simp only [hnodigit, List.isEmpty_nil, if_true] at hread
      obtain ⟨q', hq', -⟩ := Option.map_eq_some_iff.mp hread
      have hlen : (rule ++ 46 :: 36 :: num).length = (rule.length + (num.length + 1)) + 1 := by
        simp only [List.length_append, List.length_cons]
        omega
      rw [hlen, Value.parseChain_index hstart hrest (startsWith_number hnum),
        (takeWhile_number hnum).1] at hq'
      obtain ⟨n, hn, -⟩ := Option.map_eq_some_iff.mp hq'
      exact hstoi hn

/-- A reference starts where there is one. -/
theorem startsRef (h : IsReference t) : Value.startsRef t.text.tail = true := by
  cases h with
  | «variable» name hname hupper =>
    have hstart := startsWith_ident hname []
    cases name with
    | nil => cases hstart
    | cons c name =>
      have hc : Value.isIdentStart c = true := hstart
      simp [Value.RefToken.text, Value.startsRef, hc]
  | capture num hnum =>
    have hstart := startsWith_number hnum
    cases num with
    | nil => cases hstart
    | cons c num =>
      have hc : Value.isDigit c = true := hstart
      simp [Value.RefToken.text, Value.startsRef, hc]
  | group rule num hrule hnum =>
    have hstart := startsWith_ident hrule []
    cases rule with
    | nil => cases hstart
    | cons c rule =>
      have hc : Value.isIdentStart c = true := hstart
      simp [Value.RefToken.text, Value.startsRef, hc]

/-- **A reference is interpolated as itself**, if its index fits. -/
theorem interpolate (h : IsReference t) (hfits : t.Fits) :
    Value.interpolate t.text = some [.ref t.ref] := by
  have hparse := Value.parseRef_nextToken h.nextToken hfits
  have hbehind : Value.behind t [] = [] := Value.behind_of_not_prefix (by decide)
  rw [hbehind] at hparse
  have hread := Value.interpolate_reference [] t.text.tail [] List.not_mem_nil List.not_mem_nil
    (by rw [List.append_nil]; exact h.startsRef) (by rw [List.append_nil]; exact hparse)
  rw [List.append_nil, List.nil_append, ← h.text_eq] at hread
  exact hread

/-- And else it is an error. -/
theorem fits_of_interpolate (h : IsReference t) {segs : List ValueSegment}
    (hread : Value.interpolate t.text = some segs) : t.Fits := by
  rw [h.text_eq, Value.interpolate, List.length_cons, Value.interpolateFrom, h.startsRef,
    beq_self_eq_true, Bool.and_self, if_pos rfl] at hread
  obtain ⟨q, hq, -⟩ := Option.bind_eq_some_iff.mp hread
  exact h.fits_of_parseRef hq

end

end IsReference

/-! ## What concatenates -/

/-- Operands that are no strings are their references. -/
theorem references_of_bare {os : List Operand} (h : ∀ o ∈ os, o.literals = 0) :
    os.map Operand.text = (os.filterMap Operand.token?).map Value.RefToken.text
      ∧ ∀ env, os.flatMap (Operand.textWith env)
        = (os.filterMap Operand.token?).flatMap fun t => env t.ref := by
  induction os with
  | nil => exact ⟨rfl, fun _ => rfl⟩
  | cons o os ih =>
    rw [List.forall_mem_cons] at h
    obtain ⟨htext, henv⟩ := ih h.2
    cases o with
    | literal body hbody => exact absurd h.1 Nat.one_ne_zero
    | reference t ht =>
      have htokens : (Operand.reference t ht :: os).filterMap Operand.token?
          = t :: os.filterMap Operand.token? := rfl
      rw [htokens, List.map_cons, List.map_cons, htext]
      exact ⟨rfl, fun env => congrArg (env t.ref ++ ·) (henv env)⟩

/-- The references among operands are such. -/
theorem isReference_of_mem {os : List Operand} {t : Value.RefToken}
    (h : t ∈ os.filterMap Operand.token?) : IsReference t := by
  obtain ⟨o, -, ho⟩ := List.mem_filterMap.mp h
  cases o with
  | literal body hbody => cases ho
  | reference t' ht =>
    cases ho
    exact ht

/-- References are interpolated one by one. -/
theorem mapM_interpolate {ts : List Value.RefToken} (hts : ∀ t ∈ ts, IsReference t)
    (hfits : ∀ t ∈ ts, t.Fits) :
    (ts.map Value.RefToken.text).mapM Value.interpolate
      = some (ts.map fun t => [ValueSegment.ref t.ref]) := by
  induction ts with
  | nil => rfl
  | cons t ts ih =>
    rw [List.forall_mem_cons] at hts hfits
    rw [List.map_cons, List.mapM_cons, hts.1.interpolate hfits.1, ih hts.2 hfits.2]
    rfl

/-- What is read has indices that fit. -/
theorem fits_of_mapM {ts : List Value.RefToken} {parts : List (List ValueSegment)}
    (hts : ∀ t ∈ ts, IsReference t)
    (h : (ts.map Value.RefToken.text).mapM Value.interpolate = some parts) :
    ∀ t ∈ ts, t.Fits := by
  induction ts generalizing parts with
  | nil => simp
  | cons t ts ih =>
    rw [List.forall_mem_cons] at hts
    rw [List.map_cons, List.mapM_cons] at h
    obtain ⟨segs, hread, hrest⟩ := Option.bind_eq_some_iff.mp h
    obtain ⟨more, hmore, -⟩ := Option.bind_eq_some_iff.mp hrest
    exact List.forall_mem_cons.mpr ⟨hts.1.fits_of_interpolate hread, ih hts.2 hmore⟩

/-- Operands with a plus between any two. -/
theorem intercalate_plus (a : Bytes) (l : List Bytes) :
    [43].intercalate (a :: l) = a ++ l.flatMap (43 :: ·) := by
  induction l generalizing a with
  | nil =>
    rw [List.intercalate_singleton]
    exact (List.append_nil a).symm
  | cons b l ih =>
    rw [List.intercalate_cons_cons, ih, List.append_assoc]
    rfl

/-- **What stands between the pluses of some operands without blanks** are their texts. -/
theorem operands_intercalate {ts : List Value.RefToken} (hts : ∀ t ∈ ts, IsReference t)
    {l : List Bytes} (hl : l = ts.map Value.RefToken.text ∨ l = [] :: ts.map Value.RefToken.text)
    (hne : l ≠ []) :
    (Value.splitConcat ([43].intercalate l)).filter (!·.isEmpty)
      = ts.map Value.RefToken.text := by
  have hplus : ∀ b ∈ ts.map Value.RefToken.text, (43 : UInt8) ∉ b := by
    intro b hb hmem
    obtain ⟨t, ht, rfl⟩ := List.mem_map.mp hb
    have hchar := (hts t ht).isRefChar 43 hmem
    revert hchar
    decide
  have hkeep : (ts.map Value.RefToken.text).filter (!·.isEmpty) = ts.map Value.RefToken.text := by
    refine List.filter_eq_self.mpr fun b hb => ?_
    obtain ⟨t, ht, rfl⟩ := List.mem_map.mp hb
    simpa using (hts t ht).text_ne_nil
  have hsplit : Value.splitConcat ([43].intercalate l) = l := by
    refine List.splitOn_intercalate 43 ?_ hne
    obtain rfl | rfl := hl
    · exact hplus
    · exact List.forall_mem_cons.mpr ⟨List.not_mem_nil, hplus⟩
  rw [hsplit]
  obtain rfl | rfl := hl
  · exact hkeep
  · exact hkeep

namespace Expression

section
variable {e : Expression}

/-- The text behind the first operand, without blanks but perhaps the first. -/
theorem links_of_bare {more : List Link} (hbefore : ∀ k ∈ more, k.before = [])
    (hafter : ∀ k ∈ more, k.after = []) :
    more.flatMap Link.text = (more.map (·.operand.text)).flatMap (43 :: ·) := by
  rw [List.flatMap_map]
  refine List.flatMap_congr fun k hk => ?_
  rw [Link.text, hbefore k hk, hafter k hk]
  rfl

/-- No break in references and pluses. -/
theorem isBreak_intercalate {ts : List Value.RefToken} (hts : ∀ t ∈ ts, IsReference t) :
    ∀ c ∈ (ts.map Value.RefToken.text).flatMap (43 :: ·), isBreak c = false := by
  intro c hc
  obtain ⟨b, hb, hc⟩ := List.mem_flatMap.mp hc
  obtain ⟨t, ht, rfl⟩ := List.mem_map.mp hb
  obtain rfl | hc := List.mem_cons.mp hc
  · rfl
  · exact (hts t ht).isBreak c hc

/-- **How references without blanks are read**: as one bareword, behind an empty string if there
is one.

Behind a reference the whole text is the bareword, since no character of it ends one. Behind an
empty string there may be blanks in front of the first plus, and only there; the string is an
atom of its own and the rest is the bareword, so that joined they are the same text, with an
empty operand in front. -/
theorem IsSolid.reads (h : e.IsSolid) (hne : e.first.literals = 0 ∨ e.more ≠ []) :
    ∃ value l, tokens (e.text ++ [lf]) = some (value ++ [.newline]) ∧ Token.newline ∉ value
      ∧ (readValue value).quoted = false ∧ (readValue value).raw = [43].intercalate l ∧ l ≠ []
      ∧ (l = e.references.map Value.RefToken.text
        ∨ l = [] :: e.references.map Value.RefToken.text)
      ∧ ∀ env, e.textWith env = e.references.flatMap fun t => env t.ref := by
  have hmore : ∀ o ∈ e.more.map (·.operand), o.literals = 0 := by
    intro o ho
    obtain ⟨k, hk, rfl⟩ := List.mem_map.mp ho
    exact h.operand k hk
  obtain ⟨htext, henv⟩ := references_of_bare hmore
  rw [List.map_map] at htext
  have hrefs : ∀ t ∈ (e.more.map (·.operand)).filterMap Operand.token?, IsReference t :=
    fun t ht => isReference_of_mem ht
  have hbreak := isBreak_intercalate hrefs
  rw [← htext] at hbreak
  -- All of it is one bareword, or an empty string with one behind it.
  cases hfirst : e.first with
  | reference t ht =>
    have hbefore : ∀ k ∈ e.more, k.before = [] := by
      obtain hempty | ⟨-, hhead⟩ := h.first
      · rw [hfirst, Operand.text, ht.text_eq] at hempty
        cases hempty
      · have htail := h.before
        cases hm : e.more with
        | nil => simp
        | cons k more =>
          rw [hm] at hhead htail
          exact List.forall_mem_cons.mpr ⟨hhead k rfl, htail⟩
    have hreferences : e.references
        = t :: (e.more.map (·.operand)).filterMap Operand.token? := by
      rw [references, operands, hfirst]
      rfl
    have hwritten : e.text = [43].intercalate (e.references.map Value.RefToken.text) := by
      rw [hreferences, List.map_cons, intercalate_plus, ← htext, Expression.text, hfirst,
        links_of_bare hbefore h.after]
      rfl
    have hword : isWord e.text = true := by
      have hall : ∀ c ∈ e.text, isBreak c = false := by
        rw [Expression.text, hfirst, links_of_bare hbefore h.after, List.forall_mem_append]
        exact ⟨ht.isBreak, hbreak⟩
      rw [Expression.text, hfirst, Operand.text, ht.text_eq] at hall ⊢
      simp only [Lexer.isWord, List.cons_append, Bool.and_eq_true, List.all_eq_true,
        Bool.not_eq_true']
      exact ⟨rfl, hall⟩
    refine ⟨[.word e.text], e.references.map Value.RefToken.text,
      tokens_of_reads (reads_word_lf hword), by simp, rfl, hwritten, ?_, Or.inl rfl, fun env => ?_⟩
    · rw [hreferences]
      exact List.cons_ne_nil _ _
    · rw [hreferences, List.flatMap_cons, ← henv env, Expression.textWith, operands, hfirst]
      rfl
  | literal body hbody =>
    obtain hempty | ⟨hzero, -⟩ := h.first
    · have hnil : body = [] := by
        rw [hfirst, Operand.text] at hempty
        have hlen := congrArg List.length hempty
        simp only [List.length_cons, List.length_append, List.length_nil] at hlen
        exact List.eq_nil_of_length_eq_zero (by omega)
      subst hnil
      cases hm : e.more with
      | nil =>
        rw [hfirst] at hne
        obtain hone | hne := hne
        · cases hone
        · exact absurd hm hne
      | cons k more =>
        have hreferences : e.references
            = (e.more.map (·.operand)).filterMap Operand.token? := by
          rw [references, operands, hfirst]
          rfl
        have hafter := h.after
        have htail := h.before
        rw [hm, List.forall_mem_cons] at hafter
        rw [hm, List.tail_cons] at htail
        have hwritten : e.text ++ [lf] = (34 :: ([] ++ [34])) ++ (k.before
            ++ ([43].intercalate ([] :: e.references.map Value.RefToken.text) ++ [lf])) := by
          rw [hreferences, intercalate_plus, ← htext, hm, List.map_cons, List.flatMap_cons,
            Expression.text, hfirst, hm, List.flatMap_cons, links_of_bare htail hafter.2,
            Link.text, hafter.1]
          have hquotes : (Operand.literal [] hbody).text = [34, 34] := rfl
          rw [hquotes]
          simp [Function.comp_def]
        have hword : isWord ([43].intercalate ([] :: e.references.map Value.RefToken.text))
            = true := by
          rw [hreferences, intercalate_plus, ← htext, List.nil_append]
          rw [hm, List.map_cons, List.flatMap_cons, List.cons_append] at hbreak ⊢
          simp only [Lexer.isWord, Bool.and_eq_true, List.all_eq_true, Bool.not_eq_true']
          exact ⟨rfl, hbreak⟩
        have hread := tokens_of_reads (reads_word_lf hword)
        refine ⟨[.string [], .word ([43].intercalate ([] :: e.references.map Value.RefToken.text))],
          [] :: e.references.map Value.RefToken.text, ?_, by simp, rfl, rfl, List.cons_ne_nil _ _,
          Or.inr rfl, fun env => ?_⟩
        · rw [hwritten, reads_string rfl, tokens, tokensFrom_blanks k.before_blank, ← tokens, hread]
          rfl
        · rw [hreferences, ← henv env, Expression.textWith, operands, hfirst]
          rfl
    · rw [hfirst] at hzero
      cases hzero

/-- A value with a text that is empty has no segments. -/
theorem segments_of_raw {raw : Bytes} {quoted : Bool} {v : Value}
    (h : Value.parse raw .newValue quoted = some v) (hraw : v.raw = []) : v.segments = [] := by
  obtain rfl : raw = [] := by rw [← Value.raw_parse h, hraw]
  cases quoted with
  | true =>
    cases h
    rfl
  | false =>
    cases h
    rfl

/-- **What is read as the text of the operands is evaluated to it.** -/
theorem concatenates_of_textWith {v : Value} (h : newValue? e.text = some v)
    (henv : ∀ env, v.textWith env = e.textWith env) : e.Concatenates := by
  obtain ⟨value, -, -, hv⟩ := newValue?_eq_some_iff.mp h
  refine ⟨v, h, henv, fun rx st w hlen => ?_⟩
  rw [← henv] at hlen ⊢
  exact Meaning.run_value rx (segments_of_raw hv) hlen

/-- **A string alone concatenates.** -/
theorem IsString.concatenates (h : e.IsString) : e.Concatenates := by
  cases hfirst : e.first with
  | reference t ht =>
    have hone := h.first
    rw [hfirst] at hone
    cases hone
  | literal body hbody =>
    have hwritten : e.text ++ [lf] = (34 :: (body ++ [34])) ++ [lf] := by
      rw [Expression.text, hfirst, h.more]
      simp [Operand.text]
    have hread : newValue? e.text = some (Value.verbatim (unescapeString body)) := by
      refine newValue?_eq_some_iff.mpr ⟨[.string body], ?_, by simp, rfl⟩
      rw [hwritten, reads_string hbody]
      rfl
    refine concatenates_of_textWith hread fun env => ?_
    rw [Expression.textWith, operands, hfirst, h.more]
    unfold Value.textWith Value.verbatim
    dsimp only
    split
    · rename_i hempty
      simp [Operand.textWith, List.isEmpty_iff.mp hempty]
    · simp [Operand.textWith, ValueSegment.textWith]

/-- **References without blanks concatenate exactly when their indices fit.** -/
theorem IsSolid.concatenates_iff_fits (h : e.IsSolid) (hne : e.first.literals = 0 ∨ e.more ≠ []) :
    e.Concatenates ↔ ∀ t ∈ e.references, t.Fits := by
  obtain ⟨value, l, htokens, hnewline, hquoted, hraw, hl, hpieces, henv⟩ := h.reads hne
  have hrefs : ∀ t ∈ e.references, IsReference t := fun t ht => isReference_of_mem ht
  have hoperands := operands_intercalate hrefs hpieces hl
  constructor
  · rintro ⟨v, hv, -⟩
    obtain ⟨value', htokens', -, hparse⟩ := newValue?_eq_some_iff.mp hv
    obtain rfl : value = value' :=
      List.append_cancel_right (Option.some.inj (htokens.symm.trans htokens'))
    rw [hquoted, hraw] at hparse
    obtain ⟨parts, hparts, -⟩ := Option.bind_eq_some_iff.mp hparse
    rw [hoperands] at hparts
    exact fits_of_mapM hrefs hparts
  · intro hfits
    have hparse : Value.parse (readValue value).raw .newValue (readValue value).quoted
        = some
            { raw := [43].intercalate l
              segments := (e.references.map fun t => [ValueSegment.ref t.ref]).flatten } := by
      rw [hquoted, hraw]
      change Value.parseNew _ = _
      rw [Value.parseNew, hoperands, mapM_interpolate hrefs hfits]
      rfl
    refine concatenates_of_textWith (newValue?_eq_some_iff.mpr ⟨value, htokens, hnewline, hparse⟩)
      fun env => ?_
    rw [henv, Value.textWith, ← List.flatMap_def, List.flatMap_assoc]
    refine List.flatMap_congr fun t _ => ?_
    simp [ValueSegment.textWith]

/-- **What an expression concatenates to.** An expression comes to the contents of its
strings and the values of its references, in order, exactly when it is a single string, or
has references only, with indices that fit an `int`, and no blanks; or an empty string in
front of such, with blanks behind it or none. -/
theorem concatenates_iff (e : Expression) :
    e.Concatenates ↔ e.IsString ∨ e.IsSolid ∧ ∀ t ∈ e.references, t.Fits := by
  constructor
  · intro h
    have hconcatenates := h
    obtain ⟨v, hv, henv, -⟩ := hconcatenates
    obtain ⟨value, htokens, -, hparse⟩ := newValue?_eq_some_iff.mp hv
    have htext : v.literalText = e.textWith nothing := by
      rw [← henv]
      exact (Hmr.textWith_nothing v).symm
    obtain ⟨hstrings, hsp⟩ := counts htokens hparse htext
    obtain hstring | hsolid := shape htokens hstrings hsp
    · exact Or.inl hstring
    · by_cases hne : e.first.literals = 0 ∨ e.more ≠ []
      · exact Or.inr ⟨hsolid, (hsolid.concatenates_iff_fits hne).mp h⟩
      · obtain ⟨hfirst, hmore⟩ := not_or.mp hne
        refine Or.inl ⟨?_, not_not.mp hmore⟩
        cases hop : e.first with
        | literal body hbody => rfl
        | reference t ht => exact absurd (by rw [hop]; rfl) hfirst
  · rintro (hstring | ⟨hsolid, hfits⟩)
    · exact hstring.concatenates
    · by_cases hne : e.first.literals = 0 ∨ e.more ≠ []
      · exact (hsolid.concatenates_iff_fits hne).mpr hfits
      · obtain ⟨hfirst, hmore⟩ := not_or.mp hne
        refine IsString.concatenates ⟨?_, not_not.mp hmore⟩
        cases hop : e.first with
        | literal body hbody => rfl
        | reference t ht => exact absurd (by rw [hop]; rfl) hfirst

/-- A string and a reference with a plus and blanks between them come to two blanks more. -/
theorem not_concatenates : ∃ e : Expression,
    e.text = [34] ++ txt "a" ++ [34] ++ txt " + $1" ∧ ¬ e.Concatenates := by
  have hone : IsNumber (txt "1") := ⟨by decide, List.all_eq_true.mp rfl⟩
  have hblank : ∀ c ∈ [sp], Lexer.isBlank c = true := List.all_eq_true.mp rfl
  refine ⟨⟨.literal (txt "a") rfl,
    [⟨[sp], [sp], .reference (.capture (txt "1")) (.capture _ hone), hblank, hblank⟩]⟩, rfl, ?_⟩
  rintro ⟨v, hv, henv, -⟩
  have hread : newValue? ([34] ++ txt "a" ++ [34] ++ txt " + $1") = some
      { raw := txt "a + $1"
        segments := [.literal (txt "a "), .literal (txt " "), .ref ⟨.capture, txt "1", 1⟩] } := by
    decide
  obtain rfl := Option.some.inj (hread.symm.trans hv)
  have hwrong : txt "a  " = txt "a" := henv nothing
  exact absurd hwrong (by decide)

end

end Expression

end Hmr
