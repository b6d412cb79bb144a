import Hmr.Printer
import Hmr.Sources

/-!
# Reading what is printed

A printed ruleset is read line by line as it was written, provided that every text in it
is plain: barewords, with single blanks between them (`Plain`). That is what the lexer
leaves of a text without quotes, so a plain text is got back, and the words of any other
text are not the text (`intercalate_words`, `words_intercalate`).

The printer puts out attributes, a key and a value to a line, and the lists of these
attributes are what the file goes by (`Printer.elementAttrs` and the like): the printed
text is theirs, and so are the lines of tokens that the lexer makes of it
(`Printer.reads_toHmrText`), and the blocks that the lines are gathered into
(`Printer.unit_tokensOf`). The keys are those that the parser looks up, and no block
keywords, so an attribute does not open a block.

From the blocks the rules are built again (`Printer.buildRuleset_context`). Every keyword
of an enumeration that is printed is one that the parser knows, with one exception: the
element type that was never given is printed as `none`, and there is no such type to be
read. And a value is read again without the quotes it may have had; it has to mean the
same without them (`Value.Unquoted`).

Together: a printed ruleset with legible texts parses, to itself without its legacy
attributes, exactly when its element-rules have types (`Printer.parse_toHmrText`). That
the texts have to be legible is shown where printing and parsing are put together, by
counting.
-/

namespace Hmr

open Hmr.Lexer Hmr.Parser

/-! ## Plain texts -/

/-- The words of a text. -/
def words (v : Bytes) : List Bytes := if v.isEmpty then [] else v.splitOn sp

/-- **A plain text**: barewords, and a single blank between any two. -/
def Plain (v : Bytes) : Prop := ∀ w ∈ words v, isWord w = true

instance (v : Bytes) : Decidable (Plain v) := inferInstanceAs (Decidable (∀ w ∈ words v, _))

/-- The tokens of a plain text. -/
def atoms (v : Bytes) : List Token := (words v).map .word

section
variable {v w : Bytes} {ws : List Bytes}

/-- The words joined by single blanks are the text, whatever the text is: two blanks in a row
have an empty word between them. -/
@[simp] theorem intercalate_words (v : Bytes) : [sp].intercalate (words v) = v := by
  unfold words
  split
  · rename_i h
    rw [List.isEmpty_iff.mp h]
    rfl
  · exact List.intercalate_splitOn sp

/-- A bareword has no blank in it. -/
theorem sp_not_mem_of_isWord (h : isWord w = true) : sp ∉ w := by
  cases w with
  | nil => cases h
  | cons c w =>
    simp only [isWord, Bool.and_eq_true, List.all_eq_true, Bool.not_eq_true'] at h
    intro hsp
    exact absurd (h.2 sp hsp) (by decide)

/-- Barewords joined by blanks fall apart into these barewords again. -/
theorem words_intercalate (h : ∀ w ∈ ws, isWord w = true) :
    words ([sp].intercalate ws) = ws := by
  cases ws with
  | nil => rfl
  | cons w ws =>
    have hne : ([sp].intercalate (w :: ws)).isEmpty = false := by
      cases w with
      | nil => exact absurd (h [] List.mem_cons_self) (by decide)
      | cons c w =>
        rw [List.intercalate_cons_cons_left]
        rfl
    rw [words, hne, if_neg Bool.false_ne_true]
    exact List.splitOn_intercalate sp (fun l hl => sp_not_mem_of_isWord (h l hl))
      (List.cons_ne_nil _ _)

/-- So they are a plain text. -/
theorem plain_intercalate (h : ∀ w ∈ ws, isWord w = true) : Plain ([sp].intercalate ws) := by
  unfold Plain
  rwa [words_intercalate h]

/-- A single bareword is a plain text, and -/
theorem plain_of_isWord (h : isWord w = true) : Plain w := by
  have := plain_intercalate (show ∀ u ∈ [w], isWord u = true by simpa using h)
  rwa [List.intercalate_singleton] at this

/-- it is its only word. -/
theorem words_of_isWord (h : isWord w = true) : words w = [w] := by
  have hw : words ([sp].intercalate [w]) = [w] := words_intercalate (by simpa using h)
  rwa [List.intercalate_singleton] at hw

/-- `read_value` joins the words behind the first. -/
theorem foldl_words (hw : w ≠ []) :
    (ws.map Token.word).foldl
        (fun raw a => (if raw.isEmpty then raw else raw ++ [sp]) ++ atomText a) w
      = [sp].intercalate (w :: ws) := by
  induction ws generalizing w with
  | nil => rw [List.intercalate_singleton]; rfl
  | cons v ws ih =>
    have hne : w.isEmpty = false := by simpa using hw
    rw [List.map_cons, List.foldl_cons, hne, if_neg Bool.false_ne_true,
      ih (by simp), List.intercalate_cons_cons]
    cases ws with
    | nil => simp [atomText]
    | cons u ws => simp [atomText]

/-- **`read_value` reads barewords joined by blanks.** -/
theorem readValue_words (h : ∀ w ∈ ws, isWord w = true) :
    readValue (ws.map .word) = ⟨[sp].intercalate ws, false, ws.length⟩ := by
  have hraw : (readValue (ws.map .word)).raw = [sp].intercalate ws := by
    cases ws with
    | nil => rfl
    | cons w ws =>
      have hw : w ≠ [] := by
        rintro rfl
        exact absurd (h [] List.mem_cons_self) (by decide)
      exact foldl_words hw
  have hquoted : (readValue (ws.map .word)).quoted = false := by
    cases ws with
    | nil => rfl
    | cons w ws => rfl
  have hcount : (readValue (ws.map .word)).count = ws.length := List.length_map _
  rw [← hraw, ← hquoted, ← hcount]

/-- **A plain text is read as itself**, and unquoted. -/
theorem readValue_atoms (h : Plain v) : readValue (atoms v) = ⟨v, false, (words v).length⟩ := by
  rw [atoms, readValue_words h, intercalate_words]

end

namespace Printer

/-! ## Lines -/

/-- The attributes printed for an element-rule, in the order of `visit`. All of them are printed,
empty or not. -/
def elementAttrs (er : ElementRule) : List (Bytes × Bytes) :=
  [(txt "name", er.name), (txt "parameter-name", er.parameterName),
   (txt "type", er.type.toString), (txt "action", er.action.toString),
   (txt "match-val-type", er.matchValType.toString),
   (txt "comparison-type", er.comparison.toString),
   (txt "match-value", er.matchValue.raw), (txt "new-value", er.newValue.raw)]

/-- The attributes printed for a header-rule. The methods come last, joined by commas. -/
def headerAttrs (hr : HeaderRule) : List (Bytes × Bytes) :=
  [(txt "name", hr.name), (txt "header-name", hr.headerName),
   (txt "action", hr.action.toString), (txt "comparison-type", hr.comparison.toString),
   (txt "match-value", hr.matchValue.raw), (txt "msg-type", hr.msgType.toString),
   (txt "new-value", hr.newValue.raw), (txt "methods", AstFactory.joinMethods hr.methods)]

/-- The attributes printed for a ruleset. The description is the only one that is left out when
it is empty. -/
def rulesetAttrs (rs : SourceRuleset) : List (Bytes × Bytes) :=
  (txt "name", rs.name)
    :: if rs.description.isEmpty then [] else [(txt "description", rs.description)]

/-- An element-rule is printed as its keyword and its attributes, and so is -/
theorem visitElementRule_eq (er : ElementRule) :
    visitElementRule er
      = List.replicate 16 sp ++ txt "element-rule" ++ [lf]
        ++ (elementAttrs er).flatMap fun q => attr 3 q.1 q.2 := by
  simp only [visitElementRule, elementAttrs, List.flatMap_cons, List.flatMap_nil,
    List.append_nil, List.append_assoc]

/-- a header-rule, and -/
theorem enterHeaderRule_eq (hr : HeaderRule) :
    enterHeaderRule hr
      = List.replicate 8 sp ++ txt "header-rule" ++ [lf]
        ++ (headerAttrs hr).flatMap fun q => attr 2 q.1 q.2 := by
  simp only [enterHeaderRule, headerAttrs, List.flatMap_cons, List.flatMap_nil,
    List.append_nil, List.append_assoc]

/-- a ruleset. -/
theorem enterRuleset_eq (rs : SourceRuleset) :
    enterRuleset rs
      = List.replicate 0 sp ++ txt "sip-manipulation" ++ [lf]
        ++ (rulesetAttrs rs).flatMap fun q => attr 1 q.1 q.2 := by
  unfold enterRuleset rulesetAttrs
  split
  · simp
  · simp

/-- **A rule all of whose texts are plain.** -/
def Texts (attrs : List (Bytes × Bytes)) : Prop := ∀ q ∈ attrs, Plain q.2

/-- The line of an attribute, in tokens. -/
def line (q : Bytes × Bytes) : List Token := .word q.1 :: atoms q.2

/-- The attribute of a line. -/
def context (q : Bytes × Bytes) : AttributeContext := ⟨q.1, atoms q.2⟩

/-- The tokens of some lines. -/
def tokensOf (ls : List (List Token)) : List Token := ls.flatMap (· ++ [.newline])

/-- The lines of an element-rule. -/
def elementLines (er : ElementRule) : List (List Token) :=
  [.word (txt "element-rule")] :: (elementAttrs er).map line

/-- The lines of a header-rule. -/
def headerLines (hr : HeaderRule) : List (List Token) :=
  [.word (txt "header-rule")]
    :: ((headerAttrs hr).map line ++ hr.elementRules.flatMap elementLines)

/-- The lines of a ruleset. -/
def rulesetLines (rs : SourceRuleset) : List (List Token) :=
  [.word (txt "sip-manipulation")]
    :: ((rulesetAttrs rs).map line ++ rs.headerRules.flatMap headerLines)

/-- A key that is printed is a bareword without marks, and no block keyword. -/
def IsKey (key : Bytes) : Prop :=
  isWord key = true ∧ blockKeyword key = none ∧ marks key = 0

section
variable {attrs : List (Bytes × Bytes)} {depth : Nat}

/-- The parser's lookup of a key goes by lower case; that it finds every key of its table is a
fact of the table. -/
theorem finds_elementKeys : AstFactory.Finds elementKeys := by
  unfold AstFactory.Finds
  decide

/-- The same for header-rules. -/
theorem finds_headerKeys : AstFactory.Finds headerKeys := by
  unfold AstFactory.Finds
  decide

/-- The same for rulesets. -/
theorem finds_rulesetKeys : AstFactory.Finds rulesetKeys := by
  unfold AstFactory.Finds
  decide

/-- No key of an element-rule opens a block. -/
theorem isKey_elementKeys : ∀ q ∈ elementKeys, IsKey q.1 := by
  unfold IsKey
  decide

/-- Nor does a key of a header-rule. -/
theorem isKey_headerKeys : ∀ q ∈ headerKeys, IsKey q.1 := by
  unfold IsKey
  decide

/-- Nor does a key of a ruleset. -/
theorem isKey_rulesetKeys : ∀ q ∈ rulesetKeys, IsKey q.1 := by
  unfold IsKey
  decide

/-- What is printed as a key of an element-rule is one. -/
theorem isKey_elementAttrs (er : ElementRule) : ∀ q ∈ elementAttrs er, IsKey q.1 := by
  have h := isKey_elementKeys
  simp only [elementKeys, List.forall_mem_cons] at h
  simp [elementAttrs, h]

/-- What is printed as a key of a header-rule is one. -/
theorem isKey_headerAttrs (hr : HeaderRule) : ∀ q ∈ headerAttrs hr, IsKey q.1 := by
  have h := isKey_headerKeys
  simp only [headerKeys, List.forall_mem_cons] at h
  simp [headerAttrs, h]

/-- What is printed as a key of a ruleset is one. -/
theorem isKey_rulesetAttrs (rs : SourceRuleset) : ∀ q ∈ rulesetAttrs rs, IsKey q.1 := by
  have h := isKey_rulesetKeys
  simp only [rulesetKeys, List.forall_mem_cons] at h
  unfold rulesetAttrs
  split
  · simp [h]
  · simp [h]

/-- **A printed attribute is read as its line**: the blanks in front and between vanish, the
words of the value are tokens, and the line end is one. -/
theorem reads_attr {key v : Bytes} (hkey : isWord key = true) (hv : Plain v) :
    Reads (attr depth key v) (line (key, v) ++ [.newline]) := by
  have hkeyed : Reads (key ++ (if v.isEmpty then [] else List.replicate 20 sp ++ v) ++ [lf])
      (line (key, v) ++ [.newline]) := by
    split
    · rename_i hempty
      have : atoms v = [] := by
        rw [List.isEmpty_iff.mp hempty]
        rfl
      rw [line, this, List.append_nil]
      exact reads_word_lf hkey
    · have hvalue := reads_words hv
      rw [intercalate_words] at hvalue
      have hblanks : List.replicate 20 sp = [sp] ++ List.replicate 19 sp := rfl
      rw [hblanks, line, List.append_assoc, List.append_assoc, List.append_assoc,
        ← List.append_assoc key]
      exact (reads_word_sp hkey).append ((reads_blanks 19).append hvalue)
  unfold attr
  rw [List.append_assoc, List.append_assoc, ← List.append_assoc key]
  exact (reads_blanks _).append hkeyed

/-- Printed attributes are read as their lines. -/
theorem reads_attrs (hkeys : ∀ q ∈ attrs, IsKey q.1) (htexts : Texts attrs) :
    Reads (attrs.flatMap fun q => attr depth q.1 q.2) (tokensOf (attrs.map line)) := by
  rw [tokensOf, List.flatMap_map]
  exact Reads.flatMap _ _ _ fun q hq => reads_attr (hkeys q hq).1 (htexts q hq)

/-- A block keyword on its line. -/
theorem reads_keyword {n : Nat} {word : Bytes} (hw : isWord word = true) :
    Reads (List.replicate n sp ++ word ++ [lf]) ([.word word] ++ [.newline]) := by
  rw [List.append_assoc]
  exact (reads_blanks n).append (reads_word_lf hw)

/-- A printed element-rule is read as its lines. -/
theorem reads_elementRule {er : ElementRule} (h : Texts (elementAttrs er)) :
    Reads (visitElementRule er) (tokensOf (elementLines er)) := by
  rw [visitElementRule_eq]
  exact (reads_keyword (by decide)).append (reads_attrs (isKey_elementAttrs er) h)

/-- **All the texts of a header-rule are plain.** -/
structure HeaderTexts (hr : HeaderRule) : Prop where
  attrs : Texts (headerAttrs hr)
  elementRules : ∀ er ∈ hr.elementRules, Texts (elementAttrs er)

/-- **All the texts of a ruleset are plain.** -/
structure RulesetTexts (rs : SourceRuleset) : Prop where
  attrs : Texts (rulesetAttrs rs)
  headerRules : ∀ hr ∈ rs.headerRules, HeaderTexts hr

/-- The tokens of lines are those of the first and of the others, -/
theorem tokensOf_cons (l : List Token) (ls : List (List Token)) :
    tokensOf (l :: ls) = (l ++ [.newline]) ++ tokensOf ls := rfl

/-- those of some and of some more, -/
theorem tokensOf_append (ls ms : List (List Token)) :
    tokensOf (ls ++ ms) = tokensOf ls ++ tokensOf ms := List.flatMap_append

/-- and those of each piece. -/
theorem tokensOf_flatMap {α : Type} (f : α → List (List Token)) (l : List α) :
    tokensOf (l.flatMap f) = l.flatMap fun a => tokensOf (f a) := List.flatMap_assoc

/-- A printed header-rule is read as its lines, with its element-rules behind its attributes. -/
theorem reads_headerRule {hr : HeaderRule} (h : HeaderTexts hr) :
    Reads (acceptHeaderRule hr) (tokensOf (headerLines hr)) := by
  rw [acceptHeaderRule, enterHeaderRule_eq, headerLines, tokensOf_cons, tokensOf_append,
    tokensOf_flatMap, List.append_assoc]
  exact (reads_keyword (by decide)).append
    ((reads_attrs (isKey_headerAttrs hr) h.attrs).append
      (Reads.flatMap _ _ _ fun er her => reads_elementRule (h.elementRules er her)))

/-- **A printed ruleset is read as its lines.** -/
theorem reads_toHmrText {rs : SourceRuleset} (h : RulesetTexts rs) :
    Reads (toHmrText rs) (tokensOf (rulesetLines rs)) := by
  rw [toHmrText, enterRuleset_eq, rulesetLines, tokensOf_cons, tokensOf_append, tokensOf_flatMap,
    List.append_assoc]
  exact (reads_keyword (by decide)).append
    ((reads_attrs (isKey_rulesetAttrs rs) h.attrs).append
      (Reads.flatMap _ _ _ fun hr hhr => reads_headerRule (h.headerRules hr hhr)))

/-! ## Blocks -/

/-- No line end in a line. -/
theorem newline_not_mem_line (q : Bytes × Bytes) : Token.newline ∉ line q := by
  simp [line, atoms]

/-- The parser falls back on the same lines: none of them has a line end in it. -/
theorem lines_tokensOf {ls : List (List Token)} (h : ∀ l ∈ ls, Token.newline ∉ l) :
    lines [] (tokensOf ls) = some ls := by
  induction ls with
  | nil => rfl
  | cons l ls ih =>
    rw [List.forall_mem_cons] at h
    rw [tokensOf_cons, List.append_assoc, List.singleton_append, lines_line h.1, ih h.2]
    rfl

/-- That is so of the lines of a ruleset, since a plain text has none. -/
theorem newline_not_mem (rs : SourceRuleset) : ∀ l ∈ rulesetLines rs, Token.newline ∉ l := by
  intro l hl
  simp only [rulesetLines, headerLines, elementLines, List.mem_cons, List.mem_append,
    List.mem_map, List.mem_flatMap] at hl
  rcases hl with rfl | ⟨q, -, rfl⟩ | ⟨hr, -, rfl | ⟨q, -, rfl⟩ | ⟨er, -, rfl | ⟨q, -, rfl⟩⟩⟩
  · simp
  · exact newline_not_mem_line q
  · simp
  · exact newline_not_mem_line q
  · simp
  · exact newline_not_mem_line q

/-- A line that starts with a word goes above the blocks of the lines below. -/
theorem blocks_cons (key : Bytes) (value : List Token) (ls : List (List Token)) :
    blocks ((.word key :: value) :: ls) = (blocks ls).bind fun b => b.above key value := rfl

/-- Attributes are open until a block above takes them. -/
theorem blocks_attrs {ls : List (List Token)} {b : Blocks} (hkeys : ∀ q ∈ attrs, IsKey q.1)
    (h : blocks ls = some b) (hb : b.attributes = []) :
    blocks (attrs.map line ++ ls) = some { b with attributes := attrs.map context } := by
  induction attrs with
  | nil => rw [List.map_nil, List.nil_append, h, List.map_nil, ← hb]
  | cons q attrs ih =>
    rw [List.forall_mem_cons] at hkeys
    rw [List.map_cons, List.cons_append, line, blocks_cons, ih hkeys.2, Option.bind_some,
      Blocks.above, hkeys.1.2.1]
    rfl

/-- What an element-rule is printed from, as it is read back. -/
def elementContext (er : ElementRule) : ElementRuleContext := ⟨[], (elementAttrs er).map context⟩

/-- What a header-rule is printed from, as it is read back. -/
def headerContext (hr : HeaderRule) : HeaderRuleContext :=
  ⟨[], (headerAttrs hr).map (fun q => .attr (context q))
    ++ hr.elementRules.map (fun er => .elementRule (elementContext er))⟩

/-- What a ruleset is printed from, as it is read back. -/
def rulesetContext (rs : SourceRuleset) : ManipulationContext :=
  ⟨[], (rulesetAttrs rs).map (fun q => .attr (context q))
    ++ rs.headerRules.map (fun hr => .headerRule (headerContext hr))⟩

/-- The keyword the printer puts out for an element-rule, and -/
theorem blockKeyword_elementRule : blockKeyword (txt "element-rule") = some .elementRule := by
  decide

/-- for a header-rule, and -/
theorem blockKeyword_headerRule : blockKeyword (txt "header-rule") = some .headerRule := by
  decide

/-- for the ruleset. -/
theorem blockKeyword_sipManipulation :
    blockKeyword (txt "sip-manipulation") = some .sipManipulation := by
  decide

/-- Element-rules are open until a header-rule above takes them, each with its own attributes. -/
theorem blocks_elementRules {ls : List (List Token)} {b : Blocks} (ers : List ElementRule)
    (h : blocks ls = some b) (hb : b.attributes = []) :
    blocks (ers.flatMap elementLines ++ ls)
      = some { b with elementRules := ers.map elementContext ++ b.elementRules } := by
  induction ers with
  | nil => exact h
  | cons er ers ih =>
    have hattrs := blocks_attrs (isKey_elementAttrs er) ih hb
    rw [List.flatMap_cons, elementLines, List.cons_append, List.cons_append, blocks_cons,
      List.append_assoc, hattrs, Option.bind_some, Blocks.above, blockKeyword_elementRule]
    simp [hb, elementContext]

/-- Header-rules are open until the manipulation takes them. Nothing else is left open below. -/
theorem blocks_headerRules (hrs : List HeaderRule) :
    blocks (hrs.flatMap headerLines)
      = some { rules := hrs.map fun hr => .headerRule (headerContext hr) } := by
  induction hrs with
  | nil => rfl
  | cons hr hrs ih =>
    have helements := blocks_elementRules hr.elementRules ih rfl
    have hattrs := blocks_attrs (isKey_headerAttrs hr) helements rfl
    rw [List.flatMap_cons, headerLines, List.cons_append, blocks_cons, List.append_assoc, hattrs,
      Option.bind_some, Blocks.above, blockKeyword_headerRule]
    simp [headerContext, Function.comp_def]

/-- **The lines of a ruleset are one manipulation.** -/
theorem unit_tokensOf (rs : SourceRuleset) :
    unit (tokensOf (rulesetLines rs)) = some [rulesetContext rs] := by
  have hattrs := blocks_attrs (isKey_rulesetAttrs rs) (blocks_headerRules rs.headerRules) rfl
  rw [unit, lines_tokensOf (newline_not_mem rs), Option.bind_some, rulesetLines, blocks_cons,
    hattrs, Option.bind_some, Blocks.above, blockKeyword_sipManipulation]
  simp [rulesetContext, Function.comp_def]

end

/-! ## Rules -/

/-- Every keyword of a table is a bareword, without marks. -/
def Barewords {α : Type} (table : List (Bytes × α)) : Prop :=
  ∀ q ∈ table, isWord q.1 = true ∧ marks q.1 = 0

/-- The keywords of the header actions are barewords, and so are those of -/
theorem barewords_headerActions : Barewords AstFactory.headerActions := by
  unfold Barewords
  decide

/-- the element actions, -/
theorem barewords_elementActions : Barewords AstFactory.elementActions := by
  unfold Barewords
  decide

/-- the element types, -/
theorem barewords_elementTypes : Barewords AstFactory.elementTypes := by
  unfold Barewords
  decide

/-- the comparisons, -/
theorem barewords_comparisons : Barewords AstFactory.comparisons := by
  unfold Barewords
  decide

/-- the match-val-types and -/
theorem barewords_matchValTypes : Barewords AstFactory.matchValTypes := by
  unfold Barewords
  decide

/-- the message types. -/
theorem barewords_msgTypes : Barewords AstFactory.msgTypes := by
  unfold Barewords
  decide

/-- What is printed for an element type is a bareword, also for the type that is none. -/
theorem bareword_elementType (t : ElementType) :
    isWord t.toString = true ∧ marks t.toString = 0 := by
  by_cases h : t = .none
  · subst h
    decide
  · exact barewords_elementTypes _ (AstFactory.mem_elementTypes h)

section
variable {α : Type} {w key : Bytes} {lookup : Bytes → Option α} {a o : α} {d : Diagnostics}

/-- A keyword that is known is read as its member, without an error. -/
theorem readEnum_atoms (hword : isWord key = true) (h : lookup key = some a) :
    readEnum w lookup (readValue (atoms key)) o d = (a, d) := by
  rw [readEnum, readValue_atoms (plain_of_isWord hword), words_of_isWord hword]
  simp [h]

/-- One that is not leaves the old member, and an error. -/
theorem readEnum_atoms_of_none (hword : isWord key = true) (h : lookup key = none) :
    readEnum w lookup (readValue (atoms key)) o d
      = (o, d.error (txt "unknown " ++ w ++ txt " '" ++ key ++ txt "'")) := by
  rw [readEnum, readValue_atoms (plain_of_isWord hword), words_of_isWord hword]
  simp [h]

end

/-- Every key that is printed for an element-rule is found as the attribute it is. -/
theorem lookup_elementKeys :
    AstFactory.lookup elementKeys (txt "name") = some .name
      ∧ AstFactory.lookup elementKeys (txt "parameter-name") = some .parameterName
      ∧ AstFactory.lookup elementKeys (txt "type") = some .type
      ∧ AstFactory.lookup elementKeys (txt "action") = some .action
      ∧ AstFactory.lookup elementKeys (txt "match-val-type") = some .matchValType
      ∧ AstFactory.lookup elementKeys (txt "comparison-type") = some .comparisonType
      ∧ AstFactory.lookup elementKeys (txt "match-value") = some .matchValue
      ∧ AstFactory.lookup elementKeys (txt "new-value") = some .newValue :=
  ⟨finds_elementKeys (txt "name", .name) (by simp [elementKeys]),
    finds_elementKeys (txt "parameter-name", .parameterName) (by simp [elementKeys]),
    finds_elementKeys (txt "type", .type) (by simp [elementKeys]),
    finds_elementKeys (txt "action", .action) (by simp [elementKeys]),
    finds_elementKeys (txt "match-val-type", .matchValType) (by simp [elementKeys]),
    finds_elementKeys (txt "comparison-type", .comparisonType) (by simp [elementKeys]),
    finds_elementKeys (txt "match-value", .matchValue) (by simp [elementKeys]),
    finds_elementKeys (txt "new-value", .newValue) (by simp [elementKeys])⟩

/-- The same for a header-rule. -/
theorem lookup_headerKeys :
    AstFactory.lookup headerKeys (txt "name") = some .name
      ∧ AstFactory.lookup headerKeys (txt "header-name") = some .headerName
      ∧ AstFactory.lookup headerKeys (txt "action") = some .action
      ∧ AstFactory.lookup headerKeys (txt "comparison-type") = some .comparisonType
      ∧ AstFactory.lookup headerKeys (txt "msg-type") = some .msgType
      ∧ AstFactory.lookup headerKeys (txt "methods") = some .methods
      ∧ AstFactory.lookup headerKeys (txt "match-value") = some .matchValue
      ∧ AstFactory.lookup headerKeys (txt "new-value") = some .newValue :=
  ⟨finds_headerKeys (txt "name", .name) (by simp [headerKeys]),
    finds_headerKeys (txt "header-name", .headerName) (by simp [headerKeys]),
    finds_headerKeys (txt "action", .action) (by simp [headerKeys]),
    finds_headerKeys (txt "comparison-type", .comparisonType) (by simp [headerKeys]),
    finds_headerKeys (txt "msg-type", .msgType) (by simp [headerKeys]),
    finds_headerKeys (txt "methods", .methods) (by simp [headerKeys]),
    finds_headerKeys (txt "match-value", .matchValue) (by simp [headerKeys]),
    finds_headerKeys (txt "new-value", .newValue) (by simp [headerKeys])⟩

/-- The same for a ruleset, of the two keys that are printed. -/
theorem lookup_rulesetKeys :
    AstFactory.lookup rulesetKeys (txt "name") = some .name
      ∧ AstFactory.lookup rulesetKeys (txt "description") = some .description :=
  ⟨finds_rulesetKeys (txt "name", .name) (by simp [rulesetKeys]),
    finds_rulesetKeys (txt "description", .description) (by simp [rulesetKeys])⟩

/-- The error about an element type. -/
def unknownType (t : ElementType) : Bytes :=
  txt "unknown " ++ txt "element type" ++ txt " '" ++ t.toString ++ txt "'"

/-- **The element type is read back**, and it is an error if it was never given. -/
theorem readEnum_type (t : ElementType) (d : Diagnostics) :
    readEnum (txt "element type") AstFactory.elementType (readValue (atoms t.toString)) .none d
      = (t, if t = .none then d.error (unknownType t) else d) := by
  by_cases h : t = .none
  · subst h
    exact readEnum_atoms_of_none (bareword_elementType _).1 AstFactory.elementType_none
  · rw [readEnum_atoms (bareword_elementType _).1 (AstFactory.elementType_toString h), if_neg h]

/-- **An element-rule whose texts can be read**: plain ones, and values that do without
quotes. -/
structure ElementLegible (er : ElementRule) : Prop where
  name : Plain er.name
  parameterName : Plain er.parameterName
  matchValue : Plain er.matchValue.raw ∧ Value.Unquoted .matchValue er.matchValue
  newValue : Plain er.newValue.raw ∧ Value.Unquoted .newValue er.newValue

/-- **A header-rule whose texts can be read.** -/
structure HeaderLegible (hr : HeaderRule) : Prop where
  name : Plain hr.name
  headerName : Plain hr.headerName
  methods : Plain (AstFactory.joinMethods hr.methods)
  matchValue : Plain hr.matchValue.raw ∧ Value.Unquoted .matchValue hr.matchValue
  newValue : Plain hr.newValue.raw ∧ Value.Unquoted .newValue hr.newValue
  elementRules : ∀ er ∈ hr.elementRules, ElementLegible er

/-- **A ruleset whose texts can be read.** -/
structure Legible (rs : SourceRuleset) : Prop where
  name : Plain rs.name
  description : Plain rs.description
  headerRules : ∀ hr ∈ rs.headerRules, HeaderLegible hr

/-- What is legible is plain, keywords included. -/
theorem ElementLegible.texts {er : ElementRule} (h : ElementLegible er) :
    Texts (elementAttrs er) := by
  simp only [Texts, elementAttrs, List.forall_mem_cons]
  exact ⟨h.name, h.parameterName, plain_of_isWord (bareword_elementType _).1,
    plain_of_isWord (barewords_elementActions _ (AstFactory.mem_elementActions _)).1,
    plain_of_isWord (barewords_matchValTypes _ (AstFactory.mem_matchValTypes _)).1,
    plain_of_isWord (barewords_comparisons _ (AstFactory.mem_comparisons _)).1,
    h.matchValue.1, h.newValue.1, fun _ h => (nomatch h)⟩

/-- The same for a header-rule. -/
theorem HeaderLegible.texts {hr : HeaderRule} (h : HeaderLegible hr) : HeaderTexts hr := by
  refine ⟨?_, fun er her => (h.elementRules er her).texts⟩
  simp only [Texts, headerAttrs, List.forall_mem_cons]
  exact ⟨h.name, h.headerName,
    plain_of_isWord (barewords_headerActions _ (AstFactory.mem_headerActions _)).1,
    plain_of_isWord (barewords_comparisons _ (AstFactory.mem_comparisons _)).1,
    h.matchValue.1, plain_of_isWord (barewords_msgTypes _ (AstFactory.mem_msgTypes _)).1,
    h.newValue.1, h.methods, fun _ h => (nomatch h)⟩

/-- The same for a ruleset. -/
theorem Legible.texts {rs : SourceRuleset} (h : Legible rs) : RulesetTexts rs := by
  refine ⟨?_, fun hr hhr => (h.headerRules hr hhr).texts⟩
  unfold Texts rulesetAttrs
  rw [List.forall_mem_cons]
  refine ⟨h.name, ?_⟩
  split
  · simp
  · simpa using h.description

section
variable {S : AttrValue → Prop}

/-- A value that was read is read again without its quotes, if it does without. -/
theorem parse_raw_of_built {mode : ValueMode} {v : Value}
    (h : ∃ a, S a ∧ Value.parse a.raw mode a.quoted = some v) (hv : Value.Unquoted mode v) :
    Value.parse v.raw mode false = some v := by
  obtain ⟨a, -, hparse⟩ := h
  exact (Value.parse_raw_iff hparse).mpr hv

/-- Methods that were read are upper case, and without separators. -/
theorem isMethod_of_built {hr : HeaderRule} (h : HeaderBuilt S hr) :
    ∀ m ∈ hr.methods, AstFactory.IsMethod m := by
  obtain ⟨a, -, hmethods⟩ := h.methods
  rw [hmethods]
  exact fun m hm => AstFactory.parseMethods_isMethod hm

/-- **An element-rule is built again from its context**, with an error when it has no
type. -/
theorem buildElementRule_context {er : ElementRule} (h : ElementLegible er)
    (hbuilt : ElementBuilt S er) (d : Diagnostics) :
    buildElementRule (elementContext er) d
      = some (er, if er.type = .none then d.error (unknownType er.type) else d) := by
  -- every key and every keyword is found; the type may leave an error, and the rest goes on from
  -- there
  obtain ⟨kname, kparam, ktype, kaction, kmvt, kcomp, kmv, knv⟩ := lookup_elementKeys
  have etype := readEnum_type er.type d
  generalize (if er.type = .none then d.error (unknownType er.type) else d) = d' at etype ⊢
  have eaction := readEnum_atoms (w := txt "element action") (o := .none) (d := d')
    (barewords_elementActions _ (AstFactory.mem_elementActions er.action)).1
    (AstFactory.elementAction_toString er.action)
  have emvt := readEnum_atoms (w := txt "match-val-type") (o := .any) (d := d')
    (barewords_matchValTypes _ (AstFactory.mem_matchValTypes er.matchValType)).1
    (AstFactory.matchValType_toString er.matchValType)
  have ecomp := readEnum_atoms (w := txt "comparison-type") (o := .caseSensitive) (d := d')
    (barewords_comparisons _ (AstFactory.mem_comparisons er.comparison)).1
    (AstFactory.comparison_toString er.comparison)
  have ematch := parse_raw_of_built hbuilt.matchValue h.matchValue.2
  have enew := parse_raw_of_built hbuilt.newValue h.newValue.2
  simp only [buildElementRule, elementContext, elementAttrs, List.map_cons, List.map_nil, context,
    List.foldlM_cons, List.foldlM_nil, applyElementAttr, kname, kparam, ktype, kaction, kmvt,
    kcomp, kmv, knv, readValue_atoms h.name, readValue_atoms h.parameterName, etype, eaction, emvt,
    ecomp, readValue_atoms h.matchValue.1, readValue_atoms h.newValue.1, ematch, enew,
    Option.map_some, Option.bind_eq_bind, Option.bind_some, pure]

/-- The element-rules of a header-rule have types. -/
def Typed (ers : List ElementRule) : Prop := ∀ er ∈ ers, er.type ≠ .none

/-- The element-rules are built one by one, and the errors are those of the types that are
missing. -/
theorem buildElementRules_context {ers : List ElementRule} (h : ∀ er ∈ ers, ElementLegible er)
    (hbuilt : ∀ er ∈ ers, ElementBuilt S er) (hr : HeaderRule) (d : Diagnostics) :
    ∃ d', (ers.map fun er => .elementRule (elementContext er)).foldlM buildHeaderRuleItem (hr, d)
        = some ({ hr with elementRules := hr.elementRules ++ ers }, d')
      ∧ (d'.errors = [] ↔ d.errors = [] ∧ Typed ers) := by
  induction ers generalizing hr d with
  | nil => exact ⟨d, by simp, by simp [Typed]⟩
  | cons er ers ih =>
    rw [List.forall_mem_cons] at h hbuilt
    obtain ⟨d', hbuild, herrors⟩ := ih h.2 hbuilt.2
      { hr with elementRules := hr.elementRules ++ [er] }
      (if er.type = .none then d.error (unknownType er.type) else d)
    refine ⟨d', ?_, ?_⟩
    · rw [List.map_cons, List.foldlM_cons, buildHeaderRuleItem,
        buildElementRule_context h.1 hbuilt.1]
      simpa using hbuild
    · rw [herrors]
      by_cases ht : er.type = .none
      · simp [ht, Typed, Diagnostics.error]
      · simp [ht, Typed]

/-- The attributes of a header-rule give it everything but its element-rules. -/
theorem headerAttrs_context {hr : HeaderRule} (h : HeaderLegible hr) (hbuilt : HeaderBuilt S hr)
    (d : Diagnostics) :
    ((headerAttrs hr).map fun q => .attr (context q)).foldlM buildHeaderRuleItem
        ({ name := (readValue []).raw }, d)
      = some ({ hr with elementRules := [] }, d) := by
  -- The printed keys are in the table of keys, each with its attribute.
  obtain ⟨kname, kheader, kaction, kcomp, kmsg, kmethods, kmv, knv⟩ := lookup_headerKeys
  have eaction := readEnum_atoms (w := txt "header action") (o := .none) (d := d)
    (barewords_headerActions _ (AstFactory.mem_headerActions hr.action)).1
    (AstFactory.headerAction_toString hr.action)
  have ecomp := readEnum_atoms (w := txt "comparison-type") (o := .caseSensitive) (d := d)
    (barewords_comparisons _ (AstFactory.mem_comparisons hr.comparison)).1
    (AstFactory.comparison_toString hr.comparison)
  have emsg := readEnum_atoms (w := txt "msg-type") (o := .any) (d := d)
    (barewords_msgTypes _ (AstFactory.mem_msgTypes hr.msgType)).1
    (AstFactory.msgType_toString hr.msgType)
  have ematch := parse_raw_of_built hbuilt.matchValue h.matchValue.2
  have enew := parse_raw_of_built hbuilt.newValue h.newValue.2
  simp only [headerAttrs, List.map_cons, List.map_nil, context, List.foldlM_cons,
    List.foldlM_nil, buildHeaderRuleItem, applyHeaderAttr, kname, kheader, kaction, kcomp, kmsg,
    kmethods, kmv, knv, readValue_atoms h.name, readValue_atoms h.headerName, eaction, ecomp,
    emsg, readValue_atoms h.methods, AstFactory.parseMethods_join (isMethod_of_built hbuilt),
    readValue_atoms h.matchValue.1, readValue_atoms h.newValue.1, ematch, enew, Option.map_some,
    Option.bind_eq_bind, Option.bind_some, pure]

/-- **A header-rule is built again from its context**, with an error for each
element-rule that has no type. -/
theorem buildHeaderRule_context {hr : HeaderRule} (h : HeaderLegible hr)
    (hbuilt : HeaderBuilt S hr) (d : Diagnostics) :
    ∃ d', buildHeaderRule (headerContext hr) d = some (hr, d')
      ∧ (d'.errors = [] ↔ d.errors = [] ∧ Typed hr.elementRules) := by
  obtain ⟨d', hbuild, herrors⟩ :=
    buildElementRules_context h.elementRules hbuilt.elementRules { hr with elementRules := [] } d
  refine ⟨d', ?_, herrors⟩
  rw [buildHeaderRule, headerContext, List.foldlM_append, headerAttrs_context h hbuilt]
  exact hbuild

/-- The header-rules are built one by one. -/
theorem buildHeaderRules_context {hrs : List HeaderRule} (h : ∀ hr ∈ hrs, HeaderLegible hr)
    (hbuilt : ∀ hr ∈ hrs, HeaderBuilt S hr) (rs : SourceRuleset)
    (d : Diagnostics) :
    ∃ d', (hrs.map fun hr => .headerRule (headerContext hr)).foldlM buildManipItem (rs, d)
        = some ({ rs with headerRules := rs.headerRules ++ hrs }, d')
      ∧ (d'.errors = [] ↔ d.errors = [] ∧ ∀ hr ∈ hrs, Typed hr.elementRules) := by
  induction hrs generalizing rs d with
  | nil => exact ⟨d, by simp, by simp⟩
  | cons hr hrs ih =>
    rw [List.forall_mem_cons] at h hbuilt
    obtain ⟨d₁, hrule, hfirst⟩ := buildHeaderRule_context h.1 hbuilt.1 d
    obtain ⟨d', hbuild, herrors⟩ := ih h.2 hbuilt.2
      { rs with headerRules := rs.headerRules ++ [hr] } d₁
    refine ⟨d', ?_, ?_⟩
    · rw [List.map_cons, List.foldlM_cons, buildManipItem, hrule]
      simpa using hbuild
    · rw [herrors, hfirst, List.forall_mem_cons, and_assoc]

/-- A ruleset without its legacy attributes. -/
def withoutLegacy (rs : SourceRuleset) : SourceRuleset :=
  { toRuleset := rs.toRuleset, description := rs.description }

/-- The attributes of a manipulation give it everything but its header-rules. -/
theorem rulesetAttrs_context {rs : SourceRuleset} (h : Legible rs) (d : Diagnostics) :
    ((rulesetAttrs rs).map fun q => .attr (context q)).foldlM buildManipItem
        ({ name := (readValue []).raw }, d)
      = some ({ withoutLegacy rs with headerRules := [] }, d) := by
  obtain ⟨kname, kdescription⟩ := lookup_rulesetKeys
  unfold rulesetAttrs
  split
  · rename_i hempty
    simp only [List.map_cons, List.map_nil, context, List.foldlM_cons, List.foldlM_nil,
      buildManipItem, applyRulesetAttr, kname, readValue_atoms h.name, withoutLegacy,
      List.isEmpty_iff.mp hempty, Option.bind_eq_bind, Option.bind_some, pure]
  · simp only [List.map_cons, List.map_nil, context, List.foldlM_cons, List.foldlM_nil,
      buildManipItem, applyRulesetAttr, kname, kdescription, readValue_atoms h.name,
      readValue_atoms h.description, withoutLegacy, Option.bind_eq_bind, Option.bind_some, pure]

/-- **A ruleset is built again from its context.** -/
theorem buildRuleset_context {rs : SourceRuleset} (h : Legible rs)
    (hbuilt : RulesetBuilt S rs) :
    ∃ d, buildRuleset (rulesetContext rs) {} = some (withoutLegacy rs, d)
      ∧ (d.errors = [] ↔ ∀ hr ∈ rs.headerRules, Typed hr.elementRules) := by
  obtain ⟨d, hbuild, herrors⟩ := buildHeaderRules_context h.headerRules hbuilt.headerRules
    { withoutLegacy rs with headerRules := [] } {}
  refine ⟨d, ?_, by simpa using herrors⟩
  rw [buildRuleset, rulesetContext, List.foldlM_append, rulesetAttrs_context h]
  exact hbuild

/-- A text made of pieces ends as its last piece does, and if there is none, as what stands in
front. -/
theorem getLast?_append_flatMap {α : Type} {f : α → Bytes} {pre : Bytes} {l : List α}
    (hpre : pre.getLast? = some lf) (hf : ∀ a ∈ l, (f a).getLast? = some lf) :
    (pre ++ l.flatMap f).getLast? = some lf := by
  induction l generalizing pre with
  | nil => simpa using hpre
  | cons a l ih =>
    rw [List.forall_mem_cons] at hf
    rw [List.flatMap_cons, ← List.append_assoc]
    refine ih ?_ hf.2
    rw [List.getLast?_append, hf.1]
    rfl

/-- An attribute ends with a line end. -/
@[simp] theorem getLast?_attr (depth : Nat) (key v : Bytes) :
    (attr depth key v).getLast? = some lf := by
  rw [attr, List.getLast?_append]
  rfl

/-- **What is printed ends with a line end**, so the parser adds none. -/
theorem getLast?_toHmrText (rs : SourceRuleset) : (toHmrText rs).getLast? = some lf := by
  refine getLast?_append_flatMap ?_ fun hr _ => getLast?_append_flatMap ?_ fun er _ => ?_
  · unfold enterRuleset
    split
    · rw [List.append_nil, List.getLast?_append, getLast?_attr]
      rfl
    · rw [List.getLast?_append, getLast?_attr]
      rfl
  · rw [enterHeaderRule, List.getLast?_append, getLast?_attr]
    rfl
  · rw [visitElementRule, List.getLast?_append, getLast?_attr]
    rfl

/-- **A printed ruleset parses exactly when its element-rules have types**, provided
that its texts can be read. -/
theorem parse_toHmrText {rs : SourceRuleset} (recover : Recovery) (h : Legible rs)
    (hbuilt : RulesetBuilt S rs) :
    ∃ d : Diagnostics, parse recover (toHmrText rs)
        = (if d.errors = [] then .ruleset (withoutLegacy rs) d.warnings else .errors d.errors)
      ∧ (d.errors = [] ↔ ∀ hr ∈ rs.headerRules, Typed hr.elementRules) := by
  obtain ⟨d, hbuild, herrors⟩ := buildRuleset_context h hbuilt
  refine ⟨d, ?_, herrors⟩
  have hunit : (Lexer.tokens (ended (toHmrText rs))).bind unit = some [rulesetContext rs] := by
    rw [ended, if_pos (getLast?_toHmrText rs), tokens_of_reads (reads_toHmrText h.texts),
      Option.bind_some, unit_tokensOf]
  rw [parse_of_unit hunit, visit]
  simp only [hbuild, List.map_nil, List.append_nil]

end

end Printer

end Hmr
