import Hmr.Indices
import Hmr.AstFactory
import Hmr.Lexer

/-!
# The parser

A ruleset is written in lines: a block keyword with an optional value, or an
attribute. Blocks are told by their keywords and not by indentation. An attribute
belongs to the closest block opened above it, an element-rule to the closest
header-rule or mime-rule, and everything to the manipulation.

`Parser::parse` has two halves. The first is the grammar's: the lexer and the parser
that are generated from it make a tree of the text. Here the text's lines are gathered
into blocks from the last line upwards (`Parser.blocks`), so that a block finds what
belongs to it already open below it. The grammar's tool also makes a tree of a text that
is not in the grammar's language, after it has reported what it could not read. That
tree is the tool's own affair, and `Parser.Recovery` stands for it: any tree at all, and
at least one message.

The second half is the visitor's, and it is the same for both kinds of tree
(`Parser.visit`). The ruleset is built from the first manipulation, item by item, with
errors for keywords that are no member of their enumeration and warnings for attributes
that are unknown. An attribute given twice keeps the later value. An error that was
reported stays (`Parser.errors_buildRuleset`), so a text with an error of syntax has no
ruleset (`Parser.unit_of_parse`); but its tree is walked, and a value in it that cannot
be parsed raises as it does in any other (`Parser.parse_eq_raised_iff`).

Where lines come from is left out.
-/

namespace Hmr

/-- **A ruleset as it is written**, with the attributes that nothing reads when it
is applied. -/
structure SourceRuleset extends Ruleset where
  description : Bytes := []
  splitHeaders : List Bytes := []
  joinHeaders : List Bytes := []
  importFile : Bytes := []
  exportFile : Bytes := []
  deriving DecidableEq, Repr

/-- What a parse has to say besides its result. -/
structure Diagnostics where
  errors : List Bytes := []
  warnings : List Bytes := []
  deriving DecidableEq, Repr

namespace Diagnostics

/-- One more error. -/
def error (d : Diagnostics) (message : Bytes) : Diagnostics :=
  { d with errors := d.errors ++ [message] }

/-- One more warning. -/
def warning (d : Diagnostics) (message : Bytes) : Diagnostics :=
  { d with warnings := d.warnings ++ [message] }

end Diagnostics

namespace Parser

/-! ## Blocks -/

/-- A `key value?` line. -/
structure AttributeContext where
  key : Bytes
  value : List Token
  deriving DecidableEq, Repr

/-- An element-rule. -/
structure ElementRuleContext where
  value : List Token
  attributes : List AttributeContext
  deriving DecidableEq, Repr

/-- An item of a header-rule. Blank lines are left out. -/
inductive HeaderRuleItem
  | elementRule (ctx : ElementRuleContext)
  | attr (attr : AttributeContext)
  deriving DecidableEq, Repr

/-- A header-rule. -/
structure HeaderRuleContext where
  value : List Token
  items : List HeaderRuleItem
  deriving DecidableEq, Repr

/-- An item of a manipulation. Of a mime-rule the keyword it starts with is all that
is used. -/
inductive ManipItem
  | headerRule (ctx : HeaderRuleContext)
  | mimeRule (start : Bytes)
  | attr (attr : AttributeContext)
  deriving DecidableEq, Repr

/-- A manipulation. -/
structure ManipulationContext where
  value : List Token
  items : List ManipItem
  deriving DecidableEq, Repr

/-- What a block keyword introduces. -/
inductive BlockKeyword
  | sipManipulation | headerRule | elementRule | mimeRule
  deriving DecidableEq, Repr

/-- The block keywords. -/
def blockKeyword (word : Bytes) : Option BlockKeyword :=
  [(txt "sip-manipulation", .sipManipulation),
   (txt "header-rule", .headerRule), (txt "header-rules", .headerRule),
   (txt "element-rule", .elementRule), (txt "element-rules", .elementRule),
   (txt "mime-rule", .mimeRule), (txt "mime-rules", .mimeRule),
   (txt "mime-isup-rule", .mimeRule), (txt "mime-isup-rules", .mimeRule),
   (txt "mime-sdp-rule", .mimeRule), (txt "mime-sdp-rules", .mimeRule)].lookup word

/-- **The blocks of the lines below some point**: whole manipulations, and what is
still to be attached to the blocks opened above. -/
structure Blocks where
  attributes : List AttributeContext := []
  elementRules : List ElementRuleContext := []
  rules : List ManipItem := []
  manipulations : List ManipulationContext := []
  deriving DecidableEq, Repr

namespace Blocks

/-- The line above: an attribute, or a block that takes what is open below it, its own
attributes first, for an attribute that stands behind an inner block is the inner block's.
An element-rule has its place in a header-rule or mime-rule, and nowhere else. -/
def above (b : Blocks) (key : Bytes) (value : List Token) : Option Blocks :=
  match blockKeyword key with
  | none => some { b with attributes := ⟨key, value⟩ :: b.attributes }
  | some .elementRule =>
    some { b with attributes := [], elementRules := ⟨value, b.attributes⟩ :: b.elementRules }
  | some .headerRule =>
    some { b with
      attributes := [], elementRules := []
      rules := .headerRule
        ⟨value, b.attributes.map .attr ++ b.elementRules.map .elementRule⟩ :: b.rules }
  | some .mimeRule =>
    some { b with attributes := [], elementRules := [], rules := .mimeRule key :: b.rules }
  | some .sipManipulation =>
    if b.elementRules = [] then
      some { manipulations := ⟨value, b.attributes.map .attr ++ b.rules⟩ :: b.manipulations }
    else none

end Blocks

/-- The lines of a text: the last one has a line end as well. -/
def lines : List Token → List Token → Option (List (List Token))
  | line, [] => if line = [] then some [] else none
  | line, .newline :: rest => (lines [] rest).map (line :: ·)
  | line, t :: rest => lines (line ++ [t]) rest

/-- The blocks of some lines. A line may be blank, and does not start with a
string. -/
def blocks : List (List Token) → Option Blocks
  | [] => some {}
  | [] :: rest => blocks rest
  | (.word key :: value) :: rest => (blocks rest).bind fun b => b.above key value
  | _ :: _ => none

/-- **`unit`**: the manipulations of a text. Nothing stands above the first. -/
def unit (ts : List Token) : Option (List ManipulationContext) :=
  (lines [] ts).bind fun ls => (blocks ls).bind fun b =>
    if b.attributes = [] ∧ b.elementRules = [] ∧ b.rules = [] then some b.manipulations else none

/-! ## Values -/

/-- `unescape_string`, of what stands between the quotes. -/
def unescapeString : Bytes → Bytes
  | [] => []
  | [c] => [c]
  | c :: e :: rest =>
    if c = 92 then
      (if e = 110 then lf else if e = 116 then tab else if e = 114 then cr else e)
        :: unescapeString rest
    else c :: unescapeString (e :: rest)

/-- The text of an atom. -/
def atomText : Token → Bytes
  | .word t => t
  | .string b => unescapeString b
  | .newline => []

/-- `AttrValue`. -/
structure AttrValue where
  raw : Bytes
  quoted : Bool
  count : Nat
  deriving DecidableEq, Repr

/-- **`read_value`**: the atoms joined by single blanks. -/
def readValue (atoms : List Token) : AttrValue where
  raw := atoms.foldl (fun raw a => (if raw.isEmpty then raw else raw ++ [sp]) ++ atomText a) []
  quoted := match atoms with
    | [.string _] => true
    | _ => false
  count := atoms.length

/-! ## Attributes -/

/-- The `if (val.count)` of an enumeration: no value leaves it, and an unknown one is
an error. -/
def readEnum {α : Type} (what : Bytes) (lookup : Bytes → Option α) (val : AttrValue) (old : α)
    (d : Diagnostics) : α × Diagnostics :=
  if val.count = 0 then (old, d)
  else match lookup val.raw with
    | some a => (a, d)
    | none => (old, d.error (txt "unknown " ++ what ++ txt " '" ++ val.raw ++ txt "'"))

/-- The warning about an attribute that is unknown. -/
def ignoring (what key : Bytes) : Bytes :=
  txt "ignoring unknown " ++ what ++ txt " attribute '" ++ key ++ txt "'"

/-- The attributes of an element-rule. -/
inductive ElementKey
  | name | parameterName | type | action | matchValType | comparisonType | matchValue | newValue
  deriving DecidableEq, Repr

/-- The attributes of a header-rule. -/
inductive HeaderKey
  | name | headerName | action | comparisonType | msgType | methods | matchValue | newValue
  deriving DecidableEq, Repr

/-- The attributes of a manipulation. -/
inductive RulesetKey
  | name | description | importFile | exportFile | splitHeaders | joinHeaders
  deriving DecidableEq, Repr

/-- The keys `apply_element_attr` compares with. -/
def elementKeys : List (Bytes × ElementKey) :=
  [(txt "name", .name), (txt "parameter-name", .parameterName), (txt "type", .type),
   (txt "action", .action), (txt "match-val-type", .matchValType),
   (txt "comparison-type", .comparisonType), (txt "match-value", .matchValue),
   (txt "new-value", .newValue)]

/-- The keys `apply_header_attr` compares with. -/
def headerKeys : List (Bytes × HeaderKey) :=
  [(txt "name", .name), (txt "header-name", .headerName), (txt "action", .action),
   (txt "comparison-type", .comparisonType), (txt "msg-type", .msgType),
   (txt "methods", .methods), (txt "match-value", .matchValue), (txt "new-value", .newValue)]

/-- The keys `apply_ruleset_attr` compares with. -/
def rulesetKeys : List (Bytes × RulesetKey) :=
  [(txt "name", .name), (txt "description", .description), (txt "import", .importFile),
   (txt "export", .exportFile), (txt "split-headers", .splitHeaders),
   (txt "join-headers", .joinHeaders)]

/-- **`apply_element_attr`**; or nothing, where `Value::parse` throws. -/
def applyElementAttr (q : ElementRule × Diagnostics) (attr : AttributeContext) :
    Option (ElementRule × Diagnostics) :=
  let (er, d) := q
  let val := readValue attr.value
  match AstFactory.lookup elementKeys attr.key with
  | some .name => some ({ er with name := val.raw }, d)
  | some .parameterName => some ({ er with parameterName := val.raw }, d)
  | some .type =>
    let (t, d) := readEnum (txt "element type") AstFactory.elementType val er.type d
    some ({ er with type := t }, d)
  | some .action =>
    let (a, d) := readEnum (txt "element action") AstFactory.elementAction val er.action d
    some ({ er with action := a }, d)
  | some .matchValType =>
    let (m, d) := readEnum (txt "match-val-type") AstFactory.matchValType val er.matchValType d
    some ({ er with matchValType := m }, d)
  | some .comparisonType =>
    let (c, d) := readEnum (txt "comparison-type") AstFactory.comparison val er.comparison d
    some ({ er with comparison := c }, d)
  | some .matchValue =>
    (Value.parse val.raw .matchValue val.quoted).map fun v => ({ er with matchValue := v }, d)
  | some .newValue =>
    (Value.parse val.raw .newValue val.quoted).map fun v => ({ er with newValue := v }, d)
  | none => some (er, d.warning (ignoring (txt "element-rule") (AstFactory.lower attr.key)))

/-- **`apply_header_attr`.** -/
def applyHeaderAttr (q : HeaderRule × Diagnostics) (attr : AttributeContext) :
    Option (HeaderRule × Diagnostics) :=
  let (hr, d) := q
  let val := readValue attr.value
  match AstFactory.lookup headerKeys attr.key with
  | some .name => some ({ hr with name := val.raw }, d)
  | some .headerName => some ({ hr with headerName := val.raw }, d)
  | some .action =>
    let (a, d) := readEnum (txt "header action") AstFactory.headerAction val hr.action d
    some ({ hr with action := a }, d)
  | some .comparisonType =>
    let (c, d) := readEnum (txt "comparison-type") AstFactory.comparison val hr.comparison d
    some ({ hr with comparison := c }, d)
  | some .msgType =>
    let (m, d) := readEnum (txt "msg-type") AstFactory.msgType val hr.msgType d
    some ({ hr with msgType := m }, d)
  | some .methods => some ({ hr with methods := AstFactory.parseMethods val.raw }, d)
  | some .matchValue =>
    (Value.parse val.raw .matchValue val.quoted).map fun v => ({ hr with matchValue := v }, d)
  | some .newValue =>
    (Value.parse val.raw .newValue val.quoted).map fun v => ({ hr with newValue := v }, d)
  | none => some (hr, d.warning (ignoring (txt "header-rule") (AstFactory.lower attr.key)))

/-- The warning about a legacy attribute. -/
def legacy (key : Bytes) : Bytes :=
  txt "'" ++ key ++ txt "' is a legacy attribute (deprecated)"

/-- **`apply_ruleset_attr`.** -/
def applyRulesetAttr (q : SourceRuleset × Diagnostics) (attr : AttributeContext) :
    SourceRuleset × Diagnostics :=
  let (rs, d) := q
  let val := readValue attr.value
  match AstFactory.lookup rulesetKeys attr.key with
  | some .name => ({ rs with name := val.raw }, d)
  | some .description => ({ rs with description := val.raw }, d)
  | some .importFile => ({ rs with importFile := val.raw }, d)
  | some .exportFile => ({ rs with exportFile := val.raw }, d)
  | some .splitHeaders =>
    ({ rs with splitHeaders := AstFactory.parseMethods val.raw },
      d.warning (legacy (txt "split-headers")))
  | some .joinHeaders =>
    ({ rs with joinHeaders := AstFactory.parseMethods val.raw },
      d.warning (legacy (txt "join-headers")))
  | none =>
    (rs, d.warning (ignoring (txt "sip-manipulation") (AstFactory.lower attr.key)))

/-! ## Rules -/

/-- `build_element_rule`. -/
def buildElementRule (ctx : ElementRuleContext) (d : Diagnostics) :
    Option (ElementRule × Diagnostics) :=
  ctx.attributes.foldlM applyElementAttr ({ name := (readValue ctx.value).raw }, d)

/-- An item of a header-rule, for `build_header_rule`. -/
def buildHeaderRuleItem (q : HeaderRule × Diagnostics) :
    HeaderRuleItem → Option (HeaderRule × Diagnostics)
  | .elementRule ctx => do
    let (er, d) ← buildElementRule ctx q.2
    some ({ q.1 with elementRules := q.1.elementRules ++ [er] }, d)
  | .attr attr => applyHeaderAttr q attr

/-- `build_header_rule`. -/
def buildHeaderRule (ctx : HeaderRuleContext) (d : Diagnostics) :
    Option (HeaderRule × Diagnostics) :=
  ctx.items.foldlM buildHeaderRuleItem ({ name := (readValue ctx.value).raw }, d)

/-- An item of a manipulation, for `build_ruleset`. -/
def buildManipItem (q : SourceRuleset × Diagnostics) :
    ManipItem → Option (SourceRuleset × Diagnostics)
  | .headerRule ctx => do
    let (hr, d) ← buildHeaderRule ctx q.2
    some ({ q.1 with headerRules := q.1.headerRules ++ [hr] }, d)
  | .mimeRule start =>
    some (q.1, q.2.warning (txt "skipping unsupported block '" ++ start ++ txt "'"))
  | .attr attr => some (applyRulesetAttr q attr)

/-- **`build_ruleset`.** -/
def buildRuleset (ctx : ManipulationContext) (d : Diagnostics) :
    Option (SourceRuleset × Diagnostics) :=
  ctx.items.foldlM buildManipItem ({ name := (readValue ctx.value).raw }, d)

/-! ## The whole text -/

/-- How `Parser::parse` ends. -/
inductive Outcome
  | ruleset (rs : SourceRuleset) (warnings : List Bytes)
  | errors (messages : List Bytes)
  /-- An exception of `Value::parse` leaves the parser. -/
  | raised
  deriving DecidableEq, Repr

/-- **What comes of a text that is not in the language**: what was reported about it, and
the manipulations of the tree that was made of it all the same. -/
structure Recovered where
  messages : List Bytes
  manipulations : List ManipulationContext
  nonempty : messages ≠ []

/-- What the grammar's tool does about errors of syntax, text by text. -/
abbrev Recovery := Bytes → Recovered

/-- A tool that reports an error, and makes nothing of the text. -/
def Recovery.giveUp : Recovery := fun _ =>
  { messages := [txt "mismatched input"]
    manipulations := []
    nonempty := List.cons_ne_nil _ _ }

/-- The warning about a further manipulation. -/
def additional : Bytes :=
  txt "ignoring additional sip-manipulation block (only the first is compiled)"

/-- **What `Parser::parse` does with a tree**, behind `parser.unit()`. -/
def visit (errors : List Bytes) : List ManipulationContext → Outcome
  | [] =>
    .errors (if errors = [] then [txt "expected 'sip-manipulation' at start of ruleset"]
      else errors)
  | m :: more =>
    match buildRuleset m { errors } with
    | none => .raised
    | some (rs, d) =>
      if d.errors = [] then .ruleset rs (d.warnings ++ more.map fun _ => additional)
      else .errors d.errors

/-- The text that is read: the last line has a line end, too. -/
def ended (source : Bytes) : Bytes :=
  if source.getLast? = some lf then source else source ++ [lf]

/-- `parser.unit()`: what was reported, and the manipulations of the tree. -/
def tree (recover : Recovery) (text : Bytes) : List Bytes × List ManipulationContext :=
  match (Lexer.tokens text).bind unit with
  | some ms => ([], ms)
  | none => ((recover text).messages, (recover text).manipulations)

/-- **`Parser::parse`.** -/
def parse (recover : Recovery) (source : Bytes) : Outcome :=
  let t := tree recover (ended source)
  visit t.1 t.2

/-! ## Item by item -/

section
variable {α β : Type} {f : β → α → Option β} {l : List α} {b b' : β}

/-- **What each item preserves, a list of them preserves.** -/
theorem foldlM_invariant {P : β → Prop} (hf : ∀ a ∈ l, ∀ b b', P b → f b a = some b' → P b')
    (hb : P b) (h : l.foldlM f b = some b') : P b' := by
  induction l generalizing b with
  | nil =>
    cases h
    exact hb
  | cons a l ih =>
    rw [List.forall_mem_cons] at hf
    rw [List.foldlM_cons] at h
    obtain ⟨b₁, hb₁, hrest⟩ := Option.bind_eq_some_iff.mp h
    exact ih hf.2 (hf.1 b b₁ hb hb₁) hrest

/-- A fold fails at the items that it fails at whatever came before them. -/
theorem foldlM_eq_none_iff {Bad : α → Prop} (hf : ∀ a b, f b a = none ↔ Bad a) :
    l.foldlM f b = none ↔ ∃ a ∈ l, Bad a := by
  induction l generalizing b with
  | nil => simp
  | cons a l ih =>
    rw [List.foldlM_cons, List.exists_mem_cons_iff, ← hf a b]
    cases h : f b a with
    | none => simp
    | some b₁ => simp [ih]

end

/-! ## Errors stay -/

section
variable {d : Diagnostics}

/-- An error is reported behind the errors there are. -/
theorem errors_readEnum {α : Type} (what : Bytes) (lookup : Bytes → Option α) (val : AttrValue)
    (old : α) (d : Diagnostics) : d.errors <+: (readEnum what lookup val old d).2.errors := by
  unfold readEnum
  split
  · exact List.prefix_rfl
  · split
    · exact List.prefix_rfl
    · exact List.prefix_append _ _

/-- **What an attribute writes in an element rule**: a text, a value, or members of enumerations,
with errors that are added. An unknown one writes none. -/
inductive ElementWritten (val : AttrValue) (er : ElementRule) (d : Diagnostics) :
    ElementRule → Diagnostics → Prop
  | name : ElementWritten val er d { er with name := val.raw } d
  | parameterName : ElementWritten val er d { er with parameterName := val.raw } d
  | members (t : ElementType) (a : ElementAction) (m : MatchValType) (c : ComparisonType)
      {d' : Diagnostics} (h : d.errors <+: d'.errors) :
      ElementWritten val er d
        { er with type := t, action := a, matchValType := m, comparison := c } d'
  | matchValue (v : Value) (h : Value.parse val.raw .matchValue val.quoted = some v) :
      ElementWritten val er d { er with matchValue := v } d
  | newValue (v : Value) (h : Value.parse val.raw .newValue val.quoted = some v) :
      ElementWritten val er d { er with newValue := v } d

/-- An attribute of an element rule writes one of these. -/
theorem applyElementAttr_written {er er' : ElementRule} {d' : Diagnostics}
    {attr : AttributeContext} (h : applyElementAttr (er, d) attr = some (er', d')) :
    ElementWritten (readValue attr.value) er d er' d' := by
  unfold applyElementAttr at h
  dsimp only at h
  split at h
  · cases h
    exact .name
  · cases h
    exact .parameterName
  · cases h
    exact .members _ er.action er.matchValType er.comparison (errors_readEnum _ _ _ _ _)
  · cases h
    exact .members er.type _ er.matchValType er.comparison (errors_readEnum _ _ _ _ _)
  · cases h
    exact .members er.type er.action _ er.comparison (errors_readEnum _ _ _ _ _)
  · cases h
    exact .members er.type er.action er.matchValType _ (errors_readEnum _ _ _ _ _)
  · obtain ⟨v, hv, heq⟩ := Option.map_eq_some_iff.mp h
    cases heq
    exact .matchValue v hv
  · obtain ⟨v, hv, heq⟩ := Option.map_eq_some_iff.mp h
    cases heq
    exact .newValue v hv
  · cases h
    exact .members er.type er.action er.matchValType er.comparison List.prefix_rfl

/-- **What an attribute writes in a header rule.** -/
inductive HeaderWritten (val : AttrValue) (hr : HeaderRule) (d : Diagnostics) :
    HeaderRule → Diagnostics → Prop
  | name : HeaderWritten val hr d { hr with name := val.raw } d
  | headerName : HeaderWritten val hr d { hr with headerName := val.raw } d
  | methods : HeaderWritten val hr d { hr with methods := AstFactory.parseMethods val.raw } d
  | members (a : HeaderAction) (c : ComparisonType) (t : MsgType) {d' : Diagnostics}
      (h : d.errors <+: d'.errors) :
      HeaderWritten val hr d { hr with action := a, comparison := c, msgType := t } d'
  | matchValue (v : Value) (h : Value.parse val.raw .matchValue val.quoted = some v) :
      HeaderWritten val hr d { hr with matchValue := v } d
  | newValue (v : Value) (h : Value.parse val.raw .newValue val.quoted = some v) :
      HeaderWritten val hr d { hr with newValue := v } d

/-- An attribute of a header rule writes one of these. -/
theorem applyHeaderAttr_written {hr hr' : HeaderRule} {d' : Diagnostics}
    {attr : AttributeContext} (h : applyHeaderAttr (hr, d) attr = some (hr', d')) :
    HeaderWritten (readValue attr.value) hr d hr' d' := by
  unfold applyHeaderAttr at h
  dsimp only at h
  split at h
  · cases h
    exact .name
  · cases h
    exact .headerName
  · cases h
    exact .members _ hr.comparison hr.msgType (errors_readEnum _ _ _ _ _)
  · cases h
    exact .members hr.action _ hr.msgType (errors_readEnum _ _ _ _ _)
  · cases h
    exact .members hr.action hr.comparison _ (errors_readEnum _ _ _ _ _)
  · cases h
    exact .methods
  · obtain ⟨v, hv, heq⟩ := Option.map_eq_some_iff.mp h
    cases heq
    exact .matchValue v hv
  · obtain ⟨v, hv, heq⟩ := Option.map_eq_some_iff.mp h
    cases heq
    exact .newValue v hv
  · cases h
    exact .members hr.action hr.comparison hr.msgType List.prefix_rfl

/-- An attribute of an element rule takes no error back. -/
theorem errors_applyElementAttr {q q' : ElementRule × Diagnostics} {attr : AttributeContext}
    (h : applyElementAttr q attr = some q') : q.2.errors <+: q'.2.errors := by
  obtain ⟨er', d'⟩ := q'
  cases applyElementAttr_written h with
  | members _ _ _ _ herrors => exact herrors
  | _ => exact List.prefix_rfl

/-- Nor does one of a header rule, -/
theorem errors_applyHeaderAttr {q q' : HeaderRule × Diagnostics} {attr : AttributeContext}
    (h : applyHeaderAttr q attr = some q') : q.2.errors <+: q'.2.errors := by
  obtain ⟨hr', d'⟩ := q'
  cases applyHeaderAttr_written h with
  | members _ _ _ herrors => exact herrors
  | _ => exact List.prefix_rfl

/-- An attribute of a manipulation is never an error. -/
theorem errors_applyRulesetAttr (q : SourceRuleset × Diagnostics) (attr : AttributeContext) :
    (applyRulesetAttr q attr).2.errors = q.2.errors := by
  unfold applyRulesetAttr
  dsimp only
  split <;> rfl

/-- nor an element rule, -/
theorem errors_buildElementRule {ctx : ElementRuleContext} {q : ElementRule × Diagnostics}
    (h : buildElementRule ctx d = some q) : d.errors <+: q.2.errors :=
  foldlM_invariant (P := fun q => d.errors <+: q.2.errors)
    (fun _ _ _ _ hq happly => hq.trans (errors_applyElementAttr happly)) List.prefix_rfl h

/-- nor a header rule. -/
theorem errors_buildHeaderRule {ctx : HeaderRuleContext} {q : HeaderRule × Diagnostics}
    (h : buildHeaderRule ctx d = some q) : d.errors <+: q.2.errors := by
  refine foldlM_invariant (P := fun q => d.errors <+: q.2.errors) (fun item _ q q' hq hitem => ?_)
    List.prefix_rfl h
  cases item with
  | elementRule ctx =>
    obtain ⟨q₁, hq₁, hsome⟩ := Option.bind_eq_some_iff.mp hitem
    cases hsome
    exact hq.trans (errors_buildElementRule hq₁)
  | attr attr => exact hq.trans (errors_applyHeaderAttr hitem)

/-- **What was reported before a ruleset is built** is reported after it. -/
theorem errors_buildRuleset {ctx : ManipulationContext} {q : SourceRuleset × Diagnostics}
    (h : buildRuleset ctx d = some q) : d.errors <+: q.2.errors := by
  refine foldlM_invariant (P := fun q => d.errors <+: q.2.errors) (fun item _ q q' hq hitem => ?_)
    List.prefix_rfl h
  cases item with
  | headerRule ctx =>
    obtain ⟨q₁, hq₁, hsome⟩ := Option.bind_eq_some_iff.mp hitem
    cases hsome
    exact hq.trans (errors_buildHeaderRule hq₁)
  | mimeRule start =>
    cases hitem
    exact hq
  | attr attr =>
    cases hitem
    rwa [errors_applyRulesetAttr]

end

/-- **A text with a ruleset is in the language**, whatever becomes of other texts: its first
manipulation is what the ruleset is built from. Of a text that is not, a tree is recovered, and
something has been reported about its syntax; building does not take a report back, so the parse
has errors in the end. -/
theorem unit_of_parse {recover : Recovery} {source : Bytes} {rs : SourceRuleset}
    {warnings : List Bytes} (h : parse recover source = .ruleset rs warnings) :
    ∃ ts m more d, Lexer.tokens (ended source) = some ts ∧ unit ts = some (m :: more)
      ∧ buildRuleset m {} = some (rs, d) := by
  unfold parse tree at h
  split at h
  · rename_i ms hms
    obtain ⟨ts, hts, hunit⟩ := Option.bind_eq_some_iff.mp hms
    cases ms with
    | nil => cases h
    | cons m more =>
      dsimp only [visit] at h
      split at h
      · cases h
      · rename_i rs' d hbuild
        split at h
        · cases h
          exact ⟨ts, m, more, d, hts, hunit, hbuild⟩
        · cases h
  · -- what was reported about the syntax is an error in the end, too
    have hnonempty := (recover (ended source)).nonempty
    cases hms : (recover (ended source)).manipulations with
    | nil =>
      rw [hms] at h
      cases h
    | cons m more =>
      rw [hms] at h
      dsimp only [visit] at h
      split at h
      · cases h
      · rename_i rs' d hbuild
        split at h
        · rename_i herrors
          have hstays := errors_buildRuleset hbuild
          rw [herrors, List.prefix_nil] at hstays
          exact absurd hstays hnonempty
        · cases h

/-- How a text of the language is parsed, whatever becomes of other texts. -/
theorem parse_of_unit {recover : Recovery} {source : Bytes} {ms : List ManipulationContext}
    (h : (Lexer.tokens (ended source)).bind unit = some ms) :
    parse recover source = visit [] ms := by
  unfold parse tree
  rw [h]

/-- The same as an equation that can be computed. -/
theorem parse_of_visit {recover : Recovery} {source : Bytes} {o : Outcome}
    (h : ((Lexer.tokens (ended source)).bind unit).map (visit []) = some o) :
    parse recover source = o := by
  obtain ⟨ms, hms, rfl⟩ := Option.map_eq_some_iff.mp h
  exact parse_of_unit hms

/-! ## Where it raises -/

/-- How the value of an element-rule's attribute is parsed, if it is. -/
def elementMode (attr : AttributeContext) : Option ValueMode :=
  match AstFactory.lookup elementKeys attr.key with
  | some .matchValue => some .matchValue
  | some .newValue => some .newValue
  | _ => none

/-- How the value of a header-rule's attribute is parsed, if it is. -/
def headerMode (attr : AttributeContext) : Option ValueMode :=
  match AstFactory.lookup headerKeys attr.key with
  | some .matchValue => some .matchValue
  | some .newValue => some .newValue
  | _ => none

/-- **An attribute that raises**: its value is parsed, and `Value::parse` raises on it. -/
def AttributeContext.Raises (mode : Option ValueMode) (attr : AttributeContext) : Prop :=
  ∃ m ∈ mode, Value.parse (readValue attr.value).raw m (readValue attr.value).quoted = none

/-- An element-rule that raises. -/
def ElementRuleContext.Raises (ctx : ElementRuleContext) : Prop :=
  ∃ attr ∈ ctx.attributes, attr.Raises (elementMode attr)

/-- An item of a header-rule that raises. -/
def HeaderRuleItem.Raises : HeaderRuleItem → Prop
  | .elementRule ctx => ctx.Raises
  | .attr ctx => ctx.Raises (headerMode ctx)

/-- An item of a manipulation that raises. -/
def ManipItem.Raises : ManipItem → Prop
  | .headerRule ctx => ∃ item ∈ ctx.items, item.Raises
  | .mimeRule _ => False
  | .attr _ => False

/-- **A manipulation that raises.** -/
def ManipulationContext.Raises (ctx : ManipulationContext) : Prop :=
  ∃ item ∈ ctx.items, item.Raises

/-- An attribute of an element rule raises if its value does. -/
theorem applyElementAttr_eq_none_iff (attr : AttributeContext) (q : ElementRule × Diagnostics) :
    applyElementAttr q attr = none ↔ attr.Raises (elementMode attr) := by
  unfold applyElementAttr AttributeContext.Raises elementMode
  dsimp only
  split <;> simp [*]

/-- So does one of a header rule. -/
theorem applyHeaderAttr_eq_none_iff (attr : AttributeContext) (q : HeaderRule × Diagnostics) :
    applyHeaderAttr q attr = none ↔ attr.Raises (headerMode attr) := by
  unfold applyHeaderAttr AttributeContext.Raises headerMode
  dsimp only
  split <;> simp [*]

/-- An element rule raises if an attribute of it does, -/
theorem buildElementRule_eq_none_iff {ctx : ElementRuleContext} {d : Diagnostics} :
    buildElementRule ctx d = none ↔ ctx.Raises :=
  foldlM_eq_none_iff applyElementAttr_eq_none_iff

/-- and a header rule if one of its items does. -/
theorem buildHeaderRule_eq_none_iff {ctx : HeaderRuleContext} {d : Diagnostics} :
    buildHeaderRule ctx d = none ↔ ∃ item ∈ ctx.items, item.Raises := by
  refine foldlM_eq_none_iff fun item q => ?_
  cases item with
  | elementRule ctx =>
    rw [HeaderRuleItem.Raises, ← buildElementRule_eq_none_iff (d := q.2), buildHeaderRuleItem]
    cases buildElementRule ctx q.2 <;> simp
  | attr attr => exact applyHeaderAttr_eq_none_iff attr q

/-- **A ruleset cannot be built** exactly of a manipulation with a value that raises. -/
theorem buildRuleset_eq_none_iff {ctx : ManipulationContext} {d : Diagnostics} :
    buildRuleset ctx d = none ↔ ctx.Raises := by
  refine foldlM_eq_none_iff fun item q => ?_
  cases item with
  | headerRule ctx =>
    rw [ManipItem.Raises, ← buildHeaderRule_eq_none_iff (d := q.2), buildManipItem]
    cases buildHeaderRule ctx q.2 <;> simp
  | mimeRule start => simp [buildManipItem, ManipItem.Raises]
  | attr attr => simp [buildManipItem, ManipItem.Raises]

/-- **An exception leaves `Parser::parse`** exactly when `Value::parse` raises on a match-value
or new-value of the first manipulation of the tree. An error of syntax elsewhere does not keep
it from that. -/
theorem parse_eq_raised_iff {recover : Recovery} {source : Bytes} :
    parse recover source = .raised
      ↔ ∃ m ∈ (tree recover (ended source)).2.head?, m.Raises := by
  unfold parse
  generalize tree recover (ended source) = t
  obtain ⟨errors, ms⟩ := t
  cases ms with
  | nil => simp [visit]
  | cons m more =>
    simp only [List.head?_cons, Option.mem_some_iff, exists_eq_left']
    rw [← buildRuleset_eq_none_iff (d := { errors }), visit]
    cases buildRuleset m { errors } with
    | none => simp
    | some q =>
      dsimp only
      split <;> simp

end Parser

end Hmr
