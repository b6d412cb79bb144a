import Hmr.Lowering

/-!
# Keywords

The spellings of the enumerations, both ways. From the source text a spelling is looked up
without regard to case (`AstFactory.lookup`), in one table an enumeration, and what is in
no table is an error of the parser. To the printed text every constructor has its own
spelling (`HeaderAction.toString` and the like).

The two fit together: every table finds each of its keywords (`AstFactory.Finds`), and
every constructor is written in a spelling that is in the table as it, so what is written
is looked up as what it was. There is one exception, and it is one of the source: an
element type that was never given is written `none`, which is a keyword of the two action
tables but not of the table of types, and is looked up as nothing
(`AstFactory.elementType_none`). Two keywords are written by nobody: `an` is what the
reference shows of a truncated `any`, and is taken for it.

The methods of a header rule are written between commas and read between commas and
blanks, in upper case. What has been read is written and read back as it is
(`AstFactory.parseMethods_join`), for it has no separator in it and its letters are raised
already.
-/

namespace Hmr

namespace AstFactory

/-- `lower`, which is about ASCII letters alone. -/
def lower (s : Bytes) : Bytes := s.map asciiToLower

/-! ## From a keyword -/

/-- `lookup`: the first entry for the spelling in lower case. -/
def lookup {α : Type} (table : List (Bytes × α)) (s : Bytes) : Option α := table.lookup (lower s)

/-- The keywords of a header action. Those that the runtime does not act on are keywords, too. -/
def headerActions : List (Bytes × HeaderAction) :=
  [(txt "none", .none), (txt "add", .add), (txt "store", .store),
   (txt "manipulate", .manipulate), (txt "replace", .replace),
   (txt "find-replace-all", .findReplaceAll), (txt "delete", .delete),
   (txt "delete-element", .deleteElement), (txt "delete-header", .deleteHeader),
   (txt "sip-manip", .sipManip), (txt "log", .log), (txt "reject", .reject)]

/-- The keywords of an element action. -/
def elementActions : List (Bytes × ElementAction) :=
  [(txt "none", .none), (txt "add", .add), (txt "store", .store), (txt "replace", .replace),
   (txt "delete-element", .deleteElement), (txt "delete-header", .deleteHeader),
   (txt "find-replace-all", .findReplaceAll), (txt "sip-manip", .sipManip),
   (txt "log", .log), (txt "reject", .reject)]

/-- The keywords of an element type. There is none for the type that is not given. -/
def elementTypes : List (Bytes × ElementType) :=
  [(txt "header-value", .headerValue), (txt "header-param-name", .headerParamName),
   (txt "header-param", .headerParam), (txt "uri-display", .uriDisplay),
   (txt "uri-user", .uriUser), (txt "uri-user-param", .uriUserParam),
   (txt "uri-host", .uriHost), (txt "uri-port", .uriPort),
   (txt "uri-param-name", .uriParamName), (txt "uri-param", .uriParam),
   (txt "uri-header-name", .uriHeaderName), (txt "uri-header", .uriHeader),
   (txt "status-code", .statusCode), (txt "reason-phrase", .reasonPhrase),
   (txt "uri-user-only", .uriUserOnly),
   (txt "uri-phone-number-only", .uriPhoneNumberOnly)]

/-- The keywords of a comparison type. -/
def comparisons : List (Bytes × ComparisonType) :=
  [(txt "case-sensitive", .caseSensitive), (txt "case-insensitive", .caseInsensitive),
   (txt "pattern-rule", .patternRule), (txt "boolean", .boolean),
   (txt "refer-case-sensitive", .referCaseSensitive),
   (txt "refer-case-insensitive", .referCaseInsensitive)]

/-- The keywords of a match-val-type, with a truncated one. -/
def matchValTypes : List (Bytes × MatchValType) :=
  [(txt "any", .any), (txt "an", .any), (txt "ip", .ip), (txt "fqdn", .fqdn)]

/-- The keywords of a message type. -/
def msgTypes : List (Bytes × MsgType) :=
  [(txt "any", .any), (txt "request", .request), (txt "reply", .reply),
   (txt "out-of-dialog", .outOfDialog)]

/-- `header_action`. -/
def headerAction : Bytes → Option HeaderAction := lookup headerActions

/-- `element_action`. -/
def elementAction : Bytes → Option ElementAction := lookup elementActions

/-- `element_type`. -/
def elementType : Bytes → Option ElementType := lookup elementTypes

/-- `comparison`. -/
def comparison : Bytes → Option ComparisonType := lookup comparisons

/-- `match_val_type`. -/
def matchValType : Bytes → Option MatchValType := lookup matchValTypes

/-- `msg_type`. -/
def msgType : Bytes → Option MsgType := lookup msgTypes

end AstFactory

/-! ## To a keyword -/

/-- `AstFactory::to_string` of a header action. -/
def HeaderAction.toString : HeaderAction → Bytes
  | .none => txt "none"
  | .add => txt "add"
  | .store => txt "store"
  | .manipulate => txt "manipulate"
  | .replace => txt "replace"
  | .findReplaceAll => txt "find-replace-all"
  | .delete => txt "delete"
  | .deleteElement => txt "delete-element"
  | .deleteHeader => txt "delete-header"
  | .sipManip => txt "sip-manip"
  | .log => txt "log"
  | .reject => txt "reject"

/-- `AstFactory::to_string` of an element action. -/
def ElementAction.toString : ElementAction → Bytes
  | .none => txt "none"
  | .add => txt "add"
  | .store => txt "store"
  | .replace => txt "replace"
  | .deleteElement => txt "delete-element"
  | .deleteHeader => txt "delete-header"
  | .findReplaceAll => txt "find-replace-all"
  | .sipManip => txt "sip-manip"
  | .log => txt "log"
  | .reject => txt "reject"

/-- `AstFactory::to_string` of an element type. -/
def ElementType.toString : ElementType → Bytes
  | .none => txt "none"
  | .headerValue => txt "header-value"
  | .headerParamName => txt "header-param-name"
  | .headerParam => txt "header-param"
  | .uriDisplay => txt "uri-display"
  | .uriUser => txt "uri-user"
  | .uriUserParam => txt "uri-user-param"
  | .uriHost => txt "uri-host"
  | .uriPort => txt "uri-port"
  | .uriParamName => txt "uri-param-name"
  | .uriParam => txt "uri-param"
  | .uriHeaderName => txt "uri-header-name"
  | .uriHeader => txt "uri-header"
  | .statusCode => txt "status-code"
  | .reasonPhrase => txt "reason-phrase"
  | .uriUserOnly => txt "uri-user-only"
  | .uriPhoneNumberOnly => txt "uri-phone-number-only"

/-- `AstFactory::to_string` of a comparison type. -/
def ComparisonType.toString : ComparisonType → Bytes
  | .caseSensitive => txt "case-sensitive"
  | .caseInsensitive => txt "case-insensitive"
  | .patternRule => txt "pattern-rule"
  | .boolean => txt "boolean"
  | .referCaseSensitive => txt "refer-case-sensitive"
  | .referCaseInsensitive => txt "refer-case-insensitive"

/-- `AstFactory::to_string` of a match-val-type. -/
def MatchValType.toString : MatchValType → Bytes
  | .any => txt "any"
  | .ip => txt "ip"
  | .fqdn => txt "fqdn"

/-- `AstFactory::to_string` of a message type. -/
def MsgType.toString : MsgType → Bytes
  | .any => txt "any"
  | .request => txt "request"
  | .reply => txt "reply"
  | .outOfDialog => txt "out-of-dialog"

namespace AstFactory

/-- Every keyword of a table is found, as what it is entered for: no keyword stands in a table
twice, and all are in lower case. -/
def Finds {α : Type} (table : List (Bytes × α)) : Prop :=
  ∀ q ∈ table, lookup table q.1 = some q.2

/-- The table of the header actions is such a table, and so are those of -/
theorem finds_headerActions : Finds headerActions := by
  unfold Finds
  decide

/-- the element actions, -/
theorem finds_elementActions : Finds elementActions := by
  unfold Finds
  decide

/-- the element types, -/
theorem finds_elementTypes : Finds elementTypes := by
  unfold Finds
  decide

/-- the comparison types, -/
theorem finds_comparisons : Finds comparisons := by
  unfold Finds
  decide

/-- the match-val-types and -/
theorem finds_matchValTypes : Finds matchValTypes := by
  unfold Finds
  decide

/-- the message types. -/
theorem finds_msgTypes : Finds msgTypes := by
  unfold Finds
  decide

/-- Every header action is entered under the spelling it is written in, and so is -/
theorem mem_headerActions (a : HeaderAction) : (a.toString, a) ∈ headerActions := by
  cases a <;> simp [headerActions, HeaderAction.toString]

/-- every element action, -/
theorem mem_elementActions (a : ElementAction) : (a.toString, a) ∈ elementActions := by
  cases a <;> simp [elementActions, ElementAction.toString]

/-- every element type but the one that was never given, -/
theorem mem_elementTypes {t : ElementType} (h : t ≠ .none) : (t.toString, t) ∈ elementTypes := by
  cases t <;> first | exact absurd rfl h | simp [elementTypes, ElementType.toString]

/-- every comparison type, -/
theorem mem_comparisons (c : ComparisonType) : (c.toString, c) ∈ comparisons := by
  cases c <;> simp [comparisons, ComparisonType.toString]

/-- every match-val-type and -/
theorem mem_matchValTypes (m : MatchValType) : (m.toString, m) ∈ matchValTypes := by
  cases m <;> simp [matchValTypes, MatchValType.toString]

/-- every message type. -/
theorem mem_msgTypes (m : MsgType) : (m.toString, m) ∈ msgTypes := by
  cases m <;> simp [msgTypes, MsgType.toString]

/-- **What is written is looked up as what it was**: a header action, -/
@[simp] theorem headerAction_toString (a : HeaderAction) : headerAction a.toString = some a :=
  finds_headerActions _ (mem_headerActions a)

/-- an element action, -/
@[simp] theorem elementAction_toString (a : ElementAction) : elementAction a.toString = some a :=
  finds_elementActions _ (mem_elementActions a)

/-- **A type that is given** is looked up as it is written. -/
theorem elementType_toString {t : ElementType} (h : t ≠ .none) :
    elementType t.toString = some t :=
  finds_elementTypes _ (mem_elementTypes h)

/-- **A type that is not given** is not. -/
theorem elementType_none : elementType ElementType.none.toString = none := by decide

/-- A comparison type is looked up as it is written, too, -/
@[simp] theorem comparison_toString (c : ComparisonType) : comparison c.toString = some c :=
  finds_comparisons _ (mem_comparisons c)

/-- and a match-val-type, -/
@[simp] theorem matchValType_toString (m : MatchValType) : matchValType m.toString = some m :=
  finds_matchValTypes _ (mem_matchValTypes m)

/-- and a message type. -/
@[simp] theorem msgType_toString (m : MsgType) : msgType m.toString = some m :=
  finds_msgTypes _ (mem_msgTypes m)

/-! ## Methods -/

/-- What separates methods: a comma, a blank or a tab. -/
def isSeparator (c : UInt8) : Bool := c == 44 || c == 32 || c == 9

/-- **`parse_methods`**: what stands between separators, in upper case. -/
def parseMethods (s : Bytes) : List Bytes :=
  ((s.splitOnP isSeparator).filter (!·.isEmpty)).map (·.map Lowering.toUpper)

/-- `join_methods`: no blank behind the comma. -/
def joinMethods (ms : List Bytes) : Bytes := [44].intercalate ms

/-- What `parse_methods` makes of a method. -/
def IsMethod (m : Bytes) : Prop :=
  m ≠ [] ∧ ∀ c ∈ m, isSeparator c = false ∧ Lowering.toUpper c = c

/-- A letter that is raised stays as it is, -/
@[simp] theorem toUpper_toUpper (c : UInt8) :
    Lowering.toUpper (Lowering.toUpper c) = Lowering.toUpper c := by
  unfold Lowering.toUpper
  grind

/-- and a separator is no letter, -/
@[simp] theorem isSeparator_toUpper (c : UInt8) :
    isSeparator (Lowering.toUpper c) = isSeparator c := by
  unfold Lowering.toUpper isSeparator
  grind

/-- so what `parse_methods` makes is what it would make again. -/
theorem parseMethods_isMethod {s m : Bytes} (h : m ∈ parseMethods s) : IsMethod m := by
  obtain ⟨piece, hpiece, rfl⟩ := List.mem_map.mp h
  obtain ⟨hmem, hne⟩ := List.mem_filter.mp hpiece
  refine ⟨by simpa using hne, ?_⟩
  rintro c hc
  obtain ⟨d, hd, rfl⟩ := List.mem_map.mp hc
  exact ⟨(isSeparator_toUpper d).trans (mem_of_mem_splitOnP hmem d hd).2, toUpper_toUpper d⟩

/-- A method is in upper case. -/
theorem IsMethod.map_toUpper {m : Bytes} (h : IsMethod m) : m.map Lowering.toUpper = m := by
  rw [List.map_congr_left fun c hc => (h.2 c hc).2, List.map_id']

/-- **Methods are read back as they are written.** -/
theorem parseMethods_join {ms : List Bytes} (h : ∀ m ∈ ms, IsMethod m) :
    parseMethods (joinMethods ms) = ms := by
  unfold joinMethods
  induction ms with
  | nil => rfl
  | cons m ms ih =>
    rw [List.forall_mem_cons] at h
    obtain ⟨hm, hms⟩ := h
    have hplain : ∀ c ∈ m, isSeparator c = false := fun c hc => (hm.2 c hc).1
    cases ms with
    | nil =>
      rw [List.intercalate_singleton, parseMethods, List.splitOnP_eq_singleton hplain]
      simp [hm.1, hm.map_toUpper]
    | cons m' ms =>
      have hrest := ih hms
      rw [parseMethods] at hrest
      rw [List.intercalate_cons_cons, List.append_assoc, parseMethods, List.singleton_append,
        List.splitOnP_append_cons_of_forall_mem hplain 44 rfl]
      simp [hm.1, hm.map_toUpper, hrest]

end AstFactory

end Hmr
