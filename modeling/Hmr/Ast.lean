import Hmr.Value

/-!
# Rulesets

The abstract syntax of a ruleset: header rules, each with its element rules, in the order
they are applied. The enumerations have a constructor for every keyword of the language,
including the ones no back-end acts on yet – an action without effect is still an action
the passes and the walks have to treat.

Each field has the default of the source, so that a rule in which an attribute was not
given is the rule with that field left out. Names are texts, and may be empty: a rule
without a name goes by its position.

Source locations, and the attributes of a ruleset that nothing reads when it is applied,
are left out.
-/

namespace Hmr

/-- The action of a header rule. -/
inductive HeaderAction
  | none | add | store | manipulate | replace | findReplaceAll | delete
  | deleteElement | deleteHeader | sipManip | log | reject
  deriving DecidableEq, Repr

/-- The action of an element rule. -/
inductive ElementAction
  | none | add | store | replace | deleteElement | deleteHeader
  | findReplaceAll | sipManip | log | reject
  deriving DecidableEq, Repr

/-- The part of a header an element rule is about. -/
inductive ElementType
  | none | headerValue | headerParamName | headerParam | uriDisplay | uriUser
  | uriUserParam | uriHost | uriPort | uriParamName | uriParam | uriHeaderName
  | uriHeader | statusCode | reasonPhrase | uriUserOnly | uriPhoneNumberOnly
  deriving DecidableEq, Repr

/-- How a match-value is compared. -/
inductive ComparisonType
  | caseSensitive | caseInsensitive | patternRule | boolean
  | referCaseSensitive | referCaseInsensitive
  deriving DecidableEq, Repr

/-- What kind of text an element rule compares. -/
inductive MatchValType
  | any | ip | fqdn
  deriving DecidableEq, Repr

/-- The messages a header rule is about. -/
inductive MsgType
  | any | request | reply | outOfDialog
  deriving DecidableEq, Repr

/-- **An element rule.** -/
structure ElementRule where
  /-- Its name, under which a `store` stores. -/
  name : Bytes := []
  /-- The parameter it names; no back-end reads it. -/
  parameterName : Bytes := []
  /-- The element it is about. -/
  type : ElementType := .none
  /-- What it does. -/
  action : ElementAction := .none
  /-- What kind of text it compares. -/
  matchValType : MatchValType := .any
  /-- How it compares. -/
  comparison : ComparisonType := .caseSensitive
  /-- What it compares with. -/
  matchValue : Value := {}
  /-- What it writes, logs or rejects with. -/
  newValue : Value := {}
  deriving DecidableEq, Repr

/-- **A header rule.** -/
structure HeaderRule where
  /-- Its name, under which a `store` stores. -/
  name : Bytes := []
  /-- The header it is about. -/
  headerName : Bytes := []
  /-- What it does. -/
  action : HeaderAction := .none
  /-- How it compares. -/
  comparison : ComparisonType := .caseSensitive
  /-- Requests, replies, or both. -/
  msgType : MsgType := .any
  /-- The methods it applies to; all of them when empty. -/
  methods : List Bytes := []
  /-- What it compares the header with. -/
  matchValue : Value := {}
  /-- What it writes, logs or rejects with. -/
  newValue : Value := {}
  /-- What it does to parts of the header. -/
  elementRules : List ElementRule := []
  deriving DecidableEq, Repr

/-- `has_method_filter`. -/
def HeaderRule.hasMethodFilter (hr : HeaderRule) : Bool := !hr.methods.isEmpty

/-- **A ruleset.** -/
structure Ruleset where
  /-- Its name. -/
  name : Bytes := []
  /-- Its rules, in order. -/
  headerRules : List HeaderRule := []
  deriving DecidableEq, Repr

end Hmr
