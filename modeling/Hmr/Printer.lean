import Hmr.Parser

/-!
# The printer

A ruleset is printed in the canonical form: each block keyword on a line of its own, and
each attribute behind its key, indented by the depth of its block. An attribute without a
value is printed as its key alone, but for a description, which is left out.

Nothing is quoted. A value is printed as the text it was read from, and whether that text
stood in quotes is not known here. A keyword is printed by the name of its enumerator, and
where an attribute was not given it is printed with its default, so that a printed ruleset
has all the attributes of its kind. The attributes of older versions, which the parser
reads and nothing uses, are not printed.

What is read of a printed text is the subject of `Reprint` and `RoundTrip`.
-/

namespace Hmr

namespace Printer

/-- `attr`. -/
def attr (depth : Nat) (key value : Bytes) : Bytes :=
  List.replicate (depth * 8) sp ++ key
    ++ (if value.isEmpty then [] else List.replicate 20 sp ++ value) ++ [lf]

/-- `visit_element_rule`. -/
def visitElementRule (er : ElementRule) : Bytes :=
  List.replicate 16 sp ++ txt "element-rule" ++ [lf]
    ++ attr 3 (txt "name") er.name
    ++ attr 3 (txt "parameter-name") er.parameterName
    ++ attr 3 (txt "type") er.type.toString
    ++ attr 3 (txt "action") er.action.toString
    ++ attr 3 (txt "match-val-type") er.matchValType.toString
    ++ attr 3 (txt "comparison-type") er.comparison.toString
    ++ attr 3 (txt "match-value") er.matchValue.raw
    ++ attr 3 (txt "new-value") er.newValue.raw

/-- `enter_header_rule`. -/
def enterHeaderRule (hr : HeaderRule) : Bytes :=
  List.replicate 8 sp ++ txt "header-rule" ++ [lf]
    ++ attr 2 (txt "name") hr.name
    ++ attr 2 (txt "header-name") hr.headerName
    ++ attr 2 (txt "action") hr.action.toString
    ++ attr 2 (txt "comparison-type") hr.comparison.toString
    ++ attr 2 (txt "match-value") hr.matchValue.raw
    ++ attr 2 (txt "msg-type") hr.msgType.toString
    ++ attr 2 (txt "new-value") hr.newValue.raw
    ++ attr 2 (txt "methods") (AstFactory.joinMethods hr.methods)

/-- `enter_ruleset`. -/
def enterRuleset (rs : SourceRuleset) : Bytes :=
  txt "sip-manipulation" ++ [lf]
    ++ attr 1 (txt "name") rs.name
    ++ (if rs.description.isEmpty then [] else attr 1 (txt "description") rs.description)

/-- `accept`, of a header-rule. -/
def acceptHeaderRule (hr : HeaderRule) : Bytes :=
  enterHeaderRule hr ++ hr.elementRules.flatMap visitElementRule

/-- **`to_hmr_text`.** -/
def toHmrText (rs : SourceRuleset) : Bytes :=
  enterRuleset rs ++ rs.headerRules.flatMap acceptHeaderRule

end Printer

end Hmr
