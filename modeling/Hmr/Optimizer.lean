import Hmr.AstFactory

/-!
# The optimizer's passes

The four passes that rewrite a ruleset. Each gives the number of its changes and the
ruleset it leaves, and decides by the text of the rules alone: by a signature, by an
action, by a pattern, by the guards of two neighbours.

Deduplication keeps the first rule of a signature, if its action may be done twice.
Dead-code elimination drops the rules without an action, or without the header name that
it needs, and the element rules without action and type. Pattern simplification takes a
pattern without metacharacters for a literal, and rule merging drops repeated element
rules and fuses neighbours.

Whether a ruleset means the same afterwards is not asked here. It need not: the modules
about the passes (`Dropping`, `Patterns`, `Merging`) say for which packets it does.
-/

namespace Hmr

/-! ## Signatures -/

/-- `is_idempotent`, for header actions. -/
def HeaderAction.isIdempotent (a : HeaderAction) : Bool := a != .add

/-- `is_idempotent`, for element actions. -/
def ElementAction.isIdempotent (a : ElementAction) : Bool := a != .add

/-- `|`. -/
def bar : Bytes := txt "|"

/-- `sig` of an element rule. -/
def ElementRule.sig (er : ElementRule) : Bytes :=
  er.type.toString ++ bar ++ er.action.toString ++ bar ++ er.comparison.toString ++ bar
    ++ er.matchValue.raw ++ bar ++ er.newValue.raw ++ bar ++ er.parameterName

/-- `sig` of a header rule. -/
def HeaderRule.sig (hr : HeaderRule) : Bytes :=
  AstFactory.lower hr.headerName ++ txt "#" ++ hr.action.toString ++ bar
    ++ hr.comparison.toString ++ bar ++ hr.msgType.toString ++ bar
    ++ hr.methods.flatMap (fun m => m ++ txt ",") ++ bar
    ++ hr.matchValue.raw ++ bar ++ hr.newValue.raw ++ bar
    ++ hr.elementRules.flatMap (fun er => er.sig ++ txt ";")

section
variable {α : Type} (idempotent : α → Bool) (sig : α → Bytes)

/-- The loop that drops what is idempotent and has been seen: every item, and
whether it goes. -/
def markRepeats : List Bytes → List α → List (α × Bool)
  | _, [] => []
  | seen, x :: rest =>
    if idempotent x then
      if seen.contains (sig x) then (x, true) :: markRepeats seen rest
      else (x, false) :: markRepeats (sig x :: seen) rest
    else (x, false) :: markRepeats seen rest

/-- What is left of a list with its marks. -/
def kept (marked : List (α × Bool)) : List α :=
  (marked.filter fun p => !p.2).map Prod.fst

/-- How many go. -/
def dropped (marked : List (α × Bool)) : Nat := marked.countP Prod.snd

end

/-- Marking changes nothing. -/
theorem markRepeats_fst {α : Type} (idempotent : α → Bool) (sig : α → Bytes)
    (seen : List Bytes) (l : List α) :
    (markRepeats idempotent sig seen l).map Prod.fst = l := by
  induction l generalizing seen with
  | nil => rfl
  | cons x rest ih =>
    unfold markRepeats
    split
    · split <;> exact congrArg (x :: ·) (ih _)
    · exact congrArg (x :: ·) (ih _)

/-! ## Deduplication -/

namespace DeduplicationPass

/-- The rules, and which of them go. -/
def marked (rs : Ruleset) : List (HeaderRule × Bool) :=
  markRepeats (fun hr => hr.action.isIdempotent) HeaderRule.sig [] rs.headerRules

/-- **`DeduplicationPass::apply`**: a rule with the signature of an earlier one
goes. -/
def apply (rs : Ruleset) : Nat × Ruleset :=
  (dropped (marked rs), { rs with headerRules := kept (marked rs) })

end DeduplicationPass

/-! ## Dead code -/

/-- `needs_header`. -/
def HeaderAction.needsHeader : HeaderAction → Bool
  | .add | .store | .manipulate | .replace | .findReplaceAll | .delete | .deleteElement
  | .deleteHeader => true
  | .none | .sipManip | .log | .reject => false

namespace DeadCodeEliminationPass

/-- A rule that does nothing, or needs a header and names none. -/
def isDead (hr : HeaderRule) : Bool :=
  hr.action == .none || (hr.action.needsHeader && hr.headerName.isEmpty)

/-- An element rule without an action and without a type. -/
def isNoOp (er : ElementRule) : Bool := er.action == .none && er.type == .none

/-- A rule that stays, without its no-ops. -/
def strip (hr : HeaderRule) : HeaderRule :=
  { hr with elementRules := hr.elementRules.filter fun er => !isNoOp er }

/-- **`DeadCodeEliminationPass::apply`**. -/
def apply (rs : Ruleset) : Nat × Ruleset :=
  let live := rs.headerRules.filter fun hr => !isDead hr
  (rs.headerRules.countP isDead + (live.map fun hr => hr.elementRules.countP isNoOp).sum,
    { rs with headerRules := live.map strip })

end DeadCodeEliminationPass

/-! ## Patterns -/

/-- The characters that make a regex more than a literal. -/
def metaCharacters : Bytes := txt ".[]()*+?\x7b\x7d|\\^$"

/-- `is_plain_literal_regex`: the literal, if that is what is left without the
anchors. -/
def plainLiteral? (body : Bytes) : Option Bytes :=
  let body := if body.head? == some 94 then body.tail else body
  let body := if body.getLast? == some 36 then body.dropLast else body
  if body.any metaCharacters.contains then none else some body

namespace PatternSimplificationPass

/-- The guard that takes the place of a pattern, if one does. -/
def simplify? (cmp : ComparisonType) (mv : Value) : Option (ComparisonType × Value) :=
  if cmp == .patternRule && mv.isRegexLiteral && !mv.isEmpty then
    match plainLiteral? mv.raw with
    | none => none
    | some literal =>
      if literal.isEmpty then none else some (.caseSensitive, Value.verbatim literal)
  else none

/-- `simplify`: the guard after the pass. -/
def simplify (cmp : ComparisonType) (mv : Value) : ComparisonType × Value :=
  (simplify? cmp mv).getD (cmp, mv)

/-- An element rule after the pass. -/
def simplifyElement (er : ElementRule) : ElementRule :=
  { er with
    comparison := (simplify er.comparison er.matchValue).1
    matchValue := (simplify er.comparison er.matchValue).2 }

/-- A header rule after the pass. -/
def simplifyRule (hr : HeaderRule) : HeaderRule :=
  { hr with
    comparison := (simplify hr.comparison hr.matchValue).1
    matchValue := (simplify hr.comparison hr.matchValue).2
    elementRules := hr.elementRules.map simplifyElement }

/-- The guards of a rule that change. -/
def changes (hr : HeaderRule) : Nat :=
  (if (simplify? hr.comparison hr.matchValue).isSome then 1 else 0)
    + hr.elementRules.countP fun er => (simplify? er.comparison er.matchValue).isSome

/-- **`PatternSimplificationPass::apply`**. -/
def apply (rs : Ruleset) : Nat × Ruleset :=
  ((rs.headerRules.map changes).sum, { rs with headerRules := rs.headerRules.map simplifyRule })

end PatternSimplificationPass

/-! ## Merging -/

/-- `iequals_header`. -/
def iequalsHeader (a b : Bytes) : Bool := AstFactory.lower a == AstFactory.lower b

namespace RuleMergingPass

/-- The element rules of a rule, and which of them go. -/
def marked (hr : HeaderRule) : List (ElementRule × Bool) :=
  markRepeats (fun er => er.action.isIdempotent) ElementRule.sig [] hr.elementRules

/-- A rule without its repeated element rules. -/
def dropRepeats (hr : HeaderRule) : HeaderRule :=
  { hr with elementRules := kept (marked hr) }

/-- Two neighbours that are fused: `manipulate` rules on the same header with
the same guard. -/
def fuses (a b : HeaderRule) : Bool :=
  b.action == .manipulate && a.action == .manipulate
    && iequalsHeader a.headerName b.headerName && a.comparison == b.comparison
    && a.msgType == b.msgType && a.methods == b.methods
    && a.matchValue.raw == b.matchValue.raw

/-- The loop that fuses, with the last rule of `fused`. -/
def fuseInto : HeaderRule → List HeaderRule → List HeaderRule
  | back, [] => [back]
  | back, hr :: rest =>
    if fuses back hr then
      fuseInto { back with elementRules := back.elementRules ++ hr.elementRules } rest
    else back :: fuseInto hr rest

/-- The rules with neighbours fused. -/
def fuse : List HeaderRule → List HeaderRule
  | [] => []
  | hr :: rest => fuseInto hr rest

/-- **`RuleMergingPass::apply`**: repeated element rules go, then neighbours are
fused. -/
def apply (rs : Ruleset) : Nat × Ruleset :=
  let fused := fuse (rs.headerRules.map dropRepeats)
  ((rs.headerRules.map fun hr => dropped (marked hr)).sum
      + (rs.headerRules.length - fused.length),
    { rs with headerRules := fused })

end RuleMergingPass

end Hmr
