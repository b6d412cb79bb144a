import Hmr.Bytes

/-!
# The value language

A match-value or new-value is written as text and read into segments:
literal text, and `$` references to built-in variables, to captures of the
last regex match, or to what an earlier rule stored. `Value.parse` is that
reading, in its three modes.

A value keeps the text it was read from. The back-ends look at the text to
tell an absent value (`Value.isEmpty`) and at the segments for everything
else, and the two need not say the same: `+` is a new-value with text and no
segments.

`std::stoi` throws when a capture index does not fit an `int`, and nothing
catches it, so `Value.parse` is fallible: `none` is that exception.
-/

namespace Hmr

/-- What a `$` reference resolves to. -/
inductive RefKind
  /-- A built-in variable, `$LOCAL_IP`. -/
  | variable
  /-- A capture of the last regex match, `$1`. -/
  | capture
  /-- What a rule or an element rule stored, `$rule.$1`. -/
  | ruleRef
  deriving DecidableEq, Repr

/-- A parsed `$` reference. -/
structure ValueRef where
  /-- What the reference resolves to. -/
  kind : RefKind
  /-- The variable name, or the path of the back-reference, without its
  leading `$`. -/
  name : Bytes
  /-- The capture index, or the trailing `.$N` of a back-reference; `-1` when
  there is none. -/
  captureIndex : Int
  deriving DecidableEq, Repr

/-- A piece of a value: literal text, or a reference. -/
inductive ValueSegment
  | literal (text : Bytes)
  | ref (r : ValueRef)
  deriving DecidableEq, Repr

/-- How the text of a value is to be read. -/
inductive ValueMode
  /-- Verbatim. -/
  | literal
  /-- A regex or literal, or a `$` expression, with an optional `!`. -/
  | matchValue
  /-- Operands joined by `+`, each interpolated. -/
  | newValue
  deriving DecidableEq, Repr

/-- **A parsed match-value or new-value.** -/
structure Value where
  /-- The text it was read from. -/
  raw : Bytes := []
  /-- Its pieces, in order. -/
  segments : List ValueSegment := []
  /-- A match-value written with a leading `!`. -/
  negated : Bool := false
  /-- A match-value that is a `$` expression rather than a pattern. -/
  refExpression : Bool := false
  deriving DecidableEq, Repr

namespace ValueSegment

/-- `is_ref`. -/
def isRef : ValueSegment → Bool
  | literal _ => false
  | ref _ => true

/-- The literal text of a segment: none for a reference. -/
def text : ValueSegment → Bytes
  | literal t => t
  | ref _ => []

end ValueSegment

namespace Value

/-! ## Scanning references -/

/-- `isalpha`, in the C locale. -/
def isAlpha (c : UInt8) : Bool := (65 ≤ c && c ≤ 90) || (97 ≤ c && c ≤ 122)

/-- `isdigit`. -/
def isDigit (c : UInt8) : Bool := 48 ≤ c && c ≤ 57

/-- `is_ident_start`. -/
def isIdentStart (c : UInt8) : Bool := isAlpha c || c == 95

/-- `is_ident_cont`. -/
def isIdentCont (c : UInt8) : Bool := isAlpha c || isDigit c || c == 95

/-- `is_all_upper`: some letter, and no lower-case one. -/
def isAllUpper (s : Bytes) : Bool :=
  s.any isAlpha && s.all fun c => !(97 ≤ c && c ≤ 122)

/-- The number a run of digits stands for. -/
def digitsVal (s : Bytes) : Nat := s.foldl (fun v c => v * 10 + (c.toNat - 48)) 0

/-- `std::stoi` of a run of digits: it throws beyond `INT_MAX`. -/
def stoi (s : Bytes) : Option Int :=
  if digitsVal s ≤ 2147483647 then some (digitsVal s) else none

/-- The dotted chain of a back-reference, `rule.$elem.$N`, from its first
identifier on: the path, the trailing index and what follows. Each round
consumes an identifier, so `fuel` rounds are enough for a text of that
length. -/
def parseChain : Nat → Bytes → Bytes → Option (Bytes × Int × Bytes)
  | 0, rest, path => some (path, -1, rest)
  | fuel + 1, rest, path =>
    match rest with
    | [] => some (path, -1, rest)
    | c :: _ =>
      if isIdentStart c then
        let ident := rest.takeWhile isIdentCont
        let rest := rest.dropWhile isIdentCont
        let path := (if path.isEmpty then path else path ++ [46]) ++ ident
        match rest with
        | 46 :: 36 :: rest =>
          if (rest.takeWhile isDigit).isEmpty then
            parseChain fuel rest path
          else
            let num := rest.takeWhile isDigit
            (stoi num).map fun n =>
              (path ++ [46, 36] ++ num, n, rest.dropWhile isDigit)
        | _ => some (path, -1, rest)
      else some (path, -1, rest)

/-- `parse_ref`: the reference that starts behind a `$`, and what follows
it. -/
def parseRef (rest : Bytes) : Option (ValueRef × Bytes) :=
  match rest with
  | 123 :: rest =>
    some (⟨.variable, rest.takeWhile (· != 125), -1⟩,
      (rest.dropWhile (· != 125)).drop 1)
  | _ =>
    let num := rest.takeWhile isDigit
    if num.isEmpty then
      (parseChain rest.length rest []).map fun (path, index, rest) =>
        let kind := if !path.contains 46 && isAllUpper path then .variable else .ruleRef
        (⟨kind, path, index⟩, rest)
    else
      (stoi num).map fun n => (⟨.capture, num, n⟩, rest.dropWhile isDigit)

/-- `flush`: close the literal collected so far. -/
def flush (lit : Bytes) : List ValueSegment :=
  if lit.isEmpty then [] else [.literal lit]

/-- A `$` here starts a reference. -/
def startsRef (rest : Bytes) : Bool :=
  match rest with
  | [] => false
  | c :: _ => isIdentStart c || isDigit c || c == 123

/-- The loop of `interpolate`, with the literal collected so far. -/
def interpolateFrom : Nat → Bytes → Bytes → Option (List ValueSegment)
  | 0, _, lit => some (flush lit)
  | _ + 1, [], lit => some (flush lit)
  | fuel + 1, c :: rest, lit =>
    if c == 36 && startsRef rest then do
      let (r, rest) ← parseRef rest
      let segs ← interpolateFrom fuel rest []
      return flush lit ++ .ref r :: segs
    else
      interpolateFrom fuel rest (lit ++ [c])

/-- `interpolate`: the literals and references of a text, in order. -/
def interpolate (text : Bytes) : Option (List ValueSegment) :=
  interpolateFrom text.length text []

/-- `split_concat`: the operands of a new-value. -/
def splitConcat (s : Bytes) : List Bytes := s.splitOn 43

/-! ## The value and its observers -/

/-- The value of a text taken verbatim. -/
def verbatim (raw : Bytes) : Value where
  raw := raw
  segments := if raw.isEmpty then [] else [.literal raw]

/-- The match-value of a text. -/
def parseMatch (raw : Bytes) : Option Value :=
  let negated := raw.head? == some 33
  let body := if negated then raw.tail else raw
  if body.head? == some 36 then
    (interpolate body).map fun segs => ⟨raw, segs, negated, true⟩
  else
    some ⟨raw, if body.isEmpty then [] else [.literal body], negated, false⟩

/-- The new-value of a text: every operand that is not empty,
interpolated. -/
def parseNew (raw : Bytes) : Option Value := do
  let parts ← ((splitConcat raw).filter (!·.isEmpty)).mapM interpolate
  return { raw := raw, segments := parts.flatten }

/-- **`Value::parse`**. -/
def parse (raw : Bytes) (mode : ValueMode) (quoted : Bool) : Option Value :=
  if quoted then some (verbatim raw)
  else match mode with
    | .literal => some (verbatim raw)
    | .matchValue => parseMatch raw
    | .newValue => parseNew raw

/-- `empty`: there is no text. -/
def isEmpty (v : Value) : Bool := v.raw.isEmpty

/-- `is_pure_literal`: no segment is a reference. -/
def isPureLiteral (v : Value) : Bool := v.segments.all (!·.isRef)

/-- `literal_text`: the literal segments, concatenated. -/
def literalText (v : Value) : Bytes := v.segments.flatMap ValueSegment.text

/-- `is_single_ref`, with the reference: the value is one reference and
nothing else. -/
def singleRef? (v : Value) : Option ValueRef :=
  match v.segments with
  | [.ref r] => some r
  | _ => none

/-- `is_regex_literal`. -/
def isRegexLiteral (v : Value) : Bool := !v.refExpression && v.isPureLiteral

end Value

end Hmr
