import Hmr.Meaning

/-!
# The interpreter

The interpreter walks a ruleset and calls the runtime as it goes. The same walk runs in
two modes. The constructor's *scan* visits everything, whatever the guards say, with no
message and no context, and fills the tables: which id each regex and each slot name has.
`apply` walks with the tables frozen, short-circuits on guards, and acts on a packet.

The walk is a program over the runtime's calls that keeps the tables as its state. Strings
handed to the runtime are interned: the pool owns them, and a view of a pooled string has
a 32-bit length.

The functions are those of the source, with the mode as a parameter where they have it. A
lookup in frozen tables has an answer even where there is no entry, as the source has one:
the number of an entry there is not. What the walk does then is up to the runtime, and
that it does not come to that is what the scan is for (`preScan_complete`).
-/

namespace Hmr

/-- `Interpreter`'s tables. The id of a regex, or of a slot, is its position. -/
structure Tables where
  regexes : List (Bytes × Bool) := []
  slots : List Bytes := []
  literalPool : List Bytes := []
  frozen : Bool := false
  deriving DecidableEq, Repr

/-- A walk: calls of the runtime, with the tables at hand. -/
abbrev InterpM : Type → Type := StateT Tables (Prog (RtCall Bytes Nat Nat) RetTy.den)

namespace Interpreter

/-- Call the runtime. -/
def rt {i : RetTy} (c : RtCall Bytes Nat Nat i) : InterpM i.den :=
  StateT.lift (Prog.perform c)

/-! ## Tables -/

/-- `add_regex`. -/
def addRegex (pattern : Bytes) (ci : Bool) : InterpM Nat := fun t =>
  match t.regexes.idxOf? (pattern, ci) with
  | some i => pure (i, t)
  | none =>
    if t.frozen then pure (0, t)
    else pure (t.regexes.length, { t with regexes := t.regexes ++ [(pattern, ci)] })

/-- `slot_for`. -/
def slotFor (name : Bytes) : InterpM Nat := fun t =>
  match t.slots.idxOf? name with
  | some i => pure (i, t)
  | none =>
    if t.frozen then pure (0, t)
    else pure (t.slots.length, { t with slots := t.slots ++ [name] })

/-- `slot_for_ref`. -/
def slotForRef (path : Bytes) (captureIndex : Int) : InterpM Nat :=
  slotFor (Lowering.captureSlotKey (Lowering.refBaseName path) (max 0 captureIndex).toNat)

/-- `intern`. -/
def intern (s : Bytes) : InterpM Bytes := fun t =>
  pure (clip s,
    if s ∈ t.literalPool then t else { t with literalPool := t.literalPool ++ [s] })

/-! ## Values and guards -/

/-- The reference a value consists of. -/
def evalRef (r : ValueRef) : InterpM Bytes :=
  match r.kind with
  | .variable => rt (.getVar (Lowering.variableId r.name))
  | .capture => rt (.getCapture (max 0 r.captureIndex).toNat)
  | .ruleRef => do
    let slot ← slotForRef r.name r.captureIndex
    rt (.load slot)

/-- A segment of a value that is built up in the scratch buffer. -/
def appendSegment : ValueSegment → InterpM Unit
  | .literal text =>
    if text.isEmpty then pure ()
    else do
      let lit ← intern text
      rt (.valAppendLit lit)
  | .ref r =>
    match r.kind with
    | .variable => rt (.valAppendVar (Lowering.variableId r.name))
    | .capture => rt (.valAppendCapture (max 0 r.captureIndex).toNat)
    | .ruleRef => do
      let slot ← slotForRef r.name r.captureIndex
      rt (.valAppendSlot slot)

/-- The segments of such a value, in order. -/
def appendSegments : List ValueSegment → InterpM Unit
  | [] => pure ()
  | s :: rest => do
    appendSegment s
    appendSegments rest

/-- **`eval_value`.** -/
def evalValue (v : Value) : InterpM Bytes :=
  if v.isEmpty then intern []
  else if v.isPureLiteral then intern v.literalText
  else match v.singleRef? with
    | some r => evalRef r
    | none => do
      rt .valReset
      appendSegments v.segments
      rt .valFinish

/-- The matcher of a guard that is no pattern. -/
def literalMatchType (cmp : ComparisonType) (mvt : MatchValType) (pattern : Bytes) :
    HmrMatchType :=
  match mvt with
  | .ip => Lowering.ipMatchType pattern
  | .fqdn => .fqdn
  | .any => if Lowering.isCaseInsensitive cmp then .exactCi else .exact

/-- **`eval_match_guard`.** -/
def evalMatchGuard (cmp : ComparisonType) (mvt : MatchValType) (mv : Value)
    (subject : Bytes) : InterpM Bool :=
  if mv.isEmpty then pure true
  else if !mv.isRegexLiteral && !mv.isPureLiteral then pure true
  else do
    let pattern := if mv.isPureLiteral then mv.literalText else mv.raw
    let (t, regexId) ←
      if Lowering.isPattern cmp then do
        let id ← addRegex pattern (Lowering.isCaseInsensitive cmp)
        pure (HmrMatchType.regex, id)
      else pure (literalMatchType cmp mvt pattern, 0)
    let pat ← intern pattern
    let cond ← rt (.hmrMatch t subject pat regexId)
    pure (if mv.negated then !cond else cond)

/-! ## Rules -/

/-- The groups of a pattern-rule `store`: how many from `g` on. -/
def storeGroups (rule : Bytes) : Nat → Nat → InterpM Unit
  | 0, _ => pure ()
  | n + 1, g => do
    let slot ← slotFor (Lowering.captureSlotKey rule g)
    let cap ← rt (.getCapture g)
    rt (.store slot cap)
    storeGroups rule n (g + 1)

/-- **`run_header_action`**; whether it terminated the rule. -/
def runHeaderAction (hr : HeaderRule) (idx : Nat) (hv : Option Bytes) : InterpM Bool := do
  let name ← intern hr.headerName
  match hr.action with
  | .add =>
    let v ← evalValue hr.newValue
    rt (.addHeader name v)
    pure false
  | .replace | .manipulate =>
    if !hr.newValue.isEmpty && hr.elementRules.isEmpty then
      let v ← evalValue hr.newValue
      rt (.setHeader name v)
      pure false
    else pure false
  | .delete | .deleteHeader =>
    rt (.deleteHeader name)
    pure false
  | .store =>
    let rule := if hr.name.isEmpty then txt "rule" ++ Lowering.toDecimal idx else hr.name
    if Lowering.isPattern hr.comparison then
      let pat := if hr.matchValue.isPureLiteral then hr.matchValue.literalText
        else hr.matchValue.raw
      storeGroups rule (Lowering.countCapturingGroups pat + 1) 0
      pure false
    else
      let slot ← slotFor rule
      let v ← match hv with
        | some hv => pure hv
        | none => rt (.getHeader name)
      rt (.store slot v)
      pure false
  | .log =>
    let v ← if hr.newValue.isEmpty then intern hr.name else evalValue hr.newValue
    rt (.log v)
    pure false
  | .reject =>
    let v ← if hr.newValue.isEmpty then intern hr.name else evalValue hr.newValue
    rt (.reject 403 v)
    pure true
  | _ => pure false

/-- The action of an element rule whose guard holds; the header and the
element as read before. -/
def runElementAction (hr : HeaderRule) (er : ElementRule) (name : Bytes)
    (elem : HmrUriElement) (hv ev : Bytes) (scan : Bool) : InterpM Flow :=
  match er.action with
  | .replace => do
    let nv ← evalValue er.newValue
    if elem = .whole then
      rt (.setHeader name nv)
      pure .continue
    else
      let v ← rt (.uriSet hv elem nv)
      rt (.setHeader name v)
      pure .continue
  | .deleteElement =>
    if elem = .whole then do
      rt (.deleteHeader name)
      pure .continue
    else do
      let empty ← intern []
      let v ← rt (.uriSet hv elem empty)
      rt (.setHeader name v)
      pure .continue
  | .store => do
    let slot ← slotFor (if er.name.isEmpty then hr.name ++ txt ".el" else er.name)
    rt (.store slot ev)
    pure .continue
  | .reject => do
    let v ← if er.newValue.isEmpty then intern er.name else evalValue er.newValue
    rt (.reject 403 v)
    pure (if scan then .continue else .rejected)
  | _ => pure .continue

/-- The loop of `run_element_rules`. -/
def runElements (hr : HeaderRule) (name : Bytes) (scan : Bool) :
    List ElementRule → InterpM Flow
  | [] => pure .continue
  | er :: rest =>
    match Lowering.uriElement er.type with
    | none => runElements hr name scan rest
    | some elem => do
      let hv ← rt (.getHeader name)
      let ev ← if elem = .whole then pure hv else rt (.uriGet hv elem)
      let ok ← evalMatchGuard er.comparison er.matchValType er.matchValue ev
      if scan || ok then
        match ← runElementAction hr er name elem hv ev scan with
        | .rejected => pure .rejected
        | .continue => runElements hr name scan rest
      else runElements hr name scan rest

/-- **`run_element_rules`.** -/
def runElementRules (hr : HeaderRule) (scan : Bool) : InterpM Flow := do
  let name ← intern hr.headerName
  runElements hr name scan hr.elementRules

/-- The message-type guard of a rule. -/
def msgTypeGuard (hr : HeaderRule) (scan : Bool) : InterpM Bool :=
  if scan then pure true
  else match hr.msgType with
    | .request => rt .isRequest
    | .reply => do
      let req ← rt .isRequest
      pure !req
    | _ => pure true

/-- The method whitelist: once a method is accepted, the others are not looked
at. -/
def methodAccepted (method : Bytes) : Bool → List Bytes → InterpM Bool
  | acc, [] => pure acc
  | acc, m :: rest =>
    if acc then methodAccepted method true rest
    else do
      let lit ← intern m
      methodAccepted method (Rt.strEq method lit true) rest

/-- The method guard of a rule. -/
def methodGuard (hr : HeaderRule) (scan : Bool) : InterpM Bool :=
  if hr.hasMethodFilter then do
    let method ← rt .getMethod
    let acc ← methodAccepted method false hr.methods
    pure (scan || acc)
  else pure true

/-- The header value, if the match-guard or the action needs it. -/
def fetchHeader (hr : HeaderRule) : InterpM (Option Bytes) :=
  if !hr.matchValue.isEmpty || hr.action = .store then do
    let name ← intern hr.headerName
    let hv ← rt (.getHeader name)
    pure (some hv)
  else pure none

/-- The header-level match guard of a rule. -/
def matchValueGuard (hr : HeaderRule) (hv : Option Bytes) (scan : Bool) : InterpM Bool :=
  if hr.matchValue.isEmpty then pure true
  else do
    let ok ← evalMatchGuard hr.comparison .any hr.matchValue (hv.getD [])
    pure (scan || ok)

/-- **`run_header_rule`.** -/
def runHeaderRule (hr : HeaderRule) (idx : Nat) (scan : Bool) : InterpM Flow := do
  if ← msgTypeGuard hr scan then
    if ← methodGuard hr scan then
      let hv ← fetchHeader hr
      if ← matchValueGuard hr hv scan then
        if ← runHeaderAction hr idx hv then pure .rejected
        else if hr.elementRules.isEmpty then pure .continue
        else runElementRules hr scan
      else pure .continue
    else pure .continue
  else pure .continue

/-- The loop of `walk`, from the rule at position `idx` on. -/
def walkFrom (scan : Bool) : Nat → List HeaderRule → InterpM HmrVerdict
  | _, [] => pure .ok
  | idx, hr :: rest => do
    let f ← runHeaderRule hr idx scan
    if !scan && f == .rejected then pure .rejected
    else walkFrom scan (idx + 1) rest

/-- **`walk`.** -/
def walk (rs : Ruleset) (scan : Bool) : InterpM HmrVerdict :=
  walkFrom scan 0 rs.headerRules

/-! ## The interpreter of a ruleset -/

/-- The tables the constructor fills and freezes. -/
def tables (rs : Ruleset) : Tables :=
  { ((walk rs true).run {} |>.run nullRuntime ()).1.2 with frozen := true }

/-- `info`. -/
def info (rs : Ruleset) : HmrModuleInfo where
  name := if rs.name.isEmpty then txt "hmr" else rs.name
  numSlots := (tables rs).slots.length
  regexes := (tables rs).regexes

/-- **`apply`.** -/
def apply (rs : Ruleset) : RtProg Nat Nat HmrVerdict :=
  Prod.fst <$> (walk rs false).run (tables rs)

end Interpreter

end Hmr
