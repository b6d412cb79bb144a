import Hmr.CppStrings
import Hmr.Meaning

/-!
# The C++ back-end

`generate_cpp` writes a ruleset out as C++, a line at a time: an immediately invoked
lambda for each rule and for each element rule, in which `return false` goes on and
`return true` is a reject. What the lines look like hangs on three counters – the next
temporary, and the numbers of slots and patterns, which are given out as they come up –
and on the nesting, which is only indentation.

The body is kept as its lines, with the comments among them marked: they are put out, or
left out, when the lines are made a text (`CppGenerator.Line.text`). The source asks for
each comment whether comments are wanted, and puts out the same lines around it either
way.

This is the text of the unit, character by character. What a program does that a compiler
reads there is not said here; for that, the body is put out once more, as statements
(`CppProgram`), of which this is the printed form (`CppRendering`).
-/

namespace Hmr

namespace CppGenerator

open Lowering (toDecimal)

/-- `CppGenOptions`. -/
structure CppGenOptions where
  /-- The name of the module; if it is empty, the one of the ruleset. -/
  moduleName : Bytes := []
  /-- What is included. -/
  runtimeHeader : Bytes := txt "hmr/runtime/hmr_runtime.h"
  /-- Rule names are put out as comments. -/
  emitComments : Bool := true

/-- A line of the body: code, or a comment. -/
inductive Line
  | code (indent : Nat) (text : Bytes)
  | comment (indent : Nat) (text : Bytes)
  deriving DecidableEq, Repr

/-- `line`, and `comment`: what is put out. -/
def Line.text (emitComments : Bool) : Line → Bytes
  | code n s => List.replicate (4 * n) sp ++ s ++ [lf]
  | comment n s =>
    if emitComments then List.replicate (4 * n) sp ++ (txt "// " ++ s) ++ [lf] else []

/-- **`CppEmitter`**: the body so far, and the counters. -/
structure CppEmitter where
  body : List Line := []
  temp : Nat := 0
  indent : Nat := 1
  regexes : List (Bytes × Bool) := []
  slots : List Bytes := []

/-- Emission: a result, and the emitter after it. -/
abbrev Emit : Type → Type := StateM CppEmitter

/-! ## Enumerators -/

/-- `var_enum`. -/
def varEnum : HmrVarId → Bytes
  | .none => txt "HMR_VAR_NONE"
  | .localIp => txt "HMR_VAR_LOCAL_IP"
  | .remoteIp => txt "HMR_VAR_REMOTE_IP"
  | .localPort => txt "HMR_VAR_LOCAL_PORT"
  | .remotePort => txt "HMR_VAR_REMOTE_PORT"
  | .trunkGroup => txt "HMR_VAR_TRUNK_GROUP"
  | .realm => txt "HMR_VAR_REALM"
  | .interface => txt "HMR_VAR_INTERFACE"
  | .method => txt "HMR_VAR_METHOD"
  | .ruriUser => txt "HMR_VAR_RURI_USER"
  | .ruriHost => txt "HMR_VAR_RURI_HOST"
  | .toUser => txt "HMR_VAR_TO_USER"
  | .toHost => txt "HMR_VAR_TO_HOST"
  | .fromUser => txt "HMR_VAR_FROM_USER"
  | .fromHost => txt "HMR_VAR_FROM_HOST"

/-- `match_enum`. -/
def matchEnum : HmrMatchType → Bytes
  | .exact => txt "HMR_MATCH_EXACT"
  | .exactCi => txt "HMR_MATCH_EXACT_CI"
  | .regex => txt "HMR_MATCH_REGEX"
  | .ip => txt "HMR_MATCH_IP"
  | .ipMask => txt "HMR_MATCH_IP_MASK"
  | .ipRange => txt "HMR_MATCH_IP_RANGE"
  | .fqdn => txt "HMR_MATCH_FQDN"

/-- `uri_enum`. -/
def uriEnum : HmrUriElement → Bytes
  | .whole => txt "HMR_URI_WHOLE"
  | .display => txt "HMR_URI_DISPLAY"
  | .user => txt "HMR_URI_USER"
  | .host => txt "HMR_URI_HOST"
  | .port => txt "HMR_URI_PORT"

/-- `uint_lit`. -/
def uintLit (n : Nat) : Bytes := toDecimal n ++ txt "u"

/-! ## Lines, temporaries and tables -/

/-- `next_temp`. -/
def nextTemp : Emit Bytes := fun e => (txt "t" ++ toDecimal e.temp, { e with temp := e.temp + 1 })

/-- `line`. -/
def line (s : Bytes) : Emit Unit := fun e => ((), { e with body := e.body ++ [.code e.indent s] })

/-- `blank`. -/
def blank : Emit Unit := fun e => ((), { e with body := e.body ++ [.code 0 []] })

/-- `open`. -/
def openBlock (s : Bytes) : Emit Unit := do
  line s
  modify fun e => { e with indent := e.indent + 1 }

/-- `close`. -/
def closeBlock (s : Bytes) : Emit Unit := do
  modify fun e => { e with indent := e.indent - 1 }
  line s

/-- `comment`. -/
def comment (s : Bytes) : Emit Unit := fun e =>
  ((), { e with body := e.body ++ [.comment e.indent s] })

/-- The number of a key, which gets the next one if it has none. -/
def numberOf {K : Type} [BEq K] (l : List K) (k : K) : Nat × List K :=
  match l.idxOf? k with
  | some i => (i, l)
  | none => (l.length, l ++ [k])

/-- `add_regex`. -/
def addRegex (pattern : Bytes) (ci : Bool) : Emit Nat := fun e =>
  ((numberOf e.regexes (pattern, ci)).1,
    { e with regexes := (numberOf e.regexes (pattern, ci)).2 })

/-- `slot_for`. -/
def slotFor (name : Bytes) : Emit Nat := fun e =>
  ((numberOf e.slots name).1, { e with slots := (numberOf e.slots name).2 })

/-- A temporary for what a call returns. -/
def bindTemp (call : Bytes) : Emit Bytes := do
  let t ← nextTemp
  line (txt "const HmrStr " ++ t ++ txt " = " ++ call ++ txt ";")
  pure t

/-! ## Values and guards -/

/-- A reference by itself. -/
def emitRef (r : ValueRef) : Emit Bytes :=
  match r.kind with
  | .variable =>
    bindTemp (txt "hmr_rt_get_var(ctx, " ++ varEnum (Lowering.variableId r.name) ++ txt ")")
  | .capture => bindTemp (txt "hmr_rt_get_capture(ctx, " ++ uintLit (Meaning.refGroup r) ++ txt ")")
  | .ruleRef => do
    let slot ← slotFor (Meaning.refSlot r)
    bindTemp (txt "hmr_rt_load(ctx, " ++ uintLit slot ++ txt ")")

/-- A segment of a value, appended to the scratch text. -/
def emitSegment : ValueSegment → Emit Unit
  | .literal s =>
    if s.isEmpty then pure ()
    else line (txt "hmr_rt_val_append_lit(ctx, " ++ strLit s ++ txt ");")
  | .ref r =>
    match r.kind with
    | .variable =>
      line (txt "hmr_rt_val_append_var(ctx, " ++ varEnum (Lowering.variableId r.name) ++ txt ");")
    | .capture =>
      line (txt "hmr_rt_val_append_capture(ctx, " ++ uintLit (Meaning.refGroup r) ++ txt ");")
    | .ruleRef => do
      let slot ← slotFor (Meaning.refSlot r)
      line (txt "hmr_rt_val_append_slot(ctx, " ++ uintLit slot ++ txt ");")

/-- The segments of a value, in order. -/
def emitSegments : List ValueSegment → Emit Unit
  | [] => pure ()
  | s :: rest => do
    emitSegment s
    emitSegments rest

/-- **`emit_value`**: the statements a value takes, and an expression for it. -/
def emitValue (v : Value) : Emit Bytes :=
  if v.isEmpty then pure (strLit [])
  else if v.isPureLiteral then pure (strLit v.literalText)
  else match v.singleRef? with
    | some r => emitRef r
    | none => do
      line (txt "hmr_rt_val_reset(ctx);")
      emitSegments v.segments
      bindTemp (txt "hmr_rt_val_finish(ctx)")

/-- **`emit_match_guard`**: a statement that returns where the guard fails. -/
def emitMatchGuard (cmp : ComparisonType) (mvt : MatchValType) (mv : Value) (subject : Bytes) :
    Emit Unit :=
  if Meaning.alwaysHolds mv then pure ()
  else do
    let pattern := Meaning.patternOf mv
    let (t, regexId) ←
      if Lowering.isPattern cmp then do
        let id ← addRegex pattern (Lowering.isCaseInsensitive cmp)
        pure (HmrMatchType.regex, id)
      else pure (Meaning.literalMatch cmp mvt pattern, 0)
    let call := txt "hmr_rt_match(ctx, " ++ matchEnum t ++ txt ", " ++ subject ++ txt ", "
      ++ strLit pattern ++ txt ", " ++ uintLit regexId ++ txt ")"
    line (txt "if (" ++ call ++ (if mv.negated then txt " != 0" else txt " == 0")
      ++ txt ") return false;")

/-! ## Rules -/

/-- The groups of a pattern-rule `store`: how many from `g` on. -/
def emitGroups (rule : Bytes) : Nat → Nat → Emit Unit
  | 0, _ => pure ()
  | n + 1, g => do
    let cap ← bindTemp (txt "hmr_rt_get_capture(ctx, " ++ uintLit g ++ txt ")")
    let slot ← slotFor (Lowering.captureSlotKey rule g)
    line (txt "hmr_rt_store(ctx, " ++ uintLit slot ++ txt ", " ++ cap ++ txt ");")
    emitGroups rule n (g + 1)

/-- What a log or a reject says: the value, or the name. -/
def emitMessage (name : Bytes) (v : Value) : Emit Bytes :=
  if v.isEmpty then pure (strLit name) else emitValue v

/-- **`emit_header_action`**; whether it terminated the rule. -/
def emitHeaderAction (hr : HeaderRule) (idx : Nat) (hv : Option Bytes) : Emit Bool :=
  let name := strLit hr.headerName
  match hr.action with
  | .add => do
    let v ← emitValue hr.newValue
    line (txt "hmr_rt_add_header(msg, ctx, " ++ name ++ txt ", " ++ v ++ txt ");")
    pure false
  | .replace | .manipulate =>
    if !hr.newValue.isEmpty && hr.elementRules.isEmpty then do
      let v ← emitValue hr.newValue
      line (txt "hmr_rt_set_header(msg, ctx, " ++ name ++ txt ", " ++ v ++ txt ");")
      pure false
    else pure false
  | .delete | .deleteHeader => do
    line (txt "hmr_rt_delete_header(msg, " ++ name ++ txt ");")
    pure false
  | .store =>
    let rule := Meaning.storeName hr idx
    if Lowering.isPattern hr.comparison then do
      let ngroups := Lowering.countCapturingGroups (Meaning.patternOf hr.matchValue)
      emitGroups rule (ngroups + 1) 0
      pure false
    else do
      let v ← match hv with
        | some hv => pure hv
        | none => bindTemp (txt "hmr_rt_get_header(msg, " ++ name ++ txt ")")
      let slot ← slotFor rule
      line (txt "hmr_rt_store(ctx, " ++ uintLit slot ++ txt ", " ++ v ++ txt ");")
      pure false
  | .log => do
    let v ← emitMessage hr.name hr.newValue
    line (txt "hmr_rt_log(ctx, " ++ v ++ txt ");")
    pure false
  | .reject => do
    let v ← emitMessage hr.name hr.newValue
    line (txt "hmr_rt_reject(ctx, 403u, " ++ v ++ txt ");")
    line (txt "return true;")
    pure true
  | _ => pure false

/-- The action of an element rule, whose element is `ev`, in the header `hv`; whether it
terminated the rule. -/
def emitElementAction (hr : HeaderRule) (er : ElementRule) (elem : HmrUriElement)
    (nm hv ev : Bytes) : Emit Bool :=
  match er.action with
  | .replace => do
    let nv ← emitValue er.newValue
    if elem = .whole then
      line (txt "hmr_rt_set_header(msg, ctx, " ++ nm ++ txt ", " ++ nv ++ txt ");")
      pure false
    else
      let ns ← bindTemp (txt "hmr_rt_uri_set(ctx, " ++ hv ++ txt ", " ++ uriEnum elem ++ txt ", "
        ++ nv ++ txt ")")
      line (txt "hmr_rt_set_header(msg, ctx, " ++ nm ++ txt ", " ++ ns ++ txt ");")
      pure false
  | .deleteElement =>
    if elem = .whole then do
      line (txt "hmr_rt_delete_header(msg, " ++ nm ++ txt ");")
      pure false
    else do
      let ns ← bindTemp (txt "hmr_rt_uri_set(ctx, " ++ hv ++ txt ", " ++ uriEnum elem ++ txt ", "
        ++ strLit [] ++ txt ")")
      line (txt "hmr_rt_set_header(msg, ctx, " ++ nm ++ txt ", " ++ ns ++ txt ");")
      pure false
  | .store => do
    let slot ← slotFor (Meaning.elementSlot hr er)
    line (txt "hmr_rt_store(ctx, " ++ uintLit slot ++ txt ", " ++ ev ++ txt ");")
    pure false
  | .reject => do
    let v ← emitMessage er.name er.newValue
    line (txt "hmr_rt_reject(ctx, 403u, " ++ v ++ txt ");")
    line (txt "return true;")
    pure true
  | _ => pure false

/-- The line that opens the lambda of a rule. -/
def ifLambda : Bytes := txt "if ([&]() -> bool \x7b"

/-- What the comment of an element rule says. -/
def elementNote (er : ElementRule) : Bytes :=
  if er.name.isEmpty then txt "element-rule" else txt "element-rule " ++ er.name

/-- The lambda of an element rule. -/
def emitElement (hr : HeaderRule) (nm : Bytes) (er : ElementRule) (elem : HmrUriElement) :
    Emit Unit := do
  comment (elementNote er)
  openBlock ifLambda
  -- an element rule before this one may have changed the header
  let hv ← bindTemp (txt "hmr_rt_get_header(msg, " ++ nm ++ txt ")")
  let ev ← if elem = .whole then pure hv
    else bindTemp (txt "hmr_rt_uri_get(ctx, " ++ hv ++ txt ", " ++ uriEnum elem ++ txt ")")
  emitMatchGuard er.comparison er.matchValType er.matchValue ev
  let terminated ← emitElementAction hr er elem nm hv ev
  if terminated then pure () else line (txt "return false;")
  closeBlock (txt "\x7d()) return true;")

/-- The loop of `emit_element_rules`. -/
def emitElements (hr : HeaderRule) (nm : Bytes) : List ElementRule → Emit Unit
  | [] => pure ()
  | er :: rest =>
    match Lowering.uriElement er.type with
    | none => emitElements hr nm rest
    | some elem => do
      emitElement hr nm er elem
      emitElements hr nm rest

/-- **`emit_element_rules`.** -/
def emitElementRules (hr : HeaderRule) : Emit Unit := do
  let nm ← bindTemp (strLit hr.headerName)
  emitElements hr nm hr.elementRules

/-- The guard by message type. -/
def emitMsgTypeGuard (hr : HeaderRule) : Emit Unit :=
  match hr.msgType with
  | .request => line (txt "if (hmr_rt_is_request(msg) == 0) return false;")
  | .reply => line (txt "if (hmr_rt_is_request(msg) != 0) return false;")
  | _ => pure ()

/-- The guard by method. -/
def emitMethodGuard (hr : HeaderRule) : Emit Unit :=
  if hr.hasMethodFilter then do
    let method ← bindTemp (txt "hmr_rt_get_method(msg)")
    let accepts := hr.methods.map fun m =>
      txt "hmr_rt_str_eq(" ++ method ++ txt ", " ++ strLit m ++ txt ", 1) != 0"
    line (txt "if (!(" ++ (txt " || ").intercalate accepts ++ txt ")) return false;")
  else pure ()

/-- The header value, if the guard or the action looks at it. -/
def emitFetch (hr : HeaderRule) : Emit (Option Bytes) :=
  if !hr.matchValue.isEmpty || hr.action == .store then do
    let hv ← bindTemp (txt "hmr_rt_get_header(msg, " ++ strLit hr.headerName ++ txt ")")
    pure (some hv)
  else pure none

/-- What the comment of a header rule says. -/
def headerNote (hr : HeaderRule) (idx : Nat) : Bytes :=
  if hr.name.isEmpty then txt "header-rule " ++ toDecimal idx
  else txt "header-rule " ++ toDecimal idx ++ txt ": " ++ hr.name

/-- **`emit_header_rule`.** -/
def emitHeaderRule (hr : HeaderRule) (idx : Nat) : Emit Unit := do
  comment (headerNote hr idx)
  openBlock ifLambda
  emitMsgTypeGuard hr
  emitMethodGuard hr
  let hv ← emitFetch hr
  emitMatchGuard hr.comparison .any hr.matchValue (hv.getD [])
  let terminated ← emitHeaderAction hr idx hv
  if !terminated && !hr.elementRules.isEmpty then emitElementRules hr else pure ()
  if terminated then pure () else line (txt "return false;")
  closeBlock (txt "\x7d()) return HMR_REJECTED;")
  blank

/-- The rules from `idx` on. -/
def emitRules : Nat → List HeaderRule → Emit Unit
  | _, [] => pure ()
  | idx, hr :: rest => do
    emitHeaderRule hr idx
    emitRules (idx + 1) rest

/-- The emitter when all rules have been put out. -/
def emitted (rs : Ruleset) : CppEmitter := ((emitRules 0 rs.headerRules) {}).2

/-! ## The translation unit -/

/-- The name of the module. -/
def moduleName (opts : CppGenOptions) (rs : Ruleset) : Bytes :=
  if !opts.moduleName.isEmpty then opts.moduleName
  else if rs.name.isEmpty then txt "hmr"
  else rs.name

/-- What stands in front of the body. -/
def preamble (opts : CppGenOptions) : Bytes :=
  txt "// Generated by hmr::codegen::CppGenerator " ++ [226, 128, 148]
    ++ txt " the \"GCC approach\" back-end." ++ [lf]
    ++ txt "// HMR DSL -> C++ -> g++ -O3 -shared -fPIC -> .so, ABI-identical to the" ++ [lf]
    ++ txt "// LLVM-direct module (same hmr_apply + hmr_module_info; every hmr_rt_*" ++ [lf]
    ++ txt "// stays undefined and resolves against the host at dlopen). Do not edit;" ++ [lf]
    ++ txt "// regenerate from the ruleset." ++ [lf, lf]
    ++ txt "#include \"" ++ opts.runtimeHeader ++ txt "\"" ++ [lf, lf]
    ++ txt "extern \"C\" int hmr_apply(HmrSipMsg* msg, HmrContext* ctx) \x7b" ++ [lf]
    ++ txt "    (void)msg;" ++ [lf]
    ++ txt "    (void)ctx;" ++ [lf]

/-- A row of the table of patterns. -/
def regexRow (r : Bytes × Bool) : Bytes :=
  txt "    \x7b \"" ++ esc r.1 ++ txt "\", " ++ toDecimal (if r.2 then 1 else 0) ++ txt "u \x7d,"
    ++ [lf]

/-- What stands behind the body. -/
def epilogue (opts : CppGenOptions) (rs : Ruleset) : Bytes :=
  let e := emitted rs
  txt "    return HMR_OK;" ++ [lf]
    ++ txt "\x7d" ++ [lf, lf]
    ++ (if e.regexes.isEmpty then []
      else txt "static const HmrRegexEntry hmr_regexes_[] = \x7b" ++ [lf]
        ++ e.regexes.flatMap regexRow ++ txt "\x7d;" ++ [lf, lf])
    ++ txt "extern \"C\" const HmrModuleInfo hmr_module_info = \x7b" ++ [lf]
    ++ txt "    HMR_ABI_VERSION," ++ [lf]
    ++ txt "    \"" ++ esc (moduleName opts rs) ++ txt "\"," ++ [lf]
    ++ txt "    " ++ toDecimal e.slots.length ++ txt "u," ++ [lf]
    ++ txt "    " ++ toDecimal e.regexes.length ++ txt "u," ++ [lf]
    ++ txt "    " ++ (if e.regexes.isEmpty then txt "nullptr" else txt "hmr_regexes_") ++ txt ","
    ++ [lf] ++ txt "\x7d;" ++ [lf]

/-- **`generate_cpp`.** -/
def generateCpp (rs : Ruleset) (opts : CppGenOptions) : Bytes :=
  preamble opts ++ (emitted rs).body.flatMap (Line.text opts.emitComments) ++ epilogue opts rs

/-- `CppGenStats`. -/
structure CppGenStats where
  moduleName : Bytes
  numSlots : Nat
  numRegexes : Nat
  numHeaderRules : Nat
  deriving DecidableEq, Repr

/-- What `generate_cpp` says of the module. -/
def stats (rs : Ruleset) (opts : CppGenOptions) : CppGenStats where
  moduleName := moduleName opts rs
  numSlots := (emitted rs).slots.length
  numRegexes := (emitted rs).regexes.length
  numHeaderRules := rs.headerRules.length

end CppGenerator

end Hmr
