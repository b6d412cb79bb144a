import Hmr.Emission

/-!
# The program in the generated C++

What `generate_cpp` puts out is a small part of C++: calls of the runtime, `return`s, some
of them behind a condition, and lambdas, which are called where they stand and whose
`true` is passed on. Here is that part as a language (`Cpp.Body`), with its meaning and
its text; and the functions of the emitter once more, as ones that put out a program.

A lambda has the temporaries of what it stands in, and its own ones are gone behind it.
One that is not left by a `return` has no meaning. In C++ that is undefined, so it has to
be shown that it does not happen.

The functions are written as in the emitter of the text, with the same calls in the same
order, so that each can be compared with its text (`CppRendering`) and with its meaning
(`CppMeaning`). The names of rules are no part of the language: in the text they are
comments, and whether these are read as such is the question of `CppComments`.
-/

namespace Cpp

open Hmr

/-- What is asked before a `return false`. -/
inductive Cond
  /-- The call is not zero (`true`), or zero (`false`). -/
  | call (c : CodeCall .flag) (holds : Bool)
  /-- None of the methods is this one. -/
  | noMethod (method : Arg) (methods : List Bytes)

/-- **Statements.** -/
inductive Body
  | done
  | code (i : Instr) (rest : Body)
  /-- `if (…) return false;` -/
  | failIf (c : Cond) (rest : Body)
  /-- `return …;` -/
  | ret (b : Bool) (rest : Body)
  /-- A lambda that is called, with a comment in front; its `true` is passed on. -/
  | lambda (note : Bytes) (inner rest : Body)

/-- How statements end. -/
inductive Outcome
  /-- There is no telling. -/
  | stuck
  /-- At their end, with these temporaries. -/
  | fell (e : Temps)
  | returned (b : Bool)

namespace Body

/-- One after the other. -/
def append : Body → Body → Body
  | done, b => b
  | code i rest, b => code i (rest.append b)
  | failIf c rest, b => failIf c (rest.append b)
  | ret v rest, b => ret v (rest.append b)
  | lambda n inner rest, b => lambda n inner (rest.append b)

/-- Straight-line code. -/
def ofInstrs (is : List Instr) : Body := is.foldr code done

/-! ## Meaning -/

end Body

/-- The condition is decided. -/
def Cond.eval (lit : Literals) (e : Temps) : Cond → RtProg Nat Nat (Option Bool)
  | call c holds =>
    match c.eval lit e with
    | none => pure none
    | some c => do
      let b ← Prog.perform c
      pure (some (b == holds))
  | noMethod m ms => pure do
    let x ← m.eval lit e
    let ys ← ms.mapM lit
    some !(ys.any fun y => Rt.strEq x y true)

/-- **Statements are executed.** -/
def Body.run (lit : Literals) : Body → Temps → RtProg Nat Nat Outcome
  | done, e => pure (.fell e)
  | code i rest, e => do
    match ← i.step lit e with
    | none => pure .stuck
    | some e' => rest.run lit e'
  | failIf c rest, e => do
    match ← c.eval lit e with
    | none => pure .stuck
    | some true => pure (.returned false)
    | some false => rest.run lit e
  | ret b _, _ => pure (.returned b)
  | lambda _ inner rest, e => do
    match ← inner.run lit e with
    | .returned true => pure (.returned true)
    | .returned false => rest.run lit e
    | _ => pure .stuck

/-! ## Text -/

open CppGenerator

/-- An operand. -/
def argText : Arg → Bytes
  | .lit s => strLit s
  | .temp n => txt "t" ++ Lowering.toDecimal n

/-- A call. -/
def callText : ∀ {i : RetTy}, CodeCall i → Bytes
  | _, .getHeader n => txt "hmr_rt_get_header(msg, " ++ argText n ++ txt ")"
  | _, .setHeader n v =>
    txt "hmr_rt_set_header(msg, ctx, " ++ argText n ++ txt ", " ++ argText v ++ txt ")"
  | _, .addHeader n v =>
    txt "hmr_rt_add_header(msg, ctx, " ++ argText n ++ txt ", " ++ argText v ++ txt ")"
  | _, .deleteHeader n => txt "hmr_rt_delete_header(msg, " ++ argText n ++ txt ")"
  | _, .getMethod => txt "hmr_rt_get_method(msg)"
  | _, .isRequest => txt "hmr_rt_is_request(msg)"
  | _, .hmrMatch t x p r =>
    txt "hmr_rt_match(ctx, " ++ matchEnum t ++ txt ", " ++ argText x ++ txt ", " ++ argText p
      ++ txt ", " ++ uintLit r ++ txt ")"
  | _, .getCapture g => txt "hmr_rt_get_capture(ctx, " ++ uintLit g ++ txt ")"
  | _, .getVar v => txt "hmr_rt_get_var(ctx, " ++ varEnum v ++ txt ")"
  | _, .store k v => txt "hmr_rt_store(ctx, " ++ uintLit k ++ txt ", " ++ argText v ++ txt ")"
  | _, .load k => txt "hmr_rt_load(ctx, " ++ uintLit k ++ txt ")"
  | _, .valReset => txt "hmr_rt_val_reset(ctx)"
  | _, .valAppendLit s => txt "hmr_rt_val_append_lit(ctx, " ++ argText s ++ txt ")"
  | _, .valAppendVar v => txt "hmr_rt_val_append_var(ctx, " ++ varEnum v ++ txt ")"
  | _, .valAppendCapture g => txt "hmr_rt_val_append_capture(ctx, " ++ uintLit g ++ txt ")"
  | _, .valAppendSlot k => txt "hmr_rt_val_append_slot(ctx, " ++ uintLit k ++ txt ")"
  | _, .valFinish => txt "hmr_rt_val_finish(ctx)"
  | _, .uriGet v e => txt "hmr_rt_uri_get(ctx, " ++ argText v ++ txt ", " ++ uriEnum e ++ txt ")"
  | _, .uriSet v e n =>
    txt "hmr_rt_uri_set(ctx, " ++ argText v ++ txt ", " ++ uriEnum e ++ txt ", " ++ argText n
      ++ txt ")"
  | _, .log m => txt "hmr_rt_log(ctx, " ++ argText m ++ txt ")"
  | _, .reject c m =>
    txt "hmr_rt_reject(ctx, " ++ uintLit c ++ txt ", " ++ argText m ++ txt ")"

/-- An instruction. -/
def instrText : Instr → Bytes
  | .bind t c => txt "const HmrStr " ++ argText (.temp t) ++ txt " = " ++ callText c ++ txt ";"
  | .call c => callText c ++ txt ";"
  | .name t s => txt "const HmrStr " ++ argText (.temp t) ++ txt " = " ++ strLit s ++ txt ";"

/-- A condition. -/
def Cond.text : Cond → Bytes
  | call c holds => callText c ++ (if holds then txt " != 0" else txt " == 0")
  | noMethod m ms =>
    txt "!(" ++ (txt " || ").intercalate (ms.map fun x =>
      txt "hmr_rt_str_eq(" ++ argText m ++ txt ", " ++ strLit x ++ txt ", 1) != 0") ++ txt ")"

/-- The end of a lambda: what its `true` is for what it stands in. -/
def closeText (indent : Nat) : Bytes :=
  if indent = 1 then txt "\x7d()) return HMR_REJECTED;" else txt "\x7d()) return true;"

/-- **The lines of statements**; behind the lambda of a header rule there is an empty one. -/
def Body.lines : Nat → Body → List Line
  | _, done => []
  | n, code i rest => .code n (instrText i) :: rest.lines n
  | n, failIf c rest => .code n (txt "if (" ++ c.text ++ txt ") return false;") :: rest.lines n
  | n, ret b rest => .code n (if b then txt "return true;" else txt "return false;") :: rest.lines n
  | n, lambda note inner rest =>
    .comment n note :: .code n ifLambda :: inner.lines (n + 1)
      ++ .code n (closeText n) :: (if n = 1 then [.code 0 []] else []) ++ rest.lines n

end Cpp

namespace Hmr

namespace CppProgram

open Cpp

/-- The numbers, and the statements so far. -/
structure State where
  numbers : Numbers := {}
  body : Body := .done

/-- Emission of statements. -/
abbrev CppM : Type → Type := StateM State

/-- A statement is put out. -/
def put (b : Body) : CppM Unit := fun s => ((), { s with body := s.body.append b })

/-- Straight-line code is put out. -/
def inline {α : Type} (x : CodeM α) : CppM α := fun s =>
  let (a, c) := x ⟨s.numbers, []⟩
  (a, { numbers := c.toNumbers, body := s.body.append (.ofInstrs c.instrs) })

/-- A lambda is put out. -/
def lambda (note : Bytes) (inner : CppM Unit) : CppM Unit := fun s =>
  let ((), c) := inner { s with body := .done }
  ((), { numbers := c.numbers, body := s.body.append (.lambda note c.body .done) })

/-- **`emit_match_guard`.** -/
def emitMatchGuard (cmp : ComparisonType) (mvt : MatchValType) (mv : Value) (subject : Arg) :
    CppM Unit :=
  if Meaning.alwaysHolds mv then pure ()
  else do
    let call ← inline (Emission.matchCall cmp mvt mv subject)
    put (.failIf (.call call mv.negated) .done)

/-- An action; it returns `true` where it terminates its rule. -/
def branch (action : CodeM Bool) : CppM Bool := do
  let terminated ← inline action
  if terminated then
    put (.ret true .done)
    pure true
  else pure false

/-- The lambda of an element rule. -/
def emitElement (hr : HeaderRule) (name : Arg) (er : ElementRule) (elem : HmrUriElement) :
    CppM Unit :=
  lambda (CppGenerator.elementNote er) do
    let hv ← inline (Emission.bindTemp (.getHeader name))
    let ev ← inline (Emission.emitElementValue hv elem)
    emitMatchGuard er.comparison er.matchValType er.matchValue ev
    let terminated ← branch (Emission.emitElementAction hr er elem name hv ev)
    if terminated then pure () else put (.ret false .done)

/-- The loop of `emit_element_rules`. -/
def emitElements (hr : HeaderRule) (name : Arg) : List ElementRule → CppM Unit
  | [] => pure ()
  | er :: rest =>
    match Lowering.uriElement er.type with
    | none => emitElements hr name rest
    | some elem => do
      emitElement hr name er elem
      emitElements hr name rest

/-- **`emit_element_rules`.** -/
def emitElementRules (hr : HeaderRule) : CppM Unit := do
  let name ← inline (Emission.nameTemp hr.headerName)
  emitElements hr name hr.elementRules

/-- The guard by message type. -/
def emitMsgTypeGuard (hr : HeaderRule) : CppM Unit :=
  match hr.msgType with
  | .request => put (.failIf (.call .isRequest false) .done)
  | .reply => put (.failIf (.call .isRequest true) .done)
  | _ => pure ()

/-- The guard by method. -/
def emitMethodGuard (hr : HeaderRule) : CppM Unit :=
  if hr.hasMethodFilter then do
    let method ← inline (Emission.bindTemp .getMethod)
    put (.failIf (.noMethod method hr.methods) .done)
  else pure ()

/-- **`emit_header_rule`.** -/
def emitHeaderRule (hr : HeaderRule) (idx : Nat) : CppM Unit :=
  lambda (CppGenerator.headerNote hr idx) do
    emitMsgTypeGuard hr
    emitMethodGuard hr
    let hv ← inline (Emission.emitFetch hr)
    emitMatchGuard hr.comparison .any hr.matchValue (hv.getD (.lit []))
    let terminated ← branch (Emission.emitHeaderAction hr idx hv)
    if !terminated && !hr.elementRules.isEmpty then emitElementRules hr
    if terminated then pure () else put (.ret false .done)

/-- The rules from `idx` on. -/
def emitRules : Nat → List HeaderRule → CppM Unit
  | _, [] => pure ()
  | idx, hr :: rest => do
    emitHeaderRule hr idx
    emitRules (idx + 1) rest

/-- What has been put out for a ruleset. -/
def emitted (rs : Ruleset) : State := ((emitRules 0 rs.headerRules) {}).2

/-- **`hmr_apply`**: the rules, and `return HMR_OK` behind them. -/
def apply (lit : Literals) (rs : Ruleset) : RtProg Nat Nat (Option HmrVerdict) := do
  match ← (emitted rs).body.run lit fun _ => none with
  | .fell _ => pure (some .ok)
  | .returned true => pure (some .rejected)
  | _ => pure none

end CppProgram

end Hmr
