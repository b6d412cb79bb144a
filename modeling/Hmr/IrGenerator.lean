import Hmr.Blocks
import Hmr.Emission

/-!
# The LLVM back-end

`generate_ir` emits one function, `hmr_apply`, in basic blocks. A rule is a stretch of
guards, each of which goes on to a block of its own, or to the block behind the rule
(`rule.cont`); an element rule has such a block, too (`el.cont`). A reject goes to a block
that all rejects share, and that is made when the first one needs it.

What a call returns is a register, a string's or a flag's, which have numbers here. That a
flag is compared with zero is part of the call, and constants are not folded. Names of
registers and blocks are left out, since LLVM makes them different by itself, and blocks
are known by their numbers.

The emitter goes through a ruleset as the source does, with the insertion point as part of
its state, and asks at the end of a rule whether the block it is in has been ended. The
module has the function, and with it the tables that were numbered on the way and the
descriptor that is made of them.
-/

namespace Hmr

namespace IrGenerator

/-- An `i1`. -/
inductive Flag
  | const (b : Bool)
  | reg (n : Nat)
  deriving DecidableEq, Repr

/-- An instruction of the function, other than those that end a block. -/
inductive IrInstr
  /-- A call, unless it answers a flag. -/
  | code (i : Instr)
  /-- A call that answers a flag, compared with zero. -/
  | test (f : Nat) (c : CodeCall .flag)
  /-- `hmr_rt_str_eq`, compared with zero. -/
  | strEq (f : Nat) (a b : Arg) (caseInsensitive : Bool)
  | not (f : Nat) (x : Flag)
  | or (f : Nat) (x y : Flag)

/-- An instruction of the function. -/
abbrev IrOp : Type := Cfg.Op IrInstr Flag HmrVerdict

/-- A function. -/
abbrev IrFunction : Type := Cfg.Graph IrInstr Flag HmrVerdict

/-! ## What a function does -/

/-- The registers. -/
structure IrEnv where
  temps : Temps
  flags : Nat → Option Bool

/-- No register has been set. -/
def IrEnv.empty : IrEnv := ⟨fun _ => none, fun _ => none⟩

/-- The register is set. -/
def IrEnv.setFlag (e : IrEnv) (f : Nat) (b : Bool) : IrEnv :=
  { e with flags := Function.update e.flags f (some b) }

/-- What an `i1` is. -/
def Flag.eval (e : IrEnv) : Flag → Option Bool
  | const b => some b
  | reg n => e.flags n

/-- **What an instruction does.** -/
def IrInstr.step : IrInstr → IrEnv → RtProg Nat Nat (Option IrEnv)
  | code i, e => do
    let o ← i.step clipped e.temps
    pure (o.map fun t => { e with temps := t })
  | test f c, e =>
    match c.eval clipped e.temps with
    | none => pure none
    | some c => do
      let b ← Prog.perform c
      pure (some (e.setFlag f b))
  | strEq f a b ci, e => pure do
    let x ← a.eval clipped e.temps
    let y ← b.eval clipped e.temps
    some (e.setFlag f (Rt.strEq x y ci))
  | not f x, e => pure do
    let b ← x.eval e
    some (e.setFlag f !b)
  | or f x y, e => pure do
    let b ← x.eval e
    let c ← y.eval e
    some (e.setFlag f (b || c))

/-- What instructions do, and how branches are taken. -/
def semantics : Cfg.Semantics (RtCall Bytes Nat Nat) RetTy.den IrInstr Flag IrEnv where
  step := IrInstr.step
  test c e := c.eval e

/-- **`hmr_apply`**, with fuel for so many blocks. -/
def IrFunction.apply (fuel : Nat) (f : IrFunction) : RtProg Nat Nat (Option HmrVerdict) :=
  Cfg.run semantics f fuel 0 IrEnv.empty

/-! ## The emitter -/

/-- **`Emitter`.** -/
structure Emitter where
  function : Cfg.Builder IrInstr Flag HmrVerdict := ⟨[], 0⟩
  numbers : Numbers := {}
  /-- The block of rejects, once there is one. -/
  rejectBb : Option Nat := none

/-- Emission: a result, and the emitter after it. -/
abbrev IrM : Type → Type := StateM Emitter

/-- `block`. -/
def block : IrM Nat := fun s =>
  (s.function.graph.length, { s with function := s.function.newBlock })

/-- `SetInsertPoint`. -/
def setInsertPoint (l : Nat) : IrM Unit := fun s =>
  ((), { s with function := s.function.moveTo l })

/-- An instruction is appended. -/
def append (op : IrOp) : IrM Unit := fun s =>
  ((), { s with function := s.function.emit [op] })

/-- Straight-line code is appended. -/
def inline {α : Type} (x : CodeM α) : IrM α := fun s =>
  let (a, c) := x ⟨s.numbers, []⟩
  (a, { s with
    function := s.function.emit (c.instrs.map fun i => .instr (.code i))
    numbers := c.toNumbers })

/-- An instruction that sets a flag. -/
def flag (i : Nat → IrInstr) : IrM Flag := fun s =>
  (.reg s.numbers.temp, { s with
    function := s.function.emit [.instr (i s.numbers.temp)]
    numbers := { s.numbers with temp := s.numbers.temp + 1 } })

/-- `guard`. -/
def guard (cond : Flag) (skip : Nat) : IrM Unit := do
  let ok ← block
  append (.condBr cond ok skip)
  setInsertPoint ok

/-- `reject_block`. -/
def rejectBlock : IrM Nat := fun s =>
  match s.rejectBb with
  | some l => (l, s)
  | none =>
    (s.function.graph.length,
      { s with function := s.function.newBlock, rejectBb := some s.function.graph.length })

/-! ## Rules -/

/-- **`emit_match_guard`.** -/
def emitMatchGuard (cmp : ComparisonType) (mvt : MatchValType) (mv : Value) (subject : Arg)
    (skip : Nat) : IrM Unit :=
  if Meaning.alwaysHolds mv then pure ()
  else do
    let call ← inline (Emission.matchCall cmp mvt mv subject)
    let cond ← flag (.test · call)
    let cond ← if mv.negated then flag (.not · cond) else pure cond
    guard cond skip

/-- The branch of an action that terminates its rule. -/
def branch (action : CodeM Bool) : IrM Bool := do
  let terminated ← inline action
  if terminated then
    let l ← rejectBlock
    append (.br l)
    pure true
  else pure false

/-- Code that may be left for a block `cont` behind it: the block is made first, and is gone
on with in the end. -/
def withCont (body : Nat → IrM Bool) : IrM Unit := do
  let cont ← block
  let terminated ← body cont
  if terminated then pure () else append (.br cont)
  setInsertPoint cont

/-- The body of the loop of `emit_element_rules`. -/
def emitElement (hr : HeaderRule) (er : ElementRule) (elem : HmrUriElement) : IrM Unit :=
  withCont fun cont => do
    let name := Arg.lit hr.headerName
    -- an element rule before this one may have changed the header
    let hv ← inline (Emission.bindTemp (.getHeader name))
    let ev ← inline (Emission.emitElementValue hv elem)
    emitMatchGuard er.comparison er.matchValType er.matchValue ev cont
    branch (Emission.emitElementAction hr er elem name hv ev)

/-- **`emit_element_rules`.** -/
def emitElementRules (hr : HeaderRule) : List ElementRule → IrM Unit
  | [] => pure ()
  | er :: rest =>
    match Lowering.uriElement er.type with
    | none => emitElementRules hr rest
    | some elem => do
      emitElement hr er elem
      emitElementRules hr rest

/-- The guard by message type. -/
def emitMsgTypeGuard (hr : HeaderRule) (skip : Nat) : IrM Unit :=
  match hr.msgType with
  | .request => do
    let req ← flag (.test · .isRequest)
    guard req skip
  | .reply => do
    let req ← flag (.test · .isRequest)
    let cond ← flag (.not · req)
    guard cond skip
  | _ => pure ()

/-- The methods that are accepted, or-ed onto what is accepted already. -/
def emitMethods (method : Arg) : Flag → List Bytes → IrM Flag
  | acc, [] => pure acc
  | acc, m :: rest => do
    let eq ← flag (.strEq · method (.lit m) true)
    let acc' ← flag (.or · acc eq)
    emitMethods method acc' rest

/-- The guard by method. -/
def emitMethodGuard (hr : HeaderRule) (skip : Nat) : IrM Unit :=
  if hr.hasMethodFilter then do
    let method ← inline (Emission.bindTemp .getMethod)
    let acc ← emitMethods method (.const false) hr.methods
    guard acc skip
  else pure ()

/-- **`emit_header_rule`.** -/
def emitHeaderRule (hr : HeaderRule) (idx : Nat) : IrM Unit :=
  withCont fun cont => do
    emitMsgTypeGuard hr cont
    emitMethodGuard hr cont
    let hv ← inline (Emission.emitFetch hr)
    emitMatchGuard hr.comparison .any hr.matchValue (hv.getD (.lit [])) cont
    let terminated ← branch (Emission.emitHeaderAction hr idx hv)
    if !terminated && !hr.elementRules.isEmpty then emitElementRules hr hr.elementRules
    pure terminated

/-- The rules from `idx` on. -/
def emitRules : Nat → List HeaderRule → IrM Unit
  | _, [] => pure ()
  | idx, hr :: rest => do
    emitHeaderRule hr idx
    emitRules (idx + 1) rest

/-- **`emit`**, up to the descriptor of the module. -/
def emit (rs : Ruleset) : IrM Unit := do
  let entry ← block
  let retOk ← block
  setInsertPoint entry
  emitRules 0 rs.headerRules
  append (.br retOk)
  setInsertPoint retOk
  append (.ret .ok)
  match (← get).rejectBb with
  | some l =>
    setInsertPoint l
    append (.ret .rejected)
  | none => pure ()

/-! ## The module -/

/-- The module that is generated. -/
structure IrModule where
  hmrApply : IrFunction
  hmrModuleInfo : HmrModuleInfo

/-- **`generate_ir`.** -/
def generateIr (rs : Ruleset) : IrModule :=
  let s := ((emit rs) {}).2
  { hmrApply := s.function.graph
    hmrModuleInfo :=
      { name := if rs.name.isEmpty then txt "hmr" else rs.name
        numSlots := s.numbers.symbols.slots.length
        regexes := s.numbers.symbols.regexes } }

end IrGenerator

end Hmr
