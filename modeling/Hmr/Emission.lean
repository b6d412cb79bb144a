import Hmr.CppEmitter
import Hmr.Keys
import Mathlib.Logic.Function.Basic

/-!
# Straight-line code

Both code generators put out the same calls in the same order; what differs is how they
branch. The calls are modelled once. A string operand is a literal or a temporary, a slot
and a regex is its number, and an instruction is a call whose answer is bound to a
temporary, or one that answers nothing. Emission (`CodeM`) appends instructions, and hands
out the numbers: of temporaries, of slots and of regexes.

What a literal denotes is a parameter (`Instr.step`). A view of a constant has a 32-bit
length, whatever the text; an `HmrStr` that is written out in C++ has one that the
compiler accepts.

Code is run with the temporaries it has been given so far, and is stuck where it reads one
that is not there. That generated code never is follows from what is proved of it
(`Codes`), and is no part of what it means. The functions have the names that the two
generators have for them, and where one of these does something the other does not, the
difference is in the modules about it.
-/

namespace Hmr

/-! ## Instructions -/

/-- A string that is passed to a call. -/
inductive Arg
  | lit (text : Bytes)
  | temp (n : Nat)
  deriving DecidableEq, Repr

namespace RtCall

variable {V V' S R : Type}

/-- The call with its operands read, where they all can be. -/
def traverse (v : V → Option V') : ∀ i, RtCall V S R i → Option (RtCall V' S R i)
  | _, getHeader n => return getHeader (← v n)
  | _, setHeader n x => return setHeader (← v n) (← v x)
  | _, addHeader n x => return addHeader (← v n) (← v x)
  | _, deleteHeader n => return deleteHeader (← v n)
  | _, getMethod => some getMethod
  | _, isRequest => some isRequest
  | _, hmrMatch t x p i => return hmrMatch t (← v x) (← v p) i
  | _, getCapture i => some (getCapture i)
  | _, getVar i => some (getVar i)
  | _, store k x => return store k (← v x)
  | _, load k => some (load k)
  | _, valReset => some valReset
  | _, valAppendLit x => return valAppendLit (← v x)
  | _, valAppendVar i => some (valAppendVar i)
  | _, valAppendCapture i => some (valAppendCapture i)
  | _, valAppendSlot k => some (valAppendSlot k)
  | _, valFinish => some valFinish
  | _, uriGet x e => return uriGet (← v x) e
  | _, uriSet x e n => return uriSet (← v x) e (← v n)
  | _, log x => return log (← v x)
  | _, reject c x => return reject c (← v x)

end RtCall

/-- **A call as it is put out.** -/
abbrev CodeCall : RetTy → Type := RtCall Arg Nat Nat

/-- **An instruction.** -/
inductive Instr
  /-- A temporary is what a call answers. -/
  | bind (t : Nat) (c : CodeCall .str)
  /-- A call that answers nothing. -/
  | call (c : CodeCall .unit)
  /-- A temporary is a text. -/
  | name (t : Nat) (text : Bytes)

/-- What the temporaries are. -/
abbrev Temps : Type := Nat → Option Bytes

/-- What a literal denotes. -/
abbrev Literals : Type := Bytes → Option Bytes

/-- A view of a constant: its length has 32 bits. -/
def clipped : Literals := fun s => some (clip s)

/-- What an operand denotes. -/
def Arg.eval (lit : Literals) (e : Temps) : Arg → Option Bytes
  | .lit s => lit s
  | .temp n => e n

/-- The call on what its operands denote. -/
def CodeCall.eval (lit : Literals) (e : Temps) {i : RetTy} (c : CodeCall i) :
    Option (RtCall Bytes Nat Nat i) :=
  c.traverse (Arg.eval lit e)

namespace Instr

/-- **An instruction is executed.** -/
def step (lit : Literals) : Instr → Temps → RtProg Nat Nat (Option Temps)
  | bind t c, e =>
    match CodeCall.eval lit e c with
    | none => pure none
    | some c => do
      let r ← Prog.perform c
      pure (some (Function.update e t (some r)))
  | call c, e =>
    match CodeCall.eval lit e c with
    | none => pure none
    | some c => do
      Prog.perform c
      pure (some e)
  | name t s, e => pure ((lit s).map fun b => Function.update e t (some b))

/-- Instructions are executed one after the other. -/
def run (lit : Literals) : List Instr → Temps → RtProg Nat Nat (Option Temps)
  | [], e => pure (some e)
  | i :: is, e => do
    match ← i.step lit e with
    | none => pure none
    | some e' => run lit is e'

end Instr

/-! ## Emission -/

/-- **The numbers that have been given out.** -/
structure Numbers where
  /-- The next temporary. -/
  temp : Nat := 0
  /-- The regexes and the slots. -/
  symbols : SymbolTable := {}
  deriving DecidableEq, Repr

/-- The numbers, and the instructions so far. -/
structure Code extends Numbers where
  instrs : List Instr := []

/-- Emission of straight-line code. -/
abbrev CodeM : Type → Type := StateM Code

namespace Emission

open CppGenerator (numberOf)

/-- The instruction is put out. -/
def put (i : Instr) : CodeM Unit := fun s => ((), { s with instrs := s.instrs ++ [i] })

/-- A call that answers nothing. -/
def call (c : CodeCall .unit) : CodeM Unit := put (.call c)

/-- A number for a temporary. -/
def nextTemp : CodeM Nat := fun s => (s.temp, { s with temp := s.temp + 1 })

/-- What a call answers. -/
def bindTemp (c : CodeCall .str) : CodeM Arg := do
  let t ← nextTemp
  put (.bind t c)
  pure (.temp t)

/-- A text by a name. -/
def nameTemp (text : Bytes) : CodeM Arg := do
  let t ← nextTemp
  put (.name t text)
  pure (.temp t)

/-- `add_regex`. -/
def addRegex (pattern : Bytes) (ci : Bool) : CodeM Nat := fun s =>
  ((numberOf s.symbols.regexes (pattern, ci)).1,
    { s with symbols :=
      { s.symbols with regexes := (numberOf s.symbols.regexes (pattern, ci)).2 } })

/-- `slot_for`. -/
def slotFor (name : Bytes) : CodeM Nat := fun s =>
  ((numberOf s.symbols.slots name).1,
    { s with symbols := { s.symbols with slots := (numberOf s.symbols.slots name).2 } })

/-! ### Values and guards -/

/-- A reference by itself. -/
def emitRef (r : ValueRef) : CodeM Arg :=
  match r.kind with
  | .variable => bindTemp (.getVar (Lowering.variableId r.name))
  | .capture => bindTemp (.getCapture (Meaning.refGroup r))
  | .ruleRef => do
    let slot ← slotFor (Meaning.refSlot r)
    bindTemp (.load slot)

/-- A segment of a value, appended to the scratch text. -/
def emitSegment : ValueSegment → CodeM Unit
  | .literal s => if s.isEmpty then pure () else call (.valAppendLit (.lit s))
  | .ref r =>
    match r.kind with
    | .variable => call (.valAppendVar (Lowering.variableId r.name))
    | .capture => call (.valAppendCapture (Meaning.refGroup r))
    | .ruleRef => do
      let slot ← slotFor (Meaning.refSlot r)
      call (.valAppendSlot slot)

/-- The segments of a value, in order. -/
def emitSegments : List ValueSegment → CodeM Unit
  | [] => pure ()
  | s :: rest => do
    emitSegment s
    emitSegments rest

/-- **`emit_value`.** -/
def emitValue (v : Value) : CodeM Arg :=
  if v.isEmpty then pure (.lit [])
  else if v.isPureLiteral then pure (.lit v.literalText)
  else match v.singleRef? with
    | some r => emitRef r
    | none => do
      call .valReset
      emitSegments v.segments
      bindTemp .valFinish

/-- What a log or a reject says: the value, or the name. -/
def emitMessage (name : Bytes) (v : Value) : CodeM Arg :=
  if v.isEmpty then pure (.lit name) else emitValue v

/-- The call of `emit_match_guard`. -/
def matchCall (cmp : ComparisonType) (mvt : MatchValType) (mv : Value) (subject : Arg) :
    CodeM (CodeCall .flag) := do
  let pattern := Meaning.patternOf mv
  let (t, regexId) ←
    if Lowering.isPattern cmp then do
      let id ← addRegex pattern (Lowering.isCaseInsensitive cmp)
      pure (HmrMatchType.regex, id)
    else pure (Meaning.literalMatch cmp mvt pattern, 0)
  pure (.hmrMatch t subject (.lit pattern) regexId)

/-! ### Actions -/

/-- The groups of a pattern-rule `store`: how many from `g` on. -/
def emitGroups (rule : Bytes) : Nat → Nat → CodeM Unit
  | 0, _ => pure ()
  | n + 1, g => do
    let cap ← bindTemp (.getCapture g)
    let slot ← slotFor (Lowering.captureSlotKey rule g)
    call (.store slot cap)
    emitGroups rule n (g + 1)

/-- The header value, if the guard or the action looks at it. -/
def emitFetch (hr : HeaderRule) : CodeM (Option Arg) :=
  if !hr.matchValue.isEmpty || hr.action = .store then do
    let hv ← bindTemp (.getHeader (.lit hr.headerName))
    pure (some hv)
  else pure none

/-- **`emit_header_action`**, up to its branch; whether it terminates the rule. -/
def emitHeaderAction (hr : HeaderRule) (idx : Nat) (hv : Option Arg) : CodeM Bool :=
  let name := Arg.lit hr.headerName
  match hr.action with
  | .add => do
    let v ← emitValue hr.newValue
    call (.addHeader name v)
    pure false
  | .replace | .manipulate =>
    if !hr.newValue.isEmpty && hr.elementRules.isEmpty then do
      let v ← emitValue hr.newValue
      call (.setHeader name v)
      pure false
    else pure false
  | .delete | .deleteHeader => do
    call (.deleteHeader name)
    pure false
  | .store =>
    let rule := Meaning.storeName hr idx
    if Lowering.isPattern hr.comparison then do
      let ngroups := Lowering.countCapturingGroups (Meaning.patternOf hr.matchValue)
      emitGroups rule (ngroups + 1) 0
      pure false
    else do
      let v ← match hv with
        | some hv => pure hv
        | none => bindTemp (.getHeader name)
      let slot ← slotFor rule
      call (.store slot v)
      pure false
  | .log => do
    let v ← emitMessage hr.name hr.newValue
    call (.log v)
    pure false
  | .reject => do
    let v ← emitMessage hr.name hr.newValue
    call (.reject 403 v)
    pure true
  | _ => pure false

/-- The element, of the header value `hv`. -/
def emitElementValue (hv : Arg) (elem : HmrUriElement) : CodeM Arg :=
  if elem = .whole then pure hv else bindTemp (.uriGet hv elem)

/-- The action of an element rule, whose element is `ev`, in the header `hv`, up to its
branch; whether it terminates the rule. -/
def emitElementAction (hr : HeaderRule) (er : ElementRule) (elem : HmrUriElement)
    (name hv ev : Arg) : CodeM Bool :=
  match er.action with
  | .replace => do
    let nv ← emitValue er.newValue
    if elem = .whole then
      call (.setHeader name nv)
      pure false
    else
      let ns ← bindTemp (.uriSet hv elem nv)
      call (.setHeader name ns)
      pure false
  | .deleteElement =>
    if elem = .whole then do
      call (.deleteHeader name)
      pure false
    else do
      let ns ← bindTemp (.uriSet hv elem (.lit []))
      call (.setHeader name ns)
      pure false
  | .store => do
    let slot ← slotFor (Meaning.elementSlot hr er)
    call (.store slot ev)
    pure false
  | .reject => do
    let v ← emitMessage er.name er.newValue
    call (.reject 403 v)
    pure true
  | _ => pure false

end Emission

end Hmr
