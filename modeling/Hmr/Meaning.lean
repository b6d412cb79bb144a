import Hmr.Runtime

/-!
# What a ruleset means

The meaning of a ruleset is a program over the runtime's calls in which a slot is its name
and a regex its pattern. Ids are what a back-end makes of those: an interpreter and two
code generators each number the names and patterns as they meet them, and are right as
long as the program they make is this one with the ids put in.

The walk is written over any monad that can make the calls. In the free monad it *is* the
program (`Meaning.program`); in a monad of partial readings it is a monitor that follows
it. Two places are left open, because the passes change what happens there and nowhere
else: how a guard is evaluated, and where a header-level `store` puts its values.

It is not an abstraction of what the back-ends do: every call is there, in the order in
which they make it, with the strings cut to the lengths of views. What it leaves out is
the numbering and the tables, and how code is generated. Which of the calls may be made is
a matter of the rules alone, and so the keys that are numbered can be read off a ruleset
(`Meaning.keys`).
-/

namespace Hmr

/-- What a rule signals to the walk. -/
inductive Flow
  | continue | rejected
  deriving DecidableEq, Repr

/-- What `hmr_apply` returns. -/
inductive HmrVerdict
  | ok | rejected
  deriving DecidableEq, Repr

/-- A pattern and whether case matters; a guard that is no pattern has no
regex. -/
abbrev RegexKey : Type := Option (Bytes × Bool)

/-- The calls, with slots by name and regexes by pattern. -/
abbrev SymCall : RetTy → Type := RtCall Bytes Bytes RegexKey

/-- A program over those calls. -/
abbrev SymProg (α : Type) : Type := Prog SymCall RetTy.den α

namespace Meaning

/-- The group a reference asks for. -/
def refGroup (r : ValueRef) : Nat := (max 0 r.captureIndex).toNat

/-- The slot a back-reference reads. -/
def refSlot (r : ValueRef) : Bytes :=
  Lowering.captureSlotKey (Lowering.refBaseName r.name) (refGroup r)

/-- The name a header-level `store` stores under: the rule's, or one made from
its position. -/
def storeName (hr : HeaderRule) (idx : Nat) : Bytes :=
  if hr.name.isEmpty then txt "rule" ++ Lowering.toDecimal idx else hr.name

/-- The slot an element-level `store` stores under. -/
def elementSlot (hr : HeaderRule) (er : ElementRule) : Bytes :=
  if er.name.isEmpty then hr.name ++ txt ".el" else er.name

/-- The text a match-value is compared with. -/
def patternOf (mv : Value) : Bytes := if mv.isPureLiteral then mv.literalText else mv.raw

/-- A guard with this match-value compares nothing: there is none, or it is a
`$` expression. -/
def alwaysHolds (mv : Value) : Bool :=
  mv.isEmpty || (!mv.isRegexLiteral && !mv.isPureLiteral)

/-- The matcher of a guard that is no pattern. -/
def literalMatch (cmp : ComparisonType) (mvt : MatchValType) (pattern : Bytes) :
    HmrMatchType :=
  match mvt with
  | .ip => Lowering.ipMatchType pattern
  | .fqdn => .fqdn
  | .any => if Lowering.isCaseInsensitive cmp then .exactCi else .exact

/-- The call a guard makes. -/
def matchCall (cmp : ComparisonType) (mvt : MatchValType) (mv : Value)
    (subject : Bytes) : SymCall .flag :=
  let pattern := patternOf mv
  if Lowering.isPattern cmp then
    .hmrMatch .regex subject (clip pattern) (some (pattern, Lowering.isCaseInsensitive cmp))
  else
    .hmrMatch (literalMatch cmp mvt pattern) subject (clip pattern) none

section
variable {m : Type → Type} [Monad m]

/-- How guards are evaluated. -/
abbrev Guard (m : Type → Type) : Type :=
  ComparisonType → MatchValType → Value → Bytes → m Bool

variable (call : ∀ i, SymCall i → m i.den)

/-! ## Values and guards -/

/-- The reference a value consists of. -/
def refValue (r : ValueRef) : m Bytes :=
  match r.kind with
  | .variable => call _ (.getVar (Lowering.variableId r.name))
  | .capture => call _ (.getCapture (refGroup r))
  | .ruleRef => call _ (.load (refSlot r))

/-- A segment of a value built up in the scratch buffer. -/
def appendSegment : ValueSegment → m Unit
  | .literal text =>
    if text.isEmpty then pure () else call _ (.valAppendLit (clip text))
  | .ref r =>
    match r.kind with
    | .variable => call _ (.valAppendVar (Lowering.variableId r.name))
    | .capture => call _ (.valAppendCapture (refGroup r))
    | .ruleRef => call _ (.valAppendSlot (refSlot r))

/-- The segments of such a value. -/
def appendSegments : List ValueSegment → m Unit
  | [] => pure ()
  | s :: rest => do
    appendSegment call s
    appendSegments rest

/-- **The value of a new-value.** -/
def value (v : Value) : m Bytes :=
  if v.isEmpty then pure []
  else if v.isPureLiteral then pure (clip v.literalText)
  else match v.singleRef? with
    | some r => refValue call r
    | none => do
      call _ .valReset
      appendSegments call v.segments
      call _ .valFinish

/-- The text of a log or a reject: the new-value, or the rule's name. -/
def message (name : Bytes) (v : Value) : m Bytes :=
  if v.isEmpty then pure (clip name) else value call v

/-- **A match guard.** -/
def guard : Guard m := fun cmp mvt mv subject =>
  if alwaysHolds mv then pure true
  else do
    let cond ← call _ (matchCall cmp mvt mv subject)
    pure (if mv.negated then !cond else cond)

/-! ## Element rules -/

/-- The action of an element rule whose guard holds. -/
def elementAction (hr : HeaderRule) (er : ElementRule) (elem : HmrUriElement)
    (hv ev : Bytes) : m Flow :=
  match er.action with
  | .replace => do
    let nv ← value call er.newValue
    if elem = .whole then
      call _ (.setHeader (clip hr.headerName) nv)
      pure .continue
    else
      let v ← call _ (.uriSet hv elem nv)
      call _ (.setHeader (clip hr.headerName) v)
      pure .continue
  | .deleteElement =>
    if elem = .whole then do
      call _ (.deleteHeader (clip hr.headerName))
      pure .continue
    else do
      let v ← call _ (.uriSet hv elem [])
      call _ (.setHeader (clip hr.headerName) v)
      pure .continue
  | .store => do
    call _ (.store (elementSlot hr er) ev)
    pure .continue
  | .reject => do
    let v ← message call er.name er.newValue
    call _ (.reject 403 v)
    pure .rejected
  | _ => pure .continue

/-- The element of a header value. -/
def elementValue (hv : Bytes) (elem : HmrUriElement) : m Bytes :=
  if elem = .whole then pure hv else call _ (.uriGet hv elem)

variable (G : Guard m)

/-- **An element rule**: one about a part no back-end acts on does nothing. -/
def elementRule (hr : HeaderRule) (er : ElementRule) : m Flow :=
  match Lowering.uriElement er.type with
  | none => pure .continue
  | some elem => do
    let hv ← call _ (.getHeader (clip hr.headerName))
    let ev ← elementValue call hv elem
    let ok ← G er.comparison er.matchValType er.matchValue ev
    if ok then elementAction call hr er elem hv ev else pure .continue

/-- Element rules in order; a reject ends them. -/
def elementRules (hr : HeaderRule) : List ElementRule → m Flow
  | [] => pure .continue
  | er :: rest => do
    match ← elementRule call G hr er with
    | .rejected => pure .rejected
    | .continue => elementRules hr rest

/-! ## Header rules -/

/-- The message-type guard. -/
def msgTypeGuard (t : MsgType) : m Bool :=
  match t with
  | .request => call _ .isRequest
  | .reply => do
    let req ← call _ .isRequest
    pure !req
  | _ => pure true

/-- The method guard. -/
def methodGuard (methods : List Bytes) : m Bool :=
  if methods.isEmpty then pure true
  else do
    let method ← call _ .getMethod
    pure (methods.any fun x => Rt.strEq method (clip x) true)

/-- The header value, if the match-guard or the action needs it. -/
def fetchHeader (hr : HeaderRule) : m Bytes :=
  if !hr.matchValue.isEmpty || hr.action = .store then
    call _ (.getHeader (clip hr.headerName))
  else pure []

/-- **The guards of a header rule**: whether it fires, and the header value as
read for it. -/
def fires (hr : HeaderRule) : m (Option Bytes) := do
  if ← msgTypeGuard call hr.msgType then
    if ← methodGuard call hr.methods then
      let hv ← fetchHeader call hr
      if ← G hr.comparison .any hr.matchValue hv then pure (some hv) else pure none
    else pure none
  else pure none

/-- The groups of a pattern-rule `store`: `n` of them, from `g` on. -/
def storeGroups (put : Nat → Bytes → m Unit) : Nat → Nat → m Unit
  | 0, _ => pure ()
  | n + 1, g => do
    let cap ← call _ (.getCapture g)
    put g cap
    storeGroups put n (g + 1)

/-- A header-level `store`: the groups of the last match, or the header
value. -/
def storeAction (put : Nat → Bytes → m Unit) (hr : HeaderRule) (hv : Bytes) : m Unit :=
  if Lowering.isPattern hr.comparison then
    storeGroups call put (Lowering.countCapturingGroups (patternOf hr.matchValue) + 1) 0
  else put 0 hv

/-- Where a header-level `store` puts a group. -/
def storeAt (name : Bytes) (g : Nat) (v : Bytes) : m Unit :=
  call _ (.store (Lowering.captureSlotKey name g) v)

variable (S : HeaderRule → Bytes → m Unit)

/-- **The action of a header rule that fires**; whether it rejects. -/
def headerAction (hr : HeaderRule) (hv : Bytes) : m Bool :=
  match hr.action with
  | .add => do
    let v ← value call hr.newValue
    call _ (.addHeader (clip hr.headerName) v)
    pure false
  | .replace | .manipulate =>
    if !hr.newValue.isEmpty && hr.elementRules.isEmpty then do
      let v ← value call hr.newValue
      call _ (.setHeader (clip hr.headerName) v)
      pure false
    else pure false
  | .delete | .deleteHeader => do
    call _ (.deleteHeader (clip hr.headerName))
    pure false
  | .store => do
    S hr hv
    pure false
  | .log => do
    let v ← message call hr.name hr.newValue
    call _ (.log v)
    pure false
  | .reject => do
    let v ← message call hr.name hr.newValue
    call _ (.reject 403 v)
    pure true
  | _ => pure false

/-- **A header rule**: the guards, the action, the element rules. -/
def headerRule (hr : HeaderRule) : m Flow := do
  match ← fires call G hr with
  | none => pure .continue
  | some hv =>
    if ← headerAction call S hr hv then pure .rejected
    else elementRules call G hr hr.elementRules

end

section
variable {m : Type → Type} [Monad m] (call : ∀ i, SymCall i → m i.den)

/-- A header-level `store` as the rule at position `idx` does it. -/
def store (idx : Nat) (hr : HeaderRule) (hv : Bytes) : m Unit :=
  storeAction call (storeAt call (storeName hr idx)) hr hv

/-- The rule at position `idx`. -/
def rule (idx : Nat) (hr : HeaderRule) : m Flow :=
  headerRule call (guard call) (store call idx) hr

/-- The rules from position `idx` on; a reject ends the walk. -/
def rulesFrom : Nat → List HeaderRule → m HmrVerdict
  | _, [] => pure .ok
  | idx, hr :: rest => do
    match ← rule call idx hr with
    | .rejected => pure .rejected
    | .continue => rulesFrom (idx + 1) rest

end

/-- **The program a ruleset stands for.** -/
def program (rs : Ruleset) : SymProg HmrVerdict :=
  rulesFrom (fun _ => Prog.perform) 0 rs.headerRules

end Meaning

end Hmr
