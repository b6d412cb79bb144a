import Hmr.Keys

/-!
# Rules with early returns

The meaning of a rule is written as nested choices: where a guard fails, nothing more is
done. Code generators write it as a sequence that is left early. A guard that fails goes
on behind the rule, a reject to the end of all, and of an element rule, the element rules
behind it are what a failed guard goes on to.

Here a rule is that sequence (`Meaning.ruleSteps`), in a monad with two exits. It is the
rule (`Meaning.flow_ruleSteps`), so a code generator has only to be right about a
sequence. Both back-ends use it: the one puts `return false` and `return true` for the
exits and a lambda for a scope, the other one jumps and a block.

That it is the rule is shown a combinator at a time. `flow` turns the way a sequence ends
into what the walk over the rules is told, and what it does to a guard or to a scope is to
make it a choice again (`flow_check_bind`, `flow_scope_bind`). Then the rules are gone
through once.

The code generators number what is looked up in tables, and put these numbers in the place
of symbols. That is done to a program, and it goes past the exits as well
(`run_check_bind`, `run_scope_bind`).
-/

namespace Hmr

/-- How the code of a rule is left before its end. -/
inductive Exit
  /-- On to what comes behind. -/
  | skip
  /-- The packet is rejected. -/
  | reject
  deriving DecidableEq, Repr

/-- **A program that can be left early.** -/
abbrev ExitProg (β : Type) : Type := ExceptT Exit SymProg β

namespace Meaning

/-- A program that is never left early. -/
def always {β : Type} (p : SymProg β) : ExitProg β := ExceptT.lift p

/-- A guard: where it fails, the code is left. -/
def check (p : SymProg Bool) : ExitProg Unit := do
  if ← always p then pure () else throw .skip

/-- What may be left is skipped, and it is gone on behind it. -/
def scope (p : ExitProg Unit) : ExitProg Unit :=
  ExceptT.mk do
    match ← p.run with
    | .error .reject => pure (.error .reject)
    | _ => pure (.ok ())

/-- An element rule that is about `elem`. -/
def elementSteps (hr : HeaderRule) (er : ElementRule) (elem : HmrUriElement) :
    ExitProg Unit := do
  let hv ← always (callProg _ (.getHeader (clip hr.headerName)))
  let ev ← always (elementValue callProg hv elem)
  check (guard callProg er.comparison er.matchValType er.matchValue ev)
  match ← always (elementAction callProg hr er elem hv ev) with
  | .rejected => throw .reject
  | .continue => pure ()

/-- Element rules. -/
def elementRulesSteps (hr : HeaderRule) : List ElementRule → ExitProg Unit
  | [] => pure ()
  | er :: rest =>
    match Lowering.uriElement er.type with
    | none => elementRulesSteps hr rest
    | some elem => do
      scope (elementSteps hr er elem)
      elementRulesSteps hr rest

/-- The action of a header rule. -/
def headerActionSteps (idx : Nat) (hr : HeaderRule) (hv : Bytes) : ExitProg Unit := do
  if ← always (headerAction callProg (store callProg idx) hr hv) then throw .reject
  else pure ()

/-- **A header rule**: the guards, the action, the element rules. -/
def ruleSteps (idx : Nat) (hr : HeaderRule) : ExitProg Unit := do
  check (msgTypeGuard callProg hr.msgType)
  check (methodGuard callProg hr.methods)
  let hv ← always (fetchHeader callProg hr)
  check (guard callProg hr.comparison .any hr.matchValue hv)
  headerActionSteps idx hr hv
  elementRulesSteps hr hr.elementRules

/-- **The rules** from `idx` on. -/
def rulesSteps : Nat → List HeaderRule → ExitProg Unit
  | _, [] => pure ()
  | idx, hr :: rest => do
    scope (ruleSteps idx hr)
    rulesSteps (idx + 1) rest

/-- What the walk is told. -/
def flow (p : ExitProg Unit) : SymProg Flow := do
  match ← p.run with
  | .error .reject => pure .rejected
  | _ => pure .continue

/-- What the caller is told. -/
def verdict (p : ExitProg Unit) : SymProg HmrVerdict := do
  match ← p.run with
  | .error .reject => pure .rejected
  | _ => pure .ok

/-! ## The same program -/

section
variable {β : Type}

/-- What is never left goes on. -/
theorem flow_always_bind (p : SymProg β) (f : β → ExitProg Unit) :
    flow (always p >>= f) = p >>= fun b => flow (f b) := by
  unfold flow always
  rw [ExceptT.run_bind, ExceptT.run_lift, bind_map_left, bind_assoc]

/-- **A guard is a choice.** -/
theorem flow_check_bind (p : SymProg Bool) (f : ExitProg Unit) :
    flow (check p >>= fun _ => f) = p >>= fun b => if b then flow f else pure .continue := by
  rw [check, bind_assoc, flow_always_bind]
  refine congrArg _ (funext fun b => ?_)
  cases b <;> rfl

/-- **A scope** is gone on behind, unless it is left by a reject. -/
theorem flow_scope_bind (p f : ExitProg Unit) :
    flow (scope p >>= fun _ => f) = flow p >>= fun w =>
      match w with
      | .rejected => pure .rejected
      | .continue => flow f := by
  unfold flow scope
  rw [ExceptT.run_bind, ExceptT.run_mk, bind_assoc, bind_assoc, bind_assoc]
  refine congrArg _ (funext fun o => ?_)
  cases o with
  | ok u => rfl
  | error x => cases x <;> rfl

end

/-- An element rule is its guard and its action. -/
theorem flow_elementSteps (hr : HeaderRule) (er : ElementRule) (elem : HmrUriElement)
    (h : Lowering.uriElement er.type = some elem) :
    flow (elementSteps hr er elem) = elementRule callProg (guard callProg) hr er := by
  unfold elementSteps elementRule
  rw [h]
  dsimp only
  rw [flow_always_bind]
  refine congrArg _ (funext fun hv => ?_)
  rw [flow_always_bind]
  refine congrArg _ (funext fun ev => ?_)
  rw [flow_check_bind]
  refine congrArg _ (funext fun ok => ?_)
  -- The two are the same up to the guard; behind it they branch alike.
  cases ok with
  | false => rfl
  | true =>
    rw [if_pos rfl, if_pos rfl, flow_always_bind]
    refine (congrArg _ (funext fun w => ?_)).trans (bind_pure _)
    cases w <;> rfl

/-- Element rules, each of which may be skipped. -/
theorem flow_elementRulesSteps (hr : HeaderRule) (ers : List ElementRule) :
    flow (elementRulesSteps hr ers) = elementRules callProg (guard callProg) hr ers := by
  induction ers with
  | nil => rfl
  | cons er ers ih =>
    rw [elementRulesSteps, elementRules]
    cases h : Lowering.uriElement er.type with
    | none =>
      rw [elementRule, h]
      exact ih
    | some elem =>
      dsimp only
      have hscope := flow_scope_bind (elementSteps hr er elem) (elementRulesSteps hr ers)
      rw [flow_elementSteps hr er elem h, ih] at hscope
      exact hscope

/-- **The sequence is the rule.** -/
theorem flow_ruleSteps (idx : Nat) (hr : HeaderRule) :
    flow (ruleSteps idx hr) = rule callProg idx hr := by
  unfold ruleSteps rule headerRule fires
  rw [flow_check_bind, bind_assoc]
  -- guard after guard, and at each one that fails the rule is left
  refine congrArg _ (funext fun isType => ?_)
  cases isType with
  | false => rfl
  | true =>
    rw [if_pos rfl, if_pos rfl, flow_check_bind, bind_assoc]
    refine congrArg _ (funext fun isMethod => ?_)
    cases isMethod with
    | false => rfl
    | true =>
      rw [if_pos rfl, if_pos rfl, flow_always_bind, bind_assoc]
      refine congrArg _ (funext fun hv => ?_)
      rw [flow_check_bind, bind_assoc]
      refine congrArg _ (funext fun ok => ?_)
      cases ok with
      | false => rfl
      | true =>
        rw [if_pos rfl, if_pos rfl, pure_bind, headerActionSteps, bind_assoc, flow_always_bind]
        refine congrArg _ (funext fun rejects => ?_)
        cases rejects with
        | true => rfl
        | false => exact flow_elementRulesSteps hr _

/-- **The sequences of the rules are the program of the ruleset.** -/
theorem verdict_rulesSteps (rs : Ruleset) : verdict (rulesSteps 0 rs.headerRules) = program rs := by
  unfold program
  generalize rs.headerRules = hrs
  generalize 0 = idx
  induction hrs generalizing idx with
  | nil => rfl
  | cons hr rest ih =>
    rw [rulesSteps, rulesFrom, ← ih]
    show _ = rule callProg idx hr >>= _
    rw [← flow_ruleSteps]
    unfold verdict flow scope
    rw [ExceptT.run_bind, ExceptT.run_mk, bind_assoc, bind_assoc, bind_assoc]
    refine congrArg _ (funext fun o => ?_)
    cases o with
    | ok u => rfl
    | error x => cases x <;> rfl

/-! ## With numbers put in -/

section
variable {β ε : Type} (f : ∀ i, SymCall i → RtCall Bytes Nat Nat i)

/-- A program that is never left, with numbers put in. -/
theorem run_always_bind (p : SymProg β) (k : Except Exit β → RtProg Nat Nat ε) :
    (always p).run.mapCalls f >>= k = p.mapCalls f >>= fun b => k (.ok b) := by
  rw [always, ExceptT.run_lift, map_eq_pure_bind, Prog.mapCalls_bind, bind_assoc]
  rfl

/-- A guard, with numbers put in. -/
theorem run_check_bind (p : SymProg Bool) (k : Except Exit Unit → RtProg Nat Nat ε) :
    (check p).run.mapCalls f >>= k
      = p.mapCalls f >>= fun b => k (if b then .ok () else .error .skip) := by
  rw [check, ExceptT.run_bind, always, ExceptT.run_lift, bind_map_left,
    Prog.mapCalls_bind, bind_assoc]
  refine congrArg _ (funext fun b => ?_)
  cases b <;> rfl

/-- What is gone on with behind a scope. -/
def behind {γ : Type*} (k : Except Exit Unit → γ) : Except Exit Unit → γ
  | .error .reject => k (.error .reject)
  | _ => k (.ok ())

/-- A scope, with numbers put in. -/
theorem run_scope_bind (p : ExitProg Unit) (k : Except Exit Unit → RtProg Nat Nat ε) :
    (scope p).run.mapCalls f >>= k = p.run.mapCalls f >>= behind k := by
  rw [scope, ExceptT.run_mk, Prog.mapCalls_bind, bind_assoc]
  refine congrArg _ (funext fun o => ?_)
  cases o with
  | ok u => rfl
  | error x => cases x <;> rfl

/-- The rules are not left for something behind them. -/
theorem run_rulesSteps_congr (idx : Nat) (hrs : List HeaderRule)
    {k k' : Except Exit Unit → RtProg Nat Nat ε} (hok : k (.ok ()) = k' (.ok ()))
    (hreject : k (.error .reject) = k' (.error .reject)) :
    (rulesSteps idx hrs).run.mapCalls f >>= k = (rulesSteps idx hrs).run.mapCalls f >>= k' := by
  -- A rule is left for what is behind it, which are the other rules, or for the end.
  induction hrs generalizing idx with
  | nil => exact hok
  | cons hr rest ih =>
    rw [rulesSteps, ExceptT.run_bind, Prog.mapCalls_bind, bind_assoc, bind_assoc, run_scope_bind,
      run_scope_bind]
    refine congrArg _ (funext fun o => ?_)
    cases o with
    | ok u => exact ih (idx + 1)
    | error x =>
      cases x with
      | skip => exact ih (idx + 1)
      | reject => exact hreject

/-- What the rules leave behind is the verdict. -/
def exitVerdict : Except Exit Unit → HmrVerdict
  | .error .reject => .rejected
  | _ => .ok

/-- The program of the ruleset, as sequences that are left early. -/
theorem program_mapCalls (rs : Ruleset) :
    (program rs).mapCalls f
      = (rulesSteps 0 rs.headerRules).run.mapCalls f >>= fun o => pure (exitVerdict o) := by
  rw [← verdict_rulesSteps, verdict, Prog.mapCalls_bind]
  refine congrArg _ (funext fun o => ?_)
  cases o with
  | ok u => rfl
  | error x => cases x <;> rfl

end

end Meaning

end Hmr
