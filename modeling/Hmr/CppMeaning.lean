import Hmr.Codes
import Hmr.CppComments
import Hmr.CppRendering
import Hmr.EarlyReturns

/-!
# The C++ back-end does what the rules mean

The lambda of a rule is the rule with early returns: `return false` skips what is behind
it, `return true` is a reject, and the end of a lambda that is called where it stands is
where it is gone on. `Returns` relates statements to a part of a rule that may be left
early, as `Codes` does for straight-line code. It is proved of the statements first, then
of guards and actions, and of the rules by the rule of sequence.

What a literal denotes does not matter for this, as long as it is what a view of the
constant does; for an `HmrStr` it is, if its length fits (`CppProgram.apply_decoded`). A
literal that does not fit makes the compiler give up, and is therefore none at all in the
program. It is enough to look at the literals that are in the program, since nothing else
is evaluated (`Cpp.Body.run_congr`).

## The program and the text

The names of rules are no part of the program: they stand in comments. That a compiler
reads the program, and nothing else, when it is given what `generate_cpp` puts out holds
where there are no comments, or none of the names in them is seen
(`CppProgram.tokens_generateCpp`). So the meaning of the program is that of the generated
text for such rulesets, and not for one with a name that ends in a backslash. Both are in
the result: what the compiler reads, and what that does (`CppProgram.apply_hmrStrOf`).
-/

namespace Hmr

namespace Emission

variable {P : Assertion}

/-- A text by a name. -/
theorem codes_nameTemp (s : Bytes) :
    Codes [] P (nameTemp s) (pure ()) fun o _ => o.Is (clip s) := by
  intro g
  refine ⟨[.name g.temp s], rfl, Nat.le_succ _, rfl, fun e he T hT γ k k' hk => ?_⟩
  refine hk () _ (agree_update _ _ _) ⟨Function.update_self .., fun n hn => ?_⟩
  obtain rfl := Arg.temp.inj hn
  exact Nat.lt_succ_self _

end Emission

end Hmr

namespace Cpp.Body

open Hmr

variable {α : Type} {lit : Literals}

/-- Statements behind others are run where those are not left: with the operands that were
computed by then, and only if none of them returned. By induction on the statements in front; a
lambda among them is done with its inner statements before it is asked what it returned. -/
theorem run_append (a b : Body) (e : Temps) (k : Outcome → RtProg Nat Nat α) :
    (a.append b).run lit e >>= k = a.run lit e >>= fun o =>
      match o with
      | .fell e' => b.run lit e' >>= k
      | o => k o := by
  -- What stands behind is reached where the statements in front of it fall through, and not
  -- where they return.
  induction a generalizing e with
  | done => rfl
  | code i rest ih =>
    rw [append, run, run, bind_assoc, bind_assoc]
    refine congrArg _ (funext fun o => ?_)
    cases o with
    | none => rfl
    | some e' => exact ih e'
  | failIf c rest ih =>
    rw [append, run, run, bind_assoc, bind_assoc]
    refine congrArg _ (funext fun o => ?_)
    cases o with
    | none => rfl
    | some b =>
      cases b with
      | true => rfl
      | false => exact ih e
  | ret v rest _ => rfl
  | lambda note inner rest _ ih =>
    rw [append, run, run, bind_assoc, bind_assoc]
    refine congrArg _ (funext fun o => ?_)
    cases o with
    | stuck => rfl
    | fell e' => rfl
    | returned b =>
      cases b with
      | true => rfl
      | false => exact ih e

/-- Statements in front of the same statements. -/
theorem append_cancel {a b c : Body} (h : a.append b = a.append c) : b = c := by
  induction a with
  | done => exact h
  | code i rest ih => exact ih (code.inj h).2
  | failIf cond rest ih => exact ih (failIf.inj h).2
  | ret v rest ih => exact ih (ret.inj h).2
  | lambda note inner rest _ ih => exact ih (lambda.inj h).2.2

/-- Straight-line code is run, or stuck where a literal denotes nothing. -/
theorem run_ofInstrs (is : List Instr) (e : Temps) (k : Outcome → RtProg Nat Nat α) :
    (ofInstrs is).run lit e >>= k = Instr.run lit is e >>= fun o =>
      match o with
      | none => k .stuck
      | some e' => k (.fell e') := by
  induction is generalizing e with
  | nil => rfl
  | cons i is ih =>
    show run lit (code i (ofInstrs is)) e >>= k = _
    rw [run, Instr.run, bind_assoc, bind_assoc]
    refine congrArg _ (funext fun o => ?_)
    cases o with
    | none => rfl
    | some e' => exact ih e'

end Cpp.Body

namespace Hmr

namespace CppProgram

open Cpp

variable {α β γ δ : Type} {ks ks' : List TableKey} {P P' : Assertion}

/-- **What is put out is a part of a rule**, which is left by `return`s: where it relies on
`P`, and on `Q` at its end, and numbers the keys `ks` on the way. -/
def Returns (ks : List TableKey) (P : Assertion) (x : CppM α) (p : ExitProg β)
    (Q : α → β → Assertion) : Prop :=
  ∀ s, ∃ b, (x s).2.body = s.body.append b ∧ s.numbers.temp ≤ (x s).2.numbers.temp
    ∧ (x s).2.numbers.symbols = s.numbers.symbols.addAll ks
    ∧ ∀ e, P.Holds s.numbers e → ∀ T, (x s).2.numbers.symbols.Le T →
      ∀ {γ : Type} (k : Outcome → RtProg Nat Nat γ) (q : Except Exit β → RtProg Nat Nat γ),
        (∀ r e', Agree s.numbers.temp e e' → (Q (x s).1 r).Holds (x s).2.numbers e' →
          k (.fell e') = q (.ok r)) →
        k (.returned false) = q (.error .skip) → k (.returned true) = q (.error .reject) →
        b.run clipped e >>= k = p.run.mapCalls T.resolve >>= q

namespace Returns

variable {x : CppM α} {p : ExitProg β} {Q Q' : α → β → Assertion}

/-- Nothing is put out, and nothing is done. -/
theorem pure {a : α} {b : β} (h : ∀ g e, P.Holds g e → (Q a b).Holds g e) :
    Returns [] P (Pure.pure a) (Pure.pure b) Q := by
  intro s
  refine ⟨.done, (Body.append_done _).symm, Nat.le_refl _, rfl, fun e he T _ γ k q hfell _ _ => ?_⟩
  exact hfell b e (.refl _ _) (h _ _ he)

/-- The keys of a piece, written in another way. -/
theorem keys (h : Returns ks P x p Q) (hks : ks = ks') : Returns ks' P x p Q := hks ▸ h

/-- The program of a piece, written in another way. -/
theorem of_eq {p' : ExitProg β} (h : Returns ks P x p Q) (hp : p = p') : Returns ks P x p' Q :=
  hp ▸ h

/-- **The rule of sequence**, for what may be left early. `R` is what the first piece results
in, whatever has been put out before. -/
theorem bind_of [hβ : Nonempty β] {R : α → Prop} {f : α → CppM γ} {g : β → ExitProg δ}
    {Q' : γ → δ → Assertion} (hx : Returns ks P x p Q) (hR : ∀ s, R (x s).1)
    (hf : ∀ a b, R a → Returns ks' (P.and (Q a b)) (f a) (g b) Q') :
    Returns (ks ++ ks') P (x >>= f) (p >>= g) Q' := by
  intro s
  obtain ⟨b, hb, htemp, hsym, hrun⟩ := hx s
  obtain ⟨b', hb', htemp', hsym', -⟩ := hf (x s).1 hβ.some (hR s) (x s).2
  have hgrow : Numbers.Le s.numbers (x s).2.numbers := ⟨htemp, ks, hsym⟩
  refine ⟨b.append b', ?_, htemp.trans htemp', ?_, fun e he T hT ε k q hfell hskip hrej => ?_⟩
  · rw [← Body.append_assoc, ← hb]
    exact hb'
  · rw [SymbolTable.addAll_append, ← hsym]
    exact hsym'
  · rw [Body.run_append, ExceptT.run_bind, Prog.mapCalls_bind, bind_assoc]
    refine hrun e he T ((SymbolTable.le_addAll _ ks').trans (hsym' ▸ hT)) _ _
      (fun r e' ha hq => ?_) hskip hrej
    obtain ⟨b'', hb'', -, -, hrun'⟩ := hf (x s).1 r (hR s) (x s).2
    obtain rfl : b' = b'' := Body.append_cancel (hb'.symm.trans hb'')
    exact hrun' e' ⟨P.stable hgrow ha he, hq⟩ T hT k q
      (fun r' e'' ha' => hfell r' e'' (ha.trans htemp ha')) hskip hrej

/-- **The rule of sequence**, where the second piece does not depend on what has been put out. -/
theorem bind [Nonempty β] {f : α → CppM γ} {g : β → ExitProg δ} {Q' : γ → δ → Assertion}
    (hx : Returns ks P x p Q) (hf : ∀ a b, Returns ks' (P.and (Q a b)) (f a) (g b) Q') :
    Returns (ks ++ ks') P (x >>= f) (p >>= g) Q' :=
  hx.bind_of (R := fun _ => True) (fun _ => trivial) fun a b _ => hf a b

/-- The program does nothing. -/
theorem silent {f : α → CppM γ} {q : ExitProg δ} {Q : α → Unit → Assertion}
    {Q' : γ → δ → Assertion} (hx : Returns ks P x (Pure.pure ()) Q)
    (hf : ∀ a, Returns ks' (P.and (Q a ())) (f a) q Q') : Returns (ks ++ ks') P (x >>= f) q Q' :=
  hx.bind (g := fun _ => q) fun a _ => hf a

/-- Statements that are not reached. -/
theorem absurd {p' : ExitProg δ} {Q' : α → δ → Assertion} (h : Returns ks P' x p' Q')
    (hP : ∀ g e, ¬ P.Holds g e) : Returns ks P x p Q := by
  intro s
  obtain ⟨b, hb, htemp, hsym, -⟩ := h s
  exact ⟨b, hb, htemp, hsym, fun e he => (hP _ _ he).elim⟩

/-- Nothing is put out where nothing is reached. -/
theorem pure_absurd {a : α} (hP : ∀ g e, ¬ P.Holds g e) : Returns [] P (Pure.pure a) p Q :=
  (Returns.pure (P := P) (b := ()) (Q := fun _ _ => .fact True) fun _ _ _ => trivial).absurd hP

end Returns

/-! ## Statements -/

/-- **Straight-line code.** -/
theorem inline_returns {x : CodeM α} {p : SymProg β} {Q : α → β → Assertion}
    (h : Codes ks P x p Q) : Returns ks P (inline x) (Meaning.always p) Q := by
  intro s
  obtain ⟨is, his, htemp, hsym, hrun⟩ := h ⟨s.numbers, []⟩
  have hbody : (inline x s).2.body = s.body.append (.ofInstrs is) :=
    congrArg (fun l => s.body.append (.ofInstrs l)) his
  refine ⟨_, hbody, htemp, hsym, fun e he T hT γ k q hfell _ _ => ?_⟩
  rw [Body.run_ofInstrs, Meaning.run_always_bind]
  exact hrun e he T hT _ _ hfell

/-- **A guard**: where the condition is so, it is returned. -/
theorem failIf_returns {c : Cond} {p : SymProg Bool}
    (h : ∀ g e T, P.Holds g e → g.symbols.Le T →
      c.eval clipped e = p.mapCalls T.resolve >>= fun b => pure (some !b)) :
    Returns [] P (put (.failIf c .done)) (Meaning.check p) fun _ _ => .fact True := by
  intro s
  refine ⟨_, rfl, Nat.le_refl _, rfl, fun e he T hT γ k q hfell hskip _ => ?_⟩
  rw [Body.run, bind_assoc, h _ e T he hT, bind_assoc, Meaning.run_check_bind]
  refine congrArg _ (funext fun b => ?_)
  cases b with
  | true => exact hfell () e (.refl _ _) trivial
  | false => exact hskip

/-- `return false;` -/
theorem ret_false_returns {Q : Unit → β → Assertion} :
    Returns [] P (put (.ret false .done)) (throw .skip) Q := fun _ =>
  ⟨_, rfl, Nat.le_refl _, rfl, fun _ _ _ _ _ _ _ _ hskip _ => hskip⟩

/-- **A lambda**, which is left by `return`s only. -/
theorem lambda_returns {inner : CppM Unit} {p : ExitProg Unit} (note : Bytes)
    (h : Returns ks P inner (do p; throw .skip) fun _ (_ : Unit) => .fact False) :
    Returns ks P (lambda note inner) (Meaning.scope p) fun _ _ => .fact True := by
  intro s
  obtain ⟨b, hb, htemp, hsym, hrun⟩ := h { s with body := .done }
  have hbody : (lambda note inner s).2.body = s.body.append (.lambda note b .done) :=
    congrArg (fun c => s.body.append (.lambda note c .done)) hb
  refine ⟨_, hbody, htemp, hsym, fun e he T hT γ k q hfell _ hrej => ?_⟩
  rw [Body.run, bind_assoc, Meaning.run_scope_bind]
  refine Eq.trans (hrun e he T hT _ (Meaning.behind q) (fun _ _ _ h => h.elim)
    (hfell () e (.refl _ _) trivial) hrej) ?_
  rw [ExceptT.run_bind, Prog.mapCalls_bind, bind_assoc]
  refine congrArg _ (funext fun o => ?_)
  cases o with
  | ok u => rfl
  | error x => cases x <;> rfl

/-- **The action of a rule, and its `return`.** -/
theorem branch_returns_of [Nonempty β] {action : CodeM Bool} {p : SymProg β} {r : β → Bool}
    (h : Codes ks P action p fun t b => .fact (t = r b)) :
    Returns ks P (branch action)
      (do let b ← Meaning.always p; if r b then throw .reject else pure ())
      fun t _ => .fact (t = false) := by
  have hreturn (P : Assertion) : Returns [] P (do put (.ret true .done); pure true)
      (throw .reject) fun t (_ : Unit) => .fact (t = false) := by
    intro s
    exact ⟨_, rfl, Nat.le_refl _, rfl, fun _ _ _ _ _ _ _ _ _ hrej => hrej⟩
  have hgo (P : Assertion) : Returns [] P (Pure.pure false : CppM Bool) (pure ())
      fun t _ => .fact (t = false) := Returns.pure fun _ _ _ => rfl
  refine ((inline_returns h).bind fun t b => ?_).keys (List.append_nil _)
  by_cases htr : t = r b
  · subst htr
    cases r b with
    | true => exact hreturn _
    | false => exact hgo _
  · cases t with
    | true => exact (hreturn P).absurd fun _ _ h => htr h.2
    | false => exact (hgo P).absurd fun _ _ h => htr h.2

/-! ### Guards -/

/-- The guard by message type. -/
theorem emitMsgTypeGuard_returns (hr : HeaderRule) :
    Returns [] P (emitMsgTypeGuard hr)
      (Meaning.check (Meaning.msgTypeGuard Meaning.callProg hr.msgType)) fun _ _ => .fact True := by
  unfold emitMsgTypeGuard Meaning.msgTypeGuard
  cases hr.msgType with
  | request =>
    refine failIf_returns fun g e T _ _ => congrArg (Prog.call _) (funext fun b : Bool => ?_)
    cases b <;> rfl
  | reply =>
    refine failIf_returns fun g e T _ _ => congrArg (Prog.call _) (funext fun b : Bool => ?_)
    cases b <;> rfl
  | _ => exact Returns.pure fun _ _ _ => trivial

/-- Literals that denote a view all do so. -/
theorem mapM_clipped (ms : List Bytes) : ms.mapM clipped = some (ms.map clip) := by
  induction ms with
  | nil => rfl
  | cons m ms ih =>
    rw [List.mapM_cons, ih]
    rfl

/-- The guard by method. -/
theorem emitMethodGuard_returns (hr : HeaderRule) :
    Returns [] P (emitMethodGuard hr)
      (Meaning.check (Meaning.methodGuard Meaning.callProg hr.methods)) fun _ _ => .fact True := by
  unfold emitMethodGuard Meaning.methodGuard HeaderRule.hasMethodFilter
  cases hr.methods.isEmpty with
  | true => exact Returns.pure fun _ _ _ => trivial
  | false =>
    have hguard (o : Arg) (b : Bytes) : Returns [] (P.and (o.Is b))
        (put (.failIf (.noMethod o hr.methods) .done))
        (Meaning.check (pure (hr.methods.any fun x => Rt.strEq b (clip x) true)))
        fun _ _ => .fact True := by
      refine failIf_returns fun g e T h _ => ?_
      have ho : o.eval clipped e = some b := h.2.1
      rw [Cond.eval, ho, mapM_clipped]
      show pure (some !((hr.methods.map clip).any _)) = _
      rw [List.any_map]
      rfl
    exact (inline_returns (Emission.codes_getMethod P)).bind hguard

/-- **The guard by match-value.** -/
theorem emitMatchGuard_returns (cmp : ComparisonType) (mvt : MatchValType) (mv : Value) {o : Arg}
    {b : Bytes} (ho : Meaning.alwaysHolds mv = false → ∀ g e, P.Holds g e → (o.Is b).Holds g e) :
    Returns (Meaning.guardKeys cmp mv) P (emitMatchGuard cmp mvt mv o)
      (Meaning.check (Meaning.guard Meaning.callProg cmp mvt mv b)) fun _ _ => .fact True := by
  unfold emitMatchGuard Meaning.guard
  cases hmv : Meaning.alwaysHolds mv with
  | true =>
    rw [Meaning.guardKeys, hmv]
    exact Returns.pure fun _ _ _ => trivial
  | false =>
    have hcall : Returns _ P (inline (Emission.matchCall cmp mvt mv o)) (pure ()) _ :=
      inline_returns (Emission.matchCall_codes cmp mvt hmv (ho hmv))
    refine (hcall.silent fun c => failIf_returns fun g e T h hT => ?_).keys (List.append_nil _)
    have hc := h.2 g e T (.refl g) (.refl _ _) hT
    rw [Cond.eval, hc]
    refine congrArg (Prog.call _) (funext fun m => ?_)
    cases mv.negated with
    | true => cases m <;> rfl
    | false => cases m <;> rfl

/-! ## Rules -/

/-- The end of a lambda: `return false;`, unless it has been left. -/
theorem ret_returns (t : Bool) {Q : Unit → Unit → Assertion} :
    Returns [] (P.and (.fact (t = false))) (if t then pure () else put (.ret false .done))
      (throw .skip) Q := by
  cases t with
  | false => exact ret_false_returns
  | true =>
    exact Returns.pure_absurd fun g e hp => Bool.noConfusion (show true = false from hp.2)

/-- **An element rule** is a lambda with its guard and its action. -/
theorem emitElement_returns (hr : HeaderRule) {name : Arg} (er : ElementRule)
    (elem : HmrUriElement) (hname : ∀ g e, P.Holds g e → (name.Is (clip hr.headerName)).Holds g e) :
    Returns (Meaning.guardKeys er.comparison er.matchValue ++ Meaning.elementActionKeys hr er) P
      (emitElement hr name er elem) (Meaning.scope (Meaning.elementSteps hr er elem))
      fun _ _ => .fact True := by
  refine lambda_returns _ ?_
  unfold Meaning.elementSteps
  rw [bind_assoc]
  have hget : Codes [] P (Emission.bindTemp (.getHeader name))
      (Meaning.callProg _ (.getHeader (clip hr.headerName))) Arg.Is :=
    Emission.codes_bindTemp (Emission.same_of_is hname (fun _ => rfl) fun _ => rfl)
  refine (inline_returns hget).bind fun hv b => ?_
  rw [bind_assoc]
  have hvalue := Emission.emitElementValue_codes (P := P.and (hv.Is b)) elem fun _ _ h => h.2
  refine (inline_returns hvalue).bind fun ev b' => ?_
  rw [bind_assoc]
  refine (emitMatchGuard_returns er.comparison er.matchValType er.matchValue
    (P := (P.and (hv.Is b)).and (ev.Is b')) fun _ _ _ h => h.2).bind fun _ _ => ?_
  have haction := Emission.emitElementAction_codes
    (P := ((P.and (hv.Is b)).and (ev.Is b')).and (.fact True)) hr er elem name
    hv ev b b' fun g e h => ⟨hname g e h.1.1.1, h.1.1.2, h.1.2⟩
  have hflow : Nonempty Flow := ⟨.continue⟩
  have hbranch := branch_returns_of haction
  refine ((hbranch.of_eq (bind_congr fun w => ?_)).bind fun t _ => ret_returns t).keys
    (List.append_nil _)
  cases w <;> rfl

/-- The element rules, one lambda after the other. -/
theorem emitElements_returns (hr : HeaderRule) {name : Arg} (ers : List ElementRule)
    (hname : ∀ g e, P.Holds g e → (name.Is (clip hr.headerName)).Holds g e) :
    Returns (ers.flatMap (Meaning.elementKeys hr)) P (emitElements hr name ers)
      (Meaning.elementRulesSteps hr ers) fun _ _ => .fact True := by
  induction ers generalizing P with
  | nil => exact Returns.pure fun _ _ _ => trivial
  | cons er ers ih =>
    rw [List.flatMap_cons, emitElements, Meaning.elementRulesSteps, Meaning.elementKeys]
    cases Lowering.uriElement er.type with
    | none => exact ih hname
    | some elem =>
      exact (emitElement_returns hr er elem hname).bind fun _ _ => ih fun g e h => hname g e h.1

/-- The element rules of a header, if there are any. -/
theorem emitElementRules_returns (hr : HeaderRule) :
    Returns (hr.elementRules.flatMap (Meaning.elementKeys hr)) P (emitElementRules hr)
      (Meaning.elementRulesSteps hr hr.elementRules) fun _ _ => .fact True := by
  have hname : Returns [] P (inline (Emission.nameTemp hr.headerName)) (pure ()) _ :=
    inline_returns (Emission.codes_nameTemp hr.headerName)
  exact hname.silent fun o => emitElements_returns hr _ fun _ _ h => h.2

/-- Whether an action ends its rule is not a matter of the statements. -/
theorem branch_fst (action : CodeM Bool) (s : State) :
    (branch action s).1 = (action ⟨s.numbers, []⟩).1 := by
  show ((if (action ⟨s.numbers, []⟩).1 then do put (.ret true .done); pure true
    else pure false : CppM Bool) (inline action s).2).1 = _
  cases (action ⟨s.numbers, []⟩).1 <;> rfl

/-- **`emit_header_rule`.** The lambda is the scope, its guards are the checks that leave it, and
then there is the action, with the element rules behind it unless it rejects: then there is a
`return` already, and the emitter puts nothing behind it. -/
theorem emitHeaderRule_returns (hr : HeaderRule) (idx : Nat) :
    Returns (Meaning.ruleKeys idx hr) P (emitHeaderRule hr idx)
      (Meaning.scope (Meaning.ruleSteps idx hr)) fun _ _ => .fact True := by
  refine lambda_returns _ ?_
  rw [Meaning.ruleSteps, Meaning.ruleKeys, List.append_assoc, bind_assoc]
  refine (emitMsgTypeGuard_returns hr).bind fun _ _ => ?_
  rw [bind_assoc]
  refine (emitMethodGuard_returns hr).bind fun _ _ => ?_
  rw [bind_assoc]
  refine (inline_returns (Emission.emitFetch_codes hr)).bind fun hv b => ?_
  rw [bind_assoc]
  refine (emitMatchGuard_returns hr.comparison .any hr.matchValue (fun hmv g e h => ?_)).bind
    fun _ _ => ?_
  · exact Emission.is_of_hvIs hmv h.2
  rw [bind_assoc]
  have haction := Emission.emitHeaderAction_codes
    (P := (((P.and (.fact True)).and (.fact True)).and (Emission.HvIs hr hv b)).and (.fact True))
    hr idx hv b fun _ _ h => h.1.2
  have hbranch := branch_returns_of (r := id) haction
  refine hbranch.bind_of (R := fun t => t = decide (hr.action = .reject)) (fun s => ?_)
    fun t _ ht => ?_
  · rw [branch_fst, Emission.emitHeaderAction_fst]
  · by_cases hreject : hr.action = .reject
    -- there is a `return` already, and the elements are not put out
    · rw [if_pos hreject]
      rw [decide_eq_true hreject] at ht
      subst ht
      exact Returns.pure_absurd fun _ _ h => Bool.noConfusion (show true = false from h.2)
    · rw [if_neg hreject]
      rw [decide_eq_false hreject] at ht
      subst ht
      have helements : ∀ P, Returns (hr.elementRules.flatMap (Meaning.elementKeys hr)) P
          (do emitElementRules hr; put (.ret false .done))
          (do Meaning.elementRulesSteps hr hr.elementRules; throw .skip)
          fun _ (_ : Unit) => .fact False := fun P =>
        ((emitElementRules_returns hr).bind fun _ _ => ret_false_returns).keys (List.append_nil _)
      cases hers : hr.elementRules with
      | nil => exact ret_false_returns
      | cons er ers =>
        rw [hers] at helements
        exact helements _

/-- **The rules**, one lambda after the other. -/
theorem emitRules_returns (idx : Nat) (hrs : List HeaderRule) :
    Returns (Meaning.keysFrom idx hrs) P (emitRules idx hrs) (Meaning.rulesSteps idx hrs)
      fun _ _ => .fact True := by
  induction hrs generalizing idx P with
  | nil => exact Returns.pure fun _ _ _ => trivial
  | cons hr rest ih => exact (emitHeaderRule_returns hr idx).bind fun _ _ => ih (idx + 1)

/-- **The tables of the unit** number the keys of the ruleset in their order. -/
theorem symbols_emitted (rs : Ruleset) : (emitted rs).numbers.symbols = Meaning.symbols rs := by
  have h : Returns _ (.fact True) (emitRules 0 rs.headerRules) _ _ := emitRules_returns 0 _
  obtain ⟨b, -, -, hsym, -⟩ := h {}
  exact hsym

/-- **The C++ back-end does what the rules mean**, if literals denote what a view of them
does. -/
theorem apply_clipped (rs : Ruleset) :
    apply clipped rs = some <$> (Meaning.program rs).mapCalls (Meaning.symbols rs).resolve := by
  have h : Returns _ (.fact True) (emitRules 0 rs.headerRules) _ _ := emitRules_returns 0 _
  obtain ⟨b, hb, -, hsym, hrun⟩ := h {}
  have hbody : (emitted rs).body = b := hb
  rw [apply, hbody, Meaning.program_mapCalls, map_eq_pure_bind, bind_assoc]
  have hle : (emitRules 0 rs.headerRules {}).2.numbers.symbols.Le (Meaning.symbols rs) :=
    hsym ▸ .refl _
  refine (hrun (fun _ => none) trivial (Meaning.symbols rs) hle _ (fun o => match o with
    | .ok _ => pure (some .ok)
    | .error .skip => pure none
    | .error .reject => pure (some .rejected)) (fun _ _ _ _ => rfl) rfl rfl).trans ?_
  exact Meaning.run_rulesSteps_congr _ 0 _ rfl rfl

end CppProgram

/-! ## Literals -/

namespace RtCall

variable {V V' S R : Type}

/-- The strings a call is passed. -/
def operands : ∀ {i : RetTy}, RtCall V S R i → List V
  | _, getHeader n => [n]
  | _, setHeader n x => [n, x]
  | _, addHeader n x => [n, x]
  | _, deleteHeader n => [n]
  | _, hmrMatch _ x p _ => [x, p]
  | _, store _ x => [x]
  | _, valAppendLit x => [x]
  | _, uriGet x _ => [x]
  | _, uriSet x _ n => [x, n]
  | _, log x => [x]
  | _, reject _ x => [x]
  | _, _ => []

/-- Only the strings that are passed are read. -/
theorem traverse_congr {v v' : V → Option V'} {i : RetTy} {c : RtCall V S R i}
    (h : ∀ x ∈ c.operands, v x = v' x) : c.traverse v = c.traverse v' := by
  have hhead {x : V} {l : List V} (hl : c.operands = x :: l) : v x = v' x :=
    h x (hl ▸ List.mem_cons_self)
  have hsecond {x y : V} {l : List V} (hl : c.operands = x :: y :: l) : v y = v' y :=
    h y (hl ▸ List.mem_cons_of_mem _ List.mem_cons_self)
  cases c with
  | setHeader n x => rw [traverse, traverse, hhead rfl, hsecond rfl]
  | addHeader n x => rw [traverse, traverse, hhead rfl, hsecond rfl]
  | hmrMatch t x p r => rw [traverse, traverse, hhead rfl, hsecond rfl]
  | uriSet x e n => rw [traverse, traverse, hhead rfl, hsecond rfl]
  | getHeader n => rw [traverse, traverse, hhead rfl]
  | deleteHeader n => rw [traverse, traverse, hhead rfl]
  | store k x => rw [traverse, traverse, hhead rfl]
  | valAppendLit x => rw [traverse, traverse, hhead rfl]
  | uriGet x e => rw [traverse, traverse, hhead rfl]
  | log x => rw [traverse, traverse, hhead rfl]
  | reject code x => rw [traverse, traverse, hhead rfl]
  | _ => rfl

end RtCall

/-- The literal an operand is. -/
def Arg.literals : Arg → List Bytes
  | .lit s => [s]
  | .temp _ => []

/-- The literals of a call. -/
def CodeCall.literals {i : RetTy} (c : CodeCall i) : List Bytes := c.operands.flatMap Arg.literals

/-- The literals of an instruction. -/
def Instr.literals : Instr → List Bytes
  | bind _ c => CodeCall.literals c
  | call c => CodeCall.literals c
  | name _ s => [s]

section
variable {lit lit' : Literals}

/-- An operand reads the literal it is. -/
theorem Arg.eval_congr {o : Arg} (h : ∀ s ∈ o.literals, lit s = lit' s) (e : Temps) :
    o.eval lit e = o.eval lit' e := by
  cases o with
  | lit s => exact h s (List.mem_singleton_self s)
  | temp n => rfl

/-- A call reads its operands. -/
theorem CodeCall.eval_congr {i : RetTy} {c : CodeCall i} (h : ∀ s ∈ c.literals, lit s = lit' s)
    (e : Temps) : c.eval lit e = c.eval lit' e :=
  RtCall.traverse_congr fun _ ho =>
    Arg.eval_congr (fun s hs => h s (List.mem_flatMap.mpr ⟨_, ho, hs⟩)) e

/-- An instruction reads the literals of its call. -/
theorem Instr.step_congr {i : Instr} (h : ∀ s ∈ i.literals, lit s = lit' s) (e : Temps) :
    i.step lit e = i.step lit' e := by
  cases i with
  | bind t c => rw [step, step, CodeCall.eval_congr h]
  | call c => rw [step, step, CodeCall.eval_congr h]
  | name t s => rw [step, step, h s (List.mem_singleton_self s)]

end

end Hmr

namespace Cpp

open Hmr

/-- The literals of a condition. -/
def Cond.literals : Cond → List Bytes
  | call c _ => CodeCall.literals c
  | noMethod m ms => m.literals ++ ms

/-- **The literals of a program.** -/
def Body.literals : Body → List Bytes
  | done => []
  | code i rest => i.literals ++ rest.literals
  | failIf c rest => c.literals ++ rest.literals
  | ret _ rest => rest.literals
  | lambda _ inner rest => inner.literals ++ rest.literals

variable {lit lit' : Literals}

/-- Methods read their own. -/
theorem mapM_congr {l : List Bytes} (h : ∀ s ∈ l, lit s = lit' s) : l.mapM lit = l.mapM lit' := by
  induction l with
  | nil => rfl
  | cons s l ih =>
    rw [List.mapM_cons, List.mapM_cons, h s List.mem_cons_self,
      ih fun t ht => h t (List.mem_cons_of_mem _ ht)]

/-- A condition reads the literals in it. -/
theorem Cond.eval_congr {c : Cond} (h : ∀ s ∈ c.literals, lit s = lit' s) (e : Temps) :
    c.eval lit e = c.eval lit' e := by
  cases c with
  | call c holds => rw [eval, eval, CodeCall.eval_congr h]
  | noMethod m ms =>
    rw [eval, eval, Arg.eval_congr fun s hs => h s (List.mem_append_left _ hs),
      mapM_congr fun s hs => h s (List.mem_append_right _ hs)]

/-- **What literals denote matters only for the ones there are.** -/
theorem Body.run_congr {b : Body} (h : ∀ s ∈ b.literals, lit s = lit' s) (e : Temps) :
    b.run lit e = b.run lit' e := by
  induction b generalizing e with
  | done => rfl
  | code i rest ih =>
    rw [run, run, Instr.step_congr fun s hs => h s (List.mem_append_left _ hs)]
    refine congrArg _ (funext fun o => ?_)
    cases o with
    | none => rfl
    | some e' => exact ih (fun s hs => h s (List.mem_append_right _ hs)) e'
  | failIf c rest ih =>
    rw [run, run, Cond.eval_congr fun s hs => h s (List.mem_append_left _ hs)]
    refine congrArg _ (funext fun o => ?_)
    cases o with
    | none => rfl
    | some b =>
      cases b with
      | true => rfl
      | false => exact ih (fun s hs => h s (List.mem_append_right _ hs)) e
  | ret v rest _ => rfl
  | lambda note inner rest ihi ih =>
    rw [run, run, ihi fun s hs => h s (List.mem_append_left _ hs)]
    refine congrArg _ (funext fun o => ?_)
    cases o with
    | stuck => rfl
    | fell e' => rfl
    | returned b =>
      cases b with
      | true => rfl
      | false => exact ih (fun s hs => h s (List.mem_append_right _ hs)) e

end Cpp

namespace Hmr

namespace CppProgram

open CppGenerator (hmrStrOf strLit CppGenOptions)

/-- The literals of the unit denote what a view of their constants does, if their lengths
fit. -/
theorem apply_decoded (rs : Ruleset) (h : ∀ s ∈ (emitted rs).body.literals, s.length < 2 ^ 32) :
    apply (fun s => hmrStrOf (strLit s)) rs = apply clipped rs := by
  have hlit : ∀ s ∈ (emitted rs).body.literals, hmrStrOf (strLit s) = clipped s := by
    intro s hs
    rw [CppGenerator.hmrStrOf_strLit, if_pos (h s hs), clipped, clip_of_lt (h s hs)]
  rw [apply, apply, Cpp.Body.run_congr hlit]

/-! ## The text -/

/-- **The unit with the program in it**: what stands around the body, and the body as the
text of the program, without comments. -/
def text (rs : Ruleset) (opts : CppGenOptions) : Bytes :=
  CppGenerator.preamble opts ++ ((emitted rs).body.lines 1).flatMap (CppGenerator.Line.text false)
    ++ CppGenerator.epilogue opts rs

/-- **Without comments** it is what is put out. -/
theorem generateCpp_eq_text (rs : Ruleset) {opts : CppGenOptions}
    (h : opts.emitComments = false) : CppGenerator.generateCpp rs opts = text rs opts := by
  rw [CppGenerator.generateCpp, body_emitted, h, text]

/-- **With comments whose names are not seen** it is what a compiler reads. -/
theorem tokens_generateCpp {cc : Cpp.Dialect} {rs : Ruleset} {opts : CppGenOptions}
    (h : CppGenerator.NamesUnseen cc rs opts) :
    Cpp.tokens cc (CppGenerator.generateCpp rs opts) = Cpp.tokens cc (text rs opts) := by
  rw [CppGenerator.tokens_of_namesUnseen h, generateCpp_eq_text rs rfl]
  rfl

/-- **The C++ back-end does what the rules mean**: if the names of rules do not get into the
code, and no string in it has more characters than an `HmrStr` can have, a compiler reads
the program, and `hmr_apply` makes the calls of the ruleset's program, with the numbers of
the unit's own tables. -/
theorem apply_hmrStrOf (cc : Cpp.Dialect) (rs : Ruleset) (opts : CppGenOptions)
    (hnames : CppGenerator.NamesUnseen cc rs opts)
    (h : ∀ s ∈ (emitted rs).body.literals, s.length < 2 ^ 32) :
    Cpp.tokens cc (CppGenerator.generateCpp rs opts) = Cpp.tokens cc (text rs opts)
      ∧ apply (fun s => hmrStrOf (strLit s)) rs
        = some <$> (Meaning.program rs).mapCalls (Meaning.symbols rs).resolve :=
  ⟨tokens_generateCpp hnames, (apply_decoded rs h).trans (apply_clipped rs)⟩

/-- In an INVITE, who calls is stored, and replaced in the header. -/
def anonymized : Ruleset where
  headerRules := [{
    name := txt "caller"
    headerName := txt "From"
    action := .store
    comparison := .patternRule
    methods := [txt "INVITE"]
    matchValue := ⟨txt "^(.*)$", [.literal (txt "^(.*)$")], false, false⟩
    elementRules := [{
      name := txt "user"
      type := .uriUser
      action := .replace
      newValue := ⟨txt "anonymous", [.literal (txt "anonymous")], false, false⟩ }] }]

/-- Its strings are short enough. -/
theorem fits_anonymized : ∀ s ∈ (emitted anonymized).body.literals, s.length < 2 ^ 32 := by
  decide +kernel

/-- The names of its rules end in no backslash. -/
theorem namesUnseen_anonymized (cc : Cpp.Dialect) :
    CppGenerator.NamesUnseen cc anonymized {} := by
  cases cc <;> decide

/-- The unit with the rule for that is read without its comments, and does what the rule means. -/
theorem apply_hmrStrOf_anonymized :
    Cpp.tokens .gnu (CppGenerator.generateCpp anonymized {}) = Cpp.tokens .gnu (text anonymized {})
      ∧ apply (fun s => hmrStrOf (strLit s)) anonymized
        = some <$> (Meaning.program anonymized).mapCalls (Meaning.symbols anonymized).resolve :=
  apply_hmrStrOf .gnu anonymized {} (namesUnseen_anonymized .gnu) fits_anonymized

end CppProgram

end Hmr
