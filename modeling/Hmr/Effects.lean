import Hmr.Lowers

/-!
# What the parts of a walk do

Most calls of a walk look things up, compare, or keep a text for later. A message changes,
or is rejected, at a handful of places only, and what has to be known about a walk is
mostly what happens there. This file separates the two: the values, the guards and the
stores of a ruleset are *quiet*, and what is left are the actions.

Quiet is said of the calls of a program, whatever their answers are (`Meaning.IsQuiet`),
and so it is a contract in the sense of `Prog.Meets`: a program that makes quiet calls
only leaves alone what no quiet call changes (`IsQuiet.run`). The lemmas go through the
functions of the meaning in their order, and most of them are about a smaller class of
calls, those that values are made with (`Meaning.Evaluates`), since some contracts
elsewhere have to be shown of these alone.

The file also says what a walk comes to in parts – the rules before and the rules behind,
the element rules before and behind (`Meaning.rulesFrom_append`,
`Meaning.elementRules_append`) – and that the interpreter's walk over its tables is the
run of the program, rule by rule (`Interpreter.Lowers.run`), with slots and regexes by
name (`SymbolTable.runtime`).

Last, no call of the runtime touches what a context was made with: its regexes, the number
of its slots and its variables (`HmrContext.kept`).
-/

namespace Hmr

/-- The runtime, on slots and regexes by name. -/
def SymbolTable.runtime (st : SymbolTable) (rx : RegexEngine) :
    Handler SymCall RetTy.den World :=
  fun i c => Hmr.runtime rx i (st.resolve i c)

/-! ## What a context keeps -/

/-- The regexes, the number of slots and the variables of a context. -/
def HmrContext.kept (ctx : HmrContext) : List (Bytes × Bool) × Nat × (HmrVarId → Bytes) :=
  (ctx.regexes, ctx.slots.length, ctx.vars)

/-- No call changes them. -/
@[simp] theorem kept_runtime (rx : RegexEngine) {i : RetTy} (c : RtCall Bytes Nat Nat i)
    (w : World) :
    (runtime rx i c w).2.ctx.kept = w.ctx.kept := by
  cases c with
  | hmrMatch t subject pattern regex =>
    obtain ⟨_, _, hw⟩ := runtime_hmrMatch rx t subject pattern regex w
    exact congrArg (·.ctx.kept) hw
  | store slot value =>
    show (w.ctx.regexes, (w.ctx.slots.set slot _).length, w.ctx.vars) = _
    rw [List.length_set]
    rfl
  | valAppendVar id =>
    obtain ⟨_, hw⟩ := runtime_valAppendVar rx id w
    exact congrArg (·.ctx.kept) hw
  | _ => rfl

/-- So no program changes them, -/
@[simp] theorem kept_run (rx : RegexEngine) {α : Type} (p : RtProg Nat Nat α) (w : World) :
    (p.run (runtime rx) w).2.ctx.kept = w.ctx.kept := by
  induction p generalizing w with
  | pure a => rfl
  | call c k ih => exact (ih _ _).trans (kept_runtime rx c w)

/-- nor does one by name. -/
theorem kept_run_by_name (rx : RegexEngine) (st : SymbolTable) {α : Type} (p : SymProg α)
    (w : World) : (p.run (st.runtime rx) w).2.ctx.kept = w.ctx.kept := by
  have hrun := kept_run rx (p.mapCalls st.resolve) w
  rwa [Prog.run_mapCalls] at hrun

namespace Interpreter

/-- **Running a walk over frozen tables** is running its program. -/
theorem Lowers.run {α σ : Type} {st : SymbolTable} {x : InterpM α} {p : SymProg α}
    (hx : Lowers st x p) {t : Tables} (ht : Frozen st t)
    (h : Handler (RtCall Bytes Nat Nat) RetTy.den σ) (s : σ) :
    ((x t).run h s).1.1 = (p.run (fun i c => h i (st.resolve i c)) s).1
      ∧ ((x t).run h s).2 = (p.run (fun i c => h i (st.resolve i c)) s).2 := by
  have hxt : (x t >>= fun r => pure r.1) = p.mapCalls st.resolve := by
    rw [hx t ht (fun r => pure r.1) pure fun _ _ _ => rfl]
    exact Prog.bind_pure' _
  have hrun := congrArg (fun q => q.run h s) hxt
  simp only [Prog.run_bind, Prog.run_mapCalls] at hrun
  exact ⟨congrArg Prod.fst hrun, congrArg Prod.snd hrun⟩

/-- `apply`, run on a message. -/
theorem run_apply (rx : RegexEngine) (rs : Ruleset) (w : World) :
    (apply rs).run (runtime rx) w
      = (Meaning.program rs).run ((Meaning.symbols rs).runtime rx) w := by
  rw [apply_eq, symbols_tables, Prog.run_mapCalls]
  rfl

end Interpreter

namespace Meaning

/-! ## The calls guards make -/

section
variable {pre : ∀ i, SymCall i → Prop}

/-- A guard compares once, or not at all. -/
theorem guard_meets (hmatch : ∀ t s p k, pre _ (.hmrMatch t s p k)) (cmp : ComparisonType)
    (mvt : MatchValType) (mv : Value) (s : Bytes) :
    (guard callProg cmp mvt mv s).Meets pre (fun _ _ _ => True) (fun _ => True) := by
  unfold guard
  split
  · trivial
  · unfold matchCall
    dsimp only
    split
    · exact ⟨hmatch _ _ _ _, fun _ _ => trivial⟩
    · exact ⟨hmatch _ _ _ _, fun _ _ => trivial⟩

/-- **The guards of a header rule** look at the message and compare. -/
theorem fires_meets (hheader : ∀ n, pre _ (.getHeader n)) (hmethod : pre _ .getMethod)
    (hrequest : pre _ .isRequest) (hmatch : ∀ t s p k, pre _ (.hmrMatch t s p k))
    (hr : HeaderRule) :
    (fires callProg (guard callProg) hr).Meets pre (fun _ _ _ => True) (fun _ => True) := by
  unfold fires
  refine Prog.Meets.bind (Q := fun _ => True) ?_ fun b _ => ?_
  · unfold msgTypeGuard
    -- Guards make four kinds of calls, and stop at the first that fails.
    cases hr.msgType with
    | request => exact ⟨hrequest, fun _ _ => trivial⟩
    | reply => exact ⟨hrequest, fun _ _ => trivial⟩
    | _ => trivial
  · cases b with
    | false => trivial
    | true =>
      refine Prog.Meets.bind (Q := fun _ => True) ?_ fun b _ => ?_
      · unfold methodGuard
        split
        · trivial
        · exact ⟨hmethod, fun _ _ => trivial⟩
      · cases b with
        | false => trivial
        | true =>
          refine Prog.Meets.bind (Q := fun _ => True) ?_ fun hv _ => ?_
          · unfold fetchHeader
            split
            · exact ⟨hheader _, fun _ _ => trivial⟩
            · trivial
          · refine (guard_meets hmatch _ _ _ _).bind fun ok _ => ?_
            cases ok with
            | false => trivial
            | true => trivial

end

/-! ## Quiet calls -/

/-- A call that leaves the header table and the arena alone, and does not
reject. -/
def Quiet : ∀ i, SymCall i → Prop
  | _, .setHeader _ _ => False
  | _, .addHeader _ _ => False
  | _, .deleteHeader _ => False
  | _, .uriSet _ _ _ => False
  | _, .reject _ _ => False
  | _, _ => True

/-- A program all of whose calls are quiet. -/
abbrev IsQuiet {α : Type} (p : SymProg α) : Prop :=
  p.Meets Quiet (fun _ _ _ => True) (fun _ => True)

/-- A program without calls is quiet, -/
theorem isQuiet_pure {α : Type} (a : α) : IsQuiet (pure a : SymProg α) := trivial

/-- a quiet call is, -/
theorem isQuiet_call {i : RetTy} {c : SymCall i} (h : Quiet i c) : IsQuiet (callProg i c) :=
  ⟨h, fun _ _ => trivial⟩

/-- and so are quiet programs one after the other. -/
theorem IsQuiet.bind {α β : Type} {p : SymProg α} {k : α → SymProg β} (hp : IsQuiet p)
    (hk : ∀ a, IsQuiet (k a)) : IsQuiet (p >>= k) :=
  Prog.Meets.bind hp (fun a _ => hk a)

/-- **What no quiet call changes, a quiet program does not change.** -/
theorem IsQuiet.run {α σ τ : Type} {p : SymProg α} (hp : IsQuiet p)
    {h : Handler SymCall RetTy.den σ} (obs : σ → τ)
    (hobs : ∀ i (c : SymCall i) s, Quiet i c → obs (h i c s).2 = obs s) (s : σ) :
    obs (p.run h s).2 = obs s := by
  have hh : Prog.Honours h (fun s' => obs s' = obs s) Quiet fun _ _ _ => True :=
    fun i c s' hs' hc => ⟨trivial, (hobs i c s' hc).trans hs'⟩
  exact (Prog.Meets.run hh hp rfl).2

/-! ## Calls that make up values -/

/-- A call a value is made with. -/
def Evaluates : ∀ i, SymCall i → Prop
  | _, .getVar _ => True
  | _, .getCapture _ => True
  | _, .load _ => True
  | _, .valReset => True
  | _, .valAppendLit _ => True
  | _, .valAppendVar _ => True
  | _, .valAppendCapture _ => True
  | _, .valAppendSlot _ => True
  | _, .valFinish => True
  | _, _ => False

section
variable {pre : ∀ i, SymCall i → Prop}

/-- A reference is looked up by one call. -/
theorem refValue_meets (hpre : ∀ i c, Evaluates i c → pre i c) (r : ValueRef) :
    (refValue callProg r).Meets pre (fun _ _ _ => True) (fun _ => True) := by
  unfold refValue
  cases r.kind with
  | «variable» => exact ⟨hpre _ _ trivial, fun _ _ => trivial⟩
  | capture => exact ⟨hpre _ _ trivial, fun _ _ => trivial⟩
  | ruleRef => exact ⟨hpre _ _ trivial, fun _ _ => trivial⟩

/-- The segments of a value are appended by one call each. -/
theorem appendSegments_meets (hpre : ∀ i c, Evaluates i c → pre i c)
    (segs : List ValueSegment) :
    (appendSegments callProg segs).Meets pre (fun _ _ _ => True) (fun _ => True) := by
  -- A segment is appended as it is, or its reference is looked up first.
  induction segs with
  | nil => trivial
  | cons s rest ih =>
    refine Prog.Meets.bind (Q := fun _ => True) ?_ fun _ _ => ih
    cases s with
    | literal text =>
      unfold appendSegment
      dsimp only
      split
      · trivial
      · exact ⟨hpre _ _ trivial, fun _ _ => trivial⟩
    | ref r =>
      unfold appendSegment
      dsimp only
      cases r.kind with
      | «variable» => exact ⟨hpre _ _ trivial, fun _ _ => trivial⟩
      | capture => exact ⟨hpre _ _ trivial, fun _ _ => trivial⟩
      | ruleRef => exact ⟨hpre _ _ trivial, fun _ _ => trivial⟩

/-- **A value is made with those calls only.** -/
theorem value_meets (hpre : ∀ i c, Evaluates i c → pre i c) (v : Value) :
    (value callProg v).Meets pre (fun _ _ _ => True) (fun _ => True) := by
  unfold value
  split
  · trivial
  · split
    · trivial
    · split
      · exact refValue_meets hpre _
      · refine ⟨hpre _ _ trivial, fun _ _ => ?_⟩
        refine (appendSegments_meets hpre _).bind fun _ _ => ?_
        exact ⟨hpre _ _ trivial, fun _ _ => trivial⟩

/-- The text of a log or a reject is a value, or the rule's name. -/
theorem message_meets (hpre : ∀ i c, Evaluates i c → pre i c) (name : Bytes) (v : Value) :
    (message callProg name v).Meets pre (fun _ _ _ => True) (fun _ => True) := by
  unfold message
  split
  · trivial
  · exact value_meets hpre v

end

/-- Making up a value is quiet: what is written goes into the scratch buffer. -/
theorem Evaluates.quiet : ∀ i (c : SymCall i), Evaluates i c → Quiet i c := by
  intro i c hc
  cases c <;> trivial

/-- So a value is made up quietly, -/
theorem value_quiet (v : Value) : IsQuiet (value callProg v) := value_meets Evaluates.quiet v

/-- and a message is. -/
theorem message_quiet (name : Bytes) (v : Value) : IsQuiet (message callProg name v) :=
  message_meets Evaluates.quiet name v

/-! ## Quiet parts -/

/-- A guard is quiet: a search records its groups in the context, and not in the message. -/
theorem guard_quiet (cmp : ComparisonType) (mvt : MatchValType) (mv : Value) (s : Bytes) :
    IsQuiet (guard callProg cmp mvt mv s) :=
  guard_meets (fun _ _ _ _ => trivial) cmp mvt mv s

/-- Reading an element out of a header value is quiet, -/
theorem elementValue_quiet (hv : Bytes) (elem : HmrUriElement) :
    IsQuiet (elementValue callProg hv elem) := by
  unfold elementValue
  split
  · exact isQuiet_pure _
  · exact isQuiet_call trivial

/-- and so is storing groups, if storing one is, -/
theorem storeGroups_quiet {put : Nat → Bytes → SymProg Unit} (hput : ∀ g v, IsQuiet (put g v))
    (n g : Nat) : IsQuiet (storeGroups callProg put n g) := by
  induction n generalizing g with
  | zero => exact isQuiet_pure _
  | succ n ih =>
    refine IsQuiet.bind (isQuiet_call trivial) fun cap => ?_
    exact (hput g cap).bind fun _ => ih (g + 1)

/-- and so is what a store rule does. It does not matter what is stored. -/
theorem store_quiet (idx : Nat) (hr : HeaderRule) (hv : Bytes) :
    IsQuiet (store callProg idx hr hv) := by
  have hput : ∀ g v, IsQuiet (storeAt callProg (storeName hr idx) g v) :=
    fun g v => isQuiet_call trivial
  unfold store storeAction
  split
  · exact storeGroups_quiet hput _ _
  · exact hput 0 hv

/-- **The guards of a header rule are quiet.** -/
theorem fires_quiet (hr : HeaderRule) : IsQuiet (fires callProg (guard callProg) hr) :=
  fires_meets (fun _ => trivial) trivial trivial (fun _ _ _ _ => trivial) hr

/-! ## A walk in parts -/

/-- The rules from position `idx` on, and whether one of them rejects. -/
def flowFrom : Nat → List HeaderRule → SymProg Flow
  | _, [] => pure .continue
  | idx, hr :: rest => do
    match ← rule callProg idx hr with
    | .rejected => pure .rejected
    | .continue => flowFrom (idx + 1) rest

/-- A walk in two parts. -/
theorem rulesFrom_append (idx : Nat) (a b : List HeaderRule) :
    rulesFrom callProg idx (a ++ b) = flowFrom idx a >>= fun flow =>
      match flow with
      | .rejected => pure .rejected
      | .continue => rulesFrom callProg (idx + a.length) b := by
  induction a generalizing idx with
  | nil => rfl
  | cons hr rest ih =>
    rw [List.cons_append, rulesFrom, flowFrom, bind_assoc]
    refine congrArg _ (funext fun flow => ?_)
    cases flow with
    | rejected => rfl
    | «continue» =>
      dsimp only
      rw [ih, List.length_cons, Nat.add_assoc, Nat.add_comm 1]

/-- Element rules in two parts. A reject among the first keeps the others from running. -/
theorem elementRules_append (hr : HeaderRule) (a b : List ElementRule) :
    elementRules callProg (guard callProg) hr (a ++ b)
      = elementRules callProg (guard callProg) hr a >>= fun flow =>
        match flow with
        | .rejected => pure .rejected
        | .continue => elementRules callProg (guard callProg) hr b := by
  induction a with
  | nil => rfl
  | cons er rest ih =>
    rw [List.cons_append, elementRules, elementRules, bind_assoc]
    refine congrArg _ (funext fun flow => ?_)
    cases flow with
    | rejected => rfl
    | «continue» => exact ih

end Meaning

end Hmr
