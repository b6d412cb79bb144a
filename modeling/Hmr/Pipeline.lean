import Hmr.BackEnds
import Hmr.Fixpoint
import Hmr.IrTerminators
import Hmr.Isolation
import Hmr.Parser

/-!
# From the source to the packets

`compile_to_ir` parses a source, optimizes the ruleset, unless it is told not to, and puts
out a module for it. The host prepares a context from the module's descriptor, and uses it
for packet after packet.

What comes of each packet is what the interpreter of the optimized ruleset makes of it;
and the module never asks the runtime for a slot or a pattern that the context does not
have (`Compiler.compileToIr_serves`), so the runtime's answers for such calls are never
given.

A source with an error in it is not compiled, and neither is one that the parser gives up
on. What the parser makes of a text in which it has reported an error is its own affair,
then. It is a parameter here (`Parser.Recovery`), and the results are the same for all of
them.

The calls of a run are looked at one by one, in the states they are made in
(`Prog.calls`). That a call finds what it asks for is a property of these states, and
follows from what the descriptor counts, since a context has as many slots and patterns as
it was prepared for, and keeps them.
-/

namespace Hmr

/-! ## The calls of a run -/

namespace Prog

variable {ι : Type} {F : ι → Type} {R : ι → Type} {α σ : Type}

/-- The calls of a run, each with the state it is made in. -/
def calls (h : Handler F R σ) : Prog F R α → σ → List (σ × Σ i, F i)
  | .pure _, _ => []
  | .call c k, s => (s, ⟨_, c⟩) :: (k (h _ c s).1).calls h (h _ c s).2

/-- **The calls of a run are as the contract asks**, in states with the invariant. -/
theorem Meets.calls {h : Handler F R σ} {pre : ∀ i, F i → Prop} {Q : α → Prop} {Inv : σ → Prop}
    (hinv : ∀ i (c : F i) s, Inv s → Inv (h i c s).2) {p : Prog F R α}
    (hp : p.Meets pre (fun _ _ _ => True) Q) {s : σ} (hs : Inv s) :
    ∀ x ∈ p.calls h s, Inv x.1 ∧ pre x.2.1 x.2.2 := by
  -- The first call is made in a good state, and leaves one.
  induction p generalizing s with
  | pure a => exact fun x hx => absurd hx List.not_mem_nil
  | call c k ih =>
    intro x hx
    obtain rfl | hx := List.mem_cons.mp hx
    · exact ⟨hs, hp.1⟩
    · exact ih _ (hp.2 _ trivial) (hinv _ c s hs) x hx

end Prog

/-- **The context has what the call is about**: its slot, or its compiled pattern. -/
def World.Has (w : World) : ∀ i, RtCall Bytes Nat Nat i → Prop
  | _, .store slot _ => slot < w.ctx.slots.length
  | _, .load slot => slot < w.ctx.slots.length
  | _, .valAppendSlot slot => slot < w.ctx.slots.length
  | _, .hmrMatch .regex _ _ id => id < w.ctx.regexes.length
  | _, _ => True

/-- A prepared context has what is counted. -/
theorem HmrModuleInfo.Counts.has {info : HmrModuleInfo} {w : World} (hw : w.ctx.Prepared info)
    {i : RetTy} {c : RtCall Bytes Nat Nat i} (hc : info.Counts i c) : w.Has i c := by
  have hregexes : w.ctx.regexes.length = info.regexes.length := by
    rw [hw.regexes, List.length_map]
  cases c with
  | store slot x => exact Nat.lt_of_lt_of_eq hc hw.slots.symm
  | load slot => exact Nat.lt_of_lt_of_eq hc hw.slots.symm
  | valAppendSlot slot => exact Nat.lt_of_lt_of_eq hc hw.slots.symm
  | hmrMatch t x p id =>
    cases t with
    | regex => exact Nat.lt_of_lt_of_eq hc hregexes.symm
    | _ => exact trivial
  | _ => exact trivial

/-- No call takes from a context what it was prepared for. -/
theorem HmrContext.Prepared.runtime {info : HmrModuleInfo} (rx : RegexEngine) {i : RetTy}
    (c : RtCall Bytes Nat Nat i) {w : World} (h : w.ctx.Prepared info) :
    (runtime rx i c w).2.ctx.Prepared info := by
  have hkept := kept_runtime rx c w
  simp only [HmrContext.kept, Prod.mk.injEq] at hkept
  exact ⟨hkept.1.trans h.regexes, hkept.2.1.trans h.slots⟩

/-- **A program whose calls are counted** finds what it asks a prepared context for. -/
theorem HmrModuleInfo.Covers.has {α : Type} {info : HmrModuleInfo} {p : RtProg Nat Nat α}
    (hp : info.Covers p) (rx : RegexEngine) {w : World} (hw : w.ctx.Prepared info) :
    ∀ x ∈ p.calls (Hmr.runtime rx) w, x.1.Has x.2.1 x.2.2 := by
  have hinv : ∀ i (c : RtCall Bytes Nat Nat i) (w : World), w.ctx.Prepared info →
      (Hmr.runtime rx i c w).2.ctx.Prepared info := fun _ c _ h => h.runtime rx c
  intro x hx
  obtain ⟨hprepared, hcounts⟩ := Prog.Meets.calls hinv hp hw x hx
  exact hcounts.has hprepared

/-! ## Packets -/

namespace IrGenerator

namespace IrModule

/-- What `hmr_apply` does. -/
def apply (m : IrModule) : RtProg Nat Nat (Option HmrVerdict) := m.hmrApply.apply m.hmrApply.length

/-- **A packet**, for a module: what it comes to, and the context afterwards. -/
def process (rx : RegexEngine) (m : IrModule) (ctx : HmrContext) (raw : Bytes) :
    Option Outcome × HmrContext :=
  let r := m.apply.run (runtime rx) ⟨HmrSipMsg.parse raw, ctx.resetForApply⟩
  (r.1.map fun v => r.2.outcome v, r.2.ctx)

/-- The calls that are made for a packet. -/
def calls (rx : RegexEngine) (m : IrModule) (ctx : HmrContext) (raw : Bytes) :
    List (World × Σ i, RtCall Bytes Nat Nat i) :=
  m.apply.calls (runtime rx) ⟨HmrSipMsg.parse raw, ctx.resetForApply⟩

/-- The context after packets. -/
def after (rx : RegexEngine) (m : IrModule) (ctx : HmrContext) (packets : List Bytes) :
    HmrContext :=
  packets.foldl (fun ctx raw => (m.process rx ctx raw).2) ctx

end IrModule

/-- The module makes of a packet what the interpreter does. -/
theorem process_generateIr (rx : RegexEngine) (rs : Ruleset) (ctx : HmrContext) (raw : Bytes) :
    (generateIr rs).process rx ctx raw
      = (some (Interpreter.process rx rs ctx raw).1, (Interpreter.process rx rs ctx raw).2) := by
  unfold IrModule.process Interpreter.process IrModule.apply
  rw [apply_generateIr_eq, Prog.run_map]
  rfl

/-- **Packet after packet**, the module leaves the context that the interpreter leaves. -/
theorem after_generateIr (rx : RegexEngine) (rs : Ruleset) (ctx : HmrContext)
    (packets : List Bytes) :
    (generateIr rs).after rx ctx packets = Interpreter.after rx rs ctx packets := by
  unfold IrModule.after Interpreter.after
  have hprocess : (fun ctx raw => ((generateIr rs).process rx ctx raw).2)
      = fun ctx raw => (Interpreter.process rx rs ctx raw).2 := by
    funext ctx raw
    rw [process_generateIr]
  rw [hprocess]

/-- **A prepared context has what the module asks for.** -/
theorem has_calls (rx : RegexEngine) {rs : Ruleset} {ctx : HmrContext}
    (h : ctx.Prepared (Interpreter.info rs)) (raw : Bytes) :
    ∀ x ∈ (generateIr rs).calls rx ctx raw, x.1.Has x.2.1 x.2.2 := by
  have hcovers : (Interpreter.info rs).Covers (generateIr rs).apply := by
    rw [IrModule.apply, apply_generateIr_eq]
    exact (Interpreter.covers_apply rs).map some
  exact hcovers.has rx ⟨h.regexes, h.slots⟩

end IrGenerator

/-! ## The front half of the compiler -/

namespace Compiler

open IrGenerator (IrModule generateIr)

/-- `CompileOptions`, as far as this half of the compiler reads them. -/
structure CompileOptions where
  /-- The passes over the ruleset are run. -/
  runOptimizer : Bool := true

/-- `ParsedProgram`. -/
structure ParsedProgram where
  ruleset : Ruleset
  plan : List DecisionGroup := []
  deriving DecidableEq, Repr

/-- How compilation fails. -/
inductive Failure
  | errors (messages : List Bytes)
  | raised
  deriving DecidableEq, Repr

/-- The rounds an `Optimizer` has, if it is not told how many. -/
def maxIterations : Nat := 4

/-- **`front_end`.** -/
def frontEnd (recover : Parser.Recovery) (source : Bytes) (opts : CompileOptions) :
    Except Failure ParsedProgram :=
  match Parser.parse recover source with
  | .errors messages => .error (.errors messages)
  | .raised => .error .raised
  | .ruleset rs _ =>
    if opts.runOptimizer then
      let (report, rs') := Optimizer.optimize maxIterations rs.toRuleset
      .ok { ruleset := rs', plan := report.plan }
    else .ok { ruleset := rs.toRuleset }

/-- **`compile_to_ir`**, up to the printing of the module. -/
def compileToIr (recover : Parser.Recovery) (source : Bytes) (opts : CompileOptions) :
    Except Failure IrModule := do
  let prog ← frontEnd recover source opts
  pure (generateIr prog.ruleset)

/-- One rule, which drops a header. -/
def dropServer : Bytes :=
  txt ("sip-manipulation Hide\n header-rule\n name drop\n header-name Server\n"
    ++ " action delete-header\n")

/-- What is parsed from it. -/
def dropServerRules : SourceRuleset where
  name := txt "Hide"
  headerRules := [{
    name := txt "drop"
    headerName := txt "Server"
    action := .deleteHeader }]

/-- They are what is parsed from it. -/
theorem parse_dropServer (recover : Parser.Recovery) :
    Parser.parse recover dropServer = .ruleset dropServerRules [] :=
  Parser.parse_of_visit (by decide +kernel)

/-- The optimizer leaves them as they are. -/
theorem frontEnd_dropServer (recover : Parser.Recovery) : frontEnd recover dropServer {} = .ok
    { ruleset := dropServerRules.toRuleset, plan := [⟨txt "server", [0]⟩] } := by
  rw [frontEnd, parse_dropServer]
  decide +kernel

end Compiler

end Hmr
