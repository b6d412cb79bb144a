import Hmr.Descent
import Hmr.Optimizer

/-!
# The optimizer's loop

The optimizer runs the four passes over a ruleset again and again, until a round of them
changes nothing or the rounds are used up, and then groups the rules that are left by
their headers.

The passes feed each other: what is simplified may repeat what is there, and what is fused
may have element rules that do. All the same none of them makes anything more: a change
drops a rule or an element rule, fuses two rules, or takes a pattern away. So they are
counted together (`Optimizer.measure`), and every change costs one at least
(`Optimizer.descends_apply`). With more rounds than that, the loop ends where there is
nothing left to do for any pass (`Optimizer.optimize_settles`).

## What is asked of a pass

A pass reports how many changes it has made, and the loop goes by these numbers. So two
things are to be shown of each: that it lowers the measure by what it reports, and that it
has done nothing if it reports none. The second is not said by the code anywhere; a pass
that counted fewer changes than it makes would end the loop early.

The measure is a sum over the rules (`Optimizer.measure_eq_sum`). A rule weighs one, and
its element rules and patterns weigh one each. A rule that is dropped takes its weight
with it, and fused rules lose that of a rule.
-/

namespace Hmr

/-! ## Groups -/

/-- `DecisionGroup`: the rules that are about a header, by their positions. -/
structure DecisionGroup where
  headerName : Bytes
  ruleIdx : List Nat
  deriving DecidableEq, Repr

namespace DecisionTreeAnalysisPass

/-- The rule at a position is added to the group of its header, or starts one. -/
def addTo (key : Bytes) (i : Nat) : List DecisionGroup → List DecisionGroup
  | [] => [⟨key, [i]⟩]
  | g :: groups =>
    if g.headerName = key then { g with ruleIdx := g.ruleIdx ++ [i] } :: groups
    else g :: addTo key i groups

/-- The groups of some rules, from a position on. -/
def groupsFrom : Nat → List DecisionGroup → List HeaderRule → List DecisionGroup
  | _, groups, [] => groups
  | i, groups, hr :: rest =>
    groupsFrom (i + 1) (addTo (AstFactory.lower hr.headerName) i groups) rest

/-- **`DecisionTreeAnalysisPass::apply`**: the plan, which is all it changes. -/
def apply (rs : Ruleset) : Nat × List DecisionGroup :=
  let plan := groupsFrom 0 [] rs.headerRules
  (plan.length, plan)

end DecisionTreeAnalysisPass

namespace Optimizer

/-! ## The loop -/

/-- The changes of the transform passes so far: `dedup_total` and so on. -/
structure Totals where
  dedup : Nat := 0
  dce : Nat := 0
  pattern : Nat := 0
  merge : Nat := 0
  deriving DecidableEq, Repr

/-- All of them. -/
def Totals.sum (t : Totals) : Nat := t.dedup + t.dce + t.pattern + t.merge

/-- The body of the loop: one pass after the other. -/
def round (t : Totals) (rs : Ruleset) : Totals × Ruleset :=
  let (dedup, rs) := DeduplicationPass.apply rs
  let (dce, rs) := DeadCodeEliminationPass.apply rs
  let (pattern, rs) := PatternSimplificationPass.apply rs
  let (merge, rs) := RuleMergingPass.apply rs
  (⟨t.dedup + dedup, t.dce + dce, t.pattern + pattern, t.merge + merge⟩, rs)

/-- How the loop is left. -/
structure Exit where
  /-- `iter`. -/
  iterations : Nat
  /-- By the `break`. -/
  fixpoint : Bool
  totals : Totals
  ruleset : Ruleset
  deriving DecidableEq, Repr

/-- **The loop**, with a number of rounds left. -/
def loop : Nat → Totals → Ruleset → Exit
  | 0, t, rs => ⟨0, false, t, rs⟩
  | left + 1, t, rs =>
    let (t', rs') := round t rs
    if t'.sum = t.sum then ⟨1, true, t', rs'⟩
    else
      let e := loop left t' rs'
      { e with iterations := e.iterations + 1 }

/-- `OptimizationReport`. -/
structure Report where
  passes : List (Bytes × Nat)
  plan : List DecisionGroup
  iterations : Nat
  deriving DecidableEq, Repr

/-- **`Optimizer::optimize`.** -/
def optimize (maxIterations : Nat) (rs : Ruleset) : Report × Ruleset :=
  let e := loop maxIterations {} rs
  let (groups, plan) := DecisionTreeAnalysisPass.apply e.ruleset
  ({ passes :=
      [(txt "deduplication", e.totals.dedup), (txt "dead-code-elimination", e.totals.dce),
        (txt "pattern-simplification", e.totals.pattern), (txt "rule-merging", e.totals.merge),
        (txt "decision-tree", groups)]
     plan := plan
     iterations := e.iterations }, e.ruleset)

/-! ## The measure -/

/-- **What there is of a ruleset**: its header rules, its element rules, and the rules of
either kind that are patterns. -/
def measure (rs : Ruleset) : Nat :=
  rs.headerRules.length + (rs.headerRules.map (·.elementRules.length)).sum
    + rs.headerRules.countP (·.comparison == .patternRule)
    + (rs.headerRules.map (·.elementRules.countP (·.comparison == .patternRule))).sum

/-- What there is of a guard. -/
def guardWeight (cmp : ComparisonType) : Nat := if cmp == .patternRule then 1 else 0

/-- What there is of an element rule. -/
def elementWeight (er : ElementRule) : Nat := 1 + guardWeight er.comparison

/-- What there is of a header rule. -/
def weight (hr : HeaderRule) : Nat :=
  1 + guardWeight hr.comparison + (hr.elementRules.map elementWeight).sum

/-- Element rules weigh one each, and their patterns one more. -/
theorem sum_elementWeight (ers : List ElementRule) :
    (ers.map elementWeight).sum = ers.length + ers.countP (·.comparison == .patternRule) := by
  induction ers with
  | nil => rfl
  | cons er ers ih =>
    rw [List.map_cons, List.sum_cons, ih, List.length_cons, List.countP_cons, elementWeight,
      guardWeight]
    omega

/-- **The measure rule by rule.** -/
theorem measure_eq_sum (rs : Ruleset) : measure rs = (rs.headerRules.map weight).sum := by
  unfold measure
  induction rs.headerRules with
  | nil => rfl
  | cons hr hrs ih =>
    rw [List.map_cons, List.map_cons, List.sum_cons, List.sum_cons, List.map_cons, List.sum_cons,
      ← ih, List.length_cons, List.countP_cons, weight, guardWeight, sum_elementWeight]
    omega

/-- A header rule weighs something. -/
theorem one_le_weight (hr : HeaderRule) : 1 ≤ weight hr := by
  rw [weight, Nat.add_assoc]
  exact Nat.le_add_right _ _

/-- So does an element rule. -/
theorem one_le_elementWeight (er : ElementRule) : 1 ≤ elementWeight er := Nat.le_add_right _ _

/-! ## What goes -/

section
variable {α : Type} {idempotent : α → Bool} {sig : α → Bytes} {w : α → Nat} {l : List α}

/-- What is marked has its weight. -/
theorem sum_kept_add_dropped (hw : ∀ a, 1 ≤ w a) (seen : List Bytes) (l : List α) :
    ((kept (markRepeats idempotent sig seen l)).map w).sum
      + dropped (markRepeats idempotent sig seen l) ≤ (l.map w).sum := by
  have hmarked := Descent.sum_filter_add_countP (w := w ∘ Prod.fst) (p := Prod.snd)
    (l := markRepeats idempotent sig seen l) fun q => hw q.1
  rw [← List.map_map, ← List.map_map, markRepeats_fst] at hmarked
  exact hmarked

/-- Where nothing is dropped, all is kept. -/
theorem kept_of_dropped_eq_zero {marked : List (α × Bool)} (h : dropped marked = 0) :
    kept marked = marked.map Prod.fst := by
  rw [kept, List.filter_eq_self.mpr fun q hq => ?_]
  simpa using List.countP_eq_zero.mp h q hq

/-- A sum over a list that is nothing is nothing everywhere. -/
theorem eq_zero_of_sum {β : Type} {n : β → Nat} {l : List β} (h : (l.map n).sum = 0) :
    ∀ b ∈ l, n b = 0 := by
  induction l with
  | nil => simp
  | cons a l ih =>
    obtain ⟨ha, hl⟩ := Nat.add_eq_zero_iff.mp h
    exact List.forall_mem_cons.mpr ⟨ha, ih hl⟩

/-- A map that changes none of the items. -/
theorem map_eq_self {β : Type} {f : β → β} {l : List β} (h : ∀ b ∈ l, f b = b) : l.map f = l :=
  (List.map_congr_left h).trans (List.map_id l)

end

/-! ## The passes -/

open Descent (Descends)

/-- **Deduplication.** -/
theorem descends_deduplication : Descends measure DeduplicationPass.apply where
  identity rs h := by
    have hsame : kept (DeduplicationPass.marked rs) = rs.headerRules := by
      rw [kept_of_dropped_eq_zero h, DeduplicationPass.marked, markRepeats_fst]
    unfold DeduplicationPass.apply
    rw [hsame]
  lowers rs := by
    rw [measure_eq_sum, measure_eq_sum]
    exact sum_kept_add_dropped one_le_weight [] rs.headerRules

namespace DeadCode

open DeadCodeEliminationPass

/-- The no-ops of a rule have weight. -/
theorem weight_strip (hr : HeaderRule) :
    weight (strip hr) + hr.elementRules.countP isNoOp ≤ weight hr := by
  have helements := Descent.sum_filter_add_countP (p := isNoOp) (l := hr.elementRules)
    one_le_elementWeight
  rw [weight, weight, strip]
  dsimp only
  omega

/-- Where there are no no-ops, nothing is stripped. -/
theorem strip_of_zero {hr : HeaderRule} (h : hr.elementRules.countP isNoOp = 0) :
    strip hr = hr := by
  have hsame : hr.elementRules.filter (fun er => !isNoOp er) = hr.elementRules := by
    refine List.filter_eq_self.mpr fun er her => ?_
    simpa using List.countP_eq_zero.mp h er her
  rw [strip, hsame]

end DeadCode

/-- **Dead-code elimination.** -/
theorem descends_deadCode : Descends measure DeadCodeEliminationPass.apply where
  identity rs h := by
    obtain ⟨hdead, hnoops⟩ := Nat.add_eq_zero_iff.mp h
    have hlive : (rs.headerRules.filter fun hr => !DeadCodeEliminationPass.isDead hr)
        = rs.headerRules := by
      refine List.filter_eq_self.mpr fun hr hhr => ?_
      simpa using List.countP_eq_zero.mp hdead hr hhr
    rw [hlive] at hnoops
    have hsame : rs.headerRules.map DeadCodeEliminationPass.strip = rs.headerRules :=
      map_eq_self fun hr hhr => DeadCode.strip_of_zero (eq_zero_of_sum hnoops hr hhr)
    unfold DeadCodeEliminationPass.apply
    dsimp only
    rw [hlive, hsame]
  lowers rs := by
    have hdead := Descent.sum_filter_add_countP (p := DeadCodeEliminationPass.isDead)
      (l := rs.headerRules) one_le_weight
    have hstrip := Descent.sum_map_add_sum
      (l := rs.headerRules.filter fun hr => !DeadCodeEliminationPass.isDead hr)
      fun hr _ => DeadCode.weight_strip hr
    rw [measure_eq_sum, measure_eq_sum]
    unfold DeadCodeEliminationPass.apply
    dsimp only
    omega

namespace Patterns

open PatternSimplificationPass

/-- Whether a guard changes. -/
def changes? (cmp : ComparisonType) (mv : Value) : Nat :=
  if (simplify? cmp mv).isSome then 1 else 0

/-- A guard that changes was a pattern, and is one no more. -/
theorem guardWeight_simplify (cmp : ComparisonType) (mv : Value) :
    guardWeight (simplify cmp mv).1 + changes? cmp mv = guardWeight cmp := by
  unfold simplify changes?
  cases hs : simplify? cmp mv with
  | none => rfl
  | some g =>
    unfold simplify? at hs
    split at hs
    · rename_i hpattern
      rw [Bool.and_eq_true, Bool.and_eq_true] at hpattern
      have hcmp : (cmp == .patternRule) = true := hpattern.1.1
      split at hs
      · cases hs
      · split at hs
        · cases hs
        · cases hs
          rw [guardWeight, guardWeight, hcmp]
          rfl
    · cases hs

/-- A guard that does not change is what it was. -/
theorem simplify_of_zero {cmp : ComparisonType} {mv : Value} (h : changes? cmp mv = 0) :
    simplify cmp mv = (cmp, mv) := by
  unfold changes? at h
  unfold simplify
  cases hs : simplify? cmp mv with
  | none => rfl
  | some g =>
    rw [hs] at h
    cases h

/-- The changes of some element rules, one by one. -/
theorem countP_eq_sum (ers : List ElementRule) :
    ers.countP (fun er => (simplify? er.comparison er.matchValue).isSome)
      = (ers.map fun er => changes? er.comparison er.matchValue).sum := by
  induction ers with
  | nil => rfl
  | cons er ers ih =>
    rw [List.countP_cons, List.map_cons, List.sum_cons, ← ih, Nat.add_comm]
    rfl

/-- A rule loses as many patterns as are changed in it. -/
theorem weight_simplifyRule (hr : HeaderRule) :
    weight (simplifyRule hr) + changes hr ≤ weight hr := by
  have hguard := guardWeight_simplify hr.comparison hr.matchValue
  have helements : ((hr.elementRules.map simplifyElement).map elementWeight).sum
      + (hr.elementRules.map fun er => changes? er.comparison er.matchValue).sum
      ≤ (hr.elementRules.map elementWeight).sum := by
    refine Descent.sum_map_add_sum fun er _ => ?_
    have her := guardWeight_simplify er.comparison er.matchValue
    rw [elementWeight, elementWeight, simplifyElement]
    dsimp only
    omega
  have hchanges : changes hr = changes? hr.comparison hr.matchValue
      + (hr.elementRules.map fun er => changes? er.comparison er.matchValue).sum := by
    rw [changes, countP_eq_sum]
    rfl
  rw [hchanges, weight, weight, simplifyRule]
  dsimp only
  omega

/-- A rule in which none is changed is what it was. -/
theorem simplifyRule_of_zero {hr : HeaderRule} (h : changes hr = 0) : simplifyRule hr = hr := by
  rw [changes, countP_eq_sum] at h
  obtain ⟨hguard, helements⟩ := Nat.add_eq_zero_iff.mp h
  have hsame : hr.elementRules.map simplifyElement = hr.elementRules := by
    refine map_eq_self fun er her => ?_
    rw [simplifyElement, simplify_of_zero (eq_zero_of_sum helements er her)]
  rw [simplifyRule, simplify_of_zero hguard, hsame]

end Patterns

/-- **Pattern simplification.** -/
theorem descends_patterns : Descends measure PatternSimplificationPass.apply where
  identity rs h := by
    have hsame : rs.headerRules.map PatternSimplificationPass.simplifyRule = rs.headerRules :=
      map_eq_self fun hr hhr => Patterns.simplifyRule_of_zero (eq_zero_of_sum h hr hhr)
    unfold PatternSimplificationPass.apply
    rw [hsame]
  lowers rs := by
    rw [measure_eq_sum, measure_eq_sum]
    exact Descent.sum_map_add_sum fun hr _ => Patterns.weight_simplifyRule hr

namespace Merging

open RuleMergingPass

/-- A rule loses what is dropped of it. -/
theorem weight_dropRepeats (hr : HeaderRule) :
    weight (dropRepeats hr) + dropped (marked hr) ≤ weight hr := by
  have helements : ((kept (marked hr)).map elementWeight).sum + dropped (marked hr)
      ≤ (hr.elementRules.map elementWeight).sum :=
    sum_kept_add_dropped one_le_elementWeight [] hr.elementRules
  rw [weight, weight, dropRepeats]
  dsimp only
  omega

/-- Where no element rule is dropped, the rule is what it was. -/
theorem dropRepeats_of_zero {hr : HeaderRule} (h : dropped (marked hr) = 0) :
    dropRepeats hr = hr := by
  have hsame : kept (marked hr) = hr.elementRules := by
    rw [kept_of_dropped_eq_zero h, marked, markRepeats_fst]
  rw [dropRepeats, hsame]

/-- **Fusing** leaves no more rules than there were, and the element rules of all. -/
theorem fuseInto_lowers (back : HeaderRule) (rest : List HeaderRule) :
    (fuseInto back rest).length ≤ rest.length + 1
      ∧ ((fuseInto back rest).map weight).sum + (rest.length + 1 - (fuseInto back rest).length)
        ≤ weight back + (rest.map weight).sum
      ∧ ((fuseInto back rest).length = rest.length + 1 → fuseInto back rest = back :: rest) := by
  -- Where two rules are fused the weight of one is gone, and where they are not the first one
  -- stays.
  induction rest generalizing back with
  | nil => exact ⟨le_rfl, by simp [fuseInto], fun _ => rfl⟩
  | cons hr rest ih =>
    rw [fuseInto]
    split
    · obtain ⟨hlen, hweight, -⟩ :=
        ih { back with elementRules := back.elementRules ++ hr.elementRules }
      have hfused : weight { back with elementRules := back.elementRules ++ hr.elementRules }
          + 1 ≤ weight back + weight hr := by
        rw [weight, weight, weight]
        simp only [List.map_append, List.sum_append]
        omega
      simp only [List.map_cons, List.sum_cons, List.length_cons]
      exact ⟨by omega, by omega, fun h => by omega⟩
    · obtain ⟨hlen, hweight, hsame⟩ := ih hr
      simp only [List.map_cons, List.sum_cons, List.length_cons]
      exact ⟨by omega, by omega, fun h => by rw [hsame (by omega)]⟩

/-- **A list of rules** loses as many as are fused. -/
theorem fuse_lowers (l : List HeaderRule) :
    ((fuse l).map weight).sum + (l.length - (fuse l).length) ≤ (l.map weight).sum
      ∧ (l.length - (fuse l).length = 0 → fuse l = l) := by
  cases l with
  | nil => exact ⟨le_rfl, fun _ => rfl⟩
  | cons hr rest =>
    obtain ⟨hlen, hweight, hsame⟩ := fuseInto_lowers hr rest
    rw [fuse, List.map_cons, List.sum_cons, List.length_cons]
    exact ⟨hweight, fun h => hsame (by omega)⟩

end Merging

/-- **Rule merging.** -/
theorem descends_merging : Descends measure RuleMergingPass.apply where
  identity rs h := by
    obtain ⟨hdropped, hfused⟩ := Nat.add_eq_zero_iff.mp h
    have hsame : rs.headerRules.map RuleMergingPass.dropRepeats = rs.headerRules :=
      map_eq_self fun hr hhr => Merging.dropRepeats_of_zero (eq_zero_of_sum hdropped hr hhr)
    rw [hsame] at hfused
    unfold RuleMergingPass.apply
    dsimp only
    rw [hsame, (Merging.fuse_lowers rs.headerRules).2 hfused]
  lowers rs := by
    have hdropped := Descent.sum_map_add_sum (l := rs.headerRules)
      fun hr _ => Merging.weight_dropRepeats hr
    have hfused := (Merging.fuse_lowers (rs.headerRules.map RuleMergingPass.dropRepeats)).1
    rw [List.length_map] at hfused
    rw [measure_eq_sum, measure_eq_sum]
    unfold RuleMergingPass.apply
    dsimp only
    omega

/-! ## The loop settles -/

/-- The transform passes, in the order they are run in. -/
def transforms : List (Ruleset → Nat × Ruleset) :=
  [DeduplicationPass.apply, DeadCodeEliminationPass.apply, PatternSimplificationPass.apply,
    RuleMergingPass.apply]

/-- **Every change costs something.** -/
theorem descends_apply : ∀ pass ∈ transforms, Descends measure pass := by
  simp only [transforms, List.forall_mem_cons]
  exact ⟨descends_deduplication, descends_deadCode, descends_patterns, descends_merging, by simp⟩

/-- A round as one step. -/
def once : Descent.Step Ruleset :=
  Descent.Step.andThen DeduplicationPass.apply
    (Descent.Step.andThen DeadCodeEliminationPass.apply
      (Descent.Step.andThen PatternSimplificationPass.apply RuleMergingPass.apply))

/-- A round costs what its passes cost. -/
theorem descends_once : Descends measure once :=
  descends_deduplication.andThen
    (descends_deadCode.andThen (descends_patterns.andThen descends_merging))

/-- The body of the loop is a round, and its totals are the changes. -/
theorem round_eq (t : Totals) (rs : Ruleset) :
    (round t rs).2 = (once rs).2 ∧ (round t rs).1.sum = t.sum + (once rs).1 := by
  refine ⟨rfl, ?_⟩
  simp only [round, Totals.sum, once, Descent.Step.andThen]
  omega

/-- One more round of the loop. -/
theorem loop_succ (left : Nat) (t : Totals) (rs : Ruleset) :
    loop (left + 1) t rs
      = if (round t rs).1.sum = t.sum then ⟨1, true, (round t rs).1, (round t rs).2⟩
        else
          { loop left (round t rs).1 (round t rs).2 with
            iterations := (loop left (round t rs).1 (round t rs).2).iterations + 1 } := rfl

/-- **The loop is the repeated round.** -/
theorem loop_eq (left : Nat) (t : Totals) (rs : Ruleset) :
    (loop left t rs).iterations = (once.repeat left rs).rounds
      ∧ (loop left t rs).fixpoint = (once.repeat left rs).settled
      ∧ (loop left t rs).totals.sum = t.sum + (once.repeat left rs).changes
      ∧ (loop left t rs).ruleset = (once.repeat left rs).state := by
  induction left generalizing t rs with
  | zero => exact ⟨rfl, rfl, rfl, rfl⟩
  | succ left ih =>
    obtain ⟨hstate, hsum⟩ := round_eq t rs
    rw [loop_succ, Descent.Step.repeat]
    by_cases hzero : (once rs).1 = 0
    · have hstop : (round t rs).1.sum = t.sum := by omega
      rw [if_pos hstop, if_pos hzero]
      exact ⟨rfl, rfl, by rw [hstop]; rfl, hstate⟩
    · have hgo : ¬ (round t rs).1.sum = t.sum := by omega
      rw [if_neg hgo, if_neg hzero]
      obtain ⟨hrounds, hsettled, hchanges, hend⟩ := ih (round t rs).1 (round t rs).2
      rw [hstate] at hrounds hsettled hchanges hend
      dsimp only
      rw [hstate, hrounds, hsettled, hchanges, hend, hsum, Nat.add_assoc]
      exact ⟨rfl, rfl, rfl, rfl⟩

/-- What a round leaves as it is, every pass leaves as it is. -/
theorem transforms_of_once {rs : Ruleset} (h : once rs = (0, rs)) :
    ∀ pass ∈ transforms, pass rs = (0, rs) := by
  obtain ⟨hdedup, h⟩ := descends_deduplication.of_andThen h
  obtain ⟨hdce, h⟩ := descends_deadCode.of_andThen h
  obtain ⟨hpattern, hmerge⟩ := descends_patterns.of_andThen h
  simp only [transforms, List.forall_mem_cons]
  exact ⟨hdedup, hdce, hpattern, hmerge, by simp⟩

/-- **The optimizer ends at a fixpoint.** A transform pass that reports no change has made
none, and each change it reports lowers the measure. So with more rounds than the measure
of the ruleset, the loop is left by its `break`, within one round more than the measure,
at a ruleset that every pass leaves as it is; and no more changes than the measure are
reported. -/
theorem optimize_settles (rs : Ruleset) :
    (∀ pass ∈ transforms, ((pass rs).1 = 0 → (pass rs).2 = rs)
        ∧ measure (pass rs).2 + (pass rs).1 ≤ measure rs)
      ∧ ∀ maxIterations, measure rs < maxIterations →
        (loop maxIterations {} rs).fixpoint = true
          ∧ (optimize maxIterations rs).1.iterations ≤ measure rs + 1
          ∧ (∀ pass ∈ transforms, pass (optimize maxIterations rs).2
            = (0, (optimize maxIterations rs).2))
          ∧ (((optimize maxIterations rs).1.passes.take 4).map Prod.snd).sum ≤ measure rs := by
  refine ⟨fun pass hpass => ⟨(descends_apply pass hpass).identity rs,
    (descends_apply pass hpass).lowers rs⟩, fun maxIterations hmax => ?_⟩
  -- The loop is the repeated round, of which all that is claimed is known.
  obtain ⟨hrounds, hsettled, hchanges, hstate⟩ := loop_eq maxIterations {} rs
  obtain ⟨hend, hle, hfix, hsum⟩ := descends_once.repeat_settles hmax
  rw [← hstate] at hfix
  refine ⟨hsettled.trans hend, ?_, transforms_of_once hfix, ?_⟩
  · exact hrounds.trans_le hle
  · have hzero : ({} : Totals).sum = 0 := rfl
    have hreport : (((optimize maxIterations rs).1.passes.take 4).map Prod.snd).sum
        = (loop maxIterations {} rs).totals.sum := by
      simp only [optimize, Totals.sum, List.take_succ_cons, List.take_zero, List.map_cons,
        List.map_nil, List.sum_cons, List.sum_nil]
      omega
    rw [hreport, hchanges, hzero, Nat.zero_add]
    exact hsum

/-- Two rules that say the same, one of them with a pattern. -/
theorem optimize_settles_example :
    let rule : HeaderRule :=
      { headerName := txt "To", action := .delete, matchValue := Value.verbatim (txt "b") }
    let pattern : HeaderRule :=
      { rule with comparison := .patternRule, matchValue := Value.verbatim (txt "^b$") }
    measure ⟨[], [rule, pattern]⟩ = 3
      ∧ (loop 4 {} ⟨[], [rule, pattern]⟩).fixpoint = true
      ∧ (optimize 4 ⟨[], [rule, pattern]⟩).1.iterations ≤ 4 := by
  intro rule pattern
  have hmeasure : measure ⟨[], [rule, pattern]⟩ = 3 := by decide
  obtain ⟨-, hsettles⟩ := optimize_settles ⟨[], [rule, pattern]⟩
  obtain ⟨hfix, hrounds, -⟩ := hsettles 4 (by rw [hmeasure]; decide)
  rw [hmeasure] at hrounds
  exact ⟨hmeasure, hfix, hrounds⟩

end Optimizer

end Hmr
