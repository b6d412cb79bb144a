import Hmr.Effects
import Hmr.Rewriting

/-!
# Rules that are fused

Rule merging drops an element rule that repeats an earlier one of its header rule, and
fuses neighbouring `manipulate` rules with the same guard into one, which has the element
rules of all of them. What was guarded by the header as the rules before it left it is
then guarded by the header as it was in front of the first; and a new-value at header
level, which only a rule without element rules sets, is set no more.

Side by side, the guards and the header-level sets of the rules that go are run by the
first machine alone; their element rules are run by both, the second under the names of
the first rule of the group.

## Groups

The first machine runs a group rule by rule, as the ruleset has it, and the second what
the pass has fused. When the first rule of the group fires, each further rule's guard is
the first machine's own affair: if it holds, both run its element rules, and if it does
not, the second machine runs them alone and is to show nothing. When the first rule does
not fire, the second machine is done with the group, and the further rules are to show
nothing on the first.

An element rule that repeats an earlier one is run by the first machine alone, as a
dropped rule is.

## Under another name

An element rule knows the header rule it is in by the header name, which it may be written
differently, and by the slot its own match goes to if it has no name. So it is the same
element rule with its calls retargeted (`Pair.mapCalls_elementRule`), and nothing else of
the header rule gets into it.
-/

namespace Hmr

open Meaning (callProg)

namespace Pair

variable {rx : RegexEngine}

/-! ## Element rules under another header rule -/

/-- The calls of an element rule of one header rule, as those of another: under
its header name, and into its slot. -/
def retarget (hr' : HeaderRule) (er : ElementRule) : ∀ i, SymCall i → SymCall i
  | _, .getHeader _ => .getHeader (clip hr'.headerName)
  | _, .setHeader _ value => .setHeader (clip hr'.headerName) value
  | _, .deleteHeader _ => .deleteHeader (clip hr'.headerName)
  | _, .store _ value => .store (Meaning.elementSlot hr' er) value
  | _, c => c

/-- A call of an element rule, by the second machine under another header
rule. -/
def stepAs (rx : RegexEngine) (hr' : HeaderRule) (er : ElementRule) :
    ∀ i, SymCall i → StateT Pair Option i.den
  | _, .getHeader name => both rx (.getHeader name) (.getHeader (clip hr'.headerName))
  | _, .setHeader name value =>
    both rx (.setHeader name value) (.setHeader (clip hr'.headerName) value)
  | _, .deleteHeader name => both rx (.deleteHeader name) (.deleteHeader (clip hr'.headerName))
  | _, .store slot value =>
    apart rx (Prog.perform (.store slot value))
      (Prog.perform (.store (Meaning.elementSlot hr' er) value))
  | _, c => step rx _ c

/-- The first machine makes the call. -/
theorem tracks_stepAs (rx : RegexEngine) (hr' : HeaderRule) (er : ElementRule) {i : RetTy}
    (c : SymCall i) :
    Tracks (Machine.calls rx) IsMachine (stepAs rx hr' er i c) (Prog.perform c) := by
  cases c with
  | getHeader name => exact tracks_both rx _ _
  | setHeader name value => exact tracks_both rx _ _
  | deleteHeader name => exact tracks_both rx _ _
  | store slot value => exact tracks_apart _ _
  | _ => exact tracks_step rx _

/-- The second makes it retargeted. -/
theorem other_stepAs (rx : RegexEngine) (hr' : HeaderRule) (er : ElementRule) {i : RetTy}
    (c : SymCall i) :
    Tracks (fun i c => Machine.calls rx i (retarget hr' er i c)) IsOther (stepAs rx hr' er i c)
      (Prog.perform c) := by
  have hnat : Tracks (Machine.calls rx) IsOther (stepAs rx hr' er i c)
      (Prog.perform (retarget hr' er i c)) := by
    cases c with
    | getHeader name => exact other_both rx _ _
    | setHeader name value => exact other_both rx _ _
    | deleteHeader name => exact other_both rx _ _
    | store slot value => exact other_apart _ _
    | _ => exact other_step rx _
  exact hnat

section
variable (hr' : HeaderRule) (er : ElementRule)

/-- Segments are put together without either. -/
@[simp] theorem mapCalls_appendSegments (segs : List ValueSegment) :
    (Meaning.appendSegments callProg segs).mapCalls (retarget hr' er)
      = Meaning.appendSegments callProg segs := by
  induction segs with
  | nil => rfl
  | cons s rest ih =>
    have hs : (Meaning.appendSegment callProg s).mapCalls (retarget hr' er)
        = Meaning.appendSegment callProg s := by
      cases s with
      | literal text =>
        unfold Meaning.appendSegment
        dsimp only
        cases text.isEmpty <;> rfl
      | ref r =>
        unfold Meaning.appendSegment
        dsimp only
        cases r.kind <;> rfl
    rw [Meaning.appendSegments, Prog.mapCalls_bind, hs, ih]

/-- A value reads neither the header table nor writes to a slot. -/
@[simp] theorem mapCalls_value (v : Value) :
    (Meaning.value callProg v).mapCalls (retarget hr' er) = Meaning.value callProg v := by
  unfold Meaning.value
  cases v.isEmpty with
  | true => rfl
  | false =>
    cases v.isPureLiteral with
    | true => rfl
    | false =>
      rw [if_neg Bool.false_ne_true, if_neg Bool.false_ne_true]
      cases v.singleRef? with
      | some r =>
        unfold Meaning.refValue
        dsimp only
        cases r.kind <;> rfl
      | none =>
        show Prog.call RtCall.valReset _ = Prog.call RtCall.valReset _
        refine congrArg _ (funext fun _ => ?_)
        show Prog.mapCalls _ (Meaning.appendSegments callProg v.segments >>= _) = _
        rw [Prog.mapCalls_bind, mapCalls_appendSegments]
        rfl

/-- A log or a reject has nothing to be retargeted. -/
@[simp] theorem mapCalls_message (name : Bytes) (v : Value) :
    (Meaning.message callProg name v).mapCalls (retarget hr' er)
      = Meaning.message callProg name v := by
  unfold Meaning.message
  rw [Prog.mapCalls_ite, mapCalls_value]
  rfl

/-- Nor has a guard. -/
theorem mapCalls_guard (cmp : ComparisonType) (mvt : MatchValType) (mv : Value)
    (subject : Bytes) :
    (Meaning.guard callProg cmp mvt mv subject).mapCalls (retarget hr' er)
      = Meaning.guard callProg cmp mvt mv subject := by
  unfold Meaning.guard Meaning.matchCall
  cases Meaning.alwaysHolds mv with
  | true => rfl
  | false =>
    dsimp only
    cases Lowering.isPattern cmp <;> rfl

/-- **An element rule under another header rule** is the element rule with its calls retargeted.
The header it gets, sets or deletes is the one the other rule is about, and what it stores goes
to a slot of its own under that rule; its guard, its value and its message see neither. -/
theorem mapCalls_elementRule (hr : HeaderRule) :
    (Meaning.elementRule callProg (Meaning.guard callProg) hr er).mapCalls (retarget hr' er)
      = Meaning.elementRule callProg (Meaning.guard callProg) hr' er := by
  unfold Meaning.elementRule
  cases Lowering.uriElement er.type with
  | none => rfl
  | some elem =>
    -- What is written goes under the other header rule; what is compared or evaluated does not
    -- see it.
    have haction : ∀ hv ev,
        (Meaning.elementAction callProg hr er elem hv ev).mapCalls (retarget hr' er)
          = Meaning.elementAction callProg hr' er elem hv ev := by
      intro hv ev
      unfold Meaning.elementAction
      cases er.action with
      | replace =>
        dsimp only
        rw [Prog.mapCalls_bind, mapCalls_value]
        refine congrArg _ (funext fun nv => ?_)
        rw [Prog.mapCalls_ite]
        rfl
      | deleteElement =>
        dsimp only
        rw [Prog.mapCalls_ite]
        rfl
      | reject =>
        dsimp only
        rw [Prog.mapCalls_bind, mapCalls_message]
        rfl
      | _ => rfl
    have hvalue : ∀ hv, (Meaning.elementValue callProg hv elem).mapCalls (retarget hr' er)
        = Meaning.elementValue callProg hv elem := by
      intro hv
      unfold Meaning.elementValue
      rw [Prog.mapCalls_ite]
      rfl
    refine congrArg (Prog.call (RtCall.getHeader (clip hr'.headerName))) (funext fun hv => ?_)
    show Prog.mapCalls _ (Meaning.elementValue callProg hv elem >>= _) = _
    rw [Prog.mapCalls_bind, hvalue]
    refine congrArg _ (funext fun ev => ?_)
    rw [Prog.mapCalls_bind, mapCalls_guard]
    refine congrArg _ (funext fun ok => ?_)
    rw [Prog.mapCalls_ite, haction]
    rfl

end

end Pair

namespace RuleMergingPass

variable {rx : RegexEngine}

/-- What a group comes to: the first rule, with the element rules of all. -/
def fused (hr : HeaderRule) (members : List HeaderRule) : HeaderRule :=
  { hr with elementRules := kept (marked hr) ++ members.flatMap fun m => kept (marked m) }

/-- The element rules of a rule, which the second machine runs under the rule
`hr'`. One that goes is run by the first machine alone. -/
def followElements (rx : RegexEngine) (hr hr' : HeaderRule) :
    List (ElementRule × Bool) → StateT Pair Option Flow
  | [] => pure .continue
  | (er, true) :: rest => do
    match ← Pair.left rx (Meaning.elementRule callProg (Meaning.guard callProg) hr er) with
    | .rejected => failure
    | .continue => followElements rx hr hr' rest
  | (er, false) :: rest => do
    match ← Meaning.elementRule (Pair.stepAs rx hr' er) (Meaning.guard (Pair.stepAs rx hr' er))
        hr er with
    | .rejected => pure .rejected
    | .continue => followElements rx hr hr' rest

/-- The further rules of a group, when the fused rule `hr'` has fired. -/
def followMembers (rx : RegexEngine) (hr' : HeaderRule) :
    Nat → List HeaderRule → StateT Pair Option Flow
  | _, [] => pure .continue
  | i, hr :: rest => do
    match ← Pair.left rx (Meaning.fires callProg (Meaning.guard callProg) hr) with
    | none => do
      match ← Pair.right rx (Meaning.elementRules callProg (Meaning.guard callProg) hr'
          (kept (marked hr))) with
      | .rejected => failure
      | .continue => followMembers rx hr' (i + 1) rest
    | some hv => do
      if ← Pair.left rx (Meaning.headerAction callProg (Meaning.store callProg i) hr hv) then
        failure
      else do
        match ← followElements rx hr hr' (marked hr) with
        | .rejected => pure .rejected
        | .continue => followMembers rx hr' (i + 1) rest

/-- The action of the first rule of a group. One that sets its header only as long
as it has no element rules does so on the first machine. -/
def followAction (rx : RegexEngine) (i j : Nat) (hr : HeaderRule) (members : List HeaderRule)
    (hv : Bytes) : StateT Pair Option Bool :=
  if hr.elementRules.isEmpty && !(fused hr members).elementRules.isEmpty then do
    if ← Pair.left rx (Meaning.headerAction callProg (Meaning.store callProg i) hr hv) then failure
    else pure false
  else Meaning.headerAction (Pair.step rx) (fun hr => Pair.stores rx i j hr hr) hr hv

/-- A group, from position `i` on before the pass and at position `j` after
it. -/
def followGroup (rx : RegexEngine) (i j : Nat) (hr : HeaderRule) (members : List HeaderRule) :
    StateT Pair Option Flow := do
  match ← Meaning.fires (Pair.step rx) (Meaning.guard (Pair.step rx)) hr with
  | none => do
    match ← Pair.left rx (Meaning.flowFrom (i + 1) members) with
    | .rejected => failure
    | .continue => pure .continue
  | some hv => do
    if ← followAction rx i j hr members hv then pure .rejected
    else do
      match ← followElements rx hr (fused hr members) (marked hr) with
      | .rejected => pure .rejected
      | .continue => followMembers rx (fused hr members) (i + 1) members

/-- The walk, with the group it is in. -/
def followFrom (rx : RegexEngine) :
    Nat → Nat → HeaderRule → List HeaderRule → List HeaderRule → StateT Pair Option HmrVerdict
  | i, j, hr, members, [] => do
    match ← followGroup rx i j hr members with
    | .rejected => pure .rejected
    | .continue => pure .ok
  | i, j, hr, members, next :: rest =>
    if fuses hr next then followFrom rx i j hr (members ++ [next]) rest
    else do
      match ← followGroup rx i j hr members with
      | .rejected => pure .rejected
      | .continue => followFrom rx (i + members.length + 1) (j + 1) next [] rest

/-- **The ruleset before and after rule merging**, side by side. -/
def sideBySide (rx : RegexEngine) (rs : Ruleset) : StateT Pair Option HmrVerdict :=
  match rs.headerRules with
  | [] => pure .ok
  | hr :: rest => followFrom rx 0 0 hr [] rest

/-! ### The ruleset before the pass -/

/-- **The element rules of a rule**, dropped ones included, are run by the first machine. -/
theorem tracks_followElements (rx : RegexEngine) (hr hr' : HeaderRule)
    (ers : List (ElementRule × Bool)) :
    Tracks (Machine.calls rx) Pair.IsMachine (followElements rx hr hr' ers)
      (Meaning.elementRules callProg (Meaning.guard callProg) hr (ers.map Prod.fst)) := by
  induction ers with
  | nil => exact Tracks.pure _
  | cons p rest ih =>
    obtain ⟨er, gone⟩ := p
    cases gone with
    | true =>
      refine (Pair.tracks_left _).bind fun flow => ?_
      cases flow with
      | rejected => exact Tracks.failure
      | «continue» => exact ih
    | false =>
      refine (Meaning.tracks_elementRule (fun _ c => Pair.tracks_stepAs rx hr' er c)
        (Meaning.tracks_guard fun _ c => Pair.tracks_stepAs rx hr' er c) hr er).bind fun flow => ?_
      cases flow with
      | rejected => exact Tracks.pure _
      | «continue» => exact ih

/-- Marking loses no element rule. -/
theorem marked_fst (hr : HeaderRule) : (marked hr).map Prod.fst = hr.elementRules :=
  markRepeats_fst _ _ _ _

/-- So are the further rules of a group, with their guards. -/
theorem tracks_followMembers (hr' : HeaderRule) (i : Nat) (members : List HeaderRule) :
    Tracks (Machine.calls rx) Pair.IsMachine (followMembers rx hr' i members)
      (Meaning.flowFrom i members) := by
  induction members generalizing i with
  | nil => exact Tracks.pure _
  | cons hr rest ih =>
    rw [Meaning.flowFrom, Meaning.rule, Meaning.headerRule, bind_assoc]
    refine (Pair.tracks_left _).bind fun fired => ?_
    cases fired with
    | none =>
      refine Pair.tracks_skip_right _ fun flow => ?_
      cases flow with
      | rejected => exact Tracks.failure
      | «continue» => exact ih (i + 1)
    | some hv =>
      dsimp only
      rw [bind_assoc]
      refine (Pair.tracks_left _).bind fun rejected => ?_
      cases rejected with
      | true => exact Tracks.failure
      | false =>
        have hers := tracks_followElements rx hr hr' (marked hr)
        rw [marked_fst] at hers
        refine hers.bind fun flow => ?_
        cases flow with
        | rejected => exact Tracks.pure _
        | «continue» => exact ih (i + 1)

/-- So is the action of its first rule. -/
theorem tracks_followAction (i j : Nat) (hr : HeaderRule) (members : List HeaderRule)
    (hv : Bytes) :
    Tracks (Machine.calls rx) Pair.IsMachine (followAction rx i j hr members hv)
      (Meaning.headerAction callProg (Meaning.store callProg i) hr hv) := by
  unfold followAction
  split
  · refine (Pair.tracks_left _).check fun rejected => ?_
    cases rejected with
    | true => exact Tracks.failure
    | false => exact Tracks.pure _
  · exact Meaning.tracks_headerAction (fun _ c => Pair.tracks_step rx c)
      (fun _ _ => Pair.tracks_apart _ _) hr hv

/-- **A group** is run by the first machine rule by rule. -/
theorem tracks_followGroup (i j : Nat) (hr : HeaderRule) (members : List HeaderRule) :
    Tracks (Machine.calls rx) Pair.IsMachine (followGroup rx i j hr members)
      (Meaning.flowFrom i (hr :: members)) := by
  rw [Meaning.flowFrom, Meaning.rule, Meaning.headerRule, bind_assoc]
  refine (Meaning.tracks_fires (fun _ c => Pair.tracks_step rx c)
    (Meaning.tracks_guard fun _ c => Pair.tracks_step rx c) hr).bind fun fired => ?_
  cases fired with
  | none =>
    dsimp only
    rw [pure_bind]
    refine (Pair.tracks_left _).check fun flow => ?_
    cases flow with
    | rejected => exact Tracks.failure
    | «continue» => exact Tracks.pure _
  | some hv =>
    dsimp only
    rw [bind_assoc]
    refine (tracks_followAction i j hr members hv).bind fun rejected => ?_
    cases rejected with
    | true => exact Tracks.pure _
    | false =>
      have hers := tracks_followElements rx hr (fused hr members) (marked hr)
      rw [marked_fst] at hers
      refine hers.bind fun flow => ?_
      cases flow with
      | rejected => exact Tracks.pure _
      | «continue» => exact tracks_followMembers _ _ _

/-- And so is the ruleset. -/
theorem tracks_followFrom (i j : Nat) (hr : HeaderRule) (members rest : List HeaderRule) :
    Tracks (Machine.calls rx) Pair.IsMachine (followFrom rx i j hr members rest)
      (Meaning.rulesFrom callProg i (hr :: members ++ rest)) := by
  induction rest generalizing i j hr members with
  | nil =>
    rw [Meaning.rulesFrom_append]
    refine (tracks_followGroup i j hr members).bind fun flow => ?_
    cases flow <;> exact Tracks.pure _
  | cons next rest ih =>
    unfold followFrom
    split
    · have h := ih i j hr (members ++ [next])
      rwa [List.cons_append, List.append_assoc] at h
    · rw [Meaning.rulesFrom_append]
      refine (tracks_followGroup i j hr members).bind fun flow => ?_
      cases flow with
      | rejected => exact Tracks.pure _
      | «continue» => exact ih _ _ next []

/-! ### The ruleset after the pass -/

/-- **The element rules that are kept** are run by the second machine, under the first rule of
the group. -/
theorem other_followElements (hr hr' : HeaderRule) (ers : List (ElementRule × Bool)) :
    Tracks (Machine.calls rx) Pair.IsOther (followElements rx hr hr' ers)
      (Meaning.elementRules callProg (Meaning.guard callProg) hr' (kept ers)) := by
  induction ers with
  | nil => exact Tracks.pure _
  | cons p rest ih =>
    obtain ⟨er, gone⟩ := p
    cases gone with
    | true =>
      refine Pair.other_skip_left _ fun flow => ?_
      cases flow with
      | rejected => exact Tracks.failure
      | «continue» => exact ih
    | false =>
      have her := (Meaning.tracks_elementRule (fun _ c => Pair.other_stepAs rx hr' er c)
        (Meaning.tracks_guard fun _ c => Pair.other_stepAs rx hr' er c) hr er).mapCalls
      rw [Pair.mapCalls_elementRule] at her
      refine her.bind fun flow => ?_
      cases flow with
      | rejected => exact Tracks.pure _
      | «continue» => exact ih

/-- So are those of the further rules. -/
theorem other_followMembers (hr' : HeaderRule) (i : Nat) (members : List HeaderRule) :
    Tracks (Machine.calls rx) Pair.IsOther (followMembers rx hr' i members)
      (Meaning.elementRules callProg (Meaning.guard callProg) hr'
        (members.flatMap fun m => kept (marked m))) := by
  induction members generalizing i with
  | nil => exact Tracks.pure _
  | cons hr rest ih =>
    rw [List.flatMap_cons, Meaning.elementRules_append]
    refine Pair.other_skip_left _ fun fired => ?_
    cases fired with
    | none =>
      refine (Pair.other_right _).bind fun flow => ?_
      cases flow with
      | rejected => exact Tracks.failure
      | «continue» => exact ih (i + 1)
    | some hv =>
      refine Pair.other_skip_left _ fun rejected => ?_
      cases rejected with
      | true => exact Tracks.failure
      | false =>
        refine (other_followElements hr hr' (marked hr)).bind fun flow => ?_
        cases flow with
        | rejected => exact Tracks.pure _
        | «continue» => exact ih (i + 1)

/-- A group whose first rule has element rules has element rules. -/
theorem isEmpty_fused (hr : HeaderRule) (members : List HeaderRule)
    (h : hr.elementRules.isEmpty = false) : (fused hr members).elementRules.isEmpty = false := by
  unfold fused marked
  cases he : hr.elementRules with
  | nil =>
    rw [he] at h
    cases h
  | cons er rest =>
    unfold markRepeats
    cases hi : er.action.isIdempotent <;> rfl

/-- A rule that is alone in its group has the element rules of the group. -/
theorem isEmpty_fused_nil (hr : HeaderRule) (h : hr.elementRules.isEmpty = true) :
    (fused hr []).elementRules.isEmpty = true := by
  unfold fused marked
  rw [List.isEmpty_iff.mp h]
  rfl

/-- The action is that of the fused rule. A fused rule has element rules if one of its members
has, and then it sets nothing itself, as its first rule would have without any; this is the one
action of the first rule that is followed on the left alone. -/
theorem other_followAction (i j : Nat) (hr : HeaderRule) (members : List HeaderRule)
    (hm : members ≠ [] → hr.action = .manipulate) (hv : Bytes) :
    Tracks (Machine.calls rx) Pair.IsOther (followAction rx i j hr members hv)
      (Meaning.headerAction callProg (Meaning.store callProg j) (fused hr members) hv) := by
  unfold followAction
  -- A header-level set is the one action that the fused rule may be without.
  split
  · rename_i h
    rw [Bool.and_eq_true, Bool.not_eq_true'] at h
    have hmembers : members ≠ [] := by
      rintro rfl
      rw [isEmpty_fused_nil hr h.1] at h
      cases h.2
    have hnone : Meaning.headerAction callProg (Meaning.store callProg j) (fused hr members) hv
        = pure false := by
      unfold Meaning.headerAction
      rw [show (fused hr members).action = .manipulate from hm hmembers, h.2]
      exact if_neg (by rw [Bool.and_false]; exact Bool.false_ne_true)
    rw [hnone]
    refine Pair.other_skip_left _ fun rejected => ?_
    cases rejected with
    | true => exact Tracks.failure
    | false => exact Tracks.pure _
  · rename_i h
    have hempty : (fused hr members).elementRules.isEmpty = hr.elementRules.isEmpty := by
      cases he : hr.elementRules.isEmpty with
      | true => simpa [he] using h
      | false => exact isEmpty_fused hr members he
    have hsame : Meaning.headerAction callProg (Meaning.store callProg j) (fused hr members) hv
        = Meaning.headerAction callProg (Meaning.store callProg j) hr hv := by
      unfold Meaning.headerAction
      rw [hempty]
      rfl
    rw [hsame]
    exact Meaning.tracks_headerAction (fun _ c => Pair.other_step rx c)
      (fun _ _ => Pair.other_apart _ _) hr hv

/-- **A group** is run by the second machine as the rule it is fused into. -/
theorem other_followGroup (i j : Nat) (hr : HeaderRule) (members : List HeaderRule)
    (hm : members ≠ [] → hr.action = .manipulate) :
    Tracks (Machine.calls rx) Pair.IsOther (followGroup rx i j hr members)
      (Meaning.rule callProg j (fused hr members)) := by
  rw [Meaning.rule, Meaning.headerRule]
  refine (Meaning.tracks_fires (fun _ c => Pair.other_step rx c)
    (Meaning.tracks_guard fun _ c => Pair.other_step rx c) hr).bind fun fired => ?_
  cases fired with
  | none =>
    refine Pair.other_skip_left _ fun flow => ?_
    cases flow with
    | rejected => exact Tracks.failure
    | «continue» => exact Tracks.pure _
  | some hv =>
    refine (other_followAction i j hr members hm hv).bind fun rejected => ?_
    cases rejected with
    | true => exact Tracks.pure _
    | false =>
      show Tracks _ _ _ (Meaning.elementRules callProg (Meaning.guard callProg)
        (fused hr members) (kept (marked hr) ++ members.flatMap fun m => kept (marked m)))
      rw [Meaning.elementRules_append]
      refine (other_followElements hr (fused hr members) (marked hr)).bind fun flow => ?_
      cases flow with
      | rejected => exact Tracks.pure _
      | «continue» => exact other_followMembers _ _ _

/-- And the ruleset as the pass leaves it. By induction on the rules that are still to come, with
the group that is open: the next rule joins it exactly where the pass fuses (`fuses`), or it
closes the group, is the first rule of the next one, and is numbered one higher. -/
theorem other_followFrom (rx : RegexEngine) (i j : Nat) (hr : HeaderRule)
    (members rest : List HeaderRule) (hm : members ≠ [] → hr.action = .manipulate) :
    Tracks (Machine.calls rx) Pair.IsOther (followFrom rx i j hr members rest)
      (Meaning.rulesFrom callProg j (fuseInto (fused hr members) (rest.map dropRepeats))) := by
  -- A rule either joins the group that is open or ends it, and the pass fuses in the same
  -- order.
  induction rest generalizing i j hr members with
  | nil =>
    refine (other_followGroup i j hr members hm).bind fun flow => ?_
    cases flow <;> exact Tracks.pure _
  | cons next rest ih =>
    rw [List.map_cons, fuseInto,
      show fuses (fused hr members) (dropRepeats next) = fuses hr next from rfl]
    unfold followFrom
    -- The fused rule has the guards and the action of its first one, and no more is looked at.
    cases hf : fuses hr next with
    | true =>
      have hmanipulate : hr.action = .manipulate := by
        unfold fuses at hf
        simp only [Bool.and_eq_true, beq_iff_eq] at hf
        exact hf.1.1.1.1.1.2
      have h := ih i j hr (members ++ [next]) fun _ => hmanipulate
      have heq : fused hr (members ++ [next])
          = { fused hr members with
              elementRules := (fused hr members).elementRules
                ++ (dropRepeats next).elementRules } := by
        unfold fused dropRepeats
        rw [List.flatMap_append, List.flatMap_singleton, List.append_assoc]
      rw [heq] at h
      exact h
    | false =>
      rw [if_neg Bool.false_ne_true, if_neg Bool.false_ne_true, Meaning.rulesFrom]
      refine (other_followGroup i j hr members hm).bind fun flow => ?_
      cases flow with
      | rejected => exact Tracks.pure _
      | «continue» =>
        have h := ih (i + members.length + 1) (j + 1) next [] fun h => absurd rfl h
        have heq : fused next [] = dropRepeats next := by
          unfold fused dropRepeats
          rw [List.flatMap_nil, List.append_nil]
        rw [heq] at h
        exact h

/-- Two neighbours, under two spellings of a header, whose element rules replace
it. -/
def replaceTwice : Ruleset where
  headerRules :=
    [{ headerName := txt "X", action := .manipulate
       elementRules :=
         List.replicate 2 { type := .headerValue, action := .replace,
                            newValue := Value.verbatim (txt "y") } },
      { headerName := txt "x", action := .manipulate
        elementRules :=
          [{ type := .headerValue, action := .replace,
             newValue := Value.verbatim (txt "z") }] }]

/-- Two neighbours that set a header. -/
def setTwice : Ruleset where
  headerRules :=
    [{ headerName := txt "X", action := .manipulate, newValue := Value.verbatim (txt "y") },
      { headerName := txt "X", action := .manipulate, newValue := Value.verbatim (txt "z") }]

end RuleMergingPass

end Hmr
