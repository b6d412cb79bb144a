import Hmr.Rewriting

/-!
# The passes that drop rules

Deduplication drops a rule that says what an earlier one said, and dead-code
elimination one that is taken to do nothing. Both look at the rule and not at
what runs between, so both drop rules that do something: a header deleted, added
and deleted again is there after deduplication, and a rule without an action
still runs its element rules.

What they drop may be missed or not, and reading the two rulesets side by side
tells. A dropped rule is run by the first machine alone and is to show nothing.
What it leaves different behind – a slot, the groups of a match, space in the
arena – is no harm as long as both machines answer every later call the same;
once both have stored to the slot, or have searched again, it is no longer
different, and may be read. So the packet comes to the same as long as a dropped
rule shows nothing where it would have run, and no later call is answered
differently because it has not.

The two passes are read by the same walk (`Pair.walk`), with rules marked as the
pass marks them. What differs is how a rule that stays is followed: after
deduplication as it is, after dead-code elimination without its no-ops, which may
uncover a header-level set that the second machine then does alone.
-/

namespace Hmr

open Meaning (callProg)

/-! ## Deduplication -/

namespace DeduplicationPass

variable {rx : RegexEngine}

/-- A rule that stays, at position `i` before the pass and `j` after it. -/
def follow (rx : RegexEngine) (i j : Nat) (hr : HeaderRule) : StateT Pair Option Flow :=
  Meaning.headerRule (Pair.step rx) (Meaning.guard (Pair.step rx))
    (fun hr => Pair.stores rx i j hr hr) hr

/-- **The ruleset before and after deduplication**, side by side. -/
def sideBySide (rx : RegexEngine) (rs : Ruleset) : StateT Pair Option HmrVerdict :=
  Pair.walk rx (follow rx) 0 0 (marked rs)

/-- The first machine runs a rule that stays, at its old position. -/
theorem tracks_follow (i j : Nat) (hr : HeaderRule) :
    Tracks (Machine.calls rx) Pair.IsMachine (follow rx i j hr) (Meaning.rule callProg i hr) :=
  Meaning.tracks_headerRule (fun _ c => Pair.tracks_step rx c)
    (Meaning.tracks_guard fun _ c => Pair.tracks_step rx c)
    (fun _ _ => Pair.tracks_apart _ _) hr

/-- The second runs it at its new one. -/
theorem other_follow (i j : Nat) (hr : HeaderRule) :
    Tracks (Machine.calls rx) Pair.IsOther (follow rx i j hr) (Meaning.rule callProg j hr) :=
  Meaning.tracks_headerRule (fun _ c => Pair.other_step rx c)
    (Meaning.tracks_guard fun _ c => Pair.other_step rx c)
    (fun _ _ => Pair.other_apart _ _) hr

/-- **The first machine runs the ruleset as it was.** -/
theorem tracks_sideBySide (rs : Ruleset) :
    Tracks (Machine.calls rx) Pair.IsMachine (sideBySide rx rs) (Meaning.program rs) := by
  have h := Pair.tracks_walk rx tracks_follow 0 0 (marked rs)
  unfold marked at h
  rwa [markRepeats_fst] at h

/-- **The second runs it as the pass leaves it.** -/
theorem other_sideBySide (rs : Ruleset) :
    Tracks (Machine.calls rx) Pair.IsOther (sideBySide rx rs)
      (Meaning.program (apply rs).2) := by
  have h := Pair.other_walk rx (f := id) other_follow 0 0 (marked rs)
  rwa [List.map_id] at h

/-- A header is deleted, and deleted once more. -/
def deleteTwice : Ruleset where
  headerRules := List.replicate 2 { headerName := txt "X", action := .delete }

/-- A value of two headers is stored in turn, and then put into a third. -/
def storeInTurn : Ruleset where
  headerRules :=
    (List.replicate 2 [txt "A", txt "B"]).flatten.map (fun header =>
        { name := txt "s", headerName := header, action := .store })
      ++ [{ headerName := txt "X", action := .add,
            newValue := ⟨txt "$s", [.ref ⟨.ruleRef, txt "s", -1⟩], false, false⟩ }]

-- without the second round the slot has the text of `B` meanwhile, and so it has after it
example : (sideBySide .blind storeInTurn
    (.start (txt "M s\nA: a\nB: b\n\n") (fun _ => []) (fun _ => []) (fun _ => []))).isSome := by
  decide +kernel

/-- A header is deleted, added and deleted. -/
def deleteAddDelete : Ruleset where
  headerRules :=
    [{ headerName := txt "X", action := .delete },
      { headerName := txt "X", action := .add, newValue := Value.verbatim (txt "x") },
      { headerName := txt "X", action := .delete }]

end DeduplicationPass

/-! ## Dead code -/

namespace DeadCodeEliminationPass

variable {rx : RegexEngine}

/-- A rule that sets its header as soon as its no-ops are gone. -/
def newlySets (hr : HeaderRule) : Bool :=
  (hr.action == .replace || hr.action == .manipulate) && !hr.newValue.isEmpty
    && !hr.elementRules.isEmpty && (strip hr).elementRules.isEmpty

/-- A header-level set. -/
def setProg (hr : HeaderRule) : SymProg Unit := do
  let v ← Meaning.value callProg hr.newValue
  callProg _ (.setHeader (clip hr.headerName) v)

/-- A rule that stays, at position `i` before the pass and `j` after it. A set
that is new is done by the second machine alone. -/
def follow (rx : RegexEngine) (i j : Nat) (hr : HeaderRule) : StateT Pair Option Flow := do
  match ← Meaning.fires (Pair.step rx) (Meaning.guard (Pair.step rx)) hr with
  | none => pure .continue
  | some hv =>
    if newlySets hr then do
      Pair.right rx (setProg hr)
      pure .continue
    else if ← Meaning.headerAction (Pair.step rx) (fun hr => Pair.stores rx i j hr hr) hr hv then
      pure .rejected
    else Meaning.elementRules (Pair.step rx) (Meaning.guard (Pair.step rx)) hr hr.elementRules

/-- **The ruleset before and after dead-code elimination**, side by side. -/
def sideBySide (rx : RegexEngine) (rs : Ruleset) : StateT Pair Option HmrVerdict :=
  Pair.walk rx (follow rx) 0 0 (rs.headerRules.map fun hr => (hr, isDead hr))

/-- An element rule without an action and without a type does nothing. -/
theorem elementRules_strip (hr : HeaderRule) (ers : List ElementRule) :
    Meaning.elementRules callProg (Meaning.guard callProg) hr
        (ers.filter fun er => !isNoOp er)
      = Meaning.elementRules callProg (Meaning.guard callProg) hr ers := by
  induction ers with
  | nil => rfl
  | cons er rest ih =>
    cases hn : isNoOp er with
    | true =>
      have htype : er.type = .none := by
        unfold isNoOp at hn
        exact beq_iff_eq.mp (Bool.and_eq_true_iff.mp hn).2
      rw [List.filter_cons_of_neg (by rw [hn]; decide), ih, Meaning.elementRules,
        Meaning.elementRule, htype]
      rfl
    | false =>
      rw [List.filter_cons_of_pos (by rw [hn]; rfl), Meaning.elementRules, Meaning.elementRules,
        ih]

/-- The action of a stripped rule is that of the rule, unless it sets its header
newly. -/
theorem headerAction_strip (S : HeaderRule → Bytes → SymProg Unit) {hr : HeaderRule}
    (hS : S (strip hr) = S hr) (hn : newlySets hr = false) (hv : Bytes) :
    Meaning.headerAction callProg S (strip hr) hv = Meaning.headerAction callProg S hr hv := by
  -- A rule that sets its header does so with its no-ops or without.
  have hset : (hr.action == .replace || hr.action == .manipulate) = true →
      (!hr.newValue.isEmpty && (strip hr).elementRules.isEmpty)
        = (!hr.newValue.isEmpty && hr.elementRules.isEmpty) := by
    intro ha
    unfold newlySets at hn
    rw [ha, Bool.true_and] at hn
    unfold strip at hn ⊢
    cases he : hr.elementRules with
    | nil => rfl
    | cons er rest =>
      rw [he] at hn
      simpa using hn
  unfold Meaning.headerAction
  rw [hS, show (strip hr).action = hr.action from rfl,
    show (strip hr).newValue = hr.newValue from rfl]
  cases ha : hr.action with
  | replace =>
    rw [ha] at hset
    dsimp only
    rw [hset rfl]
    rfl
  | manipulate =>
    rw [ha] at hset
    dsimp only
    rw [hset rfl]
    rfl
  | _ => rfl

/-- Such a rule does nothing before the pass. -/
theorem rule_of_newlySets {hr : HeaderRule} (hn : newlySets hr = true) (i : Nat) :
    Meaning.rule callProg i hr
      = Meaning.fires callProg (Meaning.guard callProg) hr >>= fun _ => pure .continue := by
  simp only [newlySets, Bool.and_eq_true, Bool.or_eq_true, beq_iff_eq] at hn
  obtain ⟨⟨⟨ha, -⟩, hne⟩, hnil⟩ := hn
  have hers : Meaning.elementRules callProg (Meaning.guard callProg) hr hr.elementRules
      = pure .continue := by
    rw [← elementRules_strip, show hr.elementRules.filter _ = [] from List.isEmpty_iff.mp hnil]
    rfl
  have hact : ∀ S hv, Meaning.headerAction callProg S hr hv = pure false := by
    intro S hv
    have hf : ¬ (!hr.newValue.isEmpty && hr.elementRules.isEmpty) = true := by
      rw [Bool.not_eq_true'] at hne
      rw [hne, Bool.and_false]
      exact Bool.false_ne_true
    unfold Meaning.headerAction
    obtain ha | ha := ha
    · rw [ha]
      exact if_neg hf
    · rw [ha]
      exact if_neg hf
  unfold Meaning.rule Meaning.headerRule
  refine congrArg _ (funext fun fired => ?_)
  cases fired with
  | none => rfl
  | some hv =>
    dsimp only
    rw [hact, hers]
    rfl

/-- And its set after it. -/
theorem rule_strip_of_newlySets {hr : HeaderRule} (hn : newlySets hr = true) (j : Nat) :
    Meaning.rule callProg j (strip hr)
      = Meaning.fires callProg (Meaning.guard callProg) hr >>= fun fired =>
        match fired with
        | none => pure .continue
        | some _ => setProg hr >>= fun _ => pure .continue := by
  simp only [newlySets, Bool.and_eq_true, Bool.or_eq_true, beq_iff_eq] at hn
  obtain ⟨⟨⟨ha, hv⟩, -⟩, hnil⟩ := hn
  have hact : ∀ S hv, Meaning.headerAction callProg S (strip hr) hv
      = setProg hr >>= fun _ => pure false := by
    intro S hv'
    have ht : (!(strip hr).newValue.isEmpty && (strip hr).elementRules.isEmpty) = true := by
      rw [hnil, Bool.and_true]
      exact hv
    unfold Meaning.headerAction setProg
    rw [bind_assoc]
    obtain ha | ha := ha
    · rw [show (strip hr).action = .replace from ha]
      exact if_pos ht
    · rw [show (strip hr).action = .manipulate from ha]
      exact if_pos ht
  unfold Meaning.rule Meaning.headerRule
  refine congrArg _ (funext fun fired => ?_)
  cases fired with
  | none => rfl
  | some hv =>
    dsimp only
    rw [hact, show (strip hr).elementRules = [] from List.isEmpty_iff.mp hnil, bind_assoc]
    rfl

/-- The first machine runs a rule with its no-ops. -/
theorem tracks_follow (i j : Nat) (hr : HeaderRule) :
    Tracks (Machine.calls rx) Pair.IsMachine (follow rx i j hr)
      (Meaning.rule callProg i hr) := by
  have hfires := Meaning.tracks_fires (fun _ c => Pair.tracks_step rx c)
    (Meaning.tracks_guard fun _ c => Pair.tracks_step rx c) hr
  cases hn : newlySets hr with
  | true =>
    rw [rule_of_newlySets hn]
    refine hfires.bind fun fired => ?_
    cases fired with
    | none => exact Tracks.pure _
    | some hv =>
      dsimp only
      rw [if_pos hn]
      exact Pair.tracks_skip_right _ fun _ => Tracks.pure _
  | false =>
    refine hfires.bind fun fired => ?_
    cases fired with
    | none => exact Tracks.pure _
    | some hv =>
      dsimp only
      rw [if_neg (by rw [hn]; exact Bool.false_ne_true)]
      refine (Meaning.tracks_headerAction (fun _ c => Pair.tracks_step rx c)
        (fun _ _ => Pair.tracks_apart _ _) hr hv).bind fun rejected => ?_
      exact Tracks.ite (fun _ => Tracks.pure _) fun _ => Meaning.tracks_elementRules
        (fun _ c => Pair.tracks_step rx c)
        (Meaning.tracks_guard fun _ c => Pair.tracks_step rx c) hr _

/-- The second runs it without. -/
theorem other_follow (i j : Nat) (hr : HeaderRule) :
    Tracks (Machine.calls rx) Pair.IsOther (follow rx i j hr)
      (Meaning.rule callProg j (strip hr)) := by
  have hfires := Meaning.tracks_fires (fun _ c => Pair.other_step rx c)
    (Meaning.tracks_guard fun _ c => Pair.other_step rx c) hr
  -- Without its no-ops, a rule may set its header which did not before.
  cases hn : newlySets hr with
  | true =>
    rw [rule_strip_of_newlySets hn]
    refine hfires.bind fun fired => ?_
    cases fired with
    | none => exact Tracks.pure _
    | some hv =>
      dsimp only
      rw [if_pos hn]
      exact (Pair.other_right _).bind fun _ => Tracks.pure _
  | false =>
    refine hfires.bind fun fired => ?_
    cases fired with
    | none => exact Tracks.pure _
    | some hv =>
      dsimp only
      rw [if_neg (by rw [hn]; exact Bool.false_ne_true), headerAction_strip _ rfl hn]
      refine (Meaning.tracks_headerAction (fun _ c => Pair.other_step rx c)
        (fun _ _ => Pair.other_apart _ _) hr hv).bind fun rejected => ?_
      refine Tracks.ite (fun _ => Tracks.pure _) fun _ => ?_
      rw [Meaning.elementRules_congr _ (show (strip hr).headerName = hr.headerName from rfl)
        (show (strip hr).name = hr.name from rfl), strip, elementRules_strip]
      exact Meaning.tracks_elementRules (fun _ c => Pair.other_step rx c)
        (Meaning.tracks_guard fun _ c => Pair.other_step rx c) hr _

/-- A rule without an action or an element rule, before one that deletes. -/
def deleteAfterNothing : Ruleset where
  headerRules :=
    [{ headerName := txt "X" },
      { headerName := txt "X", action := .delete, elementRules := [{}] }]

/-- A rule without an action whose element rule replaces the header. -/
def replaceInNone : Ruleset where
  headerRules :=
    [{ headerName := txt "X"
       elementRules :=
         [{ type := .headerValue, action := .replace,
            newValue := Value.verbatim (txt "y") }] }]

end DeadCodeEliminationPass

end Hmr
