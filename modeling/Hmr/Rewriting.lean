import Hmr.Optimizer
import Hmr.SideBySide

/-!
# A ruleset before and after a pass

A pass drops some rules and rewrites the others, and the two rulesets are read side by
side: a dropped rule is run by the first machine alone, a rewritten one by both. A rule
that only moves up may change the slot it stores under, since a rule without a name stores
under its position (`Pair.stores`).

The walk over the two rulesets is one for all passes of that kind. It is given what has
become of a rule that stays, and how such a rule is followed (`Pair.walk`). What a pass
has to show is that a rule that stays is followed rightly on each side, and the walk is
then one of the two rulesets (`Pair.tracks_walk`, `Pair.other_walk`).

When the reading completes, a packet comes to the same through either ruleset
(`Interpreter.outcome_of_tracks`). The contexts may be different ones, each prepared for
its ruleset; they have to agree in the slots by name, which is what two machines have in
common.
-/

namespace Hmr

/-! ## What a walk reads of a rule -/

namespace Meaning

/-- An element rule reads the names of its header rule and nothing else of
it. -/
theorem elementRule_congr (G : Guard (Prog SymCall RetTy.den)) {hr hr' : HeaderRule}
    (hheader : hr.headerName = hr'.headerName) (hname : hr.name = hr'.name)
    (er : ElementRule) : elementRule callProg G hr er = elementRule callProg G hr' er := by
  unfold elementRule elementAction elementSlot
  rw [hheader, hname]

/-- Element rules know the rule they are in by its header and its name. -/
theorem elementRules_congr (G : Guard (Prog SymCall RetTy.den)) {hr hr' : HeaderRule}
    (hheader : hr.headerName = hr'.headerName) (hname : hr.name = hr'.name)
    (ers : List ElementRule) :
    elementRules callProg G hr ers = elementRules callProg G hr' ers := by
  induction ers with
  | nil => rfl
  | cons er rest ih => rw [elementRules, elementRules, elementRule_congr G hheader hname, ih]

end Meaning

namespace Pair

variable {rx : RegexEngine} {α β : Type}

/-- The two machines a packet meets, through contexts with these slots. -/
def start (raw : Bytes) (vars : HmrVarId → Bytes) (slots slots' : Bytes → Bytes) : Pair where
  machine := .ofPacket raw vars slots
  other := .ofPacket raw vars slots'
  shown := rfl
  frame := rfl

/-! ## Each machine its own way -/

/-- One machine runs `q`, the other `q'`; nothing shows, and they come to the
same. -/
def apart [DecidableEq α] (rx : RegexEngine) (q q' : SymProg α) : StateT Pair Option α := do
  let a ← left rx q
  let b ← right rx q'
  if a = b then pure a else failure

/-- The first machine goes its own way. -/
theorem tracks_apart [DecidableEq α] (q q' : SymProg α) :
    Tracks (Machine.calls rx) IsMachine (apart rx q q') q := by
  refine (tracks_left q).check fun a => tracks_skip_right q' fun b => ?_
  by_cases hab : a = b
  · rw [if_pos hab]
    exact Tracks.pure a
  · rw [if_neg hab]
    exact Tracks.failure

/-- So does the second. -/
theorem other_apart [DecidableEq α] (q q' : SymProg α) :
    Tracks (Machine.calls rx) IsOther (apart rx q q') q' := by
  refine other_skip_left q fun a => (other_right q').check fun b => ?_
  by_cases hab : a = b
  · rw [if_pos hab, hab]
    exact Tracks.pure b
  · rw [if_neg hab]
    exact Tracks.failure

/-! ## Stores -/

/-- A header-level `store` of a rule at position `i`, and of what has become of
it, at position `j`. -/
def stores (rx : RegexEngine) (i j : Nat) (hr hr' : HeaderRule) (hv : Bytes) :
    StateT Pair Option Unit :=
  apart rx (Meaning.store Meaning.callProg i hr hv) (Meaning.store Meaning.callProg j hr' hv)

/-! ## The walk -/

/-- **The two rulesets, side by side**: a rule that goes is run by the first
machine alone, at its position `i`; `keep` follows one that stays, at the
positions `i` and `j`. -/
def walk (rx : RegexEngine) (keep : Nat → Nat → HeaderRule → StateT Pair Option Flow) :
    Nat → Nat → List (HeaderRule × Bool) → StateT Pair Option HmrVerdict
  | _, _, [] => pure .ok
  | i, j, (hr, true) :: rest => do
    match ← left rx (Meaning.rule Meaning.callProg i hr) with
    | .rejected => failure
    | .continue => walk rx keep (i + 1) j rest
  | i, j, (hr, false) :: rest => do
    match ← keep i j hr with
    | .rejected => pure .rejected
    | .continue => walk rx keep (i + 1) (j + 1) rest

/-- **The first machine runs the ruleset before the pass.** -/
theorem tracks_walk (rx : RegexEngine)
    {keep : Nat → Nat → HeaderRule → StateT Pair Option Flow}
    (hkeep : ∀ i j hr, Tracks (Machine.calls rx) IsMachine (keep i j hr)
      (Meaning.rule Meaning.callProg i hr)) (i j : Nat) (marked : List (HeaderRule × Bool)) :
    Tracks (Machine.calls rx) IsMachine (walk rx keep i j marked)
      (Meaning.rulesFrom Meaning.callProg i (marked.map Prod.fst)) := by
  induction marked generalizing i j with
  | nil => exact Tracks.pure _
  | cons p rest ih =>
    obtain ⟨hr, gone⟩ := p
    cases gone with
    | true =>
      refine (tracks_left _).bind fun flow => ?_
      cases flow with
      | rejected => exact Tracks.failure
      | «continue» => exact ih (i + 1) j
    | false =>
      refine (hkeep i j hr).bind fun flow => ?_
      cases flow with
      | rejected => exact Tracks.pure _
      | «continue» => exact ih (i + 1) (j + 1)

/-- **The second runs what is kept of it.** -/
theorem other_walk (rx : RegexEngine)
    {keep : Nat → Nat → HeaderRule → StateT Pair Option Flow} {f : HeaderRule → HeaderRule}
    (hkeep : ∀ i j hr, Tracks (Machine.calls rx) IsOther (keep i j hr)
      (Meaning.rule Meaning.callProg j (f hr))) (i j : Nat) (marked : List (HeaderRule × Bool)) :
    Tracks (Machine.calls rx) IsOther (walk rx keep i j marked)
      (Meaning.rulesFrom Meaning.callProg j ((kept marked).map f)) := by
  induction marked generalizing i j with
  | nil => exact Tracks.pure _
  | cons p rest ih =>
    obtain ⟨hr, gone⟩ := p
    -- A rule that is dropped is run by the first machine alone, whatever comes of it.
    cases gone with
    | true =>
      refine other_skip_left _ fun flow => ?_
      cases flow with
      | rejected => exact Tracks.failure
      | «continue» => exact ih (i + 1) j
    | false =>
      refine (hkeep i j hr).bind fun flow => ?_
      cases flow with
      | rejected => exact Tracks.pure _
      | «continue» => exact ih (i + 1) (j + 1)

end Pair

/-- **Two rulesets that are read side by side come to the same.** -/
theorem Interpreter.outcome_of_tracks {rx : RegexEngine} {rs rs' : Ruleset}
    {M : StateT Pair Option HmrVerdict}
    (hM : Tracks (Machine.calls rx) Pair.IsMachine M (Meaning.program rs))
    (hM' : Tracks (Machine.calls rx) Pair.IsOther M (Meaning.program rs'))
    {ctx ctx' : HmrContext} (h : ctx.Prepared (info rs)) (h' : ctx'.Prepared (info rs'))
    (hvars : ctx'.vars = ctx.vars) {raw : Bytes}
    (hsome : (M (.start raw ctx.vars (ctx.slotsBy (Meaning.symbols rs))
      (ctx'.slotsBy (Meaning.symbols rs')))).isSome) :
    (process rx rs' ctx' raw).1 = (process rx rs ctx raw).1 := by
  obtain ⟨⟨v, p⟩, hp⟩ := Option.isSome_iff_exists.mp hsome
  -- A reading that completes is a run of either machine, and ends in a pair.
  obtain ⟨hv, hm⟩ : (Machine.process rx rs raw ctx.vars (ctx.slotsBy (Meaning.symbols rs))).1 = v
      ∧ p.machine = _ := hM _ _ rfl v p hp
  obtain ⟨hv', hm'⟩ : (Machine.process rx rs' raw ctx.vars (ctx'.slotsBy (Meaning.symbols rs'))).1
      = v ∧ p.other = _ := hM' _ _ rfl v p hp
  have hsame := p.outcome v
  rw [hm, hm'] at hsame
  rw [outcome_process h, outcome_process h', hvars, hv, hv']
  exact hsame

/-- **A pass that preserves meaning**: whatever the ruleset and the packet, on
contexts made for the module before and after it. -/
def Interpreter.PreservedBy (rx : RegexEngine) (pass : Ruleset → Ruleset) : Prop :=
  ∀ (rs : Ruleset) (ctx ctx' : HmrContext), makeContext rx (info rs) = some ctx →
    makeContext rx (info (pass rs)) = some ctx' → ∀ (vars : HmrVarId → Bytes) (raw : Bytes),
      (process rx (pass rs) { ctx' with vars := vars } raw).1
        = (process rx rs { ctx with vars := vars } raw).1

end Hmr
