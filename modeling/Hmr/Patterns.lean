import Hmr.Rewriting

/-!
# Patterns that become literals

Pattern simplification takes a pattern without metacharacters, its anchors aside, for the
literal it is made of, and compares instead of searching. That is right for a pattern with
both anchors (`guard_anchored`); one that lacks an anchor is found in more headers than
equal it, a match-value that is negated loses its `!` to the literal, and a comparison
records no groups.

A reading side by side therefore runs such a guard on each machine in its own way, and
goes on as long as both answer the same. The groups that only one of the machines has
recorded are different from then on, until both search again; no harm is done unless a
capture is read meanwhile and answered differently.

## The rest of a rule

Nothing but guards is changed. So a rule after the pass is the rule before it with other
guards, which is how it is followed (`rule_simplifyRule`): the walk is one and the same,
and takes its guards as a parameter. There is one more difference, in what a rule stores.
The groups it stores are counted in its pattern, and when the pattern is gone the header
value is stored instead.

## The regex engine

What the pass relies on in the regex engine is stated as a condition on the engine
(`RegexEngine.Documented`): that a literal is found where it stands, that `^` and `$` hold
it to the ends, and that group 0 is what was found. Nothing is said about other patterns.
One engine that does this is `RegexEngine.literals`.
-/

namespace Hmr

open Meaning (callProg)

/-! ## What is assumed of the regex engine -/

/-- A literal with anchors: `^`, when it is to stand at the start, and `$`, when
at the end. -/
def anchored (start stop : Bool) (literal : Bytes) : Bytes :=
  (if start then [94] else []) ++ literal ++ (if stop then [36] else [])

/-- A literal stands in a subject at an offset, at the ends it is anchored to. -/
def StandsAt (start stop : Bool) (literal subject : Bytes) (off : Nat) : Prop :=
  off + literal.length ≤ subject.length ∧ (subject.drop off).take literal.length = literal
    ∧ (start = true → off = 0) ∧ (stop = true → off + literal.length = subject.length)

instance (start stop : Bool) (literal subject : Bytes) (off : Nat) :
    Decidable (StandsAt start stop literal subject off) := by
  unfold StandsAt
  infer_instance

/-- A text without metacharacters. -/
def IsPlain (literal : Bytes) : Prop := ∀ c ∈ literal, c ∉ metaCharacters

/-- Such a text is one as the pass looks for them. -/
theorem IsPlain.not_any {literal : Bytes} (hl : IsPlain literal) :
    ¬ literal.any metaCharacters.contains = true := by
  intro h
  obtain ⟨c, hc, hm⟩ := List.any_eq_true.mp h
  exact hl c hc (List.contains_iff_mem.mp hm)

/-- **The documented search for a literal**: it is found where it stands, and
group 0 is what was found. -/
structure RegexEngine.Documented (rx : RegexEngine) : Prop where
  found : ∀ {start stop literal} (subject : Bytes), IsPlain literal →
    ((rx.search (anchored start stop literal) false subject).isSome = true
      ↔ ∃ off, StandsAt start stop literal subject off)
  group : ∀ {start stop literal subject groups}, IsPlain literal →
    rx.search (anchored start stop literal) false subject = some groups →
      ∃ off, groups.head? = some (some (off, literal.length))
        ∧ StandsAt start stop literal subject off

/-- **A pattern with both anchors is found in its literal only.** -/
theorem RegexEngine.Documented.search_iff_eq {rx : RegexEngine} (h : rx.Documented)
    {literal : Bytes} (hl : IsPlain literal) (subject : Bytes) :
    (rx.search (anchored true true literal) false subject).isSome = true
      ↔ subject = literal := by
  rw [h.found subject hl]
  constructor
  · rintro ⟨off, -, htake, hstart, hstop⟩
    obtain rfl := hstart rfl
    have hlen := hstop rfl
    rw [Nat.zero_add] at hlen
    rwa [List.drop_zero, hlen, List.take_length] at htake
  · rintro rfl
    exact ⟨0, by simp [StandsAt]⟩

/-- An engine that finds literals, and no other pattern. -/
def RegexEngine.literals : RegexEngine where
  valid _ := true
  search pattern _ subject :=
    let start := pattern.head? == some 94
    let body := if start then pattern.tail else pattern
    let stop := body.getLast? == some 36
    let literal := if stop then body.dropLast else body
    if literal.any metaCharacters.contains then none
    else ((List.range (subject.length + 1)).find? fun off =>
      decide (StandsAt start stop literal subject off)).map fun off =>
        [some (off, literal.length)]

/-- **What the engine of the literals finds**: the first place where the literal stands, at the
anchors the pattern asks for. The anchors are taken off first, and a plain literal has none of
its own, so that what is left is the literal. -/
theorem RegexEngine.literals_search {start stop : Bool} {literal : Bytes} (hl : IsPlain literal)
    (icase : Bool) (subject : Bytes) :
    literals.search (anchored start stop literal) icase subject
      = ((List.range (subject.length + 1)).find? fun off =>
        decide (StandsAt start stop literal subject off)).map fun off =>
          [some (off, literal.length)] := by
  have hhead : literal.head? ≠ some 94 := fun h =>
    hl 94 (List.mem_of_mem_head? h) (by decide)
  have hlast : literal.getLast? ≠ some 36 := fun h =>
    hl 36 (List.mem_of_mem_getLast? h) (by decide)
  -- The anchors are taken off the pattern first; a plain literal has none of its own.
  have hbody : ∀ stop : Bool,
      ((literal ++ if stop then [36] else []).head? == some 94) = false := by
    intro stop
    cases literal with
    | nil => cases stop <;> rfl
    | cons c rest =>
      rw [beq_eq_false_iff_ne]
      exact hhead
  have hend : ∀ stop : Bool,
      ((literal ++ if stop then [36] else []).getLast? == some 36) = stop
        ∧ (if stop then (literal ++ if stop then [36] else []).dropLast
          else literal ++ if stop then [36] else []) = literal := by
    intro stop
    cases stop with
    | true => simp
    | false => simpa using hlast
  unfold literals anchored
  cases start with
  | true =>
    simp only [if_true, List.cons_append, List.nil_append, List.head?_cons, beq_self_eq_true,
      List.tail_cons, hend, if_neg hl.not_any]
  | false =>
    simp only [Bool.false_eq_true, if_false, List.nil_append, hbody, hend, if_neg hl.not_any]

/-- Its searches are as documented. -/
theorem RegexEngine.documented_literals : literals.Documented where
  found {start stop literal} subject hl := by
    rw [literals_search hl, Option.isSome_map, List.find?_isSome]
    constructor
    · rintro ⟨off, -, hat⟩
      exact ⟨off, of_decide_eq_true hat⟩
    · rintro ⟨off, hat⟩
      refine ⟨off, List.mem_range.mpr ?_, decide_eq_true hat⟩
      exact Nat.lt_succ_of_le ((Nat.le_add_right _ _).trans hat.1)
  group {start stop literal subject groups} hl hs := by
    rw [literals_search hl] at hs
    obtain ⟨off, hoff, rfl⟩ := Option.map_eq_some_iff.mp hs
    have hat := List.find?_some hoff
    exact ⟨off, rfl, of_decide_eq_true hat⟩

/-! ## The pass -/

namespace PatternSimplificationPass

variable {rx : RegexEngine}

/-- The guards of a ruleset after the pass, on the rules before it. -/
def simplified : Meaning.Guard (Prog SymCall RetTy.den) := fun cmp mvt mv subject =>
  Meaning.guard callProg (simplify cmp mv).1 mvt (simplify cmp mv).2 subject

/-- A guard before and after the pass: one that changes is evaluated by each
machine in its own way. -/
def guards (rx : RegexEngine) : Meaning.Guard (StateT Pair Option) := fun cmp mvt mv subject =>
  if (simplify? cmp mv).isSome then
    Pair.apart rx (Meaning.guard callProg cmp mvt mv subject) (simplified cmp mvt mv subject)
  else Meaning.guard (Pair.step rx) cmp mvt mv subject

/-- The first machine evaluates the guard as it was. -/
theorem tracks_guards (cmp : ComparisonType) (mvt : MatchValType) (mv : Value)
    (subject : Bytes) :
    Tracks (Machine.calls rx) Pair.IsMachine (guards rx cmp mvt mv subject)
      (Meaning.guard callProg cmp mvt mv subject) := by
  unfold guards
  split
  · exact Pair.tracks_apart _ _
  · exact Meaning.tracks_guard (fun _ c => Pair.tracks_step rx c) _ _ _ _

/-- The second evaluates the one the pass has left. -/
theorem other_guards (cmp : ComparisonType) (mvt : MatchValType) (mv : Value)
    (subject : Bytes) :
    Tracks (Machine.calls rx) Pair.IsOther (guards rx cmp mvt mv subject)
      (simplified cmp mvt mv subject) := by
  unfold guards
  split
  · exact Pair.other_apart _ _
  · rename_i hnone
    have hsame : simplify cmp mv = (cmp, mv) := by
      rw [simplify, Option.not_isSome_iff_eq_none.mp hnone]
      rfl
    rw [simplified, hsame]
    exact Meaning.tracks_guard (fun _ c => Pair.other_step rx c) _ _ _ _

/-- A literal is read off its pattern. -/
theorem plainLiteral?_anchored {literal : Bytes} (hl : IsPlain literal) :
    plainLiteral? (anchored true true literal) = some literal := by
  unfold plainLiteral? anchored
  simp only [if_true, List.cons_append, List.nil_append, List.head?_cons, beq_self_eq_true,
    List.tail_cons, List.getLast?_concat, List.dropLast_concat, if_neg hl.not_any]

/-- **A guard with both anchors answers as before.** The engine is asked before the pass and
finds such a pattern in the literal itself and in no other subject (`search_iff_eq`); after it
the subject is compared with the literal for equality. What the two machines hold does not matter
to the answer. -/
theorem guard_anchored (h : rx.Documented) {literal : Bytes} (hl : IsPlain literal)
    (hne : literal ≠ []) (hz : 0 ∉ literal) (hlen : literal.length < 2 ^ 32) (subject : Bytes)
    (m m' : Machine) :
    let pattern := anchored true true literal
    let mv : Value := ⟨pattern, [.literal pattern], false, false⟩
    ((Meaning.guard callProg .patternRule .any mv subject).run (Machine.calls rx) m).1
      = ((simplified .patternRule .any mv subject).run (Machine.calls rx) m').1 := by
  intro pattern mv
  have hraw : mv.isEmpty = false := rfl
  have hsimp : simplify .patternRule mv = (.caseSensitive, Value.verbatim literal) := by
    unfold simplify simplify?
    rw [show mv.raw = anchored true true literal from rfl, plainLiteral?_anchored hl, hraw]
    simp [hne, mv, Value.isRegexLiteral, Value.isPureLiteral, ValueSegment.isRef]
  have hstring : cString (anchored true true literal) = anchored true true literal := by
    unfold cString
    refine List.takeWhile_eq_self_iff.mpr fun c hc => ?_
    rw [bne_iff_ne]
    rintro rfl
    simp [anchored, hz] at hc
  -- The pattern is found exactly in the literal, and the literal is compared for equality.
  have hold : ((Meaning.guard callProg .patternRule .any mv subject).run (Machine.calls rx) m).1
      = (rx.search (anchored true true literal) false (clip subject)).isSome := by
    show (m.search rx (some (mv.literalText, false)) (clip subject)).1 = _
    unfold Machine.search
    dsimp only
    rw [show mv.literalText = anchored true true literal from List.append_nil _, hstring]
    cases rx.search (anchored true true literal) false (clip subject) <;> rfl
  have hnew : ((simplified .patternRule .any mv subject).run (Machine.calls rx) m').1
      = (clip subject == literal) := by
    have hpattern : Meaning.patternOf (Value.verbatim literal) = literal := by
      cases literal with
      | nil => exact absurd rfl hne
      | cons c rest => exact List.append_nil _
    have hholds : Meaning.alwaysHolds (Value.verbatim literal) = false := by
      cases literal with
      | nil => exact absurd rfl hne
      | cons c rest => rfl
    unfold simplified Meaning.guard Meaning.matchCall
    rw [hsimp, hholds, hpattern]
    show Matchers.matchExact (clip subject) (clip (clip literal)) false = _
    rw [clip_clip, clip_of_lt hlen]
    rfl
  rw [hold, hnew, Bool.eq_iff_iff, h.search_iff_eq hl, beq_iff_eq]

/-- A match-value is there after the pass when it was before. -/
theorem isEmpty_simplify (cmp : ComparisonType) (mv : Value) :
    (simplify cmp mv).2.isEmpty = mv.isEmpty := by
  unfold simplify simplify?
  split
  · rename_i h
    simp only [Bool.and_eq_true, Bool.not_eq_true'] at h
    split
    · rfl
    · split
      · rfl
      · rename_i literal _ hne
        rw [h.2]
        exact (Bool.not_eq_true _).mp hne
  · rfl

/-- The guards of a rule are the ones that have been changed. -/
theorem fires_simplifyRule (hr : HeaderRule) :
    Meaning.fires callProg (Meaning.guard callProg) (simplifyRule hr)
      = Meaning.fires callProg simplified hr := by
  unfold Meaning.fires Meaning.fetchHeader
  rw [show (simplifyRule hr).matchValue.isEmpty = hr.matchValue.isEmpty from
    isEmpty_simplify _ _]
  rfl

/-- So are those of its element rules. -/
theorem elementRules_simplifyRule (hr : HeaderRule) (ers : List ElementRule) :
    Meaning.elementRules callProg (Meaning.guard callProg) (simplifyRule hr)
        (ers.map simplifyElement)
      = Meaning.elementRules callProg simplified hr ers := by
  induction ers with
  | nil => rfl
  | cons er rest ih =>
    rw [List.map_cons, Meaning.elementRules, Meaning.elementRules, ih]
    rfl

/-- **A rule after the pass** is the rule before it, with other guards and another
`store`. -/
theorem rule_simplifyRule (j : Nat) (hr : HeaderRule) :
    Meaning.rule callProg j (simplifyRule hr)
      = Meaning.headerRule callProg simplified
        (fun hr => Meaning.store callProg j (simplifyRule hr)) hr := by
  have hact : ∀ hv, Meaning.headerAction callProg (Meaning.store callProg j) (simplifyRule hr) hv
      = Meaning.headerAction callProg (fun hr => Meaning.store callProg j (simplifyRule hr))
        hr hv := by
    intro hv
    unfold Meaning.headerAction
    rw [show (simplifyRule hr).elementRules.isEmpty = hr.elementRules.isEmpty from
      List.isEmpty_map]
    rfl
  unfold Meaning.rule Meaning.headerRule
  rw [fires_simplifyRule]
  refine congrArg _ (funext fun fired => ?_)
  cases fired with
  | none => rfl
  | some hv =>
    dsimp only
    rw [hact, show (simplifyRule hr).elementRules = hr.elementRules.map simplifyElement from rfl,
      elementRules_simplifyRule]

/-- A rule, at position `i` before the pass and `j` after it. -/
def follow (rx : RegexEngine) (i j : Nat) (hr : HeaderRule) : StateT Pair Option Flow :=
  Meaning.headerRule (Pair.step rx) (guards rx)
    (fun hr => Pair.stores rx i j hr (simplifyRule hr)) hr

/-- **The ruleset before and after pattern simplification**, side by side. -/
def sideBySide (rx : RegexEngine) (rs : Ruleset) : StateT Pair Option HmrVerdict :=
  Pair.walk rx (follow rx) 0 0 (rs.headerRules.map fun hr => (hr, false))

/-- **A rule before the pass** is run by the first machine. -/
theorem tracks_follow (i j : Nat) (hr : HeaderRule) :
    Tracks (Machine.calls rx) Pair.IsMachine (follow rx i j hr) (Meaning.rule callProg i hr) :=
  Meaning.tracks_headerRule (fun _ c => Pair.tracks_step rx c) tracks_guards
    (fun _ _ => Pair.tracks_apart _ _) hr

/-- **A rule after the pass** is run by the second. -/
theorem other_follow (i j : Nat) (hr : HeaderRule) :
    Tracks (Machine.calls rx) Pair.IsOther (follow rx i j hr)
      (Meaning.rule callProg j (simplifyRule hr)) := by
  rw [rule_simplifyRule]
  exact Meaning.tracks_headerRule (fun _ c => Pair.other_step rx c) other_guards
    (fun _ _ => Pair.other_apart _ _) hr

/-- A header is deleted when its value matches a pattern. -/
def deleteMatching (pattern : Bytes) : Ruleset where
  headerRules :=
    [{ headerName := txt "X", action := .delete, comparison := .patternRule,
       matchValue := ⟨pattern, [.literal pattern], false, false⟩ }]

end PatternSimplificationPass

end Hmr
