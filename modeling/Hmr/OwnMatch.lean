import Hmr.BackReferences
import Hmr.Patterns
import Hmr.Records

/-!
# The match a store stores

A pattern-rule `store` stores the groups of the last match. Its guard has just searched
the header for the pattern, so that the last match is its own – unless the guard compares
nothing, because the match-value is empty or a `$` expression. Then the last match is that
of an earlier rule, on whatever that rule looked at, and `Interpreter.storesOwnMatch_iff`
says that this is the only way to go wrong.

What is stored is taken for a match in the header if it is a part of its value. That is
what can be seen of it, and it can be so by accident, where the match that is left is on
another header with the same text in it. The condition is therefore about the groups that
are there before the rule, and not about where they came from.

## Recording

Which values a `store` gives to which slots is recorded while it runs
(`Interpreter.given`), since a slot may have held the same text before. A slot that is
given something is given one group, and that of its own number
(`Meaning.recordGroups_group`, `Meaning.recordGroups_of_some`), so the record can be read
both ways. In front of the record the rule has fired, and its guards have read a header
and compared it (`Meaning.guard_of_fires`).
-/

namespace Hmr

namespace Meaning

section
variable {rx : RegexEngine} {st : SymbolTable} {hr : HeaderRule} {w : World}

/-! ## The guards of a store -/

/-- The guard by message type changes nothing. -/
@[simp] theorem run_msgTypeGuard (t : MsgType) (w : World) :
    ((msgTypeGuard callProg t).run (st.runtime rx) w).2 = w := by
  cases t <;> rfl

/-- Nor does the guard by method. -/
@[simp] theorem run_methodGuard (methods : List Bytes) (w : World) :
    ((methodGuard callProg methods).run (st.runtime rx) w).2 = w := by
  unfold methodGuard
  split <;> rfl

/-- A store reads its header, and is empty where it is not there. -/
theorem run_fetchHeader (hact : hr.action = .store) (w : World) :
    (fetchHeader callProg hr).run (st.runtime rx) w
      = ((w.msg.getHeader (clip hr.headerName)).text, w) := by
  have hfetch : (!hr.matchValue.isEmpty || decide (hr.action = .store)) = true := by
    rw [decide_eq_true hact, Bool.or_true]
  unfold fetchHeader
  rw [if_pos hfetch]
  show ((w.msg.getHeader (clip (clip hr.headerName))).text, w) = _
  rw [clip_clip]

/-- **A store that fires** has read its header, and its match-guard holds of it. -/
theorem guard_of_fires (hact : hr.action = .store) {hv : Bytes} {w' : World}
    (h : (fires callProg (guard callProg) hr).run (st.runtime rx) w = (some hv, w')) :
    hv = (w.msg.getHeader (clip hr.headerName)).text
      ∧ (guard callProg hr.comparison .any hr.matchValue hv).run (st.runtime rx) w
        = (true, w') := by
  unfold fires at h
  rw [Prog.run_bind, run_msgTypeGuard] at h
  split at h
  · rw [Prog.run_bind, run_methodGuard] at h
    split at h
    · rw [Prog.run_bind, run_fetchHeader hact] at h
      dsimp only at h
      rw [Prog.run_bind] at h
      split at h
      · rename_i hguard
        obtain ⟨hhv, hw⟩ := Prod.mk.inj h
        obtain rfl := Option.some.inj hhv
        exact ⟨rfl, Prod.ext hguard hw⟩
      · cases h
    · cases h
  · cases h

/-! ## The captures of a search -/

/-- A search leaves parts of its subject. -/
theorem getCapture_search {p : Bytes} {ci : Bool} (hreg : w.ctx.regexes[st.regexId (some (p, ci))]?
    = some (cString p, ci)) (subject : HmrStr) (g : Nat) :
    (Rt.getCapture (Rt.regexMatch rx w.ctx (st.regexId (some (p, ci))) subject).2 g).text
      <:+: subject.text := by
  unfold Rt.regexMatch
  rw [hreg]
  dsimp only
  -- Groups are ranges of the subject, and those that are not there read empty.
  cases rx.search (cString p) ci subject.text with
  | none => exact List.nil_infix
  | some groups =>
    dsimp only
    unfold Rt.getCapture
    dsimp only
    rw [if_pos rfl, List.getElem?_map]
    cases groups[g]? with
    | none => exact List.nil_infix
    | some group =>
      cases group with
      | none => exact List.nil_infix
      | some place =>
        show clip ((subject.text.drop place.1).take place.2) <:+: subject.text
        exact ((clip_isPrefix _).isInfix.trans (List.take_prefix _ _).isInfix).trans
          (List.drop_suffix _ _).isInfix

/-- A guard of a pattern rule that compares leaves the groups of its own search, or
none. -/
theorem getCapture_guard (rx : RegexEngine) {cmp : ComparisonType} (mvt : MatchValType)
    {mv : Value}
    (hpat : Lowering.isPattern cmp = true) (hcomp : alwaysHolds mv = false)
    (hreg : w.ctx.regexes[st.regexId (some (patternOf mv, Lowering.isCaseInsensitive cmp))]?
      = some (cString (patternOf mv), Lowering.isCaseInsensitive cmp)) (subject : Bytes) (g : Nat) :
    (Rt.getCapture ((guard callProg cmp mvt mv subject).run (st.runtime rx) w).2.ctx g).text
      <:+: subject := by
  unfold guard matchCall
  rw [hcomp, hpat, if_neg Bool.false_ne_true, if_pos rfl]
  exact (getCapture_search hreg (.ofBytes subject) g).trans (clip_isPrefix subject).isInfix

/-! ## What a store gives its slots -/

variable {name : Bytes} {n g : Nat} {s : World × Record}

/-- The groups from `g` on, recorded. -/
abbrev recordGroups (rx : RegexEngine) (st : SymbolTable) (name : Bytes) (n g : Nat)
    (s : World × Record) : World × Record :=
  ((storeGroups callProg (storeAt callProg name) n g).run (recording (st.runtime rx)) s).2

/-- The record behind the first group. -/
abbrev noteGroup (rx : RegexEngine) (st : SymbolTable) (name : Bytes) (g : Nat)
    (s : World × Record) : World × Record :=
  (recording (st.runtime rx) _
    (.store (Lowering.captureSlotKey name g) (Rt.getCapture s.1.ctx g).text) s).2

/-- The first group, and the others. -/
theorem recordGroups_succ :
    recordGroups rx st name (n + 1) g s
      = recordGroups rx st name n (g + 1) (noteGroup rx st name g s) :=
  rfl

/-- One group goes to one slot. -/
theorem noteGroup_record (slot : Bytes) :
    (noteGroup rx st name g s).2 slot
      = if slot = Lowering.captureSlotKey name g then some (Rt.getCapture s.1.ctx g).text
        else s.2 slot := by
  show (if slot = Lowering.captureSlotKey name g then
    some (clip (Rt.getCapture s.1.ctx g).text) else s.2 slot) = _
  rw [HmrStr.clip_text]

/-- A slot of none of the groups is given nothing. -/
theorem recordGroups_other {slot : Bytes}
    (h : ∀ i, g ≤ i → slot ≠ Lowering.captureSlotKey name i) :
    (recordGroups rx st name n g s).2 slot = s.2 slot := by
  induction n generalizing g s with
  | zero => rfl
  | succ n ih =>
    rw [recordGroups_succ, ih fun i hi => h i (by omega)]
    rw [noteGroup_record, if_neg (h g le_rfl)]

/-- **The slot of a group is given the group.** -/
theorem recordGroups_group {i : Nat} (hle : g ≤ i) (hlt : i < g + n) :
    (recordGroups rx st name n g s).2 (Lowering.captureSlotKey name i)
      = some (Rt.getCapture s.1.ctx i).text := by
  induction n generalizing g s with
  | zero => omega
  | succ n ih =>
    rw [recordGroups_succ]
    by_cases hi : i = g
    · subst hi
      rw [recordGroups_other fun j hj heq =>
        absurd (Lowering.captureSlotKey_group_inj heq) (by omega), noteGroup_record, if_pos rfl]
    · exact ih (s := noteGroup rx st name g s) (by omega) (by omega)

/-- **What a slot is given is one of the groups.** -/
theorem recordGroups_of_some {slot text : Bytes}
    (h : (recordGroups rx st name n g s).2 slot = some text) :
    s.2 slot = some text ∨ ∃ i, i < g + n ∧ text = (Rt.getCapture s.1.ctx i).text := by
  induction n generalizing g s with
  | zero => exact Or.inl h
  | succ n ih =>
    rw [recordGroups_succ] at h
    obtain h | ⟨i, hi, htext⟩ := ih h
    · rw [noteGroup_record] at h
      split at h
      · exact Or.inr ⟨g, by omega, (Option.some.inj h).symm⟩
      · exact Or.inl h
    · exact Or.inr ⟨i, by omega, htext⟩

end

end Meaning

namespace Interpreter

open Meaning

/-- What a `store` gives its slots. -/
def given (rx : RegexEngine) (rs : Ruleset) (idx : Nat) (hr : HeaderRule) (hv : Bytes)
    (w : World) : Record :=
  ((store callProg idx hr hv).run (recording ((symbols rs).runtime rx)) (w, fun _ => none)).2.2

/-- **A store stores its own match**: parts of the header value it has read. -/
def StoresOwnMatch (rx : RegexEngine) (rs : Ruleset) (idx : Nat) (hr : HeaderRule) (hv : Bytes)
    (w : World) : Prop :=
  ∀ slot text, given rx rs idx hr hv w slot = some text → text <:+: hv

/-- The groups a pattern-rule store stores. -/
def groupsOf (hr : HeaderRule) : Nat := Lowering.countCapturingGroups (patternOf hr.matchValue)

variable {rx : RegexEngine} {rs : Ruleset} {hr : HeaderRule}

/-- A pattern-rule store stores parts of the header value when the groups of the last
match are. -/
theorem storesOwnMatch_iff_captures (hpat : Lowering.isPattern hr.comparison = true) (idx : Nat)
    (hv : Bytes) (w : World) :
    StoresOwnMatch rx rs idx hr hv w
      ↔ ∀ g ≤ groupsOf hr, (Rt.getCapture w.ctx g).text <:+: hv := by
  have hgiven : given rx rs idx hr hv w
      = (recordGroups rx (symbols rs) (storeName hr idx) (groupsOf hr + 1) 0
          (w, fun _ => none)).2 := by
    unfold given store storeAction
    rw [if_pos hpat]
    rfl
  unfold StoresOwnMatch
  rw [hgiven]
  constructor
  · intro h g hg
    exact h _ _ (recordGroups_group (Nat.zero_le g) (by omega))
  · intro h slot text htext
    obtain hnone | ⟨i, hi, rfl⟩ := recordGroups_of_some htext
    · cases hnone
    · exact h i (by omega)

/-- **When a pattern-rule store stores its own match**: if its guard compares the header
with a pattern, or else if what the last match has left is a part of the header anyway,
group by group. The rule is any of the ruleset, reached by the rules before it. -/
theorem storesOwnMatch_iff (rx : RegexEngine) (rs : Ruleset) (msg : HmrSipMsg) (ctx : HmrContext)
    (hctx : ctx.Prepared (info rs)) (before after : List HeaderRule) {hr : HeaderRule}
    (hrs : rs.headerRules = before ++ hr :: after) (hact : hr.action = .store)
    (hpat : Lowering.isPattern hr.comparison = true) {w w' : World} {hv : Bytes}
    (hreach : (flowFrom 0 before).run ((symbols rs).runtime rx) ⟨msg, ctx.resetForApply⟩
      = (.continue, w))
    (hfires : (fires callProg (Meaning.guard callProg) hr).run ((symbols rs).runtime rx) w
      = (some hv, w')) :
    hv = (w.msg.getHeader (clip hr.headerName)).text
      ∧ (StoresOwnMatch rx rs before.length hr hv w'
        ↔ alwaysHolds hr.matchValue = false
          ∨ ∀ g ≤ groupsOf hr, (Rt.getCapture w.ctx g).text <:+: hv) := by
  obtain ⟨hhv, hguard⟩ := guard_of_fires hact hfires
  refine ⟨hhv, ?_⟩
  rw [storesOwnMatch_iff_captures hpat]
  -- A guard that always holds does not search, so the world is the one before it.
  cases hcomp : alwaysHolds hr.matchValue with
  | true =>
    have hsame : w' = w := by
      unfold Meaning.guard at hguard
      rw [if_pos hcomp] at hguard
      exact (congrArg Prod.snd hguard).symm
    rw [hsame]
    simp
  | false =>
    have hkey : (symbols rs).Has
        (.regex (patternOf hr.matchValue) (Lowering.isCaseInsensitive hr.comparison)) := by
      refine has_symbols rs _ (ruleKeys_subset hrs ?_)
      unfold ruleKeys guardKeys
      rw [hcomp, hpat]
      exact List.mem_append_left _ (List.mem_append_left _ List.mem_cons_self)
    have hreg : w.ctx.regexes = (symbols rs).regexes.map fun r => (cString r.1, r.2) := by
      have hkept := kept_run_by_name rx (symbols rs) (flowFrom 0 before)
        ⟨msg, ctx.resetForApply⟩
      rw [hreach] at hkept
      rw [show w.ctx.regexes = ctx.regexes from congrArg Prod.fst hkept, ← (info_eq rs).2]
      exact hctx.regexes
    refine iff_of_true (fun g _ => ?_) (Or.inl rfl)
    have hget : w.ctx.regexes[(symbols rs).regexId
        (some (patternOf hr.matchValue, Lowering.isCaseInsensitive hr.comparison))]?
        = some (cString (patternOf hr.matchValue), Lowering.isCaseInsensitive hr.comparison) := by
      rw [hreg, List.getElem?_map, SymbolTable.getElem?_regexId hkey]
      rfl
    have hcap := getCapture_guard rx .any hpat hcomp hget hv g
    rwa [hguard] at hcap

/-- A rule that looks for an `x` in the header `A`. -/
def lookingForX : HeaderRule where
  headerName := txt "A"
  action := .manipulate
  comparison := .patternRule
  matchValue := Value.verbatim (txt "x")

/-- A rule that stores what a match-value finds in the header `B`. -/
def keepingFromB (mv : Value) : HeaderRule where
  name := txt "own"
  headerName := txt "B"
  action := .store
  comparison := .patternRule
  matchValue := mv

/-- The two, one after the other. -/
def lookingThenKeeping (mv : Value) : Ruleset where
  headerRules := [lookingForX, keepingFromB mv]

/-- A message with an `x` in `A` and a `y` in `B`. -/
def messageXY : HmrSipMsg where
  headers :=
    [⟨.ofBytes (txt "A"), .ofBytes (txt "x"), false⟩,
      ⟨.ofBytes (txt "B"), .ofBytes (txt "y"), false⟩]
  headers_le := Nat.le_of_ble_eq_true rfl

/-- Where the second rule starts. -/
def afterLooking (mv : Value) (ctx : HmrContext) : World :=
  ((flowFrom 0 [lookingForX]).run ((symbols (lookingThenKeeping mv)).runtime .literals)
    ⟨messageXY, ctx.resetForApply⟩).2

/-- Where its guard leaves off. -/
def afterGuard (mv : Value) (ctx : HmrContext) : World :=
  ((fires callProg (Meaning.guard callProg) (keepingFromB mv)).run
    ((symbols (lookingThenKeeping mv)).runtime .literals) (afterLooking mv ctx)).2

/-- A context for the two rules, with the pattern of the second. -/
def twoPatterns : HmrContext where
  regexes := [(txt "x", false), (txt "y", false)]
  slots := [[]]

/-- A context for the two rules, when the second has no pattern. -/
def onePattern : HmrContext where
  regexes := [(txt "x", false)]
  slots := [[]]

/-- It is prepared for the ruleset with a pattern. -/
theorem prepared_twoPatterns :
    twoPatterns.Prepared (info (lookingThenKeeping (.verbatim (txt "y")))) where
  regexes := by
    rw [(info_eq _).2]
    decide
  slots := by
    rw [(info_eq _).1]
    decide

/-- The second rule is reached, and fires. -/
theorem afterLooking_y :
    (flowFrom 0 [lookingForX]).run
          ((symbols (lookingThenKeeping (.verbatim (txt "y")))).runtime .literals)
          ⟨messageXY, twoPatterns.resetForApply⟩
        = (.continue, afterLooking (.verbatim (txt "y")) twoPatterns)
      ∧ (fires callProg (Meaning.guard callProg) (keepingFromB (.verbatim (txt "y")))).run
          ((symbols (lookingThenKeeping (.verbatim (txt "y")))).runtime .literals)
          (afterLooking (.verbatim (txt "y")) twoPatterns)
        = (some (txt "y"), afterGuard (.verbatim (txt "y")) twoPatterns) :=
  ⟨Prod.ext (by decide) rfl, Prod.ext (by decide) rfl⟩

/-- The second rule is reached, and fires, without a match of its own. -/
theorem afterLooking_empty :
    (flowFrom 0 [lookingForX]).run ((symbols (lookingThenKeeping {})).runtime .literals)
          ⟨messageXY, onePattern.resetForApply⟩
        = (.continue, afterLooking {} onePattern)
      ∧ (fires callProg (Meaning.guard callProg) (keepingFromB {})).run
          ((symbols (lookingThenKeeping {})).runtime .literals) (afterLooking {} onePattern)
        = (some (txt "y"), afterGuard {} onePattern) :=
  ⟨Prod.ext (by decide) rfl, Prod.ext (by decide) rfl⟩

/-- A store with a pattern of its own. -/
theorem storesOwnMatch_iff_pattern :
    txt "y" = ((afterLooking (.verbatim (txt "y")) twoPatterns).msg.getHeader
        (clip (keepingFromB (.verbatim (txt "y"))).headerName)).text
      ∧ (StoresOwnMatch .literals (lookingThenKeeping (.verbatim (txt "y"))) 1
          (keepingFromB (.verbatim (txt "y"))) (txt "y")
          (afterGuard (.verbatim (txt "y")) twoPatterns)
        ↔ alwaysHolds (keepingFromB (.verbatim (txt "y"))).matchValue = false
          ∨ ∀ g ≤ groupsOf (keepingFromB (.verbatim (txt "y"))),
            (Rt.getCapture (afterLooking (.verbatim (txt "y")) twoPatterns).ctx g).text
              <:+: txt "y") :=
  storesOwnMatch_iff .literals (lookingThenKeeping (.verbatim (txt "y"))) messageXY twoPatterns
    prepared_twoPatterns [lookingForX] [] rfl rfl rfl afterLooking_y.1 afterLooking_y.2

/-- It stores the `x` of the other header. -/
theorem given_empty :
    given .literals (lookingThenKeeping {}) 1 (keepingFromB {}) (txt "y")
      (afterGuard {} onePattern) (txt "own") = some (txt "x") := by
  decide

/-- **A store without a pattern stores the match of the rule before it.** -/
theorem not_storesOwnMatch :
    ¬ ∀ (rx : RegexEngine) (rs : Ruleset) (msg : HmrSipMsg) (ctx : HmrContext),
      ctx.Prepared (info rs) → ∀ (before after : List HeaderRule) (hr : HeaderRule),
      rs.headerRules = before ++ hr :: after → hr.action = .store →
      Lowering.isPattern hr.comparison = true → ∀ (w w' : World) (hv : Bytes),
      (flowFrom 0 before).run ((symbols rs).runtime rx) ⟨msg, ctx.resetForApply⟩
        = (.continue, w) →
      (fires callProg (Meaning.guard callProg) hr).run ((symbols rs).runtime rx) w
        = (some hv, w') →
      StoresOwnMatch rx rs before.length hr hv w' := by
  intro h
  have hown : StoresOwnMatch .literals (lookingThenKeeping {}) 1 (keepingFromB {}) (txt "y")
      (afterGuard {} onePattern) :=
    h .literals (lookingThenKeeping {}) messageXY onePattern ⟨by decide, by decide⟩
      [lookingForX] [] (keepingFromB {}) rfl rfl rfl (afterLooking {} onePattern)
      (afterGuard {} onePattern) (txt "y") afterLooking_empty.1 afterLooking_empty.2
  have hpart : txt "x" <:+: txt "y" := hown (txt "own") (txt "x") given_empty
  exact absurd hpart (by decide)

end Interpreter

end Hmr
