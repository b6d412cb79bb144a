import Hmr.Reprint

/-!
# Printing and parsing

A ruleset that was parsed is printed and parsed again. The result is the same ruleset if
its texts can be read and its element-rules have types (`Printer.parse_toHmrText`), and
only then (`Printer.roundTrips_iff`).

The printer puts no quotes around anything. A value that was read from a string is printed
as barewords, and read back as such if it is made of those, and if there is nothing in it
that is read for a reference: a value with two blanks in a row is not, nor one with a hash
at the front of a word. For an element-rule without a type it prints `type none`, and that
is no type.

## Only then

What is read from the printed text is known to be the ruleset that was printed, but not
how it was read. That the text has no string and no comment in it is a matter of counting.
Were there one, the ruleset read from it would have fewer quotes and hashes than the text
has (`Lexer.bare_of_marks`), and these are the quotes and hashes of the ruleset that was
printed (`Printer.marks_toHmrText`). So there are barewords only, and what is read is
plain.

The attributes that are there for older versions are not printed, and so they are not
compared. What the parser makes of a text it has reported an error in does not come into
it either, since a round trip is one without errors.
-/

namespace Hmr

open Hmr.Lexer Hmr.Parser

namespace Printer

/-! ## The marks of a printed ruleset -/

/-- Blanks are no marks. -/
@[simp] theorem marks_blanks (n : Nat) : marks (List.replicate n sp) = 0 :=
  List.countP_eq_zero.mpr fun c hc => by
    rw [List.eq_of_mem_replicate hc]
    decide

/-- An attribute has the marks of its value. -/
theorem marks_attr {depth : Nat} {key v : Bytes} (hkey : marks key = 0) :
    marks (attr depth key v) = marks v := by
  have hlf : marks [lf] = 0 := rfl
  unfold attr
  split
  · rename_i hempty
    rw [List.isEmpty_iff.mp hempty]
    simp only [marks_append, marks_blanks, hkey, hlf, marks_nil]
  · simp only [marks_append, marks_blanks, hkey, hlf]
    omega

/-- Texts in a row have those of each. -/
theorem marks_flatMap {α : Type} (f : α → Bytes) (l : List α) :
    marks (l.flatMap f) = (l.map fun a => marks (f a)).sum := List.countP_flatMap

/-- The marks of printed attributes are those of their values. -/
theorem marks_attrs {attrs : List (Bytes × Bytes)} {depth : Nat}
    (hkeys : ∀ q ∈ attrs, IsKey q.1) :
    marks (attrs.flatMap fun q => attr depth q.1 q.2) = (attrs.map fun q => marks q.2).sum := by
  rw [marks_flatMap]
  exact congrArg List.sum (List.map_congr_left fun q hq => marks_attr (hkeys q hq).2.2)

/-- An element rule has those of its values. -/
theorem marks_visitElementRule (er : ElementRule) :
    marks (visitElementRule er) = elementMarks er := by
  have hlf : marks [lf] = 0 := rfl
  have hword : marks (txt "element-rule") = 0 := by decide
  have haction := (barewords_elementActions _ (AstFactory.mem_elementActions er.action)).2
  have hmvt := (barewords_matchValTypes _ (AstFactory.mem_matchValTypes er.matchValType)).2
  have hcomp := (barewords_comparisons _ (AstFactory.mem_comparisons er.comparison)).2
  rw [visitElementRule_eq, marks_append, marks_attrs (isKey_elementAttrs er)]
  simp only [elementAttrs, elementMarks, marks_append, marks_blanks, hword, hlf, List.map_cons,
    List.map_nil, List.sum_cons, List.sum_nil, bareword_elementType, haction, hmvt, hcomp]
  omega

/-- So has a header rule. -/
theorem marks_acceptHeaderRule (hr : HeaderRule) :
    marks (acceptHeaderRule hr) = headerMarks hr := by
  have hlf : marks [lf] = 0 := rfl
  have hword : marks (txt "header-rule") = 0 := by decide
  have haction := (barewords_headerActions _ (AstFactory.mem_headerActions hr.action)).2
  have hcomp := (barewords_comparisons _ (AstFactory.mem_comparisons hr.comparison)).2
  have hmsg := (barewords_msgTypes _ (AstFactory.mem_msgTypes hr.msgType)).2
  rw [acceptHeaderRule, enterHeaderRule_eq, marks_append, marks_append,
    marks_attrs (isKey_headerAttrs hr), marks_flatMap,
    List.map_congr_left fun er _ => marks_visitElementRule er]
  simp only [headerAttrs, headerMarks, marks_append, marks_blanks, hword, hlf, List.map_cons,
    List.map_nil, List.sum_cons, List.sum_nil, haction, hcomp, hmsg]
  omega

/-- **The marks of a printed ruleset are those of the ruleset.** -/
theorem marks_toHmrText (rs : SourceRuleset) : marks (toHmrText rs) = rulesetMarks rs := by
  have hlf : marks [lf] = 0 := rfl
  have hword : marks (txt "sip-manipulation") = 0 := by decide
  have hattrs : ((rulesetAttrs rs).map fun q => marks q.2).sum
      = marks rs.name + marks rs.description := by
    unfold rulesetAttrs
    split
    · rename_i hempty
      simp [List.isEmpty_iff.mp hempty]
    · simp
  rw [toHmrText, enterRuleset_eq, marks_append, marks_append,
    marks_attrs (isKey_rulesetAttrs rs), hattrs, marks_flatMap,
    List.map_congr_left fun hr _ => marks_acceptHeaderRule hr]
  simp only [rulesetMarks, marks_append, marks_blanks, hword, hlf]
  omega

/-! ## What is read from barewords -/

/-- What is in joined texts is in one of them, or between two. -/
theorem mem_intercalate {sep : UInt8} {ws : List Bytes} {c : UInt8}
    (h : c ∈ [sep].intercalate ws) : c = sep ∨ ∃ w ∈ ws, c ∈ w := by
  induction ws with
  | nil => cases h
  | cons w ws ih =>
    cases ws with
    | nil =>
      rw [List.intercalate_singleton] at h
      exact Or.inr ⟨w, List.mem_cons_self, h⟩
    | cons w' ws =>
      rw [List.intercalate_cons_cons, List.mem_append, List.mem_append] at h
      rcases h with (h | h) | h
      · exact Or.inr ⟨w, List.mem_cons_self, h⟩
      · exact Or.inl (List.mem_singleton.mp h)
      · rcases ih h with h | ⟨v, hv, hc⟩
        · exact Or.inl h
        · exact Or.inr ⟨v, List.mem_cons_of_mem _ hv, hc⟩

/-- The only breaks in a plain text are its blanks. -/
theorem eq_sp_of_isBreak {v : Bytes} (h : Plain v) {c : UInt8} (hc : c ∈ v)
    (hbreak : isBreak c = true) : c = sp := by
  rw [← intercalate_words v] at hc
  rcases mem_intercalate hc with rfl | ⟨w, hw, hcw⟩
  · rfl
  · have hword := h w hw
    cases w with
    | nil => cases hcw
    | cons d w =>
      simp only [isWord, Bool.and_eq_true, List.all_eq_true, Bool.not_eq_true'] at hword
      rw [hword.2 c hcw] at hbreak
      cases hbreak

/-- A break is one in capitals too. -/
@[simp] theorem isBreak_toUpper (c : UInt8) : isBreak (Lowering.toUpper c) = isBreak c := by
  unfold Lowering.toUpper isBreak Lexer.isBlank
  grind

/-- Methods read from a plain text are one bareword, unless a mark comes to stand in
front. -/
theorem plain_joinMethods {raw : Bytes} (hraw : Plain raw)
    (hmark : ∀ c, (AstFactory.joinMethods (AstFactory.parseMethods raw)).head? = some c →
      isMark c = false) :
    Plain (AstFactory.joinMethods (AstFactory.parseMethods raw)) := by
  have hbreak : ∀ c ∈ AstFactory.joinMethods (AstFactory.parseMethods raw),
      isBreak c = false := by
    intro c hc
    -- Commas are no breaks, and the methods are cut at blanks.
    rcases mem_intercalate hc with rfl | ⟨m, hm, hcm⟩
    · rfl
    · obtain ⟨piece, hpiece, rfl⟩ := List.mem_map.mp hm
      obtain ⟨d, hd, rfl⟩ := List.mem_map.mp hcm
      obtain ⟨hdraw, hdsep⟩ :=
        mem_of_mem_splitOnP (List.mem_of_mem_filter hpiece) d hd
      rw [isBreak_toUpper]
      by_contra hnot
      rw [eq_sp_of_isBreak hraw hdraw (by simpa using hnot)] at hdsep
      exact absurd hdsep (by decide)
  cases hjoin : AstFactory.joinMethods (AstFactory.parseMethods raw) with
  | nil => exact fun w hw => (nomatch hw)
  | cons c rest =>
    rw [hjoin] at hmark hbreak
    refine plain_of_isWord ?_
    simp only [isWord, Bool.and_eq_true, Bool.not_eq_true', List.all_eq_true]
    exact ⟨hmark c rfl, hbreak⟩

/-- A value of barewords is plain, and unquoted. -/
theorem readValue_bare {value : List Token}
    (h : ∀ t ∈ value, ∃ w, t = .word w ∧ isWord w = true) :
    Plain (readValue value).raw ∧ (readValue value).quoted = false := by
  obtain ⟨ws, hws, hword⟩ :
      ∃ ws : List Bytes, value = ws.map .word ∧ ∀ w ∈ ws, isWord w = true := by
    induction value with
    | nil => exact ⟨[], rfl, by simp⟩
    | cons t value ih =>
      rw [List.forall_mem_cons] at h
      obtain ⟨⟨w, rfl, hw⟩, hrest⟩ := h
      obtain ⟨ws, rfl, hws⟩ := ih hrest
      exact ⟨w :: ws, rfl, List.forall_mem_cons.mpr ⟨hw, hws⟩⟩
  rw [hws, readValue_words hword]
  exact ⟨plain_intercalate hword, rfl⟩

/-- A plain, unquoted value. -/
def IsBare (a : AttrValue) : Prop := Plain a.raw ∧ a.quoted = false

/-- A value that is read from barewords is plain. -/
theorem unquoted_of_built {mode : ValueMode} {v : Value}
    (h : ∃ a, IsBare a ∧ Value.parse a.raw mode a.quoted = some v) :
    Plain v.raw ∧ Value.Unquoted mode v := by
  obtain ⟨a, ⟨hplain, hquoted⟩, hparse⟩ := h
  have hraw : v.raw = a.raw := Value.raw_parse hparse
  refine ⟨hraw ▸ hplain, (Value.parse_raw_iff hparse).mp ?_⟩
  rw [hraw, ← hquoted]
  exact hparse

/-- So is a text. -/
theorem plain_of_built {v : Bytes} (h : ∃ a, IsBare a ∧ v = a.raw) : Plain v := by
  obtain ⟨a, ha, rfl⟩ := h
  exact ha.1

/-- So an element rule made of them can be read. -/
theorem elementLegible_of_built {er : ElementRule} (h : ElementBuilt IsBare er) :
    ElementLegible er :=
  ⟨plain_of_built h.name, plain_of_built h.parameterName, unquoted_of_built h.matchValue,
    unquoted_of_built h.newValue⟩

/-- What is printed shows no mark in front of the methods. -/
theorem head?_joinMethods {rs : SourceRuleset} (h : Unmarked (toHmrText rs)) {hr : HeaderRule}
    (hhr : hr ∈ rs.headerRules) (c : UInt8)
    (hc : (AstFactory.joinMethods hr.methods).head? = some c) : isMark c = false := by
  obtain ⟨rest, hjoin⟩ := List.head?_eq_some_iff.mp hc
  -- A blank stands in front of the methods, so a mark at their front would be one behind a
  -- blank.
  have hattr : [sp, c] <:+: attr 2 (txt "methods") (AstFactory.joinMethods hr.methods) := by
    rw [attr, hjoin]
    exact ⟨List.replicate (2 * 8) sp ++ txt "methods" ++ List.replicate 19 sp, rest ++ [lf],
      by simp [List.replicate_succ]⟩
  have hrule : attr 2 (txt "methods") (AstFactory.joinMethods hr.methods)
      <:+: acceptHeaderRule hr := by
    rw [acceptHeaderRule, enterHeaderRule]
    exact List.infix_append _ _ _
  have htext : acceptHeaderRule hr <:+: toHmrText rs := by
    obtain ⟨before, after, hsplit⟩ := List.append_of_mem hhr
    rw [toHmrText, hsplit, List.flatMap_append, List.flatMap_cons, ← List.append_assoc,
      ← List.append_assoc]
    exact List.infix_append _ _ _
  have hchain := List.IsChain.infix h (hattr.trans (hrule.trans htext))
  exact (List.isChain_cons_cons.mp hchain).1 rfl

variable {recover : Recovery} {source : Bytes} {rs : SourceRuleset} {warnings : List Bytes}

/-- **A round trip**: what is printed is parsed without an error, and the ruleset is the
same but for its legacy attributes. -/
def RoundTrips (recover : Recovery) (rs : SourceRuleset) : Prop :=
  ∃ rs' warnings, parse recover (toHmrText rs) = .ruleset rs' warnings
    ∧ withoutLegacy rs' = withoutLegacy rs

/-- **What can be printed and parsed again**: texts that can be read, and element-rules
that have types. -/
structure Printable (rs : SourceRuleset) : Prop where
  legible : Legible rs
  typed : ∀ hr ∈ rs.headerRules, Typed hr.elementRules

/-- A parsed ruleset is made of values. -/
theorem built_of_parse (h : parse recover source = .ruleset rs warnings) :
    RulesetBuilt (fun _ => True) rs := by
  obtain ⟨ts, m, more, d, -, -, hbuild⟩ := unit_of_parse h
  exact built_buildRuleset (H := fun _ => True) (fun _ _ => trivial) (fun _ _ => trivial) hbuild

/-- **What makes the round trip can be read.** No mark is lost: the printed text has those of the
ruleset, and what is read of a text has no more than the text. So the tokens the ruleset comes
back from are words and no strings, and each of its texts is one that a word can carry. -/
theorem RoundTrips.legible (h : RoundTrips recover rs) : Legible rs := by
  obtain ⟨rs', warnings, hparse, hsame⟩ := h
  have hname : rs'.name = rs.name := congrArg (·.name) hsame
  have hdescription : rs'.description = rs.description := congrArg (·.description) hsame
  have hrules : rs'.headerRules = rs.headerRules := congrArg (·.headerRules) hsame
  have htext : toHmrText rs' = toHmrText rs := by
    have : toHmrText (withoutLegacy rs') = toHmrText (withoutLegacy rs) := congrArg toHmrText hsame
    exact this
  obtain ⟨ts, m, more, d, hts, hunit, hbuild⟩ := unit_of_parse hparse
  rw [ended, if_pos (getLast?_toHmrText rs)] at hts
  obtain ⟨hsub, hnewline⟩ := atoms_unit hunit
  have hatoms : m.atoms.Sublist ts :=
    (List.sublist_append_left _ _).trans hsub
  -- No mark is lost: the printed text has those of the ruleset, and what is read of it too.
  have hkept : marks (toHmrText rs) ≤ marksOf ts := by
    rw [← htext, marks_toHmrText]
    exact (marks_buildRuleset hbuild).trans (marksOf_sublist hatoms)
  obtain ⟨hbare, hunmarked, -⟩ :=
    bare_of_marks hts rfl (by simpa [State.marks] using hkept)
  have hwords : ∀ t ∈ m.atoms, ∃ w, t = .word w ∧ isWord w = true := by
    intro t ht
    have hmem := hatoms.subset ht
    cases t with
    | word w => exact ⟨w, rfl, tokensFrom_words hts trivial w hmem⟩
    | string b => exact absurd hmem (hbare b)
    | newline => exact absurd (List.mem_append_left _ ht) hnewline
  have hbuilt : RulesetBuilt IsBare rs' :=
    built_buildRuleset (H := fun t => ∃ w, t = .word w ∧ isWord w = true)
      (fun _ h => readValue_bare h) hwords hbuild
  refine ⟨hname ▸ plain_of_built hbuilt.name,
    hdescription ▸ plain_of_built hbuilt.description, fun hr hhr => ?_⟩
  have hrule := hbuilt.headerRules hr (hrules ▸ hhr)
  obtain ⟨a, ha, hmethods⟩ := hrule.methods
  have hmark := head?_joinMethods hunmarked hhr
  rw [hmethods] at hmark
  exact ⟨plain_of_built hrule.name, plain_of_built hrule.headerName,
    hmethods ▸ plain_joinMethods ha.1 hmark, unquoted_of_built hrule.matchValue,
    unquoted_of_built hrule.newValue,
    fun er her => elementLegible_of_built (hrule.elementRules er her)⟩

/-- **What makes the round trip has types**, since the printed text has no error. -/
theorem RoundTrips.printable {S : AttrValue → Prop} (h : RoundTrips recover rs)
    (hbuilt : RulesetBuilt S rs) : Printable rs := by
  obtain ⟨d, hprint, htyped⟩ := parse_toHmrText recover h.legible hbuilt
  refine ⟨h.legible, ?_⟩
  obtain ⟨rs', warnings, hparse, -⟩ := h
  rw [hprint] at hparse
  split at hparse
  · rename_i herrors
    exact htyped.mp herrors
  · cases hparse

/-- **A parsed ruleset makes the round trip exactly when it is printable.** -/
theorem roundTrips_iff (h : parse recover source = .ruleset rs warnings) :
    RoundTrips recover rs ↔ Printable rs := by
  have hbuilt := built_of_parse h
  refine ⟨fun htrips => htrips.printable hbuilt, fun hprintable => ?_⟩
  obtain ⟨d, hprint, htyped⟩ := parse_toHmrText recover hprintable.legible hbuilt
  rw [if_pos (htyped.mpr hprintable.typed)] at hprint
  exact ⟨withoutLegacy rs, d.warnings, hprint, rfl⟩

/-- A source with quotes, where they can be done without, and with references. -/
def maskCallerText : Bytes :=
  txt ("sip-manipulation Mask\n description \"hides the caller\"\n header-rule\n name from\n"
    ++ " header-name From\n action manipulate\n comparison-type pattern-rule\n"
    ++ " msg-type request\n methods invite,BYE\n match-value ^.*<sip:(.*)@\n"
    ++ " element-rule user\n type uri-user\n action replace\n"
    ++ " comparison-type case-insensitive\n match-value !bob\n new-value \"a\"+$1.$0\n")

/-- What is parsed from it. -/
def maskCaller : SourceRuleset where
  name := txt "Mask"
  description := txt "hides the caller"
  headerRules := [{
    name := txt "from"
    headerName := txt "From"
    action := .manipulate
    comparison := .patternRule
    msgType := .request
    methods := [txt "INVITE", txt "BYE"]
    matchValue :=
      { raw := txt "^.*<sip:(.*)@", segments := [.literal (txt "^.*<sip:(.*)@")] }
    elementRules := [{
      name := txt "user"
      type := .uriUser
      action := .replace
      comparison := .caseInsensitive
      matchValue := { raw := txt "!bob", segments := [.literal (txt "bob")], negated := true }
      newValue := {
        raw := txt "a +$1.$0"
        segments := [.literal (txt "a "),
          .ref { kind := .capture, name := txt "1", captureIndex := 1 },
          .literal (txt "."),
          .ref { kind := .capture, name := txt "0", captureIndex := 0 }] } }] }]

/-- It is parsed without a warning. -/
theorem parse_maskCaller (recover : Recovery) :
    parse recover maskCallerText = .ruleset maskCaller [] :=
  parse_of_visit (by decide +kernel)

/-- It can be printed and parsed again. -/
theorem printable_maskCaller : Printable maskCaller where
  legible := by
    refine ⟨by decide, by decide, fun hr hhr => ?_⟩
    obtain rfl := List.mem_singleton.mp hhr
    refine ⟨by decide, by decide, by decide, ⟨by decide, fun _ => ⟨by decide, by decide⟩⟩,
      ⟨by decide, fun _ => ⟨by decide, Value.noReference_nil⟩⟩, fun er her => ?_⟩
    obtain rfl := List.mem_singleton.mp her
    -- what is negated or refers to something was not taken verbatim
    exact ⟨by decide, by decide, ⟨by decide, fun h => absurd h (by decide)⟩,
      ⟨by decide, fun h => absurd h (by decide)⟩⟩
  typed := fun hr hhr er her => by
    obtain rfl := List.mem_singleton.mp hhr
    obtain rfl := List.mem_singleton.mp her
    decide

/-- It makes the round trip: its one string is three barewords, and its new-value, joined from
a string and a bareword, is a value of two barewords. -/
theorem roundTrips_maskCaller :
    parse .giveUp maskCallerText = .ruleset maskCaller [] ∧ RoundTrips .giveUp maskCaller :=
  ⟨parse_maskCaller _, (roundTrips_iff (parse_maskCaller _)).mpr printable_maskCaller⟩

/-- A ruleset of one element-rule, of no type. -/
def untyped : SourceRuleset where
  headerRules := [{ elementRules := [{}] }]

/-- **Without a type it does not**: what is printed for the type that was never given
is no type. -/
theorem not_roundTrips : ¬ ∀ recover source rs warnings,
    parse recover source = .ruleset rs warnings → RoundTrips recover rs := by
  intro h
  have hparse : parse .giveUp (txt "sip-manipulation\nheader-rule\nelement-rule\n")
      = .ruleset untyped [] := parse_of_visit (by decide)
  have hprintable := (h _ _ _ _ hparse).printable (built_of_parse hparse)
  exact hprintable.typed _ List.mem_cons_self _ List.mem_cons_self rfl

end Printer

end Hmr
