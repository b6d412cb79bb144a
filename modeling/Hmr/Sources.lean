import Hmr.Quotes
import Hmr.Parser
import Mathlib.Algebra.Order.BigOperators.Group.List
import Mathlib.Algebra.Order.Group.Nat

/-!
# Where a ruleset comes from

Every text in a parsed ruleset is the value of some attribute, and every value is made of
tokens of the source (`Parser.atoms_unit`): the lines of the source are its tokens, parted
at the line ends, and the blocks are the lines, sorted. Nothing is made up on the way, and
nothing is used twice; what is left out is what stands in a block that the parser skips.

Two things follow, and both are used to show that a printed ruleset that is parsed again
must have been plain.

What all values of the source have in common holds of the ruleset's texts
(`Parser.built_buildRuleset`). A property `S` of values is a parameter here, given by a
property `H` of the tokens that a value is read from, and `Parser.RulesetBuilt` says of
each text of a ruleset that some value with the property is behind it. With nothing to ask
for, it still says that every match-value and new-value in the ruleset was parsed, from
some text.

And the ruleset has no more marks in it than the source, a mark being a quote or a hash
(`Parser.marks_buildRuleset`). Every function on the way is one that adds none: joining
atoms by blanks, taking escapes apart, splitting methods and raising their letters.
-/

namespace Hmr

open Hmr.Lexer

namespace Parser

/-! ## From the tokens to the values -/

/-- The tokens of the values of some attributes. -/
def attributeAtoms (attrs : List AttributeContext) : List Token := attrs.flatMap (·.value)

/-- The tokens of the values of an element-rule. -/
def ElementRuleContext.atoms (ctx : ElementRuleContext) : List Token :=
  ctx.value ++ attributeAtoms ctx.attributes

/-- The tokens of the values of an item of a header-rule. -/
def HeaderRuleItem.atoms : HeaderRuleItem → List Token
  | elementRule ctx => ctx.atoms
  | attr ctx => ctx.value

/-- The tokens of the values of a header-rule. -/
def HeaderRuleContext.atoms (ctx : HeaderRuleContext) : List Token :=
  ctx.value ++ ctx.items.flatMap (·.atoms)

/-- The tokens of the values of an item of a manipulation that are used. -/
def ManipItem.atoms : ManipItem → List Token
  | headerRule ctx => ctx.atoms
  | mimeRule _ => []
  | attr ctx => ctx.value

/-- The tokens of the values of a manipulation. -/
def ManipulationContext.atoms (ctx : ManipulationContext) : List Token :=
  ctx.value ++ ctx.items.flatMap (·.atoms)

/-- The tokens of the values of some blocks, in the order of the text: what is open stands above
what is closed. -/
def Blocks.atoms (b : Blocks) : List Token :=
  attributeAtoms b.attributes ++ b.elementRules.flatMap (·.atoms) ++ b.rules.flatMap (·.atoms)
    ++ b.manipulations.flatMap (·.atoms)

/-- A line adds the tokens of its value, and a block without use takes some away. -/
theorem Blocks.atoms_above {b b' : Blocks} {key : Bytes} {value : List Token}
    (h : b.above key value = some b') : b'.atoms.Sublist (value ++ b.atoms) := by
  unfold Blocks.above at h
  split at h
  · cases h
    simp [Blocks.atoms, attributeAtoms]
  · cases h
    simp [Blocks.atoms, ElementRuleContext.atoms, attributeAtoms]
  · cases h
    simp [Blocks.atoms, ManipItem.atoms, HeaderRuleContext.atoms, HeaderRuleItem.atoms,
      attributeAtoms, List.flatMap_map]
  · cases h
    -- of a mime-rule nothing is kept, neither its value nor what is open below it
    refine List.Sublist.trans ?_ (List.sublist_append_right _ _)
    simp only [Blocks.atoms, ManipItem.atoms, attributeAtoms, List.flatMap_cons,
      List.flatMap_nil, List.nil_append]
    refine List.Sublist.append (List.sublist_append_right _ _) (List.Sublist.refl _)
  · split at h
    · cases h
      rename_i hnone
      simp [Blocks.atoms, ManipulationContext.atoms, ManipItem.atoms, attributeAtoms, hnone,
        List.flatMap_map]
    · cases h

/-- The values of the blocks are made of the tokens of the lines. -/
theorem atoms_blocks {ls : List (List Token)} {b : Blocks} (h : blocks ls = some b) :
    b.atoms.Sublist ls.flatten := by
  induction ls generalizing b with
  | nil =>
    cases h
    exact List.Sublist.refl _
  | cons l ls ih =>
    rw [List.flatten_cons]
    cases l with
    | nil => exact ih h
    | cons t value =>
      cases t with
      | word key =>
        rw [blocks] at h
        obtain ⟨b₀, hb₀, habove⟩ := Option.bind_eq_some_iff.mp h
        refine (Blocks.atoms_above habove).trans ?_
        exact List.Sublist.append (List.sublist_cons_self _ _) (ih hb₀)
      | string body => cases h
      | newline => cases h

/-- The lines are made of the tokens of the text, without its line ends. -/
theorem lines_flatten {acc ts : List Token} {ls : List (List Token)}
    (h : lines acc ts = some ls) : ls.flatten.Sublist (acc ++ ts) := by
  induction ts generalizing acc ls with
  | nil =>
    rw [lines] at h
    split at h
    · cases h
      exact List.nil_sublist _
    · cases h
  | cons t ts ih =>
    have hword : ∀ ls', lines (acc ++ [t]) ts = some ls' →
        ls'.flatten.Sublist (acc ++ t :: ts) := by
      intro ls' h'
      have := ih h'
      rwa [List.append_assoc, List.singleton_append] at this
    cases t with
    | word w => exact hword ls h
    | string b => exact hword ls h
    | newline =>
      rw [lines] at h
      obtain ⟨ls', hls', rfl⟩ := Option.map_eq_some_iff.mp h
      rw [List.flatten_cons]
      exact List.Sublist.append (List.Sublist.refl _) ((ih hls').trans (List.sublist_cons_self _ _))

/-- A line is read up to its end. -/
theorem lines_line {acc l rest : List Token} (h : Token.newline ∉ l) :
    lines acc (l ++ .newline :: rest) = (lines [] rest).map ((acc ++ l) :: ·) := by
  induction l generalizing acc with
  | nil =>
    rw [List.append_nil]
    rfl
  | cons t l ih =>
    obtain ⟨ht, hl⟩ := not_or.mp (mt List.mem_cons.mpr h)
    have hstep : lines acc (t :: (l ++ .newline :: rest))
        = lines (acc ++ [t]) (l ++ .newline :: rest) := by
      cases t with
      | newline => exact absurd rfl ht
      | _ => rfl
    rw [List.cons_append, hstep, ih hl, List.append_assoc]
    rfl

/-- No line end is left in a line. -/
theorem newline_not_mem_lines {acc ts : List Token} {ls : List (List Token)}
    (h : lines acc ts = some ls) (hacc : Token.newline ∉ acc) :
    ∀ l ∈ ls, Token.newline ∉ l := by
  induction ts generalizing acc ls with
  | nil =>
    rw [lines] at h
    split at h
    · cases h
      simp
    · cases h
  | cons t ts ih =>
    cases t with
    | word w => exact ih h (by simpa using hacc)
    | string b => exact ih h (by simpa using hacc)
    | newline =>
      rw [lines] at h
      obtain ⟨ls', hls', rfl⟩ := Option.map_eq_some_iff.mp h
      exact List.forall_mem_cons.mpr ⟨hacc, ih hls' (by simp)⟩

/-- **The values of a text are made of its tokens.** -/
theorem atoms_unit {ts : List Token} {ms : List ManipulationContext} (h : unit ts = some ms) :
    (ms.flatMap (·.atoms)).Sublist ts ∧ Token.newline ∉ ms.flatMap (·.atoms) := by
  obtain ⟨ls, hls, hrest⟩ := Option.bind_eq_some_iff.mp h
  obtain ⟨b, hb, hunit⟩ := Option.bind_eq_some_iff.mp hrest
  split at hunit
  · cases hunit
    have hsub : (b.manipulations.flatMap (·.atoms)).Sublist ls.flatten :=
      (List.sublist_append_right _ _).trans (atoms_blocks hb)
    refine ⟨hsub.trans (lines_flatten hls), fun hmem => ?_⟩
    obtain ⟨l, hl, hnewline⟩ := List.mem_flatten.mp (hsub.subset hmem)
    exact newline_not_mem_lines hls (by simp) l hl hnewline
  · cases hunit

/-! ## From the values to the ruleset -/

/-- **An element-rule made of certain values.** Its enumerations are not asked about. -/
structure ElementBuilt (S : AttrValue → Prop) (er : ElementRule) : Prop where
  name : ∃ a, S a ∧ er.name = a.raw
  parameterName : ∃ a, S a ∧ er.parameterName = a.raw
  matchValue : ∃ a, S a ∧ Value.parse a.raw .matchValue a.quoted = some er.matchValue
  newValue : ∃ a, S a ∧ Value.parse a.raw .newValue a.quoted = some er.newValue

/-- **A header-rule made of certain values.** -/
structure HeaderBuilt (S : AttrValue → Prop) (hr : HeaderRule) : Prop where
  name : ∃ a, S a ∧ hr.name = a.raw
  headerName : ∃ a, S a ∧ hr.headerName = a.raw
  methods : ∃ a, S a ∧ hr.methods = AstFactory.parseMethods a.raw
  matchValue : ∃ a, S a ∧ Value.parse a.raw .matchValue a.quoted = some hr.matchValue
  newValue : ∃ a, S a ∧ Value.parse a.raw .newValue a.quoted = some hr.newValue
  elementRules : ∀ er ∈ hr.elementRules, ElementBuilt S er

/-- **A ruleset made of certain values.** -/
structure RulesetBuilt (S : AttrValue → Prop) (rs : SourceRuleset) : Prop where
  name : ∃ a, S a ∧ rs.name = a.raw
  description : ∃ a, S a ∧ rs.description = a.raw
  headerRules : ∀ hr ∈ rs.headerRules, HeaderBuilt S hr

section
variable {S : AttrValue → Prop} {d d' : Diagnostics}

/-- An attribute with such a value keeps it so: it sets one text, or one member of an
enumeration. -/
theorem ElementBuilt.apply {er er' : ElementRule} {attr : AttributeContext}
    (h : ElementBuilt S er) (hS : S (readValue attr.value))
    (happly : applyElementAttr (er, d) attr = some (er', d')) : ElementBuilt S er' := by
  cases applyElementAttr_written happly with
  | name => exact { h with name := ⟨_, hS, rfl⟩ }
  | parameterName => exact { h with parameterName := ⟨_, hS, rfl⟩ }
  | members => exact { h with }
  | matchValue v hv => exact { h with matchValue := ⟨_, hS, hv⟩ }
  | newValue v hv => exact { h with newValue := ⟨_, hS, hv⟩ }

/-- The same for a header-rule. -/
theorem HeaderBuilt.apply {hr hr' : HeaderRule} {attr : AttributeContext}
    (h : HeaderBuilt S hr) (hS : S (readValue attr.value))
    (happly : applyHeaderAttr (hr, d) attr = some (hr', d')) : HeaderBuilt S hr' := by
  cases applyHeaderAttr_written happly with
  | name => exact { h with name := ⟨_, hS, rfl⟩ }
  | headerName => exact { h with headerName := ⟨_, hS, rfl⟩ }
  | methods => exact { h with methods := ⟨_, hS, rfl⟩ }
  | members => exact { h with }
  | matchValue v hv => exact { h with matchValue := ⟨_, hS, hv⟩ }
  | newValue v hv => exact { h with newValue := ⟨_, hS, hv⟩ }

/-- The same for a ruleset, of whose attributes only the name and the description matter here. -/
theorem RulesetBuilt.apply {rs : SourceRuleset} {attr : AttributeContext}
    (h : RulesetBuilt S rs) (hS : S (readValue attr.value)) :
    RulesetBuilt S (applyRulesetAttr (rs, d) attr).1 := by
  unfold applyRulesetAttr
  dsimp only
  split
  · exact { h with name := ⟨_, hS, rfl⟩ }
  · exact { h with description := ⟨_, hS, rfl⟩ }
  all_goals exact { h with }

variable {H : Token → Prop} (hS : ∀ value, (∀ t ∈ value, H t) → S (readValue value))
include hS

/-- An element-rule is made of the values of its attributes, and of its own. What has no
attribute is empty, as is the value of no tokens. -/
theorem built_buildElementRule {ctx : ElementRuleContext} {er : ElementRule}
    (hctx : ∀ t ∈ ctx.atoms, H t) (h : buildElementRule ctx d = some (er, d')) :
    ElementBuilt S er := by
  have hnil : S (readValue []) := hS [] (by simp)
  have hvalue : S (readValue ctx.value) :=
    hS _ fun t ht => hctx t (List.mem_append_left _ ht)
  refine foldlM_invariant (P := fun q => ElementBuilt S q.1) (fun attr hattr q q' hq happly => ?_)
    ?_ h
  · refine hq.apply (hS _ fun t ht => hctx t ?_) happly
    exact List.mem_append_right _ (List.mem_flatMap.mpr ⟨attr, hattr, ht⟩)
  · exact ⟨⟨_, hvalue, rfl⟩, ⟨_, hnil, rfl⟩, ⟨_, hnil, rfl⟩, ⟨_, hnil, rfl⟩⟩

/-- A header-rule is, too, item by item. -/
theorem built_buildHeaderRule {ctx : HeaderRuleContext} {hr : HeaderRule}
    (hctx : ∀ t ∈ ctx.atoms, H t) (h : buildHeaderRule ctx d = some (hr, d')) :
    HeaderBuilt S hr := by
  have hnil : S (readValue []) := hS [] (by simp)
  rw [HeaderRuleContext.atoms, List.forall_mem_append] at hctx
  refine foldlM_invariant (P := fun q => HeaderBuilt S q.1) (fun item hitem q q' hq hbuild => ?_)
    ?_ h
  · have hatoms : ∀ t ∈ item.atoms, H t := fun t ht =>
      hctx.2 t (List.mem_flatMap.mpr ⟨item, hitem, ht⟩)
    cases item with
    | elementRule ctx =>
      obtain ⟨⟨er, d₁⟩, her, hsome⟩ := Option.bind_eq_some_iff.mp hbuild
      cases hsome
      exact { hq with
        elementRules := by
          rw [List.forall_mem_append, List.forall_mem_singleton]
          exact ⟨hq.elementRules, built_buildElementRule hS hatoms her⟩ }
    | attr ctx => exact hq.apply (hS _ hatoms) hbuild
  · exact ⟨⟨_, hS _ hctx.1, rfl⟩, ⟨_, hnil, rfl⟩, ⟨_, hnil, rfl⟩, ⟨_, hnil, rfl⟩,
      ⟨_, hnil, rfl⟩, by simp⟩

/-- **A ruleset is made of the values it is built from.** -/
theorem built_buildRuleset {ctx : ManipulationContext} {rs : SourceRuleset}
    (hctx : ∀ t ∈ ctx.atoms, H t) (h : buildRuleset ctx d = some (rs, d')) :
    RulesetBuilt S rs := by
  have hnil : S (readValue []) := hS [] (by simp)
  rw [ManipulationContext.atoms, List.forall_mem_append] at hctx
  refine foldlM_invariant (P := fun q => RulesetBuilt S q.1) (fun item hitem q q' hq hbuild => ?_)
    ?_ h
  · have hatoms : ∀ t ∈ item.atoms, H t := fun t ht =>
      hctx.2 t (List.mem_flatMap.mpr ⟨item, hitem, ht⟩)
    cases item with
    | headerRule ctx =>
      obtain ⟨⟨hr, d₁⟩, hhr, hsome⟩ := Option.bind_eq_some_iff.mp hbuild
      cases hsome
      exact { hq with
        headerRules := by
          rw [List.forall_mem_append, List.forall_mem_singleton]
          exact ⟨hq.headerRules, built_buildHeaderRule hS hatoms hhr⟩ }
    | mimeRule start =>
      cases hbuild
      exact hq
    | attr ctx =>
      cases hbuild
      exact hq.apply (hS _ hatoms)
  · exact ⟨⟨_, hS _ hctx.1, rfl⟩, ⟨_, hnil, rfl⟩, by simp⟩

end

/-! ## Marks -/

/-- The marks in the texts of an element-rule. -/
def elementMarks (er : ElementRule) : Nat :=
  marks er.name + marks er.parameterName + marks er.matchValue.raw + marks er.newValue.raw

/-- The marks in the texts of a header-rule. -/
def headerMarks (hr : HeaderRule) : Nat :=
  marks hr.name + marks hr.headerName + marks (AstFactory.joinMethods hr.methods)
    + marks hr.matchValue.raw + marks hr.newValue.raw
    + (hr.elementRules.map elementMarks).sum

/-- The marks in the texts of a ruleset. -/
def rulesetMarks (rs : SourceRuleset) : Nat :=
  marks rs.name + marks rs.description + (rs.headerRules.map headerMarks).sum

/-- An escape loses a backslash, and stands for at most one mark. -/
theorem marks_unescapeString (b : Bytes) : marks (unescapeString b) ≤ marks b := by
  induction b using unescapeString.induct with
  | case1 => exact le_rfl
  | case2 c => exact le_rfl
  | case3 e rest ih =>
    have hescape : marks [if e = 110 then lf else if e = 116 then tab
        else if e = 114 then cr else e] ≤ marks [e] := by
      split
      · exact Nat.zero_le _
      · split
        · exact Nat.zero_le _
        · split
          · exact Nat.zero_le _
          · exact le_rfl
    rw [unescapeString, if_pos rfl, marks_cons, marks_cons 92, marks_cons e]
    omega
  | case4 c e rest hc ih =>
    rw [unescapeString, if_neg hc, marks_cons c (unescapeString _), marks_cons c (e :: rest)]
    omega

/-- A string may have fewer marks than its token, which has two quotes around it; a word has as
many. -/
theorem marks_atomText (t : Token) : marks (atomText t) ≤ tokenMarks t := by
  cases t with
  | word w => exact le_rfl
  | string b => exact marks_unescapeString b
  | newline => exact le_rfl

/-- Joining atoms by blanks adds no mark. -/
theorem marks_foldl (acc : Bytes) (value : List Token) :
    marks (value.foldl
        (fun raw a => (if raw.isEmpty then raw else raw ++ [sp]) ++ atomText a) acc)
      ≤ marks acc + marksOf value := by
  induction value generalizing acc with
  | nil => exact le_rfl
  | cons t value ih =>
    have hstep : marks ((if acc.isEmpty then acc else acc ++ [sp]) ++ atomText t)
        ≤ marks acc + tokenMarks t := by
      have := marks_atomText t
      split
      · rw [marks_append]
        omega
      · rw [marks_append, marks_append]
        have hsp : marks [sp] = 0 := rfl
        omega
    have hvalue : marksOf (t :: value) = tokenMarks t + marksOf value := by simp [marksOf]
    rw [List.foldl_cons, hvalue]
    have := ih ((if acc.isEmpty then acc else acc ++ [sp]) ++ atomText t)
    omega

/-- **A value has no more marks than its tokens.** -/
theorem marks_readValue (value : List Token) : marks (readValue value).raw ≤ marksOf value := by
  have := marks_foldl [] value
  rwa [marks_nil, Nat.zero_add] at this

/-- Nor do the commas between methods. -/
theorem marks_joinMethods (ms : List Bytes) :
    marks (AstFactory.joinMethods ms) = (ms.map marks).sum := by
  unfold AstFactory.joinMethods
  induction ms with
  | nil => rfl
  | cons m ms ih =>
    cases ms with
    | nil => simp
    | cons m' ms =>
      have hcomma : marks [44] = 0 := rfl
      rw [List.intercalate_cons_cons, marks_append, marks_append, ih, hcomma]
      rfl

/-- Neither a quote nor a hash is a letter, -/
@[simp] theorem isMark_toUpper (c : UInt8) : isMark (Lowering.toUpper c) = isMark c := by
  unfold Lowering.toUpper isMark
  grind

/-- so methods in upper case have the marks they had. -/
@[simp] theorem marks_map_toUpper (m : Bytes) : marks (m.map Lowering.toUpper) = marks m := by
  rw [marks, List.countP_map]
  congr 1
  funext c
  exact isMark_toUpper c

/-- No separator of methods is a mark. -/
theorem sum_marks_splitOnP (raw : Bytes) :
    ((raw.splitOnP AstFactory.isSeparator).map marks).sum = marks raw := by
  induction raw with
  | nil => rfl
  | cons c raw ih =>
    rw [List.splitOnP_cons_eq_if_modifyHead, marks_cons, ← ih]
    split
    · rename_i hc
      have hmark : marks [c] = 0 := by
        simp only [AstFactory.isSeparator, Bool.or_eq_true, beq_iff_eq] at hc
        rcases hc with (rfl | rfl) | rfl <;> rfl
      rw [hmark]
      simp
    · cases hs : raw.splitOnP AstFactory.isSeparator with
      | nil => exact absurd hs (List.splitOnP_ne_nil _ _)
      | cons first more =>
        rw [List.modifyHead_cons, List.map_cons, List.sum_cons, marks_cons, Nat.add_assoc]
        rfl

/-- **Methods have no more marks than the text they are read from.** -/
theorem marks_parseMethods (raw : Bytes) :
    marks (AstFactory.joinMethods (AstFactory.parseMethods raw)) ≤ marks raw := by
  rw [marks_joinMethods, ← sum_marks_splitOnP raw, AstFactory.parseMethods, List.map_map,
    show marks ∘ (·.map Lowering.toUpper) = marks from funext marks_map_toUpper]
  exact (List.filter_sublist.map marks).sum_le_sum fun _ _ => Nat.zero_le _

section
variable {d d' : Diagnostics}

/-- Of fewer tokens there are fewer marks. -/
theorem marksOf_sublist {ts us : List Token} (h : ts.Sublist us) : marksOf ts ≤ marksOf us :=
  (h.map tokenMarks).sum_le_sum fun _ _ => Nat.zero_le _

/-- **An attribute adds no more marks than its value has.** -/
theorem marks_applyElementAttr {er er' : ElementRule} {attr : AttributeContext}
    (h : applyElementAttr (er, d) attr = some (er', d')) :
    elementMarks er' ≤ elementMarks er + marksOf attr.value := by
  -- Whatever an attribute is kept as, it has no more marks than it was read from.
  have hvalue := marks_readValue attr.value
  cases applyElementAttr_written h with
  | matchValue v hv =>
    simp only [elementMarks, Value.raw_parse hv]
    omega
  | newValue v hv =>
    simp only [elementMarks, Value.raw_parse hv]
    omega
  | _ =>
    simp only [elementMarks]
    omega

/-- The same for a header-rule, whose methods are split and joined again. -/
theorem marks_applyHeaderAttr {hr hr' : HeaderRule} {attr : AttributeContext}
    (h : applyHeaderAttr (hr, d) attr = some (hr', d')) :
    headerMarks hr' ≤ headerMarks hr + marksOf attr.value := by
  have hvalue := marks_readValue attr.value
  cases applyHeaderAttr_written h with
  | methods =>
    have hmethods := marks_parseMethods (readValue attr.value).raw
    simp only [headerMarks]
    omega
  | matchValue v hv =>
    simp only [headerMarks, Value.raw_parse hv]
    omega
  | newValue v hv =>
    simp only [headerMarks, Value.raw_parse hv]
    omega
  | _ =>
    simp only [headerMarks]
    omega

/-- The same for a ruleset. -/
theorem marks_applyRulesetAttr (rs : SourceRuleset) (attr : AttributeContext) :
    rulesetMarks (applyRulesetAttr (rs, d) attr).1 ≤ rulesetMarks rs + marksOf attr.value := by
  have hvalue := marks_readValue attr.value
  unfold applyRulesetAttr
  dsimp only
  split <;> simp only [rulesetMarks] <;> omega

/-- **What is built step by step is no larger than its parts**, if no step adds more than its
part. -/
theorem foldlM_size_le {α β : Type} {f : β → α → Option β} {s : β → Nat} {cost : α → Nat}
    (hf : ∀ a b b', f b a = some b' → s b' ≤ s b + cost a) {l : List α} {b b' : β}
    (h : l.foldlM f b = some b') : s b' ≤ s b + (l.map cost).sum := by
  induction l generalizing b with
  | nil =>
    cases h
    exact le_rfl
  | cons a l ih =>
    rw [List.foldlM_cons] at h
    obtain ⟨b₁, hb₁, hrest⟩ := Option.bind_eq_some_iff.mp h
    have hfirst := hf a b b₁ hb₁
    have hmore := ih hrest
    rw [List.map_cons, List.sum_cons]
    omega

/-- The marks of tokens that come piece by piece. -/
theorem marksOf_flatMap {α : Type} (f : α → List Token) (l : List α) :
    marksOf (l.flatMap f) = (l.map fun a => marksOf (f a)).sum := by
  induction l with
  | nil => rfl
  | cons a l ih => rw [List.flatMap_cons, marksOf_append, ih, List.map_cons, List.sum_cons]

/-- An element-rule has no more marks than its values. -/
theorem marks_buildElementRule {ctx : ElementRuleContext} {er : ElementRule}
    (h : buildElementRule ctx d = some (er, d')) : elementMarks er ≤ marksOf ctx.atoms := by
  have hattrs := foldlM_size_le (s := fun q : ElementRule × Diagnostics => elementMarks q.1)
    (fun attr q q' happly => marks_applyElementAttr happly) h
  have hname := marks_readValue ctx.value
  have hzero : elementMarks { name := (readValue ctx.value).raw }
      = marks (readValue ctx.value).raw := rfl
  rw [ElementRuleContext.atoms, marksOf_append, attributeAtoms, marksOf_flatMap]
  simp only [hzero] at hattrs
  omega

/-- **An item adds no more marks than it has.** -/
theorem marks_buildHeaderRuleItem {item : HeaderRuleItem} {q q' : HeaderRule × Diagnostics}
    (h : buildHeaderRuleItem q item = some q') :
    headerMarks q'.1 ≤ headerMarks q.1 + marksOf item.atoms := by
  cases item with
  | elementRule ctx =>
    obtain ⟨⟨er, d₁⟩, her, hsome⟩ := Option.bind_eq_some_iff.mp h
    cases hsome
    have helement := marks_buildElementRule her
    have hsum : headerMarks { q.1 with elementRules := q.1.elementRules ++ [er] }
        = headerMarks q.1 + elementMarks er := by
      simp [headerMarks, Nat.add_assoc]
    rw [hsum, HeaderRuleItem.atoms]
    omega
  | attr ctx => exact marks_applyHeaderAttr h

/-- Nor has a header-rule. -/
theorem marks_buildHeaderRule {ctx : HeaderRuleContext} {hr : HeaderRule}
    (h : buildHeaderRule ctx d = some (hr, d')) : headerMarks hr ≤ marksOf ctx.atoms := by
  have hitems := foldlM_size_le (s := fun q : HeaderRule × Diagnostics => headerMarks q.1)
    (fun item q q' hitem => marks_buildHeaderRuleItem hitem) h
  have hname := marks_readValue ctx.value
  have hzero : headerMarks { name := (readValue ctx.value).raw }
      = marks (readValue ctx.value).raw := rfl
  rw [HeaderRuleContext.atoms, marksOf_append, marksOf_flatMap]
  simp only [hzero] at hitems
  omega

/-- Nor does an item of a manipulation add more. A rule that is skipped adds none. -/
theorem marks_buildManipItem {item : ManipItem} {q q' : SourceRuleset × Diagnostics}
    (h : buildManipItem q item = some q') :
    rulesetMarks q'.1 ≤ rulesetMarks q.1 + marksOf item.atoms := by
  cases item with
  | headerRule ctx =>
    obtain ⟨⟨hr, d₁⟩, hhr, hsome⟩ := Option.bind_eq_some_iff.mp h
    cases hsome
    have hheader := marks_buildHeaderRule hhr
    have hsum : rulesetMarks { q.1 with headerRules := q.1.headerRules ++ [hr] }
        = rulesetMarks q.1 + headerMarks hr := by
      simp [rulesetMarks, Nat.add_assoc]
    rw [hsum, ManipItem.atoms]
    omega
  | mimeRule start =>
    cases h
    exact Nat.le_add_right _ _
  | attr ctx =>
    cases h
    exact marks_applyRulesetAttr q.1 ctx

/-- **A ruleset has no more marks than its source.** -/
theorem marks_buildRuleset {ctx : ManipulationContext} {rs : SourceRuleset}
    (h : buildRuleset ctx d = some (rs, d')) : rulesetMarks rs ≤ marksOf ctx.atoms := by
  have hitems := foldlM_size_le (s := fun q : SourceRuleset × Diagnostics => rulesetMarks q.1)
    (fun item q q' hitem => marks_buildManipItem hitem) h
  have hname := marks_readValue ctx.value
  have hzero : rulesetMarks { name := (readValue ctx.value).raw }
      = marks (readValue ctx.value).raw := rfl
  rw [ManipulationContext.atoms, marksOf_append, marksOf_flatMap]
  simp only [hzero] at hitems
  omega

end

end Parser

end Hmr
