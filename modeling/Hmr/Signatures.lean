import Hmr.Optimizer
import Mathlib.Data.List.Forall2

/-!
# What a signature tells

Deduplication drops a rule whose signature an earlier one has. The signature is the text of
some fields, one behind the other with separators between them, and there are two ways in
which rules that differ come to have the same.

Some fields are not in it: the names, the match-val-type of an element rule, and how a
value has been read – a quoted `!x` is the text `!x`, an unquoted one is anything but `x`.
And a text that holds a separator can be cut elsewhere: `x|y` and `z` give what `x` and
`y|z` do.

## Which rules have one signature

The keywords of a signature hold no separator, so they are read back whatever stands behind
them. What is left are the texts a user writes, and these are told only as they run together
(`ElementRule.SameText`, `HeaderRule.SameText`): the methods with a comma behind each, the
two values, and the element rules. The header name stands in front of all keywords, and it
may go on with a `#` and keywords of its own; then one header name reads as the other one
with its keywords and the beginning of what is behind them (`HeaderRule.ReadsOn`).

For two rules with one signature there are then two things to ask: whether their texts are
cut alike (`CutAlike`), and whether they agree in what is left out (`LeftOut`). Together that
is that they agree (`HeaderRule.agree_iff`). Where no text can be cut elsewhere, rules with
one signature are written alike throughout (`HeaderRule.sameText_iff_written`), so only the
second question remains.
-/

/-! ## Separated texts -/

namespace Delimited

variable {α : Type} {x y s t : List α} {c d : α}

/-- **Cut at the first separator**, a text is cut in one way. -/
theorem append_cons_inj (hx : c ∉ x) (hy : c ∉ y) (h : x ++ c :: s = y ++ c :: t) :
    x = y ∧ s = t := by
  induction x generalizing y with
  | nil =>
    cases y with
    | nil => exact ⟨rfl, (List.cons.inj h).2⟩
    | cons b y => exact absurd ((List.cons.inj h).1 ▸ List.mem_cons_self) hy
  | cons a x ih =>
    cases y with
    | nil => exact absurd ((List.cons.inj h).1 ▸ List.mem_cons_self) hx
    | cons b y =>
      obtain ⟨rfl, htail⟩ := List.cons.inj h
      obtain ⟨rfl, hst⟩ := ih (fun hc => hx (List.mem_cons_of_mem _ hc))
        (fun hc => hy (List.mem_cons_of_mem _ hc)) htail
      exact ⟨rfl, hst⟩

/-- Behind a text without `c`, `c` comes later. -/
theorem exists_append_of_cut {u : List α} (hx : c ∉ x) (h : x ++ s = u ++ c :: t) :
    ∃ w, u = x ++ w ∧ s = w ++ c :: t := by
  obtain ⟨w, hu, hs⟩ | ⟨w, hxw, hw⟩ := List.append_eq_append_iff.mp h
  · exact ⟨w, hu, hs⟩
  · cases w with
    | nil => exact ⟨[], by rw [hxw, List.append_nil, List.append_nil], hw.symm⟩
    | cons b w =>
      obtain ⟨rfl, -⟩ := List.cons.inj hw
      exact absurd (hxw ▸ List.mem_append_right _ List.mem_cons_self) hx

/-- Two texts, each without the separator behind the other, are not cut at once. -/
theorem append_cons_ne (hx : d ∉ x) (hy : c ∉ y) (hcd : c ≠ d) : x ++ c :: s ≠ y ++ d :: t := by
  intro h
  obtain ⟨w, rfl, hs⟩ := exists_append_of_cut hx h
  cases w with
  | nil => exact hcd (List.cons.inj hs).1
  | cons b w =>
    obtain ⟨rfl, -⟩ := List.cons.inj hs
    exact hy (List.mem_append_right _ List.mem_cons_self)

/-- A list of texts, a terminator behind each, ends where another separator is. -/
theorem flatMap_inj {l m : List (List α)} (hcd : c ≠ d)
    (hl : ∀ x ∈ l, c ∉ x ∧ x.head? ≠ some d) (hm : ∀ x ∈ m, c ∉ x ∧ x.head? ≠ some d)
    (h : l.flatMap (· ++ [c]) ++ d :: s = m.flatMap (· ++ [c]) ++ d :: t) :
    l = m ∧ s = t := by
  -- The other separator cannot be the beginning of an item.
  have hfirst : ∀ {x : List α} {r u : List α}, x.head? ≠ some d → d :: r ≠ x ++ c :: u := by
    intro x r u hx heq
    cases x with
    | nil => exact hcd (List.cons.inj heq).1.symm
    | cons b x => exact hx (congrArg some (List.cons.inj heq).1.symm)
  -- From the front on, the lists agree item by item, and end together.
  induction l generalizing m with
  | nil =>
    cases m with
    | nil => exact ⟨rfl, (List.cons.inj h).2⟩
    | cons y m =>
      refine absurd ?_ (hfirst (r := s) (u := m.flatMap (· ++ [c]) ++ d :: t)
        (hm y List.mem_cons_self).2)
      simpa using h
  | cons x l ih =>
    cases m with
    | nil =>
      refine absurd ?_ (hfirst (r := t) (u := l.flatMap (· ++ [c]) ++ d :: s)
        (hl x List.mem_cons_self).2)
      simpa using h.symm
    | cons y m =>
      obtain ⟨rfl, htail⟩ := append_cons_inj (s := l.flatMap (· ++ [c]) ++ d :: s)
        (t := m.flatMap (· ++ [c]) ++ d :: t) (hl x List.mem_cons_self).1
        (hm y List.mem_cons_self).1 (by simpa using h)
      obtain ⟨rfl, hst⟩ := ih (fun z hz => hl z (List.mem_cons_of_mem _ hz))
        (fun z hz => hm z (List.mem_cons_of_mem _ hz)) htail
      exact ⟨rfl, hst⟩

end Delimited

namespace Hmr

/-! ## Keywords -/

section
open AstFactory

/-- Actions have keywords of their own. -/
theorem HeaderAction.toString_inj {a b : HeaderAction} (h : a.toString = b.toString) : a = b :=
  Option.some.inj (by rw [← headerAction_toString a, h, headerAction_toString])

/-- So have the actions of element rules, -/
theorem ElementAction.toString_inj {a b : ElementAction} (h : a.toString = b.toString) : a = b :=
  Option.some.inj (by rw [← elementAction_toString a, h, elementAction_toString])

/-- comparisons, -/
theorem ComparisonType.toString_inj {a b : ComparisonType} (h : a.toString = b.toString) :
    a = b :=
  Option.some.inj (by rw [← comparison_toString a, h, comparison_toString])

/-- message types, -/
theorem MsgType.toString_inj {a b : MsgType} (h : a.toString = b.toString) : a = b :=
  Option.some.inj (by rw [← msgType_toString a, h, msgType_toString])

/-- and elements. -/
theorem ElementType.toString_inj {a b : ElementType} (h : a.toString = b.toString) : a = b := by
  by_cases ha : a = .none
  · by_contra hab
    have hb := elementType_toString (t := b) fun hb => hab (ha.trans hb.symm)
    rw [← h, ha, elementType_none] at hb
    cases hb
  · have ha' := elementType_toString ha
    by_cases hb : b = .none
    · rw [h, hb, elementType_none] at ha'
      cases ha'
    · rw [h, elementType_toString hb] at ha'
      exact (Option.some.inj ha').symm

end

/-- No keyword of an action has a separator in it. -/
theorem HeaderAction.notMem_toString (a : HeaderAction) :
    124 ∉ a.toString ∧ 35 ∉ a.toString := by
  cases a <;> decide

/-- Nor has one of an element action, -/
theorem ElementAction.notMem_toString (a : ElementAction) : 124 ∉ a.toString := by
  cases a <;> decide

/-- of a comparison, -/
theorem ComparisonType.notMem_toString (a : ComparisonType) :
    124 ∉ a.toString ∧ 35 ∉ a.toString := by
  cases a <;> decide

/-- of a message type, -/
theorem MsgType.notMem_toString (a : MsgType) : 124 ∉ a.toString ∧ 35 ∉ a.toString := by
  cases a <;> decide

/-- or of an element. -/
theorem ElementType.notMem_toString (a : ElementType) :
    124 ∉ a.toString ∧ 59 ∉ a.toString := by
  cases a <;> decide

/-! ## What is written, and what is left out -/

namespace ElementRule

/-- The name is looked at: a slot is named after it, or it is what a reject says. -/
def nameShows (er : ElementRule) : Bool :=
  (Lowering.uriElement er.type).isSome
    && (er.action == .store || er.action == .reject && er.newValue.isEmpty)

/-- **The rules agree** in all that a back-end looks at, in a header rule that `runs` its
element rules. -/
structure Agree (runs : Bool) (a b : ElementRule) : Prop where
  type : a.type = b.type
  action : a.action = b.action
  comparison : a.comparison = b.comparison
  matchValType : a.matchValType = b.matchValType
  matchValue : a.matchValue = b.matchValue
  newValue : a.newValue = b.newValue
  name : runs = true → a.nameShows = true → a.name = b.name

/-- **The rules read alike**: their keywords are the same, and the texts behind them run
together to the same. -/
structure SameText (a b : ElementRule) : Prop where
  type : a.type = b.type
  action : a.action = b.action
  comparison : a.comparison = b.comparison
  texts : a.matchValue.raw ++ 124 :: (a.newValue.raw ++ 124 :: a.parameterName)
    = b.matchValue.raw ++ 124 :: (b.newValue.raw ++ 124 :: b.parameterName)

/-- The texts that a back-end looks at are cut alike. -/
structure CutAlike (a b : ElementRule) : Prop where
  type : a.type = b.type
  action : a.action = b.action
  comparison : a.comparison = b.comparison
  matchValue : a.matchValue.raw = b.matchValue.raw
  newValue : a.newValue.raw = b.newValue.raw

/-- The rules are written alike. -/
structure Written (a b : ElementRule) : Prop extends CutAlike a b where
  parameterName : a.parameterName = b.parameterName

/-- The rules agree in what is not written: how their values have been read, the
match-val-type and the name, where it is looked at. -/
structure LeftOut (runs : Bool) (a b : ElementRule) : Prop where
  matchValType : a.matchValType = b.matchValType
  matchValue : a.matchValue = b.matchValue
  newValue : a.newValue = b.newValue
  name : runs = true → a.nameShows = true → a.name = b.name

/-- The signatures of a list, a `;` behind each. -/
def sigs (l : List ElementRule) : Bytes := l.flatMap fun er => er.sig ++ txt ";"

/-- The values hold no separator. -/
def Plain (er : ElementRule) : Prop := 124 ∉ er.matchValue.raw ∧ 124 ∉ er.newValue.raw

end ElementRule

namespace HeaderRule

/-- The element rules are run: all but a reject goes on to them. -/
def runsElements (hr : HeaderRule) : Bool := hr.action != .reject

/-- The name is looked at: a slot is named after it – its own, or the one of an element
rule that has no name – or it is what a log or a reject says. -/
def nameShows (hr : HeaderRule) : Bool :=
  hr.action == .store || (hr.action == .log || hr.action == .reject) && hr.newValue.isEmpty
    || hr.runsElements && hr.elementRules.any fun er =>
      (Lowering.uriElement er.type).isSome && er.action == .store && er.name.isEmpty

/-- **The rules agree** in all that a back-end looks at. -/
structure Agree (a b : HeaderRule) : Prop where
  headerName : AstFactory.lower a.headerName = AstFactory.lower b.headerName
  action : a.action = b.action
  comparison : a.comparison = b.comparison
  msgType : a.msgType = b.msgType
  methods : a.methods = b.methods
  matchValue : a.matchValue = b.matchValue
  newValue : a.newValue = b.newValue
  name : a.nameShows = true → a.name = b.name
  elementRules : List.Forall₂ (ElementRule.Agree a.runsElements) a.elementRules b.elementRules

/-- The texts that a back-end looks at are cut alike. -/
structure CutAlike (a b : HeaderRule) : Prop where
  headerName : AstFactory.lower a.headerName = AstFactory.lower b.headerName
  action : a.action = b.action
  comparison : a.comparison = b.comparison
  msgType : a.msgType = b.msgType
  methods : a.methods = b.methods
  matchValue : a.matchValue.raw = b.matchValue.raw
  newValue : a.newValue.raw = b.newValue.raw
  elementRules : List.Forall₂ ElementRule.CutAlike a.elementRules b.elementRules

/-- The rules are written alike. -/
structure Written (a b : HeaderRule) : Prop extends CutAlike a b where
  parameterNames : List.Forall₂ (fun x y : ElementRule => x.parameterName = y.parameterName)
    a.elementRules b.elementRules

/-- The rules agree in what is not written. -/
structure LeftOut (a b : HeaderRule) : Prop where
  matchValue : a.matchValue = b.matchValue
  newValue : a.newValue = b.newValue
  name : a.nameShows = true → a.name = b.name
  elementRules : List.Forall₂ (ElementRule.LeftOut a.runsElements) a.elementRules b.elementRules

/-- What stands between the header name and the methods, behind the `#`. -/
def heading (action : HeaderAction) (comparison : ComparisonType) (msgType : MsgType) : Bytes :=
  action.toString ++ 124 :: (comparison.toString ++ 124 :: (msgType.toString ++ [124]))

/-- What is behind the heading: the methods, the values and the element rules. -/
def body (hr : HeaderRule) : Bytes :=
  hr.methods.flatMap (· ++ [44]) ++ 124 :: (hr.matchValue.raw ++ 124 :: (hr.newValue.raw
    ++ 124 :: ElementRule.sigs hr.elementRules))

/-- **The header name of `b` goes on** with what is behind that of `a`: a heading, and the
beginning `w` of what is behind the heading, where `a` has a `#` and the rest of `b`. -/
def ReadsOn (a b : HeaderRule) : Prop :=
  ∃ w, AstFactory.lower b.headerName
      = AstFactory.lower a.headerName ++ 35 :: (heading a.action a.comparison a.msgType ++ w)
    ∧ a.body = w ++ 35 :: (heading b.action b.comparison b.msgType ++ b.body)

/-- **The rules read alike**: their header names and keywords are the same, and the texts
behind them run together to the same; or the header name of one goes on. -/
def SameText (a b : HeaderRule) : Prop :=
  (AstFactory.lower a.headerName = AstFactory.lower b.headerName ∧ a.action = b.action
      ∧ a.comparison = b.comparison ∧ a.msgType = b.msgType ∧ a.body = b.body)
    ∨ a.ReadsOn b ∨ b.ReadsOn a

/-- **The texts hold no separator** where it could be taken for one. -/
structure PlainTexts (hr : HeaderRule) : Prop where
  methods : ∀ m ∈ hr.methods, 44 ∉ m ∧ m.head? ≠ some 124
  matchValue : 124 ∉ hr.matchValue.raw
  newValue : 124 ∉ hr.newValue.raw
  elementRules : ∀ er ∈ hr.elementRules, er.Plain ∧ 124 ∉ er.parameterName

/-- **No text can be cut elsewhere**: neither is there a separator in one, nor does the
header name hold what stands behind a header name. -/
structure Plain (hr : HeaderRule) : Prop extends PlainTexts hr where
  headerName : ∀ n a c m r, AstFactory.lower hr.headerName ≠ n ++ 35 :: (heading a c m ++ r)

end HeaderRule

/-! ## Reading a signature -/

namespace ElementRule

variable {a b : ElementRule}

theorem sig_eq (er : ElementRule) :
    er.sig = er.type.toString ++ 124 :: (er.action.toString ++ 124 :: (er.comparison.toString
      ++ 124 :: (er.matchValue.raw ++ 124 :: (er.newValue.raw ++ 124 :: er.parameterName)))) := by
  have hbar : bar = [124] := rfl
  simp [sig, hbar]

/-- **The keywords are read back**, whatever follows. -/
theorem read_keywords {s t : Bytes} (h : a.sig ++ s = b.sig ++ t) :
    a.type = b.type ∧ a.action = b.action ∧ a.comparison = b.comparison
      ∧ a.matchValue.raw ++ 124 :: (a.newValue.raw ++ 124 :: (a.parameterName ++ s))
        = b.matchValue.raw ++ 124 :: (b.newValue.raw ++ 124 :: (b.parameterName ++ t)) := by
  simp only [sig_eq, List.append_assoc, List.cons_append] at h
  obtain ⟨htype, h⟩ := Delimited.append_cons_inj a.type.notMem_toString.1
    b.type.notMem_toString.1 h
  obtain ⟨haction, h⟩ := Delimited.append_cons_inj a.action.notMem_toString
    b.action.notMem_toString h
  obtain ⟨hcomparison, h⟩ := Delimited.append_cons_inj a.comparison.notMem_toString.1
    b.comparison.notMem_toString.1 h
  exact ⟨ElementType.toString_inj htype, ElementAction.toString_inj haction,
    ComparisonType.toString_inj hcomparison, h⟩

/-- **What is in front of the parameter name** is read back, too, if the values are plain. -/
theorem read_sig (ha : a.Plain) (hb : b.Plain) {s t : Bytes} (h : a.sig ++ s = b.sig ++ t) :
    a.CutAlike b ∧ a.parameterName ++ s = b.parameterName ++ t := by
  obtain ⟨htype, haction, hcomparison, h⟩ := read_keywords h
  obtain ⟨hmatch, h⟩ := Delimited.append_cons_inj ha.1 hb.1 h
  obtain ⟨hnew, h⟩ := Delimited.append_cons_inj ha.2 hb.2 h
  exact ⟨⟨htype, haction, hcomparison, hmatch, hnew⟩, h⟩

/-- **Which element rules have one signature.** -/
theorem sig_eq_iff : a.sig = b.sig ↔ a.SameText b := by
  constructor
  · intro h
    obtain ⟨htype, haction, hcomparison, htexts⟩ := read_keywords (congrArg (· ++ []) h)
    simp only [List.append_nil] at htexts
    exact ⟨htype, haction, hcomparison, htexts⟩
  · intro h
    rw [sig_eq, sig_eq, h.type, h.action, h.comparison, h.texts]

theorem Written.sameText (h : a.Written b) : a.SameText b :=
  ⟨h.type, h.action, h.comparison, by rw [h.matchValue, h.newValue, h.parameterName]⟩

/-- **Plain rules that read alike are written alike.** -/
theorem sameText_iff_written (ha : a.Plain) (hb : b.Plain) : a.SameText b ↔ a.Written b := by
  refine ⟨fun h => ?_, Written.sameText⟩
  obtain ⟨hcut, hname⟩ := read_sig ha hb (congrArg (· ++ []) (sig_eq_iff.mpr h))
  rw [List.append_nil, List.append_nil] at hname
  exact ⟨hcut, hname⟩

/-- **To agree is to be cut alike** and to agree in what is left out. -/
theorem agree_iff {runs : Bool} : a.Agree runs b ↔ a.CutAlike b ∧ a.LeftOut runs b := by
  constructor
  · intro h
    exact ⟨⟨h.type, h.action, h.comparison, congrArg Value.raw h.matchValue,
      congrArg Value.raw h.newValue⟩, ⟨h.matchValType, h.matchValue, h.newValue, h.name⟩⟩
  · rintro ⟨h, hl⟩
    exact ⟨h.type, h.action, h.comparison, hl.matchValType, hl.matchValue, hl.newValue, hl.name⟩

theorem sigs_cons (er : ElementRule) (l : List ElementRule) :
    sigs (er :: l) = er.sig ++ 59 :: sigs l := by
  have hsemi : txt ";" = [59] := rfl
  simp [sigs, hsemi]

/-- Signatures do not start in the middle of a parameter name. -/
theorem sigs_ne {v r : Bytes} (hv : 124 ∉ v) (l : List ElementRule) :
    sigs l ≠ v ++ 59 :: r := by
  intro h
  cases l with
  | nil => exact absurd h (List.append_ne_nil_of_right_ne_nil v (List.cons_ne_nil _ _)).symm
  | cons e l =>
    rw [sigs_cons, sig_eq, List.append_assoc] at h
    exact Delimited.append_cons_ne e.type.notMem_toString.2 hv (by decide) h

/-- **A parameter name ends** at the `;` that signatures follow, or nothing. -/
theorem parameterName_inj {p q : Bytes} {l m : List ElementRule} (hp : 124 ∉ p) (hq : 124 ∉ q)
    (h : p ++ 59 :: sigs l = q ++ 59 :: sigs m) : p = q ∧ sigs l = sigs m := by
  obtain ⟨w, hw, h⟩ | ⟨w, hw, h⟩ := List.append_eq_append_iff.mp h
  · cases w with
    | nil => exact ⟨by rw [hw, List.append_nil], (List.cons.inj h).2⟩
    | cons c v =>
      refine absurd (List.cons.inj h).2 (sigs_ne (fun hv => hq ?_) l)
      rw [hw]
      exact List.mem_append_right _ (List.mem_cons_of_mem _ hv)
  · cases w with
    | nil => exact ⟨by rw [hw, List.append_nil], (List.cons.inj h).2.symm⟩
    | cons c v =>
      refine absurd (List.cons.inj h).2 (sigs_ne (fun hv => hp ?_) m)
      rw [hw]
      exact List.mem_append_right _ (List.mem_cons_of_mem _ hv)

/-- **A list of element rules** is read back from its signatures. -/
theorem written_of_sigs {l m : List ElementRule}
    (hl : ∀ er ∈ l, er.Plain ∧ 124 ∉ er.parameterName)
    (hm : ∀ er ∈ m, er.Plain ∧ 124 ∉ er.parameterName) (h : sigs l = sigs m) :
    List.Forall₂ Written l m := by
  induction l generalizing m with
  | nil =>
    cases m with
    | nil => exact .nil
    | cons b m =>
      rw [sigs_cons] at h
      exact absurd h.symm (List.append_ne_nil_of_right_ne_nil _ (List.cons_ne_nil _ _))
  | cons a l ih =>
    cases m with
    | nil =>
      rw [sigs_cons] at h
      exact absurd h (List.append_ne_nil_of_right_ne_nil _ (List.cons_ne_nil _ _))
    | cons b m =>
      obtain ⟨hpa, hna⟩ := hl a List.mem_cons_self
      obtain ⟨hpb, hnb⟩ := hm b List.mem_cons_self
      rw [sigs_cons, sigs_cons] at h
      obtain ⟨hcut, h⟩ := read_sig hpa hpb h
      obtain ⟨hname, h⟩ := parameterName_inj hna hnb h
      exact .cons ⟨hcut, hname⟩ (ih (fun e he => hl e (List.mem_cons_of_mem _ he))
        (fun e he => hm e (List.mem_cons_of_mem _ he)) h)

theorem sigs_eq {l m : List ElementRule} (h : List.Forall₂ CutAlike l m)
    (hnames : List.Forall₂ (fun x y : ElementRule => x.parameterName = y.parameterName) l m) :
    sigs l = sigs m := by
  induction h with
  | nil => rfl
  | cons he _ ih =>
    cases hnames with
    | cons hname hnames =>
      rw [sigs_cons, sigs_cons, sig_eq_iff.mpr (Written.sameText ⟨he, hname⟩), ih hnames]

theorem agree_iff_forall₂ {runs : Bool} {l m : List ElementRule} :
    List.Forall₂ (Agree runs) l m
      ↔ List.Forall₂ CutAlike l m ∧ List.Forall₂ (LeftOut runs) l m := by
  constructor
  · exact fun h => ⟨h.imp fun _ _ h => (agree_iff.mp h).1, h.imp fun _ _ h => (agree_iff.mp h).2⟩
  · rintro ⟨h, hl⟩
    induction h with
    | nil => exact .nil
    | cons he _ ih =>
      cases hl with
      | cons hle hl => exact .cons (agree_iff.mpr ⟨he, hle⟩) (ih hl)

end ElementRule

namespace HeaderRule

variable {a b : HeaderRule}

theorem sig_eq (hr : HeaderRule) :
    hr.sig = AstFactory.lower hr.headerName
      ++ 35 :: (heading hr.action hr.comparison hr.msgType ++ hr.body) := by
  have hbar : bar = [124] := rfl
  have hhash : txt "#" = [35] := rfl
  have hcomma : txt "," = [44] := rfl
  simp [sig, heading, body, ElementRule.sigs, hbar, hhash, hcomma]

theorem hash_notMem_heading (a : HeaderAction) (c : ComparisonType) (m : MsgType) :
    35 ∉ heading a c m := by
  simp [heading, a.notMem_toString.2, c.notMem_toString.2, m.notMem_toString.2]

/-- **The keywords are read back.** -/
theorem heading_inj {x x' : HeaderAction} {c c' : ComparisonType} {m m' : MsgType} {r r' : Bytes}
    (h : heading x c m ++ r = heading x' c' m' ++ r') :
    x = x' ∧ c = c' ∧ m = m' ∧ r = r' := by
  simp only [heading, List.append_assoc, List.cons_append, List.nil_append] at h
  obtain ⟨haction, h⟩ := Delimited.append_cons_inj x.notMem_toString.1 x'.notMem_toString.1 h
  obtain ⟨hcomparison, h⟩ := Delimited.append_cons_inj c.notMem_toString.1
    c'.notMem_toString.1 h
  obtain ⟨hmsg, h⟩ := Delimited.append_cons_inj m.notMem_toString.1 m'.notMem_toString.1 h
  exact ⟨HeaderAction.toString_inj haction, ComparisonType.toString_inj hcomparison,
    MsgType.toString_inj hmsg, h⟩

/-- A header name that is longer goes on behind the other one. -/
theorem readsOn_of_append {v : Bytes}
    (hname : AstFactory.lower b.headerName = AstFactory.lower a.headerName ++ 35 :: v)
    (h : heading a.action a.comparison a.msgType ++ a.body
      = v ++ 35 :: (heading b.action b.comparison b.msgType ++ b.body)) : a.ReadsOn b := by
  obtain ⟨w, rfl, hbody⟩ := Delimited.exists_append_of_cut (hash_notMem_heading _ _ _) h
  exact ⟨w, hname, hbody⟩

theorem ReadsOn.sig_eq (h : a.ReadsOn b) : a.sig = b.sig := by
  obtain ⟨w, hname, hbody⟩ := h
  rw [HeaderRule.sig_eq, HeaderRule.sig_eq, hname, hbody]
  simp only [List.append_assoc, List.cons_append]

/-- **Which header rules have one signature.** -/
theorem sig_eq_iff : a.sig = b.sig ↔ a.SameText b := by
  constructor
  · intro h
    rw [sig_eq, sig_eq] at h
    -- one of the header names ends where the other one does, or before that
    obtain ⟨w, hw, h⟩ | ⟨w, hw, h⟩ := List.append_eq_append_iff.mp h
    · cases w with
      | nil =>
        obtain ⟨haction, hcomparison, hmsg, hbody⟩ := heading_inj (List.cons.inj h).2
        exact Or.inl ⟨by rw [hw, List.append_nil], haction, hcomparison, hmsg, hbody⟩
      | cons d v =>
        obtain ⟨rfl, hv⟩ := List.cons.inj h
        exact Or.inr (Or.inl (readsOn_of_append hw hv))
    · cases w with
      | nil =>
        obtain ⟨haction, hcomparison, hmsg, hbody⟩ := heading_inj (List.cons.inj h).2.symm
        exact Or.inl ⟨by rw [hw, List.append_nil], haction, hcomparison, hmsg, hbody⟩
      | cons d v =>
        obtain ⟨rfl, hv⟩ := List.cons.inj h
        exact Or.inr (Or.inr (readsOn_of_append hw hv))
  · rintro (⟨hname, haction, hcomparison, hmsg, hbody⟩ | h | h)
    · rw [sig_eq, sig_eq, hname, haction, hcomparison, hmsg, hbody]
    · exact h.sig_eq
    · exact h.sig_eq.symm

theorem Written.sameText (h : a.Written b) : a.SameText b := by
  refine Or.inl ⟨h.headerName, h.action, h.comparison, h.msgType, ?_⟩
  rw [body, body, h.methods, h.matchValue, h.newValue,
    ElementRule.sigs_eq h.elementRules h.parameterNames]

/-- **Plain rules that read alike are written alike.** -/
theorem sameText_iff_written (ha : a.Plain) (hb : b.Plain) : a.SameText b ↔ a.Written b := by
  refine ⟨?_, Written.sameText⟩
  rintro (⟨hname, haction, hcomparison, hmsg, h⟩ | ⟨w, hw, -⟩ | ⟨w, hw, -⟩)
  · obtain ⟨hmethods, h⟩ := Delimited.flatMap_inj (by decide) ha.methods hb.methods h
    obtain ⟨hmatch, h⟩ := Delimited.append_cons_inj ha.matchValue hb.matchValue h
    obtain ⟨hnew, h⟩ := Delimited.append_cons_inj ha.newValue hb.newValue h
    have helements := ElementRule.written_of_sigs ha.elementRules hb.elementRules h
    exact ⟨⟨hname, haction, hcomparison, hmsg, hmethods, hmatch, hnew,
      helements.imp fun _ _ h => h.toCutAlike⟩, helements.imp fun _ _ h => h.parameterName⟩
  · exact absurd hw (hb.headerName _ _ _ _ _)
  · exact absurd hw (ha.headerName _ _ _ _ _)

/-- **To agree is to be cut alike** and to agree in what is left out. -/
theorem agree_iff : a.Agree b ↔ a.CutAlike b ∧ a.LeftOut b := by
  constructor
  · intro h
    obtain ⟨hcut, hleft⟩ := ElementRule.agree_iff_forall₂.mp h.elementRules
    exact ⟨⟨h.headerName, h.action, h.comparison, h.msgType, h.methods,
      congrArg Value.raw h.matchValue, congrArg Value.raw h.newValue, hcut⟩,
      ⟨h.matchValue, h.newValue, h.name, hleft⟩⟩
  · rintro ⟨h, hl⟩
    exact ⟨h.headerName, h.action, h.comparison, h.msgType, h.methods, hl.matchValue, hl.newValue,
      hl.name, ElementRule.agree_iff_forall₂.mpr ⟨h.elementRules, hl.elementRules⟩⟩

end HeaderRule

/-! ## Cut elsewhere -/

theorem ne_append_cons {α : Type} (l m : List α) (x : α) : l ++ x :: m ≠ l := by simp

/-- **An element rule with a bar** in a text has the signature of another one. -/
theorem ElementRule.exists_confused {a : ElementRule}
    (h : ¬ (a.Plain ∧ 124 ∉ a.parameterName)) :
    ∃ b : ElementRule, a.sig = b.sig ∧ a.matchValue.raw ≠ b.matchValue.raw := by
  -- The text behind the first separator of a text is moved into the field behind it.
  by_cases hmatch : 124 ∈ a.matchValue.raw
  · obtain ⟨x, y, hxy⟩ := List.append_of_mem hmatch
    refine ⟨{ a with
      matchValue := .verbatim x
      newValue := .verbatim (y ++ 124 :: a.newValue.raw) }, ?_, ?_⟩
    · simp [sig_eq, hxy, Value.verbatim]
    · rw [hxy]
      exact ne_append_cons x y 124
  · by_cases hnew : 124 ∈ a.newValue.raw
    · obtain ⟨x, y, hxy⟩ := List.append_of_mem hnew
      refine ⟨{ a with
        matchValue := .verbatim (a.matchValue.raw ++ 124 :: x)
        newValue := .verbatim y }, ?_, (ne_append_cons _ x 124).symm⟩
      simp [sig_eq, hxy, Value.verbatim]
    · obtain ⟨x, y, hxy⟩ := List.append_of_mem
        (not_not.mp fun hname => h ⟨⟨hmatch, hnew⟩, hname⟩)
      refine ⟨{ a with
        matchValue := .verbatim (a.matchValue.raw ++ 124 :: a.newValue.raw)
        newValue := .verbatim x
        parameterName := y }, ?_, (ne_append_cons _ _ 124).symm⟩
      simp [sig_eq, hxy, Value.verbatim]

/-- Lists that differ in one place only. -/
theorem of_forall₂_append {α : Type} {R : α → α → Prop} {l m m' : List α} {x y : α}
    (h : List.Forall₂ R (l ++ x :: m) (l ++ y :: m')) : R x y := by
  induction l with
  | nil =>
    cases h with
    | cons hxy _ => exact hxy
  | cons z l ih =>
    cases h with
    | cons _ h => exact ih h

namespace HeaderRule

variable {a : HeaderRule}

/-- A bar in a value moves the border of the two values. -/
theorem exists_confused_of_values (h : 124 ∈ a.matchValue.raw ∨ 124 ∈ a.newValue.raw) :
    ∃ b : HeaderRule, a.sig = b.sig ∧ ¬ a.CutAlike b := by
  rcases h with hmatch | hnew
  · obtain ⟨x, y, hxy⟩ := List.append_of_mem hmatch
    refine ⟨{ a with
      matchValue := .verbatim x
      newValue := .verbatim (y ++ 124 :: a.newValue.raw) }, ?_, fun hcut => ?_⟩
    · simp [sig_eq, body, hxy, Value.verbatim]
    · have hraw : a.matchValue.raw = x := hcut.matchValue
      rw [hxy] at hraw
      exact ne_append_cons x y 124 hraw
  · obtain ⟨x, y, hxy⟩ := List.append_of_mem hnew
    refine ⟨{ a with
      matchValue := .verbatim (a.matchValue.raw ++ 124 :: x)
      newValue := .verbatim y }, ?_, fun hcut => ?_⟩
    · simp [sig_eq, body, hxy, Value.verbatim]
    · exact ne_append_cons _ x 124 hcut.matchValue.symm

/-- So does one in an element rule. -/
theorem exists_confused_of_element {er : ElementRule} (her : er ∈ a.elementRules)
    (h : ¬ (er.Plain ∧ 124 ∉ er.parameterName)) :
    ∃ b : HeaderRule, a.sig = b.sig ∧ ¬ a.CutAlike b := by
  obtain ⟨er', hsig, hraw⟩ := ElementRule.exists_confused h
  obtain ⟨l, l', hl⟩ := List.append_of_mem her
  refine ⟨{ a with elementRules := l ++ er' :: l' }, ?_, fun hcut => ?_⟩
  · simp [sig_eq, body, hl, ElementRule.sigs, hsig]
  · have hrules := hcut.elementRules
    rw [hl] at hrules
    exact hraw (of_forall₂_append hrules).matchValue

/-- A comma makes two methods of one, and a method that starts with a bar ends the
methods. -/
theorem exists_confused_of_method {m : Bytes} (hm : m ∈ a.methods)
    (h : ¬ (44 ∉ m ∧ m.head? ≠ some 124)) :
    ∃ b : HeaderRule, a.sig = b.sig ∧ ¬ a.CutAlike b := by
  obtain ⟨l, l', hl⟩ := List.append_of_mem hm
  by_cases hcomma : 44 ∈ m
  · obtain ⟨x, y, hxy⟩ := List.append_of_mem hcomma
    refine ⟨{ a with methods := l ++ x :: y :: l' }, ?_, fun hcut => ?_⟩
    · simp [sig_eq, body, hl, hxy]
    · have hlen := congrArg List.length hcut.methods
      simp [hl] at hlen
  · obtain ⟨y, rfl⟩ : ∃ y, m = 124 :: y := by
      have hhead : m.head? = some 124 := not_not.mp fun hhead => h ⟨hcomma, hhead⟩
      cases m with
      | nil => cases hhead
      | cons c y => exact ⟨y, by rw [Option.some.inj hhead]⟩
    refine ⟨{ a with
      methods := l
      matchValue := .verbatim (y ++ 44 :: l'.flatMap (· ++ [44]))
      newValue := .verbatim (a.matchValue.raw ++ 124 :: a.newValue.raw) }, ?_,
      fun hcut => ?_⟩
    · simp [sig_eq, body, hl, Value.verbatim]
    · have hlen := congrArg List.length hcut.methods
      simp [hl] at hlen

/-- **A header rule with a separator** in a text has the signature of another one. -/
theorem exists_confused (h : ¬ a.PlainTexts) :
    ∃ b : HeaderRule, a.sig = b.sig ∧ ¬ a.CutAlike b := by
  by_contra hnone
  refine h ⟨fun m hm => ?_, fun hmatch => ?_, fun hnew => ?_, fun er her => ?_⟩
  · exact not_not.mp fun hbad => hnone (exists_confused_of_method hm hbad)
  · exact hnone (exists_confused_of_values (Or.inl hmatch))
  · exact hnone (exists_confused_of_values (Or.inr hnew))
  · exact not_not.mp fun hbad => hnone (exists_confused_of_element her hbad)

end HeaderRule

/-! ## When a signature is faithful -/

/-- A header is deleted. -/
def deleting (name headerName : Bytes) : HeaderRule :=
  { name := name, headerName := headerName, action := .deleteHeader }

theorem plain_deleting {name headerName : Bytes} (h : 35 ∉ AstFactory.lower headerName) :
    (deleting name headerName).Plain := by
  refine ⟨⟨fun _ hm => absurd hm List.not_mem_nil, List.not_mem_nil, List.not_mem_nil,
    fun _ her => absurd her List.not_mem_nil⟩, fun n a c m r heq => h ?_⟩
  have heq : AstFactory.lower headerName = n ++ 35 :: (HeaderRule.heading a c m ++ r) := heq
  rw [heq]
  exact List.mem_append_right _ List.mem_cons_self

-- a bar in a value does no harm to rules that read differently
example : ({ deleting [] (txt "Server") with newValue := .verbatim (txt "x|y") } : HeaderRule).sig
    ≠ ({ deleting [] (txt "Via") with newValue := .verbatim (txt "x|y") } : HeaderRule).sig := by
  decide

/-- A header is stored in a slot. -/
def storeFrom (slot : Bytes) : HeaderRule :=
  { name := slot, headerName := txt "From", action := .store }

end Hmr
