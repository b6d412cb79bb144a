import Hmr.CppEmitter
import Hmr.CppTokens

/-!
# Names in comments

The C++ back-end puts the names of rules into comments, and does not escape them. What
a compiler makes of that depends on the name. A line feed or a carriage return in it ends
the comment, and what follows is code. A backslash at its end, be it with blanks behind
it, joins the next line to the comment, and the next line is the one that opens the
lambda of the rule.

A name is unseen (`CppGenerator.Unseen`) if a compiler that is in the comment reads
nothing of it, and all of the line that opens the lambda. Comments change nothing exactly
if all names are unseen. Here one direction is clear, and for the other one it has to be
excluded that a name makes up for what another one takes away: all that is read of the
names together has no `const` and no `return` in it, and between two names there is one
(`CppGenerator.Noted.unseen`).

## What is known of the lines

Nothing of this depends on what the code says, only on how it is laid out. A line of code
ends with a character behind which it is not joined with anything (`Cpp.EndsPlain`); what
stands in front of a name in its comment does not leave the line
(`CppGenerator.IsInline`); and after each name a lambda is opened, and before the next
name is put out, a `const` or a `return` is. `CppGenerator.Noted` says that of a list of
lines, and the emitter is followed once, from the smallest emission to the whole ruleset,
to see that its lines are of that kind (`CppGenerator.noted_emitted`).

What g++ reads differs from what the standard says about NUL only. Everything that is read
is therefore read in a dialect, and the lines are of that kind for each of them.
-/

namespace Hmr

namespace CppGenerator

open Lowering (toDecimal isDigit_of_mem_toDecimal)

/-! ## The names that are put out -/

/-- The names in the comments of element rules, each with its indentation. -/
def elementNames (ers : List ElementRule) : List (Nat × Bytes) :=
  (ers.filter fun er => (Lowering.uriElement er.type).isSome).map fun er => (2, er.name)

/-- The names in the comments of a rule. A reject leaves its element rules out. -/
def noteNames (hr : HeaderRule) : List (Nat × Bytes) :=
  (1, hr.name) :: if hr.action = .reject then [] else elementNames hr.elementRules

/-- The names in the comments of a ruleset. -/
def commentNames (rs : Ruleset) : List (Nat × Bytes) := rs.headerRules.flatMap noteNames

/-- The line that opens a lambda. -/
def lambdaLine (d : Nat) : Bytes := List.replicate (4 * d) sp ++ ifLambda ++ [lf]

/-- What a compiler that is in a comment reads of a name and of the line behind it. -/
def noteTokens (cc : Cpp.Dialect) (n : Nat × Bytes) : List Cpp.Token :=
  Cpp.tokensFrom cc .comment (n.2 ++ lf :: lambdaLine n.1)

/-- **Nothing is seen** of a name in a comment: what is read is the line behind it. -/
def Unseen (cc : Cpp.Dialect) (n : Nat × Bytes) : Prop :=
  noteTokens cc n = Cpp.tokens cc (lambdaLine n.1)

instance (cc : Cpp.Dialect) (n : Nat × Bytes) : Decidable (Unseen cc n) :=
  inferInstanceAs (Decidable (_ = _))

/-- A token that opens no lambda. -/
def isMark (t : Cpp.Token) : Bool := t == .word (txt "const") || t == .word (txt "return")

/-- A statement with such a token. -/
def Marked (cc : Cpp.Dialect) (s : Bytes) : Prop :=
  ∃ t ∈ Cpp.tokens cc (s ++ [lf]), isMark t = true

/-- A text that does not leave its line: no line end is in it, and no backslash. -/
structure IsInline (s : Bytes) : Prop where
  lineFeed : 10 ∉ s
  carriageReturn : 13 ∉ s
  backslash : 92 ∉ s

/-- Texts that do not leave their line do not do so together. -/
theorem IsInline.append {s t : Bytes} (hs : IsInline s) (ht : IsInline t) :
    IsInline (s ++ t) :=
  ⟨List.not_mem_append hs.1 ht.1, List.not_mem_append hs.2 ht.2, List.not_mem_append hs.3 ht.3⟩

/-- **Lines with names in their comments**: a comment is a text that does not leave its
line, and a name behind it, and the line that opens a lambda follows it. Every line of
code ends plainly. Between two names there is a mark; a first one is wanted in front of
the first name, or at the end, if `wanted` holds. -/
inductive Noted : (wanted : Bool) → List Line → List (Nat × Bytes) → Prop
  | nil : Noted false [] []
  | code {b : Bool} {n : Nat} {s : Bytes} {ls : List Line} {ns : List (Nat × Bytes)}
      (hs : Cpp.EndsPlain s) (h : Noted b ls ns) : Noted b (.code n s :: ls) ns
  | mark {b : Bool} {n : Nat} {s : Bytes} {ls : List Line} {ns : List (Nat × Bytes)}
      (hs : Cpp.EndsPlain s) (hm : ∀ cc, Marked cc s) (h : Noted false ls ns) :
      Noted b (.code n s :: ls) ns
  | note {d : Nat} {p name : Bytes} {ls : List Line} {ns : List (Nat × Bytes)}
      (hp : IsInline p) (h : Noted true ls ns) :
      Noted false (.comment d (p ++ name) :: .code d ifLambda :: ls) ((d, name) :: ns)

/-! ## What is emitted -/

/-- **What an emission puts out** takes lines from one state to another: from a state in
which a mark is wanted or not, and in which code is indented so far, and it puts these
names into comments. -/
def Emits {α : Type} (x : Emit α) (p q : Bool × Nat) (os : List (Nat × Bytes)) : Prop :=
  ∀ e, e.indent = p.2 → ∃ ls, (x e).2.body = e.body ++ ls ∧ (x e).2.indent = q.2 ∧
    ∀ ms ns, Noted q.1 ms ns → Noted p.1 (ls ++ ms) (os ++ ns)

section
variable {α β : Type} {x : Emit α} {f : α → Emit β} {p q r : Bool × Nat}
  {os os' : List (Nat × Bytes)}

/-- An emission that puts out no line. -/
theorem emits_silent (h : ∀ e, (x e).2.body = e.body ∧ (x e).2.indent = e.indent) :
    Emits x p p [] := fun e he =>
  ⟨[], by rw [(h e).1, List.append_nil], by rw [(h e).2, he], fun _ _ h => h⟩

/-- No emission. -/
theorem emits_pure (a : α) : Emits (pure a) p p [] := emits_silent fun _ => ⟨rfl, rfl⟩

/-- **One emission after the other**, if the second one is known for what the first one
returns. -/
theorem Emits.bind_of {P : α → Prop} (hx : Emits x p q os) (hP : ∀ e, P (x e).1)
    (hf : ∀ a, P a → Emits (f a) q r os') : Emits (x >>= f) p r (os ++ os') := by
  intro e he
  obtain ⟨ls, hbody, hindent, hnoted⟩ := hx e he
  obtain ⟨ls', hbody', hindent', hnoted'⟩ := hf (x e).1 (hP e) (x e).2 hindent
  refine ⟨ls ++ ls', ?_, hindent', fun ms ns h => ?_⟩
  · show (f (x e).1 (x e).2).2.body = _
    rw [hbody', hbody, List.append_assoc]
  · rw [List.append_assoc, List.append_assoc]
    exact hnoted _ _ (hnoted' _ _ h)

/-- **One emission after the other.** -/
theorem Emits.bind (hx : Emits x p q os) (hf : ∀ a, Emits (f a) q r os') :
    Emits (x >>= f) p r (os ++ os') :=
  hx.bind_of (P := fun _ => True) (fun _ => trivial) fun a _ => hf a

/-- One that puts out no name, and another one. -/
theorem Emits.andThen (hx : Emits x p q []) (hf : ∀ a, Emits (f a) q r os) :
    Emits (x >>= f) p r os :=
  hx.bind hf

/-- **A choice**, of which either side is of that kind. -/
theorem emits_ite {c : Prop} [Decidable c] {y : Emit α} (hx : c → Emits x p q os)
    (hy : ¬ c → Emits y p q os) : Emits (if c then x else y) p q os := by
  split
  · exact hx ‹_›
  · exact hy ‹_›

/-- The end of a statement. -/
def endsPlain (t : Bytes) : Bool := t.getLast?.any Cpp.isEnd

/-- How a statement ends is known from its end. -/
theorem endsPlain_append (s : Bytes) {t : Bytes} (h : endsPlain t = true) :
    Cpp.EndsPlain (s ++ t) := by
  unfold endsPlain at h
  unfold Cpp.EndsPlain
  rw [List.getLast?_append]
  cases ht : t.getLast? with
  | none =>
    rw [ht] at h
    cases h
  | some c =>
    rw [ht] at h
    exact h

/-- **A statement.** -/
theorem emits_line (s : Bytes) {t : Bytes} (h : endsPlain t = true) :
    Emits (line (s ++ t)) p p [] := fun e he =>
  ⟨[.code e.indent (s ++ t)], rfl, he, fun _ _ hn => .code (endsPlain_append s h) hn⟩

/-- **A statement that is a mark.** -/
theorem emits_mark {s : Bytes} (hs : Cpp.EndsPlain s) (hm : ∀ cc, Marked cc s) :
    Emits (line s) p (false, p.2) [] := fun e he =>
  ⟨[.code e.indent s], rfl, he, fun _ _ hn => .mark hs hm hn⟩

/-- **A comment, and the lambda behind it.** -/
theorem emits_note {s name : Bytes} {d : Nat} (hs : IsInline s) {y : Emit α}
    (hy : Emits y (true, d + 1) q os) :
    Emits (do comment (s ++ name); openBlock ifLambda; y) (false, d) q ((d, name) :: os) := by
  intro e he
  subst he
  obtain ⟨ls, hbody, hindent, hnoted⟩ := hy { e with
    body := e.body ++ [.comment e.indent (s ++ name)] ++ [.code e.indent ifLambda]
    indent := e.indent + 1 } rfl
  refine ⟨.comment e.indent (s ++ name) :: .code e.indent ifLambda :: ls, ?_, hindent,
    fun ms ns h => .note hs (hnoted ms ns h)⟩
  show (y _).2.body = _
  rw [hbody]
  simp

/-- **The end of a lambda.** -/
theorem emits_closeBlock {s : Bytes} {b : Bool} {d : Nat} (hs : Cpp.EndsPlain s)
    (hm : ∀ cc, Marked cc s) : Emits (closeBlock s) (b, d + 1) (false, d) [] := fun e he =>
  ⟨[.code (e.indent - 1) s], rfl, by show e.indent - 1 = d; rw [he]; rfl,
    fun _ _ hn => .mark hs hm hn⟩

/-- A slot is looked up in the tables. -/
theorem emits_slotFor (name : Bytes) : Emits (slotFor name) p p [] :=
  emits_silent fun _ => ⟨rfl, rfl⟩

/-- So is a regex. -/
theorem emits_addRegex (s : Bytes) (ci : Bool) : Emits (addRegex s ci) p p [] :=
  emits_silent fun _ => ⟨rfl, rfl⟩

/-- A temporary is a statement. -/
theorem emits_bindTemp (call : Bytes) : Emits (bindTemp call) p p [] :=
  (emits_silent fun _ => ⟨rfl, rfl⟩).andThen fun _ => (emits_line _ rfl).andThen fun _ =>
    emits_pure _

/-- A temporary is a mark. -/
theorem emits_bindTemp_mark (call : Bytes) : Emits (bindTemp call) p (false, p.2) [] := by
  refine (emits_silent fun _ => ⟨rfl, rfl⟩).andThen fun t =>
    (emits_mark (endsPlain_append _ rfl) ?_).andThen fun _ => emits_pure _
  intro cc
  refine ⟨.word (txt "const"), ?_, rfl⟩
  have hconst : ∀ rest, Cpp.tokens cc (txt "const " ++ rest)
      = .word (txt "const") :: Cpp.tokens cc rest := fun rest => by
    rw [Cpp.tokens, Cpp.tokensFrom_append .between (by decide) (by decide)]
    cases cc <;> rfl
  have hsplit : txt "const HmrStr " = txt "const " ++ txt "HmrStr " := rfl
  simp only [hsplit, List.append_assoc, hconst, List.mem_cons_self]

/-! ### Values and guards -/

/-- **A reference**: a temporary for what it stands for, if anything. -/
theorem emits_emitRef (v : ValueRef) : Emits (emitRef v) p p [] := by
  unfold emitRef
  cases v.kind with
  | «variable» => exact emits_bindTemp _
  | capture => exact emits_bindTemp _
  | ruleRef => exact (emits_slotFor _).andThen fun _ => emits_bindTemp _

/-- A segment of a value. -/
theorem emits_emitSegment (s : ValueSegment) : Emits (emitSegment s) p p [] := by
  cases s with
  | literal s => exact emits_ite (fun _ => emits_pure ()) fun _ => emits_line _ rfl
  | ref v =>
    unfold emitSegment
    dsimp only
    cases v.kind with
    | «variable» => exact emits_line _ rfl
    | capture => exact emits_line _ rfl
    | ruleRef => exact (emits_slotFor _).andThen fun _ => emits_line _ rfl

/-- The segments, one after the other. -/
theorem emits_emitSegments (segs : List ValueSegment) : Emits (emitSegments segs) p p [] := by
  induction segs with
  | nil => exact emits_pure ()
  | cons s segs ih => exact (emits_emitSegment s).andThen fun _ => ih

/-- **A value**: temporaries for its segments, and for the whole. -/
theorem emits_emitValue (v : Value) : Emits (emitValue v) p p [] := by
  refine emits_ite (fun _ => emits_pure _) fun _ => emits_ite (fun _ => emits_pure _) fun _ => ?_
  cases v.singleRef? with
  | some r => exact emits_emitRef r
  | none =>
    exact (emits_line [] rfl).andThen fun _ => (emits_emitSegments _).andThen fun _ =>
      emits_bindTemp _

/-- **The guard by match-value**: its value, and a test. -/
theorem emits_emitMatchGuard (cmp : ComparisonType) (mvt : MatchValType) (mv : Value)
    (subject : Bytes) : Emits (emitMatchGuard cmp mvt mv subject) p p [] := by
  refine emits_ite (fun _ => emits_pure ()) fun _ => emits_ite (fun _ => ?_) fun _ => ?_
  · exact (emits_addRegex _ _).andThen fun _ => (emits_pure _).andThen fun _ => emits_line _ rfl
  · exact (emits_pure _).andThen fun _ => emits_line _ rfl

/-! ### Rules -/

/-- The groups of a regex are stored in statements. -/
theorem emits_emitGroups (rule : Bytes) (n g : Nat) : Emits (emitGroups rule n g) p p [] := by
  induction n generalizing g with
  | zero => exact emits_pure ()
  | succ n ih =>
    exact (emits_bindTemp _).andThen fun _ => (emits_slotFor _).andThen fun _ =>
      (emits_line _ rfl).andThen fun _ => ih (g + 1)

/-- So are logs and rejects. -/
theorem emits_emitMessage (name : Bytes) (v : Value) : Emits (emitMessage name v) p p [] :=
  emits_ite (fun _ => emits_pure _) fun _ => emits_emitValue v

/-- **The action of a header rule**: no name is put out. -/
theorem emits_emitHeaderAction (hr : HeaderRule) (idx : Nat) (hv : Option Bytes) :
    Emits (emitHeaderAction hr idx hv) p p [] := by
  have hset : ∀ (v : Value) (s t : Bytes), endsPlain t = true →
      Emits (do let w ← emitValue v; line (s ++ w ++ t); pure false) p p [] := fun v s t ht =>
    (emits_emitValue v).andThen fun _ => (emits_line _ ht).andThen fun _ => emits_pure _
  unfold emitHeaderAction
  dsimp only
  split
  · exact hset _ _ _ rfl
  · exact emits_ite (fun _ => hset _ _ _ rfl) fun _ => emits_pure _
  · exact emits_ite (fun _ => hset _ _ _ rfl) fun _ => emits_pure _
  · exact (emits_line _ rfl).andThen fun _ => emits_pure _
  · exact (emits_line _ rfl).andThen fun _ => emits_pure _
  · refine emits_ite (fun _ => (emits_emitGroups _ _ _).andThen fun _ => emits_pure _) fun _ => ?_
    cases hv with
    | some hv =>
      exact (emits_pure hv).andThen fun _ => (emits_slotFor _).andThen fun _ =>
        (emits_line _ rfl).andThen fun _ => emits_pure _
    | none =>
      exact (emits_bindTemp _).andThen fun _ => (emits_slotFor _).andThen fun _ =>
        (emits_line _ rfl).andThen fun _ => emits_pure _
  · exact (emits_emitMessage _ _).andThen fun _ => (emits_line _ rfl).andThen fun _ => emits_pure _
  · exact (emits_emitMessage _ _).andThen fun _ => (emits_line _ rfl).andThen fun _ =>
      (emits_line [] rfl).andThen fun _ => emits_pure _
  · exact emits_pure _

/-- **Only a reject** terminates its rule. -/
theorem emitHeaderAction_fst (hr : HeaderRule) (idx : Nat) (hv : Option Bytes) (e : CppEmitter) :
    (emitHeaderAction hr idx hv e).1 = decide (hr.action = .reject) := by
  have hite : ∀ (c : Bool) (x y : Emit Bool), (x e).1 = false → (y e).1 = false →
      ((if c = true then x else y : Emit Bool) e).1 = false := by
    intro c x y hx hy
    cases c
    · exact hy
    · exact hx
  unfold emitHeaderAction
  cases hr.action with
  | replace => exact hite _ _ _ rfl rfl
  | manipulate => exact hite _ _ _ rfl rfl
  | store =>
    refine hite _ _ _ rfl ?_
    cases hv with
    | some hv => rfl
    | none => rfl
  | _ => rfl

/-- **The action of an element rule**: nor is one here. -/
theorem emits_emitElementAction (hr : HeaderRule) (er : ElementRule) (elem : HmrUriElement)
    (nm hv ev : Bytes) : Emits (emitElementAction hr er elem nm hv ev) p p [] := by
  have hline : ∀ (s t : Bytes), endsPlain t = true →
      Emits (do line (s ++ t); pure false) p p [] := fun s t ht =>
    (emits_line s ht).andThen fun _ => emits_pure _
  unfold emitElementAction
  split
  · exact (emits_emitValue _).andThen fun _ => emits_ite (fun _ => hline _ _ rfl) fun _ =>
      (emits_bindTemp _).andThen fun _ => hline _ _ rfl
  · exact emits_ite (fun _ => hline _ _ rfl) fun _ =>
      (emits_bindTemp _).andThen fun _ => hline _ _ rfl
  · exact (emits_slotFor _).andThen fun _ => hline _ _ rfl
  · exact (emits_emitMessage _ _).andThen fun _ => (emits_line _ rfl).andThen fun _ =>
      (emits_line [] rfl).andThen fun _ => emits_pure _
  · exact emits_pure _

/-- What follows the action: `return false;`, if the rule is not terminated. -/
theorem emits_fallThrough (t : Bool) {y : Emit α} (hy : Emits y p q os) :
    Emits (if t = true then y else do line (txt "return false;"); y) p q os :=
  emits_ite (fun _ => hy) fun _ => (emits_line [] rfl).andThen fun _ => hy

/-- The end of the lambda of an element rule. -/
theorem emits_closeElement (b : Bool) :
    Emits (closeBlock (txt "\x7d()) return true;")) (b, 3) (false, 2) [] :=
  emits_closeBlock (by decide) fun cc => ⟨.word (txt "return"), by cases cc <;> decide, rfl⟩

/-- The end of the lambda of a rule, and a blank line. -/
theorem emits_closeHeader (b : Bool) :
    Emits (do closeBlock (txt "\x7d()) return HMR_REJECTED;"); blank) (b, 2) (false, 1) [] :=
  (emits_closeBlock (by decide) fun cc =>
    ⟨.word (txt "return"), by cases cc <;> decide, rfl⟩).andThen fun _ e he =>
    ⟨[.code 0 []], rfl, he, fun _ _ hn => .code (by decide) hn⟩

/-- A name, behind what is in front of it. -/
theorem exists_elementNote (er : ElementRule) :
    ∃ s, elementNote er = s ++ er.name ∧ IsInline s := by
  by_cases hname : er.name = []
  · exact ⟨txt "element-rule", by rw [elementNote, hname]; rfl, by decide, by decide, by decide⟩
  · exact ⟨txt "element-rule ", if_neg (by rwa [List.isEmpty_iff]), by decide, by decide,
      by decide⟩

/-- A name, behind the number and the kind of its rule. -/
theorem exists_headerNote (hr : HeaderRule) (idx : Nat) :
    ∃ s, headerNote hr idx = s ++ hr.name ∧ IsInline s := by
  have hdigit : ∀ c, Value.isDigit c = false → c ∉ toDecimal idx := fun c hc hmem => by
    rw [isDigit_of_mem_toDecimal hmem] at hc
    cases hc
  have hrule : IsInline (txt "header-rule " ++ toDecimal idx) :=
    .append ⟨by decide, by decide, by decide⟩ ⟨hdigit _ rfl, hdigit _ rfl, hdigit _ rfl⟩
  by_cases hname : hr.name = []
  · refine ⟨txt "header-rule " ++ toDecimal idx, ?_, hrule⟩
    rw [headerNote, hname]
    exact (List.append_nil _).symm
  · exact ⟨txt "header-rule " ++ toDecimal idx ++ txt ": ", if_neg (by rwa [List.isEmpty_iff]),
      hrule.append ⟨by decide, by decide, by decide⟩⟩

/-- **An element rule** puts its name out. -/
theorem emits_emitElement (hr : HeaderRule) (nm : Bytes) (er : ElementRule)
    (elem : HmrUriElement) :
    Emits (emitElement hr nm er elem) (false, 2) (false, 2) [(2, er.name)] := by
  obtain ⟨s, hnote, hs⟩ := exists_elementNote er
  have hrest : ∀ hv ev, Emits (do
      emitMatchGuard er.comparison er.matchValType er.matchValue ev
      let terminated ← emitElementAction hr er elem nm hv ev
      if terminated then pure () else line (txt "return false;")
      closeBlock (txt "\x7d()) return true;")) (true, 3) (false, 2) [] := fun hv ev =>
    (emits_emitMatchGuard _ _ _ _).andThen fun _ =>
      (emits_emitElementAction _ _ _ _ _ _).andThen fun t =>
      emits_fallThrough t (emits_closeElement true)
  unfold emitElement
  rw [hnote]
  refine emits_note hs ((emits_bindTemp _).andThen fun hv => emits_ite (fun _ => ?_) fun _ => ?_)
  · exact (emits_pure hv).andThen fun ev => hrest hv ev
  · exact (emits_bindTemp _).andThen fun ev => hrest hv ev

/-- **The element rules** put out their names in their order. -/
theorem emits_emitElements (hr : HeaderRule) (nm : Bytes) (ers : List ElementRule) :
    Emits (emitElements hr nm ers) (false, 2) (false, 2) (elementNames ers) := by
  induction ers with
  | nil => exact emits_pure ()
  | cons er ers ih =>
    unfold emitElements elementNames
    cases helem : Lowering.uriElement er.type with
    | none => rwa [List.filter_cons_of_neg (by rw [helem]; exact Bool.false_ne_true)]
    | some elem =>
      rw [List.filter_cons_of_pos (by rw [helem]; rfl)]
      exact (emits_emitElement hr nm er elem).bind fun _ => ih

/-- The element rules of a header, and the test whether there are any. -/
theorem emits_emitElementRules (hr : HeaderRule) (b : Bool) :
    Emits (emitElementRules hr) (b, 2) (false, 2) (elementNames hr.elementRules) :=
  (emits_bindTemp_mark _).andThen fun _ => emits_emitElements hr _ _

/-- The guard by message type. -/
theorem emits_emitMsgTypeGuard (hr : HeaderRule) : Emits (emitMsgTypeGuard hr) p p [] := by
  unfold emitMsgTypeGuard
  cases hr.msgType with
  | request => exact emits_line [] rfl
  | reply => exact emits_line [] rfl
  | _ => exact emits_pure ()

/-- The guard by method. -/
theorem emits_emitMethodGuard (hr : HeaderRule) : Emits (emitMethodGuard hr) p p [] :=
  emits_ite (fun _ => (emits_bindTemp _).andThen fun _ => emits_line _ rfl) fun _ => emits_pure ()

/-- The header is looked for. -/
theorem emits_emitFetch (hr : HeaderRule) : Emits (emitFetch hr) p p [] :=
  emits_ite (fun _ => (emits_bindTemp _).andThen fun _ => emits_pure _) fun _ => emits_pure none

/-- **A header rule** puts its name out, and those of its element rules. -/
theorem emits_emitHeaderRule (hr : HeaderRule) (idx : Nat) :
    Emits (emitHeaderRule hr idx) (false, 1) (false, 1) (noteNames hr) := by
  obtain ⟨s, hnote, hs⟩ := exists_headerNote hr idx
  have hend : ∀ b t, Emits (do
      if t = true then pure () else line (txt "return false;")
      closeBlock (txt "\x7d()) return HMR_REJECTED;")
      blank) (b, 2) (false, 1) [] := fun b t => emits_fallThrough t (emits_closeHeader b)
  have hrest : ∀ t, t = decide (hr.action = .reject) → Emits (do
      if !t && !hr.elementRules.isEmpty then emitElementRules hr else pure ()
      if t then pure () else line (txt "return false;")
      closeBlock (txt "\x7d()) return HMR_REJECTED;")
      blank) (true, 2) (false, 1)
      (if hr.action = .reject then [] else elementNames hr.elementRules) := by
    intro t ht
    subst ht
    by_cases hreject : hr.action = .reject
    · rw [decide_eq_true hreject, if_pos hreject]
      exact hend true true
    · rw [decide_eq_false hreject, if_neg hreject]
      cases helements : hr.elementRules with
      | nil => exact hend true false
      | cons er ers =>
        have h := (emits_emitElementRules hr true).bind fun _ => hend false false
        rw [List.append_nil, helements] at h
        exact h
  unfold emitHeaderRule noteNames
  rw [hnote]
  exact emits_note hs ((emits_emitMsgTypeGuard hr).andThen fun _ =>
    (emits_emitMethodGuard hr).andThen fun _ => (emits_emitFetch hr).andThen fun hv =>
    (emits_emitMatchGuard _ _ _ _).andThen fun _ => (emits_emitHeaderAction hr idx hv).bind_of
      (P := (· = decide (hr.action = .reject))) (emitHeaderAction_fst hr idx hv) hrest)

/-- **The rules**, one after the other. -/
theorem emits_emitRules (idx : Nat) (hrs : List HeaderRule) :
    Emits (emitRules idx hrs) (false, 1) (false, 1) (hrs.flatMap noteNames) := by
  induction hrs generalizing idx with
  | nil => exact emits_pure ()
  | cons hr hrs ih =>
    rw [List.flatMap_cons]
    exact (emits_emitHeaderRule hr idx).bind fun _ => ih (idx + 1)

/-- **The body** is made of lines with the names of the ruleset in their comments. -/
theorem noted_emitted (rs : Ruleset) : Noted false (emitted rs).body (commentNames rs) := by
  obtain ⟨ls, hbody, -, hnoted⟩ := emits_emitRules 0 rs.headerRules {} rfl
  have h := hnoted [] [] .nil
  rw [List.append_nil, List.append_nil] at h
  rw [emitted, hbody]
  exact h

end

/-! ## What is read of it -/

/-- What a lambda is opened with. -/
def lambdaTokens : List Cpp.Token :=
  [.word (txt "if"), .punct (txt "("), .punct (txt "["), .punct (txt "&"), .punct (txt "]"),
    .punct (txt "("), .punct (txt ")"), .punct (txt "->"), .word (txt "bool"), .punct (txt "\x7b")]

/-- It is read as these tokens. -/
theorem tokens_lambdaLine (cc : Cpp.Dialect) (d : Nat) :
    Cpp.tokens cc (lambdaLine d) = lambdaTokens := by
  rw [lambdaLine, List.append_assoc, show sp = 32 from rfl, Cpp.tokens_blanks]
  cases cc <;> rfl

/-- There is no mark among them. -/
@[simp] theorem countP_lambdaTokens : lambdaTokens.countP isMark = 0 := rfl

/-- It has no mark. -/
theorem isMark_lambdaTokens : ∀ t ∈ lambdaTokens, isMark t = false := fun t ht =>
  Bool.eq_false_iff.mpr (List.countP_eq_zero.mp countP_lambdaTokens t ht)

/-- An unseen name leaves these tokens, and no others. -/
theorem unseen_iff (cc : Cpp.Dialect) (n : Nat × Bytes) :
    Unseen cc n ↔ noteTokens cc n = lambdaTokens := by
  rw [Unseen, tokens_lambdaLine]

section
variable {cc : Cpp.Dialect} {n : Nat} {s p : Bytes}

/-- A line of code. -/
theorem tokens_code (flag : Bool) (hs : Cpp.EndsPlain s) (rest : Bytes) :
    Cpp.tokens cc ((Line.code n s).text flag ++ rest)
      = Cpp.tokens cc (s ++ [lf]) ++ Cpp.tokens cc rest := by
  rw [Line.text, List.append_assoc, List.append_assoc, show sp = 32 from rfl, Cpp.tokens_blanks]
  exact Cpp.tokens_line hs rest

/-- **A comment with a name, and the lambda behind it.** -/
theorem tokens_note {d : Nat} {name : Bytes} (hp : IsInline p) (rest : Bytes) :
    Cpp.tokens cc ((Line.comment d (p ++ name)).text true
        ++ ((Line.code d ifLambda).text true ++ rest))
      = noteTokens cc (d, name) ++ Cpp.tokens cc rest := by
  have hinline : IsInline (txt "// " ++ p) := .append ⟨by decide, by decide, by decide⟩ hp
  have hcomment : Cpp.feed (Cpp.step cc) .between (txt "// " ++ p) = ([], .comment) := by
    have hopen : Cpp.feed (Cpp.step cc) .between (txt "// ") = ([], .comment) := by
      cases cc <;> rfl
    rw [Cpp.feed_append, hopen, Cpp.feed_comment hp.lineFeed]
    rfl
  have hlast : Cpp.EndsPlain (name ++ lf :: (List.replicate (4 * d) sp ++ ifLambda)) := by
    have hsplit : name ++ lf :: (List.replicate (4 * d) sp ++ ifLambda)
        = (name ++ lf :: List.replicate (4 * d) sp) ++ ifLambda := by simp
    rw [hsplit]
    exact endsPlain_append _ rfl
  have htext : (Line.comment d (p ++ name)).text true ++ ((Line.code d ifLambda).text true ++ rest)
      = List.replicate (4 * d) 32 ++ ((txt "// " ++ p)
        ++ ((name ++ lf :: (List.replicate (4 * d) sp ++ ifLambda)) ++ 10 :: rest)) := by
    simp [Line.text]
  rw [htext, Cpp.tokens_blanks, Cpp.tokens,
    Cpp.tokensFrom_append _ hinline.backslash hinline.carriageReturn, hcomment,
    Cpp.tokensFrom_line _ hlast, List.nil_append, noteTokens, lambdaLine]
  simp

end

/-- The text of lines, and what is behind them. -/
def bodyText (flag : Bool) (ls : List Line) (rest : Bytes) : Bytes :=
  ls.flatMap (Line.text flag) ++ rest

section
variable {cc : Cpp.Dialect} {b : Bool} {ls : List Line} {ns : List (Nat × Bytes)}

/-- A line of code is read on its own. -/
theorem tokens_bodyText_code (flag : Bool) {n : Nat} {s : Bytes} (hs : Cpp.EndsPlain s)
    (rest : Bytes) :
    Cpp.tokens cc (bodyText flag (.code n s :: ls) rest)
      = Cpp.tokens cc (s ++ [lf]) ++ Cpp.tokens cc (bodyText flag ls rest) := by
  rw [bodyText, List.flatMap_cons, List.append_assoc, tokens_code flag hs]
  rfl

/-- A comment with a name, where comments are put out. -/
theorem tokens_bodyText_note {d : Nat} {p name : Bytes} (hp : IsInline p) (rest : Bytes) :
    Cpp.tokens cc (bodyText true (.comment d (p ++ name) :: .code d ifLambda :: ls) rest)
      = noteTokens cc (d, name) ++ Cpp.tokens cc (bodyText true ls rest) := by
  rw [bodyText, List.flatMap_cons, List.flatMap_cons, List.append_assoc, List.append_assoc,
    tokens_note hp]
  rfl

/-- Where they are not, there is the lambda. -/
theorem tokens_bodyText_lambda {d : Nat} {s : Bytes} (rest : Bytes) :
    Cpp.tokens cc (bodyText false (.comment d s :: .code d ifLambda :: ls) rest)
      = lambdaTokens ++ Cpp.tokens cc (bodyText false ls rest) := by
  have hopens : Cpp.tokens cc (ifLambda ++ [lf]) = lambdaTokens := by cases cc <;> rfl
  have hcode : Cpp.tokens cc (bodyText false (.code d ifLambda :: ls) rest)
      = Cpp.tokens cc (ifLambda ++ [lf]) ++ Cpp.tokens cc (bodyText false ls rest) :=
    tokens_bodyText_code false (by decide) rest
  rwa [hopens] at hcode

/-- **Unseen names change nothing.** -/
theorem Noted.tokens_eq (h : Noted b ls ns) (hns : ∀ n ∈ ns, Unseen cc n) (rest : Bytes) :
    Cpp.tokens cc (bodyText true ls rest) = Cpp.tokens cc (bodyText false ls rest) := by
  induction h with
  | nil => rfl
  | code hs _ ih => rw [tokens_bodyText_code _ hs, tokens_bodyText_code _ hs, ih hns]
  | mark hs _ _ ih => rw [tokens_bodyText_code _ hs, tokens_bodyText_code _ hs, ih hns]
  | note hp _ ih =>
    obtain ⟨hn, hns⟩ := List.forall_mem_cons.mp hns
    rw [tokens_bodyText_note hp, tokens_bodyText_lambda, ih hns, (unseen_iff cc _).mp hn]

/-- **What names add**: so many marks more are read. -/
theorem Noted.countP_isMark (h : Noted b ls ns) (rest : Bytes) :
    (Cpp.tokens cc (bodyText true ls rest)).countP isMark
      = (ns.flatMap (noteTokens cc)).countP isMark
        + (Cpp.tokens cc (bodyText false ls rest)).countP isMark := by
  induction h with
  | nil => exact (Nat.zero_add _).symm
  | code hs _ ih =>
    rw [tokens_bodyText_code _ hs, tokens_bodyText_code _ hs, List.countP_append,
      List.countP_append, ih, Nat.add_left_comm]
  | mark hs _ _ ih =>
    rw [tokens_bodyText_code _ hs, tokens_bodyText_code _ hs, List.countP_append,
      List.countP_append, ih, Nat.add_left_comm]
  | note hp _ ih =>
    rw [tokens_bodyText_note hp, tokens_bodyText_lambda, List.flatMap_cons, List.countP_append,
      List.countP_append, List.countP_append, ih, countP_lambdaTokens, Nat.zero_add,
      Nat.add_assoc]

/-- What is in front of a first mark is known from what follows it. -/
theorem eq_of_append_eq {α : Type} {f : α → Bool} {a a' t x y : List α}
    (ha : ∀ c ∈ a, f c = false) (ha' : ∀ c ∈ a', f c = false) (ht : ∃ c ∈ t, f c = true)
    (h : a ++ (t ++ x) = a' ++ (t ++ y)) : a = a' := by
  have hfront : ∀ l z : List α, (∀ c ∈ l, f c = false) →
      (l ++ (t ++ z)).takeWhile (!f ·) = l ++ t.takeWhile (!f ·) := by
    intro l z hl
    rw [List.takeWhile_append_of_pos fun c hc => by rw [hl c hc]; rfl, List.takeWhile_append,
      if_neg]
    intro hlen
    obtain ⟨c, hc, hf⟩ := ht
    have hall := List.takeWhile_eq_self_iff.mp
      ((List.takeWhile_sublist (!f ·)).eq_of_length hlen) c hc
    rw [hf] at hall
    cases hall
  have hread := congrArg (List.takeWhile (!f ·)) h
  rw [hfront a x ha, hfront a' y ha'] at hread
  exact List.append_cancel_right hread

/-- **Names that change nothing together are unseen**, each of them, if no mark is read of them:
from the front on, by what is read up to the next mark.

By induction on the lines. What has been read in front of them on either side has no mark in it,
so at the next line with a mark the two fronts are cut off by the same token and are equal; and a
line with a name in front of it is preceded by equal fronts, because between two names there is
always such a mark (`Noted`). No name can make up for another one, then. -/
theorem Noted.unseen (h : Noted b ls ns) (hns : ∀ t ∈ ns.flatMap (noteTokens cc), isMark t = false)
    {rest : Bytes} {a u : List Cpp.Token} (ha : ∀ t ∈ a, isMark t = false)
    (hu : ∀ t ∈ u, isMark t = false) (hb : b = false → a = u)
    (heq : a ++ Cpp.tokens cc (bodyText true ls rest)
      = u ++ Cpp.tokens cc (bodyText false ls rest)) :
    a = u ∧ ∀ n ∈ ns, Unseen cc n := by
  induction h generalizing a u with
  | nil => exact ⟨hb rfl, fun n hn => absurd hn List.not_mem_nil⟩
  | @code b n s ls ns hs h ih =>
    rw [tokens_bodyText_code _ hs, tokens_bodyText_code _ hs] at heq
    by_cases hm : Marked cc s
    · have hfront := eq_of_append_eq ha hu hm heq
      subst hfront
      have hrest := List.append_cancel_left (List.append_cancel_left heq)
      exact ⟨rfl, (ih hns (List.forall_mem_nil _) (List.forall_mem_nil _) (fun _ => rfl) hrest).2⟩
    · have hs : ∀ t ∈ Cpp.tokens cc (s ++ [lf]), isMark t = false := fun t ht =>
        Bool.eq_false_iff.mpr fun hmark => hm ⟨t, ht, hmark⟩
      rw [← List.append_assoc, ← List.append_assoc] at heq
      obtain ⟨hfront, hall⟩ := ih hns (List.forall_mem_append.mpr ⟨ha, hs⟩)
        (List.forall_mem_append.mpr ⟨hu, hs⟩) (fun hb' => by rw [hb hb']) heq
      exact ⟨List.append_cancel_right hfront, hall⟩
  | mark hs hm _ ih =>
    rw [tokens_bodyText_code _ hs, tokens_bodyText_code _ hs] at heq
    have hfront := eq_of_append_eq ha hu (hm cc) heq
    subst hfront
    have hrest := List.append_cancel_left (List.append_cancel_left heq)
    exact ⟨rfl, (ih hns (List.forall_mem_nil _) (List.forall_mem_nil _) (fun _ => rfl) hrest).2⟩
  | note hp _ ih =>
    rw [tokens_bodyText_note hp, tokens_bodyText_lambda, hb rfl] at heq
    rw [List.flatMap_cons] at hns
    obtain ⟨hn, hns⟩ := List.forall_mem_append.mp hns
    obtain ⟨hfront, hall⟩ := ih hns hn isMark_lambdaTokens
      (fun hb => absurd hb (by decide)) (List.append_cancel_left heq)
    exact ⟨hb rfl, List.forall_mem_cons.mpr ⟨(unseen_iff cc _).mpr hfront, hall⟩⟩

end

/-! ## The translation unit -/

/-- **Comments do not change** what a compiler reads. -/
def SameTokens (cc : Cpp.Dialect) (rs : Ruleset) (opts : CppGenOptions) : Prop :=
  Cpp.tokens cc (generateCpp rs { opts with emitComments := true })
    = Cpp.tokens cc (generateCpp rs { opts with emitComments := false })

section
variable {cc : Cpp.Dialect} {rs : Ruleset} {opts : CppGenOptions}

/-- What stands in front of the body ends with a line. -/
theorem exists_preamble (opts : CppGenOptions) :
    ∃ l, preamble opts = l ++ [lf] ∧ Cpp.EndsPlain l :=
  ⟨_, rfl, endsPlain_append _ rfl⟩

/-- **The text is read in two parts**, of which the first one has none of the comments that
can be left out. -/
theorem tokens_generateCpp (flag : Bool) :
    Cpp.tokens cc (generateCpp rs { opts with emitComments := flag })
      = Cpp.tokens cc (preamble opts)
        ++ Cpp.tokens cc (bodyText flag (emitted rs).body (epilogue opts rs)) := by
  obtain ⟨l, hpreamble, hl⟩ := exists_preamble opts
  have htext : generateCpp rs { opts with emitComments := flag }
      = preamble opts ++ bodyText flag (emitted rs).body (epilogue opts rs) :=
    List.append_assoc _ _ _
  rw [htext, hpreamble, List.append_assoc]
  exact Cpp.tokens_line hl _

/-- The first part is the same with comments and without. -/
theorem sameTokens_iff_bodyText :
    SameTokens cc rs opts ↔
      Cpp.tokens cc (bodyText true (emitted rs).body (epilogue opts rs))
        = Cpp.tokens cc (bodyText false (emitted rs).body (epilogue opts rs)) := by
  rw [SameTokens, tokens_generateCpp, tokens_generateCpp, List.append_cancel_left_eq]

/-- **Unseen names** change nothing. -/
theorem sameTokens_of_unseen (h : ∀ n ∈ commentNames rs, Unseen cc n) : SameTokens cc rs opts :=
  sameTokens_iff_bodyText.mpr ((noted_emitted rs).tokens_eq h _)

/-- **The names do not get into the code**: there are no comments, or a compiler sees
nothing of the names in them. -/
def NamesUnseen (cc : Cpp.Dialect) (rs : Ruleset) (opts : CppGenOptions) : Prop :=
  opts.emitComments = true → ∀ n ∈ commentNames rs, Unseen cc n

instance : Decidable (NamesUnseen cc rs opts) := inferInstanceAs (Decidable (_ → _))

/-- What is read then is what is read without comments. -/
theorem tokens_of_namesUnseen (h : NamesUnseen cc rs opts) :
    Cpp.tokens cc (generateCpp rs opts)
      = Cpp.tokens cc (generateCpp rs { opts with emitComments := false }) := by
  cases hcomments : opts.emitComments with
  | false => rw [show { opts with emitComments := false } = opts by rw [← hcomments]]
  | true =>
    have hsame : SameTokens cc rs opts := sameTokens_of_unseen (h hcomments)
    rwa [SameTokens, show { opts with emitComments := true } = opts by rw [← hcomments]] at hsame

/-- **Comments that change nothing** have unseen names in them: no name makes up for
another one. -/
theorem unseen_of_sameTokens (h : SameTokens cc rs opts) :
    ∀ n ∈ commentNames rs, Unseen cc n := by
  rw [sameTokens_iff_bodyText] at h
  have hnoted := noted_emitted rs
  have hcount : (Cpp.tokens cc (bodyText true (emitted rs).body (epilogue opts rs))).countP isMark
      = _ := hnoted.countP_isMark (epilogue opts rs)
  rw [h] at hcount
  have hnone : ((commentNames rs).flatMap (noteTokens cc)).countP isMark = 0 := by omega
  exact (hnoted.unseen
    (fun t ht => Bool.eq_false_iff.mpr (List.countP_eq_zero.mp hnone t ht))
    (List.forall_mem_nil _) (List.forall_mem_nil _) (fun _ => rfl) h).2

/-- **A name without line end** is unseen unless it ends in a backslash, or in one with
blanks behind it. -/
theorem unseen_iff_getLast? {d : Nat} {name : Bytes} (h10 : 10 ∉ name) (h13 : 13 ∉ name) :
    Unseen cc (d, name) ↔ (name.rdropWhile (Cpp.isBlank cc)).getLast? ≠ some 92 := by
  have hline : Cpp.tokensFrom cc .comment (lambdaLine d) = [] := by
    have hblank : ∀ c : UInt8, c ≠ 32 → c ∉ ifLambda →
        c ∉ List.replicate (4 * d) sp ++ ifLambda := fun c hc hmem =>
      List.not_mem_append (fun h => hc (List.eq_of_mem_replicate h)) hmem
    have hends : Cpp.EndsPlain (List.replicate (4 * d) sp ++ ifLambda) := endsPlain_append _ rfl
    rw [lambdaLine, show [lf] = 10 :: [] from rfl, Cpp.tokensFrom_comment
      (hblank 10 (by decide) (by decide)) (hblank 13 (by decide) (by decide)), if_pos]
    · rfl
    · have hnewlines := Cpp.feed_lineEnd (hblank 13 (by decide) (by decide))
      rw [← (hends.newlines_held cc).2, Cpp.newlines, hnewlines]
  rw [← Cpp.held_eq_nil, Unseen, noteTokens, show lf = 10 from rfl,
    Cpp.tokensFrom_comment h10 h13, tokens_lambdaLine]
  split
  · rename_i hheld
    exact iff_of_true rfl hheld
  · rename_i hheld
    rw [hline]
    exact iff_of_false (by decide) hheld

end

/-- **When comments change nothing**: exactly when every name in them is unseen, so, if
none has a line end in it, exactly when none ends in a backslash with nothing but blanks
behind it. -/
theorem sameTokens_iff (cc : Cpp.Dialect) (rs : Ruleset) (opts : CppGenOptions) :
    (SameTokens cc rs opts ↔ ∀ n ∈ commentNames rs, Unseen cc n) ∧
      ((∀ n ∈ commentNames rs, 10 ∉ n.2 ∧ 13 ∉ n.2) →
        (SameTokens cc rs opts ↔ ∀ n ∈ commentNames rs,
          (n.2.rdropWhile (Cpp.isBlank cc)).getLast? ≠ some 92)) := by
  have hiff : SameTokens cc rs opts ↔ ∀ n ∈ commentNames rs, Unseen cc n :=
    ⟨unseen_of_sameTokens, sameTokens_of_unseen⟩
  refine ⟨hiff, fun hends => hiff.trans ?_⟩
  exact forall₂_congr fun n hn => unseen_iff_getLast? (hends n hn).1 (hends n hn).2

/-- A header rule that deletes a header, with this name. -/
def namedRule (name : Bytes) : Ruleset :=
  { headerRules := [{ name := name, headerName := txt "Subject", action := .deleteHeader }] }

/-- A backslash that is not at the end does no harm, nor do blanks at the end. -/
theorem sameTokens_namedRule : SameTokens .gnu (namedRule (txt "a\\b ")) {} :=
  ((sameTokens_iff .gnu (namedRule (txt "a\\b ")) {}).2
    (List.forall_mem_singleton.mpr (by decide))).mpr (List.forall_mem_singleton.mpr (by decide))

/-- **A backslash at the end** takes the next line away, in which the lambda is opened. -/
theorem not_sameTokens : ¬ SameTokens .gnu (namedRule (txt "a\\")) {}
    ∧ ¬ SameTokens .iso (namedRule (txt "a\\")) {} := by
  refine ⟨fun h => ?_, fun h => ?_⟩
  · have hunseen := unseen_of_sameTokens h (1, txt "a\\") List.mem_cons_self
    exact absurd ((unseen_iff_getLast? (by decide) (by decide)).mp hunseen) (by decide)
  · have hunseen := unseen_of_sameTokens h (1, txt "a\\") List.mem_cons_self
    exact absurd ((unseen_iff_getLast? (by decide) (by decide)).mp hunseen) (by decide)

-- blanks behind the backslash do not help, and a carriage return ends the comment
example : ¬ Unseen .iso (1, txt "a\\ ") ∧ ¬ Unseen .iso (1, txt "a\rint x = 1;") := by decide

-- a NUL behind the backslash is a blank for g++ only
example : Unseen .iso (1, [97, 92, 0]) ∧ ¬ Unseen .gnu (1, [97, 92, 0]) := by decide

end CppGenerator

end Hmr
