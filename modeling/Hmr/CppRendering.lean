import Hmr.CppProgram

/-!
# The generated text is the text of the program

There is one emitter for C++ that puts out text, line by line, as the source does
(`CppGenerator`), and one that puts out statements (`CppProgram`), for which a meaning can
be given. They are the same functions, one over texts and one over syntax, and this file
shows that the first is the second with its statements printed.

Step by step the two hand out the same numbers, to temporaries, slots and regexes
(`Same`), and what the one has put out is the text of what the other has. For
straight-line code that is `Puts`: so many instructions have been added, and so many lines
of the emitter's indentation. For code that may return it is `Renders`: a piece of body
has been added, and its lines. A third parameter of both relates what the two return; for
an operand it is that one is the other's text (`IsText`).

What opens and closes a block is put out by two calls in the text and is one statement in
the program, the lambda of a rule. So the text of a rule is first regrouped into what
stands in the lambda and what closes it (`emitElement_eq`, `emitHeaderRule_eq`).

In the end the body of the translation unit is the text of the program
(`CppProgram.lines_emitted`), and a meaning of the program is one of the text. Nothing is
claimed here of the lines around the body; they are in `CppGenerator.generateCpp`.
-/

namespace Cpp.Body

open Hmr

/-- A body goes on where it is done. -/
@[simp] theorem append_done (b : Body) : b.append done = b := by
  induction b with
  | done => rfl
  | code i rest ih => exact congrArg (code i) ih
  | failIf c rest ih => exact congrArg (failIf c) ih
  | ret v rest ih => exact congrArg (ret v) ih
  | lambda n inner rest _ ih => exact congrArg (lambda n inner) ih

/-- Bodies put together one behind the other. -/
@[simp] theorem append_assoc (a b c : Body) : (a.append b).append c = a.append (b.append c) := by
  induction a with
  | done => rfl
  | code i rest ih => exact congrArg (code i) ih
  | failIf c rest ih => exact congrArg (failIf c) ih
  | ret v rest ih => exact congrArg (ret v) ih
  | lambda n inner rest _ ih => exact congrArg (lambda n inner) ih

/-- **The lines of bodies one behind the other** are their lines, one behind the other. -/
@[simp] theorem lines_append (n : Nat) (a b : Body) :
    (a.append b).lines n = a.lines n ++ b.lines n := by
  induction a with
  | done => rfl
  | code i rest ih => exact congrArg _ ih
  | failIf c rest ih => exact congrArg _ ih
  | ret v rest ih => exact congrArg _ ih
  | lambda note inner rest _ ih =>
    rw [append, lines, lines, ih]
    simp only [List.append_assoc, List.cons_append]

/-- The lines of straight-line code, one an instruction. -/
theorem lines_ofInstrs (n : Nat) (is : List Instr) :
    (ofInstrs is).lines n = is.map fun i => .code n (instrText i) := by
  induction is with
  | nil => rfl
  | cons i is ih => exact congrArg _ ih

end Cpp.Body

namespace Hmr

namespace CppProgram

open Cpp CppGenerator

variable {α β γ δ : Type} {n : Nat}

/-- The same numbers have been handed out. -/
structure Same (e : CppEmitter) (g : Numbers) : Prop where
  temp : e.temp = g.temp
  regexes : e.regexes = g.symbols.regexes
  slots : e.slots = g.symbols.slots

/-! ## Straight-line code -/

/-- **What one puts out is the text of what the other does.** -/
def Puts (x : Emit α) (y : CodeM β) (R : α → β → Prop) : Prop :=
  ∀ e s, Same e s.toNumbers → ∃ is, (y s).2.instrs = s.instrs ++ is
    ∧ (x e).2.body = e.body ++ is.map (fun i => .code e.indent (instrText i))
    ∧ (x e).2.indent = e.indent ∧ Same (x e).2 (y s).2.toNumbers ∧ R (x e).1 (y s).1

namespace Puts

variable {x : Emit α} {y : CodeM β} {R : α → β → Prop}

/-- Nothing is put out, and what is returned is related. -/
theorem pure {a : α} {b : β} (h : R a b) : Puts (Pure.pure a) (Pure.pure b) R := fun _ _ hes =>
  ⟨[], (List.append_nil _).symm, (List.append_nil _).symm, rfl, hes, h⟩

/-- **The rule of sequence**, for straight-line code. -/
theorem bind {f : α → Emit γ} {g : β → CodeM δ} {R' : γ → δ → Prop} (hx : Puts x y R)
    (hf : ∀ a b, R a b → Puts (f a) (g b) R') : Puts (x >>= f) (y >>= g) R' := by
  intro e s hes
  obtain ⟨is, his, hbody, hindent, hsame, hr⟩ := hx e s hes
  obtain ⟨is', his', hbody', hindent', hsame', hr'⟩ := hf _ _ hr _ _ hsame
  refine ⟨is ++ is', ?_, ?_, hindent'.trans hindent, hsame', hr'⟩
  · rw [← List.append_assoc, ← his]
    exact his'
  · rw [List.map_append, ← List.append_assoc, ← hbody, ← hindent]
    exact hbody'

/-- Both branches of a condition that both emitters ask. -/
theorem ite {c : Prop} [Decidable c] {x' : Emit α} {y' : CodeM β} (hx : c → Puts x y R)
    (hy : ¬ c → Puts x' y' R) : Puts (if c then x else x') (if c then y else y') R := by
  split
  · exact hx ‹_›
  · exact hy ‹_›

end Puts

/-- Operands are texts. -/
abbrev IsText (t : Bytes) (a : Arg) : Prop := t = argText a

/-- A call for its effect is a line of its own. -/
theorem puts_call {s : Bytes} {c : CodeCall .unit} (h : s = instrText (.call c)) :
    Puts (line s) (Emission.call c) fun _ _ => True := by
  subst h
  exact fun e s hes => ⟨[.call c], rfl, rfl, rfl, ⟨hes.1, hes.2, hes.3⟩, trivial⟩

/-- A call for its string is bound to the next temporary, whose name is the operand from then on. -/
theorem puts_bindTemp {s : Bytes} {c : CodeCall .str} (h : s = callText c) :
    Puts (bindTemp s) (Emission.bindTemp c) IsText := by
  subst h
  intro e s hes
  refine ⟨[.bind s.temp c], rfl, ?_, rfl, ⟨congrArg Nat.succ hes.1, hes.2, hes.3⟩, ?_⟩
  · show e.body ++ [_] = _
    rw [← hes.temp]
    rfl
  · show txt "t" ++ Lowering.toDecimal e.temp = _
    rw [hes.temp]
    rfl

/-- So is a literal that is wanted in a temporary. -/
theorem puts_nameTemp (s : Bytes) : Puts (bindTemp (strLit s)) (Emission.nameTemp s) IsText := by
  intro e g hes
  refine ⟨[.name g.temp s], rfl, ?_, rfl, ⟨congrArg Nat.succ hes.1, hes.2, hes.3⟩, ?_⟩
  · show e.body ++ [_] = _
    rw [← hes.temp]
    rfl
  · show txt "t" ++ Lowering.toDecimal e.temp = _
    rw [hes.temp]
    rfl

/-- The same slot is handed out, since the tables are the same. -/
theorem puts_slotFor (name : Bytes) : Puts (slotFor name) (Emission.slotFor name) Eq := by
  intro e s hes
  refine ⟨[], (List.append_nil _).symm, (List.append_nil _).symm, rfl, ⟨hes.1, hes.2, ?_⟩, ?_⟩
  · exact congrArg (fun l => (numberOf l name).2) hes.slots
  · exact congrArg (fun l => (numberOf l name).1) hes.slots

/-- The same regex is. -/
theorem puts_addRegex (p : Bytes) (ci : Bool) :
    Puts (addRegex p ci) (Emission.addRegex p ci) Eq := by
  intro e s hes
  refine ⟨[], (List.append_nil _).symm, (List.append_nil _).symm, rfl, ⟨hes.1, ?_, hes.3⟩, ?_⟩
  · exact congrArg (fun l => (numberOf l (p, ci)).2) hes.regexes
  · exact congrArg (fun l => (numberOf l (p, ci)).1) hes.regexes

/-- The end of a statement that is a call. -/
theorem semicolon (s : Bytes) : s ++ txt ");" = s ++ txt ")" ++ txt ";" :=
  (List.append_assoc s (txt ")") (txt ";")).symm

/-- A reference, by its kind. -/
theorem emitRef_puts (r : ValueRef) : Puts (emitRef r) (Emission.emitRef r) IsText := by
  unfold emitRef Emission.emitRef
  cases r.kind with
  | «variable» => exact puts_bindTemp rfl
  | capture => exact puts_bindTemp rfl
  | ruleRef =>
    refine (puts_slotFor _).bind fun k k' hk => ?_
    rw [hk]
    exact puts_bindTemp rfl

/-- A segment, which goes into the scratch buffer. -/
theorem emitSegment_puts (s : ValueSegment) :
    Puts (emitSegment s) (Emission.emitSegment s) fun _ _ => True := by
  cases s with
  | literal text => exact .ite (fun _ => .pure trivial) fun _ => puts_call (semicolon _)
  | ref r =>
    unfold emitSegment Emission.emitSegment
    dsimp only
    cases r.kind with
    | «variable» => exact puts_call (semicolon _)
    | capture => exact puts_call (semicolon _)
    | ruleRef =>
      refine (puts_slotFor _).bind fun k k' hk => ?_
      rw [hk]
      exact puts_call (semicolon _)

/-- The segments of a value, a line each. -/
theorem emitSegments_puts (segs : List ValueSegment) :
    Puts (emitSegments segs) (Emission.emitSegments segs) fun _ _ => True := by
  induction segs with
  | nil => exact .pure trivial
  | cons s segs ih => exact (emitSegment_puts s).bind fun _ _ _ => ih

/-- **A value**: a literal is an operand at once, a single reference a call, and the rest is
built in the scratch buffer. -/
theorem emitValue_puts (v : Value) : Puts (emitValue v) (Emission.emitValue v) IsText := by
  refine .ite (fun _ => .pure rfl) fun _ => .ite (fun _ => .pure rfl) fun _ => ?_
  cases v.singleRef? with
  | some r => exact emitRef_puts r
  | none =>
    exact (puts_call rfl).bind fun _ _ _ => (emitSegments_puts v.segments).bind fun _ _ _ =>
      puts_bindTemp rfl

/-- The text of a log or a reject, which is the rule's name where there is no value. -/
theorem emitMessage_puts (name : Bytes) (v : Value) :
    Puts (emitMessage name v) (Emission.emitMessage name v) IsText :=
  .ite (fun _ => .pure rfl) fun _ => emitValue_puts v

/-- The groups that a pattern stores, two lines each. -/
theorem emitGroups_puts (rule : Bytes) (n g : Nat) :
    Puts (emitGroups rule n g) (Emission.emitGroups rule n g) fun _ _ => True := by
  induction n generalizing g with
  | zero => exact .pure trivial
  | succ n ih =>
    have hcap : Puts (bindTemp (txt "hmr_rt_get_capture(ctx, " ++ uintLit g ++ txt ")"))
        (Emission.bindTemp (.getCapture g)) IsText := puts_bindTemp rfl
    refine hcap.bind fun cap cap' hcap => (puts_slotFor _).bind fun k k' hk => ?_
    rw [hcap, hk]
    have hstore : Puts (line (txt "hmr_rt_store(ctx, " ++ uintLit k' ++ txt ", " ++ argText cap'
        ++ txt ");")) (Emission.call (.store k' cap')) fun _ _ => True := puts_call (semicolon _)
    exact hstore.bind fun _ _ _ => ih (g + 1)

/-- What is fetched, if anything is. -/
def IsFetched (hr : HeaderRule) : Option Bytes → Option Arg → Prop
  | some t, some a => IsText t a
  | none, none => hr.matchValue.isEmpty = true
  | _, _ => False

/-- The value of the header is fetched by both or by neither. -/
theorem emitFetch_puts (hr : HeaderRule) :
    Puts (emitFetch hr) (Emission.emitFetch hr) (IsFetched hr) := by
  have hget : Puts (bindTemp (txt "hmr_rt_get_header(msg, " ++ strLit hr.headerName ++ txt ")"))
      (Emission.bindTemp (.getHeader (.lit hr.headerName))) IsText := puts_bindTemp rfl
  refine .ite (fun _ => hget.bind fun _ _ ht => .pure ht) fun hneed => ?_
  have hmv : hr.matchValue.isEmpty = true := by
    cases h : hr.matchValue.isEmpty with
    | false => exact absurd (h ▸ rfl) hneed
    | true => rfl
  exact Puts.pure (R := IsFetched hr) (a := none) (b := none) hmv

/-- The text of the element. -/
def elementText (hv : Bytes) (elem : HmrUriElement) : Emit Bytes :=
  if elem = .whole then pure hv
  else bindTemp (txt "hmr_rt_uri_get(ctx, " ++ hv ++ txt ", " ++ uriEnum elem ++ txt ")")

/-- The value of the element, which is the header's where the element is the whole of it. -/
theorem elementText_puts {t : Bytes} {a : Arg} (h : IsText t a) (elem : HmrUriElement) :
    Puts (elementText t elem) (Emission.emitElementValue a elem) IsText := by
  rw [h]
  exact .ite (fun _ => .pure rfl) fun _ => puts_bindTemp rfl

/-- The text of the call in a guard. -/
def matchCall (cmp : ComparisonType) (mvt : MatchValType) (mv : Value) (subject : Bytes) :
    Emit Bytes :=
  let pattern := Meaning.patternOf mv
  let call (t : HmrMatchType) (id : Nat) : Bytes :=
    txt "hmr_rt_match(ctx, " ++ matchEnum t ++ txt ", " ++ subject ++ txt ", "
      ++ strLit pattern ++ txt ", " ++ uintLit id ++ txt ")"
  if Lowering.isPattern cmp then do
    let id ← addRegex pattern (Lowering.isCaseInsensitive cmp)
    pure (call .regex id)
  else pure (call (Meaning.literalMatch cmp mvt pattern) 0)

/-- The condition of the guard is the text of the call, and a regex is numbered on the way. -/
theorem matchCall_puts (cmp : ComparisonType) (mvt : MatchValType) (mv : Value) (subject : Arg) :
    Puts (matchCall cmp mvt mv (argText subject)) (Emission.matchCall cmp mvt mv subject)
      fun s c => s = callText c := by
  refine .ite (fun _ => ?_) fun _ => .pure rfl
  exact (puts_addRegex _ _).bind fun i i' h => h ▸ .pure rfl

/-- A guard that may fail is a call and a line around it. One that always holds puts out nothing. -/
theorem emitMatchGuard_eq (cmp : ComparisonType) (mvt : MatchValType) (mv : Value)
    (subject : Bytes) (h : Meaning.alwaysHolds mv = false) :
    CppGenerator.emitMatchGuard cmp mvt mv subject = (do
      let call ← matchCall cmp mvt mv subject
      line (txt "if (" ++ call ++ (if mv.negated then txt " != 0" else txt " == 0")
        ++ txt ") return false;")) := by
  unfold CppGenerator.emitMatchGuard matchCall
  rw [h]
  cases Lowering.isPattern cmp <;> rfl

/-! ### Actions -/

/-- **A header action** that does not reject. Neither emitter returns behind it.

The text emitter writes a call as a line, the emitter of instructions puts it as an instruction;
`hset`, `hadd`, `hdelete` and the rest say so of each call, whatever its operand, and the actions
are by cases made of them. A store has its header value handed down, or fetches it, in both
emitters alike (`IsFetched`). -/
theorem emitHeaderAction_puts_false (hr : HeaderRule) (idx : Nat) {hv : Option Bytes}
    {hv' : Option Arg} (h : IsFetched hr hv hv') (hne : hr.action ≠ .reject) :
    Puts (emitHeaderAction hr idx hv) (Emission.emitHeaderAction hr idx hv')
      fun a b => a = false ∧ b = false := by
  -- each call of the runtime once, whatever its operand is; then the actions by cases
  have hset {t : Bytes} {a : Arg} (ht : IsText t a) : Puts
      (line (txt "hmr_rt_set_header(msg, ctx, " ++ strLit hr.headerName ++ txt ", " ++ t
        ++ txt ");")) (Emission.call (.setHeader (.lit hr.headerName) a)) fun _ _ => True :=
    ht ▸ puts_call (semicolon _)
  have hadd {t : Bytes} {a : Arg} (ht : IsText t a) : Puts
      (line (txt "hmr_rt_add_header(msg, ctx, " ++ strLit hr.headerName ++ txt ", " ++ t
        ++ txt ");")) (Emission.call (.addHeader (.lit hr.headerName) a)) fun _ _ => True :=
    ht ▸ puts_call (semicolon _)
  have hdelete : Puts (line (txt "hmr_rt_delete_header(msg, " ++ strLit hr.headerName
      ++ txt ");")) (Emission.call (.deleteHeader (.lit hr.headerName))) fun _ _ => True :=
    puts_call (semicolon _)
  have hreplace : Puts
      (if !hr.newValue.isEmpty && hr.elementRules.isEmpty then do
        let v ← emitValue hr.newValue
        line (txt "hmr_rt_set_header(msg, ctx, " ++ strLit hr.headerName ++ txt ", " ++ v
          ++ txt ");")
        pure false
      else pure false)
      (if !hr.newValue.isEmpty && hr.elementRules.isEmpty then do
        let v ← Emission.emitValue hr.newValue
        Emission.call (.setHeader (.lit hr.headerName) v)
        pure false
      else pure false) fun a b => a = false ∧ b = false :=
    .ite (fun _ => (emitValue_puts _).bind fun _ _ ht => (hset ht).bind fun _ _ _ =>
      .pure ⟨rfl, rfl⟩) fun _ => .pure ⟨rfl, rfl⟩
  unfold emitHeaderAction Emission.emitHeaderAction
  cases ha : hr.action with
  | add =>
    exact (emitValue_puts _).bind fun _ _ ht => (hadd ht).bind fun _ _ _ => .pure ⟨rfl, rfl⟩
  | replace => exact hreplace
  | manipulate => exact hreplace
  | delete => exact hdelete.bind fun _ _ _ => .pure ⟨rfl, rfl⟩
  | deleteHeader => exact hdelete.bind fun _ _ _ => .pure ⟨rfl, rfl⟩
  | log =>
    refine (emitMessage_puts _ _).bind fun t a ht => ?_
    have hlog : Puts (line (txt "hmr_rt_log(ctx, " ++ t ++ txt ");")) (Emission.call (.log a))
        fun _ _ => True := ht ▸ puts_call (semicolon _)
    exact hlog.bind fun _ _ _ => .pure ⟨rfl, rfl⟩
  | store =>
    refine .ite (fun _ => ?_) fun _ => ?_
    · exact (emitGroups_puts _ _ _).bind fun _ _ _ => .pure ⟨rfl, rfl⟩
    · have hstore {t : Bytes} {a : Arg} (ht : IsText t a) (k : Nat) : Puts
          (line (txt "hmr_rt_store(ctx, " ++ uintLit k ++ txt ", " ++ t ++ txt ");"))
          (Emission.call (.store k a)) fun _ _ => True := ht ▸ puts_call (semicolon _)
      have hslot {t : Bytes} {a : Arg} (ht : IsText t a) : Puts
          (do
            let slot ← slotFor (Meaning.storeName hr idx)
            line (txt "hmr_rt_store(ctx, " ++ uintLit slot ++ txt ", " ++ t ++ txt ");")
            pure false)
          (do
            let slot ← Emission.slotFor (Meaning.storeName hr idx)
            Emission.call (.store slot a)
            pure false) fun a b => a = false ∧ b = false :=
        (puts_slotFor _).bind fun k k' hk => hk ▸ (hstore ht k).bind fun _ _ _ =>
          .pure ⟨rfl, rfl⟩
      -- both fetch the header value here, or both have it
      cases hv with
      | some t =>
        cases hv' with
        | some a => exact hslot h
        | none => exact h.elim
      | none =>
        cases hv' with
        | some a => exact h.elim
        | none =>
          have hget : Puts (bindTemp (txt "hmr_rt_get_header(msg, " ++ strLit hr.headerName
              ++ txt ")")) (Emission.bindTemp (.getHeader (.lit hr.headerName))) IsText :=
            puts_bindTemp rfl
          exact hget.bind fun _ _ ht => hslot ht
  | reject => exact absurd ha hne
  | _ => exact .pure ⟨rfl, rfl⟩

/-- What a reject puts out, up to its branch. -/
def emitReject (name : Bytes) (v : Value) : Emit Unit := do
  let t ← emitMessage name v
  line (txt "hmr_rt_reject(ctx, 403u, " ++ t ++ txt ");")
  pure ()

/-- Up to its branch, a reject is a call like any other. -/
theorem emitReject_puts (name : Bytes) (v : Value) : Puts (emitReject name v)
    (do
      let a ← Emission.emitMessage name v
      Emission.call (.reject 403 a)
      pure true) fun _ b => b = true := by
  refine (emitMessage_puts _ _).bind fun t a ht => ?_
  have hreject : Puts (line (txt "hmr_rt_reject(ctx, 403u, " ++ t ++ txt ");"))
      (Emission.call (.reject 403 a)) fun _ _ => True := ht ▸ puts_call (semicolon _)
  exact hreject.bind fun _ _ _ => .pure rfl

/-- **An element action** that does not reject: the same, but that the header is named by an
operand, and that a rewritten URI is an operand of its own between the two calls. -/
theorem emitElementAction_puts_false (hr : HeaderRule) (er : ElementRule) (elem : HmrUriElement)
    {nm hv ev : Bytes} {nm' hv' ev' : Arg} (hnm : IsText nm nm') (hhv : IsText hv hv')
    (hev : IsText ev ev') (hne : er.action ≠ .reject) :
    Puts (emitElementAction hr er elem nm hv ev)
      (Emission.emitElementAction hr er elem nm' hv' ev') fun a b => a = false ∧ b = false := by
  -- here the header is named by an operand, and not by a literal
  have hset {t : Bytes} {a : Arg} (ht : IsText t a) : Puts
      (line (txt "hmr_rt_set_header(msg, ctx, " ++ nm ++ txt ", " ++ t ++ txt ");"))
      (Emission.call (.setHeader nm' a)) fun _ _ => True :=
    hnm ▸ ht ▸ puts_call (semicolon _)
  have huri {t : Bytes} {a : Arg} (ht : IsText t a) : Puts
      (bindTemp (txt "hmr_rt_uri_set(ctx, " ++ hv ++ txt ", " ++ uriEnum elem ++ txt ", "
        ++ t ++ txt ")")) (Emission.bindTemp (.uriSet hv' elem a)) IsText :=
    hhv ▸ ht ▸ puts_bindTemp rfl
  have hdelete : Puts (line (txt "hmr_rt_delete_header(msg, " ++ nm ++ txt ");"))
      (Emission.call (.deleteHeader nm')) fun _ _ => True := hnm ▸ puts_call (semicolon _)
  unfold emitElementAction Emission.emitElementAction
  cases ha : er.action with
  | replace =>
    refine (emitValue_puts _).bind fun t a ht => .ite (fun _ => ?_) fun _ => ?_
    · exact (hset ht).bind fun _ _ _ => .pure ⟨rfl, rfl⟩
    · exact (huri ht).bind fun _ _ hn => (hset hn).bind fun _ _ _ => .pure ⟨rfl, rfl⟩
  | deleteElement =>
    refine .ite (fun _ => ?_) fun _ => ?_
    · exact hdelete.bind fun _ _ _ => .pure ⟨rfl, rfl⟩
    · have hempty : IsText (strLit []) (.lit []) := rfl
      exact (huri hempty).bind fun _ _ hn => (hset hn).bind fun _ _ _ => .pure ⟨rfl, rfl⟩
  | store =>
    refine (puts_slotFor _).bind fun k k' hk => ?_
    have hstore : Puts (line (txt "hmr_rt_store(ctx, " ++ uintLit k ++ txt ", " ++ ev
        ++ txt ");")) (Emission.call (.store k' ev')) fun _ _ => True :=
      hk ▸ hev ▸ puts_call (semicolon _)
    exact hstore.bind fun _ _ _ => .pure ⟨rfl, rfl⟩
  | reject => exact absurd ha hne
  | _ => exact .pure ⟨rfl, rfl⟩

/-! ## Statements -/

/-- **What one puts out is the text of the statements the other does**, in lines of the
indentation `n`. -/
def Renders (n : Nat) (x : Emit α) (y : CppM β) (R : α → β → Prop) : Prop :=
  ∀ e s, e.indent = n → Same e s.numbers → ∃ b, (y s).2.body = s.body.append b
    ∧ (x e).2.body = e.body ++ b.lines n
    ∧ (x e).2.indent = n ∧ Same (x e).2 (y s).2.numbers ∧ R (x e).1 (y s).1

namespace Renders

/-- Nothing is put out. -/
theorem pure {a : α} {b : β} (h : R a b) : Renders n (Pure.pure a) (Pure.pure b) R :=
  fun _ _ hn hes => ⟨.done, (Body.append_done _).symm, (List.append_nil _).symm, hn, hes, h⟩

/-- **The rule of sequence**, for bodies. -/
theorem bind {x : Emit α} {y : CppM β} {R : α → β → Prop} {f : α → Emit γ} {g : β → CppM δ}
    {R' : γ → δ → Prop} (hx : Renders n x y R)
    (hf : ∀ a b, R a b → Renders n (f a) (g b) R') : Renders n (x >>= f) (y >>= g) R' := by
  intro e s hn hes
  obtain ⟨b, hb, hbody, hindent, hsame, hr⟩ := hx e s hn hes
  obtain ⟨b', hb', hbody', hindent', hsame', hr'⟩ := hf _ _ hr _ _ hindent hsame
  refine ⟨b.append b', ?_, ?_, hindent', hsame', hr'⟩
  · rw [← Body.append_assoc, ← hb]
    exact hb'
  · rw [Body.lines_append, ← List.append_assoc, ← hbody]
    exact hbody'

/-- Both branches of a condition that both emitters ask. -/
theorem ite {c : Prop} [Decidable c] {x x' : Emit α} {y y' : CppM β} {R : α → β → Prop}
    (hx : c → Renders n x y R) (hy : ¬ c → Renders n x' y' R) :
    Renders n (if c then x else x') (if c then y else y') R := by
  split
  · exact hx ‹_›
  · exact hy ‹_›

end Renders

/-- Straight-line code, as a piece of a body. Its lines are printed at the indentation of the
body. -/
theorem Puts.renders {x : Emit α} {y : CodeM β} {R : α → β → Prop} (h : Puts x y R) :
    Renders n x (inline y) R := by
  intro e s hn hes
  obtain ⟨is, his, hbody, hindent, hsame, hr⟩ := h e ⟨s.numbers, []⟩ hes
  refine ⟨.ofInstrs is, ?_, ?_, hindent.trans hn, hsame, hr⟩
  · exact congrArg (fun l => s.body.append (.ofInstrs l)) his
  · rw [Body.lines_ofInstrs, ← hn]
    exact hbody

/-- A statement of one line. -/
theorem renders_put {t : Bytes} {b : Body} (h : b.lines n = [.code n t]) :
    Renders n (line t) (put b) fun _ _ => True := by
  intro e s hn hes
  refine ⟨b, rfl, ?_, hn, ⟨hes.1, hes.2, hes.3⟩, trivial⟩
  rw [h, ← hn]
  rfl

/-- A return is one line. -/
theorem renders_ret (v : Bool) :
    Renders n (line (if v then txt "return true;" else txt "return false;")) (put (.ret v .done))
      fun _ _ => True := renders_put rfl

/-- The guard by match-value. Where it always holds, neither puts out anything. -/
theorem emitMatchGuard_renders (cmp : ComparisonType) (mvt : MatchValType) (mv : Value)
    {t : Bytes} {a : Arg} (h : Meaning.alwaysHolds mv = false → IsText t a) :
    Renders n (CppGenerator.emitMatchGuard cmp mvt mv t) (emitMatchGuard cmp mvt mv a)
      fun _ _ => True := by
  cases hh : Meaning.alwaysHolds mv with
  | true =>
    unfold CppGenerator.emitMatchGuard emitMatchGuard
    rw [if_pos hh, if_pos hh]
    exact .pure trivial
  | false =>
    have hy : emitMatchGuard cmp mvt mv a = (do
        let call ← inline (Emission.matchCall cmp mvt mv a)
        put (.failIf (.call call mv.negated) .done)) := by
      unfold emitMatchGuard
      rw [hh]
      rfl
    rw [emitMatchGuard_eq _ _ _ _ hh, hy, h hh]
    refine (matchCall_puts cmp mvt mv a).renders.bind fun s c hs => ?_
    exact hs ▸ renders_put rfl

/-- An action that returns nothing has no branch. -/
theorem branch_renders_of_false {x : Emit Bool} {y : CodeM Bool}
    (h : Puts x y fun a b => a = false ∧ b = false) : Renders n x (branch y) Eq := by
  show Renders n (x >>= Pure.pure) (branch y) Eq
  refine h.renders.bind ?_
  rintro _ _ ⟨rfl, rfl⟩
  exact .pure rfl

/-- An action that ends the lambda has the branch that returns, and nothing is put out behind it. -/
theorem branch_renders_of_true {x : Emit Unit} {y : CodeM Bool} (h : Puts x y fun _ b => b = true) :
    Renders n (do
        x
        line (txt "return true;")
        pure true) (branch y) Eq := by
  refine h.renders.bind ?_
  rintro _ _ rfl
  exact (renders_ret true).bind fun _ _ _ => .pure rfl

/-- The header action, with the branch of a reject. -/
theorem emitHeaderAction_renders (hr : HeaderRule) (idx : Nat) {hv : Option Bytes}
    {hv' : Option Arg} (h : IsFetched hr hv hv') : Renders n (emitHeaderAction hr idx hv)
      (branch (Emission.emitHeaderAction hr idx hv')) Eq := by
  by_cases ha : hr.action = .reject
  · have ht : emitHeaderAction hr idx hv = (do
        emitReject hr.name hr.newValue
        line (txt "return true;")
        pure true) := by
      unfold emitHeaderAction
      rw [ha]
      rfl
    rw [ht]
    refine branch_renders_of_true ?_
    unfold Emission.emitHeaderAction
    rw [ha]
    exact emitReject_puts _ _
  · exact branch_renders_of_false (emitHeaderAction_puts_false hr idx h ha)

/-- The element action, with the branch of a reject. -/
theorem emitElementAction_renders (hr : HeaderRule) (er : ElementRule) (elem : HmrUriElement)
    {nm hv ev : Bytes} {nm' hv' ev' : Arg} (hnm : IsText nm nm') (hhv : IsText hv hv')
    (hev : IsText ev ev') : Renders n (emitElementAction hr er elem nm hv ev)
      (branch (Emission.emitElementAction hr er elem nm' hv' ev')) Eq := by
  by_cases ha : er.action = .reject
  · have ht : emitElementAction hr er elem nm hv ev = (do
        emitReject er.name er.newValue
        line (txt "return true;")
        pure true) := by
      unfold emitElementAction
      rw [ha]
      rfl
    rw [ht]
    refine branch_renders_of_true ?_
    unfold Emission.emitElementAction
    rw [ha]
    exact emitReject_puts _ _
  · exact branch_renders_of_false (emitElementAction_puts_false hr er elem hnm hhv hev ha)

/-! ### Lambdas -/

/-- The lines of a lambda, but for the last one. -/
def opened (note : Bytes) (x : Emit Unit) : Emit Unit := do
  comment note
  openBlock ifLambda
  x

/-- **A lambda, up to the line that closes it**: the note, the line that opens it, and the lines
of what is in it, one step further in. -/
theorem lambda_lines {note : Bytes} {x : Emit Unit} {y : CppM Unit}
    (h : Renders (n + 1) x y fun _ _ => True) (e : CppEmitter) (s : State) (hn : e.indent = n)
    (hes : Same e s.numbers) : ∃ b, (lambda note y s).2.body = s.body.append (.lambda note b .done)
      ∧ (opened note x e).2.body
        = e.body ++ (.comment n note :: .code n ifLambda :: b.lines (n + 1))
      ∧ (opened note x e).2.indent = n + 1
      ∧ Same (opened note x e).2 (lambda note y s).2.numbers := by
  obtain ⟨b, hb, hbody, hindent, hsame, -⟩ := h
    { e with body := e.body ++ [.comment e.indent note] ++ [.code e.indent ifLambda]
             indent := e.indent + 1 }
    { s with body := .done } (congrArg Nat.succ hn) ⟨hes.1, hes.2, hes.3⟩
  refine ⟨b, ?_, ?_, hindent, hsame⟩
  · exact congrArg (fun c => s.body.append (.lambda note c .done)) hb
  · refine hbody.trans ?_
    rw [hn]
    simp only [List.append_assoc, List.cons_append, List.nil_append]

/-- The lambda of an element rule. -/
theorem lambda_renders (hn : n ≠ 1) (note : Bytes) {x : Emit Unit} {y : CppM Unit}
    (h : Renders (n + 1) x y fun _ _ => True) :
    Renders n (do
        opened note x
        closeBlock (txt "\x7d()) return true;")) (lambda note y) fun _ _ => True := by
  intro e s hn' hes
  obtain ⟨b, hb, hbody, hindent, hsame⟩ := lambda_lines h e s hn' hes
  refine ⟨_, hb, ?_, ?_, ⟨hsame.1, hsame.2, hsame.3⟩, trivial⟩
  · show (opened note x e).2.body ++ [.code ((opened note x e).2.indent - 1) _] = _
    rw [hbody, hindent, Body.lines, if_neg hn, closeText, if_neg hn]
    simp only [Body.lines, List.append_assoc, List.cons_append, List.append_nil,
      Nat.add_sub_cancel]
  · show (opened note x e).2.indent - 1 = n
    rw [hindent, Nat.add_sub_cancel]

/-- The lambda of a header rule. -/
theorem lambda_renders_one (note : Bytes) {x : Emit Unit} {y : CppM Unit}
    (h : Renders 2 x y fun _ _ => True) :
    Renders 1 (do
        opened note x
        closeBlock (txt "\x7d()) return HMR_REJECTED;")
        blank) (lambda note y) fun _ _ => True := by
  intro e s hn' hes
  obtain ⟨b, hb, hbody, hindent, hsame⟩ := lambda_lines h e s hn' hes
  refine ⟨_, hb, ?_, ?_, ⟨hsame.1, hsame.2, hsame.3⟩, trivial⟩
  · show (opened note x e).2.body ++ [.code ((opened note x e).2.indent - 1) _] ++ [_] = _
    rw [hbody, hindent, Body.lines, if_pos rfl, closeText, if_pos rfl]
    simp only [Body.lines, List.append_assoc, List.cons_append, List.append_nil, List.nil_append,
      Nat.add_sub_cancel]
  · show (opened note x e).2.indent - 1 = 1
    rw [hindent]

/-! ### Rules -/

/-- What is behind a conditional is behind each of its branches. -/
theorem ite_bind {c : Prop} [Decidable c] (x y : Emit α) (f : α → Emit β) :
    (if c then x else y) >>= f = if c then x >>= f else y >>= f :=
  apply_ite (· >>= f) c x y

/-- What is in the lambda of an element rule. -/
def elementLines (hr : HeaderRule) (nm : Bytes) (er : ElementRule) (elem : HmrUriElement) :
    Emit Unit := do
  let hv ← bindTemp (txt "hmr_rt_get_header(msg, " ++ nm ++ txt ")")
  let ev ← elementText hv elem
  CppGenerator.emitMatchGuard er.comparison er.matchValType er.matchValue ev
  let terminated ← emitElementAction hr er elem nm hv ev
  if terminated then pure () else line (txt "return false;")

/-- The text of an element rule, regrouped: what is in the lambda, and the line that closes it. -/
theorem emitElement_eq (hr : HeaderRule) (nm : Bytes) (er : ElementRule) (elem : HmrUriElement) :
    CppGenerator.emitElement hr nm er elem = (do
      opened (elementNote er) (elementLines hr nm er elem)
      closeBlock (txt "\x7d()) return true;")) := by
  simp only [CppGenerator.emitElement, opened, elementLines, elementText, bind_assoc, ite_bind,
    pure_bind]

/-- An element rule is a lambda. It is at the second indentation, inside the lambda of its header
rule. -/
theorem emitElement_renders (hr : HeaderRule) {nm : Bytes} {nm' : Arg} (h : IsText nm nm')
    (er : ElementRule) (elem : HmrUriElement) :
    Renders 2 (CppGenerator.emitElement hr nm er elem) (emitElement hr nm' er elem)
      fun _ _ => True := by
  rw [emitElement_eq]
  refine lambda_renders (Nat.succ_ne_self 1) (elementNote er) ?_
  have hget : Puts (bindTemp (txt "hmr_rt_get_header(msg, " ++ nm ++ txt ")"))
      (Emission.bindTemp (.getHeader nm')) IsText := h ▸ puts_bindTemp rfl
  refine hget.renders.bind fun hv hv' hhv => ?_
  refine (elementText_puts hhv elem).renders.bind fun ev ev' hev => ?_
  refine (emitMatchGuard_renders _ _ _ fun _ => hev).bind fun _ _ _ => ?_
  refine (emitElementAction_renders hr er elem h hhv hev).bind ?_
  rintro _ terminated rfl
  exact .ite (fun _ => .pure trivial) fun _ => renders_ret false

/-- Element rules one after the other; those without an element leave no text. -/
theorem emitElements_renders (hr : HeaderRule) {nm : Bytes} {nm' : Arg} (h : IsText nm nm')
    (ers : List ElementRule) :
    Renders 2 (CppGenerator.emitElements hr nm ers) (emitElements hr nm' ers)
      fun _ _ => True := by
  induction ers with
  | nil => exact .pure trivial
  | cons er ers ih =>
    unfold CppGenerator.emitElements emitElements
    cases Lowering.uriElement er.type with
    | none => exact ih
    | some elem => exact (emitElement_renders hr h er elem).bind fun _ _ _ => ih

/-- The element rules of a header rule share the temporary with its name. -/
theorem emitElementRules_renders (hr : HeaderRule) :
    Renders 2 (CppGenerator.emitElementRules hr) (emitElementRules hr) fun _ _ => True := by
  exact (puts_nameTemp _).renders.bind fun _ _ h => emitElements_renders hr h _

/-- The guard by message type is one line, or none. -/
theorem emitMsgTypeGuard_renders (hr : HeaderRule) :
    Renders n (CppGenerator.emitMsgTypeGuard hr) (emitMsgTypeGuard hr) fun _ _ => True := by
  unfold CppGenerator.emitMsgTypeGuard emitMsgTypeGuard
  cases hr.msgType with
  | request => exact renders_put rfl
  | reply => exact renders_put rfl
  | _ => exact .pure trivial

/-- The guard by method is one line for all the methods. -/
theorem emitMethodGuard_renders (hr : HeaderRule) :
    Renders n (CppGenerator.emitMethodGuard hr) (emitMethodGuard hr) fun _ _ => True := by
  refine .ite (fun _ => ?_) fun _ => .pure trivial
  have hget : Puts (bindTemp (txt "hmr_rt_get_method(msg)")) (Emission.bindTemp .getMethod)
      IsText := puts_bindTemp rfl
  refine hget.renders.bind fun t a h => ?_
  have hopen : txt "if (!(" = txt "if (" ++ txt "!(" := rfl
  have hclose : txt ")) return false;" = txt ")" ++ txt ") return false;" := rfl
  rw [h, hopen, hclose]
  refine renders_put ?_
  simp only [Body.lines, Cond.text, List.append_assoc]

/-- What is in the lambda of a header rule. -/
def headerLines (hr : HeaderRule) (idx : Nat) : Emit Unit := do
  CppGenerator.emitMsgTypeGuard hr
  CppGenerator.emitMethodGuard hr
  let hv ← emitFetch hr
  CppGenerator.emitMatchGuard hr.comparison .any hr.matchValue (hv.getD [])
  let terminated ← emitHeaderAction hr idx hv
  if !terminated && !hr.elementRules.isEmpty then CppGenerator.emitElementRules hr
  if terminated then pure () else line (txt "return false;")

/-- The text of a header rule, regrouped in the same way, with the blank line behind it. -/
theorem emitHeaderRule_eq (hr : HeaderRule) (idx : Nat) :
    CppGenerator.emitHeaderRule hr idx = (do
      opened (headerNote hr idx) (headerLines hr idx)
      closeBlock (txt "\x7d()) return HMR_REJECTED;")
      blank) := by
  simp only [CppGenerator.emitHeaderRule, opened, headerLines, bind_assoc, ite_bind, pure_bind]

/-- **A header rule is a lambda**, at the first indentation. -/
theorem emitHeaderRule_renders (hr : HeaderRule) (idx : Nat) :
    Renders 1 (CppGenerator.emitHeaderRule hr idx) (emitHeaderRule hr idx) fun _ _ => True := by
  rw [emitHeaderRule_eq]
  refine lambda_renders_one (headerNote hr idx) ?_
  refine (emitMsgTypeGuard_renders hr).bind fun _ _ _ => ?_
  refine (emitMethodGuard_renders hr).bind fun _ _ _ => ?_
  refine (emitFetch_puts hr).renders.bind fun hv hv' hhv => ?_
  -- a match-value that is looked at is one for which the header is fetched
  have hsubject (hmv : Meaning.alwaysHolds hr.matchValue = false) :
      IsText (hv.getD []) (hv'.getD (.lit [])) := by
    cases hv with
    | some t =>
      cases hv' with
      | some a => exact hhv
      | none => exact hhv.elim
    | none =>
      cases hv' with
      | some a => exact hhv.elim
      | none =>
        have hempty : hr.matchValue.isEmpty = true := hhv
        rw [Meaning.alwaysHolds, hempty] at hmv
        cases hmv
  refine (emitMatchGuard_renders _ _ _ hsubject).bind fun _ _ _ => ?_
  refine (emitHeaderAction_renders hr idx hhv).bind ?_
  rintro terminated _ rfl
  have hret : Renders 2 (if terminated then pure () else line (txt "return false;"))
      (if terminated then pure () else put (.ret false .done)) fun _ _ => True :=
    .ite (fun _ => .pure trivial) fun _ => renders_ret false
  exact .ite (fun _ => (emitElementRules_renders hr).bind fun _ _ _ => hret) fun _ => hret

/-- The header rules from one on. -/
theorem emitRules_renders (idx : Nat) (rules : List HeaderRule) :
    Renders 1 (CppGenerator.emitRules idx rules) (emitRules idx rules) fun _ _ => True := by
  induction rules generalizing idx with
  | nil => exact .pure trivial
  | cons hr rules ih => exact (emitHeaderRule_renders hr idx).bind fun _ _ _ => ih (idx + 1)

/-- The lines are the text of the program, -/
theorem body_emitted (rs : Ruleset) :
    (CppGenerator.emitted rs).body = (emitted rs).body.lines 1 := by
  obtain ⟨b, hb, hbody, -⟩ := emitRules_renders 0 rs.headerRules {} {} rfl ⟨rfl, rfl, rfl⟩
  have hdone : (emitted rs).body = b := hb
  rw [hdone]
  exact hbody

/-- and the numbers in them are its numbers. -/
theorem same_emitted (rs : Ruleset) : Same (CppGenerator.emitted rs) (emitted rs).numbers := by
  obtain ⟨b, -, -, -, hsame, -⟩ := emitRules_renders 0 rs.headerRules {} {} rfl ⟨rfl, rfl, rfl⟩
  exact hsame

/-- **The body of the generated C++ is the text of the program**, and the tables in it are
the ones the program goes by. -/
theorem lines_emitted (rs : Ruleset) :
    (CppGenerator.emitted rs).body = (emitted rs).body.lines 1
      ∧ Same (CppGenerator.emitted rs) (emitted rs).numbers :=
  ⟨body_emitted rs, same_emitted rs⟩

end CppProgram

end Hmr
