import Hmr.Interpreter
import Hmr.Keys

/-!
# The interpreter runs the program of its ruleset

The interpreter walks its ruleset twice, with one piece of code. In its constructor it
walks with tables that still grow, a null message and a null context, so that every regex
and every slot gets its number; `apply` walks with the tables frozen. Two things are to be
shown of these walks.

The scan numbers the keys of the ruleset, in their order (`Interpreter.symbols_tables`).
`Scans` says of a piece of the walk which keys it numbers, and what is known of its
result: while the tables grow, every guard lets pass and nothing is rejected, so that no
branch of a rule is left out. The key lists of `Meaning` are those of the program,
whatever the packet; that the two agree is the case analysis of the second half of this
file.

And `apply` makes the calls of the ruleset's program, with those numbers put in
(`Interpreter.apply_eq`). This is a statement about walks that carry tables and intern
strings on the way, and which look a key up wherever they come to it, and so it is made
relative to what a walk is continued with: `Lowers` says that continuing the walk is
continuing the program. A step that only looks a key up, or interns, makes no call and
vanishes from the program (`Lowers.silent`).

Both are proved in the order of the source, one lemma a function, and every lemma is put
together from those of the functions that are called.
-/

namespace Hmr

/-- What the tables have numbered. -/
def Tables.symbols (t : Tables) : SymbolTable := ⟨t.regexes, t.slots⟩

namespace Interpreter

variable {st : SymbolTable} {α β : Type}

/-! ## The frozen walk -/

/-- The tables are frozen with these numbers. -/
def Frozen (st : SymbolTable) (t : Tables) : Prop := t.frozen = true ∧ t.symbols = st

/-- **A walk over frozen tables makes the calls of a program**, with the
numbers put in: however the two are continued, as long as the continuation
looks at the numbers only. -/
def Lowers (st : SymbolTable) (x : InterpM α) (p : SymProg α) : Prop :=
  ∀ t, Frozen st t → ∀ {β : Type} (k : α × Tables → RtProg Nat Nat β)
    (k' : α → RtProg Nat Nat β), (∀ a t', Frozen st t' → k (a, t') = k' a) →
      x t >>= k = p.mapCalls st.resolve >>= k'

/-- A walk that returns at once makes the calls of a program that does. -/
theorem lowers_pure (a : α) : Lowers st (pure a) (pure a) :=
  fun t ht _ _ _ hk => hk a t ht

/-- **The rule of sequence**: walks one after the other make the calls of the programs one after
the other. It is for this rule that a walk is followed together with its continuation. -/
theorem Lowers.bind {x : InterpM α} {p : SymProg α} {f : α → InterpM β}
    {q : α → SymProg β} (hx : Lowers st x p) (hf : ∀ a, Lowers st (f a) (q a)) :
    Lowers st (x >>= f) (p >>= q) := by
  intro t ht γ k k' hk
  have := hx t ht (fun r => f r.1 r.2 >>= k) (fun a => (q a).mapCalls st.resolve >>= k')
    (fun a t' ht' => hf a t' ht' k k' hk)
  rw [Prog.mapCalls_bind, bind_assoc]
  refine Eq.trans ?_ this
  show (x t >>= fun r => f r.1 r.2) >>= k = _
  rw [bind_assoc]

/-- A call, with the numbers put in. -/
theorem lowers_call {i : RetTy} {c : SymCall i} {c' : RtCall Bytes Nat Nat i}
    (hc : st.resolve i c = c') : Lowers st (rt c') (Meaning.callProg i c) := by
  subst hc
  exact fun t ht _ _ _ hk => congrArg (Prog.call _) (funext fun r => hk r t ht)

/-- A step of the walk that makes no call and leaves the numbers alone. -/
theorem Lowers.silent {x : InterpM α} {a : α}
    (hx : ∀ t, Frozen st t → ∃ t', x t = pure (a, t') ∧ Frozen st t')
    {f : α → InterpM β} {q : SymProg β} (hf : Lowers st (f a) q) :
    Lowers st (x >>= f) q := by
  intro t ht γ k k' hk
  obtain ⟨t', hxt, ht'⟩ := hx t ht
  show (x t >>= fun r => f r.1 r.2) >>= k = _
  rw [hxt, pure_bind]
  exact hf t' ht' k k' hk

/-- Interning changes the set of interned strings, which nothing looks at, and returns the string
as a 32-bit view. -/
theorem intern_silent (s : Bytes) (t : Tables) (ht : Frozen st t) :
    ∃ t', intern s t = pure (clip s, t') ∧ Frozen st t' := by
  unfold intern
  split
  · exact ⟨t, rfl, ht⟩
  · exact ⟨_, rfl, ht⟩

/-- With the tables frozen, a slot's number is looked up; a name that has none gets the number
behind all slots, and the runtime ignores calls for it. -/
theorem slotFor_silent (name : Bytes) (t : Tables) (ht : Frozen st t) :
    ∃ t', slotFor name t = pure (st.slotId name, t') ∧ Frozen st t' := by
  obtain ⟨hf, rfl⟩ := ht
  refine ⟨t, ?_, hf, rfl⟩
  unfold slotFor SymbolTable.slotId
  show _ = pure ((t.slots.idxOf? name).getD 0, t)
  cases t.slots.idxOf? name with
  | some i => rfl
  | none => exact if_pos hf

/-- The same for a regex, which is a pattern together with its case flag. -/
theorem addRegex_silent (p : Bytes) (ci : Bool) (t : Tables) (ht : Frozen st t) :
    ∃ t', addRegex p ci t = pure (st.regexId (some (p, ci)), t') ∧ Frozen st t' := by
  obtain ⟨hf, rfl⟩ := ht
  refine ⟨t, ?_, hf, rfl⟩
  unfold addRegex SymbolTable.regexId
  show _ = pure ((t.regexes.idxOf? (p, ci)).getD 0, t)
  cases t.regexes.idxOf? (p, ci) with
  | some i => rfl
  | none => exact if_pos hf

/-- Interning at the end of a walk. -/
theorem lowers_intern (s : Bytes) : Lowers st (intern s) (pure (clip s)) := by
  have : Lowers st _ _ := Lowers.silent (intern_silent s) (lowers_pure (clip s))
  rwa [bind_pure] at this

/-- Both branches of a condition that does not depend on the tables. -/
theorem lowers_ite {c : Prop} [Decidable c] {x y : InterpM α} {p q : SymProg α}
    (hx : c → Lowers st x p) (hy : ¬ c → Lowers st y q) :
    Lowers st (if c then x else y) (if c then p else q) := by
  split
  · exact hx ‹_›
  · exact hy ‹_›

/-- A reference, by its kind: a call for a variable or a capture, and for a rule's slot a look-up
and a call. -/
theorem evalRef_lowers (r : ValueRef) :
    Lowers st (evalRef r) (Meaning.refValue Meaning.callProg r) := by
  unfold evalRef Meaning.refValue
  cases r.kind with
  | «variable» => exact lowers_call rfl
  | capture => exact lowers_call rfl
  | ruleRef => exact Lowers.silent (slotFor_silent _) (lowers_call rfl)

/-- A segment of a value that has several: the same, but into the scratch buffer. -/
theorem appendSegment_lowers (s : ValueSegment) :
    Lowers st (appendSegment s) (Meaning.appendSegment Meaning.callProg s) := by
  cases s with
  | literal text =>
    exact lowers_ite (fun _ => lowers_pure _)
      (fun _ => Lowers.silent (intern_silent text) (lowers_call rfl))
  | ref r =>
    unfold appendSegment Meaning.appendSegment
    dsimp only
    cases r.kind with
    | «variable» => exact lowers_call rfl
    | capture => exact lowers_call rfl
    | ruleRef => exact Lowers.silent (slotFor_silent _) (lowers_call rfl)

/-- The segments of a value, one behind the other. -/
theorem appendSegments_lowers (segs : List ValueSegment) :
    Lowers st (appendSegments segs) (Meaning.appendSegments Meaning.callProg segs) := by
  induction segs with
  | nil => exact lowers_pure _
  | cons s segs ih => exact (appendSegment_lowers s).bind fun _ => ih

/-- A value. One that is a literal is interned, one that is a single reference is the reference,
and only the rest is built in the scratch buffer. -/
theorem evalValue_lowers (v : Value) :
    Lowers st (evalValue v) (Meaning.value Meaning.callProg v) := by
  refine lowers_ite (fun _ => lowers_intern []) (fun _ => ?_)
  refine lowers_ite (fun _ => lowers_intern _) (fun _ => ?_)
  cases v.singleRef? with
  | some r => exact evalRef_lowers r
  | none =>
    dsimp only
    refine (lowers_call (c := .valReset) rfl).bind fun _ => ?_
    exact (appendSegments_lowers v.segments).bind fun _ => lowers_call rfl

/-- The text of a log or a reject, and what is done with it. -/
theorem message_lowers (name : Bytes) (v : Value) {f : Bytes → InterpM β}
    {q : Bytes → SymProg β} (hf : ∀ a, Lowers st (f a) (q a)) :
    Lowers st (if v.isEmpty then intern name >>= f else evalValue v >>= f)
      (Meaning.message Meaning.callProg name v >>= q) := by
  unfold Meaning.message
  cases v.isEmpty with
  | true => exact (lowers_intern name).bind hf
  | false => exact (evalValue_lowers v).bind hf

/-- **The guard by match-value**: no call where there is nothing to match, one search for a
regex, one comparison else. Both sides branch on the rule alone, and a pattern that is numbered
here is the one that is named there. -/
theorem evalMatchGuard_lowers (cmp : ComparisonType) (mvt : MatchValType) (mv : Value)
    (s : Bytes) :
    Lowers st (evalMatchGuard cmp mvt mv s)
      (Meaning.guard Meaning.callProg cmp mvt mv s) := by
  have hal : Meaning.alwaysHolds mv
      = (mv.isEmpty || (!mv.isRegexLiteral && !mv.isPureLiteral)) := rfl
  unfold evalMatchGuard Meaning.guard
  cases he : mv.isEmpty with
  | true =>
    rw [he, Bool.true_or] at hal
    rw [if_pos rfl, if_pos hal]
    exact lowers_pure _
  | false =>
    rw [he, Bool.false_or] at hal
    rw [if_neg Bool.false_ne_true, ← hal]
    refine lowers_ite (fun _ => lowers_pure _) (fun _ => ?_)
    show Lowers st _ (Meaning.callProg _ (Meaning.matchCall cmp mvt mv s) >>= _)
    unfold Meaning.matchCall
    dsimp only
    cases hp : Lowering.isPattern cmp with
    | true =>
      rw [if_pos rfl, if_pos rfl]
      refine Lowers.silent (addRegex_silent _ _) ?_
      rw [pure_bind]
      refine Lowers.silent (intern_silent _) ?_
      exact (lowers_call (c := .hmrMatch .regex s (clip (Meaning.patternOf mv))
        (some (Meaning.patternOf mv, Lowering.isCaseInsensitive cmp))) rfl).bind fun _ =>
        lowers_pure _
    | false =>
      rw [if_neg Bool.false_ne_true, if_neg Bool.false_ne_true, pure_bind]
      refine Lowers.silent (intern_silent _) ?_
      exact (lowers_call (c := .hmrMatch (Meaning.literalMatch cmp mvt (Meaning.patternOf mv)) s
        (clip (Meaning.patternOf mv)) none) rfl).bind fun _ => lowers_pure _

/-- The groups of a match, from one group on, each into the slot of its key. -/
theorem storeGroups_lowers (rule : Bytes) (n g : Nat) :
    Lowers st (storeGroups rule n g)
      (Meaning.storeGroups Meaning.callProg (Meaning.storeAt Meaning.callProg rule) n g) := by
  induction n generalizing g with
  | zero => exact lowers_pure _
  | succ n ih =>
    refine Lowers.silent (slotFor_silent _) ?_
    refine (lowers_call (c := .getCapture g) rfl).bind fun cap => ?_
    exact (lowers_call (c := .store (Lowering.captureSlotKey rule g) cap) rfl).bind fun _ =>
      ih (g + 1)

/-- **The header action, by its kind.** A store has the value of the header it has fetched, which
is what `hs` asks for; the other actions do without one. Interning a string and looking a slot up
make no call, so what is left of an action are the calls the program of the rule makes. -/
theorem runHeaderAction_lowers (hr : HeaderRule) (idx : Nat) (hv : Option Bytes)
    (hs : hr.action = .store → hv.isSome = true) :
    Lowers st (runHeaderAction hr idx hv)
      (Meaning.headerAction Meaning.callProg (Meaning.store Meaning.callProg idx) hr
        (hv.getD [])) := by
  unfold runHeaderAction Meaning.headerAction
  refine Lowers.silent (intern_silent _) ?_
  have hset : Lowers st
      (if !hr.newValue.isEmpty && hr.elementRules.isEmpty then do
        let v ← evalValue hr.newValue
        rt (.setHeader (clip hr.headerName) v)
        pure false
      else pure false)
      (if !hr.newValue.isEmpty && hr.elementRules.isEmpty then do
        let v ← Meaning.value Meaning.callProg hr.newValue
        Meaning.callProg _ (.setHeader (clip hr.headerName) v)
        pure false
      else pure false) := by
    refine lowers_ite (fun _ => ?_) (fun _ => lowers_pure _)
    refine (evalValue_lowers _).bind fun v => ?_
    exact (lowers_call (c := .setHeader (clip hr.headerName) v) rfl).bind fun _ => lowers_pure _
  have hdelete : Lowers st (do
        rt (.deleteHeader (clip hr.headerName))
        pure false) (do
        Meaning.callProg _ (.deleteHeader (clip hr.headerName))
        pure false) :=
    (lowers_call (c := .deleteHeader (clip hr.headerName)) rfl).bind fun _ => lowers_pure _
  -- Interning a string and looking a slot up make no call, so what is left are the calls of the
  -- program.
  cases ha : hr.action with
  | add =>
    refine (evalValue_lowers _).bind fun v => ?_
    exact (lowers_call (c := .addHeader (clip hr.headerName) v) rfl).bind fun _ => lowers_pure _
  | replace => exact hset
  | manipulate => exact hset
  | delete => exact hdelete
  | deleteHeader => exact hdelete
  | store =>
    obtain ⟨v, rfl⟩ := Option.isSome_iff_exists.mp (hs ha)
    dsimp only
    unfold Meaning.store Meaning.storeAction
    cases hp : Lowering.isPattern hr.comparison with
    | true =>
      rw [if_pos rfl, if_pos rfl]
      exact (storeGroups_lowers _ _ _).bind fun _ => lowers_pure _
    | false =>
      rw [if_neg Bool.false_ne_true, if_neg Bool.false_ne_true]
      refine Lowers.silent (slotFor_silent _) ?_
      rw [pure_bind]
      exact (lowers_call (c := .store (Meaning.storeName hr idx) v) rfl).bind
        fun _ => lowers_pure _
  | log =>
    refine message_lowers _ _ fun v => ?_
    exact (lowers_call (c := .log v) rfl).bind fun _ => lowers_pure _
  | reject =>
    refine message_lowers _ _ fun v => ?_
    exact (lowers_call (c := .reject 403 v) rfl).bind fun _ => lowers_pure _
  | _ => exact lowers_pure _

/-- The element action, by its kind. -/
theorem runElementAction_lowers (hr : HeaderRule) (er : ElementRule) (elem : HmrUriElement)
    (hv ev : Bytes) :
    Lowers st (runElementAction hr er (clip hr.headerName) elem hv ev false)
      (Meaning.elementAction Meaning.callProg hr er elem hv ev) := by
  have hset : ∀ v, Lowers st (do
        rt (.setHeader (clip hr.headerName) v)
        pure Flow.continue) (do
        Meaning.callProg _ (.setHeader (clip hr.headerName) v)
        pure Flow.continue) := fun v =>
    (lowers_call (c := .setHeader (clip hr.headerName) v) rfl).bind fun _ => lowers_pure _
  unfold runElementAction Meaning.elementAction
  cases er.action with
  | replace =>
    refine (evalValue_lowers _).bind fun nv => ?_
    refine lowers_ite (fun _ => hset nv) (fun _ => ?_)
    exact (lowers_call (c := .uriSet hv elem nv) rfl).bind fun v => hset v
  | deleteElement =>
    refine lowers_ite (fun _ => ?_) (fun _ => ?_)
    · exact (lowers_call (c := .deleteHeader (clip hr.headerName)) rfl).bind
        fun _ => lowers_pure _
    · refine Lowers.silent (intern_silent _) ?_
      exact (lowers_call (c := .uriSet hv elem []) rfl).bind fun v => hset v
  | store =>
    refine Lowers.silent (slotFor_silent _) ?_
    exact (lowers_call (c := .store (Meaning.elementSlot hr er) ev) rfl).bind
      fun _ => lowers_pure _
  | reject =>
    refine message_lowers _ _ fun v => ?_
    exact (lowers_call (c := .reject 403 v) rfl).bind fun _ => lowers_pure _
  | _ => exact lowers_pure _

/-- An element rule on its value, and what comes after it. -/
theorem runElement_lowers (hr : HeaderRule) (er : ElementRule) (elem : HmrUriElement)
    (hv ev : Bytes) {next : InterpM Flow} {after : SymProg Flow}
    (hnext : Lowers st next after) :
    Lowers st
      (do
        let ok ← evalMatchGuard er.comparison er.matchValType er.matchValue ev
        if false || ok then
          match ← runElementAction hr er (clip hr.headerName) elem hv ev false with
          | .rejected => pure .rejected
          | .continue => next
        else next)
      (do
        let f ← (do
          let ok ← Meaning.guard Meaning.callProg er.comparison er.matchValType
            er.matchValue ev
          if ok then Meaning.elementAction Meaning.callProg hr er elem hv ev
          else pure .continue)
        match f with
        | .rejected => pure .rejected
        | .continue => after) := by
  rw [bind_assoc]
  refine (evalMatchGuard_lowers _ _ _ _).bind fun ok => ?_
  rw [Bool.false_or]
  cases ok with
  | true =>
    rw [if_pos rfl, if_pos rfl]
    refine (runElementAction_lowers hr er elem hv ev).bind fun f => ?_
    cases f with
    | rejected => exact lowers_pure _
    | «continue» => exact hnext
  | false => exact hnext

/-- The element rules of a header rule, up to the first that rejects. -/
theorem runElements_lowers (hr : HeaderRule) (ers : List ElementRule) :
    Lowers st (runElements hr (clip hr.headerName) false ers)
      (Meaning.elementRules Meaning.callProg (Meaning.guard Meaning.callProg) hr ers) := by
  induction ers with
  | nil => exact lowers_pure _
  | cons er ers ih =>
    rw [runElements, Meaning.elementRules, Meaning.elementRule]
    cases Lowering.uriElement er.type with
    | none => exact ih
    | some elem =>
      dsimp only
      rw [bind_assoc]
      refine (lowers_call (c := .getHeader (clip hr.headerName)) rfl).bind fun hv => ?_
      rw [bind_assoc]
      unfold Meaning.elementValue
      by_cases hw : elem = .whole
      · rw [if_pos hw, if_pos hw]
        exact runElement_lowers hr er elem hv hv ih
      · rw [if_neg hw, if_neg hw]
        exact (lowers_call (c := .uriGet hv elem) rfl).bind fun ev =>
          runElement_lowers hr er elem hv ev ih

/-- The guard by message type asks once whether the message is a request, and not at all where
any will do. -/
theorem msgTypeGuard_lowers (hr : HeaderRule) :
    Lowers st (msgTypeGuard hr false)
      (Meaning.msgTypeGuard Meaning.callProg hr.msgType) := by
  unfold msgTypeGuard Meaning.msgTypeGuard
  rw [if_neg Bool.false_ne_true]
  cases hr.msgType with
  | request => exact lowers_call rfl
  | reply => exact (lowers_call (c := .isRequest) rfl).bind fun _ => lowers_pure _
  | _ => exact lowers_pure _

/-- The method whitelist accepts what is in it. -/
theorem methodAccepted_lowers (method : Bytes) (acc : Bool) (methods : List Bytes) :
    Lowers st (methodAccepted method acc methods)
      (pure (acc || methods.any fun x => Rt.strEq method (clip x) true)) := by
  induction methods generalizing acc with
  | nil =>
    rw [List.any_nil, Bool.or_false]
    exact lowers_pure _
  | cons m methods ih =>
    rw [methodAccepted]
    cases acc with
    | true => exact ih true
    | false =>
      rw [if_neg Bool.false_ne_true]
      exact Lowers.silent (intern_silent _) (ih _)

/-- The guard by method: the method is fetched once, and compared with each method of the rule. -/
theorem methodGuard_lowers (hr : HeaderRule) :
    Lowers st (methodGuard hr false)
      (Meaning.methodGuard Meaning.callProg hr.methods) := by
  unfold methodGuard Meaning.methodGuard HeaderRule.hasMethodFilter
  cases hr.methods.isEmpty with
  | true => exact lowers_pure _
  | false =>
    refine (lowers_call (c := .getMethod) rfl).bind fun method => ?_
    have : Lowers st _ _ := (methodAccepted_lowers method false hr.methods).bind
      fun acc => lowers_pure (false || acc)
    rwa [pure_bind, Bool.false_or, Bool.false_or] at this

/-- The header is fetched only for rules that look at it; a rule that stores always does. -/
theorem fetchHeader_lowers (hr : HeaderRule) {f : Option Bytes → InterpM β}
    {q : Bytes → SymProg β}
    (hf : ∀ hv : Option Bytes, (hr.action = .store → hv.isSome = true) →
      Lowers st (f hv) (q (hv.getD []))) :
    Lowers st (fetchHeader hr >>= f) (Meaning.fetchHeader Meaning.callProg hr >>= q) := by
  unfold fetchHeader Meaning.fetchHeader
  cases hc : (!hr.matchValue.isEmpty || decide (hr.action = .store)) with
  | true =>
    rw [if_pos rfl, if_pos rfl, bind_assoc]
    refine Lowers.silent (intern_silent _) ?_
    rw [bind_assoc]
    exact (lowers_call (c := .getHeader (clip hr.headerName)) rfl).bind
      fun hv => hf (some hv) (fun _ => rfl)
  | false =>
    rw [Bool.or_eq_false_iff] at hc
    exact hf none (fun hs => absurd hs (of_decide_eq_false hc.2))

/-- The guard of a header rule by its own match-value, on what was fetched. -/
theorem matchValueGuard_lowers (hr : HeaderRule) (hv : Option Bytes) :
    Lowers st (matchValueGuard hr hv false)
      (Meaning.guard Meaning.callProg hr.comparison .any hr.matchValue (hv.getD [])) := by
  unfold matchValueGuard
  cases he : hr.matchValue.isEmpty with
  | true =>
    unfold Meaning.guard Meaning.alwaysHolds
    rw [he]
    exact lowers_pure _
  | false =>
    have : Lowers st _ _ := (evalMatchGuard_lowers hr.comparison .any hr.matchValue
      (hv.getD [])).bind fun ok => lowers_pure (false || ok)
    simpa using this

/-- **A header rule**: guards, action and element rules, in the order of the source. -/
theorem runHeaderRule_lowers (hr : HeaderRule) (idx : Nat) :
    Lowers st (runHeaderRule hr idx false) (Meaning.rule Meaning.callProg idx hr) := by
  unfold runHeaderRule Meaning.rule Meaning.headerRule Meaning.fires
  rw [bind_assoc]
  refine (msgTypeGuard_lowers hr).bind fun b => ?_
  cases b with
  | false => exact lowers_pure _
  | true =>
    rw [if_pos rfl, if_pos rfl, bind_assoc]
    refine (methodGuard_lowers hr).bind fun b => ?_
    cases b with
    | false => exact lowers_pure _
    | true =>
      rw [if_pos rfl, if_pos rfl, bind_assoc]
      refine fetchHeader_lowers hr fun hv hs => ?_
      rw [bind_assoc]
      refine (matchValueGuard_lowers hr hv).bind fun b => ?_
      cases b with
      | false => exact lowers_pure _
      | true =>
        rw [if_pos rfl, if_pos rfl, pure_bind]
        refine (runHeaderAction_lowers hr idx hv hs).bind fun t => ?_
        refine lowers_ite (fun _ => lowers_pure _) (fun _ => ?_)
        unfold runElementRules
        cases he : hr.elementRules with
        | nil => exact lowers_pure _
        | cons er ers =>
          rw [List.isEmpty_cons, if_neg Bool.false_ne_true]
          exact Lowers.silent (intern_silent _) (runElements_lowers hr _)

/-- The header rules from one on, up to the first that rejects. -/
theorem walkFrom_lowers (idx : Nat) (hrs : List HeaderRule) :
    Lowers st (walkFrom false idx hrs) (Meaning.rulesFrom Meaning.callProg idx hrs) := by
  induction hrs generalizing idx with
  | nil => exact lowers_pure _
  | cons hr rest ih =>
    rw [walkFrom, Meaning.rulesFrom]
    refine (runHeaderRule_lowers hr idx).bind fun f => ?_
    cases f with
    | rejected => exact lowers_pure _
    | «continue» => exact ih (idx + 1)

/-- **The interpreter runs the program of its ruleset**, with the numbers of
its tables put in. -/
theorem apply_eq (rs : Ruleset) :
    apply rs = (Meaning.program rs).mapCalls (tables rs).symbols.resolve := by
  have hwalk : Lowers (tables rs).symbols _ _ := walkFrom_lowers 0 rs.headerRules
  have := hwalk (tables rs) ⟨rfl, rfl⟩ (fun r => pure r.1) pure (fun _ _ _ => rfl)
  rw [bind_pure] at this
  refine Eq.trans ?_ this
  show Prod.fst <$> walkFrom false 0 rs.headerRules (tables rs) = _
  rw [map_eq_pure_bind]

/-! ## The scan -/

/-- **A walk in the scan numbers these keys**, in this order, and its result
satisfies `Q`. -/
def Scans (x : InterpM α) (ks : List TableKey) (Q : α → Prop) : Prop :=
  ∀ t : Tables, t.frozen = false →
    ((x t).run nullRuntime ()).1.2.symbols = t.symbols.addAll ks
      ∧ ((x t).run nullRuntime ()).1.2.frozen = false
      ∧ Q ((x t).run nullRuntime ()).1.1

/-- What returns at once numbers nothing. -/
theorem scans_pure {Q : α → Prop} {a : α} (h : Q a) : Scans (pure a) [] Q :=
  fun _ ht => ⟨rfl, ht, h⟩

/-- **The rule of sequence.** Two walks number the keys of the first and then those of the
second. -/
theorem Scans.bind {x : InterpM α} {f : α → InterpM β} {ks ks' : List TableKey}
    {Q : α → Prop} {Q' : β → Prop} (hx : Scans x ks Q)
    (hf : ∀ a, Q a → Scans (f a) ks' Q') : Scans (x >>= f) (ks ++ ks') Q' := by
  intro t ht
  have hrun : ((x >>= f) t).run nullRuntime ()
      = (f ((x t).run nullRuntime ()).1.1 ((x t).run nullRuntime ()).1.2).run
          nullRuntime () :=
    Prog.run_bind _ _ _ _
  obtain ⟨hs, hfr, hq⟩ := hx t ht
  have := hf _ hq _ hfr
  rw [hrun, SymbolTable.addAll_append, ← hs]
  exact this

/-- A step that numbers nothing, before a walk. -/
theorem Scans.skip {x : InterpM α} {f : α → InterpM β} {ks : List TableKey}
    {Q : α → Prop} {Q' : β → Prop} (hx : Scans x [] Q)
    (hf : ∀ a, Q a → Scans (f a) ks Q') : Scans (x >>= f) ks Q' :=
  hx.bind hf

/-- A walk, and a step that numbers nothing. -/
theorem Scans.andThen {x : InterpM α} {f : α → InterpM β} {ks : List TableKey}
    {Q : α → Prop} {Q' : β → Prop} (hx : Scans x ks Q)
    (hf : ∀ a, Q a → Scans (f a) [] Q') : Scans (x >>= f) ks Q' := by
  have := hx.bind hf
  rwa [List.append_nil] at this

/-- A call numbers nothing; what it returns, of a null context, does not matter. -/
theorem scans_rt {i : RetTy} (c : RtCall Bytes Nat Nat i) :
    Scans (rt c) [] (fun _ => True) :=
  fun _ ht => ⟨rfl, ht, trivial⟩

/-- Neither does interning. -/
theorem scans_intern (s : Bytes) : Scans (intern s) [] (fun _ => True) := by
  intro t ht
  unfold intern
  split
  · exact ⟨rfl, ht, trivial⟩
  · exact ⟨rfl, ht, trivial⟩

/-- What is in no place of a list is not in it. -/
theorem idxOf?_eq_none {K : Type} [BEq K] [LawfulBEq K] {l : List K} {k : K} :
    l.idxOf? k = none ↔ k ∉ l := by
  rw [← Option.not_isSome_iff_eq_none, List.isSome_idxOf?]

/-- A slot is numbered where it is met first, and found again later. -/
theorem scans_slotFor (name : Bytes) : Scans (slotFor name) [.slot name] (fun _ => True) := by
  intro t ht
  unfold slotFor
  show _ = SymbolTable.mk t.regexes (register t.slots name) ∧ _
  unfold register
  cases hi : t.slots.idxOf? name with
  | some i =>
    rw [if_pos (List.isSome_idxOf?.mp (Option.isSome_of_eq_some hi))]
    exact ⟨rfl, ht, trivial⟩
  | none =>
    rw [if_neg (idxOf?_eq_none.mp hi)]
    dsimp only
    rw [if_neg (by rw [ht]; exact Bool.false_ne_true)]
    exact ⟨rfl, ht, trivial⟩

/-- The same for a regex. -/
theorem scans_addRegex (p : Bytes) (ci : Bool) :
    Scans (addRegex p ci) [.regex p ci] (fun _ => True) := by
  intro t ht
  unfold addRegex
  show _ = SymbolTable.mk (register t.regexes (p, ci)) t.slots ∧ _
  unfold register
  cases hi : t.regexes.idxOf? (p, ci) with
  | some i =>
    rw [if_pos (List.isSome_idxOf?.mp (Option.isSome_of_eq_some hi))]
    exact ⟨rfl, ht, trivial⟩
  | none =>
    rw [if_neg (idxOf?_eq_none.mp hi)]
    dsimp only
    rw [if_neg (by rw [ht]; exact Bool.false_ne_true)]
    exact ⟨rfl, ht, trivial⟩

/-- The slot of a reference is that of its first name, and of the group it asks for. -/
theorem scans_slotForRef (r : ValueRef) (h : r.kind = .ruleRef) :
    Scans (slotForRef r.name r.captureIndex) (Meaning.refKeys r) (fun _ => True) := by
  unfold Meaning.refKeys
  rw [h]
  exact scans_slotFor _

/-- A reference numbers the slot it reads, if it reads one. -/
theorem scans_evalRef (r : ValueRef) :
    Scans (evalRef r) (Meaning.refKeys r) (fun _ => True) := by
  unfold evalRef
  split
  · rename_i h
    unfold Meaning.refKeys
    rw [h]
    exact scans_rt _
  · rename_i h
    unfold Meaning.refKeys
    rw [h]
    exact scans_rt _
  · rename_i h
    exact (scans_slotForRef r h).andThen fun _ _ => scans_rt _

/-- So does a segment. -/
theorem scans_appendSegment (s : ValueSegment) :
    Scans (appendSegment s) (Meaning.segmentKeys s) (fun _ => True) := by
  cases s with
  | literal text =>
    unfold appendSegment Meaning.segmentKeys
    dsimp only
    split
    · exact scans_pure trivial
    · exact (scans_intern _).skip fun _ _ => scans_rt _
  | ref r =>
    unfold appendSegment Meaning.segmentKeys
    dsimp only
    split
    · rename_i h
      unfold Meaning.refKeys
      rw [h]
      exact scans_rt _
    · rename_i h
      unfold Meaning.refKeys
      rw [h]
      exact scans_rt _
    · rename_i h
      exact (scans_slotForRef r h).andThen fun _ _ => scans_rt _

/-- The segments number theirs in the order of the value. -/
theorem scans_appendSegments (segs : List ValueSegment) :
    Scans (appendSegments segs) (segs.flatMap Meaning.segmentKeys) (fun _ => True) := by
  induction segs with
  | nil => exact scans_pure trivial
  | cons s segs ih => exact (scans_appendSegment s).bind fun _ _ => ih

/-- **A value numbers the slots it reads**, in the order of its segments, also where it is one
literal or one reference and no buffer is used. -/
theorem scans_evalValue (v : Value) :
    Scans (evalValue v) (Meaning.valueKeys v) (fun _ => True) := by
  unfold evalValue Meaning.valueKeys
  cases he : v.isEmpty with
  | true => exact scans_intern _
  | false =>
    rw [if_neg Bool.false_ne_true, Bool.false_or]
    cases hp : v.isPureLiteral with
    | true => exact scans_intern _
    | false =>
      rw [if_neg Bool.false_ne_true, if_neg Bool.false_ne_true]
      cases hr : v.singleRef? with
      | some r =>
        have hs : v.segments = [.ref r] := by
          unfold Value.singleRef? at hr
          split at hr
          · rename_i h
            rw [h, Option.some.inj hr]
          · cases hr
        rw [hs, List.flatMap_singleton]
        exact scans_evalRef r
      | none =>
        refine (scans_rt .valReset).skip fun _ _ => ?_
        exact (scans_appendSegments _).andThen fun _ _ => scans_rt _

/-- The text of a log or a reject, and what is done with it. -/
theorem scans_message (name : Bytes) (v : Value) {f : Bytes → InterpM β} {Q : β → Prop}
    (hf : ∀ a, Scans (f a) [] Q) :
    Scans (if v.isEmpty then intern name >>= f else evalValue v >>= f)
      (Meaning.valueKeys v) Q := by
  cases he : v.isEmpty with
  | true =>
    unfold Meaning.valueKeys
    rw [he]
    exact (scans_intern _).skip fun a _ => hf a
  | false => exact (scans_evalValue v).andThen fun a _ => hf a

/-- A guard numbers its regex, if it matches by one. -/
theorem scans_evalMatchGuard (cmp : ComparisonType) (mvt : MatchValType) (mv : Value)
    (s : Bytes) :
    Scans (evalMatchGuard cmp mvt mv s) (Meaning.guardKeys cmp mv) (fun _ => True) := by
  have hal : Meaning.alwaysHolds mv
      = (mv.isEmpty || (!mv.isRegexLiteral && !mv.isPureLiteral)) := rfl
  unfold evalMatchGuard Meaning.guardKeys
  rw [hal]
  cases mv.isEmpty with
  | true => exact scans_pure trivial
  | false =>
    rw [if_neg Bool.false_ne_true, Bool.false_or]
    cases (!mv.isRegexLiteral && !mv.isPureLiteral) with
    | true => exact scans_pure trivial
    | false =>
      rw [if_neg Bool.false_ne_true, Bool.false_or]
      cases Lowering.isPattern cmp with
      | true =>
        refine (scans_addRegex _ _).andThen fun id _ => ?_
        rw [pure_bind]
        refine (scans_intern _).skip fun pat _ => ?_
        exact (scans_rt _).skip fun _ _ => scans_pure trivial
      | false =>
        dsimp only [Bool.not_false]
        rw [if_neg Bool.false_ne_true, pure_bind]
        refine (scans_intern _).skip fun pat _ => ?_
        exact (scans_rt _).skip fun _ _ => scans_pure trivial

/-- The groups of a match are numbered as they are stored, one slot a group. -/
theorem scans_storeGroups (rule : Bytes) (n g : Nat) :
    Scans (storeGroups rule n g) (Meaning.groupKeys rule n g) (fun _ => True) := by
  induction n generalizing g with
  | zero => exact scans_pure trivial
  | succ n ih =>
    refine (scans_slotFor _).bind fun slot _ => ?_
    refine (scans_rt _).skip fun cap _ => ?_
    exact (scans_rt _).skip fun _ _ => ih (g + 1)

/-- **The header action numbers what it reads and stores to**, the keys of its value in the order
of the segments and then its slot; and it says that it rejects only if it is the action that
does. A header that has not been fetched yet is fetched first, which enters nothing. -/
theorem scans_runHeaderAction (hr : HeaderRule) (idx : Nat) (hv : Option Bytes) :
    Scans (runHeaderAction hr idx hv) (Meaning.actionKeys idx hr)
      (fun t => t = decide (hr.action = .reject)) := by
  unfold runHeaderAction Meaning.actionKeys
  refine (scans_intern _).skip fun name _ => ?_
  have hset : Scans
      (if !hr.newValue.isEmpty && hr.elementRules.isEmpty then do
        let v ← evalValue hr.newValue
        rt (.setHeader name v)
        pure false
      else pure false)
      (if !hr.newValue.isEmpty && hr.elementRules.isEmpty then
        Meaning.valueKeys hr.newValue else [])
      (fun t => t = false) := by
    cases !hr.newValue.isEmpty && hr.elementRules.isEmpty with
    | false => exact scans_pure rfl
    | true =>
      refine (scans_evalValue _).andThen fun v _ => ?_
      exact (scans_rt _).skip fun _ _ => scans_pure rfl
  cases ha : hr.action with
  | add =>
    refine (scans_evalValue _).andThen fun v _ => ?_
    exact (scans_rt _).skip fun _ _ => scans_pure rfl
  | replace => exact hset
  | manipulate => exact hset
  | store =>
    dsimp only
    unfold Meaning.storeKeys
    cases Lowering.isPattern hr.comparison with
    | true => exact (scans_storeGroups _ _ _).andThen fun _ _ => scans_pure rfl
    | false =>
      rw [if_neg Bool.false_ne_true, if_neg Bool.false_ne_true]
      refine (scans_slotFor _).andThen fun slot _ => ?_
      -- A header that has not been fetched is fetched first, which enters nothing.
      cases hv with
      | some v => exact (scans_rt _).skip fun _ _ => scans_pure rfl
      | none =>
        refine (scans_rt _).skip fun v _ => ?_
        exact (scans_rt _).skip fun _ _ => scans_pure rfl
  | log =>
    exact scans_message _ _ fun v => (scans_rt _).skip fun _ _ => scans_pure rfl
  | reject =>
    exact scans_message _ _ fun v => (scans_rt _).skip fun _ _ => scans_pure rfl
  | delete => exact (scans_rt _).skip fun _ _ => scans_pure rfl
  | deleteHeader => exact (scans_rt _).skip fun _ _ => scans_pure rfl
  | _ => exact scans_pure rfl

/-- The element action. While the tables grow, not even a reject ends the walk. -/
theorem scans_runElementAction (hr : HeaderRule) (er : ElementRule) (name : Bytes)
    (elem : HmrUriElement) (hv ev : Bytes) :
    Scans (runElementAction hr er name elem hv ev true) (Meaning.elementActionKeys hr er)
      (fun f => f = .continue) := by
  have hset : ∀ v, Scans (do
        rt (.setHeader name v)
        pure Flow.continue) [] (fun f => f = .continue) :=
    fun v => (scans_rt _).skip fun _ _ => scans_pure rfl
  unfold runElementAction Meaning.elementActionKeys
  cases er.action with
  | replace =>
    refine (scans_evalValue _).andThen fun nv _ => ?_
    split
    · exact hset nv
    · exact (scans_rt _).skip fun v _ => hset v
  | deleteElement =>
    dsimp only
    split
    · exact (scans_rt _).skip fun _ _ => scans_pure rfl
    · refine (scans_intern _).skip fun empty _ => ?_
      exact (scans_rt _).skip fun v _ => hset v
  | store =>
    exact (scans_slotFor _).andThen fun _ _ => (scans_rt _).skip fun _ _ => scans_pure rfl
  | reject =>
    exact scans_message _ _ fun v => (scans_rt _).skip fun _ _ => scans_pure rfl
  | _ => exact scans_pure rfl

/-- An element rule on its value, and what comes after it. -/
theorem scans_runElement (hr : HeaderRule) (er : ElementRule) (name : Bytes)
    (elem : HmrUriElement) (hv ev : Bytes) {next : InterpM Flow} {keys : List TableKey}
    (hnext : Scans next keys (fun _ => True)) :
    Scans
      (do
        let ok ← evalMatchGuard er.comparison er.matchValType er.matchValue ev
        if true || ok then
          match ← runElementAction hr er name elem hv ev true with
          | .rejected => pure .rejected
          | .continue => next
        else next)
      (Meaning.guardKeys er.comparison er.matchValue
        ++ (Meaning.elementActionKeys hr er ++ keys))
      (fun _ => True) := by
  refine (scans_evalMatchGuard _ _ _ _).bind fun ok _ => ?_
  rw [Bool.true_or, if_pos rfl]
  refine (scans_runElementAction hr er name elem hv ev).bind fun f hf => ?_
  rw [hf]
  exact hnext

/-- The element rules number their keys one rule after the other. -/
theorem scans_runElements (hr : HeaderRule) (name : Bytes) (ers : List ElementRule) :
    Scans (runElements hr name true ers) (ers.flatMap (Meaning.elementKeys hr))
      (fun _ => True) := by
  induction ers with
  | nil => exact scans_pure trivial
  | cons er ers ih =>
    rw [runElements, List.flatMap_cons]
    unfold Meaning.elementKeys
    cases Lowering.uriElement er.type with
    | none => exact ih
    | some elem =>
      rw [if_neg (by simp), List.append_assoc]
      dsimp only
      refine (scans_rt _).skip fun hv _ => ?_
      split
      · exact scans_runElement hr er name elem hv hv ih
      · exact (scans_rt _).skip fun ev _ => scans_runElement hr er name elem hv ev ih

/-- While the tables grow, every message type passes. -/
theorem scans_msgTypeGuard (hr : HeaderRule) :
    Scans (msgTypeGuard hr true) [] (fun b => b = true) :=
  scans_pure rfl

/-- Comparing methods numbers nothing. -/
theorem scans_methodAccepted (method : Bytes) (acc : Bool) (methods : List Bytes) :
    Scans (methodAccepted method acc methods) [] (fun _ => True) := by
  induction methods generalizing acc with
  | nil => exact scans_pure trivial
  | cons m methods ih =>
    rw [methodAccepted]
    split
    · exact ih true
    · exact (scans_intern _).skip fun _ _ => ih _

/-- Every method passes, too. -/
theorem scans_methodGuard (hr : HeaderRule) :
    Scans (methodGuard hr true) [] (fun b => b = true) := by
  unfold methodGuard
  split
  · refine (scans_rt .getMethod).skip fun _ _ => ?_
    exact (scans_methodAccepted _ _ _).skip fun _ _ => scans_pure rfl
  · exact scans_pure rfl

/-- Fetching the header numbers nothing. -/
theorem scans_fetchHeader (hr : HeaderRule) :
    Scans (fetchHeader hr) [] (fun _ => True) := by
  unfold fetchHeader
  split
  · refine (scans_intern _).skip fun _ _ => ?_
    exact (scans_rt _).skip fun _ _ => scans_pure trivial
  · exact scans_pure trivial

/-- The match-value's regex is numbered, and passes. -/
theorem scans_matchValueGuard (hr : HeaderRule) (hv : Option Bytes) :
    Scans (matchValueGuard hr hv true) (Meaning.guardKeys hr.comparison hr.matchValue)
      (fun b => b = true) := by
  unfold matchValueGuard
  cases he : hr.matchValue.isEmpty with
  | true =>
    unfold Meaning.guardKeys Meaning.alwaysHolds
    rw [he]
    exact scans_pure rfl
  | false => exact (scans_evalMatchGuard _ _ _ _).andThen fun _ _ => scans_pure rfl

/-- **A header rule numbers its keys**: those of its guard, of its action and of its element
rules. -/
theorem scans_runHeaderRule (hr : HeaderRule) (idx : Nat) :
    Scans (runHeaderRule hr idx true) (Meaning.ruleKeys idx hr) (fun _ => True) := by
  unfold runHeaderRule Meaning.ruleKeys
  rw [List.append_assoc]
  refine (scans_msgTypeGuard hr).skip fun b hb => ?_
  rw [hb, if_pos rfl]
  refine (scans_methodGuard hr).skip fun b hb => ?_
  rw [hb, if_pos rfl]
  refine (scans_fetchHeader hr).skip fun hv _ => ?_
  refine (scans_matchValueGuard hr hv).bind fun b hb => ?_
  rw [hb, if_pos rfl]
  refine (scans_runHeaderAction hr idx hv).bind fun t ht => ?_
  rw [ht]
  by_cases hrej : hr.action = .reject
  · rw [if_pos (decide_eq_true hrej), if_pos hrej]
    exact scans_pure trivial
  · rw [if_neg (by rw [decide_eq_false hrej]; exact Bool.false_ne_true), if_neg hrej]
    unfold runElementRules
    cases hr.elementRules with
    | nil => exact scans_pure trivial
    | cons er ers =>
      rw [List.isEmpty_cons, if_neg Bool.false_ne_true]
      exact (scans_intern _).skip fun _ _ => scans_runElements hr _ _

/-- The rules from one on number theirs, one after the other; a reject does not end the scan. -/
theorem scans_walkFrom (idx : Nat) (hrs : List HeaderRule) :
    Scans (walkFrom true idx hrs) (Meaning.keysFrom idx hrs) (fun _ => True) := by
  induction hrs generalizing idx with
  | nil => exact scans_pure trivial
  | cons hr rest ih =>
    rw [walkFrom, Meaning.keysFrom]
    exact (scans_runHeaderRule hr idx).bind fun f _ => ih (idx + 1)

/-- **The scan numbers the keys of the ruleset, in their order.** -/
theorem symbols_tables (rs : Ruleset) : (tables rs).symbols = Meaning.symbols rs :=
  (scans_walkFrom 0 rs.headerRules {} rfl).1

/-- The slots and the regexes a module publishes are those of its ruleset. -/
theorem info_eq (rs : Ruleset) :
    (info rs).numSlots = (Meaning.symbols rs).slots.length
      ∧ (info rs).regexes = (Meaning.symbols rs).regexes := by
  rw [← symbols_tables]
  exact ⟨rfl, rfl⟩

end Interpreter

end Hmr
