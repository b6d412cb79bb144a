import Hmr.Emission

/-!
# Straight-line code does what the rules mean

Each function of the emitters puts out code for a piece of the ruleset's program, in which
a slot is its name and a regex its pattern. `Codes` relates the two: what is put out, run
on temporaries that are as it relies on, is the piece of the program with the numbers put
in.

Two things make that more than an equation. Numbers are given out on the way, so the code
and the program are compared for a table that has at least the numbers given out so far
(`SymbolTable.Le`); the table that counts in the end is the one that has all of them. And
a temporary that is set in one piece is read in another. Since a temporary is set once,
and the numbers of temporaries grow, what was so of the temporaries stays so: an
`Assertion` is a condition on numbers and temporaries that has this built in, and with it
the rule of sequence (`Codes.bind`) lets a later piece rely on all that an earlier one has
established.

The keys that are numbered are those of the piece, in their order (`Meaning.keys`). That
is a part of the relation, since the tables are published, and a host goes by them.

The C++ back-end and the LLVM back-end put out the same straight-line code, and each puts
its own control flow around it. What is shown here is shown once for both:
`Hmr.CppMeaning` and `Hmr.IrBranches` go on from here.
-/

namespace Hmr

/-! ## Numbers that are given out -/

namespace CppGenerator

variable {K : Type} [DecidableEq K] [BEq K] [LawfulBEq K] {l : List K} {k : K}

/-- Giving out a number is registering the key, -/
@[simp] theorem numberOf_snd : (numberOf l k).2 = register l k := by
  unfold numberOf register
  cases hi : l.idxOf? k with
  | none => rw [if_neg (List.idxOf?_eq_none_iff.mp hi)]
  | some i => rw [if_pos (List.isSome_idxOf?.mp (Option.isSome_of_eq_some hi))]

/-- and the number is the key's place. -/
theorem numberOf_fst : (numberOf l k).1 = ((register l k).idxOf? k).getD 0 := by
  unfold numberOf register
  cases hi : l.idxOf? k with
  | none =>
    have hk := List.idxOf?_eq_none_iff.mp hi
    have hat : (l ++ [k]).idxOf? k = some l.length := by
      refine List.idxOf?_eq_some_iff.mpr ⟨by rw [List.length_append]; exact Nat.lt_succ_self _,
        ?_, fun j hj => ?_⟩
      · rw [List.getElem_append_right (Nat.le_refl _)]
        exact List.getElem_singleton _
      · rw [List.getElem_append_left hj]
        exact fun h => hk (h ▸ List.getElem_mem hj)
    rw [if_neg hk, hat]
    rfl
  | some i =>
    rw [if_pos (List.isSome_idxOf?.mp (Option.isSome_of_eq_some hi)), hi]
    rfl

end CppGenerator

namespace SymbolTable

/-- A table with more numbers. -/
def Le (t T : SymbolTable) : Prop := ∃ ks, T = t.addAll ks

/-- A table has the numbers it has. -/
theorem Le.refl (t : SymbolTable) : t.Le t := ⟨[], rfl⟩

/-- More keys are more numbers, and the old ones stay. -/
theorem le_addAll (t : SymbolTable) (ks : List TableKey) : t.Le (t.addAll ks) := ⟨ks, rfl⟩

/-- A key that is added is there. -/
theorem has_add_self (t : SymbolTable) (k : TableKey) : (t.add k).Has k :=
  has_add.mpr (.inr rfl)

/-- More and more numbers. -/
theorem Le.trans {t t' T : SymbolTable} (h : t.Le t') (h' : t'.Le T) : t.Le T := by
  obtain ⟨ks, rfl⟩ := h
  obtain ⟨ks', rfl⟩ := h'
  exact ⟨ks ++ ks', (addAll_append t ks ks').symm⟩

end SymbolTable

namespace Numbers

/-- More numbers have been given out. -/
def Le (g g' : Numbers) : Prop := g.temp ≤ g'.temp ∧ g.symbols.Le g'.symbols

/-- Nothing has been given out. -/
theorem Le.refl (g : Numbers) : g.Le g := ⟨Nat.le_refl _, .refl _⟩

/-- More has been given out, and more again. -/
theorem Le.trans {g g' g'' : Numbers} (h : g.Le g') (h' : g'.Le g'') : g.Le g'' :=
  ⟨h.1.trans h'.1, h.2.trans h'.2⟩

end Numbers

/-- The temporaries below a number are the same. -/
def Agree (n : Nat) (e e' : Temps) : Prop := ∀ i < n, e' i = e i

/-- Nothing has been set, -/
theorem Agree.refl (n : Nat) (e : Temps) : Agree n e e := fun _ _ => rfl

/-- or things have been set twice, further up; -/
theorem Agree.trans {n m : Nat} {e e' e'' : Temps} (h : Agree n e e') (hnm : n ≤ m)
    (h' : Agree m e' e'') : Agree n e e'' :=
  fun i hi => (h' i (Nat.lt_of_lt_of_le hi hnm)).trans (h i hi)

/-- and the next temporary is not below itself. -/
theorem agree_update (n : Nat) (e : Temps) (b : Option Bytes) :
    Agree n e (Function.update e n b) :=
  fun _ hi => Function.update_of_ne (Nat.ne_of_lt hi) b e

/-! ## Assertions -/

/-- **What code relies on**: the numbers and the temporaries below the next one. -/
structure Assertion where
  Holds : Numbers → Temps → Prop
  stable : ∀ {g g' : Numbers} {e e' : Temps}, g.Le g' → Agree g.temp e e' → Holds g e →
    Holds g' e'

namespace Assertion

/-- Something that is so anyway. -/
def fact (p : Prop) : Assertion := ⟨fun _ _ => p, fun _ _ h => h⟩

/-- Both. -/
def and (P Q : Assertion) : Assertion :=
  ⟨fun g e => P.Holds g e ∧ Q.Holds g e, fun hg he h => ⟨P.stable hg he h.1, Q.stable hg he h.2⟩⟩

end Assertion

/-- The operand denotes the string, now and later. -/
def Arg.Is (o : Arg) (b : Bytes) : Assertion where
  Holds g e := o.eval clipped e = some b ∧ ∀ n, o = .temp n → n < g.temp
  stable hg he h := by
    refine ⟨?_, fun n hn => Nat.lt_of_lt_of_le (h.2 n hn) hg.1⟩
    cases o with
    | lit s => exact h.1
    | temp n => exact (he n (h.2 n rfl)).trans h.1

/-- The slot has this number. -/
def IsSlot (name : Bytes) (k : Nat) : Assertion where
  Holds g _ := g.symbols.Has (.slot name) ∧ g.symbols.slotId name = k
  stable hg _ h := by
    obtain ⟨ks, hks⟩ := hg.2
    rw [hks]
    exact ⟨SymbolTable.has_addAll.mpr (.inl h.1), (SymbolTable.slotId_addAll h.1 ks).trans h.2⟩

/-- The regex has this number. -/
def IsRegex (p : Bytes) (ci : Bool) (k : Nat) : Assertion where
  Holds g _ := g.symbols.Has (.regex p ci) ∧ g.symbols.regexId (some (p, ci)) = k
  stable hg _ h := by
    obtain ⟨ks, hks⟩ := hg.2
    rw [hks]
    exact ⟨SymbolTable.has_addAll.mpr (.inl h.1), (SymbolTable.regexId_addAll h.1 ks).trans h.2⟩

/-- The call is the one of the program, now and later. -/
def CallIs {i : RetTy} (c : CodeCall i) (c' : SymCall i) : Assertion where
  Holds g e := ∀ g' e' T, g.Le g' → Agree g.temp e e' → g'.symbols.Le T →
    c.eval clipped e' = some (T.resolve i c')
  stable hg he h g'' e'' T hg' he' hT :=
    h g'' e'' T (hg.trans hg') (he.trans hg.1 he') hT

/-! ## Code for a piece of the program -/

variable {α β γ δ : Type}

/-- Code that is run after other code. Where a call of the first is not made, nothing more is
run. -/
theorem Instr.run_append (lit : Literals) (is js : List Instr) (e : Temps) :
    Instr.run lit (is ++ js) e = Instr.run lit is e >>= fun o =>
      match o with
      | none => pure none
      | some e' => Instr.run lit js e' := by
  induction is generalizing e with
  | nil => rfl
  | cons i is ih =>
    rw [List.cons_append, Instr.run, Instr.run, bind_assoc]
    refine congrArg _ (funext fun o => ?_)
    cases o with
    | none => rfl
    | some e' => exact ih e'

/-- **What is put out is code for a piece of the program**: where it relies on `P`, and on
`Q` afterwards, and numbers the keys `ks` on the way. -/
def Codes (ks : List TableKey) (P : Assertion) (x : CodeM α) (p : SymProg β)
    (Q : α → β → Assertion) : Prop :=
  ∀ s, ∃ is, (x s).2.instrs = s.instrs ++ is ∧ s.temp ≤ (x s).2.temp
    ∧ (x s).2.symbols = s.symbols.addAll ks
    ∧ ∀ e, P.Holds s.toNumbers e → ∀ T, (x s).2.symbols.Le T →
      ∀ {γ : Type} (k : Option Temps → RtProg Nat Nat γ) (k' : β → RtProg Nat Nat γ),
        (∀ b e', Agree s.temp e e' → (Q (x s).1 b).Holds (x s).2.toNumbers e' →
          k (some e') = k' b) →
        Instr.run clipped is e >>= k = p.mapCalls T.resolve >>= k'

namespace Codes

variable {ks ks' : List TableKey} {P P' : Assertion} {x : CodeM α} {p : SymProg β}
variable {Q Q' : α → β → Assertion}

/-- Nothing is put out. -/
theorem pure {a : α} {b : β} (h : ∀ g e, P.Holds g e → (Q a b).Holds g e) :
    Codes [] P (Pure.pure a) (Pure.pure b) Q := by
  intro s
  refine ⟨[], (List.append_nil _).symm, Nat.le_refl _, rfl, fun e he T _ γ k k' hk => ?_⟩
  exact hk b e (.refl _ _) (h _ _ he)

/-- **The rule of sequence.** What the first piece relies on is still so for the second. -/
theorem bind [hβ : Nonempty β] {f : α → CodeM γ} {q : β → SymProg δ}
    {Q' : γ → δ → Assertion} (hx : Codes ks P x p Q)
    (hf : ∀ a b, Codes ks' (P.and (Q a b)) (f a) (q b) Q') :
    Codes (ks ++ ks') P (x >>= f) (p >>= q) Q' := by
  intro s
  obtain ⟨is, his, ht, hs, hrun⟩ := hx s
  obtain ⟨is', his', ht', hs', -⟩ := hf (x s).1 hβ.some (x s).2
  have hgrow : Numbers.Le s.toNumbers (x s).2.toNumbers := ⟨ht, ks, hs⟩
  refine ⟨is ++ is', ?_, ht.trans ht', ?_, fun e he T hT ε k k' hk => ?_⟩
  · rw [← List.append_assoc, ← his]
    exact his'
  · rw [SymbolTable.addAll_append, ← hs]
    exact hs'
  · rw [Instr.run_append, bind_assoc, Prog.mapCalls_bind, bind_assoc]
    refine hrun e he T ((SymbolTable.le_addAll _ ks').trans (hs' ▸ hT)) _ _ fun b e' ha hq => ?_
    obtain ⟨is'', his'', -, -, hrun'⟩ := hf (x s).1 b (x s).2
    obtain rfl : is' = is'' := List.append_cancel_left (his'.symm.trans his'')
    exact hrun' e' ⟨P.stable hgrow ha he, hq⟩ T hT k k' fun d e'' ha' hq' =>
      hk d e'' (ha.trans ht ha') hq'

/-- The keys, put another way. -/
theorem keys (h : Codes ks P x p Q) (hks : ks = ks') : Codes ks' P x p Q := hks ▸ h

/-- Code that is not run. -/
theorem absurd {p' : SymProg δ} {Q' : α → δ → Assertion} (h : Codes ks P' x p' Q')
    (hP : ∀ g e, ¬ P.Holds g e) : Codes ks P x p Q := by
  intro s
  obtain ⟨is, his, ht, hs, -⟩ := h s
  exact ⟨is, his, ht, hs, fun e he => (hP _ _ he).elim⟩

/-- A number is looked up: the program does nothing. -/
theorem silent {f : α → CodeM γ} {q : SymProg δ} {Q : α → Unit → Assertion}
    {Q' : γ → δ → Assertion} (hx : Codes ks P x (Pure.pure ()) Q)
    (hf : ∀ a, Codes ks' (P.and (Q a ())) (f a) q Q') : Codes (ks ++ ks') P (x >>= f) q Q' :=
  hx.bind (q := fun _ => q) fun a _ => hf a

/-- Both branches of a condition that the emitter asks, and the program does. -/
theorem ite {c : Prop} [Decidable c] {y : CodeM α} {q : SymProg β}
    (hx : c → Codes ks P x p Q) (hy : ¬ c → Codes ks P y q Q) :
    Codes ks P (if c then x else y) (if c then p else q) Q := by
  split
  · exact hx ‹_›
  · exact hy ‹_›

end Codes

/-! ## Calls and numbers -/

/-- A slot that has its number has it in every later table, -/
theorem IsSlot.slotId_eq {name : Bytes} {k : Nat} {g : Numbers} {e : Temps} {T : SymbolTable}
    (h : (IsSlot name k).Holds g e) (hT : g.symbols.Le T) : T.slotId name = k := by
  obtain ⟨ks, rfl⟩ := hT
  exact (SymbolTable.slotId_addAll h.1 ks).trans h.2

/-- and so has a regex. -/
theorem IsRegex.regexId_eq {p : Bytes} {ci : Bool} {k : Nat} {g : Numbers} {e : Temps}
    {T : SymbolTable} (h : (IsRegex p ci k).Holds g e) (hT : g.symbols.Le T) :
    T.regexId (some (p, ci)) = k := by
  obtain ⟨ks, rfl⟩ := hT
  exact (SymbolTable.regexId_addAll h.1 ks).trans h.2

namespace Emission

variable {P : Assertion}

/-- The call is the one of the program, where the code relies on `P`. -/
abbrev Same {i : RetTy} (P : Assertion) (c : CodeCall i) (c' : SymCall i) : Prop :=
  ∀ g e T, P.Holds g e → g.symbols.Le T → c.eval clipped e = some (T.resolve i c')

/-- **A call bound to a temporary** makes the call of the program, and the temporary denotes its
answer. -/
theorem codes_bindTemp {c : CodeCall .str} {c' : SymCall .str} (hc : Same P c c') :
    Codes [] P (bindTemp c) (Meaning.callProg _ c') Arg.Is := by
  intro s
  refine ⟨[.bind s.temp c], rfl, Nat.le_succ _, rfl, fun e he T hT γ k k' hk => ?_⟩
  rw [Instr.run, Instr.step, hc _ e T he hT]
  refine congrArg (Prog.call _) (funext fun r => hk r _ (agree_update _ _ _) ⟨?_, fun n hn => ?_⟩)
  · exact Function.update_self ..
  · obtain rfl := Arg.temp.inj hn
    exact Nat.lt_succ_self _

/-- The method is fetched without regard to what there is. -/
theorem codes_getMethod (P : Assertion) :
    Codes [] P (bindTemp .getMethod) (Meaning.callProg _ .getMethod) Arg.Is :=
  codes_bindTemp fun _ _ _ _ _ => rfl

/-- A call for its effect is the call of the program. -/
theorem codes_call {c : CodeCall .unit} {c' : SymCall .unit} (hc : Same P c c') :
    Codes [] P (call c) (Meaning.callProg _ c') fun _ _ => .fact True := by
  intro s
  refine ⟨[.call c], rfl, Nat.le_refl _, rfl, fun e he T hT γ k k' hk => ?_⟩
  rw [Instr.run, Instr.step, hc _ e T he hT]
  exact congrArg (Prog.call _) (funext fun r => hk r _ (.refl _ _) trivial)

/-- A call that is passed a string. -/
theorem same_of_is {i : RetTy} {c : CodeCall i} {c' : SymCall i} {o : Arg} {b : Bytes}
    {f : Bytes → RtCall Bytes Nat Nat i} (ho : ∀ g e, P.Holds g e → (o.Is b).Holds g e)
    (hc : ∀ e, c.eval clipped e = o.eval clipped e >>= fun a => some (f a))
    (hf : ∀ T : SymbolTable, T.resolve i c' = f b) : Same P c c' := by
  intro g e T h _
  rw [hc, (ho g e h).1, hf]
  rfl

/-- A step that gives out numbers and puts nothing out. -/
theorem codes_number {x : CodeM α} {k : TableKey} {Q : α → Assertion}
    (hx : ∀ s, (x s).2 = { s with symbols := s.symbols.add k })
    (hQ : ∀ s e, (Q (x s).1).Holds ⟨s.temp, s.symbols.add k⟩ e) :
    Codes [k] P x (Pure.pure ()) fun a _ => Q a := by
  intro s
  refine ⟨[], ?_, ?_, ?_, fun e _ T _ γ k k' hk => hk () e (.refl _ _) ?_⟩
  · rw [hx, List.append_nil]
  · rw [hx]
  · rw [hx]
    rfl
  · rw [hx]
    exact hQ s e

/-- A slot is numbered, or found. -/
theorem codes_slotFor (name : Bytes) :
    Codes [.slot name] P (slotFor name) (Pure.pure ()) fun k _ => IsSlot name k := by
  refine codes_number (fun s => ?_) fun s e =>
    ⟨SymbolTable.has_add_self s.symbols (.slot name), ?_⟩
  · rw [slotFor, CppGenerator.numberOf_snd]
    rfl
  · exact CppGenerator.numberOf_fst.symm

/-- A regex is. -/
theorem codes_addRegex (p : Bytes) (ci : Bool) :
    Codes [.regex p ci] P (addRegex p ci) (Pure.pure ()) fun k _ => IsRegex p ci k := by
  refine codes_number (fun s => ?_) fun s e =>
    ⟨SymbolTable.has_add_self s.symbols (.regex p ci), ?_⟩
  · rw [addRegex, CppGenerator.numberOf_snd]
    rfl
  · exact CppGenerator.numberOf_fst.symm

/-! ## Values and guards -/

/-- A slot is loaded by its number, or by its name. -/
theorem same_load {name : Bytes} {k : Nat} : Same (P.and (IsSlot name k)) (.load k) (.load name) :=
  fun _ _ _ h hT => congrArg (fun n => some (RtCall.load n)) (IsSlot.slotId_eq h.2 hT).symm

/-- A reference: a call for its value, whatever its kind. -/
theorem emitRef_codes (r : ValueRef) :
    Codes (Meaning.refKeys r) P (emitRef r) (Meaning.refValue Meaning.callProg r)
      Arg.Is := by
  unfold emitRef Meaning.refValue Meaning.refKeys
  cases r.kind with
  | «variable» => exact codes_bindTemp fun _ _ _ _ _ => rfl
  | capture => exact codes_bindTemp fun _ _ _ _ _ => rfl
  | ruleRef => exact (codes_slotFor _).silent fun k => codes_bindTemp same_load

/-- A segment of a value that has several. -/
theorem emitSegment_codes (s : ValueSegment) :
    Codes (Meaning.segmentKeys s) P (emitSegment s) (Meaning.appendSegment Meaning.callProg s)
      fun _ _ => .fact True := by
  cases s with
  | literal text =>
    exact Codes.ite (fun _ => Codes.pure fun _ _ _ => trivial)
      fun _ => codes_call fun _ _ _ _ _ => rfl
  | ref r =>
    unfold emitSegment Meaning.appendSegment Meaning.segmentKeys Meaning.refKeys
    dsimp only
    cases r.kind with
    | «variable» => exact codes_call fun _ _ _ _ _ => rfl
    | capture => exact codes_call fun _ _ _ _ _ => rfl
    | ruleRef =>
      refine (codes_slotFor _).silent fun k => codes_call fun _ _ _ h hT => ?_
      exact congrArg (fun n => some (RtCall.valAppendSlot n)) (IsSlot.slotId_eq h.2 hT).symm

/-- The segments, one behind the other. -/
theorem emitSegments_codes (segs : List ValueSegment) :
    Codes (segs.flatMap Meaning.segmentKeys) P (emitSegments segs)
      (Meaning.appendSegments Meaning.callProg segs) fun _ _ => .fact True := by
  induction segs generalizing P with
  | nil => exact Codes.pure fun _ _ _ => trivial
  | cons s segs ih => exact (emitSegment_codes s).bind fun _ _ => ih

/-- A value that is a single reference has one segment. -/
theorem segments_of_singleRef {v : Value} {r : ValueRef} (h : v.singleRef? = some r) :
    v.segments = [.ref r] := by
  unfold Value.singleRef? at h
  split at h
  · obtain rfl := Option.some.inj h
    assumption
  · cases h

/-- **`emit_value`**: the operand is the value. -/
theorem emitValue_codes (v : Value) :
    Codes (Meaning.valueKeys v) P (emitValue v) (Meaning.value Meaning.callProg v)
      Arg.Is := by
  have hlit : ∀ s : Bytes, Codes [] P (pure (Arg.lit s)) (pure (clip s)) Arg.Is :=
    fun s => Codes.pure fun _ _ _ => ⟨rfl, fun _ h => by cases h⟩
  unfold emitValue Meaning.value Meaning.valueKeys
  cases v.isEmpty with
  | true => exact hlit []
  | false =>
    cases v.isPureLiteral with
    | true => exact hlit _
    | false =>
      show Codes (v.segments.flatMap Meaning.segmentKeys) P _ _ _
      rw [if_neg Bool.false_ne_true, if_neg Bool.false_ne_true, if_neg Bool.false_ne_true,
        if_neg Bool.false_ne_true]
      cases hr : v.singleRef? with
      | some r =>
        rw [segments_of_singleRef hr, List.flatMap_singleton]
        exact emitRef_codes r
      | none =>
        have hreset : Codes [] P (call .valReset) (Meaning.callProg _ .valReset)
            fun _ _ => .fact True := codes_call fun _ _ _ _ _ => rfl
        refine hreset.bind fun _ _ => ?_
        refine ((emitSegments_codes _).bind fun _ _ => ?_).keys (List.append_nil _)
        exact codes_bindTemp fun _ _ _ _ _ => rfl

/-- The text of a log or a reject. -/
theorem emitMessage_codes (name : Bytes) (v : Value) :
    Codes (Meaning.valueKeys v) P (emitMessage name v)
      (Meaning.message Meaning.callProg name v) Arg.Is := by
  unfold emitMessage Meaning.message
  cases he : v.isEmpty with
  | true =>
    rw [Meaning.valueKeys, he]
    exact Codes.pure fun _ _ _ => ⟨rfl, fun _ h => by cases h⟩
  | false => exact emitValue_codes v

/-- **The call of a guard.** -/
theorem matchCall_codes (cmp : ComparisonType) (mvt : MatchValType) {mv : Value} {o : Arg}
    {s : Bytes} (hmv : Meaning.alwaysHolds mv = false)
    (ho : ∀ g e, P.Holds g e → (o.Is s).Holds g e) :
    Codes (Meaning.guardKeys cmp mv) P (matchCall cmp mvt mv o) (pure ())
      fun c _ => CallIs c (Meaning.matchCall cmp mvt mv s) := by
  unfold matchCall Meaning.matchCall Meaning.guardKeys
  rw [hmv]
  dsimp only
  cases Lowering.isPattern cmp with
  | true =>
    refine (codes_addRegex _ _).silent fun k => Codes.pure fun g e h g' e' T hg he hT => ?_
    have hs := ((o.Is s).stable hg he (ho g e h.1)).1
    have hk := IsRegex.regexId_eq ((IsRegex _ _ k).stable hg he h.2) hT
    show (do return RtCall.hmrMatch _ (← o.eval clipped e') (← some (clip _)) k) = _
    rw [hs]
    exact congrArg (fun n => some (RtCall.hmrMatch _ _ _ n)) hk.symm
  | false =>
    refine Codes.pure fun g e h g' e' T hg he hT => ?_
    have hs := ((o.Is s).stable hg he (ho g e h)).1
    show (do return RtCall.hmrMatch _ (← o.eval clipped e') (← some (clip _)) 0) = _
    rw [hs]
    rfl

/-! ## Actions -/

/-- A slot is stored to by its number, or by its name. -/
theorem same_store {name : Bytes} {k : Nat} {o : Arg} {b : Bytes}
    (ho : ∀ g e, P.Holds g e → (o.Is b).Holds g e) :
    Same (P.and (IsSlot name k)) (.store k o) (.store name b) := by
  intro g e T h hT
  show (do return RtCall.store k (← o.eval clipped e)) = _
  rw [(ho g e h.1).1]
  exact congrArg (fun n => some (RtCall.store n b)) (IsSlot.slotId_eq h.2 hT).symm

/-- A string is stored in a slot. -/
theorem store_codes (name : Bytes) {o : Arg} {b : Bytes}
    (ho : ∀ g e, P.Holds g e → (o.Is b).Holds g e) :
    Codes [.slot name] P (do let slot ← slotFor name; call (.store slot o))
      (Meaning.callProg _ (.store name b)) fun _ _ => .fact True :=
  (codes_slotFor name).silent fun _ => codes_call (same_store ho)

/-- The groups of a match are fetched and stored, from one group on. -/
theorem emitGroups_codes (rule : Bytes) (n g : Nat) :
    Codes (Meaning.groupKeys rule n g) P (emitGroups rule n g)
      (Meaning.storeGroups Meaning.callProg (Meaning.storeAt Meaning.callProg rule) n g)
      fun _ _ => .fact True := by
  induction n generalizing g P with
  | zero => exact Codes.pure fun _ _ _ => trivial
  | succ n ih =>
    have hcap : Codes [] P (bindTemp (.getCapture g)) (Meaning.callProg _ (.getCapture g)) Arg.Is :=
      codes_bindTemp fun _ _ _ _ _ => rfl
    refine hcap.bind fun o b => ?_
    rw [← bind_assoc]
    exact (store_codes _ (P := P.and (o.Is b)) fun _ _ h => h.2).bind fun _ _ => ih (g + 1)

/-- The header value that was fetched, unless nothing looks at it. -/
def HvIs (hr : HeaderRule) : Option Arg → Bytes → Assertion
  | some o, b => o.Is b
  | none, _ => .fact (hr.matchValue.isEmpty = true ∧ hr.action ≠ .store)

/-- A match-value that is looked at is one for which the header is fetched. -/
theorem is_of_hvIs {hr : HeaderRule} {hv : Option Arg} {b : Bytes}
    (hmv : Meaning.alwaysHolds hr.matchValue = false) {g : Numbers} {e : Temps}
    (h : (HvIs hr hv b).Holds g e) : ((hv.getD (.lit [])).Is b).Holds g e := by
  cases hv with
  | some o => exact h
  | none =>
    rw [Meaning.alwaysHolds, h.1] at hmv
    cases hmv

/-- The header is fetched where the match-value or a store looks at it, and nowhere else; neither
is it in the program. -/
theorem emitFetch_codes (hr : HeaderRule) :
    Codes [] P (emitFetch hr) (Meaning.fetchHeader Meaning.callProg hr) (HvIs hr) := by
  unfold emitFetch Meaning.fetchHeader
  by_cases hneed : (!hr.matchValue.isEmpty || decide (hr.action = .store)) = true
  · have hget : Codes [] P (bindTemp (.getHeader (.lit hr.headerName)))
        (Meaning.callProg _ (.getHeader (clip hr.headerName))) Arg.Is :=
      codes_bindTemp fun _ _ _ _ _ => rfl
    rw [if_pos hneed, if_pos hneed, ← bind_pure (Meaning.callProg _ _)]
    exact hget.bind fun o b => Codes.pure fun _ _ h => h.2
  · rw [if_neg hneed, if_neg hneed]
    refine Codes.pure fun _ _ _ => ?_
    rw [Bool.or_eq_true, decide_eq_true_iff, not_or, Bool.not_eq_true, Bool.not_eq_false'] at hneed
    exact hneed

/-- A value, and a call with it. -/
theorem valueCall_codes (v : Value) {c : Arg → CodeCall .unit} {c' : Bytes → SymCall .unit}
    (hc : ∀ o b, Same (P.and (o.Is b)) (c o) (c' b)) :
    Codes (Meaning.valueKeys v) P (do let o ← emitValue v; call (c o); pure false)
      (do let b ← Meaning.value Meaning.callProg v; Meaning.callProg _ (c' b); pure false)
      fun t r => .fact (t = r) := by
  refine ((emitValue_codes v).bind fun o b => ?_).keys (List.append_nil _)
  exact (codes_call (hc o b)).bind fun _ _ => Codes.pure fun _ _ _ => rfl

/-- A message, and a call with it. -/
theorem messageCall_codes (name : Bytes) (v : Value) {t : Bool} {r : δ} {Q : Bool → δ → Assertion}
    {c : Arg → CodeCall .unit} {c' : Bytes → SymCall .unit}
    (hc : ∀ o b, Same (P.and (o.Is b)) (c o) (c' b)) (hQ : ∀ g e, (Q t r).Holds g e) :
    Codes (Meaning.valueKeys v) P (do let o ← emitMessage name v; call (c o); pure t)
      (do
        let b ← Meaning.message Meaning.callProg name v
        Meaning.callProg _ (c' b)
        pure r) Q := by
  refine ((emitMessage_codes name v).bind fun o b => ?_).keys (List.append_nil _)
  exact (codes_call (hc o b)).bind fun _ _ => Codes.pure fun g e _ => hQ g e

/-- A reject terminates its rule, and nothing else does. -/
theorem emitHeaderAction_fst (hr : HeaderRule) (idx : Nat) (hv : Option Arg) (s : Code) :
    (emitHeaderAction hr idx hv s).1 = decide (hr.action = .reject) := by
  unfold emitHeaderAction
  cases hr.action with
  | replace => dsimp only; split <;> rfl
  | manipulate => dsimp only; split <;> rfl
  | store =>
    dsimp only
    split
    · rfl
    · cases hv <;> rfl
  | _ => rfl

/-- **The action of a header rule**, up to its branch.

There are three kinds of actions here: those that set or delete the header, those that make a
value and pass it to one call, and the store. A store is given the header value as an operand if
the emitter has fetched it already, which it has for every rule that stores; the branch where it
has not is not reached (`hhv`). -/
theorem emitHeaderAction_codes (hr : HeaderRule) (idx : Nat) (hv : Option Arg) (b : Bytes)
    (hhv : ∀ g e, P.Holds g e → (HvIs hr hv b).Holds g e) :
    Codes (Meaning.actionKeys idx hr) P (emitHeaderAction hr idx hv)
      (Meaning.headerAction Meaning.callProg (Meaning.store Meaning.callProg idx) hr b)
      fun t r => .fact (t = r) := by
  unfold emitHeaderAction Meaning.headerAction Meaning.actionKeys
  have hset : Codes
      (if !hr.newValue.isEmpty && hr.elementRules.isEmpty then Meaning.valueKeys hr.newValue
        else []) P
      (if !hr.newValue.isEmpty && hr.elementRules.isEmpty then do
        let v ← emitValue hr.newValue
        call (.setHeader (.lit hr.headerName) v)
        pure false
      else pure false)
      (if !hr.newValue.isEmpty && hr.elementRules.isEmpty then do
        let v ← Meaning.value Meaning.callProg hr.newValue
        Meaning.callProg _ (.setHeader (clip hr.headerName) v)
        pure false
      else pure false) fun t r => .fact (t = r) := by
    split
    · exact valueCall_codes hr.newValue
        fun _ _ => same_of_is (fun _ _ h => h.2) (fun _ => rfl) fun _ => rfl
    · exact Codes.pure fun _ _ _ => rfl
  have hdelete : Codes [] P
      (do call (.deleteHeader (.lit hr.headerName)); pure false)
      (do Meaning.callProg _ (.deleteHeader (clip hr.headerName)); pure false)
      fun t r => .fact (t = r) :=
    (codes_call fun _ _ _ _ _ => rfl).bind fun _ _ => Codes.pure fun _ _ _ => rfl
  cases ha : hr.action with
  | add =>
    exact valueCall_codes hr.newValue
      fun _ _ => same_of_is (fun _ _ h => h.2) (fun _ => rfl) fun _ => rfl
  | replace => exact hset
  | manipulate => exact hset
  | delete => exact hdelete
  | deleteHeader => exact hdelete
  | store =>
    dsimp only
    unfold Meaning.store Meaning.storeAction Meaning.storeKeys
    split
    · refine ((emitGroups_codes _ _ _).bind fun _ _ => ?_).keys (List.append_nil _)
      exact Codes.pure fun _ _ _ => rfl
    · cases hv with
      | some o =>
        dsimp only
        rw [pure_bind, ← bind_assoc]
        exact (store_codes _ hhv).bind fun _ _ => Codes.pure fun _ _ _ => rfl
      | none =>
        -- the header value is fetched for every rule that stores
        have hget : Codes [] P (bindTemp (.getHeader (.lit hr.headerName)))
            (Meaning.callProg _ (.getHeader (clip hr.headerName))) Arg.Is :=
          codes_bindTemp fun _ _ _ _ _ => rfl
        have hstore := hget.bind fun o b => (store_codes (Meaning.storeName hr idx)
          (P := P.and (o.Is b)) fun _ _ h => h.2).bind fun _ _ =>
            Codes.pure (a := false) (b := false) (Q := fun _ _ => .fact True) fun _ _ _ => trivial
        simp only [bind_assoc] at hstore
        exact hstore.absurd fun g e h => (hhv g e h).2 ha
  | log =>
    dsimp only
    exact messageCall_codes hr.name hr.newValue
      (fun _ _ => same_of_is (fun _ _ h => h.2) (fun _ => rfl) fun _ => rfl) fun _ _ => rfl
  | reject =>
    dsimp only
    exact messageCall_codes hr.name hr.newValue
      (fun _ _ => same_of_is (fun _ _ h => h.2) (fun _ => rfl) fun _ => rfl) fun _ _ => rfl
  | _ => exact Codes.pure fun _ _ _ => rfl

/-- The element of a header value. -/
theorem emitElementValue_codes (elem : HmrUriElement) {hv : Arg} {b : Bytes}
    (hhv : ∀ g e, P.Holds g e → (hv.Is b).Holds g e) :
    Codes [] P (emitElementValue hv elem) (Meaning.elementValue Meaning.callProg b elem) Arg.Is :=
  Codes.ite (fun _ => Codes.pure hhv)
    fun _ => codes_bindTemp (same_of_is hhv (fun _ => rfl) fun _ => rfl)

/-- The operands of an element rule: the header's name, its value, the element. -/
def ElementIs (hr : HeaderRule) (name hv ev : Arg) (b b' : Bytes) : Assertion :=
  (name.Is (clip hr.headerName)).and ((hv.Is b).and (ev.Is b'))

/-- A header is set. -/
theorem setHeader_codes {n : Bytes} {name o : Arg} {b : Bytes}
    (hn : ∀ g e, P.Holds g e → (name.Is n).Holds g e)
    (ho : ∀ g e, P.Holds g e → (o.Is b).Holds g e) :
    Codes [] P (do call (.setHeader name o); pure false)
      (do Meaning.callProg _ (.setHeader n b); pure Flow.continue)
      fun t f => .fact (t = (f == Flow.rejected)) := by
  refine (codes_call fun g e T h _ => ?_).bind fun _ _ => Codes.pure fun _ _ _ => rfl
  show (do return RtCall.setHeader (← name.eval clipped e) (← o.eval clipped e)) = _
  rw [(hn g e h).1, (ho g e h).1]
  rfl

/-- An element is set in a header, to what is not empty. -/
theorem setElement_codes {n b nb : Bytes} {name hv nv : Arg} (elem : HmrUriElement)
    (hn : ∀ g e, P.Holds g e → (name.Is n).Holds g e)
    (hhv : ∀ g e, P.Holds g e → (hv.Is b).Holds g e)
    (hnv : ∀ g e, P.Holds g e → (nv.Is nb).Holds g e) :
    Codes [] P (do let ns ← bindTemp (.uriSet hv elem nv); call (.setHeader name ns); pure false)
      (do let v ← Meaning.callProg _ (.uriSet b elem nb)
          Meaning.callProg _ (.setHeader n v)
          pure Flow.continue)
      fun t f => .fact (t = (f == Flow.rejected)) := by
  have hset : Same P (.uriSet hv elem nv) (.uriSet b elem nb) := by
    intro g e T h _
    show (do return RtCall.uriSet (← hv.eval clipped e) elem (← nv.eval clipped e)) = _
    rw [(hhv g e h).1, (hnv g e h).1]
    rfl
  exact (codes_bindTemp hset).bind fun o b =>
    setHeader_codes (fun g e h => hn g e h.1) fun _ _ h => h.2

/-- **The action of an element rule**, up to its branch. -/
theorem emitElementAction_codes (hr : HeaderRule) (er : ElementRule) (elem : HmrUriElement)
    (name hv ev : Arg) (b b' : Bytes)
    (hP : ∀ g e, P.Holds g e → (ElementIs hr name hv ev b b').Holds g e) :
    Codes (Meaning.elementActionKeys hr er) P (emitElementAction hr er elem name hv ev)
      (Meaning.elementAction Meaning.callProg hr er elem b b')
      fun t f => .fact (t = (f == Flow.rejected)) := by
  unfold emitElementAction Meaning.elementAction Meaning.elementActionKeys
  have hn := fun g e h => (hP g e h).1
  have hhv := fun g e h => (hP g e h).2.1
  -- The operands are what they are for the walk, so each call is the one it makes.
  cases er.action with
  | replace =>
    refine ((emitValue_codes er.newValue).bind fun o nb => ?_).keys (List.append_nil _)
    refine Codes.ite (fun _ => ?_) fun _ => ?_
    · exact setHeader_codes (fun g e h => hn g e h.1) fun _ _ h => h.2
    · exact setElement_codes elem (fun g e h => hn g e h.1) (fun g e h => hhv g e h.1)
        fun _ _ h => h.2
  | deleteElement =>
    refine Codes.ite (fun _ => ?_) fun _ => ?_
    · refine (codes_call (same_of_is hn (fun _ => rfl) fun _ => rfl)).bind fun _ _ => ?_
      exact Codes.pure fun _ _ _ => rfl
    · exact setElement_codes elem hn hhv fun _ _ _ => ⟨rfl, fun _ h => by cases h⟩
  | store =>
    dsimp only
    rw [← bind_assoc]
    exact (store_codes _ fun g e h => (hP g e h).2.2).bind fun _ _ => Codes.pure fun _ _ _ => rfl
  | reject =>
    dsimp only
    exact messageCall_codes er.name er.newValue
      (fun _ _ => same_of_is (fun _ _ h => h.2) (fun _ => rfl) fun _ => rfl) fun _ _ => rfl
  | _ => exact Codes.pure fun _ _ _ => rfl

end Emission

end Hmr
