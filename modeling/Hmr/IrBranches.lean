import Hmr.Codes
import Hmr.EarlyReturns
import Hmr.IrGenerator

/-!
# The LLVM back-end does what the rules mean

The function is built a piece at a time, and each piece is about a part of a rule that may
be left early: it starts at the insertion point and ends at another one, or at the block
of what is skipped, or at the block of rejects. `Branches` says that whatever the function
does at these places, and however it is completed, the function does what the part of the
rule does first.

That the function is not complete when a piece of it is looked at is the difficulty. It is
met by quantifying over all that it may become: a piece is right in every function that
has at least the instructions emitted so far (`Cfg.Graph.Le`), since blocks are only added
and instructions only appended. What must not happen is that something is appended to the
block behind a scope while the scope is being built (`cont_ne_here`), or to a block that
has been ended.

## Fuel

A run needs fuel for the blocks it enters. A piece enters only blocks that it makes, each
of them once at most, until it is left, which takes one more. So at its start there is to
be what there is to be at its end, and one for each block that it makes. There are no
loops in the code, so the number of its blocks is enough for the whole function, and none
of the statements is about a run that may run out.

## The order of proof

First come instructions, for which the function is in one block (`inline_branches`), then
branches on a flag (`Tests.branches`), then scopes, where code is left for the block
behind them (`withCont_branches`). The guards, actions and rules of the source are made of
these, and the rule of sequence (`Branches.bind`) puts them together.
-/

namespace Hmr

namespace IrGenerator

open Cfg

/-- How many blocks there are. -/
abbrev Emitter.blocks (s : Emitter) : Nat := s.function.graph.length

/-- **The emitter has a block to go on with**, and nothing is in the block of rejects. -/
structure Emitter.Valid (s : Emitter) : Prop where
  here : s.function.Valid
  reject : ∀ l, s.rejectBb = some l →
    l < s.blocks ∧ l ≠ s.function.here ∧ s.function.graph.block l = []

/-- **More has been emitted.** -/
structure Grows (s s' : Emitter) : Prop where
  valid : s'.Valid
  le : s.function.graph.Le s'.function.graph
  blocks : s.blocks ≤ s'.blocks
  temp : s.numbers.temp ≤ s'.numbers.temp
  reject : ∀ l, s.rejectBb = some l → s'.rejectBb = some l
  rejectNew : ∀ l, s'.rejectBb = some l → s.rejectBb = some l ∨ s.blocks ≤ l
  /-- The insertion point moves to new blocks only. -/
  here : s'.function.here = s.function.here ∨ s.blocks ≤ s'.function.here
  /-- Nothing is appended to another block there was. -/
  others : ∀ l < s.blocks, l ≠ s.function.here →
    s'.function.graph.block l = s.function.graph.block l

namespace Grows

variable {s s' s'' : Emitter}

/-- Nothing has been emitted. -/
theorem refl (h : s.Valid) : Grows s s where
  valid := h
  le := .refl _
  blocks := Nat.le_refl _
  temp := Nat.le_refl _
  reject _ := id
  rejectNew _ := .inl
  here := .inl rfl
  others _ _ _ := rfl

/-- What has been emitted first, and then. -/
theorem trans (h : Grows s s') (h' : Grows s' s'') : Grows s s'' where
  valid := h'.valid
  le := h.le.trans h'.le
  blocks := h.blocks.trans h'.blocks
  temp := h.temp.trans h'.temp
  reject l hl := h'.reject l (h.reject l hl)
  rejectNew l hl := by
    obtain hold | hle := h'.rejectNew l hl
    · exact h.rejectNew l hold
    · exact .inr (h.blocks.trans hle)
  here := by
    obtain heq | hle := h'.here
    · rw [heq]
      exact h.here
    · exact .inr (h.blocks.trans hle)
  others l hl hne := by
    have hne' : l ≠ s'.function.here := by
      obtain heq | hle := h.here
      · rwa [heq]
      · exact Nat.ne_of_lt (Nat.lt_of_lt_of_le hl hle)
    exact (h'.others l (Nat.lt_of_lt_of_le hl h.blocks) hne').trans (h.others l hl hne)

end Grows

/-- The function from the insertion point on. -/
def RunsAt (G : IrFunction) (n : Nat) (s : Emitter) (e : IrEnv) (q : RtProg Nat Nat HmrVerdict) :
    Prop :=
  Runs semantics G n s.function.here s.function.pos e q

variable {α β γ δ : Type} {ks ks' : List TableKey} {P P' : Assertion} {skip : Nat}

/-- **What is emitted is code for a part of a rule**, which is left to `skip`, or to the
block of rejects. -/
def Branches (ks : List TableKey) (P : Assertion) (skip : Nat) (x : IrM α) (p : ExitProg β)
    (Q : α → β → Assertion) : Prop :=
  ∀ s, s.Valid → Grows s (x s).2
    ∧ (x s).2.numbers.symbols = s.numbers.symbols.addAll ks
    ∧ ∀ G, (x s).2.function.graph.Le G → ∀ T, (x s).2.numbers.symbols.Le T →
      ∀ (n : Nat) (q : Except Exit β → RtProg Nat Nat HmrVerdict) (e : IrEnv),
        P.Holds s.numbers e.temps →
        (∀ b e', Agree s.numbers.temp e.temps e'.temps →
          (Q (x s).1 b).Holds (x s).2.numbers e'.temps → RunsAt G (n + 1) (x s).2 e' (q (.ok b))) →
        (∀ e', Agree s.numbers.temp e.temps e'.temps →
          Runs semantics G n skip 0 e' (q (.error .skip))) →
        (∀ l e', (x s).2.rejectBb = some l → Runs semantics G n l 0 e' (q (.error .reject))) →
        RunsAt G (n + 1 + ((x s).2.blocks - s.blocks)) s e (p.run.mapCalls T.resolve >>= q)

namespace Branches

variable {x : IrM α} {p : ExitProg β} {Q Q' : α → β → Assertion}

/-- Nothing is emitted, and nothing is done. -/
theorem pure {a : α} {b : β} (h : ∀ g e, P.Holds g e → (Q a b).Holds g e) :
    Branches [] P skip (Pure.pure a) (Pure.pure b) Q := by
  intro s hs
  refine ⟨.refl hs, rfl, fun G hG T hT n q e he hok _ _ => ?_⟩
  show RunsAt G (n + 1 + (s.blocks - s.blocks)) s e _
  rw [Nat.sub_self]
  exact hok b e (.refl _ _) (h _ _ he)

/-- The keys of a piece, written in another way. -/
theorem keys (h : Branches ks P skip x p Q) (hks : ks = ks') : Branches ks' P skip x p Q := hks ▸ h

/-- The program of a piece, written in another way. -/
theorem of_eq {p' : ExitProg β} (h : Branches ks P skip x p Q) (hp : p = p') :
    Branches ks P skip x p' Q := hp ▸ h

/-- **The rule of sequence**, for what may be left early. The fuel is what is needed from the
second piece on, and the blocks of the first. `R` is what the first piece results in, whatever
has been emitted before. -/
theorem bind_of [hβ : Nonempty β] {R : α → Prop} {f : α → IrM γ} {q : β → ExitProg δ}
    {Q' : γ → δ → Assertion} (hx : Branches ks P skip x p Q) (hR : ∀ s, R (x s).1)
    (hf : ∀ a b, R a → Branches ks' (P.and (Q a b)) skip (f a) (q b) Q') :
    Branches (ks ++ ks') P skip (x >>= f) (p >>= q) Q' := by
  intro s hs
  obtain ⟨hgrow, hsym, hrun⟩ := hx s hs
  obtain ⟨hgrow', hsym', -⟩ := hf (x s).1 hβ.some (hR s) (x s).2 hgrow.valid
  have hnumbers : Numbers.Le s.numbers (x s).2.numbers := ⟨hgrow.temp, ks, hsym⟩
  refine ⟨hgrow.trans hgrow', ?_, fun G hG T hT n k e he hok hskip hrej => ?_⟩
  · rw [SymbolTable.addAll_append, ← hsym]
    exact hsym'
  · show RunsAt G (n + 1 + ((f (x s).1 (x s).2).2.blocks - s.blocks)) s e _
    -- the first piece leaves over the fuel for the blocks of the second
    have hfuel : n + 1 + ((f (x s).1 (x s).2).2.blocks - s.blocks)
        = n + ((f (x s).1 (x s).2).2.blocks - (x s).2.blocks) + 1
          + ((x s).2.blocks - s.blocks) := by
      have h := hgrow.blocks
      have h' := hgrow'.blocks
      omega
    -- what is left early in the first piece is left in the whole
    have hprog : (p >>= q).run.mapCalls T.resolve >>= k
        = p.run.mapCalls T.resolve >>= fun o =>
          match o with
          | .ok b => (q b).run.mapCalls T.resolve >>= k
          | .error x => k (.error x) := by
      rw [ExceptT.run_bind, Prog.mapCalls_bind, bind_assoc]
      refine congrArg _ (funext fun o => ?_)
      cases o <;> rfl
    rw [hfuel, hprog]
    refine hrun G (hgrow'.le.trans hG) T ((SymbolTable.le_addAll _ ks').trans (hsym' ▸ hT)) _ _ e he
      (fun b e' ha hq => ?_) (fun e' ha => (hskip e' ha).mono (Nat.le_add_right _ _)) fun l e' hl =>
        (hrej l e' (hgrow'.reject l hl)).mono (Nat.le_add_right _ _)
    obtain ⟨-, -, hrun'⟩ := hf (x s).1 b (hR s) (x s).2 hgrow.valid
    rw [Nat.add_right_comm]
    exact hrun' G hG T hT n k e' ⟨P.stable hnumbers ha he, hq⟩
      (fun d e'' ha' => hok d e'' (ha.trans hgrow.temp ha'))
      (fun e'' ha' => hskip e'' (ha.trans hgrow.temp ha')) hrej

/-- **The rule of sequence**, where the second piece does not depend on what has been emitted. -/
theorem bind [Nonempty β] {f : α → IrM γ} {q : β → ExitProg δ} {Q' : γ → δ → Assertion}
    (hx : Branches ks P skip x p Q)
    (hf : ∀ a b, Branches ks' (P.and (Q a b)) skip (f a) (q b) Q') :
    Branches (ks ++ ks') P skip (x >>= f) (p >>= q) Q' :=
  hx.bind_of (R := fun _ => True) (fun _ => trivial) fun a b _ => hf a b

/-- The program does nothing. -/
theorem silent {f : α → IrM γ} {q : ExitProg δ} {Q : α → Unit → Assertion}
    {Q' : γ → δ → Assertion} (hx : Branches ks P skip x (Pure.pure ()) Q)
    (hf : ∀ a, Branches ks' (P.and (Q a ())) skip (f a) q Q') :
    Branches (ks ++ ks') P skip (x >>= f) q Q' :=
  hx.bind (q := fun _ => q) fun a _ => hf a

/-- Code that is not run. -/
theorem absurd {p' : ExitProg δ} {Q' : α → δ → Assertion} (h : Branches ks P' skip x p' Q')
    (hP : ∀ g e, ¬ P.Holds g e) : Branches ks P skip x p Q := by
  intro s hs
  obtain ⟨hgrow, hsym, -⟩ := h s hs
  exact ⟨hgrow, hsym, fun G hG T hT n q e he => (hP _ _ he).elim⟩

/-- Nothing is put out where nothing is run. -/
theorem pure_absurd {a : α} (hP : ∀ g e, ¬ P.Holds g e) :
    Branches [] P skip (Pure.pure a) p Q :=
  (Branches.pure (P := P) (b := ()) (Q := fun _ _ => .fact True) fun _ _ _ => trivial).absurd hP

end Branches

/-! ## Instructions -/

section
variable {G : IrFunction} {T : SymbolTable} {n : Nat} {s : Emitter} {e : IrEnv}
variable {q : RtProg Nat Nat HmrVerdict}

/-- Instructions are appended, and numbers given out. -/
theorem grows_emit (hs : s.Valid) (ops : Block IrInstr Flag HmrVerdict) {g : Numbers}
    (hg : s.numbers.temp ≤ g.temp) :
    Grows s { s with function := s.function.emit ops, numbers := g } where
  valid := by
    refine ⟨hs.here.emit, fun l hl => ?_⟩
    obtain ⟨hlt, hne, hempty⟩ := hs.reject l hl
    exact ⟨Nat.lt_of_lt_of_eq hlt Builder.length_emit.symm, hne,
      (Builder.block_emit_of_ne hs.here hne).trans hempty⟩
  le := Builder.le_emit hs.here
  blocks := Nat.le_of_eq Builder.length_emit.symm
  temp := hg
  reject _ := id
  rejectNew _ := .inl
  here := .inl rfl
  others _ _ hl := Builder.block_emit_of_ne hs.here hl

/-- A block is made, and it may be the one of rejects. -/
theorem grows_newBlock (hs : s.Valid) (r : Option Nat)
    (hr : r = s.rejectBb ∨ s.rejectBb = none ∧ r = some s.blocks) :
    Grows s { s with function := s.function.newBlock, rejectBb := r } where
  valid := by
    refine ⟨hs.here.newBlock, fun l hl => ?_⟩
    obtain rfl | ⟨-, rfl⟩ := hr
    · obtain ⟨hlt, hne, hempty⟩ := hs.reject l hl
      exact ⟨Nat.lt_of_lt_of_eq (Nat.lt_succ_of_lt hlt) Builder.length_newBlock.symm, hne,
        (Builder.block_newBlock l).trans hempty⟩
    · obtain rfl := Option.some.inj hl
      exact ⟨Nat.lt_of_lt_of_eq (Nat.lt_succ_self _) Builder.length_newBlock.symm,
        Nat.ne_of_gt hs.here,
        (Builder.block_newBlock _).trans (Builder.block_of_le (Nat.le_refl _))⟩
  le := Builder.le_newBlock
  blocks := Nat.le_of_lt (Nat.lt_of_lt_of_eq (Nat.lt_succ_self _) Builder.length_newBlock.symm)
  temp := Nat.le_refl _
  reject l hl := by
    obtain rfl | ⟨hnone, -⟩ := hr
    · exact hl
    · rw [hnone] at hl
      cases hl
  rejectNew l hl := by
    obtain rfl | ⟨-, rfl⟩ := hr
    · exact .inl hl
    · exact .inr (Nat.le_of_eq (Option.some.inj hl))
  here := .inl rfl
  others l _ _ := Builder.block_newBlock l

/-- Straight-line code in a block. -/
theorem runOps_code (jump : Nat → IrEnv → RtProg Nat Nat (Option HmrVerdict)) (is : List Instr)
    (ops : Block IrInstr Flag HmrVerdict) (e : IrEnv) :
    runOps semantics jump (is.map (fun i => .instr (.code i)) ++ ops) e
      = Instr.run clipped is e.temps >>= fun o =>
        match o with
        | none => pure none
        | some t => runOps semantics jump ops { e with temps := t } := by
  induction is generalizing e with
  | nil => rfl
  | cons i is ih =>
    rw [List.map_cons, List.cons_append, runOps, Instr.run, bind_assoc]
    show (i.step clipped e.temps >>= fun o => pure (o.map _)) >>= _ = _
    rw [bind_assoc]
    refine congrArg _ (funext fun o => ?_)
    cases o with
    | none => rfl
    | some t => exact ih { e with temps := t }

/-- **Straight-line code.** -/
theorem inline_branches {x : CodeM α} {p : SymProg β} {Q : α → β → Assertion}
    (h : Codes ks P x p Q) : Branches ks P skip (inline x) (Meaning.always p) Q := by
  intro s hs
  obtain ⟨is, his, htemp, hsym, hrun⟩ := h ⟨s.numbers, []⟩
  have hs' : (inline x s).2 = { s with
      function := s.function.emit (is.map fun i => .instr (.code i))
      numbers := (x ⟨s.numbers, []⟩).2.toNumbers } := by
    show Emitter.mk (s.function.emit ((x ⟨s.numbers, []⟩).2.instrs.map _)) _ _ = _
    rw [his]
    rfl
  rw [hs']
  -- no block is made, so all of the fuel is for what comes behind
  refine ⟨grows_emit hs _ htemp, hsym, fun G hG T hT n q e he hok _ _ => ?_⟩
  obtain ⟨rest, hat, hafter⟩ := Builder.drop_emit hs.here hG
  show RunsAt G (n + 1 + ((s.function.emit _).graph.length - s.function.graph.length)) s e _
  rw [Builder.length_emit, Nat.sub_self, Nat.add_zero, Meaning.run_always_bind, RunsAt, Runs, hat,
    runOps_code, map_some_bind]
  refine hrun e.temps he T hT _ _ fun b t ha hq => ?_
  have hb := hok b { e with temps := t } ha hq
  rw [RunsAt, Runs] at hb
  have hpos : (s.function.emit (is.map fun i => .instr (.code i))).pos
      = s.function.pos + (is.map fun i => (.instr (.code i) : IrOp)).length :=
    Builder.pos_emit hs.here
  rw [hpos] at hb
  exact (congrArg (fun ops => runOps semantics _ ops _) hafter.symm).trans hb

/-- **An instruction that sets a flag.** -/
theorem runsAt_flag {A : Type} (i : Nat → IrInstr) (hs : s.Valid)
    (hG : (flag i s).2.function.graph.Le G) {p : RtProg Nat Nat A} {f : A → Bool}
    {k : A → RtProg Nat Nat HmrVerdict}
    (hstep : (i s.numbers.temp).step e
      = (fun a => some (e.setFlag s.numbers.temp (f a))) <$> p)
    (hk : ∀ a, RunsAt G n (flag i s).2 (e.setFlag s.numbers.temp (f a)) (k a)) :
    RunsAt G n s e (p >>= k) := by
  obtain ⟨rest, hat, -⟩ := Builder.drop_emit hs.here hG
  refine Runs.instr hat hstep fun b => ?_
  have hpos : (s.function.emit [.instr (i s.numbers.temp)]).pos = s.function.pos + 1 :=
    Builder.pos_emit hs.here
  have hb := hk b
  rwa [RunsAt, show (flag i s).2.function.pos = s.function.pos + 1 from hpos] at hb

/-- **A branch.** The block where the flag is set is a new one, and starts out empty. -/
theorem runsAt_guard {c : Flag} {b : Bool} (hs : s.Valid)
    (hG : (guard c skip s).2.function.graph.Le G) (hc : c.eval e = some b)
    (hok : b = true → RunsAt G (n + 1) (guard c skip s).2 e q)
    (hskip : b = false → Runs semantics G n skip 0 e q) : RunsAt G (n + 1 + 1) s e q := by
  obtain ⟨rest, hat, -⟩ := Builder.drop_emit hs.here.newBlock hG
  have hop : (G.block s.function.here).drop s.function.pos
      = .condBr c s.blocks skip :: rest := by
    rw [← Builder.pos_newBlock]
    exact hat
  refine Runs.condBr hop hc ?_
  cases b with
  | false => exact (hskip rfl).mono (Nat.le_succ _)
  | true =>
    -- the new block is empty, so its beginning is the insertion point
    have hpos : (guard c skip s).2.function.pos = 0 := by
      show ((s.function.newBlock.emit [.condBr c s.blocks skip]).graph.block s.blocks).length = 0
      rw [Builder.block_emit_of_ne hs.here.newBlock (Nat.ne_of_gt hs.here), Builder.block_newBlock,
        Builder.block_of_le (Nat.le_refl _)]
      rfl
    have hrun := hok rfl
    rwa [RunsAt, hpos] at hrun

end

/-- An instruction that sets a flag has a number of its own. -/
theorem grows_flag {s : Emitter} (hs : s.Valid) (i : Nat → IrInstr) : Grows s (flag i s).2 :=
  grows_emit hs _ (Nat.le_succ _)

/-- A guard makes one block, and ends the one it stands in. -/
theorem grows_guard {s : Emitter} (hs : s.Valid) (c : Flag) : Grows s (guard c skip s).2 := by
  have hblock := grows_newBlock hs s.rejectBb (.inl rfl)
  have hbranch := hblock.trans
    (grows_emit hblock.valid [.condBr c s.blocks skip] (Nat.le_refl _))
  have hlen : (s.function.newBlock.emit [.condBr c s.blocks skip]).graph.length = s.blocks + 1 := by
    rw [Builder.length_emit, Builder.length_newBlock]
  exact { hbranch with
    valid := ⟨Nat.lt_of_lt_of_eq (Nat.lt_succ_self _) hlen.symm, fun l hl =>
      ⟨(hbranch.valid.reject l hl).1, Nat.ne_of_lt (hs.reject l hl).1,
        (hbranch.valid.reject l hl).2.2⟩⟩
    here := .inr (Nat.le_refl _) }

/-- It makes one block. -/
@[simp] theorem blocks_guard (s : Emitter) (c : Flag) :
    (guard c skip s).2.blocks = s.blocks + 1 := by
  show (s.function.newBlock.emit [.condBr c s.blocks skip]).graph.length = _
  rw [Builder.length_emit, Builder.length_newBlock]

/-- **What is emitted computes a flag**, which is the answer of a program. -/
def Tests (ks : List TableKey) (P : Assertion) (x : IrM Flag) (p : SymProg Bool) : Prop :=
  ∀ s, s.Valid → Grows s (x s).2
    ∧ (x s).2.numbers.symbols = s.numbers.symbols.addAll ks
    ∧ (x s).2.blocks = s.blocks
    ∧ ∀ G, (x s).2.function.graph.Le G → ∀ T, (x s).2.numbers.symbols.Le T →
      ∀ (n : Nat) (q : Bool → RtProg Nat Nat HmrVerdict) (e : IrEnv),
        P.Holds s.numbers e.temps →
        (∀ b e', Agree s.numbers.temp e.temps e'.temps → (x s).1.eval e' = some b →
          RunsAt G n (x s).2 e' (q b)) →
        RunsAt G n s e (p.mapCalls T.resolve >>= q)

/-- **A guard**: what is computed decides where it goes on. -/
theorem Tests.branches {x : IrM Flag} {p : SymProg Bool} (h : Tests ks P x p) :
    Branches ks P skip (do let c ← x; guard c skip) (Meaning.check p)
      fun _ _ => .fact True := by
  intro s hs
  obtain ⟨hgrow, hsym, hblocks, hrun⟩ := h s hs
  refine ⟨hgrow.trans (grows_guard hgrow.valid _), hsym, fun G hG T hT n q e he hok hskip _ => ?_⟩
  show RunsAt G (n + 1 + ((guard (x s).1 skip (x s).2).2.blocks - s.blocks)) s e _
  rw [blocks_guard, hblocks, Nat.add_sub_cancel_left, Meaning.run_check_bind]
  refine hrun G ((grows_guard hgrow.valid _).le.trans hG) T hT _ _ e he fun b e' ha hb => ?_
  refine runsAt_guard hgrow.valid hG hb (fun htrue => ?_) fun hfalse => ?_
  · rw [if_pos htrue]
    exact hok () e' ha trivial
  · rw [if_neg (by rw [hfalse]; exact Bool.false_ne_true)]
    exact hskip e' ha

/-- A call that answers a flag. -/
theorem tests_call {c : CodeCall .flag} {c' : SymCall .flag} (hc : Emission.Same P c c') :
    Tests [] P (flag (.test · c)) (Meaning.callProg _ c') := by
  intro s hs
  refine ⟨grows_flag hs _, rfl, Builder.length_emit, fun G hG T hT n q e he hq => ?_⟩
  refine runsAt_flag _ hs hG (p := Prog.perform (T.resolve _ c')) (f := id) ?_ fun b => ?_
  · rw [IrInstr.step, hc _ e.temps T he hT]
    rfl
  · exact hq b _ (.refl _ _) (Function.update_self ..)

/-- Its negation. -/
theorem Tests.not {x : IrM Flag} {p : SymProg Bool} (h : Tests ks P x p) :
    Tests ks P (do let c ← x; flag (.not · c)) (do let b ← p; pure !b) := by
  intro s hs
  obtain ⟨hgrow, hsym, hblocks, hrun⟩ := h s hs
  have hnot := grows_flag hgrow.valid (.not · (x s).1)
  refine ⟨hgrow.trans hnot, hsym, Builder.length_emit.trans hblocks,
    fun G hG T hT n q e he hq => ?_⟩
  rw [Prog.mapCalls_bind, bind_assoc]
  refine hrun G (hnot.le.trans hG) T hT n _ e he fun b e' ha hb => ?_
  refine runsAt_flag (.not · (x s).1) hgrow.valid hG (p := pure ()) (f := fun _ => !b)
    (k := fun _ => q !b) ?_ fun _ => ?_
  · show pure ((x s).1.eval e' >>= _) = _
    rw [hb]
    rfl
  · exact hq _ _ ha (Function.update_self ..)

/-- The flags that are or-ed are below the next register. -/
def Flag.Below (n : Nat) : Flag → Prop
  | const _ => True
  | reg k => k < n

/-- Such a flag is not changed by the next register. -/
theorem Flag.eval_setFlag {c : Flag} {n : Nat} (hc : c.Below n) (e : IrEnv) (b : Bool) :
    c.eval (e.setFlag n b) = c.eval e := by
  cases c with
  | const b => rfl
  | reg k => exact Function.update_of_ne (Nat.ne_of_lt hc) _ _

/-- **The methods that are accepted**, one after the other.

By induction on the methods, the flag that says whether one has been accepted so far being the
one that the next method is joined to. Two registers are taken for each: for its comparison, and
for the two together. No block is begun, so the code is run in one piece. -/
theorem emitMethods_runs (method : Arg) (b : Bytes) (methods : List Bytes) (acc : Flag)
    {s : Emitter} (hs : s.Valid) (hacc : acc.Below s.numbers.temp) :
    Grows s (emitMethods method acc methods s).2
      ∧ (emitMethods method acc methods s).2.numbers.symbols = s.numbers.symbols
      ∧ (emitMethods method acc methods s).2.blocks = s.blocks
      ∧ ∀ G, (emitMethods method acc methods s).2.function.graph.Le G →
        ∀ (n : Nat) (q : RtProg Nat Nat HmrVerdict) (e : IrEnv) (a : Bool),
          method.eval clipped e.temps = some b → acc.eval e = some a →
          (∀ e', e'.temps = e.temps →
            (emitMethods method acc methods s).1.eval e'
              = some (a || methods.any fun x => Rt.strEq b (clip x) true) →
            RunsAt G n (emitMethods method acc methods s).2 e' q) →
          RunsAt G n s e q := by
  induction methods generalizing acc s with
  | nil =>
    refine ⟨.refl hs, rfl, rfl, fun G _ n q e a _ ha hq => hq e rfl ?_⟩
    rw [List.any_nil, Bool.or_false]
    exact ha
  | cons m rest ih =>
    -- two registers for each method: of its comparison, and of all so far
    have heq := grows_flag hs (.strEq · method (.lit m) true)
    have hor := grows_flag heq.valid (.or · acc (.reg s.numbers.temp))
    obtain ⟨hgrow, hsym, hblocks, hrun⟩ := ih (.reg (s.numbers.temp + 1)) hor.valid
      (Nat.lt_succ_self (s.numbers.temp + 1))
    have hlength := hblocks.trans (Builder.length_emit.trans Builder.length_emit)
    refine ⟨(heq.trans hor).trans hgrow, hsym, hlength, fun G hG n q e a hm ha hq => ?_⟩
    have hGor := hgrow.le.trans hG
    refine runsAt_flag (.strEq · method (.lit m) true) hs (hor.le.trans hGor) (p := pure ())
      (f := fun _ => Rt.strEq b (clip m) true) (k := fun _ => q) ?_ fun _ => ?_
    · show pure (method.eval clipped e.temps >>= _) = _
      rw [hm]
      rfl
    · refine runsAt_flag (.or · acc (.reg s.numbers.temp)) heq.valid hGor (p := pure ())
        (f := fun _ => a || Rt.strEq b (clip m) true) (k := fun _ => q) ?_ fun _ => ?_
      · show pure (acc.eval (e.setFlag s.numbers.temp _) >>= fun b => _ >>= _) = _
        rw [Flag.eval_setFlag hacc, ha]
        show pure (Function.update e.flags s.numbers.temp _ s.numbers.temp >>= _) = _
        rw [Function.update_self]
        rfl
      · refine hrun G hG n q _ _ hm (Function.update_self ..) fun e' he' hany => hq e' he' ?_
        rw [List.any_cons, ← Bool.or_assoc]
        exact hany

/-- **The methods**: the flag is whether one of them is the method of the message. -/
theorem tests_methods {method : Arg} {b : Bytes} (methods : List Bytes)
    (hm : ∀ g e, P.Holds g e → (method.Is b).Holds g e) :
    Tests [] P (emitMethods method (.const false) methods)
      (pure (methods.any fun x => Rt.strEq b (clip x) true)) := by
  intro s hs
  obtain ⟨hgrow, hsym, hblocks, hrun⟩ := emitMethods_runs method b methods (.const false) hs trivial
  refine ⟨hgrow, hsym, hblocks, fun G hG T _ n q e he hq => ?_⟩
  refine hrun G hG n _ e false (hm _ _ he).1 rfl fun e' he' hany => hq _ e' ?_ hany
  rw [he']
  exact .refl _ _

/-! ## Guards and scopes -/

/-- The guard by message type. -/
theorem emitMsgTypeGuard_branches (hr : HeaderRule) :
    Branches [] P skip (emitMsgTypeGuard hr skip)
      (Meaning.check (Meaning.msgTypeGuard Meaning.callProg hr.msgType)) fun _ _ => .fact True := by
  have hreq : Tests [] P (flag (.test · .isRequest)) (Meaning.callProg _ .isRequest) :=
    tests_call fun _ _ _ _ _ => rfl
  unfold emitMsgTypeGuard Meaning.msgTypeGuard
  cases hr.msgType with
  | request => exact hreq.branches
  | reply => exact hreq.not.branches
  | _ => exact Branches.pure fun _ _ _ => trivial

/-- The guard by method. -/
theorem emitMethodGuard_branches (hr : HeaderRule) :
    Branches [] P skip (emitMethodGuard hr skip)
      (Meaning.check (Meaning.methodGuard Meaning.callProg hr.methods)) fun _ _ => .fact True := by
  unfold emitMethodGuard Meaning.methodGuard HeaderRule.hasMethodFilter
  cases hr.methods.isEmpty with
  | true => exact Branches.pure fun _ _ _ => trivial
  | false =>
    refine (inline_branches (Emission.codes_getMethod P)).bind fun o b => ?_
    exact (tests_methods (P := P.and (o.Is b)) hr.methods fun _ _ h => h.2).branches

/-- **The guard by match-value.** -/
theorem emitMatchGuard_branches (cmp : ComparisonType) (mvt : MatchValType) (mv : Value) {o : Arg}
    {b : Bytes} (ho : Meaning.alwaysHolds mv = false → ∀ g e, P.Holds g e → (o.Is b).Holds g e) :
    Branches (Meaning.guardKeys cmp mv) P skip (emitMatchGuard cmp mvt mv o skip)
      (Meaning.check (Meaning.guard Meaning.callProg cmp mvt mv b)) fun _ _ => .fact True := by
  unfold emitMatchGuard Meaning.guard
  cases hmv : Meaning.alwaysHolds mv with
  | true =>
    rw [Meaning.guardKeys, hmv]
    exact Branches.pure fun _ _ _ => trivial
  | false =>
    have hcall : Branches _ P skip (inline (Emission.matchCall cmp mvt mv o)) (pure ()) _ :=
      inline_branches (Emission.matchCall_codes cmp mvt hmv (ho hmv))
    refine (hcall.silent fun c => ?_).keys (List.append_nil _)
    have htest : Tests [] (P.and (CallIs c (Meaning.matchCall cmp mvt mv b)))
        (flag (.test · c)) (Meaning.callProg _ (Meaning.matchCall cmp mvt mv b)) :=
      tests_call fun g e T h hT => h.2 g e T (.refl g) (.refl _ _) hT
    cases mv.negated with
    | true => exact htest.not.branches
    | false =>
      rw [← bind_pure (Meaning.callProg _ _)] at htest
      exact htest.branches

/-- The block of rejects that there is. -/
theorem rejectBlock_of_some {s : Emitter} {l : Nat} (h : s.rejectBb = some l) :
    rejectBlock s = (l, s) := by
  rw [rejectBlock, h]

/-- The block of rejects is made when it is first wanted. -/
theorem rejectBlock_of_none {s : Emitter} (h : s.rejectBb = none) :
    rejectBlock s = (s.blocks,
      { s with function := s.function.newBlock, rejectBb := some s.blocks }) := by
  rw [rejectBlock, h]

/-- **A reject** goes to the block of rejects, which is made if there is none. -/
theorem reject_branches {Q : Bool → β → Assertion} :
    Branches [] P skip (do let l ← rejectBlock; append (.br l); pure true) (throw .reject) Q := by
  intro s hs
  have happend : ((do let l ← rejectBlock; append (.br l); pure true : IrM Bool) s).2
      = (append (.br (rejectBlock s).1) (rejectBlock s).2).2 := rfl
  rw [happend]
  cases hreject : s.rejectBb with
  | some l =>
    rw [rejectBlock_of_some hreject]
    refine ⟨grows_emit hs _ (Nat.le_refl _), rfl, fun G hG T _ n q e _ _ _ hrej => ?_⟩
    obtain ⟨rest, hat, -⟩ := Builder.drop_emit hs.here hG
    exact (Runs.br hat (hrej l e hreject)).mono (Nat.le_add_right _ _)
  | none =>
    rw [rejectBlock_of_none hreject]
    have hnew := grows_newBlock hs (some s.blocks) (.inr ⟨hreject, rfl⟩)
    refine ⟨hnew.trans (grows_emit hnew.valid _ (Nat.le_refl _)), rfl,
      fun G hG T _ n q e _ _ _ hrej => ?_⟩
    obtain ⟨rest, hat, -⟩ := Builder.drop_emit hs.here.newBlock hG
    rw [Builder.pos_newBlock] at hat
    exact (Runs.br hat (hrej s.blocks e rfl)).mono (Nat.le_add_right _ _)

/-- **The action of a rule, and its branch.** -/
theorem branch_branches [Nonempty β] {action : CodeM Bool} {p : SymProg β} {r : β → Bool}
    (h : Codes ks P action p fun t b => .fact (t = r b)) :
    Branches ks P skip (branch action)
      (do let b ← Meaning.always p; if r b then throw .reject else pure ())
      fun t _ => .fact (t = false) := by
  refine ((inline_branches h).bind fun t b => ?_).keys (List.append_nil _)
  -- the emitter knows whether the action rejects, so no run says otherwise
  by_cases htr : t = r b
  · subst htr
    cases r b with
    | true => exact reject_branches
    | false => exact Branches.pure fun _ _ _ => rfl
  · cases t with
    | true =>
      exact (reject_branches (P := P) (Q := fun _ (_ : Unit) => .fact True)).absurd
        fun _ _ h => htr h.2
    | false =>
      exact Branches.pure_absurd fun _ _ h => htr h.2

/-- The end of such code: the branch, unless there has been one, and the block behind it. -/
def closeCont (terminated : Bool) (cont : Nat) (s : Emitter) : Emitter :=
  { s with function := (if terminated then s.function else s.function.emit [.br cont]).moveTo cont }

section
variable {s s' : Emitter} {t : Bool}

/-- Code in a scope: a block is made for what is behind it, and gone on with at its end. -/
theorem withCont_eq (body : Nat → IrM Bool) (s : Emitter) : (withCont body s).2
    = closeCont (body s.blocks { s with function := s.function.newBlock }).1 s.blocks
      (body s.blocks { s with function := s.function.newBlock }).2 := by
  have hend : ∀ r : Bool × Emitter,
      ((if r.1 then do pure (); setInsertPoint s.blocks
        else do append (.br s.blocks); setInsertPoint s.blocks : IrM Unit) r.2).2
        = closeCont r.1 s.blocks r.2 := by
    rintro ⟨t, s'⟩
    cases t <;> rfl
  exact hend _

/-- Other blocks are left as they are. -/
theorem block_closeCont (hs' : s'.Valid) {l cont : Nat} (hl : l ≠ s'.function.here) :
    (closeCont t cont s').function.graph.block l = s'.function.graph.block l := by
  cases t with
  | true => rfl
  | false => exact Builder.block_emit_of_ne hs'.here hl

/-- The end of a scope makes no block. -/
@[simp] theorem blocks_closeCont {cont : Nat} : (closeCont t cont s').blocks = s'.blocks := by
  cases t with
  | true => rfl
  | false => exact Builder.length_emit

/-- It appends to the function at most. -/
theorem le_closeCont (hs' : s'.Valid) {cont : Nat} :
    s'.function.graph.Le (closeCont t cont s').function.graph := by
  cases t with
  | true => exact .refl _
  | false => exact Builder.le_emit hs'.here

/-- The block that is made is in the function. -/
theorem blocks_lt_newBlock : s.blocks < s.function.newBlock.graph.length :=
  Nat.lt_of_lt_of_eq (Nat.lt_succ_self _) Builder.length_newBlock.symm

variable (hs : s.Valid) (h : Grows { s with function := s.function.newBlock } s')
include hs h

/-- The insertion point does not get to the block behind. -/
theorem cont_ne_here : s.blocks ≠ s'.function.here := by
  obtain heq | hle := h.here
  · rw [heq]
    exact Nat.ne_of_gt hs.here
  · exact Nat.ne_of_lt (Nat.lt_of_lt_of_le blocks_lt_newBlock hle)

/-- Nothing is in the block behind. -/
theorem block_cont : s'.function.graph.block s.blocks = [] :=
  (h.others _ blocks_lt_newBlock (Nat.ne_of_gt hs.here)).trans
    ((Builder.block_newBlock _).trans (Builder.block_of_le (Nat.le_refl _)))

/-- **Code in a scope is emitted** like other code. -/
theorem grows_closeCont : Grows s (closeCont t s.blocks s') := by
  have hr := (grows_newBlock hs s.rejectBb (.inl rfl)).trans h
  exact {
    valid := by
      refine ⟨Nat.lt_of_lt_of_eq (Nat.lt_of_lt_of_le blocks_lt_newBlock h.blocks)
        blocks_closeCont.symm, fun l hl => ?_⟩
      obtain ⟨hlt, hne, hempty⟩ := h.valid.reject l hl
      refine ⟨Nat.lt_of_lt_of_eq hlt blocks_closeCont.symm, ?_,
        (block_closeCont h.valid hne).trans hempty⟩
      obtain hold | hle := h.rejectNew l hl
      · exact Nat.ne_of_lt (hs.reject l hold).1
      · exact Nat.ne_of_gt (Nat.lt_of_lt_of_le blocks_lt_newBlock hle)
    le := hr.le.trans (le_closeCont h.valid)
    blocks := hr.blocks.trans (Nat.le_of_eq blocks_closeCont.symm)
    temp := hr.temp
    reject := hr.reject
    rejectNew := hr.rejectNew
    here := .inr (Nat.le_refl _)
    others := fun l hl hlne => by
      refine (block_closeCont h.valid fun heq => ?_).trans (hr.others l hl hlne)
      obtain hhere | hle := hr.here
      · exact hlne (heq.trans hhere)
      · exact absurd (heq ▸ hl) (Nat.not_lt_of_le hle) }

end

/-- **Code that may be left for the block behind it.** Nothing is appended to that block
before it is gone on with. -/
theorem withCont_branches {body : Nat → IrM Bool} {p : ExitProg Unit}
    (h : ∀ cont, Branches ks P cont (body cont) p fun t _ => .fact (t = false)) :
    Branches ks P skip (withCont body) (Meaning.scope p) fun _ _ => .fact True := by
  intro s hs
  have hnew := grows_newBlock hs s.rejectBb (.inl rfl)
  obtain ⟨hgrow, hsym, hrun⟩ := h s.blocks { s with function := s.function.newBlock } hnew.valid
  rw [withCont_eq]
  generalize body s.blocks { s with function := s.function.newBlock } = r at *
  refine ⟨grows_closeCont hs hgrow, hsym, fun G hG T hT n q e he hok _ hrej => ?_⟩
  -- the block behind is where it is gone on, be it left early or at its end
  have hbehind : ∀ e', Agree s.numbers.temp e.temps e'.temps →
      Runs semantics G (n + 1) s.blocks 0 e' (q (.ok ())) := by
    intro e' ha
    have hrun' := hok () e' ha trivial
    have hpos : (closeCont r.1 s.blocks r.2).function.pos = 0 := congrArg List.length
      ((block_closeCont hgrow.valid (cont_ne_here hs hgrow)).trans (block_cont hs hgrow))
    rwa [RunsAt, hpos] at hrun'
  have hfuel : n + 1 + ((closeCont r.1 s.blocks r.2).blocks - s.blocks)
      = n + 1 + 1 + (r.2.blocks - s.function.newBlock.graph.length) := by
    have hle : s.function.newBlock.graph.length ≤ r.2.blocks := hgrow.blocks
    have hlen : s.function.newBlock.graph.length = s.blocks + 1 := Builder.length_newBlock
    rw [blocks_closeCont]
    omega
  rw [hfuel, Meaning.run_scope_bind]
  have hbody := hrun G ((le_closeCont hgrow.valid).trans hG) T hT (n + 1) (Meaning.behind q) e he
    (fun b e' ha ht => ?_) hbehind fun l e' hl => (hrej l e' hl).mono (Nat.le_succ _)
  · rw [RunsAt, Builder.pos_newBlock] at hbody
    exact hbody
  · have hnotyet : r.1 = false := ht
    rw [closeCont, hnotyet] at hG
    obtain ⟨rest, hat, -⟩ := Builder.drop_emit hgrow.valid.here hG
    exact Runs.br hat (hbehind e' ha)

/-! ## Rules -/

/-- **`emit_element`**: a scope with the guard of the rule and its action. -/
theorem emitElement_branches (hr : HeaderRule) (er : ElementRule) (elem : HmrUriElement) :
    Branches (Meaning.guardKeys er.comparison er.matchValue ++ Meaning.elementActionKeys hr er) P
      skip (emitElement hr er elem) (Meaning.scope (Meaning.elementSteps hr er elem))
      fun _ _ => .fact True := by
  refine withCont_branches fun cont => ?_
  have hget : Codes [] P (Emission.bindTemp (.getHeader (.lit hr.headerName)))
      (Meaning.callProg _ (.getHeader (clip hr.headerName))) Arg.Is :=
    Emission.codes_bindTemp fun _ _ _ _ _ => rfl
  refine (inline_branches hget).bind fun hv b => ?_
  have hvalue := Emission.emitElementValue_codes (P := P.and (hv.Is b)) elem fun _ _ h => h.2
  refine (inline_branches hvalue).bind fun ev b' => ?_
  refine (emitMatchGuard_branches er.comparison er.matchValType er.matchValue
    (P := (P.and (hv.Is b)).and (ev.Is b')) fun _ _ _ h => h.2).bind fun _ _ => ?_
  have haction := Emission.emitElementAction_codes
    (P := ((P.and (hv.Is b)).and (ev.Is b')).and (.fact True)) hr er elem (.lit hr.headerName)
    hv ev b b' fun g e h => ⟨⟨rfl, fun _ h => by cases h⟩, h.1.1.2, h.1.2⟩
  have hflow : Nonempty Flow := ⟨.continue⟩
  have hbranch : Branches _ _ cont _ _ _ := branch_branches haction
  refine hbranch.of_eq (bind_congr fun w => ?_)
  cases w <;> rfl

/-- The element rules of a header. -/
theorem emitElementRules_branches (hr : HeaderRule) (ers : List ElementRule) :
    Branches (ers.flatMap (Meaning.elementKeys hr)) P skip (emitElementRules hr ers)
      (Meaning.elementRulesSteps hr ers) fun _ _ => .fact True := by
  induction ers generalizing P with
  | nil => exact Branches.pure fun _ _ _ => trivial
  | cons er ers ih =>
    rw [List.flatMap_cons, emitElementRules, Meaning.elementRulesSteps, Meaning.elementKeys]
    cases Lowering.uriElement er.type with
    | none => exact ih
    | some elem => exact (emitElement_branches hr er elem).bind fun _ _ => ih

/-- Whether an action ends its rule is not a matter of the blocks. -/
theorem branch_fst (action : CodeM Bool) (s : Emitter) :
    (branch action s).1 = (action ⟨s.numbers, []⟩).1 := by
  show ((if (action ⟨s.numbers, []⟩).1 then do let l ← rejectBlock; append (.br l); pure true
    else pure false : IrM Bool) (inline action s).2).1 = _
  cases (action ⟨s.numbers, []⟩).1 <;> rfl

/-- **`emit_header_rule`.** The guards branch to the block behind the rule where they fail; the
action goes on in the block it is in, and the element rules behind it, unless the action rejects:
then the block is ended, and nothing is put behind it. -/
theorem emitHeaderRule_branches (hr : HeaderRule) (idx : Nat) :
    Branches (Meaning.ruleKeys idx hr) P skip (emitHeaderRule hr idx)
      (Meaning.scope (Meaning.ruleSteps idx hr)) fun _ _ => .fact True := by
  refine withCont_branches fun cont => ?_
  rw [Meaning.ruleKeys, List.append_assoc]
  refine (emitMsgTypeGuard_branches hr).bind fun _ _ => ?_
  refine (emitMethodGuard_branches hr).bind fun _ _ => ?_
  refine (inline_branches (Emission.emitFetch_codes hr)).bind fun hv b => ?_
  refine (emitMatchGuard_branches hr.comparison .any hr.matchValue (fun hmv g e h => ?_)).bind
    fun _ _ => ?_
  · exact Emission.is_of_hvIs hmv h.2
  have haction := Emission.emitHeaderAction_codes
    (P := (((P.and (.fact True)).and (.fact True)).and (Emission.HvIs hr hv b)).and (.fact True))
    hr idx hv b fun _ _ h => h.1.2
  have hbranch : Branches _ _ cont _ _ _ := branch_branches (r := id) haction
  refine hbranch.bind_of (R := fun t => t = decide (hr.action = .reject)) (fun s => ?_)
    fun t _ ht => ?_
  · rw [branch_fst, Emission.emitHeaderAction_fst]
  · by_cases hreject : hr.action = .reject
    -- the block is ended, and the elements are not put out
    · rw [if_pos hreject]
      rw [decide_eq_true hreject] at ht
      subst ht
      exact Branches.pure_absurd fun _ _ h => Bool.noConfusion (show true = false from h.2)
    · rw [if_neg hreject]
      rw [decide_eq_false hreject] at ht
      subst ht
      have helements : ∀ P, Branches (hr.elementRules.flatMap (Meaning.elementKeys hr)) P cont
          (do emitElementRules hr hr.elementRules; pure false)
          (Meaning.elementRulesSteps hr hr.elementRules) fun t _ => .fact (t = false) := by
        intro P
        have helements : Branches _ P cont _ _ _ := emitElementRules_branches hr hr.elementRules
        have h : Branches _ P cont _ _ fun t _ => .fact (t = false) :=
          (helements.bind (f := fun _ => pure false) (q := fun _ => pure ())
            fun _ _ => Branches.pure fun _ _ _ => rfl).keys (List.append_nil _)
        rwa [bind_pure] at h
      cases hers : hr.elementRules with
      | nil => exact Branches.pure fun _ _ _ => rfl
      | cons er ers =>
        rw [hers] at helements
        exact helements _

/-- **The rules**, one after the other. -/
theorem emitRules_branches (idx : Nat) (hrs : List HeaderRule) :
    Branches (Meaning.keysFrom idx hrs) P skip (emitRules idx hrs) (Meaning.rulesSteps idx hrs)
      fun _ _ => .fact True := by
  induction hrs generalizing idx P with
  | nil => exact Branches.pure fun _ _ _ => trivial
  | cons hr rest ih => exact (emitHeaderRule_branches hr idx).bind fun _ _ => ih (idx + 1)

/-! ## The function -/

/-- The emitter at the first rule: there are the blocks `entry` and `ret.ok`. -/
def start : Emitter := { function := ⟨[[], []], 0⟩ }

/-- It is in the block `entry`. -/
theorem valid_start : start.Valid := ⟨Nat.zero_lt_two, fun _ h => by cases h⟩

/-- The end of the function. -/
def finish (s : Emitter) : Emitter :=
  let f := ((s.function.emit [.br 1]).moveTo 1).emit [.ret .ok]
  { s with function := match s.rejectBb with
    | some l => (f.moveTo l).emit [.ret .rejected]
    | none => f }

/-- The emission of the function: its rules, and its end. -/
theorem emit_eq (rs : Ruleset) :
    ((emit rs) {}).2 = finish (emitRules 0 rs.headerRules start).2 := by
  have hend : ∀ s : Emitter, ((do
      append (.br 1)
      setInsertPoint 1
      append (.ret .ok)
      match (← get).rejectBb with
      | some l => do
        setInsertPoint l
        append (.ret .rejected)
      | none => pure () : IrM Unit) s).2 = finish s := by
    intro s
    show ((match s.rejectBb with
      | some l => do
        setInsertPoint l
        append (.ret .rejected)
      | none => pure () : IrM Unit) _).2 = _
    unfold finish
    cases s.rejectBb <;> rfl
  exact hend _

/-- What the module has for `hmr_apply`. -/
theorem hmrApply_generateIr (rs : Ruleset) : (generateIr rs).hmrApply
    = (finish (emitRules 0 rs.headerRules start).2).function.graph :=
  congrArg (fun s : Emitter => s.function.graph) (emit_eq rs)

/-- **The end of the function**: the blocks that return do nothing else.

The block that is open at the end branches to `ret.ok`, which is there from the start and empty,
since rules are put into `entry` and into blocks of their own. The block of rejects is there if a
rule has asked for it, is empty for the same reason, and is another one. No other block is
changed. -/
theorem finish_blocks {s : Emitter} (h : Grows start s) :
    (finish s).blocks = s.blocks
      ∧ (s.function.emit [.br 1]).graph.Le (finish s).function.graph
      ∧ (finish s).function.graph.block 1 = [.ret .ok]
      ∧ (∀ l, s.rejectBb = some l → (finish s).function.graph.block l = [.ret .rejected])
      ∧ ∀ l ≠ 1, s.rejectBb ≠ some l →
        (finish s).function.graph.block l = (s.function.emit [.br 1]).graph.block l := by
  -- `ret.ok` is there from the start, and rules are put into `entry` and new blocks
  have hone : 1 ≠ s.function.here := by
    obtain heq | hle := h.here
    · rw [heq]
      exact Nat.one_ne_zero
    · exact Nat.ne_of_lt hle
  have hempty : s.function.graph.block 1 = [] := h.others 1 Nat.one_lt_two Nat.one_ne_zero
  let f := (s.function.emit [.br 1]).moveTo 1
  have hf : f.Valid :=
    Nat.lt_of_lt_of_eq (Nat.lt_of_lt_of_le Nat.one_lt_two h.blocks) Builder.length_emit.symm
  have hlen : (f.emit [.ret .ok]).graph.length = s.blocks :=
    Builder.length_emit.trans Builder.length_emit
  have hok : (f.emit [.ret .ok]).graph.block 1 = [.ret .ok] := by
    refine (Builder.block_emit_here hf).trans ?_
    show (s.function.emit _).graph.block 1 ++ _ = _
    rw [Builder.block_emit_of_ne h.valid.here hone, hempty]
    rfl
  cases hreject : s.rejectBb with
  | none =>
    rw [finish, hreject]
    exact ⟨hlen, Builder.le_emit hf, hok, fun l hl => (by cases hl),
      fun l hl _ => Builder.block_emit_of_ne hf hl⟩
  | some l =>
    obtain ⟨hlt, hne, hl⟩ := h.valid.reject l hreject
    have hl1 : l ≠ 1 := by
      obtain hold | hle := h.rejectNew l hreject
      · cases hold
      · exact Nat.ne_of_gt hle
    let g := (f.emit [.ret .ok]).moveTo l
    have hg : g.Valid := Nat.lt_of_lt_of_eq hlt hlen.symm
    rw [finish, hreject]
    refine ⟨Builder.length_emit.trans hlen, (Builder.le_emit hf).trans (Builder.le_emit hg), ?_,
      fun l' hl' => ?_, fun l' hl' hr => ?_⟩
    · exact (Builder.block_emit_of_ne hg hl1.symm).trans hok
    · obtain rfl := Option.some.inj hl'
      refine (Builder.block_emit_here hg).trans ?_
      show (f.emit _).graph.block l ++ _ = _
      rw [Builder.block_emit_of_ne hf hl1]
      show (s.function.emit _).graph.block l ++ _ = _
      rw [Builder.block_emit_of_ne h.valid.here hne, hl]
      rfl
    · have hne' : l' ≠ l := fun heq => hr (congrArg some heq.symm)
      exact (Builder.block_emit_of_ne hg hne').trans (Builder.block_emit_of_ne hf hl')

/-- **The tables of the module** number the keys of the ruleset in their order. -/
theorem symbols_emit (rs : Ruleset) :
    ((emit rs) {}).2.numbers.symbols = Meaning.symbols rs := by
  rw [emit_eq]
  have h : Branches _ (.fact True) 1 (emitRules 0 rs.headerRules) _ _ := emitRules_branches 0 _
  exact (h start valid_start).2.1

/-- With the numbers of any table that goes on where the one of the ruleset ends, the
function makes the calls of the ruleset's program. -/
theorem apply_resolve (rs : Ruleset) {t : SymbolTable} (ht : (Meaning.symbols rs).Le t) :
    (generateIr rs).hmrApply.apply (generateIr rs).hmrApply.length
      = some <$> (Meaning.program rs).mapCalls t.resolve := by
  have h : Branches _ (.fact True) 1 (emitRules 0 rs.headerRules) _ _ := emitRules_branches 0 _
  obtain ⟨hgrow, hsym, hrun⟩ := h start valid_start
  obtain ⟨hlen, hle, hok, hreject, -⟩ := finish_blocks hgrow
  have hG := hmrApply_generateIr rs
  have hreturns : ∀ e, Runs semantics (finish (emitRules 0 rs.headerRules start).2).function.graph
      0 1 0 e (pure HmrVerdict.ok) := fun e => Runs.ret hok
  have hentry := hrun _ ((Builder.le_emit hgrow.valid.here).trans hle) t
    (hsym ▸ ht) 0
    (fun o => pure (Meaning.exitVerdict o)) IrEnv.empty trivial
    (fun u e' _ _ => ?_) (fun e' _ => hreturns e') fun l e' hl => Runs.ret (hreject l hl)
  · have hfuel : 0 + 1 + ((emitRules 0 rs.headerRules start).2.blocks - start.blocks) + 1
        = (emitRules 0 rs.headerRules start).2.blocks := by
      have := hgrow.blocks
      have htwo : start.blocks = 2 := rfl
      omega
    rw [hG, Meaning.program_mapCalls, ← Runs.run hentry, hfuel, ← hlen]
    rfl
  · obtain ⟨rest, hat, -⟩ := Builder.drop_emit hgrow.valid.here hle
    exact Runs.br hat (hreturns e')

/-- **The LLVM back-end does what the rules mean**: with fuel for each of its blocks once,
`hmr_apply` ends, and makes the calls of the ruleset's program with the numbers of the
module's own tables. -/
theorem apply_generateIr (rs : Ruleset) :
    (generateIr rs).hmrApply.apply (generateIr rs).hmrApply.length
      = some <$> (Meaning.program rs).mapCalls (Meaning.symbols rs).resolve :=
  apply_resolve rs (.refl _)

end IrGenerator

end Hmr
