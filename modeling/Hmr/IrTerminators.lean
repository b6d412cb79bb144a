import Hmr.IrBranches

/-!
# Every block of the LLVM back-end is ended once

LLVM asks of a function that every block of it ends with one terminator, and has no other
in it. The emitter puts out blocks in pieces, with branches to blocks that it has not
filled yet, and whether it keeps to this is not to be seen from any one of its functions.

A block is ended by one instruction, its last, and goes on to blocks of the function.
While a rule is put out, most blocks have been ended already, and three kinds have not:
the one at the insertion point, the ones behind the rules that are being put out, where
nothing has been appended yet, and the one of rejects, which is ended when all rules have
been. So what a piece of the emitter has to do (`Ended`) is to end the block that it
starts in and those that it makes, but for the one that it leaves the insertion point in,
and the one of rejects.

Pieces are put together by a rule of sequence (`Ended.trans`, `Ends.bind`), of which there
is a second form for a piece that has returned: an action that rejects ends its block with
a branch, and what is put out behind it would be in the same block (`Ends.bind_stop`). The
lemmas then follow the functions of the emitter.

At the end all rules have been put out, the last block returns, and the block of rejects
returns what a rejected packet returns: every block of the function is well formed, for
every ruleset (`IrGenerator.wellFormed_generateIr`).
-/

namespace Hmr

namespace IrGenerator

open Cfg Cfg.Graph

variable {α β : Type} {skip : Nat} {s s' : Emitter}

/-- **The blocks are ended**, but for the one at the insertion point – unless a branch has
stopped the piece – and the one of rejects. -/
structure Ended (stopped : Bool) (s s' : Emitter) : Prop where
  here : if stopped then IsBlock s'.blocks (s'.function.graph.block s'.function.here)
    else Graph.Plain (s'.function.graph.block s'.function.here)
  others : ∀ l < s'.blocks, l = s.function.here ∨ s.blocks ≤ l → l ≠ s'.function.here →
    s'.rejectBb ≠ some l → IsBlock s'.blocks (s'.function.graph.block l)

/-- A piece that ends its blocks, where the block `skip` is there to go on to. -/
structure Ends (skip : Nat) (x : IrM α) (stops : α → Bool) : Prop where
  grows : ∀ s, s.Valid → Grows s (x s).2
  ended : ∀ s, s.Valid → skip < s.blocks →
    Graph.Plain (s.function.graph.block s.function.here) → Ended (stops (x s).1) s (x s).2

/-- The insertion point is in the same block, and no block is made. -/
theorem Ended.of_same (hhere : s'.function.here = s.function.here) (hblocks : s'.blocks = s.blocks)
    (hplain : Graph.Plain (s'.function.graph.block s'.function.here)) : Ended false s s' where
  here := hplain
  others l hl hnew hne _ := by
    obtain rfl | hle := hnew
    · exact absurd hhere.symm hne
    · exact absurd (hblocks ▸ hl) (Nat.not_lt_of_le hle)

/-- **One piece behind another.** -/
theorem Ended.trans {s'' : Emitter} {stopped : Bool} (h : Ended false s s')
    (h' : Ended stopped s' s'') (hg' : Grows s' s'') : Ended stopped s s'' where
  here := h'.here
  others l hl hnew hne hreject := by
    by_cases hpiece : l = s'.function.here ∨ s'.blocks ≤ l
    · exact h'.others l hl hpiece hne hreject
    · obtain ⟨hhere, hlt⟩ := not_or.mp hpiece
      have hlt := Nat.lt_of_not_le hlt
      rw [hg'.others l hlt hhere]
      exact (h.others l hlt hnew hhere fun hr => hreject (hg'.reject l hr)).mono hg'.blocks

namespace Ends

variable {x : IrM α} {stops : α → Bool}

/-- Nothing is put out, and the block goes on. -/
theorem pure {a : α} (ha : stops a = false) : Ends skip (Pure.pure a) stops where
  grows _ hs := .refl hs
  ended s _ _ hplain := by
    show Ended (stops a) s s
    rw [ha]
    exact .of_same rfl rfl hplain

/-- **The rule of sequence**, where the first piece does not stop the block. -/
theorem bind {f : α → IrM β} {stops' : β → Bool} (hx : Ends skip x fun _ => false)
    (hf : ∀ a, Ends skip (f a) stops') : Ends skip (x >>= f) stops' where
  grows s hs := (hx.grows s hs).trans ((hf _).grows _ (hx.grows s hs).valid)
  ended s hs hskip hplain := by
    have hgrow := hx.grows s hs
    have hended := hx.ended s hs hskip hplain
    have hf := hf (x s).1
    exact hended.trans (hf.ended _ hgrow.valid (Nat.lt_of_lt_of_le hskip hgrow.blocks) hended.here)
      (hf.grows _ hgrow.valid)

/-- Behind a branch that stops the block, there is nothing more. -/
theorem bind_stop {x : IrM Bool} {f : Bool → IrM Bool} (hx : Ends skip x id)
    (hf : Ends skip (f false) id) (hstop : f true = Pure.pure true) : Ends skip (x >>= f) id where
  grows s hs := by
    have hgrow := hx.grows s hs
    show Grows s (f (x s).1 (x s).2).2
    cases (x s).1 with
    | true =>
      rw [hstop]
      exact hgrow
    | false => exact hgrow.trans (hf.grows _ hgrow.valid)
  -- after the end of the block nothing is put out
  ended s hs hskip hplain := by
    have hgrow := hx.grows s hs
    have hended := hx.ended s hs hskip hplain
    show Ended (f (x s).1 (x s).2).1 s (f (x s).1 (x s).2).2
    cases hx : (x s).1 with
    | true =>
      rw [hx] at hended
      rw [hstop]
      exact hended
    | false =>
      rw [hx] at hended
      have hskips := Nat.lt_of_lt_of_le hskip hgrow.blocks
      exact hended.trans (hf.ended _ hgrow.valid hskips hended.here) (hf.grows _ hgrow.valid)

/-- Both branches of a condition. -/
theorem ite {c : Prop} [Decidable c] {y : IrM α} (hx : c → Ends skip x stops)
    (hy : ¬ c → Ends skip y stops) : Ends skip (if c then x else y) stops := by
  split
  · exact hx ‹_›
  · exact hy ‹_›

end Ends

/-! ## Instructions -/

/-- Instructions that do not end the block. -/
theorem ended_emit (hs : s.Valid) {ops : Block IrInstr Flag HmrVerdict} {g : Numbers}
    (hplain : Graph.Plain (s.function.graph.block s.function.here)) (hops : Graph.Plain ops) :
    Ended false s { s with function := s.function.emit ops, numbers := g } := by
  refine .of_same rfl Builder.length_emit ?_
  show Graph.Plain ((s.function.emit ops).graph.block s.function.here)
  rw [Builder.block_emit_here hs.here]
  exact hplain.append hops

/-- Straight-line code does not end its block. -/
theorem ends_inline {ks : List TableKey} {P : Assertion} {x : CodeM α} {p : SymProg β}
    {Q : α → β → Assertion} (h : Codes ks P x p Q) : Ends skip (inline x) fun _ => false where
  grows s hs := by
    have hin : Branches ks P 0 (inline x) _ _ := inline_branches h
    exact (hin s hs).1
  ended s hs _ hplain := by
    refine ended_emit hs hplain fun op hop => ?_
    obtain ⟨i, -, rfl⟩ := List.mem_map.mp hop
    rfl

/-- Neither does the computation of a flag. -/
theorem ends_flag (i : Nat → IrInstr) : Ends skip (flag i) fun _ => false where
  grows _ hs := grows_flag hs i
  ended _ hs _ hplain := ended_emit hs hplain (List.forall_mem_singleton.mpr rfl)

/-- **A guard** ends its block with a branch to the one that it makes, or `skip`. -/
theorem ends_guard (c : Flag) : Ends skip (guard c skip) fun _ => false where
  grows _ hs := grows_guard hs c
  ended s hs hskip hplain := by
    have hblocks : (guard c skip s).2.blocks = s.blocks + 1 := blocks_guard s c
    have hnew : ∀ l, s.blocks ≤ l → l < (guard c skip s).2.blocks → l = s.blocks := fun l hle hlt =>
      Nat.le_antisymm (Nat.le_of_lt_succ (Nat.lt_of_lt_of_eq hlt hblocks)) hle
    refine ⟨?_, fun l hl hl' hne _ => ?_⟩
    · show Graph.Plain ((s.function.newBlock.emit [.condBr c s.blocks skip]).graph.block s.blocks)
      rw [Builder.block_emit_of_ne hs.here.newBlock (Nat.ne_of_gt hs.here), Builder.block_newBlock,
        Builder.block_of_le (Nat.le_refl _)]
      exact plain_nil
    · obtain rfl | hle := hl'
      · rw [hblocks]
        show IsBlock _ ((s.function.newBlock.emit _).graph.block s.function.newBlock.here)
        rw [Builder.block_emit_here hs.here.newBlock, Builder.block_newBlock]
        refine hplain.isBlock rfl fun l hl => ?_
        obtain rfl | hl := List.mem_cons.mp hl
        · exact Nat.lt_succ_self _
        · rw [List.mem_singleton.mp hl]
          exact Nat.lt_succ_of_lt hskip
      · exact absurd (hnew l hle hl) hne

/-- Methods are compared one after the other, in one block. -/
theorem ends_emitMethods (method : Arg) (acc : Flag) (methods : List Bytes) :
    Ends skip (emitMethods method acc methods) fun _ => false := by
  induction methods generalizing acc with
  | nil => exact .pure rfl
  | cons m rest ih => exact (ends_flag _).bind fun eq => (ends_flag _).bind fun acc' => ih acc'

/-- The guard by message type ends its block, or puts out nothing. -/
theorem ends_emitMsgTypeGuard (hr : HeaderRule) :
    Ends skip (emitMsgTypeGuard hr skip) fun _ => false := by
  unfold emitMsgTypeGuard
  cases hr.msgType with
  | request => exact (ends_flag _).bind fun req => ends_guard req
  | reply => exact (ends_flag _).bind fun req => (ends_flag _).bind fun cond => ends_guard cond
  | _ => exact .pure rfl

/-- The guard by method does, -/
theorem ends_emitMethodGuard (hr : HeaderRule) :
    Ends skip (emitMethodGuard hr skip) fun _ => false := by
  refine .ite (fun _ => ?_) fun _ => .pure rfl
  exact (ends_inline (Emission.codes_getMethod (.fact True))).bind fun method =>
    (ends_emitMethods method _ _).bind fun acc => ends_guard acc

/-- and the guard by match-value. -/
theorem ends_emitMatchGuard (cmp : ComparisonType) (mvt : MatchValType) (mv : Value) (o : Arg) :
    Ends skip (emitMatchGuard cmp mvt mv o skip) fun _ => false := by
  unfold emitMatchGuard
  cases hmv : Meaning.alwaysHolds mv with
  | true => exact .pure rfl
  | false =>
    have hcall := Emission.matchCall_codes (P := o.Is []) cmp mvt hmv fun _ _ h => h
    refine (ends_inline hcall).bind fun call => (ends_flag _).bind fun cond => ?_
    cases mv.negated with
    | true => exact (ends_flag _).bind fun cond => ends_guard cond
    | false => exact ends_guard cond

/-! ## Rules -/

/-- A branch to the block of rejects ends the block. That block is made at the first reject, and
it is the one that is left without a terminator until the end of the function; so it is an
exception of `Ended`, whether it has been there before or is made here. -/
theorem ended_reject (hs : s.Valid)
    (hplain : Graph.Plain (s.function.graph.block s.function.here)) :
    Ended true s ((do let l ← rejectBlock; append (.br l); pure true : IrM Bool) s).2 := by
  have happend : ((do let l ← rejectBlock; append (.br l); pure true : IrM Bool) s).2
      = (append (.br (rejectBlock s).1) (rejectBlock s).2).2 := rfl
  rw [happend]
  cases hreject : s.rejectBb with
  | some r =>
    rw [rejectBlock_of_some hreject]
    have hlen : (s.function.emit [.br r]).graph.length = s.blocks := Builder.length_emit
    refine ⟨?_, fun l hl hl' hne _ => ?_⟩
    · show IsBlock (s.function.emit [.br r]).graph.length
        ((s.function.emit [.br r]).graph.block s.function.here)
      rw [hlen, Builder.block_emit_here hs.here]
      exact hplain.isBlock rfl (List.forall_mem_singleton.mpr (hs.reject r hreject).1)
    -- no other block is made
    · obtain rfl | hle := hl'
      · exact absurd rfl hne
      · exact absurd (Nat.lt_of_lt_of_eq hl hlen) (Nat.not_lt_of_le hle)
  -- the block of rejects is made, and is the one block that is not ended
  | none =>
    rw [rejectBlock_of_none hreject]
    have hlen : (s.function.newBlock.emit [.br s.blocks]).graph.length = s.blocks + 1 :=
      Builder.length_emit.trans Builder.length_newBlock
    refine ⟨?_, fun l hl hl' hne hr => ?_⟩
    · show IsBlock (s.function.newBlock.emit _).graph.length
        ((s.function.newBlock.emit _).graph.block s.function.newBlock.here)
      rw [hlen, Builder.block_emit_here hs.here.newBlock, Builder.block_newBlock]
      exact hplain.isBlock rfl (List.forall_mem_singleton.mpr (Nat.lt_succ_self _))
    · obtain rfl | hle := hl'
      · exact absurd rfl hne
      · exact absurd (congrArg some (Nat.le_antisymm hle
          (Nat.le_of_lt_succ (Nat.lt_of_lt_of_eq hl hlen)))) hr

/-- **The branch of an action** stops the block where the action rejects. -/
theorem ends_branch [Nonempty β] {ks : List TableKey} {P : Assertion} {action : CodeM Bool}
    {p : SymProg β} {r : β → Bool} (h : Codes ks P action p fun t b => .fact (t = r b)) :
    Ends skip (branch action) id where
  grows s hs := by
    have hbranch : Branches ks P 0 (branch action) _ _ := branch_branches h
    exact (hbranch s hs).1
  ended s hs hskip hplain := by
    have hinline : Ends skip (inline action) _ := ends_inline h
    have hgrow := hinline.grows s hs
    have hcode := hinline.ended s hs hskip hplain
    have hreject := ended_reject hgrow.valid hcode.here
    have hstep : Branches [] (.fact True) 0 _ (throw .reject) fun _ (_ : Unit) => .fact True :=
      reject_branches
    have hall := hcode.trans hreject (hstep _ hgrow.valid).1
    have hrest : branch action s = (if (inline action s).1 then do
        let l ← rejectBlock
        append (.br l)
        pure true
      else pure false : IrM Bool) (inline action s).2 := rfl
    rw [hrest]
    cases (inline action s).1 with
    | true => exact hall
    | false => exact hcode

/-- **What may be left for the block behind it**, ends all blocks but this one. The block behind
it is made first, and what is in the body ends every block but the one it is left at; that one
gets the branch to the block behind, unless the body has ended it itself. -/
theorem ends_withCont {body : Nat → IrM Bool} (h : ∀ cont, Ends cont (body cont) id) :
    Ends skip (withCont body) fun _ => false where
  grows s hs := by
    rw [withCont_eq]
    exact grows_closeCont hs
      ((h s.blocks).grows _ (grows_newBlock hs s.rejectBb (.inl rfl)).valid)
  ended s hs hskip hplain := by
    have hnew := grows_newBlock hs s.rejectBb (.inl rfl)
    have hgrow := (h s.blocks).grows _ hnew.valid
    have hended := (h s.blocks).ended _ hnew.valid blocks_lt_newBlock
      ((Builder.block_newBlock _).symm ▸ hplain)
    rw [withCont_eq]
    generalize body s.blocks { s with function := s.function.newBlock } = r at *
    refine ⟨?_, fun l hl hl' hne hreject => ?_⟩
    · show Graph.Plain ((closeCont r.1 s.blocks r.2).function.graph.block s.blocks)
      rw [block_closeCont hgrow.valid (cont_ne_here hs hgrow), block_cont hs hgrow]
      exact plain_nil
    · rw [blocks_closeCont] at hl ⊢
      -- the block that the body is left at gets the branch, unless it has one
      by_cases hhere : l = r.2.function.here
      · subst hhere
        have hblock := hended.here
        obtain ⟨t, s'⟩ := r
        cases t with
        | true => exact hblock
        | false =>
          show IsBlock _ ((s'.function.emit _).graph.block s'.function.here)
          rw [Builder.block_emit_here hgrow.valid.here]
          exact Graph.Plain.isBlock hblock rfl (List.forall_mem_singleton.mpr
            (Nat.lt_of_lt_of_le blocks_lt_newBlock hgrow.blocks))
      · rw [block_closeCont hgrow.valid hhere]
        refine hended.others l hl (hl'.imp id fun hle => ?_) hhere hreject
        exact Nat.le_trans (Nat.le_of_eq Builder.length_newBlock)
          (Nat.lt_of_le_of_ne hle (Ne.symm hne))

/-- **An element rule** ends all blocks but the one behind it. -/
theorem ends_emitElement (hr : HeaderRule) (er : ElementRule) (elem : HmrUriElement) :
    Ends skip (emitElement hr er elem) fun _ => false := by
  refine ends_withCont fun cont => ?_
  have hget : Codes [] (.fact True) (Emission.bindTemp (.getHeader (.lit hr.headerName)))
      (Meaning.callProg _ (.getHeader (clip hr.headerName))) Arg.Is :=
    Emission.codes_bindTemp fun _ _ _ _ _ => rfl
  refine (ends_inline hget).bind fun hv => ?_
  refine (ends_inline (Emission.emitElementValue_codes (P := hv.Is []) elem fun _ _ h => h)).bind
    fun ev => ?_
  refine (ends_emitMatchGuard _ _ _ _).bind fun _ => ?_
  have hflow : Nonempty Flow := ⟨.continue⟩
  exact ends_branch (Emission.emitElementAction_codes (P := Emission.ElementIs hr _ hv ev [] [])
    hr er elem _ hv ev [] [] fun _ _ h => h)

/-- Element rules do, one after the other; those without an element make no block. -/
theorem ends_emitElementRules (hr : HeaderRule) (ers : List ElementRule) :
    Ends skip (emitElementRules hr ers) fun _ => false := by
  induction ers with
  | nil => exact .pure rfl
  | cons er ers ih =>
    unfold emitElementRules
    cases Lowering.uriElement er.type with
    | none => exact ih
    | some elem => exact (ends_emitElement hr er elem).bind fun _ => ih

/-- **A header rule** does, -/
theorem ends_emitHeaderRule (hr : HeaderRule) (idx : Nat) :
    Ends skip (emitHeaderRule hr idx) fun _ => false := by
  refine ends_withCont fun cont => ?_
  refine (ends_emitMsgTypeGuard hr).bind fun _ => (ends_emitMethodGuard hr).bind fun _ => ?_
  refine (ends_inline (Emission.emitFetch_codes (P := .fact True) hr)).bind fun hv => ?_
  refine (ends_emitMatchGuard _ _ _ _).bind fun _ => ?_
  have haction : Codes (Meaning.actionKeys idx hr) (Emission.HvIs hr hv [])
      (Emission.emitHeaderAction hr idx hv) _ fun t b => .fact (t = id b) :=
    Emission.emitHeaderAction_codes hr idx hv [] fun _ _ h => h
  refine (ends_branch haction).bind_stop ?_ rfl
  exact .ite (fun _ => (ends_emitElementRules hr _).bind fun _ => .pure rfl) fun _ => .pure rfl

/-- and the rules from one on. -/
theorem ends_emitRules (idx : Nat) (hrs : List HeaderRule) :
    Ends skip (emitRules idx hrs) fun _ => false := by
  induction hrs generalizing idx with
  | nil => exact .pure rfl
  | cons hr rest ih => exact (ends_emitHeaderRule hr idx).bind fun _ => ih (idx + 1)

/-! ## The function -/

/-- A block of `hmr_apply` is ended once, by its last instruction, and goes on to blocks
that there are. -/
theorem isBlock_generateIr (rs : Ruleset) :
    ∀ b ∈ (generateIr rs).hmrApply, Graph.IsBlock (generateIr rs).hmrApply.length b := by
  have hends : Ends 1 (emitRules 0 rs.headerRules) _ := ends_emitRules 0 rs.headerRules
  have hgrow := hends.grows start valid_start
  obtain ⟨hhere, hothers⟩ := hends.ended start valid_start Nat.one_lt_two plain_nil
  obtain ⟨hlen, -, hok, hreject, hrest⟩ := finish_blocks hgrow
  rw [hmrApply_generateIr]
  generalize (emitRules 0 rs.headerRules start).2 = s at *
  intro b hb
  obtain ⟨l, hl, rfl⟩ := List.mem_iff_getElem.mp hb
  have hblock : (finish s).function.graph[l] = (finish s).function.graph.block l := by
    rw [Graph.block, List.getD_eq_getElem?_getD, List.getElem?_eq_getElem hl]
    rfl
  have hlt : l < s.blocks := Nat.lt_of_lt_of_eq hl hlen
  rw [hblock, show (finish s).function.graph.length = s.blocks from hlen]
  by_cases hone : l = 1
  · rw [hone, hok]
    exact plain_nil.isBlock rfl fun _ h => absurd h List.not_mem_nil
  by_cases hr : s.rejectBb = some l
  · rw [hreject l hr]
    exact plain_nil.isBlock rfl fun _ h => absurd h List.not_mem_nil
  rw [hrest l hone hr]
  by_cases hcur : l = s.function.here
  · rw [hcur, Builder.block_emit_here hgrow.valid.here]
    exact Graph.Plain.isBlock hhere rfl
      (List.forall_mem_singleton.mpr (Nat.lt_of_lt_of_le Nat.one_lt_two hgrow.blocks))
  · rw [Builder.block_emit_of_ne hgrow.valid.here hcur]
    refine hothers l hlt ?_ hcur hr
    -- the only other block there was at the first rule is the first one
    obtain hzero | hpos := Nat.eq_zero_or_pos l
    · exact .inl hzero
    · exact .inr (Nat.lt_of_le_of_ne hpos (Ne.symm hone))

/-- **Every block of `hmr_apply` is well formed.** -/
theorem wellFormed_generateIr (rs : Ruleset) : (generateIr rs).hmrApply.WellFormed :=
  isBlock_generateIr rs

end IrGenerator

end Hmr
