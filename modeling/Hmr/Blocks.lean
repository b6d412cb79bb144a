import Hmr.Prog

/-!
# Functions in basic blocks

A function in basic blocks is a list of blocks, which are known by their positions. A
block is a list of instructions, and the one that ends it is an instruction like the
others: that each block has exactly one, and at its end, is a property of the function
(`Cfg.Graph.WellFormed`) and not of its type. So a generator that forgets one, or puts
code behind it, can be written down, and has to be proved not to.

What the other instructions do is left open: they act on an environment, and through the
calls of a program, so that the meaning of a function is a program (`Cfg.run`). A run has
fuel for the blocks it enters. More fuel does not change a run that ends
(`Cfg.Runs.mono`), and where it is counted that there is enough, the fuel is the number of
blocks.

## Rules for runs

A run is followed from an instruction of a block on (`Cfg.Runs`), by what the instruction
is: one that is executed (`Cfg.Runs.instr`), a jump, a branch, or a return. The rules do
not ask for the rest of the block, so they can be used while the block is being built.

## Builders

A builder has a function that is not finished, and a block at whose end instructions are
appended. Whatever is built afterwards, what was appended stays where it is
(`Cfg.Graph.Le`, `Cfg.Builder.drop_emit`), so a block that is being built can be run
already, as far as it goes. New blocks are empty, and a block that is not there is empty
as well, so making one does not change what there is.
-/

namespace Cfg

open Hmr (Prog)

variable {ι : Type} {F R : ι → Type} {I C V E : Type}

/-! ## Blocks -/

/-- **An instruction**: one that is executed, or one that ends the block. -/
inductive Op (I C V : Type)
  /-- An instruction that is executed. -/
  | instr (i : I)
  /-- On to a block. -/
  | br (target : Nat)
  /-- On to one of two blocks. -/
  | condBr (cond : C) (ifTrue ifFalse : Nat)
  /-- The end. -/
  | ret (value : V)
  deriving DecidableEq

/-- The instruction ends its block. -/
def Op.isTerminator : Op I C V → Bool
  | instr _ => false
  | _ => true

/-- The blocks an instruction goes on to. -/
def Op.targets : Op I C V → List Nat
  | br l => [l]
  | condBr _ l l' => [l, l']
  | _ => []

/-- A block. -/
abbrev Block (I C V : Type) : Type := List (Op I C V)

/-- A function. It starts at its first block. -/
abbrev Graph (I C V : Type) : Type := List (Block I C V)

namespace Graph

/-- The block with a number. -/
def block (G : Graph I C V) (l : Nat) : Block I C V := G.getD l []

/-- **A block is well formed** in a function of `n` blocks: it has exactly one instruction
that ends it, which is the last one and goes on to blocks there are. -/
def IsBlock (n : Nat) (b : Block I C V) : Prop :=
  ∃ is op, b = is ++ [op] ∧ (∀ i ∈ is, i.isTerminator = false) ∧ op.isTerminator = true
    ∧ ∀ l ∈ op.targets, l < n

/-- A block that is not ended, which can be gone on with. -/
def Plain (b : Block I C V) : Prop := ∀ i ∈ b, i.isTerminator = false

/-- The empty block. -/
theorem plain_nil : Plain ([] : Block I C V) := fun _ h => absurd h List.not_mem_nil

/-- Plain code, and more of it. -/
theorem Plain.append {b b' : Block I C V} (h : Plain b) (h' : Plain b') : Plain (b ++ b') :=
  fun i hi => (List.mem_append.mp hi).elim (h i) (h' i)

/-- An instruction that ends a block is put behind it. -/
theorem Plain.isBlock {b : Block I C V} (h : Plain b) {n : Nat} {op : Op I C V}
    (hop : op.isTerminator = true) (htargets : ∀ l ∈ op.targets, l < n) : IsBlock n (b ++ [op]) :=
  ⟨b, op, rfl, h, hop, htargets⟩

/-- More blocks do no harm. -/
theorem IsBlock.mono {b : Block I C V} {n m : Nat} (h : IsBlock n b) (hnm : n ≤ m) :
    IsBlock m b := by
  obtain ⟨is, op, hb, his, hop, htargets⟩ := h
  exact ⟨is, op, hb, his, hop, fun l hl => Nat.lt_of_lt_of_le (htargets l hl) hnm⟩

/-- **All blocks are well formed.** -/
def WellFormed (G : Graph I C V) : Prop := ∀ b ∈ G, IsBlock G.length b

/-- **More of a function**: each block goes on from where it was. -/
def Le (G H : Graph I C V) : Prop := ∀ l, G.block l <+: H.block l

/-- A function has its own instructions. -/
theorem Le.refl (G : Graph I C V) : G.Le G := fun _ => List.prefix_rfl

/-- More, and then more again. -/
theorem Le.trans {G H K : Graph I C V} (h : G.Le H) (h' : H.Le K) : G.Le K :=
  fun l => (h l).trans (h' l)

end Graph

/-! ## Running a function -/

/-- What instructions do, and how conditions are decided: `none` is that there is no
telling. -/
structure Semantics (F R : ι → Type) (I C E : Type) where
  step : I → E → Prog F R (Option E)
  test : C → E → Option Bool

variable (S : Semantics F R I C E)

/-- The instructions of a block, with what is done at a jump. -/
def runOps (jump : Nat → E → Prog F R (Option V)) : Block I C V → E → Prog F R (Option V)
  | [], _ => pure none
  | .instr i :: rest, e => do
    match ← S.step i e with
    | none => pure none
    | some e' => runOps jump rest e'
  | .br l :: _, e => jump l e
  | .condBr c l l' :: _, e =>
    match S.test c e with
    | none => pure none
    | some b => jump (if b then l else l') e
  | .ret v :: _, _ => pure (some v)

/-- **The run from a block on**, with fuel for so many blocks. -/
def run (G : Graph I C V) : Nat → Nat → E → Prog F R (Option V)
  | 0, _, _ => pure none
  | n + 1, l, e => runOps S (run G n) (G.block l) e

/-- **A run that ends**: from an instruction of a block on, with fuel for so many blocks
to come, the function is the program `q`. -/
def Runs (G : Graph I C V) (n l k : Nat) (e : E) (q : Prog F R V) : Prop :=
  runOps S (run S G n) ((G.block l).drop k) e = some <$> q

section
variable {S}

/-- A program that ends does so behind another one. -/
theorem map_some_bind {α : Type} (p : Prog F R α) (q : α → Prog F R V) :
    some <$> (p >>= q) = p >>= fun a => some <$> q a := map_bind _ _ _

/-- A program that ends, and goes on with one that ends where the other one does, ends as
it did. -/
theorem bind_of_bind {α : Type} {p : Prog F R α} {k k' : α → Prog F R (Option V)}
    (h : ∀ a q, k a = some <$> q → k' a = some <$> q) {q : Prog F R V}
    (hq : p >>= k = some <$> q) : p >>= k' = some <$> q := by
  induction p generalizing q with
  | pure a => exact h a q hq
  | call c next ih =>
    cases q with
    | pure v => cases hq
    | call c' next' =>
      obtain ⟨rfl, hc, hnext⟩ := Prog.call.inj hq
      cases hc
      exact congrArg (Prog.call c) (funext fun r => ih r (congrFun (eq_of_heq hnext) r))

/-- **A block in which jumps end** as before ends as it did. -/
theorem runOps_mono {jump jump' : Nat → E → Prog F R (Option V)}
    (h : ∀ l e q, jump l e = some <$> q → jump' l e = some <$> q) {ops : Block I C V} {e : E}
    {q : Prog F R V} (hq : runOps S jump ops e = some <$> q) :
    runOps S jump' ops e = some <$> q := by
  -- only a jump hands over to `jump`; before it the two runs make the same calls
  induction ops generalizing e q with
  | nil => exact hq
  | cons op ops ih =>
    cases op with
    | instr i =>
      refine bind_of_bind (fun o q hq => ?_) hq
      cases o with
      | none => exact hq
      | some e' => exact ih hq
    | br l => exact h l e q hq
    | condBr c l l' =>
      unfold runOps at hq ⊢
      cases hc : S.test c e with
      | none =>
        rw [hc] at hq
        exact hq
      | some b =>
        rw [hc] at hq
        exact h _ _ _ hq
    | ret v => exact hq

/-- With more fuel, a run that ends is the same. -/
theorem run_mono {G : Graph I C V} {n m : Nat} (hnm : n ≤ m) {l : Nat} {e : E}
    {q : Prog F R V} (hq : run S G n l e = some <$> q) : run S G m l e = some <$> q := by
  induction n generalizing m l e q with
  | zero =>
    -- without fuel there is no run that ends
    cases q with
    | pure v => cases hq
    | call c next => cases hq
  | succ n ih =>
    cases m with
    | zero => cases hnm
    | succ m => exact runOps_mono (fun l e q => ih (Nat.le_of_succ_le_succ hnm)) hq

variable {G : Graph I C V} {n l k : Nat} {e : E} {q : Prog F R V}

/-- **More fuel does not hurt.** -/
theorem Runs.mono (h : Runs S G n l k e q) {m : Nat} (hnm : n ≤ m) : Runs S G m l k e q :=
  runOps_mono (fun _ _ _ => run_mono hnm) h

/-- The run of a block from its beginning. -/
theorem Runs.run (h : Runs S G n l 0 e q) : run S G (n + 1) l e = some <$> q := h

/-- An instruction that is executed. -/
theorem Runs.instr {A : Type} {i : I} {rest : Block I C V} {p : Prog F R A} {f : A → E}
    {q : A → Prog F R V} (hop : (G.block l).drop k = .instr i :: rest)
    (hstep : S.step i e = (fun a => some (f a)) <$> p)
    (h : ∀ a, Runs S G n l (k + 1) (f a) (q a)) : Runs S G n l k e (p >>= q) := by
  have hrest : (G.block l).drop (k + 1) = rest := by
    rw [← List.tail_drop, hop]
    rfl
  rw [Runs, hop, runOps, hstep, bind_map_left, map_some_bind]
  refine congrArg _ (funext fun a => ?_)
  have ha := h a
  rwa [Runs, hrest] at ha

/-- **A jump** takes fuel for one block. -/
theorem Runs.br {l' : Nat} {rest : Block I C V} (hop : (G.block l).drop k = .br l' :: rest)
    (h : Runs S G n l' 0 e q) : Runs S G (n + 1) l k e q := by
  rw [Runs, hop]
  exact h

/-- **A branch** takes fuel for the block it goes on to. -/
theorem Runs.condBr {c : C} {l₁ l₂ : Nat} {rest : Block I C V} {b : Bool}
    (hop : (G.block l).drop k = .condBr c l₁ l₂ :: rest) (hb : S.test c e = some b)
    (h : Runs S G n (if b then l₁ else l₂) 0 e q) : Runs S G (n + 1) l k e q := by
  rw [Runs, hop, runOps, hb]
  exact h

/-- **A return** takes none. -/
theorem Runs.ret {v : V} {rest : Block I C V} (hop : (G.block l).drop k = .ret v :: rest) :
    Runs S G n l k e (pure v) := by
  rw [Runs, hop]
  rfl

end

/-! ## Building a function -/

/-- **A builder**: the function so far, and the block that is being built. -/
structure Builder (I C V : Type) where
  graph : Graph I C V
  /-- The insertion point is the end of this block. -/
  here : Nat

namespace Builder

/-- Where the next instruction goes. -/
def pos (b : Builder I C V) : Nat := (b.graph.block b.here).length

/-- Instructions are appended to the block. -/
def emit (b : Builder I C V) (ops : Block I C V) : Builder I C V :=
  { b with graph := b.graph.modify b.here (· ++ ops) }

/-- It is gone on at the end of another block. -/
def moveTo (b : Builder I C V) (l : Nat) : Builder I C V := { b with here := l }

/-- A new block, which is empty. -/
def newBlock (b : Builder I C V) : Builder I C V := { b with graph := b.graph ++ [[]] }

/-- There is a block that is being built. -/
def Valid (b : Builder I C V) : Prop := b.here < b.graph.length

variable {b : Builder I C V} {ops : Block I C V}

/-- Only the block that is being built is appended to. -/
theorem block_emit (hb : b.Valid) (l : Nat) :
    (b.emit ops).graph.block l
      = if l = b.here then b.graph.block l ++ ops else b.graph.block l := by
  unfold emit Graph.block
  rw [List.getD_eq_getElem?_getD, List.getElem?_modify, List.getD_eq_getElem?_getD]
  -- Only the position of the block that is being built is modified.
  split
  · rename_i hl
    rw [if_pos hl.symm, ← hl, List.getElem?_eq_getElem hb]
    rfl
  · rename_i hl
    rw [if_neg (Ne.symm hl)]
    cases b.graph[l]? <;> rfl

/-- No block is made by that. -/
@[simp] theorem length_emit : (b.emit ops).graph.length = b.graph.length := List.length_modify ..

/-- There is more of the function afterwards. -/
theorem le_emit (hb : b.Valid) : b.graph.Le (b.emit ops).graph := by
  intro l
  rw [block_emit hb]
  split
  · exact List.prefix_append _ _
  · exact List.prefix_rfl

/-- There is still a block that is being built. -/
theorem Valid.emit (hb : b.Valid) : (b.emit ops).Valid := by
  unfold Valid
  rw [length_emit]
  exact hb

/-- What the block is then. -/
theorem block_emit_here (hb : b.Valid) :
    (b.emit ops).graph.block b.here = b.graph.block b.here ++ ops := by
  rw [block_emit hb, if_pos rfl]

/-- Other blocks are as they were. -/
theorem block_emit_of_ne (hb : b.Valid) {l : Nat} (hl : l ≠ b.here) :
    (b.emit ops).graph.block l = b.graph.block l := by
  rw [block_emit hb, if_neg hl]

/-- The next instruction goes behind what was appended. -/
theorem pos_emit (hb : b.Valid) : (b.emit ops).pos = b.pos + ops.length := by
  show ((b.emit ops).graph.block b.here).length = _
  rw [block_emit hb, if_pos rfl, List.length_append]
  rfl

/-- **What was appended stays where it is.** -/
theorem drop_emit (hb : b.Valid) {G : Graph I C V} (hG : (b.emit ops).graph.Le G) :
    ∃ rest, (G.block b.here).drop b.pos = ops ++ rest
      ∧ (G.block b.here).drop (b.pos + ops.length) = rest := by
  obtain ⟨rest, hrest⟩ := hG b.here
  rw [block_emit hb, if_pos rfl] at hrest
  refine ⟨rest, ?_, ?_⟩
  · rw [← hrest, List.append_assoc]
    exact List.drop_left
  · rw [← hrest]
    refine List.drop_left' ?_
    rw [List.length_append]
    rfl

/-- A new block is empty, and there was nothing in it before. -/
@[simp] theorem block_newBlock (l : Nat) : b.newBlock.graph.block l = b.graph.block l := by
  unfold newBlock Graph.block
  rw [List.getD_eq_getElem?_getD, List.getD_eq_getElem?_getD, List.getElem?_append]
  split
  · rfl
  · rename_i hl
    rw [List.getElem?_eq_none (Nat.le_of_not_lt hl)]
    cases l - b.graph.length <;> rfl

/-- It is not the one that is being built. -/
@[simp] theorem pos_newBlock :
    b.newBlock.pos = b.pos := congrArg List.length (block_newBlock b.here)

/-- There is nothing in a block there is not. -/
theorem block_of_le {l : Nat} (h : b.graph.length ≤ l) : b.graph.block l = [] := by
  rw [Graph.block, List.getD_eq_getElem?_getD, List.getElem?_eq_none h]
  rfl

/-- There is still a block that is being built. -/
theorem Valid.newBlock (hb : b.Valid) : b.newBlock.Valid := by
  unfold Valid Builder.newBlock
  rw [List.length_append]
  exact Nat.lt_succ_of_lt hb

/-- There is more of the function, if not in its blocks. -/
theorem le_newBlock : b.graph.Le b.newBlock.graph := by
  intro l
  exact ⟨[], (List.append_nil _).trans (block_newBlock l).symm⟩

/-- One block is made. -/
@[simp] theorem length_newBlock : b.newBlock.graph.length = b.graph.length + 1 := by
  unfold newBlock
  rw [List.length_append]
  rfl

end Builder

end Cfg
