import Mathlib.Logic.Basic

/-!
# Programs over a call signature

A program that reaches its environment only through a fixed set of calls is
a tree: it ends with a result, or makes a call and continues with what the
call answers. `Prog F R α` is that tree, for calls `c : F i` of kind `i`
answered in `R i`. What the calls *do* is not part of the program – it is a
**handler**, chosen when the program is run (`Prog.run`) – so two programs
that are the same tree behave alike in every environment, and one program
can be run in several.

Three ways of reasoning about a program without looking inside it follow,
each with its rules for `pure`, `call` and `bind`:

* **contracts** (`Prog.Meets`): every call satisfies a precondition, given
  that earlier answers satisfied their postconditions. A handler that
  honours the contract under an invariant keeps the invariant at every
  state the run visits (`Prog.Meets.visits`).
* **translations** (`Prog.mapCalls`): renaming the calls of a program is
  running it under the renamed handler (`Prog.run_mapCalls`).
* **monitors** (`Tracks`): a monitor is a partial reading of a program over
  a state of its own, which stops where it cannot tell how the program goes
  on. A program tracks a monitor when every completed reading is what the
  program does.
-/

namespace Hmr

variable {ι : Type} {F G H : ι → Type} {R : ι → Type} {α β γ σ : Type}

/-- **A program over the calls `F`**, whose answers are in `R`. -/
inductive Prog (F : ι → Type) (R : ι → Type) (α : Type) : Type
  /-- The program that is over, with a result. -/
  | pure (a : α)
  /-- A call, and what to do with its answer. -/
  | call {i : ι} (c : F i) (k : R i → Prog F R α)

/-- What each call answers, and what it does to a state. -/
abbrev Handler (F : ι → Type) (R : ι → Type) (σ : Type) : Type :=
  ∀ i, F i → σ → R i × σ

namespace Prog

/-- Sequencing: the second program continues at every end of the first. -/
def bind : Prog F R α → (α → Prog F R β) → Prog F R β
  | .pure a, k => k a
  | .call c k', k => .call c (fun r => (k' r).bind k)

instance : Monad (Prog F R) where
  pure := Prog.pure
  bind := Prog.bind

/-- The end of a program, as a monad has it. -/
@[simp] theorem pure_eq (a : α) : (Prog.pure a : Prog F R α) = Pure.pure a := rfl

/-- Sequencing, as a monad has it. -/
@[simp] theorem bind_eq (p : Prog F R α) (k : α → Prog F R β) :
    p.bind k = p >>= k := rfl

/-- Nothing is done in front of a program. -/
@[simp] theorem pure_bind (a : α) (k : α → Prog F R β) :
    (Pure.pure a : Prog F R α) >>= k = k a := rfl

/-- A call in front stays in front. -/
@[simp] theorem call_bind {i : ι} (c : F i) (k' : R i → Prog F R α)
    (k : α → Prog F R β) :
    Prog.call c k' >>= k = Prog.call c (fun r => k' r >>= k) := rfl

/-- Nothing is done behind a program. -/
@[simp] theorem bind_pure' (p : Prog F R α) : p >>= Pure.pure = p := by
  induction p with
  | pure a => rfl
  | call c k ih =>
    rw [call_bind]
    exact congrArg (Prog.call c) (funext ih)

/-- Three programs in sequence. -/
@[simp] theorem bind_assoc' (p : Prog F R α) (k : α → Prog F R β)
    (l : β → Prog F R γ) : p >>= k >>= l = p >>= fun a => k a >>= l := by
  induction p with
  | pure a => rfl
  | call c k' ih =>
    simp only [call_bind]
    exact congrArg (Prog.call c) (funext ih)

instance : LawfulMonad (Prog F R) :=
  LawfulMonad.mk' _ bind_pure' pure_bind bind_assoc'

/-- A single call, whose answer is the result. -/
def perform {i : ι} (c : F i) : Prog F R (R i) := .call c Prog.pure

/-- A call, and the program that goes on with its answer. -/
@[simp] theorem perform_bind {i : ι} (c : F i) (k : R i → Prog F R β) :
    (perform c : Prog F R (R i)) >>= k = .call c k := rfl

/-! ## Running a program -/

/-- Run a program under a handler. -/
def run (h : Handler F R σ) : Prog F R α → σ → α × σ
  | .pure a, s => (a, s)
  | .call c k, s => (k (h _ c s).1).run h (h _ c s).2

/-- A program that is over leaves the state as it is. -/
@[simp] theorem run_pure (h : Handler F R σ) (a : α) (s : σ) :
    (Pure.pure a : Prog F R α).run h s = (a, s) := rfl

/-- The handler answers, and the rest is run from where that leads to. -/
@[simp] theorem run_call (h : Handler F R σ) {i : ι} (c : F i)
    (k : R i → Prog F R α) (s : σ) :
    (Prog.call c k).run h s = (k (h i c s).1).run h (h i c s).2 := rfl

/-- A single call is what the handler makes of it. -/
@[simp] theorem run_perform (h : Handler F R σ) {i : ι} (c : F i) (s : σ) :
    (perform c : Prog F R (R i)).run h s = h i c s := rfl

/-- **Running in sequence.** -/
theorem run_bind (h : Handler F R σ) (p : Prog F R α) (k : α → Prog F R β)
    (s : σ) : (p >>= k).run h s = (k (p.run h s).1).run h (p.run h s).2 := by
  induction p generalizing s with
  | pure a => rfl
  | call c k' ih =>
    rw [call_bind, run_call, run_call]
    exact ih _ _

/-- The states a run goes through: the one it starts in and the one after
each call. -/
def visits (h : Handler F R σ) : Prog F R α → σ → List σ
  | .pure _, s => [s]
  | .call c k, s => s :: (k (h _ c s).1).visits h (h _ c s).2

/-- A run ends in a state it goes through. -/
theorem run_mem_visits (h : Handler F R σ) (p : Prog F R α) (s : σ) :
    (p.run h s).2 ∈ p.visits h s := by
  induction p generalizing s with
  | pure a => exact List.mem_singleton.mpr rfl
  | call c k ih => exact List.mem_cons_of_mem _ (ih _ _)

/-! ## Translating calls -/

/-- The program with every call renamed. -/
def mapCalls (f : ∀ i, F i → G i) : Prog F R α → Prog G R α
  | .pure a => .pure a
  | .call c k => .call (f _ c) (fun r => (k r).mapCalls f)

/-- Where there are no calls, none is renamed. -/
@[simp] theorem mapCalls_pure (f : ∀ i, F i → G i) (a : α) :
    (Pure.pure a : Prog F R α).mapCalls f = Pure.pure a := rfl

/-- The first call is renamed, and those that follow whatever is answered. -/
@[simp] theorem mapCalls_call (f : ∀ i, F i → G i) {i : ι} (c : F i)
    (k : R i → Prog F R α) :
    (Prog.call c k).mapCalls f = .call (f i c) (fun r => (k r).mapCalls f) := rfl

/-- Calls are renamed in sequence. -/
@[simp] theorem mapCalls_bind (f : ∀ i, F i → G i) (p : Prog F R α)
    (k : α → Prog F R β) :
    (p >>= k).mapCalls f = p.mapCalls f >>= fun a => (k a).mapCalls f := by
  induction p with
  | pure a => rfl
  | call c k' ih =>
    simp only [call_bind, mapCalls_call]
    exact congrArg (Prog.call (f _ c)) (funext ih)

/-- On either side of a choice. -/
@[simp] theorem mapCalls_ite (f : ∀ i, F i → G i) (c : Prop) [Decidable c]
    (p q : Prog F R α) :
    (if c then p else q).mapCalls f = if c then p.mapCalls f else q.mapCalls f := by
  split <;> rfl

/-- **A renamed program runs as the program does under the renamed
handler.** -/
theorem run_mapCalls (f : ∀ i, F i → G i) (h : Handler G R σ)
    (p : Prog F R α) (s : σ) :
    (p.mapCalls f).run h s = p.run (fun i c => h i (f i c)) s := by
  induction p generalizing s with
  | pure a => rfl
  | call c k ih => exact ih _ _

/-! ## Contracts -/

/-- **The program meets a contract**: each call satisfies `pre`, whatever
earlier calls answered within `post`, and the result satisfies `Q`. -/
def Meets (pre : ∀ i, F i → Prop) (post : ∀ i, F i → R i → Prop)
    (Q : α → Prop) : Prog F R α → Prop
  | .pure a => Q a
  | .call c k => pre _ c ∧ ∀ r, post _ c r → (k r).Meets pre post Q

variable {pre : ∀ i, F i → Prop} {post : ∀ i, F i → R i → Prop}
variable {Q : α → Prop} {Q' : β → Prop}

/-- A program that is over has to have its result right. -/
@[simp] theorem meets_pure (a : α) :
    (Pure.pure a : Prog F R α).Meets pre post Q ↔ Q a := Iff.rfl

/-- **A call** is to be within the contract, and so is what follows any answer within it. -/
@[simp] theorem meets_call {i : ι} (c : F i) (k : R i → Prog F R α) :
    (Prog.call c k).Meets pre post Q
      ↔ pre i c ∧ ∀ r, post i c r → (k r).Meets pre post Q := Iff.rfl

/-- A single call. -/
@[simp] theorem meets_perform {i : ι} (c : F i) {Q : R i → Prop} :
    (perform c : Prog F R (R i)).Meets pre post Q
      ↔ pre i c ∧ ∀ r, post i c r → Q r := Iff.rfl

/-- **The rule of sequence for contracts.** -/
theorem Meets.bind {p : Prog F R α} {k : α → Prog F R β}
    (hp : p.Meets pre post Q) (hk : ∀ a, Q a → (k a).Meets pre post Q') :
    (p >>= k).Meets pre post Q' := by
  induction p with
  | pure a => exact hk a hp
  | call c k' ih => exact ⟨hp.1, fun r hr => ih r (hp.2 r hr)⟩

/-- The rule of consequence for contracts. -/
theorem Meets.mono {Q₁ Q₂ : α → Prop} {p : Prog F R α}
    (hp : p.Meets pre post Q₁) (h : ∀ a, Q₁ a → Q₂ a) :
    p.Meets pre post Q₂ := by
  induction p with
  | pure a => exact h a hp
  | call c k ih => exact ⟨hp.1, fun r hr => ih r (hp.2 r hr)⟩

/-- Less is asked of the calls, and more is promised of their answers. -/
theorem Meets.imp {pre' : ∀ i, F i → Prop} {post' : ∀ i, F i → R i → Prop}
    {p : Prog F R α} (hp : p.Meets pre post Q) (hpre : ∀ i c, pre i c → pre' i c)
    (hpost : ∀ i c r, post' i c r → post i c r) : p.Meets pre' post' Q := by
  induction p with
  | pure a => exact hp
  | call c k ih => exact ⟨hpre _ c hp.1, fun r hr => ih r (hp.2 r (hpost _ c r hr))⟩

/-- A renamed program meets a contract when the program meets it for the calls
it is renamed to. -/
theorem Meets.mapCalls {f : ∀ i, F i → G i} {pre : ∀ i, G i → Prop}
    {post : ∀ i, G i → R i → Prop} {p : Prog F R α}
    (hp : p.Meets (fun i c => pre i (f i c)) (fun i c => post i (f i c)) Q) :
    (p.mapCalls f).Meets pre post Q := by
  induction p with
  | pure a => exact hp
  | call c k ih => exact ⟨hp.1, fun r hr => ih r (hp.2 r hr)⟩

/-- The handler honours the contract under an invariant: from a good state,
a call within its precondition is answered within its postcondition and
leaves a good state. -/
def Honours (h : Handler F R σ) (Inv : σ → Prop) (pre : ∀ i, F i → Prop)
    (post : ∀ i, F i → R i → Prop) : Prop :=
  ∀ i (c : F i) s, Inv s → pre i c → post i c (h i c s).1 ∧ Inv (h i c s).2

/-- **The invariant holds at every state of the run**, and the result is as
the contract says. -/
theorem Meets.visits {h : Handler F R σ} {Inv : σ → Prop}
    (hh : Honours h Inv pre post) {p : Prog F R α} (hp : p.Meets pre post Q)
    {s : σ} (hs : Inv s) :
    Q (p.run h s).1 ∧ ∀ t ∈ p.visits h s, Inv t := by
  -- A call leaves a good state, and the program that follows the answer meets the contract.
  induction p generalizing s with
  | pure a =>
    refine ⟨hp, fun t ht => ?_⟩
    rw [List.mem_singleton.mp ht]
    exact hs
  | call c k ih =>
    obtain ⟨hpost, hinv⟩ := hh _ c s hs hp.1
    obtain ⟨hq, hv⟩ := ih _ (hp.2 _ hpost) hinv
    refine ⟨hq, fun t ht => ?_⟩
    rcases List.mem_cons.mp ht with rfl | ht
    · exact hs
    · exact hv t ht

/-- The invariant holds at the end of the run. -/
theorem Meets.run {h : Handler F R σ} {Inv : σ → Prop}
    (hh : Honours h Inv pre post) {p : Prog F R α} (hp : p.Meets pre post Q)
    {s : σ} (hs : Inv s) : Q (p.run h s).1 ∧ Inv (p.run h s).2 :=
  ⟨(hp.visits hh hs).1, (hp.visits hh hs).2 _ (run_mem_visits h p s)⟩

/-- **Two handlers that answer alike run a program alike**: as long as the
calls satisfy `pre`, related states stay related. -/
theorem Meets.simulates {τ : Type} {h : Handler F R σ} {h' : Handler F R τ}
    {Rel : σ → τ → Prop}
    (hcall : ∀ i (c : F i) s t, pre i c → Rel s t →
      (h i c s).1 = (h' i c t).1 ∧ Rel (h i c s).2 (h' i c t).2)
    {p : Prog F R α} (hp : p.Meets pre (fun _ _ _ => True) Q) {s : σ} {t : τ}
    (hR : Rel s t) :
    (p.run h s).1 = (p.run h' t).1 ∧ Rel (p.run h s).2 (p.run h' t).2 := by
  -- The two runs are answered alike, so they go on with the same program.
  induction p generalizing s t with
  | pure a => exact ⟨rfl, hR⟩
  | call c k ih =>
    obtain ⟨hr, hR'⟩ := hcall _ c s t hp.1 hR
    rw [run_call, run_call, ← hr]
    exact ih _ (hp.2 _ trivial) hR'

/-! ## Reading a program with a monitor -/

/-- **The program read by a partial handler**: it stops at the first call
the handler has no answer for. -/
def watch {A : Type} (h : ∀ i, F i → StateT A Option (R i)) :
    Prog F R α → StateT A Option α
  | .pure a => Pure.pure a
  | .call c k => h _ c >>= fun r => (k r).watch h

variable {A : Type}

/-- There is nothing to read. -/
@[simp] theorem watch_pure (h : ∀ i, F i → StateT A Option (R i)) (a : α) :
    (Pure.pure a : Prog F R α).watch h = Pure.pure a := rfl

/-- The call is read, or the reading stops. -/
@[simp] theorem watch_call (h : ∀ i, F i → StateT A Option (R i)) {i : ι}
    (c : F i) (k : R i → Prog F R α) :
    (Prog.call c k).watch h = h i c >>= fun r => (k r).watch h := rfl

end Prog

/-- **The program tracks the monitor**: from related states, a reading of
the monitor that completes is what the program does – the same result, and
related states again. -/
def Tracks {A C : Type} (h : Handler G R C) (Rel : A → C → Prop)
    (M : StateT A Option α) (p : Prog G R α) : Prop :=
  ∀ a c, Rel a c → ∀ r a', M a = some (r, a') →
    (p.run h c).1 = r ∧ Rel a' (p.run h c).2

namespace Tracks

variable {A C : Type} {h : Handler G R C} {Rel : A → C → Prop}
variable {M : StateT A Option α} {p : Prog G R α}

/-- A program that makes no call tracks a monitor that moves no state. -/
theorem pure (a : α) : Tracks h Rel (Pure.pure a) (Pure.pure a) := by
  intro s c hR r s' hM
  obtain ⟨rfl, rfl⟩ := Prod.mk.inj (Option.some.inj hM)
  exact ⟨rfl, hR⟩

/-- **The rule of sequence for monitors.** -/
theorem bind (hp : Tracks h Rel M p) {N : α → StateT A Option β}
    {q : α → Prog G R β} (hq : ∀ a, Tracks h Rel (N a) (q a)) :
    Tracks h Rel (M >>= N) (p >>= q) := by
  intro s c hR r s' hM
  obtain ⟨⟨a, s₁⟩, h₁, h₂⟩ := Option.bind_eq_some_iff.mp hM
  obtain ⟨ha, hR₁⟩ := hp s c hR a s₁ h₁
  rw [Prog.run_bind, ha]
  exact hq a s₁ _ hR₁ r s' h₂

/-- A check of the result, which may stop the reading. -/
theorem check (hp : Tracks h Rel M p) {N : α → StateT A Option α}
    (hN : ∀ a, Tracks h Rel (N a) (Pure.pure a)) : Tracks h Rel (M >>= N) p := by
  have hb := hp.bind hN
  rwa [Prog.bind_pure'] at hb

/-- A monitor step that the program does not take: it keeps the states
related as they are. -/
theorem step {N : StateT A Option β} {M : β → StateT A Option α}
    (hN : ∀ a c, Rel a c → ∀ b a', N a = some (b, a') →
      Rel a' c ∧ Tracks h Rel (M b) p) :
    Tracks h Rel (N >>= M) p := by
  intro s c hR r s' hM
  obtain ⟨⟨b, s₁⟩, h₁, h₂⟩ := Option.bind_eq_some_iff.mp hM
  obtain ⟨hR₁, hT⟩ := hN s c hR b s₁ h₁
  exact hT s₁ c hR₁ r s' h₂

/-- A program that tracks a monitor where its calls are renamed is renamed into one
that tracks it. -/
theorem mapCalls {f : ∀ i, F i → G i} {q : Prog F R α}
    (hq : Tracks (fun i c => h i (f i c)) Rel M q) : Tracks h Rel M (q.mapCalls f) := by
  intro s c hR r s' hM
  rw [Prog.run_mapCalls]
  exact hq s c hR r s' hM

/-- **A program tracks its own reading**, as soon as the partial handler is
right about every call it answers. -/
theorem watch {hw : ∀ i, G i → StateT A Option (R i)}
    (hcall : ∀ i (c : G i), Tracks h Rel (hw i c) (Prog.perform c)) (q : Prog G R α) :
    Tracks h Rel (q.watch hw) q := by
  induction q with
  | pure a => exact Tracks.pure a
  | call c k ih => exact bind (hcall _ c) ih

/-- A choice both make the same way. -/
theorem ite {c : Prop} [Decidable c] {N : StateT A Option α} {q : Prog G R α}
    (hp : c → Tracks h Rel M p) (hq : ¬c → Tracks h Rel N q) :
    Tracks h Rel (if c then M else N) (if c then p else q) := by
  by_cases hc : c
  · rw [if_pos hc, if_pos hc]
    exact hp hc
  · rw [if_neg hc, if_neg hc]
    exact hq hc

/-- A monitor that stops here is not tracked further. -/
theorem failure : Tracks h Rel (failure : StateT A Option α) p :=
  fun _ _ _ _ _ hM => (nomatch hM)

end Tracks

end Hmr
