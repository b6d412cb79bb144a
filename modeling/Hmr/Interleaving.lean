import Mathlib.Logic.Basic

/-!
# Interleavings

Several threads share a state, and each takes its steps one at a time. A thread knows what
its next step is, so an interleaving is the list of whose turn it is, and a run is what
comes of it. There is no fairness in this: a schedule may leave a thread out for good, and
a run may end in the middle of everything. What is proved of runs is safety, for which
that is no loss.

A thread whose turn it is may have nothing to do, be it that it is through or that it
waits for another one. Then its step changes nothing, and schedules with such turns in
them are runs like the others.

What a step preserves holds at the end of every run (`Interleaving.run_invariant`); what a
step preserves only under some condition holds at the end of the runs all of whose steps
meet it (`Interleaving.run_invariant_of_steps`). A schedule can be cut anywhere
(`Interleaving.run_append`), so a statement about all that follows some moment is one
about runs from any state.
-/

namespace Hmr

namespace Interleaving

variable {ι σ : Type} (step : ι → σ → σ)

/-- **A run**: the turns of a schedule, one after the other. -/
def run (sched : List ι) (s : σ) : σ := sched.foldl (fun s i => step i s) s

/-- Every step of the run meets a condition, in the state it is taken in. -/
def Steps (P : ι → σ → Prop) : List ι → σ → Prop
  | [], _ => True
  | i :: rest, s => P i s ∧ Steps P rest (step i s)

variable {step} {P : ι → σ → Prop} {I : σ → Prop}

/-- A run without turns. -/
@[simp] theorem run_nil (s : σ) : run step [] s = s := rfl

/-- The first turn, and the others from where it leads to. -/
@[simp] theorem run_cons (i : ι) (rest : List ι) (s : σ) :
    run step (i :: rest) s = run step rest (step i s) := rfl

/-- **A run can be cut** at any turn. -/
@[simp] theorem run_append (a b : List ι) (s : σ) :
    run step (a ++ b) s = run step b (run step a s) :=
  List.foldl_append

/-- **What every step preserves, every run preserves.** -/
theorem run_invariant (hstep : ∀ i s, I s → I (step i s)) (sched : List ι) {s : σ}
    (h : I s) : I (run step sched s) := by
  induction sched generalizing s with
  | nil => exact h
  | cons i rest ih => exact ih (hstep i s h)

/-- **What the steps preserve that meet a condition**, a run of such steps
preserves. -/
theorem run_invariant_of_steps (hstep : ∀ i s, P i s → I s → I (step i s))
    {sched : List ι} {s : σ} (hP : Steps step P sched s) (h : I s) :
    I (run step sched s) := by
  induction sched generalizing s with
  | nil => exact h
  | cons i rest ih => exact ih hP.2 (hstep i s hP.1 h)

/-- A run has a step that does not meet the condition, or all of them do. -/
theorem exists_step_of_not (sched : List ι) (s : σ) (h : ¬ Steps step P sched s) :
    ∃ pre i post, sched = pre ++ i :: post ∧ ¬ P i (run step pre s) := by
  induction sched generalizing s with
  | nil => exact absurd trivial h
  | cons i rest ih =>
    by_cases hi : P i s
    · obtain ⟨pre, j, post, rfl, hj⟩ := ih (step i s) fun hrest => h ⟨hi, hrest⟩
      exact ⟨i :: pre, j, post, rfl, hj⟩
    · exact ⟨[], i, rest, rfl, hi⟩

end Interleaving

end Hmr
