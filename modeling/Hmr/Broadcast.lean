import Mathlib.Data.List.Nodup
import Mathlib.Logic.Function.Basic

/-!
# Telling those who are registered

Threads tell observers what there is to tell, by one call for each. A thread takes a copy
of the list of those who are registered, and makes its calls one after the other;
meanwhile observers come and go, and other threads tell them other things.

That a copy is taken is what makes this a protocol: an observer that leaves after the copy
is told all the same, and one that comes after it is not, and no thread ever goes through
a list that is changing. What can be promised is therefore promised about the moment of
the copy.

What a thread has told and what it has still to tell make up its course
(`Broadcast.Board.course`), which neither a call nor a registration changes: a call moves
one entry from the end of the second part to the end of the first one. So a thread tells,
in order, those who were registered when it took its copy
(`Broadcast.Board.course_announce`), and none of them twice
(`Broadcast.Board.owed_announce`). An invariant of courses holds whatever the
interleaving, and at the end, when nothing is left to tell, it is one about the calls that
have been made (`Broadcast.Board.owed_of_calls`).

What is told, by whom and to whom is left open.
-/

namespace Broadcast

/-- **Threads `ι`, which tell observers `ω` messages `ε`.** -/
structure Board (ω ι ε : Type) where
  /-- Those who are registered, in order. -/
  observers : List ω := []
  /-- The calls a thread has still to make. -/
  calls : ι → List (ω × ε) := fun _ => []
  /-- The calls that have been made. -/
  made : List (ι × ω × ε) := []

namespace Board

variable {ω ι ε : Type} [DecidableEq ω] [DecidableEq ι]

/-- An observer is registered, unless it is already. -/
def subscribe (b : Board ω ι ε) (o : ω) : Board ω ι ε :=
  if o ∈ b.observers then b else { b with observers := b.observers ++ [o] }

/-- An observer is not registered any more. -/
def unsubscribe (b : Board ω ι ε) (o : ω) : Board ω ι ε :=
  { b with observers := b.observers.erase o }

/-- A thread takes its copy. -/
def announce (b : Board ω ι ε) (i : ι) (e : ε) : Board ω ι ε :=
  { b with calls := Function.update b.calls i (b.observers.map fun o => (o, e)) }

/-- A thread makes its next call. -/
def deliver (b : Board ω ι ε) (i : ι) : Board ω ι ε :=
  match b.calls i with
  | [] => b
  | c :: rest =>
    { b with
      calls := Function.update b.calls i rest
      made := b.made ++ [(i, c)] }

/-- **The course of a thread**: the calls it has made, and those it has still to make. -/
def course (b : Board ω ι ε) (i : ι) : List (ω × ε) :=
  (b.made.filter (·.1 = i)).map Prod.snd ++ b.calls i

/-- What a thread has told an observer. -/
def told (b : Board ω ι ε) (i : ι) (o : ω) : List ε :=
  (((b.made.filter (·.1 = i)).map Prod.snd).filter (·.1 = o)).map Prod.snd

/-- What a thread has told an observer, or has still to tell it. -/
def owed (b : Board ω ι ε) (i : ι) (o : ω) : List ε :=
  ((b.course i).filter (·.1 = o)).map Prod.snd

variable {b : Board ω ι ε} {o o' : ω} {i j : ι} {e : ε}

/-! ## Who is registered -/

section
omit [DecidableEq ι]

/-- Who is registered after a registration. -/
@[simp] theorem mem_subscribe : o' ∈ (b.subscribe o).observers ↔ o' ∈ b.observers ∨ o' = o := by
  unfold subscribe
  by_cases ho : o ∈ b.observers
  · rw [if_pos ho]
    exact ⟨.inl, fun h => h.elim id fun h => h ▸ ho⟩
  · rw [if_neg ho, List.mem_append, List.mem_singleton]

/-- **Nobody is registered twice**, since the list is gone through first. -/
theorem nodup_subscribe (h : b.observers.Nodup) : (b.subscribe o).observers.Nodup := by
  unfold subscribe
  by_cases ho : o ∈ b.observers
  · rw [if_pos ho]
    exact h
  · rw [if_neg ho]
    refine List.nodup_append.mpr ⟨h, List.nodup_singleton o, fun a ha c hc hac => ho ?_⟩
    rw [← List.mem_singleton.mp hc, ← hac]
    exact ha

/-- Nor after somebody has left. -/
theorem nodup_unsubscribe (h : b.observers.Nodup) : (b.unsubscribe o).observers.Nodup :=
  h.erase o

/-- Who has left is not registered any more, as there was one entry to take out. -/
theorem mem_unsubscribe (h : b.observers.Nodup) :
    o' ∈ (b.unsubscribe o).observers ↔ o' ≠ o ∧ o' ∈ b.observers :=
  h.mem_erase_iff

end

/-! ## Courses -/

/-- What an observer is owed depends on the course only. -/
theorem owed_congr {b' : Board ω ι ε} (h : b'.course i = b.course i) :
    b'.owed i o = b.owed i o := by
  rw [owed, h]
  rfl

/-- A thread that has told and has to tell nothing owes nothing. -/
theorem owed_of_course (h : b.course i = []) : b.owed i o = [] := by
  rw [owed, h]
  rfl

/-- **A thread that has nothing left to tell has told what it owed.** -/
theorem owed_of_calls (h : b.calls i = []) : b.owed i o = b.told i o := by
  rw [owed, course, h, List.append_nil]
  rfl

/-- What has been told is the beginning of what is owed. -/
theorem told_prefix_owed : b.told i o <+: b.owed i o := by
  unfold owed course
  rw [List.filter_append, List.map_append]
  exact List.prefix_append _ _

/-- A registration does not change what threads have copied. -/
@[simp] theorem course_subscribe : (b.subscribe o).course i = b.course i := by
  unfold subscribe
  by_cases ho : o ∈ b.observers
  · rw [if_pos ho]
  · rw [if_neg ho]
    rfl

omit [DecidableEq ω] in
/-- **A call is part of the course already.** -/
@[simp] theorem course_deliver : (b.deliver j).course i = b.course i := by
  unfold deliver
  -- A call goes from the end of what was made to the front of what is to be made; put together
  -- they are the same.
  cases hcalls : b.calls j with
  | nil => rfl
  | cons c rest =>
    unfold course
    dsimp only
    rw [List.filter_append, List.map_append]
    by_cases hi : i = j
    · subst hi
      rw [Function.update_self, hcalls]
      simp
    · rw [Function.update_of_ne hi]
      have hother : [(j, c)].filter (fun m => decide (m.1 = i)) = [] := by simp [Ne.symm hi]
      rw [hother, List.map_nil, List.append_nil]

omit [DecidableEq ω] in
/-- A copy is the thread's own. -/
theorem course_announce_of_ne (h : i ≠ j) : (b.announce j e).course i = b.course i := by
  unfold course announce
  dsimp only
  rw [Function.update_of_ne h]

omit [DecidableEq ω] in
/-- **A thread that has nothing left to tell takes its copy.** -/
theorem course_announce (h : b.calls i = []) :
    (b.announce i e).course i = b.course i ++ b.observers.map fun o => (o, e) := by
  unfold course announce
  dsimp only
  rw [Function.update_self, h, List.append_nil]

/-- **Whoever is registered is told once**, and nobody else is. -/
theorem owed_announce (hnodup : b.observers.Nodup) (h : b.calls i = []) :
    (b.announce i e).owed i o = b.owed i o ++ if o ∈ b.observers then [e] else [] := by
  have hone : ((b.observers.map fun o' => (o', e)).filter fun c => decide (c.1 = o))
      = if o ∈ b.observers then [(o, e)] else [] := by
    rw [List.filter_map]
    have hcomp : ((fun c : ω × ε => decide (c.1 = o)) ∘ fun o' => (o', e)) = (· == o) := rfl
    rw [hcomp, List.filter_beq]
    by_cases ho : o ∈ b.observers
    · rw [if_pos ho, List.count_eq_one_of_mem hnodup ho]
      rfl
    · rw [if_neg ho, List.count_eq_zero_of_not_mem ho]
      rfl
  unfold owed
  rw [course_announce h, List.filter_append, List.map_append, hone]
  -- The copy has each observer once, so what is owed is one call or none.
  by_cases ho : o ∈ b.observers
  · rw [if_pos ho, if_pos ho]
    rfl
  · rw [if_neg ho, if_neg ho]
    rfl

end Board

end Broadcast
