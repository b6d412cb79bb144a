import Mathlib.Algebra.Ring.Nat

/-!
# Steps that count their changes

A step changes a state and says how many changes it made. If it makes none only where it
leaves the state as it is, and each one costs at least one unit of some quantity, then
steps one after the other do the same (`Descends.andThen`); and repeated until there is no
change, they come to rest within as many rounds as there are units, at a state that they
leave as it is (`Descends.repeat_settles`).

The number that a step reports is what the repetition goes by, so it has to be right in
both directions. A step that reports a change it has not made costs nothing, and might go
on for ever; one that reports none and has changed the state would stop it too early.

A quantity that is a sum over a list goes down with every item that is dropped, if each
has some weight. What is counted are then the items that are dropped, and their weights
need not be the same.
-/

namespace Hmr

namespace Descent

variable {σ : Type}

/-- **A step that counts its changes.** -/
abbrev Step (σ : Type) : Type := σ → Nat × σ

/-- **Changes cost**: without any, the state stays; and each lowers the measure. -/
structure Descends (measure : σ → Nat) (f : Step σ) : Prop where
  identity : ∀ s, (f s).1 = 0 → (f s).2 = s
  lowers : ∀ s, measure (f s).2 + (f s).1 ≤ measure s

/-- One step after the other. -/
def Step.andThen (f g : Step σ) : Step σ := fun s => ((f s).1 + (g (f s).2).1, (g (f s).2).2)

/-- What repeating a step comes to: how many rounds there were, whether the last one changed
nothing, the changes of all, and the state. -/
structure Repeated (σ : Type) where
  rounds : Nat
  settled : Bool
  changes : Nat
  state : σ

/-- **Repeat a step** until it changes nothing, a number of times at most. -/
def Step.repeat (f : Step σ) : Nat → σ → Repeated σ
  | 0, s => ⟨0, false, 0, s⟩
  | n + 1, s =>
    if (f s).1 = 0 then ⟨1, true, 0, (f s).2⟩
    else
      let r := f.repeat n (f s).2
      ⟨r.rounds + 1, r.settled, (f s).1 + r.changes, r.state⟩

namespace Descends

section
variable {measure : σ → Nat} {f g : Step σ}

/-- A step that changes nothing is a step to the same state. -/
theorem eq_of_zero (h : Descends measure f) {s : σ} (hs : (f s).1 = 0) : f s = (0, s) :=
  Prod.ext hs (h.identity s hs)

/-- **Two such steps are one.** -/
theorem andThen (hf : Descends measure f) (hg : Descends measure g) :
    Descends measure (f.andThen g) where
  identity s h := by
    obtain ⟨hzero, hzero'⟩ := Nat.add_eq_zero_iff.mp h
    have hsame := hf.identity s hzero
    rw [hsame] at hzero'
    calc (g (f s).2).2 = (g s).2 := by rw [hsame]
      _ = s := hg.identity s hzero'
  lowers s := by
    have hfirst := hf.lowers s
    have hsecond := hg.lowers (f s).2
    simp only [Step.andThen]
    omega

/-- **If both together change nothing, each of them does.** -/
theorem of_andThen (hf : Descends measure f) {s : σ} (h : f.andThen g s = (0, s)) :
    f s = (0, s) ∧ g s = (0, s) := by
  obtain ⟨hzero, hstate⟩ := Prod.mk.inj h
  obtain ⟨hzero, hzero'⟩ := Nat.add_eq_zero_iff.mp hzero
  have hsame := hf.identity s hzero
  rw [hsame] at hzero' hstate
  exact ⟨Prod.ext hzero hsame, Prod.ext hzero' hstate⟩

/-- **Repeated, such a step comes to rest**, if there are more rounds than units. -/
theorem repeat_settles (h : Descends measure f) {n : Nat} {s : σ} (hn : measure s < n) :
    (f.repeat n s).settled = true ∧ (f.repeat n s).rounds ≤ measure s + 1
      ∧ f (f.repeat n s).state = (0, (f.repeat n s).state)
      ∧ (f.repeat n s).changes ≤ measure s := by
  induction n generalizing s with
  | zero => exact absurd hn (Nat.not_lt_zero _)
  | succ n ih =>
    rw [Step.repeat]
    split
    · rename_i hzero
      have hsame := h.eq_of_zero hzero
      refine ⟨rfl, Nat.le_add_left _ _, ?_, Nat.zero_le _⟩
      rw [hsame]
      exact hsame
    · rename_i hzero
      have hlowers := h.lowers s
      have hbelow : measure (f s).2 < n := by omega
      obtain ⟨hsettled, hrounds, hstate, hchanges⟩ := ih hbelow
      dsimp only
      exact ⟨hsettled, by omega, hstate, by omega⟩

end

end Descends

/-! ## Lists of weighted items -/

section
variable {α : Type} {w : α → Nat} {l : List α}

/-- What is gone from a list has some weight. -/
theorem sum_filter_add_countP {p : α → Bool} (hw : ∀ a, 1 ≤ w a) :
    ((l.filter fun a => !p a).map w).sum + l.countP p ≤ (l.map w).sum := by
  induction l with
  | nil => exact le_rfl
  | cons a l ih =>
    have ha := hw a
    cases hp : p a with
    | true =>
      rw [List.filter_cons_of_neg (by simp [hp]), List.countP_cons_of_pos hp, List.map_cons,
        List.sum_cons]
      omega
    | false =>
      rw [List.filter_cons_of_pos (by simp [hp]), List.countP_cons_of_neg (by simp [hp]),
        List.map_cons, List.map_cons, List.sum_cons, List.sum_cons]
      omega

/-- What every item loses, the list loses. -/
theorem sum_map_add_sum {β : Type} {w' : β → Nat} {f : α → β} {n : α → Nat}
    (h : ∀ a ∈ l, w' (f a) + n a ≤ w a) :
    ((l.map f).map w').sum + (l.map n).sum ≤ (l.map w).sum := by
  induction l with
  | nil => exact le_rfl
  | cons a l ih =>
    rw [List.forall_mem_cons] at h
    have hfirst := h.1
    have hrest := ih h.2
    simp only [List.map_cons, List.sum_cons]
    omega

end

end Descent

end Hmr
