import Mathlib.Data.Set.Card
import Mathlib.Logic.Function.Basic

/-!
# Shared pointers

An object is shared by the pointers to it, and goes when the last of them does. It does
not know them: it has a count, which an assignment raises for what the pointer gets and
lowers for what it had, and the assignment that lowers it to nothing destroys the object.

The order of the two is part of it. The new object is retained before the old one is
released, so that a pointer which is assigned what it points to already does not destroy
it on the way.

`Shared.Pool.Exact` says that the counts are right. Assignments keep it, as long as
nothing destroyed is assigned (`Shared.Pool.Exact.assign`), and then an object that has
ever been pointed to is destroyed exactly when no pointer is left
(`Shared.Pool.Exact.mem_destroyed_iff`). Whoever has a pointer may copy it, since what it
points to is not destroyed (`Shared.Pool.Exact.notMem_destroyed`); so a program that gets
its objects by copying pointers, and new ones from somewhere else, meets the condition by
itself.

The pointers to an object are counted as a set. There may be infinitely many names for
pointers, but what has a count has finitely many pointers.
-/

namespace Shared

/-- **Pointers `ω` to objects `ν`.** -/
structure Pool (ω ν : Type) where
  /-- What a pointer points to; a null pointer to nothing. -/
  target : ω → Option ν := fun _ => none
  /-- The count of an object. -/
  uses : ν → Nat := fun _ => 0
  /-- The objects that have been destroyed, in order. -/
  destroyed : List ν := []

namespace Pool

variable {ω ν : Type} [DecidableEq ω] [DecidableEq ν]

/-- One pointer more. -/
def retain (s : Pool ω ν) : Option ν → Pool ω ν
  | none => s
  | some o => { s with uses := Function.update s.uses o (s.uses o + 1) }

/-- One pointer less. The last one takes the object with it. -/
def release (s : Pool ω ν) : Option ν → Pool ω ν
  | none => s
  | some o =>
    { s with
      uses := Function.update s.uses o (s.uses o - 1)
      destroyed := if s.uses o = 1 then s.destroyed ++ [o] else s.destroyed }

/-- **Assignment**: the new object is retained before the old one is released. -/
def assign (s : Pool ω ν) (p : ω) (t : Option ν) : Pool ω ν :=
  release { s.retain t with target := Function.update s.target p t } (s.target p)

/-- The pointers to an object. -/
def pointers (s : Pool ω ν) (o : ν) : Set ω := { p | s.target p = some o }

/-- The object has been pointed to. -/
def Made (s : Pool ω ν) (o : ν) : Prop := (∃ p, s.target p = some o) ∨ o ∈ s.destroyed

/-- **The counts are right**, and nothing points to what is destroyed. -/
structure Exact (s : Pool ω ν) : Prop where
  uses : ∀ o, (s.pointers o).encard = s.uses o
  destroyed : ∀ o ∈ s.destroyed, s.uses o = 0
  once : s.destroyed.Nodup

variable {s : Pool ω ν} {p q : ω} {t : Option ν} {o : ν}

/-- An assignment changes one pointer. -/
@[simp] theorem target_assign : (s.assign p t).target = Function.update s.target p t := by
  unfold assign release retain
  cases s.target p <;> cases t <;> rfl

/-- It points to what it was assigned. -/
@[simp] theorem target_assign_self : (s.assign p t).target p = t := by
  rw [target_assign, Function.update_self]

/-- The others point to what they did. -/
theorem target_assign_of_ne (h : q ≠ p) : (s.assign p t).target q = s.target q := by
  rw [target_assign, Function.update_of_ne h]

omit [DecidableEq ω] in
/-- One more is counted for what is retained. -/
@[simp] theorem uses_retain (o : ν) :
    (s.retain t).uses o = s.uses o + (if t = some o then 1 else 0) := by
  unfold retain
  cases t with
  | none => rfl
  | some x =>
    by_cases hx : x = o
    · subst hx
      rw [if_pos rfl]
      exact Function.update_self ..
    · rw [if_neg fun h => hx (Option.some.inj h)]
      exact Function.update_of_ne (Ne.symm hx) ..

omit [DecidableEq ω] in
/-- That destroys nothing. -/
@[simp] theorem destroyed_retain : (s.retain t).destroyed = s.destroyed := by
  unfold retain
  cases t <;> rfl

/-- What an assignment does to a count. -/
theorem uses_assign (o : ν) : (s.assign p t).uses o
    = s.uses o + (if t = some o then 1 else 0) - (if s.target p = some o then 1 else 0) := by
  rw [← uses_retain]
  unfold assign release
  cases s.target p with
  | none => rfl
  | some x =>
    by_cases hx : x = o
    · subst hx
      rw [if_pos rfl]
      exact Function.update_self ..
    · rw [if_neg fun h => hx (Option.some.inj h)]
      exact Function.update_of_ne (Ne.symm hx) ..

/-- What it destroys. -/
theorem destroyed_assign : (s.assign p t).destroyed = match s.target p with
    | none => s.destroyed
    | some o => if s.uses o + (if t = some o then 1 else 0) = 1 then s.destroyed ++ [o]
      else s.destroyed := by
  unfold assign release
  cases s.target p with
  | none => exact destroyed_retain
  | some x =>
    dsimp only
    rw [uses_retain, destroyed_retain]

/-- What it does to the pointers to an object. -/
@[simp] theorem pointers_assign : (s.assign p t).pointers o
    = if t = some o then insert p (s.pointers o) else s.pointers o \ {p} := by
  ext q
  show (s.assign p t).target q = some o ↔ _
  by_cases hq : q = p
  · subst hq
    rw [target_assign_self]
    split
    · exact iff_of_true ‹_› (Set.mem_insert _ _)
    · exact iff_of_false ‹_› fun h => h.2 rfl
  · rw [target_assign_of_ne hq]
    show q ∈ s.pointers o ↔ _
    split
    · exact (Set.mem_insert_iff.trans (or_iff_right hq)).symm
    · exact (Set.mem_sdiff_singleton.trans (and_iff_left hq)).symm

namespace Exact

omit [DecidableEq ω] [DecidableEq ν] in
/-- An object has a count of zero when nothing points to it. -/
theorem uses_eq_zero_iff (h : Exact s) : s.uses o = 0 ↔ ∀ p, s.target p ≠ some o := by
  refine ⟨fun ho p hp => ?_, fun ho => ?_⟩
  · have hempty : (s.pointers o).encard = 0 := by rw [h.uses, ho]; rfl
    have hmem : p ∈ s.pointers o := hp
    rw [Set.encard_eq_zero.mp hempty] at hmem
    exact hmem
  · have hempty : s.pointers o = ∅ := Set.eq_empty_iff_forall_notMem.mpr ho
    have huses := h.uses o
    rw [hempty, Set.encard_empty] at huses
    exact Nat.cast_eq_zero.mp huses.symm

/-- The count after an assignment is the number of pointers after it. -/
theorem encard_assign (h : Exact s) (o : ν) :
    ((s.assign p t).pointers o).encard = (s.assign p t).uses o := by
  rw [pointers_assign, uses_assign]
  by_cases ht : t = some o
  · rw [if_pos ht, if_pos ht]
    by_cases hp : s.target p = some o
    · rw [if_pos hp, Set.insert_eq_of_mem (show p ∈ s.pointers o from hp), h.uses,
        Nat.add_sub_cancel]
    · rw [if_neg hp, Set.encard_insert_of_notMem (show p ∉ s.pointers o from hp), h.uses]
      rfl
  · rw [if_neg ht, if_neg ht, Nat.add_zero]
    by_cases hp : s.target p = some o
    · rw [if_pos hp, Set.encard_sdiff_singleton_of_mem (show p ∈ s.pointers o from hp), h.uses]
      exact (ENat.natCast_sub _ _).symm
    · rw [if_neg hp, Set.sdiff_singleton_eq_self (show p ∉ s.pointers o from hp), h.uses]
      rfl

omit [DecidableEq ω] [DecidableEq ν] in
/-- What a pointer points to is counted. -/
theorem uses_pos (h : Exact s) (hp : s.target p = some o) : 0 < s.uses o :=
  Nat.pos_of_ne_zero fun ho => h.uses_eq_zero_iff.mp ho p hp

/-- **An assignment destroys** what it leaves without a pointer. -/
theorem mem_destroyed_assign (h : Exact s) : o ∈ (s.assign p t).destroyed
    ↔ o ∈ s.destroyed ∨ s.target p = some o ∧ (s.assign p t).uses o = 0 := by
  rw [destroyed_assign]
  cases hp : s.target p with
  | none => exact (or_iff_left fun h => by cases h.1).symm
  | some x =>
    dsimp only
    have hpos := h.uses_pos hp
    have hlast : s.uses x + (if t = some x then 1 else 0) = 1 ↔ (s.assign p t).uses x = 0 := by
      rw [uses_assign, if_pos hp]
      omega
    -- The assignment lowers the count of what the pointer had, and raises it first if it gets
    -- the same.
    by_cases hone : s.uses x + (if t = some x then 1 else 0) = 1
    · rw [if_pos hone, List.mem_append, List.mem_singleton]
      refine or_congr_right ⟨?_, fun h => (Option.some.inj h.1).symm⟩
      rintro rfl
      exact ⟨rfl, hlast.mp hone⟩
    · rw [if_neg hone]
      refine (or_iff_left ?_).symm
      rintro ⟨hxo, hzero⟩
      obtain rfl := Option.some.inj hxo
      exact hone (hlast.mpr hzero)

/-- **Assignments keep the counts right**, unless what is assigned is destroyed. -/
theorem assign (h : Exact s) (ht : ∀ o, t = some o → o ∉ s.destroyed) :
    Exact (s.assign p t) where
  uses := h.encard_assign
  destroyed o ho := by
    obtain hold | ⟨-, hzero⟩ := h.mem_destroyed_assign.mp ho
    · rw [uses_assign, if_neg fun hto => ht o hto hold, h.destroyed o hold, Nat.zero_add,
        Nat.zero_sub]
    · exact hzero
  once := by
    rw [destroyed_assign]
    cases hp : s.target p with
    | none => exact h.once
    | some x =>
      dsimp only
      -- What is destroyed had one pointer, and was not destroyed before.
      by_cases hone : s.uses x + (if t = some x then 1 else 0) = 1
      · rw [if_pos hone]
        refine List.nodup_append'.mpr ⟨h.once, List.nodup_singleton x, ?_⟩
        refine List.disjoint_singleton.mpr fun hx => ?_
        exact absurd (h.destroyed x hx) (Nat.ne_of_gt (h.uses_pos hp))
      · rw [if_neg hone]
        exact h.once

omit [DecidableEq ω] [DecidableEq ν] in
/-- **Nothing points to what is destroyed.** -/
theorem notMem_destroyed (h : Exact s) (hp : s.target p = some o) : o ∉ s.destroyed :=
  fun ho => h.uses_eq_zero_iff.mp (h.destroyed o ho) p hp

omit [DecidableEq ω] [DecidableEq ν] in
/-- **What has been made is destroyed when nothing points to it**, and not before. -/
theorem mem_destroyed_iff (h : Exact s) (ho : s.Made o) :
    o ∈ s.destroyed ↔ ∀ p, s.target p ≠ some o := by
  refine ⟨fun hd p hp => h.notMem_destroyed hp hd, fun hnone => ?_⟩
  obtain ⟨p, hp⟩ | hd := ho
  · exact absurd hp (hnone p)
  · exact hd

/-- An assignment makes what it assigns, and nothing made is lost. -/
theorem made_assign (h : Exact s) : (s.assign p t).Made o ↔ s.Made o ∨ t = some o := by
  have hself : t = some o → ∃ q, (s.assign p t).target q = some o :=
    fun ht => ⟨p, target_assign_self.trans ht⟩
  constructor
  · rintro (⟨q, hq⟩ | hd)
    · by_cases hqp : q = p
      · subst hqp
        exact .inr (target_assign_self.symm.trans hq)
      · rw [target_assign_of_ne hqp] at hq
        exact .inl (.inl ⟨q, hq⟩)
    · obtain hold | ⟨hp, -⟩ := h.mem_destroyed_assign.mp hd
      · exact .inl (.inr hold)
      · exact .inl (.inl ⟨p, hp⟩)
  · rintro ((⟨q, hq⟩ | hd) | ht)
    · by_cases hqp : q = p
      · subst hqp
        -- the pointer that changes was one to the object
        by_cases hzero : (s.assign q t).uses o = 0
        · exact .inr (h.mem_destroyed_assign.mpr (.inr ⟨hq, hzero⟩))
        · refine .inl ?_
          have hsome : (s.assign q t).pointers o ≠ ∅ := fun hempty => by
            have huses := h.encard_assign (p := q) (t := t) o
            rw [hempty, Set.encard_empty] at huses
            exact hzero (Nat.cast_eq_zero.mp huses.symm)
          exact Set.nonempty_iff_ne_empty.mpr hsome
      · exact .inl ⟨q, (target_assign_of_ne hqp).trans hq⟩
    · exact .inr (h.mem_destroyed_assign.mpr (.inl hd))
    · exact .inl (hself ht)

end Exact

omit [DecidableEq ω] [DecidableEq ν] in
/-- There are no pointers yet. -/
theorem exact_empty : Exact ({} : Pool ω ν) where
  uses o := by
    have hempty : ({} : Pool ω ν).pointers o = ∅ := by
      refine Set.eq_empty_iff_forall_notMem.mpr fun p hp => ?_
      cases (show (none : Option ν) = some o from hp)
    rw [hempty, Set.encard_empty]
    rfl
  destroyed o ho := absurd ho List.not_mem_nil
  once := List.nodup_nil

end Pool

end Shared
