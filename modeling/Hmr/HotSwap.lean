import Hmr.Modules
import Hmr.SharedPointers

/-!
# Swapping modules while they are in use

A module is unloaded when the last shared pointer to it goes. There is one in the manager,
for the current module; one in each `load` that is under way or whose result is still
there, and for a moment another one, when `load` looks whether there is a current module;
and readers have snapshots, which they take and give up as they like. `HotSwap.step` is
one step of any of these, so a run is any interleaving of loads, drops and readers, and of
the end of the manager.

What is so in every state of a run is one invariant (`HotSwap.Sound`): the counts of the
shared pointers are right, and each load has of the library what it should have by then
(`HotSwap.Fits`) – a handle that is open and not closed, pointers to its module, or none.
It is kept by each step, since whatever is assigned is copied from a pointer that is
there, or new.

So a module that a reader has is open, and stays so as long as the reader has it, whatever
else happens (`HotSwap.run_open`, `HotSwap.run_snapshot`); and when nobody has it any more
its handle is closed, once (`HotSwap.run_closed`).

`ModuleManager.step` is what remains when the pointers are forgotten
(`HotSwap.forget_run`). The end of the manager is the one step that has no counterpart
there.
-/

namespace Hmr

namespace HotSwap

open Shared

/-- What points to modules. -/
inductive Ref (ι ρ : Type)
  /-- `current_`. -/
  | current
  /-- What `load` compares with null. -/
  | looked (i : ι)
  /-- `module` in `load`, which becomes its result. -/
  | result (i : ι)
  /-- What a reader got from `current()`. -/
  | snapshot (r : ρ)
  deriving DecidableEq

/-- **Where a `load` is.** -/
inductive Phase
  | called
  /-- About to report a failure; a handle has been closed. -/
  | failing (error : Bytes)
  | resolved (module : LoadedModule)
  /-- It has looked for a current module, and has it still. -/
  | looking (module : LoadedModule) (isReload : Bool)
  | decided (module : LoadedModule) (isReload : Bool)
  /-- There is a shared pointer to the new module. -/
  | made (module : LoadedModule) (isReload : Bool)
  | published (module : LoadedModule) (isReload : Bool)
  | failed (error : Bytes)
  | loaded (module : LoadedModule) (isReload : Bool)
  deriving DecidableEq, Repr

namespace Phase

/-- Without what happens to pointers. -/
def forget : Phase → LoadPhase
  | called => .called
  | failing e => .failing e
  | resolved m => .resolved m
  | looking m b | decided m b | made m b => .decided m b
  | published m b => .published m b
  | failed e => .failed e
  | loaded m b => .loaded m b

/-- The new module has been made. -/
def hasModule : Phase → Bool
  | made _ _ | published _ _ | loaded _ _ => true
  | _ => false

/-- `load` has failed, or is about to. -/
def hasFailed : Phase → Bool
  | failing _ | failed _ => true
  | _ => false

end Phase

/-- What is done next. -/
inductive Action (ι ρ : Type)
  /-- A load goes on. -/
  | load (i : ι)
  /-- The result of a load is dropped. -/
  | drop (i : ι)
  /-- A reader takes a snapshot. -/
  | acquire (r : ρ)
  /-- A reader gives up its snapshot. -/
  | release (r : ρ)
  /-- The manager is destroyed; nothing of it is called from then on. -/
  | destroy
  deriving DecidableEq

/-- **The manager, its loads and its readers.** The module a load makes goes by the load. -/
structure State (ι ρ : Type) where
  phase : ι → Phase := fun _ => .called
  pool : Pool (Ref ι ρ) ι := {}
  events : List (ι × ModuleEvent) := []
  /-- The loads that got a handle from `dlopen`. -/
  opened : List ι := []
  /-- The loads that closed their handle again and failed. -/
  discarded : List ι := []
  destroyed : Bool := false

namespace State

variable {ι ρ : Type}

/-- The loads whose handle has been closed, by `load` or when their module was destroyed. -/
def closed (s : State ι ρ) : List ι := s.discarded ++ s.pool.destroyed

/-- `dlopen` maps a library once; `dlclose` unmaps it when it has been closed as often as it
has been opened. -/
def Mapped (libs : ι → Except (Option Bytes) Exports) (s : State ι ρ) (handle : Nat) : Prop :=
  let isIt := fun i => match libs i with
    | .ok x => x.handle == handle
    | .error _ => false
  s.closed.countP isIt < s.opened.countP isIt

end State

variable {ι ρ : Type} [DecidableEq ι] [DecidableEq ρ]

/-- The next phase of a load. -/
def State.setPhase (s : State ι ρ) (i : ι) (p : Phase) : State ι ρ :=
  { s with phase := Function.update s.phase i p }

/-- A pointer is assigned. -/
def State.assign (s : State ι ρ) (p : Ref ι ρ) (t : Option ι) : State ι ρ :=
  { s with pool := s.pool.assign p t }

/-- `notify`. -/
def State.notify (s : State ι ρ) (i : ι) (e : ModuleEvent) : State ι ρ :=
  { s with events := s.events ++ [(i, e)] }

variable (paths : ι → Bytes) (libs : ι → Except (Option Bytes) Exports)

/-- `dlopen`, and the checks; what fails a check is closed. -/
def begin (i : ι) (s : State ι ρ) : State ι ρ :=
  let opened := match libs i with
    | .ok _ => s.opened ++ [i]
    | .error _ => s.opened
  match resolve (paths i) (libs i) with
  | .ok m => { s with opened := opened }.setPhase i (.resolved m)
  | .error e =>
    let discarded := match libs i with
      | .ok _ => s.discarded ++ [i]
      | .error _ => s.discarded
    { s with opened := opened, discarded := discarded }.setPhase i (.failing e)

/-- **The next step of the load `i`.** -/
def loadStep (i : ι) (s : State ι ρ) : State ι ρ :=
  match s.phase i with
  | .called => begin paths libs i s
  | .failing e => (s.notify i ⟨.loadFailed, paths i, [], e⟩).setPhase i (.failed e)
  | .resolved m =>
    (s.assign (.looked i) (s.pool.target .current)).setPhase i
      (.looking m (s.pool.target .current).isSome)
  | .looking m b => (s.assign (.looked i) none).setPhase i (.decided m b)
  | .decided m b => (s.assign (.result i) (some i)).setPhase i (.made m b)
  | .made m b => (s.assign .current (s.pool.target (.result i))).setPhase i (.published m b)
  | .published m b =>
    (s.notify i ⟨if b then .reloaded else .loaded, paths i, m.info.name, []⟩).setPhase i
      (.loaded m b)
  | .failed _ | .loaded _ _ => s

/-- **One step.** -/
def step (a : Action ι ρ) (s : State ι ρ) : State ι ρ :=
  match a with
  | .load i => if s.destroyed then s else loadStep paths libs i s
  | .drop i =>
    match s.phase i with
    | .loaded _ _ => s.assign (.result i) none
    | _ => s
  | .acquire r => if s.destroyed then s else s.assign (.snapshot r) (s.pool.target .current)
  | .release r => s.assign (.snapshot r) none
  | .destroy => { s.assign .current none with destroyed := true }

/-! ## What is so in every interleaving -/

/-- **A load is as its phase says**, and so are its handle and its module. -/
structure Fits (s : State ι ρ) (i : ι) (p : Phase) : Prop where
  made : s.pool.Made i ↔ p.hasModule = true
  opened : i ∈ s.opened ↔ p ≠ .called ∧ (libs i).isOk = true
  discarded : i ∈ s.discarded ↔ p.hasFailed = true ∧ (libs i).isOk = true
  agrees : p.forget.Agrees (resolve (paths i) (libs i))
  /-- Its pointer is not dropped before it is returned. -/
  result : p.hasModule = true → p.forget.done = false → s.pool.target (.result i) = some i

/-- **The counts are right, and every load is as its phase says.** -/
structure Sound (s : State ι ρ) : Prop where
  exact : s.pool.Exact
  openedOnce : s.opened.Nodup
  discardedOnce : s.discarded.Nodup
  fits : ∀ i, Fits paths libs s i (s.phase i)

variable {paths libs} {s t : State ι ρ} {i : ι} {p : Phase}

section
omit [DecidableEq ρ]

omit [DecidableEq ι] in
/-- What a load has is a matter of its own module. -/
theorem Fits.congr (h : Fits paths libs s i p) (hmade : t.pool.Made i ↔ s.pool.Made i)
    (hopened : i ∈ t.opened ↔ i ∈ s.opened) (hdiscarded : i ∈ t.discarded ↔ i ∈ s.discarded)
    (hresult : t.pool.target (.result i) = s.pool.target (.result i)) : Fits paths libs t i p where
  made := hmade.trans h.made
  opened := hopened.trans h.opened
  discarded := hdiscarded.trans h.discarded
  agrees := h.agrees
  result hp hd := hresult.trans (h.result hp hd)

/-- A load goes on, and nothing happens to the others. -/
theorem sound_setPhase (hphase : t.phase = s.phase)
    (hexact : t.pool.Exact) (hopened : t.opened.Nodup) (hdiscarded : t.discarded.Nodup)
    (hother : ∀ j ≠ i, Fits paths libs t j (s.phase j)) (hself : Fits paths libs t i p) :
    Sound paths libs (t.setPhase i p) where
  exact := hexact
  openedOnce := hopened
  discardedOnce := hdiscarded
  fits j := by
    have hfits : Fits paths libs t j (Function.update t.phase i p j) := by
      by_cases hj : j = i
      · subst hj
        rw [Function.update_self]
        exact hself
      · rw [Function.update_of_ne hj, hphase]
        exact hother j hj
    exact hfits.congr Iff.rfl Iff.rfl Iff.rfl rfl

/-- **A load goes on** with the handle and the module it has. -/
theorem Sound.advance (h : Sound paths libs s) {p₀ : Phase} (hp : s.phase i = p₀)
    (hmodule : p.hasModule = p₀.hasModule) (hfailed : p.hasFailed = p₀.hasFailed)
    (hcalled₀ : p₀ ≠ .called) (hcalled : p ≠ .called)
    (hagrees : p₀.forget.Agrees (resolve (paths i) (libs i)) →
      p.forget.Agrees (resolve (paths i) (libs i)))
    (hdone : p₀.forget.done = false) : Sound paths libs (s.setPhase i p) := by
  have hfits := h.fits i
  rw [hp] at hfits
  refine sound_setPhase rfl h.exact h.openedOnce h.discardedOnce (fun j _ => h.fits j) ?_
  exact {
    made := hmodule ▸ hfits.made
    opened := hfits.opened.trans (and_congr_left' (iff_of_true hcalled₀ hcalled))
    discarded := hfailed ▸ hfits.discarded
    agrees := hagrees hfits.agrees
    result := fun hm _ => hfits.result (hmodule ▸ hm) hdone }

omit [DecidableEq ι] in
/-- What is told makes no difference. -/
theorem Sound.notify (h : Sound paths libs s) (i : ι) (e : ModuleEvent) :
    Sound paths libs (s.notify i e) :=
  ⟨h.exact, h.openedOnce, h.discardedOnce, fun j =>
    (h.fits j).congr Iff.rfl Iff.rfl Iff.rfl rfl⟩

end

/-- Something is assigned that is there already, or null: nothing is made by it. -/
theorem Sound.made_copy (h : Sound paths libs s) {q : Ref ι ρ} {t : Option ι}
    (ht : ∀ j, t = some j → ∃ q', s.pool.target q' = some j) (j : ι) :
    (s.pool.assign q t).Made j ↔ s.pool.Made j := by
  rw [h.exact.made_assign]
  exact or_iff_left_of_imp fun hj => .inl (ht j hj)

/-- **A pointer that is copied** points to something that is there. -/
theorem Sound.exact_copy (h : Sound paths libs s) {q : Ref ι ρ} {t : Option ι}
    (ht : ∀ j, t = some j → ∃ q', s.pool.target q' = some j) : (s.pool.assign q t).Exact :=
  h.exact.assign fun j hj => by
    obtain ⟨q', hq'⟩ := ht j hj
    exact h.exact.notMem_destroyed hq'

/-- **A pointer is copied**, or set to null. -/
theorem Sound.copy (h : Sound paths libs s) {q : Ref ι ρ} {t : Option ι}
    (ht : ∀ j, t = some j → ∃ q', s.pool.target q' = some j)
    (hq : ∀ j, q = .result j → (s.phase j).forget.done = true) :
    Sound paths libs (s.assign q t) where
  exact := h.exact_copy ht
  openedOnce := h.openedOnce
  discardedOnce := h.discardedOnce
  fits j := by
    by_cases hj : q = .result j
    · have hfits := h.fits j
      exact {
        made := (h.made_copy ht j).trans hfits.made
        opened := hfits.opened
        discarded := hfits.discarded
        agrees := hfits.agrees
        result := fun _ hd => Bool.noConfusion ((hq j hj).symm.trans hd) }
    · exact (h.fits j).congr (h.made_copy ht j) Iff.rfl Iff.rfl
        (Pool.target_assign_of_ne (Ne.symm hj))

/-- A pointer is set to where another one points. -/
theorem Sound.copyOf (h : Sound paths libs s) {q : Ref ι ρ} (q' : Ref ι ρ)
    (hq : ∀ j, q = .result j → (s.phase j).forget.done = true) :
    Sound paths libs (s.assign q (s.pool.target q')) :=
  h.copy (fun _ hj => ⟨q', hj⟩) hq

/-- A pointer is reset. -/
theorem Sound.reset (h : Sound paths libs s) {q : Ref ι ρ}
    (hq : ∀ j, q = .result j → (s.phase j).forget.done = true) :
    Sound paths libs (s.assign q none) :=
  h.copy (fun _ hj => by cases hj) hq

omit [DecidableEq ρ] in
/-- The first step of a load. Nothing has been done for it so far: its module is not made, and
its handle is neither opened nor discarded. What its library answers decides what is done now: a
library that does not open leaves all lists as they are; one that opens is put down as opened,
and if its module is refused, as discarded, since the handle is closed again at once. Of the
other loads nothing changes. -/
theorem Sound.begin (h : Sound paths libs s) (hp : s.phase i = .called) :
    Sound paths libs (begin paths libs i s) := by
  have hfits := h.fits i
  rw [hp] at hfits
  -- nothing has been done for the load so far
  have hmade : ¬ s.pool.Made i := fun hi => Bool.noConfusion (hfits.made.mp hi)
  have hopened : i ∉ s.opened := fun hi => (hfits.opened.mp hi).1 rfl
  have hdiscarded : i ∉ s.discarded := fun hi => Bool.noConfusion (hfits.discarded.mp hi).1
  have hopened' : (s.opened ++ [i]).Nodup :=
    List.nodup_append'.mpr ⟨h.openedOnce, List.nodup_singleton i,
      List.disjoint_singleton.mpr hopened⟩
  have hother {l : List ι} {j : ι} (hj : j ≠ i) : j ∈ l ++ [i] ↔ j ∈ l := by
    rw [List.mem_append, List.mem_singleton]
    exact or_iff_left hj
  have hlast (l : List ι) : i ∈ l ++ [i] := List.mem_append_right l (List.mem_singleton_self i)
  unfold HotSwap.begin
  cases hlib : libs i with
  | error e =>
    have hnot : ¬ (libs i).isOk = true := by
      rw [hlib]
      exact Bool.false_ne_true
    refine sound_setPhase rfl h.exact h.openedOnce h.discardedOnce
      (fun j _ => (h.fits j).congr Iff.rfl Iff.rfl Iff.rfl rfl) ?_
    exact {
      made := iff_of_false hmade Bool.false_ne_true
      opened := iff_of_false hopened fun h => hnot h.2
      discarded := iff_of_false hdiscarded fun h => hnot h.2
      agrees := congrArg (resolve (paths i)) hlib
      result := fun hm _ => Bool.noConfusion hm }
  | ok x =>
    have hok : (libs i).isOk = true := by
      rw [hlib]
      rfl
    have hr' : resolve (paths i) (libs i) = resolve (paths i) (.ok x) := congrArg _ hlib
    cases hr : resolve (paths i) (.ok x) with
    | ok m =>
      refine sound_setPhase rfl h.exact hopened' h.discardedOnce
        (fun j hj => (h.fits j).congr Iff.rfl (hother hj) Iff.rfl rfl) ?_
      exact {
        made := iff_of_false hmade Bool.false_ne_true
        opened := iff_of_true (hlast _) ⟨fun h => (by cases h), hok⟩
        discarded := iff_of_false hdiscarded fun h => Bool.noConfusion h.1
        agrees := hr'.trans hr
        result := fun hm _ => Bool.noConfusion hm }
    -- the handle was opened, and is closed again at once
    | error e =>
      have hdiscarded' : (s.discarded ++ [i]).Nodup :=
        List.nodup_append'.mpr ⟨h.discardedOnce, List.nodup_singleton i,
          List.disjoint_singleton.mpr hdiscarded⟩
      refine sound_setPhase rfl h.exact hopened' hdiscarded'
        (fun j hj => (h.fits j).congr Iff.rfl (hother hj) (hother hj) rfl) ?_
      exact {
        made := iff_of_false hmade Bool.false_ne_true
        opened := iff_of_true (hlast _) ⟨fun h => (by cases h), hok⟩
        discarded := iff_of_true (hlast _) ⟨rfl, hok⟩
        agrees := hr'.trans hr
        result := fun hm _ => Bool.noConfusion hm }

/-- **A new module is made**: nothing points to it but the load that makes it. -/
theorem Sound.make (h : Sound paths libs s) {m : LoadedModule} {b : Bool}
    (hp : s.phase i = .decided m b) :
    Sound paths libs ((s.assign (.result i) (some i)).setPhase i (.made m b)) := by
  have hfits := h.fits i
  rw [hp] at hfits
  have hfresh : i ∉ s.pool.destroyed := fun hi => Bool.noConfusion (hfits.made.mp (.inr hi))
  have hexact : (s.pool.assign (.result i) (some i)).Exact := by
    refine h.exact.assign fun j hj => ?_
    obtain rfl := Option.some.inj hj
    exact hfresh
  refine sound_setPhase rfl hexact h.openedOnce h.discardedOnce (fun j hj => ?_) ?_
  · refine (h.fits j).congr ?_ Iff.rfl Iff.rfl
      (Pool.target_assign_of_ne fun hr => hj (Ref.result.inj hr))
    exact h.exact.made_assign.trans (or_iff_left fun hij => hj (Option.some.inj hij).symm)
  · exact {
      made := iff_of_true (h.exact.made_assign.mpr (.inr rfl)) rfl
      opened := hfits.opened.trans (and_congr_left' (iff_of_true (fun h => by cases h)
        (fun h => by cases h)))
      discarded := hfits.discarded
      agrees := hfits.agrees
      result := fun _ _ => Pool.target_assign_self }

/-- **A step of a load** keeps it so. -/
theorem Sound.loadStep (h : Sound paths libs s) (i : ι) :
    Sound paths libs (loadStep paths libs i s) := by
  unfold HotSwap.loadStep
  cases hp : s.phase i with
  | called => exact h.begin hp
  | failing e =>
    exact (h.notify i _).advance hp rfl rfl (fun h => by cases h) (fun h => by cases h) id rfl
  | resolved m =>
    have hcopy : Sound paths libs (s.assign (.looked i) _) :=
      h.copyOf .current fun j hj => by cases hj
    exact hcopy.advance hp rfl rfl (fun h => by cases h) (fun h => by cases h) id rfl
  | looking m b =>
    have hcopy : Sound paths libs (s.assign (.looked i) _) := h.reset fun j hj => by cases hj
    exact hcopy.advance hp rfl rfl (fun h => by cases h) (fun h => by cases h) id rfl
  | decided m b => exact h.make hp
  | made m b =>
    have hcopy : Sound paths libs (s.assign .current _) :=
      h.copyOf (.result i) fun j hj => by cases hj
    exact hcopy.advance hp rfl rfl (fun h => by cases h) (fun h => by cases h) id rfl
  | published m b =>
    exact (h.notify i _).advance hp rfl rfl (fun h => by cases h) (fun h => by cases h) id rfl
  | failed e => exact h
  | loaded m b => exact h

/-- **Every step keeps it so.** -/
theorem Sound.step (a : Action ι ρ) (s : State ι ρ) (h : Sound paths libs s) :
    Sound paths libs (step paths libs a s) := by
  cases a with
  | load i =>
    show Sound paths libs (if s.destroyed then s else HotSwap.loadStep paths libs i s)
    cases s.destroyed with
    | true => exact h
    | false => exact h.loadStep i
  | drop i =>
    unfold HotSwap.step
    dsimp only
    cases hp : s.phase i with
    | loaded m b =>
      refine h.reset fun j hj => ?_
      obtain rfl := Ref.result.inj hj
      rw [hp]
      rfl
    | _ => exact h
  | acquire r =>
    show Sound paths libs (if s.destroyed then s else s.assign (.snapshot r) _)
    cases s.destroyed with
    | true => exact h
    | false => exact h.copyOf .current fun j hj => by cases hj
  | release r => exact h.reset fun j hj => by cases hj
  | destroy =>
    have hcopy : Sound paths libs (s.assign .current none) := h.reset fun j hj => by cases hj
    exact ⟨hcopy.exact, hcopy.openedOnce, hcopy.discardedOnce, fun j =>
      (hcopy.fits j).congr Iff.rfl Iff.rfl Iff.rfl rfl⟩

/-- Nothing is loaded, and every load is about to begin. -/
def start : State ι ρ := {}

omit [DecidableEq ι] [DecidableEq ρ] in
/-- So it is in the beginning. -/
theorem sound_start : Sound paths libs (start : State ι ρ) where
  exact := Pool.exact_empty
  openedOnce := List.nodup_nil
  discardedOnce := List.nodup_nil
  fits i := {
    made := iff_of_false (fun h => by
      obtain ⟨p, hp⟩ | hd := h
      · cases hp
      · cases hd) Bool.false_ne_true
    opened := iff_of_false (fun h => by cases h) fun h => h.1 rfl
    discarded := iff_of_false (fun h => by cases h) fun h => Bool.noConfusion h.1
    agrees := trivial
    result := fun hm _ => Bool.noConfusion hm }

/-- **So it is in every run.** -/
theorem sound_run (sched : List (Action ι ρ)) :
    Sound paths libs (Interleaving.run (HotSwap.step paths libs) sched start) :=
  Interleaving.run_invariant Sound.step sched sound_start

/-! ## Handles -/

section
omit [DecidableEq ι] [DecidableEq ρ]

/-- What resolves has been found, with the right version. -/
theorem resolve_ok {path : Bytes} {lib : Except (Option Bytes) Exports} {m : LoadedModule}
    (h : resolve path lib = .ok m) :
    ∃ x, lib = .ok x ∧ x.handle = m.handle ∧ x.info = some (hmrAbiVersion, m.info) := by
  cases lib with
  | error e => cases h
  | ok x =>
    unfold resolve at h
    split at h
    · cases h
    · rename_i y hy
      obtain rfl := Except.ok.inj hy
      split at h
      · cases h
      · split at h
        · cases h
        · rename_i version info hinfo
          split at h
          · rename_i hversion
            obtain rfl := Except.ok.inj h
            exact ⟨x, rfl, rfl, hversion ▸ hinfo⟩
          · cases h

/-- What a load has made is what its file resolves to. -/
theorem Sound.resolve_eq (h : Sound paths libs s) (hm : (s.phase i).hasModule = true) :
    ∃ m, resolve (paths i) (libs i) = .ok m := by
  have hagrees := (h.fits i).agrees
  cases hp : s.phase i with
  | made m b => rw [hp] at hagrees; exact ⟨m, hagrees⟩
  | published m b => rw [hp] at hagrees; exact ⟨m, hagrees⟩
  | loaded m b => rw [hp] at hagrees; exact ⟨m, hagrees⟩
  | _ => rw [hp] at hm; cases hm

/-- What is pointed to has been made by a load that has a module. -/
theorem Sound.hasModule (h : Sound paths libs s) {q : Ref ι ρ} (hq : s.pool.target q = some i) :
    (s.phase i).hasModule = true :=
  (h.fits i).made.mp (.inl ⟨q, hq⟩)

/-- Such a load has not failed. -/
theorem not_hasFailed {p : Phase} (h : p.hasModule = true) : p.hasFailed = false := by
  cases p with
  | made m b => rfl
  | published m b => rfl
  | loaded m b => rfl
  | _ => cases h

/-- **What is pointed to is open.** -/
theorem Sound.open_of_target (h : Sound paths libs s) {q : Ref ι ρ}
    (hq : s.pool.target q = some i) : i ∈ s.opened ∧ i ∉ s.closed := by
  have hm := h.hasModule hq
  obtain ⟨m, hr⟩ := h.resolve_eq hm
  obtain ⟨x, hx, -⟩ := resolve_ok hr
  refine ⟨(h.fits i).opened.mpr ⟨fun hp => ?_, by rw [hx]; rfl⟩, fun hc => ?_⟩
  · rw [hp] at hm
    cases hm
  · obtain hd | hd := List.mem_append.mp hc
    · have hfailed := ((h.fits i).discarded.mp hd).1
      rw [not_hasFailed hm] at hfailed
      cases hfailed
    · exact h.exact.notMem_destroyed hq hd

/-- **No handle is closed twice.** -/
theorem Sound.closed_nodup (h : Sound paths libs s) : s.closed.Nodup := by
  refine List.nodup_append'.mpr ⟨h.discardedOnce, h.exact.once, fun i hi hd => ?_⟩
  have hfailed := ((h.fits i).discarded.mp hi).1
  rw [not_hasFailed ((h.fits i).made.mp (.inr hd))] at hfailed
  cases hfailed

/-- Only what has been opened is closed. -/
theorem Sound.closed_subset (h : Sound paths libs s) : s.closed ⊆ s.opened := by
  intro i hi
  obtain hd | hd := List.mem_append.mp hi
  · obtain ⟨hfailed, hok⟩ := (h.fits i).discarded.mp hd
    refine (h.fits i).opened.mpr ⟨fun hp => ?_, hok⟩
    rw [hp] at hfailed
    cases hfailed
  · have hm := (h.fits i).made.mp (.inr hd)
    obtain ⟨m, hr⟩ := h.resolve_eq hm
    obtain ⟨x, hx, -⟩ := resolve_ok hr
    refine (h.fits i).opened.mpr ⟨fun hp => ?_, by rw [hx]; rfl⟩
    rw [hp] at hm
    cases hm

/-- **The handle of a load that is over is closed when nothing points to its module**, and not
before. -/
theorem Sound.mem_closed_iff (h : Sound paths libs s) (hi : i ∈ s.opened)
    (hd : (s.phase i).forget.done = true) : i ∈ s.closed ↔ ∀ q, s.pool.target q ≠ some i := by
  have hok := ((h.fits i).opened.mp hi).2
  have hmade := (h.fits i).made
  have hdiscarded := (h.fits i).discarded
  cases hp : s.phase i with
  | failed e =>
    rw [hp] at hmade hdiscarded
    refine iff_of_true (List.mem_append_left _ (hdiscarded.mpr ⟨rfl, hok⟩)) fun q hq => ?_
    exact Bool.noConfusion (hmade.mp (.inl ⟨q, hq⟩))
  | loaded m b =>
    rw [hp] at hmade hdiscarded
    rw [← h.exact.mem_destroyed_iff (hmade.mpr rfl)]
    exact List.mem_append.trans (or_iff_right fun hi => Bool.noConfusion (hdiscarded.mp hi).1)
  | _ =>
    rw [hp] at hd
    cases hd

/-- **The library of a module that is pointed to is mapped.** -/
theorem Sound.mapped (h : Sound paths libs s) {q : Ref ι ρ} (hq : s.pool.target q = some i)
    {m : LoadedModule} (hr : resolve (paths i) (libs i) = .ok m) : s.Mapped libs m.handle := by
  obtain ⟨hopened, hclosed⟩ := h.open_of_target hq
  obtain ⟨x, hx, hhandle, -⟩ := resolve_ok hr
  have hsub : (i :: s.closed).Subperm s.opened :=
    (List.nodup_cons.mpr ⟨hclosed, h.closed_nodup⟩).subperm
      (List.cons_subset.mpr ⟨hopened, h.closed_subset⟩)
  have hcount := hsub.countP_le fun i => match libs i with
    | .ok x => x.handle == m.handle
    | .error _ => false
  rw [List.countP_cons_of_pos (by rw [hx]; exact beq_iff_eq.mpr hhandle)] at hcount
  exact hcount

end

/-! ## Readers -/

/-- A load does not touch what readers have. -/
@[simp] theorem target_snapshot_loadStep (r : ρ) :
    (loadStep paths libs i s).pool.target (.snapshot r) = s.pool.target (.snapshot r) := by
  have hne {q : Ref ι ρ} {t : Option ι} (hq : Ref.snapshot r ≠ q) :
      (s.pool.assign q t).target (.snapshot r) = s.pool.target (.snapshot r) :=
    Pool.target_assign_of_ne hq
  unfold loadStep begin
  cases s.phase i with
  | called =>
    dsimp only
    split <;> rfl
  | resolved m => exact hne fun h => by cases h
  | looking m b => exact hne fun h => by cases h
  | decided m b => exact hne fun h => by cases h
  | made m b => exact hne fun h => by cases h
  | _ => rfl

/-- Nobody but the reader assigns its snapshot. -/
theorem target_snapshot_step {r : ρ} {a : Action ι ρ} (hacquire : a ≠ .acquire r)
    (hrelease : a ≠ .release r) :
    (step paths libs a s).pool.target (.snapshot r) = s.pool.target (.snapshot r) := by
  have hne {q : Ref ι ρ} {t : Option ι} (hq : Ref.snapshot r ≠ q) :
      (s.pool.assign q t).target (.snapshot r) = s.pool.target (.snapshot r) :=
    Pool.target_assign_of_ne hq
  cases a with
  | load i =>
    show (if s.destroyed then s else loadStep paths libs i s).pool.target _ = _
    cases s.destroyed with
    | true => rfl
    | false => exact target_snapshot_loadStep r
  | drop i =>
    unfold step
    dsimp only
    cases s.phase i with
    | loaded m b => exact hne fun h => by cases h
    | _ => rfl
  | acquire r' =>
    show (if s.destroyed then s else s.assign (.snapshot r') _).pool.target _ = _
    cases s.destroyed with
    | true => rfl
    | false => exact hne fun h => hacquire (congrArg _ (Ref.snapshot.inj h).symm)
  | release r' => exact hne fun h => hrelease (congrArg _ (Ref.snapshot.inj h).symm)
  | destroy => exact hne fun h => by cases h

/-- **A reader has the same snapshot** as long as it does not take or give up one. -/
theorem target_snapshot_run {r : ρ} (sched : List (Action ι ρ))
    (h : ∀ a ∈ sched, a ≠ .acquire r ∧ a ≠ .release r) (s : State ι ρ) :
    (Interleaving.run (step paths libs) sched s).pool.target (.snapshot r)
      = s.pool.target (.snapshot r) := by
  induction sched generalizing s with
  | nil => rfl
  | cons a rest ih =>
    obtain ⟨hacquire, hrelease⟩ := h a List.mem_cons_self
    rw [Interleaving.run_cons, ih fun b hb => h b (List.mem_cons_of_mem _ hb)]
    exact target_snapshot_step hacquire hrelease

/-- **A reader keeps the module that was current when it took it.** -/
theorem target_snapshot_acquire {r : ρ} (after : List (Action ι ρ))
    (hafter : ∀ a ∈ after, a ≠ .acquire r ∧ a ≠ .release r) (halive : s.destroyed = false)
    (hcurrent : s.pool.target .current = some i) :
    (Interleaving.run (step paths libs) (.acquire r :: after) s).pool.target (.snapshot r)
      = some i := by
  rw [Interleaving.run_cons, target_snapshot_run after hafter]
  show (if s.destroyed then s else s.assign (.snapshot r) _).pool.target (.snapshot r) = _
  rw [halive, if_neg Bool.false_ne_true, hcurrent]
  exact Pool.target_assign_self

/-! ## Publication -/

variable (paths libs) in
/-- **What is left without the pointers.** -/
def forget (s : State ι ρ) : ModuleManager ι where
  current := (s.pool.target .current).bind fun i => (resolve (paths i) (libs i)).toOption
  phase i := (s.phase i).forget
  events := s.events

/-- The loads whose turn it is. -/
def turns (sched : List (Action ι ρ)) : List ι :=
  sched.filterMap fun
    | .load i => some i
    | _ => none

omit [DecidableEq ρ] in
/-- Where a load is, without its pointers. -/
@[simp] theorem forget_setPhase : forget paths libs (s.setPhase i p)
    = (forget paths libs s).setPhase i p.forget := by
  have hphase : (fun j => (Function.update s.phase i p j).forget)
      = Function.update (fun j => (s.phase j).forget) i p.forget := by
    funext j
    by_cases hj : j = i
    · subst hj
      rw [Function.update_self, Function.update_self]
    · rw [Function.update_of_ne hj, Function.update_of_ne hj]
  exact congrArg (fun f => ModuleManager.mk _ f _) hphase

/-- Pointers other than the current one are forgotten. -/
theorem forget_assign {q : Ref ι ρ} {t : Option ι} (hq : Ref.current ≠ q) :
    forget paths libs (s.assign q t) = forget paths libs s :=
  congrArg (fun c : Option ι => ModuleManager.mk (c.bind _) _ _) (Pool.target_assign_of_ne hq)

omit [DecidableEq ρ] in
/-- A phase that is forgotten to be what there is already. -/
theorem forget_setPhase_same (h : p.forget = (s.phase i).forget) :
    forget paths libs (s.setPhase i p) = forget paths libs s := by
  rw [forget_setPhase, h]
  exact congrArg (fun f => ModuleManager.mk _ f _)
    (Function.update_eq_self i fun j => (s.phase j).forget)

omit [DecidableEq ι] [DecidableEq ρ] in
/-- What is current has been resolved. -/
theorem Sound.isSome_forget_current (h : Sound paths libs s) :
    (forget paths libs s).current.isSome = (s.pool.target .current).isSome := by
  show ((s.pool.target .current).bind _).isSome = _
  cases hcur : s.pool.target .current with
  | none => rfl
  | some j =>
    obtain ⟨m, hm⟩ := h.resolve_eq (h.hasModule hcur)
    show (resolve (paths j) (libs j)).toOption.isSome = _
    rw [hm]
    rfl

/-- **A step of a load is one of the loads without pointers, or none.** The steps that make or
drop a pointer only, to look at the current module or to hold the new one, are none. The others
have a step of their own in `ModuleManager`; whether there is a current module, which one of them
looks at, and which one it is, which another sets, are the same on both sides by the invariant. -/
theorem forget_loadStep (h : Sound paths libs s) (i : ι) :
    forget paths libs (loadStep paths libs i s) = forget paths libs s
      ∨ forget paths libs (loadStep paths libs i s)
        = ModuleManager.step paths libs i (forget paths libs s) := by
  have hphase : (forget paths libs s).phase i = (s.phase i).forget := rfl
  unfold loadStep ModuleManager.step
  rw [hphase]
  cases hp : s.phase i with
  | called =>
    refine .inr ?_
    unfold begin
    dsimp only [Phase.forget]
    cases resolve (paths i) (libs i) with
    | ok m => exact forget_setPhase
    | error e => exact forget_setPhase
  | failing e => exact .inr forget_setPhase
  | resolved m =>
    refine .inr ?_
    dsimp only [Phase.forget]
    rw [forget_setPhase, forget_assign fun h => (by cases h), h.isSome_forget_current]
    rfl
  -- a pointer goes away, which the counts are about and not what is published
  | looking m b =>
    have hsame : forget paths libs ((s.assign (.looked i) none).setPhase i (.decided m b)) = _ :=
      forget_setPhase_same (congrArg Phase.forget hp).symm
    exact .inl (hsame.trans (forget_assign fun h => by cases h))
  | decided m b =>
    have hsame : forget paths libs ((s.assign (.result i) (some i)).setPhase i (.made m b)) = _ :=
      forget_setPhase_same (congrArg Phase.forget hp).symm
    exact .inl (hsame.trans (forget_assign fun h => by cases h))
  -- this is the step that publishes
  | made m b =>
    refine .inr ?_
    have hfits := h.fits i
    rw [hp] at hfits
    have hresolve : resolve (paths i) (libs i) = .ok m := hfits.agrees
    dsimp only [Phase.forget]
    rw [forget_setPhase, hfits.result rfl rfl]
    have hcurrent : ((s.pool.assign .current (some i)).target .current).bind
        (fun i => (resolve (paths i) (libs i)).toOption) = some m := by
      rw [Pool.target_assign_self]
      show (resolve (paths i) (libs i)).toOption = _
      rw [hresolve]
      rfl
    exact congrArg (fun c => (ModuleManager.mk c _ _ : ModuleManager ι).setPhase i _) hcurrent
  | published m b => exact .inr forget_setPhase
  | failed e => exact .inl rfl
  | loaded m b => exact .inl rfl

/-- **A step is one of the manager**, or none, when the pointers are forgotten. -/
theorem forget_step (h : Sound paths libs s) {a : Action ι ρ} (ha : a ≠ .destroy) :
    forget paths libs (step paths libs a s) = forget paths libs s
      ∨ ∃ i, a = .load i
        ∧ forget paths libs (step paths libs a s)
          = ModuleManager.step paths libs i (forget paths libs s) := by
  cases a with
  | load i =>
    have hstep : step paths libs (.load i) s
      = if s.destroyed then s else loadStep paths libs i s := rfl
    rw [hstep]
    cases s.destroyed with
    | true => exact .inl rfl
    | false => exact (forget_loadStep h i).imp_right fun heq => ⟨i, rfl, heq⟩
  | drop i =>
    refine .inl ?_
    unfold step
    dsimp only
    cases s.phase i with
    | loaded m b => exact forget_assign fun h => by cases h
    | _ => rfl
  | acquire r =>
    have hstep : step paths libs (.acquire r) s
      = if s.destroyed then s else s.assign (.snapshot r) (s.pool.target .current) := rfl
    rw [hstep]
    cases s.destroyed with
    | true => exact .inl rfl
    | false => exact .inl (forget_assign fun h => by cases h)
  | release r => exact .inl (forget_assign fun h => by cases h)
  | destroy => exact absurd rfl ha

/-- **Without its pointers, a run is one of the loads**, which take their turns in the same
order. -/
theorem forget_run (sched : List (Action ι ρ)) (hd : Action.destroy ∉ sched)
    (h : Sound paths libs s) :
    ∃ turns' : List ι, turns'.Sublist (turns sched)
      ∧ forget paths libs (Interleaving.run (step paths libs) sched s)
        = Interleaving.run (ModuleManager.step paths libs) turns' (forget paths libs s) := by
  induction sched generalizing s with
  | nil => exact ⟨[], List.nil_sublist _, rfl⟩
  | cons a rest ih =>
    have ha : a ≠ .destroy := fun ha => hd (ha ▸ List.mem_cons_self)
    obtain ⟨ts, hsub, hrun⟩ := ih (fun hr => hd (List.mem_cons_of_mem _ hr)) (h.step a s)
    have hsub' : (turns rest).Sublist (turns (a :: rest)) :=
      (List.sublist_cons_self a rest).filterMap _
    obtain hsame | ⟨i, rfl, hstep⟩ := forget_step h ha
    · exact ⟨ts, hsub.trans hsub', hrun.trans (by rw [hsame])⟩
    · exact ⟨i :: ts, hsub.cons_cons i, hrun.trans (by rw [hstep]; rfl)⟩

/-! ## Every run -/

section
variable (paths libs)

/-- **Nothing that is in use is unloaded**: in every interleaving of loads, drops, readers and
the end of the manager, what a pointer points to has an open handle, and the library its code
is in is mapped. -/
theorem run_open (sched : List (Action ι ρ)) {q : Ref ι ρ}
    (hq : (Interleaving.run (step paths libs) sched start).pool.target q = some i) :
    let s : State ι ρ := Interleaving.run (step paths libs) sched start
    i ∈ s.opened ∧ i ∉ s.closed
      ∧ ∃ m, resolve (paths i) (libs i) = .ok m ∧ s.Mapped libs m.handle := by
  have h : Sound paths libs _ := sound_run sched
  obtain ⟨m, hm⟩ := h.resolve_eq (h.hasModule hq)
  exact ⟨(h.open_of_target hq).1, (h.open_of_target hq).2, m, hm, h.mapped hq hm⟩

/-- **Every handle is closed once, and in time**: in every interleaving, no handle is closed
twice, and none that was not opened; and when a load is over, its handle is closed if and only
if nothing points to its module any more – which is so from the start of one that fails. -/
theorem run_closed (sched : List (Action ι ρ)) :
    let s : State ι ρ := Interleaving.run (step paths libs) sched start
    s.closed.Nodup ∧ s.closed ⊆ s.opened
      ∧ ∀ i ∈ s.opened, (s.phase i).forget.done = true →
        (i ∈ s.closed ↔ ∀ q, s.pool.target q ≠ some i) :=
  have h : Sound paths libs _ := sound_run sched
  ⟨h.closed_nodup, h.closed_subset, fun _ hi hd => h.mem_closed_iff hi hd⟩

/-- **A reader works on with what it took**: whatever is loaded, dropped or destroyed
meanwhile, until the reader takes another snapshot or gives up its own, that is the module
that was current then, and it is not unloaded. -/
theorem run_snapshot (before after : List (Action ι ρ)) (r : ρ)
    (hafter : ∀ a ∈ after, a ≠ .acquire r ∧ a ≠ .release r)
    (halive : (Interleaving.run (step paths libs) before start).destroyed = false)
    (hcurrent : (Interleaving.run (step paths libs) before start).pool.target .current = some i) :
    let s : State ι ρ := Interleaving.run (step paths libs) (before ++ .acquire r :: after) start
    s.pool.target (.snapshot r) = some i ∧ i ∉ s.closed
      ∧ ∃ m, resolve (paths i) (libs i) = .ok m ∧ s.Mapped libs m.handle := by
  have htarget : (Interleaving.run (step paths libs) (before ++ .acquire r :: after)
      start).pool.target (.snapshot r) = some i := by
    rw [Interleaving.run_append]
    exact target_snapshot_acquire after hafter halive hcurrent
  have h : Sound paths libs _ := sound_run (before ++ .acquire r :: after)
  obtain ⟨m, hr⟩ := h.resolve_eq (h.hasModule htarget)
  exact ⟨htarget, (h.open_of_target htarget).2, m, hr, h.mapped htarget hr⟩

/-- **Pointers do not change what is published**: without them, every run that does not
destroy the manager is a run of the loads alone. -/
theorem forget_run_start (sched : List (Action ι ρ)) (hd : Action.destroy ∉ sched) :
    ∃ turns' : List ι, turns'.Sublist (turns sched)
      ∧ forget paths libs (Interleaving.run (step paths libs) sched (start : State ι ρ))
        = Interleaving.run (ModuleManager.step paths libs) turns' ModuleManager.start :=
  forget_run sched hd sound_start

end

/-! ### A reload under a reader -/

/-- Two versions of a module. -/
def versions (i : Fin 2) : Except (Option Bytes) Exports :=
  .ok ⟨i, some i, some (hmrAbiVersion, ⟨txt "V", 0, []⟩)⟩

/-- The first version is loaded. -/
def first : List (Action (Fin 2) Unit) := List.replicate 7 (.load 0) ++ [.drop 0]

/-- The other one is loaded then. -/
def second : List (Action (Fin 2) Unit) := List.replicate 7 (.load 1) ++ [.drop 1]

/-- A reader has the first module when the second is loaded. -/
theorem run_open_first :
    let s : State (Fin 2) Unit := Interleaving.run (step (fun _ => []) versions) first start
    0 ∈ s.opened ∧ 0 ∉ s.closed
      ∧ ∃ m, resolve [] (versions 0) = .ok m ∧ s.Mapped versions m.handle :=
  run_open (fun _ => []) versions first (q := .current) (by decide)

/-- It has it still when the second is current. -/
theorem run_snapshot_second :
    let s : State (Fin 2) Unit :=
      Interleaving.run (step (fun _ => []) versions) (first ++ .acquire () :: second) start
    s.pool.target (.snapshot ()) = some 0 ∧ 0 ∉ s.closed
      ∧ ∃ m, resolve [] (versions 0) = .ok m ∧ s.Mapped versions m.handle :=
  run_snapshot (fun _ => []) versions first second () (by decide) (by decide) (by decide)

/-- Without the pointers, that is two loads. -/
theorem forget_run_second : ∃ turns' : List (Fin 2), turns'.Sublist (turns second)
    ∧ forget (fun _ => []) versions
        (Interleaving.run (step (fun _ => []) versions) second (start : State (Fin 2) Unit))
      = Interleaving.run (ModuleManager.step (fun _ => []) versions) turns' ModuleManager.start :=
  forget_run_start (fun _ => []) versions second (by decide)

/-- The reader gives up its snapshot, and the version that nothing points to is closed. -/
example : (Interleaving.run (step (fun _ => []) versions)
    (first ++ .acquire () :: second ++ [.release ()]) (start : State (Fin 2) Unit)).closed
      = [0] := by
  decide

end HotSwap

end Hmr
