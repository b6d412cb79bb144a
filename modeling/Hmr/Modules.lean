import Hmr.Context
import Hmr.Interleaving
import Mathlib.Logic.Function.Basic

/-!
# Loading modules

A module manager publishes one module at a time. Loading one is four steps that other
loads may come between: resolve and check the exports, look whether a module is published
already, publish, and tell the observers. What is told – `Loaded` of the first module,
`Reloaded` of every later one – was decided two steps before.

`ModuleManager.step` is one such step, and an interleaving of any number of loads is a
list of whose turn it is. The module that is published last is the current one, whatever
the interleaving, and a load that fails changes nothing (`ModuleManager.current_run`,
`ModuleManager.current_step_of_error`). The events are as they should be exactly when no
load finds nothing published after another one has (`ModuleManager.publishes_iff`).

## What is so in every state

A load is where it is because of what its library says, and has told what it should have
by then (`Consistent`); nothing but a load that publishes makes a module current, and one
that has looked has seen what was there (`Looked`). These hold of every state that is
reached. That there is one `Loaded` at most does not, and takes a condition on each look:
that no other load has looked as well and not published yet (`Alone`). Under it, it is an
invariant like the others (`Unique`), and where it fails, two loads that saw nothing both
go on to say `Loaded`.

Two of the steps of the source are under no common lock, which is what makes that
possible. The exchange of the pointer itself is atomic, and one step here.
-/

namespace Hmr

/-- `HMR_ABI_VERSION`. -/
def hmrAbiVersion : Nat := 2

/-- What `dlopen` and `dlsym` find: a handle, the address of `hmr_apply`, and
`hmr_module_info` with its ABI version. -/
structure Exports where
  handle : Nat
  applyFn : Option Nat
  info : Option (Nat × HmrModuleInfo)
  deriving DecidableEq, Repr

/-- **`LoadedModule`.** -/
structure LoadedModule where
  handle : Nat
  applyFn : Nat
  info : HmrModuleInfo
  path : Bytes
  deriving DecidableEq, Repr

/-- `ModuleEventKind`. -/
inductive ModuleEventKind
  | loaded | reloaded | loadFailed
  deriving DecidableEq, Repr

/-- `ModuleEvent`. -/
structure ModuleEvent where
  kind : ModuleEventKind
  path : Bytes
  moduleName : Bytes
  error : Bytes
  deriving DecidableEq, Repr

/-- The first part of `load`: open the file, resolve the two exports and check the
ABI version; or the message of the failure. -/
def resolve (path : Bytes) (lib : Except (Option Bytes) Exports) : Except Bytes LoadedModule :=
  match lib with
  | .error e =>
    .error (txt "module: dlopen('" ++ path ++ txt "') failed: " ++ e.getD (txt "unknown error"))
  | .ok x =>
    match x.applyFn with
    | none => .error (txt "module: '" ++ path ++ txt "' is missing 'hmr_apply'")
    | some f =>
      match x.info with
      | none => .error (txt "module: '" ++ path ++ txt "' is missing 'hmr_module_info'")
      | some (version, info) =>
        if version = hmrAbiVersion then .ok ⟨x.handle, f, info, path⟩
        else .error (txt "module: ABI mismatch in '" ++ path ++ txt "' (module v"
          ++ Lowering.toDecimal version ++ txt ", host v" ++ Lowering.toDecimal hmrAbiVersion
          ++ txt ")")

/-- **Where a `load` is**: not begun; about to report a failure; resolved; having
looked whether it is a reload; having published; and at its end. -/
inductive LoadPhase
  | called
  | failing (error : Bytes)
  | resolved (module : LoadedModule)
  | decided (module : LoadedModule) (isReload : Bool)
  | published (module : LoadedModule) (isReload : Bool)
  | failed (error : Bytes)
  | loaded (module : LoadedModule) (isReload : Bool)
  deriving DecidableEq, Repr

namespace LoadPhase

/-- `load` has returned. -/
def done : LoadPhase → Bool
  | failed _ | loaded _ _ => true
  | _ => false

/-- What the load took itself for, once it has looked. -/
def isReload? : LoadPhase → Option Bool
  | decided _ b | published _ b | loaded _ b => some b
  | _ => none

/-- What a load has told the observers. -/
def told (path : Bytes) : LoadPhase → List ModuleEvent
  | failed e => [⟨.loadFailed, path, [], e⟩]
  | loaded m b => [⟨if b then .reloaded else .loaded, path, m.info.name, []⟩]
  | _ => []

/-- A load that is done and has decided has loaded its module. -/
theorem eq_loaded {p : LoadPhase} {b : Bool} (hd : p.done = true)
    (hb : p.isReload? = some b) : ∃ m, p = .loaded m b := by
  cases p with
  | loaded m b' => exact ⟨m, by rw [Option.some.inj hb]⟩
  | failed e => cases hb
  | _ => cases hd

/-- What resolving came to. -/
def Agrees (r : Except Bytes LoadedModule) : LoadPhase → Prop
  | called => True
  | failing e | failed e => r = .error e
  | resolved m | decided m _ | published m _ | loaded m _ => r = .ok m

end LoadPhase

/-- **`ModuleManager`**, with the loads under way and what the observers were
told, in order. -/
structure ModuleManager (ι : Type) where
  current : Option LoadedModule := none
  phase : ι → LoadPhase := fun _ => .called
  events : List (ι × ModuleEvent) := []

namespace ModuleManager

open Interleaving

variable {ι : Type} [DecidableEq ι]

/-- The next step of a load. -/
def setPhase (s : ModuleManager ι) (i : ι) (p : LoadPhase) : ModuleManager ι :=
  { s with phase := Function.update s.phase i p }

/-- The store to `current_`. -/
def publish (s : ModuleManager ι) (m : LoadedModule) : ModuleManager ι :=
  { s with current := some m }

/-- `notify`. -/
def notify (s : ModuleManager ι) (i : ι) (e : ModuleEvent) : ModuleManager ι :=
  { s with events := s.events ++ [(i, e)] }

variable (paths : ι → Bytes) (libs : ι → Except (Option Bytes) Exports)

/-- **The next step of the load `i`.** -/
def step (i : ι) (s : ModuleManager ι) : ModuleManager ι :=
  match s.phase i with
  | .called =>
    match resolve (paths i) (libs i) with
    | .error e => s.setPhase i (.failing e)
    | .ok m => s.setPhase i (.resolved m)
  | .failing e => (s.notify i ⟨.loadFailed, paths i, [], e⟩).setPhase i (.failed e)
  | .resolved m => s.setPhase i (.decided m s.current.isSome)
  | .decided m b => (s.publish m).setPhase i (.published m b)
  | .published m b =>
    (s.notify i ⟨if b then .reloaded else .loaded, paths i, m.info.name, []⟩).setPhase i
      (.loaded m b)
  | .failed _ | .loaded _ _ => s

/-- Nothing is loaded, and every load is about to begin. -/
def start : ModuleManager ι := {}

/-- The modules published in a run, in order. -/
def published : List ι → ModuleManager ι → List LoadedModule
  | [], _ => []
  | i :: rest, s =>
    (match s.phase i with
      | .decided m _ => [m]
      | _ => []) ++ published rest (step paths libs i s)

/-- What a load has told the observers. -/
def eventsOf (s : ModuleManager ι) (i : ι) : List ModuleEvent :=
  (s.events.filter (·.1 = i)).map Prod.snd

/-- The number of `Loaded` events. -/
def loadedEvents (s : ModuleManager ι) : Nat := s.events.countP (·.2.kind = .loaded)

section
variable {s : ModuleManager ι} {i j : ι} {p : LoadPhase} {e : ModuleEvent}

/-- The load is where it has been put. -/
@[simp] theorem setPhase_self : (s.setPhase i p).phase i = p := Function.update_self _ _ _

/-- Other loads are where they were. -/
theorem setPhase_of_ne (h : j ≠ i) : (s.setPhase i p).phase j = s.phase j :=
  Function.update_of_ne h _ _

/-- Nothing is told by that. -/
@[simp] theorem eventsOf_setPhase : (s.setPhase i p).eventsOf j = s.eventsOf j := rfl

/-- What is told of a load is told last. -/
@[simp] theorem eventsOf_notify_self : (s.notify i e).eventsOf i = s.eventsOf i ++ [e] := by
  simp [eventsOf, notify]

/-- Nothing is told of other loads. -/
theorem eventsOf_notify_of_ne (h : j ≠ i) : (s.notify i e).eventsOf j = s.eventsOf j := by
  simp [eventsOf, notify, h.symm]

end

/-! ## Every interleaving -/

/-- **What a load has come to, and what it has told**, is what its phase says. -/
structure Consistent (s : ModuleManager ι) : Prop where
  agrees : ∀ i, (s.phase i).Agrees (resolve (paths i) (libs i))
  told : ∀ i, s.eventsOf i = (s.phase i).told (paths i)

variable {paths libs} {s : ModuleManager ι} {i : ι}

/-- A load moves on to a phase that agrees with what it has told by then. -/
theorem Consistent.setPhase (h : Consistent paths libs s) {t : ModuleManager ι}
    (hphase : t.phase = s.phase) (hother : ∀ j, j ≠ i → t.eventsOf j = s.eventsOf j)
    {p : LoadPhase} (hp : p.Agrees (resolve (paths i) (libs i)))
    (hself : t.eventsOf i = p.told (paths i)) : Consistent paths libs (t.setPhase i p) := by
  constructor
  · intro j
    by_cases hj : j = i
    · subst hj
      rw [setPhase_self]
      exact hp
    · rw [setPhase_of_ne hj, hphase]
      exact h.agrees j
  · intro j
    rw [eventsOf_setPhase]
    by_cases hj : j = i
    · subst hj
      rw [setPhase_self]
      exact hself
    · rw [setPhase_of_ne hj, hother j hj, hphase]
      exact h.told j

/-- **Every step keeps it so.** -/
theorem Consistent.step (i : ι) (s : ModuleManager ι) (h : Consistent paths libs s) :
    Consistent paths libs (step paths libs i s) := by
  have hagrees := h.agrees i
  have htold := h.told i
  unfold ModuleManager.step
  cases hp : s.phase i with
  | called =>
    rw [hp] at htold
    dsimp only
    split
    · rename_i e hr
      exact h.setPhase rfl (fun _ _ => rfl) hr htold
    · rename_i m hr
      exact h.setPhase rfl (fun _ _ => rfl) hr htold
  | failing e =>
    rw [hp] at hagrees htold
    refine h.setPhase (t := s.notify i _) rfl (fun j hj => eventsOf_notify_of_ne hj) hagrees ?_
    rw [eventsOf_notify_self, htold]
    rfl
  | resolved m =>
    rw [hp] at hagrees htold
    exact h.setPhase rfl (fun _ _ => rfl) hagrees htold
  | decided m b =>
    rw [hp] at hagrees htold
    exact h.setPhase (t := s.publish m) rfl (fun _ _ => rfl) hagrees htold
  | published m b =>
    rw [hp] at hagrees htold
    refine h.setPhase (t := s.notify i _) rfl (fun j hj => eventsOf_notify_of_ne hj) hagrees ?_
    rw [eventsOf_notify_self, htold]
    rfl
  | failed e => exact h
  | loaded m b => exact h

/-- So it is in the beginning. -/
theorem consistent_start : Consistent paths libs (start : ModuleManager ι) :=
  ⟨fun _ => trivial, fun _ => rfl⟩

/-- A load that succeeds ends as loaded. -/
theorem Consistent.eq_loaded (h : Consistent paths libs s) (hd : (s.phase i).done = true)
    {m : LoadedModule} (hr : resolve (paths i) (libs i) = .ok m) :
    ∃ b, s.phase i = .loaded m b := by
  have hagrees := h.agrees i
  cases hp : s.phase i with
  | loaded m' b =>
    rw [hp] at hagrees
    obtain rfl : m' = m := Except.ok.inj (hagrees.symm.trans hr)
    exact ⟨b, rfl⟩
  | failed e =>
    rw [hp] at hagrees
    exact absurd (hr.symm.trans hagrees) (by simp)
  | _ =>
    rw [hp] at hd
    cases hd

/-- One that fails ends as failed. -/
theorem Consistent.eq_failed (h : Consistent paths libs s) (hd : (s.phase i).done = true)
    {e : Bytes} (hr : resolve (paths i) (libs i) = .error e) : s.phase i = .failed e := by
  have hagrees := h.agrees i
  cases hp : s.phase i with
  | loaded m b =>
    rw [hp] at hagrees
    exact absurd (hr.symm.trans hagrees) (by simp)
  | failed e' =>
    rw [hp] at hagrees
    rw [Except.error.inj (hr.symm.trans hagrees)]
  | _ =>
    rw [hp] at hd
    cases hd

/-- A step that does not publish leaves the current module. -/
theorem current_step (i : ι) (s : ModuleManager ι) :
    (step paths libs i s).current
      = match s.phase i with
        | .decided m _ => some m
        | _ => s.current := by
  unfold step
  cases s.phase i with
  | called =>
    dsimp only
    split
    · rfl
    · rfl
  | _ => rfl

/-- **The current module is the one published last.** -/
theorem current_run (sched : List ι) (s : ModuleManager ι) :
    (run (step paths libs) sched s).current
      = ((published paths libs sched s).getLast?).or s.current := by
  induction sched generalizing s with
  | nil => rfl
  | cons i rest ih =>
    rw [run_cons, ih, current_step, published]
    cases s.phase i with
    | decided m b =>
      dsimp only
      rw [List.singleton_append, List.getLast?_cons]
      cases (published paths libs rest (step paths libs i s)).getLast? with
      | none => rfl
      | some m' => rfl
    | _ => rfl

/-- **A load that fails leaves the current module.** -/
theorem current_step_of_error (h : Consistent paths libs s) {e : Bytes}
    (hr : resolve (paths i) (libs i) = .error e) :
    (step paths libs i s).current = s.current := by
  have hagrees := h.agrees i
  rw [current_step]
  cases hp : s.phase i with
  | decided m b =>
    rw [hp] at hagrees
    exact absurd (hr.symm.trans hagrees) (by simp)
  | _ => rfl

/-! ## The first load -/

/-- A step is one of its own load. -/
theorem step_phase_of_ne {j : ι} (h : j ≠ i) : (step paths libs i s).phase j = s.phase j := by
  unfold step
  cases s.phase i with
  | called =>
    dsimp only
    split
    · exact setPhase_of_ne h
    · exact setPhase_of_ne h
  | failed e => rfl
  | loaded m b => rfl
  | _ => exact setPhase_of_ne h

/-- What a load takes itself for is decided in one step. -/
theorem isReload?_step (i : ι) (s : ModuleManager ι) :
    ((step paths libs i s).phase i).isReload?
      = match s.phase i with
        | .resolved _ => some s.current.isSome
        | p => p.isReload? := by
  unfold step
  cases hp : s.phase i with
  | called =>
    dsimp only
    split
    · rw [setPhase_self]
      rfl
    · rw [setPhase_self]
      rfl
  | failed e => exact congrArg _ hp
  | loaded m b => exact congrArg _ hp
  | _ =>
    dsimp only
    rw [setPhase_self]
    rfl

/-- And it stays so. -/
theorem isReload?_step_of_some {j : ι} {b : Bool} (h : (s.phase j).isReload? = some b) :
    ((step paths libs i s).phase j).isReload? = some b := by
  by_cases hj : j = i
  · subst hj
    rw [isReload?_step]
    cases hp : s.phase j with
    | resolved m =>
      rw [hp] at h
      cases h
    | _ =>
      rw [hp] at h
      exact h
  · rw [step_phase_of_ne hj]
    exact h

/-- **While nothing is published, whoever has looked has found nothing** and is
about to publish; and whoever published first had found nothing. -/
structure Looked (s : ModuleManager ι) : Prop where
  null : s.current = none → ∀ i b, (s.phase i).isReload? = some b →
    ∃ m, s.phase i = .decided m false
  first : s.current ≠ none → ∃ i, (s.phase i).isReload? = some false

/-- **Every step keeps it so.** As long as nothing is published, a load that has looked has seen
nothing and is about to publish; a load that publishes is one of these if it is the first, and
what it has seen stays with it when it is done. -/
theorem Looked.step (i : ι) (s : ModuleManager ι) (h : Looked s) :
    Looked (step paths libs i s) := by
  have hcurrent : (ModuleManager.step paths libs i s).current = _ := current_step i s
  constructor
  · intro hnull j b hb
    have hnone : s.current = none := by
      rw [hcurrent] at hnull
      cases hp : s.phase i with
      | decided m b =>
        rw [hp] at hnull
        cases hnull
      | _ =>
        rw [hp] at hnull
        exact hnull
    -- As long as nothing is published, a load that has looked has seen nothing.
    by_cases hj : j = i
    · subst hj
      cases hp : s.phase j with
      | resolved m =>
        refine ⟨m, ?_⟩
        unfold ModuleManager.step
        rw [hp]
        dsimp only
        rw [setPhase_self, hnone]
        rfl
      | decided m b' =>
        rw [hcurrent, hp] at hnull
        cases hnull
      | published m b' =>
        obtain ⟨m', hm'⟩ := h.null hnone j b' (by rw [hp]; rfl)
        rw [hp] at hm'
        cases hm'
      | loaded m b' =>
        obtain ⟨m', hm'⟩ := h.null hnone j b' (by rw [hp]; rfl)
        rw [hp] at hm'
        cases hm'
      | _ =>
        rw [isReload?_step, hp] at hb
        cases hb
    · rw [step_phase_of_ne hj] at hb ⊢
      exact h.null hnone j b hb
  · intro hsome
    by_cases hnone : s.current = none
    · cases hp : s.phase i with
      | decided m b =>
        obtain ⟨m', hm'⟩ := h.null hnone i b (by rw [hp]; rfl)
        refine ⟨i, isReload?_step_of_some ?_⟩
        rw [hm']
        rfl
      | _ =>
        rw [hcurrent, hp] at hsome
        exact absurd hnone hsome
    · obtain ⟨j, hj⟩ := h.first hnone
      exact ⟨j, isReload?_step_of_some hj⟩

omit [DecidableEq ι] in
/-- So it is in the beginning. -/
theorem looked_start : Looked (start : ModuleManager ι) :=
  ⟨fun _ _ _ h => (nomatch h), fun h => absurd rfl h⟩

/-- **A load does not find nothing published when another one has found nothing
before it.** -/
def Alone (i : ι) (s : ModuleManager ι) : Prop :=
  ∀ m, s.phase i = .resolved m → s.current = none → ∀ j, (s.phase j).isReload? ≠ some false

/-- No two loads have found nothing. -/
def Unique (s : ModuleManager ι) : Prop :=
  ∀ i j, (s.phase i).isReload? = some false → (s.phase j).isReload? = some false → i = j

/-- A load that has found nothing just now is the only one. -/
theorem Alone.only (halone : Alone i s) {j : ι}
    (hi : ((ModuleManager.step paths libs i s).phase i).isReload? = some false)
    (hold : (s.phase i).isReload? ≠ some false) : (s.phase j).isReload? ≠ some false := by
  rw [isReload?_step] at hi
  cases hp : s.phase i with
  | resolved m =>
    rw [hp] at hi
    have hnone : s.current = none := by simpa using hi
    exact halone m hp hnone j
  | _ =>
    rw [hp] at hi hold
    exact absurd hi hold

/-- **A step that is taken alone** keeps it so. -/
theorem Unique.step (halone : Alone i s) (h : Unique s) :
    Unique (ModuleManager.step paths libs i s) := by
  have hcase : ∀ k, k ≠ i → ((ModuleManager.step paths libs i s).phase i).isReload? = some false →
      ((ModuleManager.step paths libs i s).phase k).isReload? = some false → i = k := by
    intro k hk hi hfalse
    rw [step_phase_of_ne hk] at hfalse
    by_cases hold : (s.phase i).isReload? = some false
    · exact h i k hold hfalse
    · exact absurd hfalse (halone.only hi hold)
  intro j k hj hk
  by_cases hji : j = i
  · subst hji
    by_cases hki : k = j
    · exact hki.symm
    · exact hcase k hki hj hk
  · by_cases hki : k = i
    · subst hki
      exact (hcase j hji hk hj).symm
    · rw [step_phase_of_ne hji] at hj
      rw [step_phase_of_ne hki] at hk
      exact h j k hj hk

/-! ## What the observers are told -/

/-- A load whose event is `Loaded` is one that had found nothing. -/
theorem Consistent.phase_of_loaded (h : Consistent paths libs s) {x : ι × ModuleEvent}
    (hx : x ∈ s.events) (hk : x.2.kind = .loaded) : ∃ m, s.phase x.1 = .loaded m false := by
  have hmem : x.2 ∈ s.eventsOf x.1 :=
    List.mem_map.mpr ⟨x, List.mem_filter.mpr ⟨hx, by simp⟩, rfl⟩
  rw [h.told] at hmem
  cases hp : s.phase x.1 with
  | loaded m b =>
    rw [hp] at hmem
    rw [List.mem_singleton.mp hmem] at hk
    cases b with
    | false => exact ⟨m, rfl⟩
    | true => cases hk
  | failed e =>
    rw [hp] at hmem
    rw [List.mem_singleton.mp hmem] at hk
    cases hk
  | _ =>
    rw [hp] at hmem
    cases hmem

/-- The event of such a load. -/
theorem Consistent.filter_eq (h : Consistent paths libs s) {m : LoadedModule}
    (hp : s.phase i = .loaded m false) :
    s.events.filter (·.1 = i) = [(i, ⟨.loaded, paths i, m.info.name, []⟩)] := by
  have htold := h.told i
  rw [hp] at htold
  obtain ⟨x, hx, hxe⟩ := List.map_eq_singleton_iff.mp htold
  rw [hx]
  have hi : x.1 = i := by
    have : x ∈ s.events.filter (·.1 = i) := by
      rw [hx]
      exact List.mem_singleton_self x
    simpa using (List.mem_filter.mp this).2
  exact congrArg (fun y => [y]) (Prod.ext hi hxe)

/-- **There is one `Loaded` event exactly when one load had found nothing.** Each load tells one
event, and tells it once, so the events called `Loaded` are counted by the loads that have found
nothing and are done. -/
theorem Consistent.loadedEvents_eq_one (h : Consistent paths libs s) :
    s.loadedEvents = 1
      ↔ ∃ i m, s.phase i = .loaded m false
        ∧ ∀ j m', s.phase j = .loaded m' false → j = i := by
  unfold loadedEvents
  rw [List.countP_eq_length_filter]
  constructor
  · intro hone
    obtain ⟨x, hx⟩ := List.length_eq_one_iff.mp hone
    have hmem : x ∈ s.events.filter (·.2.kind = .loaded) := by
      rw [hx]
      exact List.mem_singleton_self x
    obtain ⟨hin, hk⟩ := List.mem_filter.mp hmem
    obtain ⟨m, hm⟩ := h.phase_of_loaded hin (by simpa using hk)
    refine ⟨x.1, m, hm, fun j m' hj => ?_⟩
    have htold : (j, ⟨.loaded, paths j, m'.info.name, []⟩) ∈ s.events.filter (·.1 = j) := by
      rw [h.filter_eq hj]
      exact List.mem_singleton_self _
    have hloaded : (j, ⟨.loaded, paths j, m'.info.name, []⟩)
        ∈ s.events.filter (·.2.kind = .loaded) :=
      List.mem_filter.mpr ⟨(List.mem_filter.mp htold).1, by simp⟩
    rw [hx] at hloaded
    exact congrArg Prod.fst (List.mem_singleton.mp hloaded)
  · rintro ⟨i, m, hm, honly⟩
    -- One load has told `Loaded`, and it has told it once.
    have hsub : s.events.filter (·.2.kind = .loaded)
        = (s.events.filter (·.1 = i)).filter (·.2.kind = .loaded) := by
      rw [List.filter_filter]
      refine List.filter_congr fun x hx => ?_
      by_cases hk : x.2.kind = .loaded
      · obtain ⟨m', hm'⟩ := h.phase_of_loaded hx hk
        simp [hk, honly x.1 m' hm']
      · simp [hk]
    rw [hsub, h.filter_eq hm]
    rfl

variable (paths libs)

/-- **The manager publishes as it should** in an interleaving: a failing load
leaves the current module and reports one failure; the current module is the one
published last; and if a load succeeds, there is one `Loaded` event, and every
other success is reported as `Reloaded`. -/
structure Publishes (sched : List ι) : Prop where
  failed : ∀ i e, resolve (paths i) (libs i) = .error e →
    (∀ pre post, sched = pre ++ i :: post →
      (run (step paths libs) (pre ++ [i]) start).current
        = (run (step paths libs) pre start).current)
      ∧ (run (step paths libs) sched start).eventsOf i = [⟨.loadFailed, paths i, [], e⟩]
  current : (run (step paths libs) sched start).current
    = (published paths libs sched start).getLast?
  loaded : (∃ i m, resolve (paths i) (libs i) = .ok m) →
    (run (step paths libs) sched start).loadedEvents = 1
  reloaded : ∀ i m, resolve (paths i) (libs i) = .ok m →
    ∃ k, (k = .loaded ∨ k = .reloaded)
      ∧ (run (step paths libs) sched start).eventsOf i = [⟨k, paths i, m.info.name, []⟩]

/-- **When all loads have finished, the manager has published as it should exactly when one load
at most had found nothing** (`Alone`). There is always one that has, since whoever publishes
first has looked before; and where a second one looks in between, from this step on both of them
are bound to report `Loaded`. -/
theorem publishes_iff (sched : List ι)
    (hdone : ∀ i, ((run (step paths libs) sched start).phase i).done = true) :
    Publishes paths libs sched ↔ Steps (step paths libs) Alone sched start := by
  have hconsistent : ∀ pre, Consistent paths libs (run (step paths libs) pre start) :=
    fun pre => run_invariant Consistent.step pre consistent_start
  have hlooked : ∀ pre, Looked (run (step paths libs) pre start) :=
    fun pre => run_invariant Looked.step pre looked_start
  constructor
  · intro hpub
    by_contra hnot
    obtain ⟨pre, i, post, rfl, halone⟩ := exists_step_of_not sched start hnot
    unfold Alone at halone
    push Not at halone
    obtain ⟨m, hi, hnull, j, hj⟩ := halone
    have hij : j ≠ i := by
      rintro rfl
      rw [hi] at hj
      cases hj
    -- from this step on both loads are bound to report `Loaded`
    have hend : ∀ k, ((step paths libs i (run (step paths libs) pre start)).phase k).isReload?
          = some false →
        ∃ m, (run (step paths libs) (pre ++ i :: post) start).phase k = .loaded m false := by
      intro k hk
      refine LoadPhase.eq_loaded (hdone k) ?_
      rw [run_append, run_cons]
      exact run_invariant (I := fun s : ModuleManager ι => (s.phase k).isReload? = some false)
        (fun _ _ => isReload?_step_of_some) post hk
    obtain ⟨mi, hmi⟩ := hend i (by rw [isReload?_step, hi, hnull]; rfl)
    obtain ⟨mj, hmj⟩ := hend j (isReload?_step_of_some hj)
    have hok := (hconsistent (pre ++ i :: post)).agrees i
    rw [hmi] at hok
    obtain ⟨k, _, _, honly⟩ := (hconsistent _).loadedEvents_eq_one.mp (hpub.loaded ⟨i, mi, hok⟩)
    exact hij ((honly j mj hmj).trans (honly i mi hmi).symm)
  · intro halone
    refine ⟨fun i e hr => ⟨?_, ?_⟩, ?_, ?_, ?_⟩
    · rintro pre post rfl
      rw [run_append]
      exact current_step_of_error (hconsistent pre) hr
    · rw [(hconsistent sched).told, (hconsistent sched).eq_failed (hdone i) hr]
      rfl
    · rw [current_run]
      exact Option.or_none
    · rintro ⟨i, m, hr⟩
      have hend := hlooked sched
      obtain ⟨b, hi⟩ := (hconsistent sched).eq_loaded (hdone i) hr
      have hsome : (run (step paths libs) sched start).current ≠ none := by
        intro hnull
        obtain ⟨m', hm'⟩ := hend.null hnull i b (by rw [hi]; rfl)
        exact absurd (hi.symm.trans hm') (by simp)
      obtain ⟨j, hj⟩ := hend.first hsome
      obtain ⟨mj, hmj⟩ := LoadPhase.eq_loaded (hdone j) hj
      have hunique : Unique (run (step paths libs) sched start) :=
        run_invariant_of_steps (fun _ _ ha h => h.step ha) halone fun _ _ h => (nomatch h)
      refine (hconsistent sched).loadedEvents_eq_one.mpr ⟨j, mj, hmj, fun k m' hk => ?_⟩
      exact hunique k j (by rw [hk]; rfl) hj
    · intro i m hr
      obtain ⟨b, hi⟩ := (hconsistent sched).eq_loaded (hdone i) hr
      refine ⟨if b then .reloaded else .loaded, ?_, ?_⟩
      · cases b with
        | false => exact Or.inl rfl
        | true => exact Or.inr rfl
      · rw [(hconsistent sched).told, hi]
        rfl

/-- Two loads, one after the other. -/
theorem publishes_iff_in_turn :
    Publishes (fun _ => txt "a.so") (fun _ => .ok ⟨1, some 1, some (2, ⟨txt "a", 0, []⟩)⟩)
      [false, false, false, false, true, true, true, true] := by
  refine (publishes_iff _ _ _ (by decide)).mpr ?_
  refine ⟨?_, ?_, ?_, ?_, ?_, ?_, ?_, ?_, trivial⟩ <;> intro m hm hnull
  case refine_2 => decide
  case refine_6 => cases hnull
  all_goals cases hm

/-- Two loads that both look before either publishes both report `Loaded`. -/
theorem not_publishes : ¬ ∀ (paths : Bool → Bytes) (libs : Bool → Except (Option Bytes) Exports)
    (sched : List Bool), (∀ i, ((run (step paths libs) sched start).phase i).done = true) →
      Publishes paths libs sched := by
  intro h
  have hpub := h (fun _ => txt "a.so") (fun _ => .ok ⟨1, some 1, some (2, ⟨txt "a", 0, []⟩)⟩)
    [false, true, false, true, false, true, false, true] (by decide)
  exact absurd (hpub.loaded ⟨false, _, rfl⟩) (by decide)

end ModuleManager

end Hmr
