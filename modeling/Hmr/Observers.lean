import Hmr.Broadcast
import Hmr.Modules

/-!
# What observers are told

`notify` holds the lock of the observers only as long as it copies their list. Then it
calls them one after the other, and observers subscribe and unsubscribe, and other loads
go on, between any two of these calls. So an observer may be called when it has
unsubscribed already; but of what is announced from then on it hears nothing
(`Observers.run_unsubscribed`), and of a load that is announced while it is subscribed it
hears once (`Observers.run_subscribed`).

A load announces one thing only: that it has failed, or that its module is in use. It does
so in one step, in which the list is copied, and the calls are steps of their own. The
copies and the calls are those of `Broadcast`; what is added here is when a load takes its
copy, and that it does so once (`done_step`).

## What is counted

What a load has told an observer and what it still has to tell is what it owes it. That is
changed by the step that announces and by no other one (`owed_step`), so along a run it is
known from who was registered then. At the end of a run it may not have been told yet, so
the results say what has been told is the beginning of what is owed, and all of it once
the load has returned.

## Without the observers

`ModuleManager.step` is what remains without the observers, where a load tells all of them
at once (`Observers.manager_run`). So what is proved of loads there holds here.
-/

namespace Hmr

/-- What a load announces next, if that is its next step. -/
def LoadPhase.notice (path : Bytes) : LoadPhase → Option ModuleEvent
  | failing e => some ⟨.loadFailed, path, [], e⟩
  | published m b => some ⟨if b then .reloaded else .loaded, path, m.info.name, []⟩
  | _ => none

namespace ModuleManager

variable {ι : Type} [DecidableEq ι] {paths : ι → Bytes}
  {libs : ι → Except (Option Bytes) Exports} {s : ModuleManager ι} {i j : ι}

/-- A step adds to the events what the load announces. -/
theorem eventsOf_step :
    (step paths libs i s).eventsOf i
      = s.eventsOf i ++ ((s.phase i).notice (paths i)).toList := by
  unfold step
  cases s.phase i with
  | called =>
    dsimp only
    split
    · exact (List.append_nil _).symm
    · exact (List.append_nil _).symm
  | failing e => exact eventsOf_notify_self
  | published m b => exact eventsOf_notify_self
  | _ => exact (List.append_nil _).symm

/-- And nothing to those of other loads. -/
theorem eventsOf_step_of_ne (h : j ≠ i) : (step paths libs i s).eventsOf j = s.eventsOf j := by
  unfold step
  cases s.phase i with
  | called =>
    dsimp only
    split
    · rfl
    · rfl
  | failing e => exact eventsOf_notify_of_ne h
  | published m b => exact eventsOf_notify_of_ne h
  | _ => rfl

/-- **A load is done with its announcement**, and by nothing else. -/
theorem done_step :
    ((step paths libs i s).phase i).done
      = ((s.phase i).done || ((s.phase i).notice (paths i)).isSome) := by
  unfold step
  cases hp : s.phase i with
  | called =>
    dsimp only
    split
    · rw [setPhase_self]
      rfl
    · rw [setPhase_self]
      rfl
  | failed e => exact congrArg LoadPhase.done hp
  | loaded m b => exact congrArg LoadPhase.done hp
  | _ =>
    dsimp only
    rw [setPhase_self]
    rfl

end ModuleManager

/-- A load that is done has nothing to announce. -/
theorem LoadPhase.notice_of_done {path : Bytes} {p : LoadPhase} (h : p.done = true) :
    p.notice path = none := by
  cases p with
  | failed e => rfl
  | loaded m b => rfl
  | _ => cases h

namespace Observers

open Broadcast

/-- What is done next. A null pointer is neither subscribed nor found. -/
inductive Action (ι ω : Type)
  /-- A load goes on: it takes a step, or makes the next call of its `notify`. -/
  | load (i : ι)
  | subscribe (o : Option ω)
  | unsubscribe (o : Option ω)
  deriving DecidableEq

/-- **The manager, and its observers.** -/
structure State (ι ω : Type) where
  manager : ModuleManager ι := {}
  board : Board ω ι ModuleEvent := {}

variable {ι ω : Type} [DecidableEq ι] [DecidableEq ω]

variable (paths : ι → Bytes) (libs : ι → Except (Option Bytes) Exports)

/-- The next step of a load that has nothing left to tell. -/
def loadStep (i : ι) (s : State ι ω) : State ι ω where
  manager := ModuleManager.step paths libs i s.manager
  board := match (s.manager.phase i).notice (paths i) with
    | some e => s.board.announce i e
    | none => s.board

/-- **One step.** -/
def step (a : Action ι ω) (s : State ι ω) : State ι ω :=
  match a with
  | .load i =>
    match s.board.calls i with
    | [] => loadStep paths libs i s
    | _ :: _ => { s with board := s.board.deliver i }
  | .subscribe (some o) => { s with board := s.board.subscribe o }
  | .unsubscribe (some o) => { s with board := s.board.unsubscribe o }
  | .subscribe none | .unsubscribe none => s

/-- Nobody is subscribed, and every load is about to begin. -/
def start : State ι ω := {}

/-! ## What is so in every interleaving -/

/-- **Nobody is registered twice**, and who has told something is done. -/
structure Sound (s : State ι ω) : Prop where
  nodup : s.board.observers.Nodup
  course : ∀ i, (s.manager.phase i).done = false → s.board.course i = []
  consistent : s.manager.Consistent paths libs

variable {paths libs} {s : State ι ω} {i j : ι} {o : ω}

section
omit [DecidableEq ω]

/-- A load without a course has no calls to make. -/
theorem calls_of_course {b : Board ω ι ModuleEvent} (h : b.course i = []) : b.calls i = [] :=
  (List.append_eq_nil_iff.mp h).2

/-- A call registers nobody. -/
@[simp] theorem observers_deliver {b : Board ω ι ModuleEvent} :
    (b.deliver i).observers = b.observers := by
  unfold Board.deliver
  cases b.calls i with
  | nil => rfl
  | cons c rest => rfl

/-- The course of a load, after its step. -/
theorem course_loadStep (hcalls : s.board.calls i = []) :
    (loadStep paths libs i s).board.course i = s.board.course i
      ++ ((s.manager.phase i).notice (paths i)).toList.flatMap fun e =>
        s.board.observers.map fun o => (o, e) := by
  unfold loadStep
  dsimp only
  cases (s.manager.phase i).notice (paths i) with
  | none => exact (List.append_nil _).symm
  | some e =>
    dsimp only
    rw [Board.course_announce hcalls, Option.toList_some, List.flatMap_singleton]

/-- Those of other loads are as they were. -/
theorem course_loadStep_of_ne (h : j ≠ i) :
    (loadStep paths libs i s).board.course j = s.board.course j := by
  unfold loadStep
  dsimp only
  cases (s.manager.phase i).notice (paths i) with
  | none => rfl
  | some e => exact Board.course_announce_of_ne h

/-- A step of a load registers nobody. -/
@[simp] theorem observers_loadStep :
    (loadStep paths libs i s).board.observers = s.board.observers := by
  unfold loadStep
  dsimp only
  cases (s.manager.phase i).notice (paths i) with
  | none => rfl
  | some e => rfl

/-- A step of a load keeps it so. -/
theorem Sound.loadStep (h : Sound paths libs s) (hcalls : s.board.calls i = []) :
    Sound paths libs (loadStep paths libs i s) where
  nodup := by
    rw [observers_loadStep]
    exact h.nodup
  course := by
    intro j hj
    by_cases hji : j = i
    · subst hji
      have hdone : ((ModuleManager.step paths libs j s.manager).phase j).done = false := hj
      rw [ModuleManager.done_step, Bool.or_eq_false_iff] at hdone
      have hnotice : (s.manager.phase j).notice (paths j) = none :=
        Option.not_isSome_iff_eq_none.mp (Bool.not_eq_true _ ▸ hdone.2)
      rw [course_loadStep hcalls, h.course j hdone.1, hnotice]
      rfl
    · have hphase : ((ModuleManager.step paths libs i s.manager).phase j).done = false := hj
      rw [ModuleManager.step_phase_of_ne hji] at hphase
      rw [course_loadStep_of_ne hji]
      exact h.course j hphase
  consistent := h.consistent.step i s.manager

end

/-- A load that has nothing left to tell goes on. -/
theorem step_load_nil (h : s.board.calls i = []) :
    step paths libs (.load i) s = loadStep paths libs i s := by
  unfold step
  dsimp only
  rw [h]

/-- One that has tells it first. -/
theorem step_load_cons {c : ω × ModuleEvent} {rest : List (ω × ModuleEvent)}
    (h : s.board.calls i = c :: rest) :
    step paths libs (.load i) s = { s with board := s.board.deliver i } := by
  unfold step
  dsimp only
  rw [h]

/-- **Every step keeps it so.** -/
theorem Sound.step (a : Action ι ω) (s : State ι ω) (h : Sound paths libs s) :
    Sound paths libs (step paths libs a s) := by
  cases a with
  | load i =>
    cases hcalls : s.board.calls i with
    | nil =>
      rw [step_load_nil hcalls]
      exact h.loadStep hcalls
    | cons c rest =>
      rw [step_load_cons hcalls]
      refine ⟨?_, fun j hj => Board.course_deliver.trans (h.course j hj), h.consistent⟩
      dsimp only
      rw [observers_deliver]
      exact h.nodup
  | subscribe o =>
    cases o with
    | none => exact h
    | some o =>
      exact ⟨Board.nodup_subscribe h.nodup,
        fun j hj => Board.course_subscribe.trans (h.course j hj), h.consistent⟩
  | unsubscribe o =>
    cases o with
    | none => exact h
    | some o => exact ⟨Board.nodup_unsubscribe h.nodup, h.course, h.consistent⟩

omit [DecidableEq ω] in
/-- Nobody is registered, and nothing is told. -/
theorem sound_start : Sound paths libs (start : State ι ω) :=
  ⟨List.nodup_nil, fun _ _ => rfl, ModuleManager.consistent_start⟩

/-- **So it is in every run.** -/
theorem sound_run (sched : List (Action ι ω)) :
    Sound paths libs (Interleaving.run (step paths libs) sched (start : State ι ω)) :=
  Interleaving.run_invariant Sound.step sched sound_start

/-! ## What is owed -/

/-- What a load announces in its step, it owes to those who are registered then. -/
theorem owed_loadStep (h : Sound paths libs s) (hcalls : s.board.calls i = []) :
    (loadStep paths libs i s).board.owed i o = s.board.owed i o
      ++ if o ∈ s.board.observers then ((s.manager.phase i).notice (paths i)).toList else [] := by
  unfold loadStep
  dsimp only
  cases (s.manager.phase i).notice (paths i) with
  | none => simp
  | some e => exact Board.owed_announce h.nodup hcalls

/-- **What is announced in a step is owed to those who are registered**, and nothing else. Only a
load that has no call left to make announces anything; delivering a call, subscribing and
unsubscribing change no course, and then the observers are owed what they were. -/
theorem owed_step (h : Sound paths libs s) (a : Action ι ω) (i : ι) :
    ∃ new, (step paths libs a s).manager.eventsOf i = s.manager.eventsOf i ++ new
      ∧ ∀ o, (step paths libs a s).board.owed i o
        = s.board.owed i o ++ if o ∈ s.board.observers then new else [] := by
  -- a step that announces nothing changes no course
  have hnothing : ∀ t : State ι ω, t.manager.eventsOf i = s.manager.eventsOf i →
      t.board.course i = s.board.course i →
      ∃ new, t.manager.eventsOf i = s.manager.eventsOf i ++ new
        ∧ ∀ o, t.board.owed i o
          = s.board.owed i o ++ if o ∈ s.board.observers then new else [] := by
    intro t hevents hcourse
    refine ⟨[], by rw [hevents, List.append_nil], fun o => ?_⟩
    rw [ite_self, List.append_nil]
    exact Board.owed_congr hcourse
  cases a with
  | load j =>
    cases hcalls : s.board.calls j with
    | nil =>
      rw [step_load_nil hcalls]
      by_cases hij : i = j
      · subst hij
        exact ⟨_, ModuleManager.eventsOf_step, fun o => owed_loadStep h hcalls⟩
      · exact hnothing _ (ModuleManager.eventsOf_step_of_ne hij) (course_loadStep_of_ne hij)
    | cons c rest =>
      rw [step_load_cons hcalls]
      exact hnothing _ rfl Board.course_deliver
  | subscribe o =>
    cases o with
    | none => exact hnothing _ rfl rfl
    | some o => exact hnothing _ rfl Board.course_subscribe
  | unsubscribe o =>
    cases o with
    | none => exact hnothing _ rfl rfl
    | some o => exact hnothing _ rfl rfl

/-- Nor does a load that is telling. -/
@[simp] theorem observers_step_load :
    (step paths libs (.load i) s).board.observers = s.board.observers := by
  cases hcalls : s.board.calls i with
  | nil =>
    rw [step_load_nil hcalls]
    exact observers_loadStep
  | cons c rest =>
    rw [step_load_cons hcalls]
    exact observers_deliver

/-- Who does not unsubscribe stays registered. -/
theorem mem_step {a : Action ι ω} (h : Sound paths libs s) (ha : a ≠ .unsubscribe (some o))
    (ho : o ∈ s.board.observers) : o ∈ (step paths libs a s).board.observers := by
  cases a with
  | load i =>
    rw [observers_step_load]
    exact ho
  | subscribe o' =>
    cases o' with
    | none => exact ho
    | some o' => exact Board.mem_subscribe.mpr (.inl ho)
  | unsubscribe o' =>
    cases o' with
    | none => exact ho
    | some o' => exact (Board.mem_unsubscribe h.nodup).mpr ⟨fun he => ha (he ▸ rfl), ho⟩

/-- Who does not subscribe is not registered. -/
theorem notMem_step {a : Action ι ω} (h : Sound paths libs s) (ha : a ≠ .subscribe (some o))
    (ho : o ∉ s.board.observers) : o ∉ (step paths libs a s).board.observers := by
  cases a with
  | load i =>
    rw [observers_step_load]
    exact ho
  | subscribe o' =>
    cases o' with
    | none => exact ho
    | some o' =>
      exact fun hm => (Board.mem_subscribe.mp hm).elim ho fun he => ha (he ▸ rfl)
  | unsubscribe o' =>
    cases o' with
    | none => exact ho
    | some o' => exact fun hm => ho ((Board.mem_unsubscribe h.nodup).mp hm).2

/-- **An observer that stays registered is owed what is announced.** -/
theorem owed_run_of_mem (sched : List (Action ι ω)) (hkeep : .unsubscribe (some o) ∉ sched)
    (h : Sound paths libs s) (ho : o ∈ s.board.observers) (i : ι) :
    ∃ new, (Interleaving.run (step paths libs) sched s).manager.eventsOf i
        = s.manager.eventsOf i ++ new
      ∧ (Interleaving.run (step paths libs) sched s).board.owed i o
        = s.board.owed i o ++ new := by
  induction sched generalizing s with
  | nil => exact ⟨[], (List.append_nil _).symm, (List.append_nil _).symm⟩
  | cons a rest ih =>
    have ha : a ≠ .unsubscribe (some o) := fun ha => hkeep (ha ▸ List.mem_cons_self)
    obtain ⟨new, hevents, howed⟩ := owed_step h a i
    obtain ⟨later, hevents', howed'⟩ := ih (fun hr => hkeep (List.mem_cons_of_mem _ hr))
      (h.step a s) (mem_step h ha ho)
    refine ⟨new ++ later, ?_, ?_⟩
    · rw [Interleaving.run_cons, hevents', hevents, List.append_assoc]
    · rw [Interleaving.run_cons, howed', howed, if_pos ho, List.append_assoc]

/-- **One that is not registered is owed nothing more.** -/
theorem owed_run_of_notMem (sched : List (Action ι ω)) (hkeep : .subscribe (some o) ∉ sched)
    (h : Sound paths libs s) (ho : o ∉ s.board.observers) (i : ι) :
    (Interleaving.run (step paths libs) sched s).board.owed i o = s.board.owed i o := by
  induction sched generalizing s with
  | nil => rfl
  | cons a rest ih =>
    have ha : a ≠ .subscribe (some o) := fun ha => hkeep (ha ▸ List.mem_cons_self)
    obtain ⟨new, -, howed⟩ := owed_step h a i
    rw [Interleaving.run_cons, ih (fun hr => hkeep (List.mem_cons_of_mem _ hr)) (h.step a s)
      (notMem_step h ha ho), howed, if_neg ho, List.append_nil]

/-- A load that is done goes on telling what it has announced, and nothing else. -/
theorem course_step_of_done (a : Action ι ω) (hd : (s.manager.phase i).done = true) :
    ((step paths libs a s).manager.phase i).done = true
      ∧ (step paths libs a s).board.course i = s.board.course i := by
  cases a with
  | load j =>
    cases hcalls : s.board.calls j with
    | nil =>
      rw [step_load_nil hcalls]
      by_cases hij : i = j
      · subst hij
        -- a load that is done has nothing to announce any more
        refine ⟨?_, ?_⟩
        · exact ModuleManager.done_step.trans (by rw [hd, Bool.true_or])
        · rw [course_loadStep hcalls, LoadPhase.notice_of_done hd]
          exact List.append_nil _
      · refine ⟨?_, course_loadStep_of_ne hij⟩
        exact (congrArg LoadPhase.done (ModuleManager.step_phase_of_ne hij)).trans hd
    | cons c rest =>
      rw [step_load_cons hcalls]
      exact ⟨hd, Board.course_deliver⟩
  | subscribe o =>
    cases o with
    | none => exact ⟨hd, rfl⟩
    | some o => exact ⟨hd, Board.course_subscribe⟩
  | unsubscribe o =>
    cases o with
    | none => exact ⟨hd, rfl⟩
    | some o => exact ⟨hd, rfl⟩

/-- So it is in every run from then on. -/
theorem course_run_of_done (sched : List (Action ι ω)) (hd : (s.manager.phase i).done = true) :
    (Interleaving.run (step paths libs) sched s).board.course i = s.board.course i := by
  induction sched generalizing s with
  | nil => rfl
  | cons a rest ih =>
    have hstep : _ ∧ (step paths libs a s).board.course i = _ := course_step_of_done a hd
    rw [Interleaving.run_cons, ih hstep.1, hstep.2]

/-! ## Without the observers -/

/-- The loads whose turn it is. -/
def turns (sched : List (Action ι ω)) : List ι :=
  sched.filterMap fun
    | .load i => some i
    | _ => none

/-- A step is one of the loads without observers, or none. -/
theorem manager_step (a : Action ι ω) :
    (step paths libs a s).manager = s.manager
      ∨ ∃ i, a = .load i
        ∧ (step paths libs a s).manager = ModuleManager.step paths libs i s.manager := by
  cases a with
  | load i =>
    cases hcalls : s.board.calls i with
    | nil => exact .inr ⟨i, rfl, by rw [step_load_nil hcalls]; rfl⟩
    | cons c rest => exact .inl (by rw [step_load_cons hcalls])
  | subscribe o =>
    cases o with
    | none => exact .inl rfl
    | some o => exact .inl rfl
  | unsubscribe o =>
    cases o with
    | none => exact .inl rfl
    | some o => exact .inl rfl

/-- **A run is one of some of its loads** without the observers. -/
theorem manager_run_from (sched : List (Action ι ω)) (s : State ι ω) :
    ∃ turns' : List ι, turns'.Sublist (turns sched)
      ∧ (Interleaving.run (step paths libs) sched s).manager
        = Interleaving.run (ModuleManager.step paths libs) turns' s.manager := by
  induction sched generalizing s with
  | nil => exact ⟨[], List.nil_sublist _, rfl⟩
  | cons a rest ih =>
    obtain ⟨ts, hsub, hrun⟩ := ih (step paths libs a s)
    have hsub' : (turns rest).Sublist (turns (a :: rest)) :=
      (List.sublist_cons_self a rest).filterMap _
    have hcases : (step paths libs a s).manager = s.manager ∨ _ := manager_step a
    obtain hsame | ⟨i, rfl, hstep⟩ := hcases
    · exact ⟨ts, hsub.trans hsub', hrun.trans (by rw [hsame])⟩
    · exact ⟨i :: ts, hsub.cons_cons i, hrun.trans (by rw [hstep]; rfl)⟩

/-! ## Every run -/

section
variable (paths libs)

/-- **An observer hears of a load once**, if it is registered when the load is announced: in
every interleaving, from when it is registered and as long as it does not unsubscribe, no load
that was not announced before has told it anything but its event; and a load that has nothing
left to tell has told it that. -/
theorem run_subscribed (before after : List (Action ι ω)) (o : ω)
    (hsubscribed : o ∈ (Interleaving.run (step paths libs) before start).board.observers)
    (hkeep : .unsubscribe (some o) ∉ after) :
    let s : State ι ω := Interleaving.run (step paths libs) before start
    let t : State ι ω := Interleaving.run (step paths libs) after s
    ∀ i, (s.manager.phase i).done = false →
      t.board.told i o <+: (t.manager.phase i).told (paths i)
        ∧ (t.board.calls i = [] → t.board.told i o = (t.manager.phase i).told (paths i)) := by
  intro s t i hdone
  have hs : Sound paths libs s := sound_run before
  have ht : Sound paths libs t := Interleaving.run_invariant Sound.step after hs
  obtain ⟨new, hevents, howed⟩ := owed_run_of_mem after hkeep hs hsubscribed i
  -- a load that is not done has announced nothing
  have hnone : s.manager.eventsOf i = [] := by
    rw [hs.consistent.told]
    cases hp : s.manager.phase i with
    | failed e =>
      rw [hp] at hdone
      cases hdone
    | loaded m b =>
      rw [hp] at hdone
      cases hdone
    | _ => rfl
  have hall : t.board.owed i o = (t.manager.phase i).told (paths i) := by
    rw [← ht.consistent.told]
    exact howed.trans (by rw [Board.owed_of_course (hs.course i hdone), hevents, hnone])
  exact ⟨hall ▸ Board.told_prefix_owed,
    fun hcalls => (Board.owed_of_calls hcalls).symm.trans hall⟩

/-- **Of what is announced when it is not registered an observer hears nothing**: in every
interleaving, from when it is not registered and as long as it does not subscribe, a load tells
it what it had still to tell, if it was announced before, and nothing otherwise. -/
theorem run_unsubscribed (before after : List (Action ι ω)) (o : ω)
    (hsubscribed : o ∉ (Interleaving.run (step paths libs) before start).board.observers)
    (hkeep : .subscribe (some o) ∉ after) :
    let s : State ι ω := Interleaving.run (step paths libs) before start
    let t : State ι ω := Interleaving.run (step paths libs) after s
    ∀ i, t.board.told i o <+: s.board.owed i o
      ∧ (t.board.calls i = [] → t.board.told i o = s.board.owed i o)
      ∧ ((s.manager.phase i).done = false → s.board.owed i o = []) := by
  intro s t i
  have hs : Sound paths libs s := sound_run before
  have howed : t.board.owed i o = s.board.owed i o :=
    owed_run_of_notMem after hkeep hs hsubscribed i
  exact ⟨howed ▸ Board.told_prefix_owed,
    fun hcalls => (Board.owed_of_calls hcalls).symm.trans howed,
    fun hdone => Board.owed_of_course (hs.course i hdone)⟩

/-- **A load tells whoever was registered when it took its copy**, in the order in which they
are, whatever happens meanwhile, and nobody twice. -/
theorem run_announced (before after : List (Action ι ω)) {i : ι} {e : ModuleEvent}
    (hnotice : ((Interleaving.run (step paths libs) before
      (start : State ι ω)).manager.phase i).notice (paths i) = some e) :
    let s : State ι ω := Interleaving.run (step paths libs) before start
    let t : State ι ω := Interleaving.run (step paths libs) (.load i :: after) s
    t.board.course i = s.board.observers.map (fun o => (o, e)) ∧ s.board.observers.Nodup := by
  intro s t
  have hs : Sound paths libs s := sound_run before
  -- a load announces its event in the step that ends it
  have hdone : (s.manager.phase i).done = false := by
    by_contra hd
    have hd : (s.manager.phase i).done = true := by simpa using hd
    rw [LoadPhase.notice_of_done hd] at hnotice
    cases hnotice
  have hcalls : s.board.calls i = [] := calls_of_course (hs.course i hdone)
  refine ⟨?_, hs.nodup⟩
  have hstep : step paths libs (.load i) s = loadStep paths libs i s := step_load_nil hcalls
  have hdone' : ((step paths libs (.load i) s).manager.phase i).done = true := by
    rw [hstep]
    exact ModuleManager.done_step.trans (by rw [hnotice, Option.isSome_some, Bool.or_true])
  have hcourse : t.board.course i = (step paths libs (.load i) s).board.course i :=
    course_run_of_done after hdone'
  rw [hcourse, hstep, course_loadStep hcalls, hs.course i hdone, hnotice]
  simp

/-- **Observers do not change what is published**: every run is one of the loads alone. -/
theorem manager_run (sched : List (Action ι ω)) :
    ∃ turns' : List ι, turns'.Sublist (turns sched)
      ∧ (Interleaving.run (step paths libs) sched (start : State ι ω)).manager
        = Interleaving.run (ModuleManager.step paths libs) turns' ModuleManager.start :=
  manager_run_from sched start

end

/-! ### Two observers -/

/-- The library of a module. -/
def library (_ : Bool) : Except (Option Bytes) Exports :=
  .ok ⟨0, some 0, some (hmrAbiVersion, ⟨txt "V", 0, []⟩)⟩

/-- Both subscribe, one of them twice, and the first load takes its copy and calls the one. -/
def halfway : List (Action Bool Bool) :=
  [.subscribe (some true), .subscribe (some false), .subscribe (some true)]
    ++ List.replicate 5 (.load false)

/-- The other one unsubscribes. -/
def left : List (Action Bool Bool) := halfway ++ [.unsubscribe (some false)]

/-- Both loads return. -/
def rest : List (Action Bool Bool) := .load false :: List.replicate 5 (.load true)

/-- The observer that stays is told of a load that is announced from then on, and once. -/
theorem run_subscribed_rest :
    let s : State Bool Bool := Interleaving.run (step (fun _ => []) library) left start
    let t : State Bool Bool := Interleaving.run (step (fun _ => []) library) rest s
    ∀ i, (s.manager.phase i).done = false →
      t.board.told i true <+: (t.manager.phase i).told []
        ∧ (t.board.calls i = [] → t.board.told i true = (t.manager.phase i).told []) :=
  run_subscribed (fun _ => []) library left rest true (by decide) (by decide)

/-- The one that has left is told what it was owed then, and no more. -/
theorem run_unsubscribed_rest :
    let s : State Bool Bool := Interleaving.run (step (fun _ => []) library) left start
    let t : State Bool Bool := Interleaving.run (step (fun _ => []) library) rest s
    ∀ i, t.board.told i false <+: s.board.owed i false
      ∧ (t.board.calls i = [] → t.board.told i false = s.board.owed i false)
      ∧ ((s.manager.phase i).done = false → s.board.owed i false = []) :=
  run_unsubscribed (fun _ => []) library left rest false (by decide) (by decide)

/-- The first load tells those in its copy. -/
theorem run_announced_rest :
    let s : State Bool Bool :=
      Interleaving.run (step (fun _ => []) library) (halfway.take 6) start
    let t : State Bool Bool :=
      Interleaving.run (step (fun _ => []) library) (.load false :: .load false :: rest) s
    t.board.course false = s.board.observers.map (fun o => (o, ⟨.loaded, [], txt "V", []⟩))
      ∧ s.board.observers.Nodup :=
  run_announced (fun _ => []) library (halfway.take 6) (.load false :: rest) (i := false)
    (e := ⟨.loaded, [], txt "V", []⟩) (by decide)

/-- It is called when it has unsubscribed. -/
example : (Interleaving.run (step (fun _ => []) library) (left ++ rest)
    (start : State Bool Bool)).board.told false false = [⟨.loaded, [], txt "V", []⟩] := by
  decide

end Observers

end Hmr
