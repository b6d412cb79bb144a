import Hmr.HotSwap
import Hmr.Pipeline

/-!
# Serving packets while modules are swapped

A host has workers. A worker takes a snapshot of the current module, makes a context from
the module's descriptor, binds variables, and handles packet after packet with both; for
another snapshot it makes another context. All the while modules are loaded and dropped,
by other threads.

A worker that can handle a packet has a module that is there, and a context that was made
for it (`Serving.Fitting`), so a packet is handled by one ruleset from its beginning to
its end, by the one that was current when the worker took its snapshot
(`Serving.run_serves_snapshot`).

Handling a packet is one step here. The worker has its snapshot and its context to itself,
and the runtime's calls touch nothing else, so what other threads do meanwhile makes no
difference to it. What a worker does to modules – taking a snapshot, dropping it – are
steps of the swap protocol, and all that is known of these (`HotSwap`) holds here
(`Serving.sound_swap_run`).

That a module is the compiled form of a ruleset is a condition on the libraries
(`Serving.Compiled`), since what is in a library is not checked when it is loaded. Under
it, the host with the modules and one with an interpreter in the place of each do the same
in every run (`Serving.run_interpreted`).
-/

namespace Hmr

open IrGenerator (generateIr)

namespace Serving

open HotSwap (Ref)

/-- What is done next. -/
inductive Action (ι ρ : Type)
  /-- A step of the manager, its loads and its readers; a worker that takes another snapshot
  drops its context. -/
  | swap (a : HotSwap.Action ι ρ)
  /-- A worker makes a context for its snapshot. -/
  | prepare (r : ρ)
  | setVar (r : ρ) (id : HmrVarId) (value : Bytes)
  /-- A worker handles a packet. -/
  | packet (r : ρ) (raw : Bytes)

/-- **The manager, and the contexts of the workers.** -/
structure State (ι ρ : Type) where
  swap : HotSwap.State ι ρ := {}
  contexts : ρ → Option HmrContext := fun _ => none
  /-- What the workers made of packets, in order; `none` if the code of a module went wrong. -/
  handled : List (ρ × Option Outcome) := []

variable {ι ρ : Type} [DecidableEq ι] [DecidableEq ρ]

variable (rx : RegexEngine) (paths : ι → Bytes) (libs : ι → Except (Option Bytes) Exports)
  (rulesets : ι → Ruleset)

/-- **The libraries are compiled ones**: what publishes a descriptor publishes the one of the
module for its ruleset, whose code is in it. -/
def Compiled : Prop :=
  ∀ i x version info, libs i = .ok x → x.info = some (version, info) →
    info = (generateIr (rulesets i)).hmrModuleInfo

/-- The module that a worker has. -/
def State.loaded (s : State ι ρ) (r : ρ) : Option (ι × LoadedModule) :=
  (s.swap.pool.target (.snapshot r)).bind fun i =>
    (resolve (paths i) (libs i)).toOption.map fun m => (i, m)

/-- A worker's next context, or none. -/
def State.setContext (s : State ι ρ) (r : ρ) (ctx : Option HmrContext) : State ι ρ :=
  { s with contexts := Function.update s.contexts r ctx }

/-- The worker whose snapshot is another one afterwards. -/
def retaken : HotSwap.Action ι ρ → Option ρ
  | .acquire r | .release r => some r
  | _ => none

/-- **One step.** -/
def step (a : Action ι ρ) (s : State ι ρ) : State ι ρ :=
  match a with
  | .swap a =>
    { s with
      swap := HotSwap.step paths libs a s.swap
      contexts := match retaken a with
        | some r => Function.update s.contexts r none
        | none => s.contexts }
  | .prepare r =>
    match s.loaded paths libs r with
    | some (_, m) => s.setContext r (makeContext rx m.info)
    | none => s
  | .setVar r id value => s.setContext r ((s.contexts r).map fun ctx => ctx.setVar id value)
  | .packet r raw =>
    match s.loaded paths libs r, s.contexts r with
    | some (i, _), some ctx =>
      let out := (generateIr (rulesets i)).process rx ctx raw
      { s.setContext r (some out.2) with handled := s.handled ++ [(r, out.1)] }
    | _, _ => s

/-- Nothing is loaded, and no worker has a context. -/
def start : State ι ρ := {}

variable {rx paths libs rulesets} {s : State ι ρ} {r : ρ}

/-! ## The worker's module -/

omit [DecidableEq ι] [DecidableEq ρ] in
/-- The module of a worker is what its snapshot points to. -/
theorem State.loaded_eq {i : ι} {m : LoadedModule} (h : s.loaded paths libs r = some (i, m)) :
    s.swap.pool.target (.snapshot r) = some i ∧ resolve (paths i) (libs i) = .ok m := by
  obtain ⟨j, htarget, hj⟩ := Option.bind_eq_some_iff.mp h
  obtain ⟨m', hm', hpair⟩ := Option.map_eq_some_iff.mp hj
  obtain ⟨rfl, rfl⟩ := Prod.mk.inj hpair
  refine ⟨htarget, ?_⟩
  cases hr : resolve (paths j) (libs j) with
  | error e =>
    rw [hr] at hm'
    cases hm'
  | ok m'' =>
    rw [hr] at hm'
    exact congrArg _ (Option.some.inj hm')

omit [DecidableEq ι] in
/-- **What a compiled library publishes** is what the interpreter of its ruleset asks for. -/
theorem Compiled.info (h : Compiled libs rulesets) {i : ι} {m : LoadedModule}
    (hr : resolve (paths i) (libs i) = .ok m) : m.info = Interpreter.info (rulesets i) := by
  obtain ⟨x, hx, -, hinfo⟩ := HotSwap.resolve_ok hr
  rw [h i x _ _ hx hinfo, IrGenerator.hmrModuleInfo_eq]

omit [DecidableEq ι] [DecidableEq ρ] in
/-- It is a matter of the snapshot only. -/
theorem loaded_congr {t : State ι ρ}
    (h : t.swap.pool.target (.snapshot r) = s.swap.pool.target (.snapshot r)) :
    t.loaded paths libs r = s.loaded paths libs r := by
  unfold State.loaded
  rw [h]

/-! ## What is so in every interleaving -/

variable (paths libs rulesets)

/-- **A context fits the module the worker has.** -/
def Fitting (s : State ι ρ) : Prop :=
  ∀ r ctx, s.contexts r = some ctx →
    ∃ i m, s.loaded paths libs r = some (i, m) ∧ ctx.Prepared (Interpreter.info (rulesets i))

variable {paths libs rulesets}

omit [DecidableEq ι] in
/-- One worker gets a context that fits, or none. -/
theorem Fitting.setContext (h : Fitting paths libs rulesets s) {next : Option HmrContext}
    (hnext : ∀ ctx, next = some ctx → ∃ i m, s.loaded paths libs r = some (i, m)
      ∧ ctx.Prepared (Interpreter.info (rulesets i))) :
    Fitting paths libs rulesets (s.setContext r next) := by
  intro r' ctx hctx
  have hctx : Function.update s.contexts r next r' = some ctx := hctx
  by_cases hr : r' = r
  · subst hr
    rw [Function.update_self] at hctx
    exact hnext ctx hctx
  · rw [Function.update_of_ne hr] at hctx
    exact h r' ctx hctx

/-- The manager, a load or a reader: whoever keeps its context keeps its snapshot. -/
theorem Fitting.swap (h : Fitting paths libs rulesets s) (a : HotSwap.Action ι ρ) :
    Fitting paths libs rulesets (step rx paths libs rulesets (.swap a) s) := by
  intro r ctx hctx
  -- a context goes with the snapshot it is for, so that of `r` stays
  have hne : retaken a ≠ some r := by
    intro hr
    have hnone : (step rx paths libs rulesets (.swap a) s).contexts r = none := by
      unfold step
      dsimp only
      rw [hr]
      exact Function.update_self _ _ _
    rw [hnone] at hctx
    cases hctx
  have hkept : s.contexts r = some ctx := by
    unfold step at hctx
    dsimp only at hctx
    cases hr : retaken a with
    | none =>
      rw [hr] at hctx
      exact hctx
    | some r' =>
      rw [hr] at hctx hne
      exact (Function.update_of_ne (fun he => hne (congrArg some he.symm)) _ _).symm.trans hctx
  obtain ⟨i, m, hm, hprepared⟩ := h r ctx hkept
  refine ⟨i, m, ?_, hprepared⟩
  have htarget : (HotSwap.step paths libs a s.swap).pool.target (.snapshot r)
      = s.swap.pool.target (.snapshot r) :=
    HotSwap.target_snapshot_step (fun ha => hne (ha ▸ rfl)) (fun ha => hne (ha ▸ rfl))
  exact (loaded_congr htarget).trans hm

/-- **Every step keeps it so.** A worker that prepares a context prepares it for the module it
has, a worker that takes another module has no context until then; and a variable that is set and
a packet that is handled leave the regexes and the number of slots, which is all that was
prepared. -/
theorem Fitting.step (hcompiled : Compiled libs rulesets) (a : Action ι ρ) (s : State ι ρ)
    (h : Fitting paths libs rulesets s) :
    Fitting paths libs rulesets (step rx paths libs rulesets a s) := by
  cases a with
  | swap a => exact h.swap a
  | prepare r =>
    unfold Serving.step
    dsimp only
    cases hm : s.loaded paths libs r with
    | none => exact h
    | some p =>
      obtain ⟨i, m⟩ := p
      refine h.setContext fun ctx hctx => ⟨i, m, hm, ?_⟩
      rw [← hcompiled.info (State.loaded_eq hm).2]
      exact (HmrContext.prepared_of_makeContext hctx).1
  | setVar r id value =>
    refine h.setContext fun ctx hctx => ?_
    obtain ⟨old, hold, rfl⟩ := Option.map_eq_some_iff.mp hctx
    obtain ⟨i, m, hm, hprepared⟩ := h r old hold
    refine ⟨i, m, hm, ?_⟩
    unfold HmrContext.setVar
    by_cases hid : id = .none
    · rw [if_pos hid]
      exact hprepared
    · rw [if_neg hid]
      exact ⟨hprepared.regexes, hprepared.slots⟩
  | packet r raw =>
    unfold Serving.step
    dsimp only
    cases hm : s.loaded paths libs r with
    | none => exact h
    | some p =>
      obtain ⟨i, m⟩ := p
      cases hctx : s.contexts r with
      | none => exact h
      | some ctx =>
        -- a packet leaves the regexes and the number of slots
        have hnext : Fitting paths libs rulesets (s.setContext r
            (some ((generateIr (rulesets i)).process rx ctx raw).2)) := by
          refine h.setContext fun ctx' hctx' => ⟨i, m, hm, ?_⟩
          obtain rfl := Option.some.inj hctx'
          obtain ⟨i', m', hm', hprepared⟩ := h r ctx hctx
          obtain ⟨rfl, rfl⟩ := Prod.mk.inj (Option.some.inj (hm.symm.trans hm'))
          rw [IrGenerator.process_generateIr]
          exact (hprepared.after rx [raw]).1
        exact hnext

omit [DecidableEq ι] [DecidableEq ρ] in
/-- So it is in the beginning. -/
theorem fitting_start : Fitting paths libs rulesets (start : State ι ρ) :=
  fun _ _ hctx => by cases hctx

/-- **So it is in every run.** -/
theorem fitting_run (hcompiled : Compiled libs rulesets) (sched : List (Action ι ρ)) :
    Fitting paths libs rulesets
      (Interleaving.run (step rx paths libs rulesets) sched (start : State ι ρ)) :=
  Interleaving.run_invariant (Fitting.step hcompiled) sched fitting_start

/-! ## The manager by itself -/

/-- The steps that are taken of the manager, its loads and its readers. -/
def swaps (sched : List (Action ι ρ)) : List (HotSwap.Action ι ρ) :=
  sched.filterMap fun
    | .swap a => some a
    | _ => none

/-- A step is one of the swap protocol, or none. -/
theorem swap_step (a : Action ι ρ) :
    (step rx paths libs rulesets a s).swap
      = Interleaving.run (HotSwap.step paths libs) (swaps [a]) s.swap := by
  cases a with
  | swap a => rfl
  | prepare r =>
    unfold step
    dsimp only
    cases s.loaded paths libs r with
    | none => rfl
    | some p => rfl
  | setVar r id value => rfl
  | packet r raw =>
    unfold step
    dsimp only
    cases s.loaded paths libs r with
    | none => rfl
    | some p =>
      cases s.contexts r with
      | none => rfl
      | some ctx => rfl

/-- **Workers do not get in the way of the manager.** -/
theorem swap_run (sched : List (Action ι ρ)) (s : State ι ρ) :
    (Interleaving.run (step rx paths libs rulesets) sched s).swap
      = Interleaving.run (HotSwap.step paths libs) (swaps sched) s.swap := by
  induction sched generalizing s with
  | nil => rfl
  | cons a rest ih =>
    have hswaps : swaps (a :: rest) = swaps [a] ++ swaps rest := by
      unfold swaps
      rw [← List.filterMap_append, List.singleton_append]
    rw [Interleaving.run_cons, ih, swap_step, hswaps, Interleaving.run_append]

/-- **What is so of the swap protocol** is so here. -/
theorem sound_swap_run (sched : List (Action ι ρ)) : HotSwap.Sound paths libs
    (Interleaving.run (step rx paths libs rulesets) sched (start : State ι ρ)).swap := by
  rw [swap_run]
  exact HotSwap.sound_run (swaps sched)

/-! ## Packets -/

/-- A packet is handled by the ruleset of the module. -/
theorem handled_packet {i : ι} {m : LoadedModule} {ctx : HmrContext}
    (hm : s.loaded paths libs r = some (i, m)) (hctx : s.contexts r = some ctx) (raw : Bytes) :
    (step rx paths libs rulesets (.packet r raw) s).handled
      = s.handled ++ [(r, some (Interpreter.process rx (rulesets i) ctx raw).1)] := by
  unfold step
  dsimp only
  rw [hm, hctx]
  dsimp only
  rw [IrGenerator.process_generateIr]

section
variable (rx paths libs rulesets)

/-- **One step, with interpreters** in place of modules. -/
def interpretedStep (a : Action ι ρ) (s : State ι ρ) : State ι ρ :=
  match a with
  | .swap a => step rx paths libs rulesets (.swap a) s
  | .prepare r =>
    match s.loaded paths libs r with
    | some (i, _) => s.setContext r (makeContext rx (Interpreter.info (rulesets i)))
    | none => s
  | .setVar r id value => step rx paths libs rulesets (.setVar r id value) s
  | .packet r raw =>
    match s.loaded paths libs r, s.contexts r with
    | some (i, _), some ctx =>
      let out := Interpreter.process rx (rulesets i) ctx raw
      { s.setContext r (some out.2) with handled := s.handled ++ [(r, some out.1)] }
    | _, _ => s

end

/-- **A step is the same with interpreters.** -/
theorem step_interpreted (hcompiled : Compiled libs rulesets) (a : Action ι ρ) (s : State ι ρ) :
    step rx paths libs rulesets a s = interpretedStep rx paths libs rulesets a s := by
  cases a with
  | swap a => rfl
  | setVar r id value => rfl
  | prepare r =>
    unfold step interpretedStep
    dsimp only
    cases hm : s.loaded paths libs r with
    | none => rfl
    | some p =>
      obtain ⟨i, m⟩ := p
      dsimp only
      rw [hcompiled.info (State.loaded_eq hm).2]
  | packet r raw =>
    unfold step interpretedStep
    dsimp only
    cases s.loaded paths libs r with
    | none => rfl
    | some p =>
      obtain ⟨i, m⟩ := p
      cases s.contexts r with
      | none => rfl
      | some ctx =>
        dsimp only
        rw [IrGenerator.process_generateIr]

/-! ## Every run -/

section
variable (rx paths libs rulesets)

/-- **A host that runs compiled modules does what one with interpreters does**, in every
interleaving of loads, readers and packets: its workers have the same contexts throughout, and
make the same of their packets. -/
theorem run_interpreted (hcompiled : Compiled libs rulesets) (sched : List (Action ι ρ)) :
    Interleaving.run (step rx paths libs rulesets) sched (start : State ι ρ)
      = Interleaving.run (interpretedStep rx paths libs rulesets) sched start := by
  have hstep : step rx paths libs rulesets
      = (interpretedStep rx paths libs rulesets : Action ι ρ → State ι ρ → State ι ρ) := by
    funext a s
    exact step_interpreted hcompiled a s
  rw [hstep]

/-- **A reload does not change the ruleset under a worker**: whatever is loaded, dropped or
handled meanwhile, until the worker takes another snapshot or gives up its own, each of its
packets is handled by the ruleset that was current when it took it. -/
theorem run_serves_snapshot (hcompiled : Compiled libs rulesets) (before after : List (Action ι ρ))
    (r : ρ) {i : ι}
    (hafter : ∀ a ∈ after, a ≠ .swap (.acquire r) ∧ a ≠ .swap (.release r))
    (halive : (Interleaving.run (step rx paths libs rulesets) before
      (start : State ι ρ)).swap.destroyed = false)
    (hcurrent : (Interleaving.run (step rx paths libs rulesets) before
      (start : State ι ρ)).swap.pool.target .current = some i) :
    let s : State ι ρ := Interleaving.run (step rx paths libs rulesets)
      (before ++ .swap (.acquire r) :: after) start
    ∀ ctx, s.contexts r = some ctx → ∀ raw,
      (step rx paths libs rulesets (.packet r raw) s).handled
        = s.handled ++ [(r, some (Interpreter.process rx (rulesets i) ctx raw).1)] := by
  intro s ctx hctx raw
  -- of the actions behind, only those on modules can move the snapshot
  have htarget : s.swap.pool.target (.snapshot r) = some i := by
    have hswaps : ∀ a ∈ swaps after, a ≠ .acquire r ∧ a ≠ .release r := by
      intro a ha
      obtain ⟨b, hb, hab⟩ := List.mem_filterMap.mp ha
      cases b with
      | swap b =>
        obtain rfl := Option.some.inj hab
        exact ⟨fun h => (hafter _ hb).1 (congrArg _ h), fun h => (hafter _ hb).2 (congrArg _ h)⟩
      | _ => cases hab
    have hrun : s.swap = Interleaving.run (HotSwap.step paths libs) (.acquire r :: swaps after)
        (Interleaving.run (step rx paths libs rulesets) before start).swap := by
      show (Interleaving.run (step rx paths libs rulesets)
        (before ++ Action.swap (.acquire r) :: after) start).swap = _
      rw [Interleaving.run_append, swap_run]
      rfl
    rw [hrun]
    exact HotSwap.target_snapshot_acquire _ hswaps halive hcurrent
  obtain ⟨j, m, hm, -⟩ := fitting_run hcompiled _ r ctx hctx
  obtain rfl : j = i := Option.some.inj ((State.loaded_eq hm).1.symm.trans htarget)
  exact handled_packet hm hctx raw

end

/-! ### A worker and a reload -/

/-- A ruleset that drops a header, and one without rules. -/
def versions (i : Bool) : Ruleset :=
  if i then {} else
    { headerRules := [{ headerName := txt "Server", action := .deleteHeader }] }

/-- The libraries of their modules. -/
def compiled (i : Bool) : Except (Option Bytes) Exports :=
  .ok ⟨i.toNat, some i.toNat, some (hmrAbiVersion, (generateIr (versions i)).hmrModuleInfo)⟩

/-- They are. -/
theorem compiled_compiled : Compiled compiled versions := by
  intro i x version info hx hinfo
  obtain rfl := Except.ok.inj hx
  exact (congrArg Prod.snd (Option.some.inj hinfo)).symm

/-- The first module is loaded. -/
def loading : List (Action Bool Unit) := List.replicate 7 (.swap (.load false))

/-- The worker makes its context, and handles a packet when the other module has been loaded. -/
def reloading : List (Action Bool Unit) :=
  .prepare () :: List.replicate 7 (.swap (.load true)) ++ [.packet () (txt "A b\nServer: c\n\n")]

/-- It is handled by the ruleset of the first module. -/
theorem run_serves_snapshot_reloading :
    let s : State Bool Unit := Interleaving.run (step .blind (fun _ => []) compiled versions)
      (loading ++ .swap (.acquire ()) :: reloading) start
    ∀ ctx, s.contexts () = some ctx → ∀ raw,
      (step .blind (fun _ => []) compiled versions (.packet () raw) s).handled
        = s.handled ++ [((), some (Interpreter.process .blind (versions false) ctx raw).1)] :=
  run_serves_snapshot .blind (fun _ => []) compiled versions compiled_compiled loading reloading ()
    (by simp [reloading]) (by rfl) (by rfl)

/-- So it would be by an interpreter. -/
theorem run_interpreted_reloading :
    Interleaving.run (step .blind (fun _ => []) compiled versions)
        (loading ++ .swap (.acquire ()) :: reloading) (start : State Bool Unit)
      = Interleaving.run (interpretedStep .blind (fun _ => []) compiled versions)
        (loading ++ .swap (.acquire ()) :: reloading) start :=
  run_interpreted .blind (fun _ => []) compiled versions compiled_compiled _

end Serving

end Hmr
