import Hmr.Lowers

/-!
# The scan leaves nothing to enter

The interpreter scans a ruleset before it serves packets: it walks through the rules once
without a message, and enters into its tables what `apply` will look up there – a regex, a
slot, a string in the pool. Afterwards the tables are frozen. A lookup that does not find
its entry would put it in if the tables were thawed, and has no answer now that they are
not.

The tables only grow (`Tables.Le`), so that it is enough to go through the two walks side
by side: the scan enters a construct in whatever tables it comes with, and from then on
the walk of `apply` finds it (`Interpreter.Covers`). The scan does not go through a rule
the same way as `apply`, though. It has no message, so it passes every guard, or else
would leave out what is behind it; and it goes into the rules of a header and of its
elements whether or not they are left early. So for every part of a rule it is shown that
what the walk of `apply` may do there is covered by what the scan does in any case
(`Covers.guarded`, `Covers.stop`).

That a lookup finds its entry is read off thawed tables, where one that does not would put
its entry in. So a walk finds all it looks up if the tables it leaves are the tables it
started with, frozen or not (`Interpreter.Still`).

There is one guard the scan does not pass by itself: it scans with the empty method, which
a rule for some methods does not accept unless it accepts all of them. The source takes
the length of a method as the test, and the length is a 32-bit number, so a method of `2 ^
32` bytes is taken for an empty one (`not_preScan_complete`).
-/

namespace Hmr

/-- Tables with every entry of others. -/
structure Tables.Le (t t' : Tables) : Prop where
  regexes : t.regexes ⊆ t'.regexes
  slots : t.slots ⊆ t'.slots
  literalPool : t.literalPool ⊆ t'.literalPool

/-- Tables, frozen or thawed. -/
def Tables.setFrozen (t : Tables) (frozen : Bool) : Tables := { t with frozen := frozen }

namespace Tables

/-- Tables have their own entries. -/
theorem Le.refl (t : Tables) : t.Le t := ⟨fun _ h => h, fun _ h => h, fun _ h => h⟩

/-- Tables that have grown twice have grown. -/
theorem Le.trans {t₁ t₂ t₃ : Tables} (h : t₁.Le t₂) (h' : t₂.Le t₃) : t₁.Le t₃ :=
  ⟨fun _ hx => h'.regexes (h.regexes hx), fun _ hx => h'.slots (h.slots hx),
    fun _ hx => h'.literalPool (h.literalPool hx)⟩

end Tables

namespace Interpreter

variable {α β γ δ : Type}

/-! ## Walks that change no tables -/

/-- **A walk that finds all it looks up**: it leaves the tables alone, frozen or
thawed, and its results satisfy `R`. -/
def Still (t : Tables) (y : InterpM β) (R : β → Prop) : Prop :=
  ∃ p : RtProg Nat Nat { b // R b }, ∀ frozen,
    y (t.setFrozen frozen) = p >>= fun b => pure (b.1, t.setFrozen frozen)

section
variable {t : Tables} {R : β → Prop} {R' : δ → Prop}

/-- A walk that is over has looked up nothing. -/
theorem still_pure {b : β} (h : R b) : Still t (pure b) R :=
  ⟨pure ⟨b, h⟩, fun _ => rfl⟩

/-- **In sequence**: the second walk comes with the tables the first one started with. -/
theorem Still.bind {y : InterpM β} {g : β → InterpM δ} (hy : Still t y R)
    (hg : ∀ b, R b → Still t (g b) R') : Still t (y >>= g) R' := by
  obtain ⟨p, hp⟩ := hy
  choose q hq using fun b : { b // R b } => hg b.1 b.2
  refine ⟨p >>= q, fun frozen => ?_⟩
  show (y (t.setFrozen frozen) >>= fun r => g r.1 r.2) = _
  rw [hp, bind_assoc, bind_assoc]
  exact congrArg (p >>= ·) (funext fun b => hq b frozen)

/-- A call of the runtime does not get to the tables. -/
theorem still_rt {i : RetTy} (c : RtCall Bytes Nat Nat i) : Still t (rt c) (fun _ => True) :=
  ⟨Prog.perform c >>= fun a => pure ⟨a, trivial⟩, fun _ => rfl⟩

/-- What is left of a walk that found what it looked up. -/
theorem Still.tables {y : InterpM β} (h : Still t y R) {b : β} {t' : Tables}
    (hy : y (t.setFrozen false) = pure (b, t')) : t' = t.setFrozen false := by
  obtain ⟨p, hp⟩ := h
  have heq := hy.symm.trans (hp false)
  cases p with
  | pure a => exact congrArg Prod.snd (Prog.pure.inj heq)
  | call c k => cases heq

/-- **A regex is found exactly if it is in the table.** -/
theorem still_addRegex {pattern : Bytes} {ci : Bool} :
    Still t (addRegex pattern ci) (fun _ => True) ↔ (pattern, ci) ∈ t.regexes := by
  constructor
  · intro h
    by_contra hnot
    have hmiss : addRegex pattern ci (t.setFrozen false)
        = pure (t.regexes.length, { t.setFrozen false with
            regexes := t.regexes ++ [(pattern, ci)] }) := by
      have hnone : (t.setFrozen false).regexes.idxOf? (pattern, ci) = none :=
        idxOf?_eq_none.mpr hnot
      rw [addRegex, hnone]
      rfl
    have := congrArg (·.regexes.length) (h.tables hmiss)
    simp [Tables.setFrozen] at this
  · intro h
    obtain ⟨i, hi⟩ := Option.isSome_iff_exists.mp (List.isSome_idxOf?.mpr h)
    refine ⟨pure ⟨i, trivial⟩, fun frozen => ?_⟩
    have hfound : (t.setFrozen frozen).regexes.idxOf? (pattern, ci) = some i := hi
    rw [addRegex, hfound]
    rfl

/-- **A slot is found exactly if it is in the table.** -/
theorem still_slotFor {name : Bytes} :
    Still t (slotFor name) (fun _ => True) ↔ name ∈ t.slots := by
  constructor
  · intro h
    by_contra hnot
    have hmiss : slotFor name (t.setFrozen false)
        = pure (t.slots.length, { t.setFrozen false with slots := t.slots ++ [name] }) := by
      have hnone : (t.setFrozen false).slots.idxOf? name = none := idxOf?_eq_none.mpr hnot
      rw [slotFor, hnone]
      rfl
    have := congrArg (·.slots.length) (h.tables hmiss)
    simp [Tables.setFrozen] at this
  · intro h
    obtain ⟨i, hi⟩ := Option.isSome_iff_exists.mp (List.isSome_idxOf?.mpr h)
    refine ⟨pure ⟨i, trivial⟩, fun frozen => ?_⟩
    have hfound : (t.setFrozen frozen).slots.idxOf? name = some i := hi
    rw [slotFor, hfound]
    rfl

/-- A string that is in the pool. -/
theorem intern_of_mem {s : Bytes} (h : s ∈ t.literalPool) : intern s t = pure (clip s, t) :=
  congrArg (fun t' => pure (clip s, t')) (if_pos h)

/-- A string that is not is appended. -/
theorem intern_of_not_mem {s : Bytes} (h : s ∉ t.literalPool) :
    intern s t = pure (clip s, { t with literalPool := t.literalPool ++ [s] }) :=
  congrArg (fun t' => pure (clip s, t')) (if_neg h)

/-- **A string is found exactly if it is in the pool.** -/
theorem still_intern {s : Bytes} :
    Still t (intern s) (fun _ => True) ↔ s ∈ t.literalPool := by
  constructor
  · intro h
    by_contra hnot
    have := congrArg (·.literalPool.length)
      (h.tables (intern_of_not_mem (t := t.setFrozen false) hnot))
    simp [Tables.setFrozen] at this
  · intro h
    exact ⟨pure ⟨clip s, trivial⟩, fun frozen => intern_of_mem (t := t.setFrozen frozen) h⟩

end

/-! ## The scan, and what it covers -/

/-- **A walk in the scan enters into the tables**, and takes nothing out; its result
satisfies `Q`. -/
def Grows (x : InterpM α) (Q : α → Prop) : Prop :=
  ∀ t : Tables, t.frozen = false →
    t.Le ((x t).run nullRuntime ()).1.2 ∧ ((x t).run nullRuntime ()).1.2.frozen = false
      ∧ Q ((x t).run nullRuntime ()).1.1

/-- **A walk in the scan covers another**: what it leaves has every entry the other
looks up, and keeps it as the tables grow. -/
structure Covers (x : InterpM α) (y : InterpM β) (Q : α → Prop) (R : β → Prop) : Prop where
  grows : Grows x Q
  still : ∀ t : Tables, t.frozen = false → ∀ t', ((x t).run nullRuntime ()).1.2.Le t' →
    Still t' y R

section
variable {x : InterpM α} {y : InterpM β} {f : α → InterpM γ} {g : β → InterpM δ}
  {Q : α → Prop} {R : β → Prop} {Q' : γ → Prop} {R' : δ → Prop}

/-- A run of two walks is a run of the first and one of the second, from where the first one
ends. -/
theorem run_walk_bind {σ : Type} (handler : Handler (RtCall Bytes Nat Nat) RetTy.den σ)
    (x : InterpM α) (f : α → InterpM γ) (t : Tables) (s : σ) :
    ((x >>= f) t).run handler s
      = (f ((x t).run handler s).1.1 ((x t).run handler s).1.2).run handler
          ((x t).run handler s).2 :=
  Prog.run_bind _ _ _ _

/-- Scans in sequence. -/
theorem Grows.bind (hx : Grows x Q) (hf : ∀ a, Q a → Grows (f a) Q') : Grows (x >>= f) Q' := by
  intro t ht
  obtain ⟨hle, hfr, hq⟩ := hx t ht
  obtain ⟨hle', hfr', hq'⟩ := hf _ hq _ hfr
  rw [run_walk_bind]
  exact ⟨hle.trans hle', hfr', hq'⟩

/-- Two walks that are over. -/
theorem covers_pure {a : α} {b : β} (ha : Q a) (hb : R b) : Covers (pure a) (pure b) Q R :=
  ⟨fun t ht => ⟨.refl t, ht, ha⟩, fun _ _ _ _ => still_pure hb⟩

/-- A walk that finds what it looks up has a result. -/
theorem Still.exists {t : Tables} (h : Still t y R) : ∃ b, R b := by
  obtain ⟨p, -⟩ := h
  exact ⟨_, (p.run nullRuntime ()).1.2⟩

/-- **In sequence.** -/
theorem Covers.bind (hxy : Covers x y Q R)
    (hfg : ∀ a b, Q a → R b → Covers (f a) (g b) Q' R') :
    Covers (x >>= f) (y >>= g) Q' R' where
  grows := by
    obtain ⟨b, hb⟩ := (hxy.still {} rfl _ (.refl _)).exists
    exact hxy.grows.bind fun a ha => (hfg a b ha hb).grows
  still := by
    intro t ht t' hle
    obtain ⟨-, hfr, hq⟩ := hxy.grows t ht
    rw [run_walk_bind] at hle
    refine Still.bind (hxy.still t ht t' ?_) fun b hb => (hfg _ b hq hb).still _ hfr t' hle
    exact ((hfg _ _ hq (hxy.still t ht _ (.refl _)).exists.choose_spec).grows _ hfr).1.trans hle

/-- A walk that gives up here. -/
theorem Covers.stop (hxy : Covers x y Q R) {b : δ} (hb : R' b) : Covers x (pure b) Q R' :=
  ⟨hxy.grows, fun _ _ _ _ => still_pure hb⟩

/-- A part of the scan that the other walk leaves out. -/
theorem Covers.after (hx : Grows x Q) (hf : ∀ a, Q a → Covers (f a) y Q' R) :
    Covers (x >>= f) y Q' R where
  grows := hx.bind fun a ha => (hf a ha).grows
  still := by
    intro t ht t' hle
    obtain ⟨-, hfr, hq⟩ := hx t ht
    rw [run_walk_bind] at hle
    exact (hf _ hq).still _ hfr t' hle

/-- What the other walk finds out for itself. -/
theorem Covers.before (hy : ∀ t, Still t y R) (hg : ∀ b, R b → Covers x (g b) Q R') :
    Covers x (y >>= g) Q R' where
  grows := by
    obtain ⟨b, hb⟩ := (hy {}).exists
    exact (hg b hb).grows
  still := fun t ht t' hle => (hy t').bind fun b hb => (hg b hb).still t ht t' hle

end

/-- A call of the runtime, in each walk its own. -/
theorem covers_rt {i j : RetTy} {c : RtCall Bytes Nat Nat i} (c' : RtCall Bytes Nat Nat j) :
    Covers (rt c) (rt c') (fun _ => True) (fun _ => True) :=
  ⟨fun t ht => ⟨.refl t, ht, trivial⟩, fun _ _ _ _ => still_rt c'⟩

/-- A string that the scan has interned is found. -/
theorem covers_intern (s : Bytes) :
    Covers (intern s) (intern s) (fun _ => True) (fun _ => True) where
  grows := by
    intro t ht
    unfold intern
    split
    · exact ⟨.refl t, ht, trivial⟩
    · exact ⟨⟨fun _ h => h, fun _ h => h, fun _ h => List.mem_append_left _ h⟩, ht, trivial⟩
  still := by
    intro t ht t' hle
    refine still_intern.mpr (hle.literalPool ?_)
    unfold intern
    split
    · exact ‹_›
    · exact List.mem_append_right _ (List.mem_singleton_self s)

/-- A slot that the scan has given out is found. -/
theorem covers_slotFor (name : Bytes) :
    Covers (slotFor name) (slotFor name) (fun _ => True) (fun _ => True) where
  grows := by
    intro t ht
    unfold slotFor
    split
    · exact ⟨.refl t, ht, trivial⟩
    · rw [if_neg (by rw [ht]; exact Bool.false_ne_true)]
      exact ⟨⟨fun _ h => h, fun _ h => List.mem_append_left _ h, fun _ h => h⟩, ht, trivial⟩
  still := by
    intro t ht t' hle
    refine still_slotFor.mpr (hle.slots ?_)
    unfold slotFor
    split
    · rename_i i hi
      exact List.isSome_idxOf?.mp (Option.isSome_of_eq_some hi)
    · rw [if_neg (by rw [ht]; exact Bool.false_ne_true)]
      exact List.mem_append_right _ (List.mem_singleton_self name)

/-- A regex that the scan has compiled is found. -/
theorem covers_addRegex (pattern : Bytes) (ci : Bool) :
    Covers (addRegex pattern ci) (addRegex pattern ci) (fun _ => True) (fun _ => True) where
  grows := by
    intro t ht
    unfold addRegex
    split
    · exact ⟨.refl t, ht, trivial⟩
    · rw [if_neg (by rw [ht]; exact Bool.false_ne_true)]
      exact ⟨⟨fun _ h => List.mem_append_left _ h, fun _ h => h, fun _ h => h⟩, ht, trivial⟩
  still := by
    intro t ht t' hle
    refine still_addRegex.mpr (hle.regexes ?_)
    unfold addRegex
    split
    · rename_i i hi
      exact List.isSome_idxOf?.mp (Option.isSome_of_eq_some hi)
    · rw [if_neg (by rw [ht]; exact Bool.false_ne_true)]
      exact List.mem_append_right _ (List.mem_singleton_self _)

/-! ## The two walks side by side -/

/-- The slot of a reference goes by its base name in both walks. -/
theorem covers_slotForRef (path : Bytes) (index : Int) :
    Covers (slotForRef path index) (slotForRef path index) (fun _ => True) (fun _ => True) :=
  covers_slotFor _

/-- **A reference**: its kind is that of the construct, and not of the message. -/
theorem covers_evalRef (r : ValueRef) :
    Covers (evalRef r) (evalRef r) (fun _ => True) (fun _ => True) := by
  unfold evalRef
  cases r.kind with
  | «variable» => exact covers_rt _
  | capture => exact covers_rt _
  | ruleRef =>
    refine (covers_slotForRef _ _).bind fun slot slot' _ _ => ?_
    exact covers_rt _

/-- A segment of a value, which is a string or a reference. -/
theorem covers_appendSegment (s : ValueSegment) :
    Covers (appendSegment s) (appendSegment s) (fun _ => True) (fun _ => True) := by
  cases s with
  | literal text =>
    unfold appendSegment
    dsimp only
    split
    · exact covers_pure trivial trivial
    · refine (covers_intern text).bind fun lit lit' _ _ => ?_
      exact covers_rt _
  | ref r =>
    unfold appendSegment
    dsimp only
    cases r.kind with
    | «variable» => exact covers_rt _
    | capture => exact covers_rt _
    | ruleRef =>
      refine (covers_slotForRef _ _).bind fun slot slot' _ _ => ?_
      exact covers_rt _

/-- The segments, one after the other. -/
theorem covers_appendSegments (segs : List ValueSegment) :
    Covers (appendSegments segs) (appendSegments segs) (fun _ => True) (fun _ => True) := by
  induction segs with
  | nil => exact covers_pure trivial trivial
  | cons s segs ih => exact (covers_appendSegment s).bind fun _ _ _ _ => ih

/-- A value is a constant, a reference, or segments that are put together. -/
theorem covers_evalValue (v : Value) :
    Covers (evalValue v) (evalValue v) (fun _ => True) (fun _ => True) := by
  unfold evalValue
  split
  · exact covers_intern []
  · split
    · exact covers_intern v.literalText
    · split
      · exact covers_evalRef _
      · refine (covers_rt _).bind fun _ _ _ _ => ?_
        refine (covers_appendSegments _).bind fun _ _ _ _ => ?_
        exact covers_rt _

/-- The text of a log or a reject, and what is done with it. -/
theorem covers_message {γ δ : Type} {Q : γ → Prop} {R : δ → Prop} {f : Bytes → InterpM γ}
    {g : Bytes → InterpM δ} (name : Bytes) (v : Value) (hfg : ∀ a b, Covers (f a) (g b) Q R) :
    Covers (if v.isEmpty then intern name >>= f else evalValue v >>= f)
      (if v.isEmpty then intern name >>= g else evalValue v >>= g) Q R := by
  split
  · exact (covers_intern name).bind fun a b _ _ => hfg a b
  · exact (covers_evalValue v).bind fun a b _ _ => hfg a b

/-- **The guard by match-value.** What is compared is not the same in the two walks, but the
match-value is. -/
theorem covers_evalMatchGuard (cmp : ComparisonType) (mvt : MatchValType) (mv : Value)
    (subject subject' : Bytes) :
    Covers (evalMatchGuard cmp mvt mv subject) (evalMatchGuard cmp mvt mv subject')
      (fun _ => True) (fun _ => True) := by
  unfold evalMatchGuard
  split
  · exact covers_pure trivial trivial
  · split
    · exact covers_pure trivial trivial
    · have hmatch : ∀ (q q' : HmrMatchType × Nat) (pattern : Bytes),
          Covers
            (do
              let pat ← intern pattern
              let cond ← rt (.hmrMatch q.1 subject pat q.2)
              pure (if mv.negated then !cond else cond))
            (do
              let pat ← intern pattern
              let cond ← rt (.hmrMatch q'.1 subject' pat q'.2)
              pure (if mv.negated then !cond else cond))
            (fun _ => True) (fun _ => True) := by
        intro q q' pattern
        refine (covers_intern pattern).bind fun _ _ _ _ => ?_
        exact (covers_rt _).bind fun _ _ _ _ => covers_pure trivial trivial
      dsimp only
      split
      · refine (covers_addRegex _ _).bind fun id id' _ _ => ?_
        exact hmatch (.regex, id) (.regex, id') _
      · exact hmatch (literalMatchType cmp mvt _, 0) (literalMatchType cmp mvt _, 0) _

/-- The slots of the groups of a regex, counted down. -/
theorem covers_storeGroups (rule : Bytes) (n g : Nat) :
    Covers (storeGroups rule n g) (storeGroups rule n g) (fun _ => True) (fun _ => True) := by
  induction n generalizing g with
  | zero => exact covers_pure trivial trivial
  | succ n ih =>
    refine (covers_slotFor _).bind fun _ _ _ _ => ?_
    refine (covers_rt _).bind fun _ _ _ _ => ?_
    exact (covers_rt _).bind fun _ _ _ _ => ih (g + 1)

/-- **The action of a header rule**: both walks end with a reject. -/
theorem covers_runHeaderAction (hr : HeaderRule) (idx : Nat) (hv hv' : Option Bytes) :
    Covers (runHeaderAction hr idx hv) (runHeaderAction hr idx hv')
      (fun t => t = decide (hr.action = .reject)) (fun t => t = decide (hr.action = .reject)) := by
  unfold runHeaderAction
  refine (covers_intern _).bind fun name name' _ _ => ?_
  have hset : Covers
      (if !hr.newValue.isEmpty && hr.elementRules.isEmpty then do
        let v ← evalValue hr.newValue
        rt (.setHeader name v)
        pure false
      else pure false)
      (if !hr.newValue.isEmpty && hr.elementRules.isEmpty then do
        let v ← evalValue hr.newValue
        rt (.setHeader name' v)
        pure false
      else pure false)
      (fun t => t = false) (fun t => t = false) := by
    split
    · refine (covers_evalValue _).bind fun _ _ _ _ => ?_
      exact (covers_rt _).bind fun _ _ _ _ => covers_pure rfl rfl
    · exact covers_pure rfl rfl
  -- Both walks branch on the action of the rule, which is not of the message.
  cases ha : hr.action with
  | add =>
    refine (covers_evalValue _).bind fun _ _ _ _ => ?_
    exact (covers_rt _).bind fun _ _ _ _ => covers_pure rfl rfl
  | replace => exact hset
  | manipulate => exact hset
  | store =>
    dsimp only
    split
    · exact (covers_storeGroups _ _ _).bind fun _ _ _ _ => covers_pure rfl rfl
    · refine (covers_slotFor _).bind fun slot slot' _ _ => ?_
      have hput : ∀ v v', Covers
          (do rt (.store slot v); pure false) (do rt (.store slot' v'); pure false)
          (fun t => t = false) (fun t => t = false) :=
        fun _ _ => (covers_rt _).bind fun _ _ _ _ => covers_pure rfl rfl
      -- Where a walk has not fetched the header yet, it does so now; the slot is the same.
      cases hv with
      | some v =>
        cases hv' with
        | some v' => exact hput v v'
        | none => exact Covers.before (fun _ => still_rt _) fun v' _ => hput v v'
      | none =>
        cases hv' with
        | some v' => exact Covers.after (covers_rt (.getHeader name)).grows fun v _ => hput v v'
        | none => exact (covers_rt _).bind fun v v' _ _ => hput v v'
  | log =>
    exact covers_message _ _ fun _ _ => (covers_rt _).bind fun _ _ _ _ => covers_pure rfl rfl
  | reject =>
    exact covers_message _ _ fun _ _ => (covers_rt _).bind fun _ _ _ _ => covers_pure rfl rfl
  | delete => exact (covers_rt _).bind fun _ _ _ _ => covers_pure rfl rfl
  | deleteHeader => exact (covers_rt _).bind fun _ _ _ _ => covers_pure rfl rfl
  | _ => exact covers_pure rfl rfl

/-- **The action of an element rule.** The scan goes on whatever has been done. -/
theorem covers_runElementAction (hr : HeaderRule) (er : ElementRule) (name name' : Bytes)
    (elem : HmrUriElement) (hv ev hv' ev' : Bytes) :
    Covers (runElementAction hr er name elem hv ev true)
      (runElementAction hr er name' elem hv' ev' false) (fun f => f = .continue)
      (fun _ => True) := by
  have hset : ∀ v v', Covers
      (do rt (.setHeader name v); pure Flow.continue)
      (do rt (.setHeader name' v'); pure Flow.continue)
      (fun f => f = .continue) (fun _ => True) :=
    fun _ _ => (covers_rt _).bind fun _ _ _ _ => covers_pure rfl trivial
  unfold runElementAction
  cases er.action with
  | replace =>
    refine (covers_evalValue _).bind fun nv nv' _ _ => ?_
    split
    · exact hset nv nv'
    · exact (covers_rt _).bind fun v v' _ _ => hset v v'
  | deleteElement =>
    dsimp only
    split
    · exact (covers_rt _).bind fun _ _ _ _ => covers_pure rfl trivial
    · refine (covers_intern _).bind fun empty empty' _ _ => ?_
      exact (covers_rt _).bind fun v v' _ _ => hset v v'
  | store =>
    refine (covers_slotFor _).bind fun _ _ _ _ => ?_
    exact (covers_rt _).bind fun _ _ _ _ => covers_pure rfl trivial
  | reject =>
    exact covers_message _ _ fun _ _ => (covers_rt _).bind fun _ _ _ _ => covers_pure rfl trivial
  | _ => exact covers_pure rfl trivial

/-- An element rule on its value, and what comes after it. In the scan it is entered
whether its guard holds or not. -/
theorem covers_runElement (hr : HeaderRule) (er : ElementRule) (name name' : Bytes)
    (elem : HmrUriElement) (hv ev hv' ev' : Bytes) {next next' : InterpM Flow}
    (hnext : Covers next next' (fun _ => True) (fun _ => True)) :
    Covers
      (do
        let ok ← evalMatchGuard er.comparison er.matchValType er.matchValue ev
        if true || ok then
          match ← runElementAction hr er name elem hv ev true with
          | .rejected => pure .rejected
          | .continue => next
        else next)
      (do
        let ok ← evalMatchGuard er.comparison er.matchValType er.matchValue ev'
        if false || ok then
          match ← runElementAction hr er name' elem hv' ev' false with
          | .rejected => pure .rejected
          | .continue => next'
        else next')
      (fun _ => True) (fun _ => True) := by
  refine (covers_evalMatchGuard _ _ _ _ _).bind fun ok ok' _ _ => ?_
  rw [Bool.true_or, if_pos rfl, Bool.false_or]
  have haction := covers_runElementAction hr er name name' elem hv ev hv' ev'
  -- The scan does not look at the answer of its guard, so whichever way `apply` goes, the
  -- action is covered.
  cases ok' with
  | true =>
    rw [if_pos rfl]
    refine haction.bind fun f f' hf _ => ?_
    rw [hf]
    cases f' with
    | rejected => exact hnext.stop trivial
    | «continue» => exact hnext
  | false =>
    rw [if_neg Bool.false_ne_true]
    refine Covers.after haction.grows fun f hf => ?_
    rw [hf]
    exact hnext

/-- The element rules, which `apply` may leave before the last one and the scan may not. -/
theorem covers_runElements (hr : HeaderRule) (name name' : Bytes) (ers : List ElementRule) :
    Covers (runElements hr name true ers) (runElements hr name' false ers)
      (fun _ => True) (fun _ => True) := by
  induction ers with
  | nil => exact covers_pure trivial trivial
  | cons er ers ih =>
    rw [runElements, runElements]
    cases Lowering.uriElement er.type with
    | none => exact ih
    | some elem =>
      refine (covers_rt _).bind fun hv hv' _ _ => ?_
      dsimp only
      split
      · exact covers_runElement hr er name name' elem hv hv hv' hv' ih
      · exact (covers_rt _).bind fun ev ev' _ _ =>
          covers_runElement hr er name name' elem hv ev hv' ev' ih

/-- The element rules of a header. -/
theorem covers_runElementRules (hr : HeaderRule) :
    Covers (runElementRules hr true) (runElementRules hr false)
      (fun _ => True) (fun _ => True) :=
  (covers_intern _).bind fun name name' _ _ => covers_runElements hr name name' hr.elementRules

/-- The scan's method is empty, and accepts none that is not. -/
theorem covers_methodAccepted (method : Bytes) (acc : Bool) {methods : List Bytes}
    (h : ∀ m ∈ methods, clip m ≠ []) :
    Covers (methodAccepted [] false methods) (methodAccepted method acc methods)
      (fun _ => True) (fun _ => True) := by
  induction methods generalizing acc with
  | nil => exact covers_pure trivial trivial
  | cons m methods ih =>
    rw [List.forall_mem_cons] at h
    have hscan : Rt.strEq [] (clip m) true = false := by
      cases hm : clip m with
      | nil => exact absurd hm h.1
      | cons c rest => rfl
    rw [methodAccepted, methodAccepted, if_neg Bool.false_ne_true]
    have hintern : Covers (intern m) (intern m) (fun lit => lit = clip m) (fun _ => True) :=
      ⟨fun t ht => ⟨((covers_intern m).grows t ht).1, ((covers_intern m).grows t ht).2.1, rfl⟩,
        (covers_intern m).still⟩
    split
    · refine Covers.after hintern.grows fun lit hlit => ?_
      rw [hlit, hscan]
      exact ih true h.2
    · refine hintern.bind fun lit lit' hlit _ => ?_
      rw [hlit, hscan]
      exact ih _ h.2

/-- **The guard by method**, if none of the methods is taken for an empty one. -/
theorem covers_methodGuard (hr : HeaderRule) (h : ∀ m ∈ hr.methods, clip m ≠ []) :
    Covers (methodGuard hr true) (methodGuard hr false) (fun b => b = true)
      (fun _ => True) := by
  unfold methodGuard
  split
  · have hmethod : Covers (rt .getMethod) (rt .getMethod) (fun a => a = []) (fun _ => True) :=
      ⟨fun t ht => ⟨.refl t, ht, rfl⟩, fun _ _ _ _ => still_rt _⟩
    refine hmethod.bind fun method method' hm _ => ?_
    rw [hm]
    exact (covers_methodAccepted method' false h).bind fun _ _ _ _ => covers_pure rfl trivial
  · exact covers_pure rfl trivial

/-- The header is looked for under its name, which both walks intern. -/
theorem covers_fetchHeader (hr : HeaderRule) :
    Covers (fetchHeader hr) (fetchHeader hr) (fun _ => True) (fun _ => True) := by
  unfold fetchHeader
  split
  · refine (covers_intern _).bind fun _ _ _ _ => ?_
    exact (covers_rt _).bind fun _ _ _ _ => covers_pure trivial trivial
  · exact covers_pure trivial trivial

/-- The guard by match-value, which the scan passes. -/
theorem covers_matchValueGuard (hr : HeaderRule) (hv hv' : Option Bytes) :
    Covers (matchValueGuard hr hv true) (matchValueGuard hr hv' false) (fun b => b = true)
      (fun _ => True) := by
  unfold matchValueGuard
  split
  · exact covers_pure rfl trivial
  · exact (covers_evalMatchGuard _ _ _ _ _).bind fun _ _ _ _ => covers_pure rfl trivial

/-- The message-type guard looks nothing up. -/
theorem covers_msgTypeGuard (hr : HeaderRule) :
    Covers (msgTypeGuard hr true) (msgTypeGuard hr false) (fun b => b = true)
      (fun _ => True) where
  grows := fun t ht => ⟨.refl t, ht, rfl⟩
  still := by
    intro t _ t' _
    unfold msgTypeGuard
    rw [if_neg Bool.false_ne_true]
    cases hr.msgType with
    | request => exact still_rt _
    | reply => exact (still_rt _).bind fun _ _ => still_pure trivial
    | _ => exact still_pure trivial

/-- A guard that the scan passes and the other walk may not. -/
theorem Covers.guarded {x y : InterpM Flow} {g g' : InterpM Bool}
    (hg : Covers g g' (fun b => b = true) (fun _ => True))
    (hxy : Covers x y (fun _ => True) (fun _ => True)) :
    Covers (do if ← g then x else pure .continue) (do if ← g' then y else pure .continue)
      (fun _ => True) (fun _ => True) := by
  refine hg.bind fun b b' hb _ => ?_
  rw [hb, if_pos rfl]
  cases b' with
  | true => exact hxy
  | false => exact hxy.stop trivial

/-- **A rule**: its guards are passed in the scan, and may fail in the other walk. -/
theorem covers_runHeaderRule (hr : HeaderRule) (idx : Nat)
    (h : ∀ m ∈ hr.methods, clip m ≠ []) :
    Covers (runHeaderRule hr idx true) (runHeaderRule hr idx false)
      (fun _ => True) (fun _ => True) := by
  refine (covers_msgTypeGuard hr).guarded ((covers_methodGuard hr h).guarded ?_)
  refine (covers_fetchHeader hr).bind fun hv hv' _ _ => ?_
  refine (covers_matchValueGuard hr hv hv').guarded ?_
  refine (covers_runHeaderAction hr idx hv hv').bind fun t t' ht ht' => ?_
  rw [ht, ht']
  split
  · exact covers_pure trivial trivial
  · split
    · exact covers_pure trivial trivial
    · exact covers_runElementRules hr

/-- **The walk over the rules.** -/
theorem covers_walkFrom (idx : Nat) {hrs : List HeaderRule}
    (h : ∀ hr ∈ hrs, ∀ m ∈ hr.methods, clip m ≠ []) :
    Covers (walkFrom true idx hrs) (walkFrom false idx hrs) (fun _ => True) (fun _ => True) := by
  induction hrs generalizing idx with
  | nil => exact covers_pure trivial trivial
  | cons hr hrs ih =>
    rw [List.forall_mem_cons] at h
    refine (covers_runHeaderRule hr idx h.1).bind fun f f' _ _ => ?_
    have hrest := ih (idx + 1) h.2
    cases f' with
    | rejected => exact hrest.stop trivial
    | «continue» => exact hrest

/-- **A walk that finds all it looks up**, as a run: the tables are afterwards what
they were before, and it makes no difference whether they are frozen. -/
theorem Still.run {t : Tables} {y : InterpM β} {R : β → Prop} (h : Still t y R)
    {σ : Type} (handler : Handler (RtCall Bytes Nat Nat) RetTy.den σ) (s : σ) (frozen : Bool) :
    (y (t.setFrozen frozen)).run handler s
      = ((((Prod.fst <$> y t).run handler s).1, t.setFrozen frozen),
        ((Prod.fst <$> y t).run handler s).2) := by
  obtain ⟨p, hp⟩ := h
  have hself : y t = p >>= fun b => pure (b.1, t) := hp t.frozen
  rw [hp, hself, map_bind, Prog.run_bind, Prog.run_bind]
  rfl

/-- **The scan of a ruleset is complete**: for every message and every context, each
lookup of `apply` finds an entry, and the tables are the same after it as before. With
the tables thawed the run would be the same, so nothing is ever missing. -/
def PreScanComplete (rs : Ruleset) : Prop :=
  ∀ (rx : RegexEngine) (w : World) (frozen : Bool),
    (walk rs false ((tables rs).setFrozen frozen)).run (runtime rx) w
      = ((((apply rs).run (runtime rx) w).1, (tables rs).setFrozen frozen),
        ((apply rs).run (runtime rx) w).2)

/-- **The scan is complete**, if the methods of no rule list a text that is empty when
its length is cut to 32 bits. -/
theorem preScan_complete (rs : Ruleset)
    (h : ∀ hr ∈ rs.headerRules, ∀ m ∈ hr.methods, m.length % 2 ^ 32 ≠ 0) :
    PreScanComplete rs := by
  intro rx w frozen
  have hclip : ∀ hr ∈ rs.headerRules, ∀ m ∈ hr.methods, clip m ≠ [] := by
    intro hr hhr m hm hnil
    have hlen := congrArg List.length hnil
    rw [clip, List.length_take, Nat.min_eq_left (Nat.mod_le _ _)] at hlen
    exact h hr hhr m hm hlen
  have hcovers := covers_walkFrom 0 hclip
  have hstill : Still (tables rs) (walk rs false) (fun _ => True) :=
    hcovers.still {} rfl _ ⟨fun _ h => h, fun _ h => h, fun _ h => h⟩
  exact hstill.run (runtime rx) w frozen

/-- A ruleset with a rule for some methods. -/
def forMethods (methods : List Bytes) : Ruleset where
  headerRules := [{ methods := methods }]

/-- A rule for two methods is scanned. -/
theorem preScan_complete_forMethods :
    PreScanComplete (forMethods [txt "INVITE", txt "BYE"]) := by
  refine preScan_complete _ fun hr hhr m hm => ?_
  rw [List.mem_singleton.mp hhr] at hm
  revert m
  decide

/-- Where such a ruleset leaves the tables: if the rule fires, its header name is
interned. -/
theorem run_forMethods {methods : List Bytes} {scan b : Bool} {t t' : Tables} {σ : Type}
    {handler : Handler (RtCall Bytes Nat Nat) RetTy.den σ} {s s' : σ}
    (hguard : (methodGuard { methods := methods } scan t).run handler s = ((b, t'), s')) :
    ((walk (forMethods methods) scan t).run handler s).1.2
      = if b then (if [] ∈ t'.literalPool then t'
          else { t' with literalPool := t'.literalPool ++ [[]] }) else t' := by
  have hmsg : (msgTypeGuard { methods := methods } scan t).run handler s = ((true, t), s) := by
    cases scan with
    | true => rfl
    | false => rfl
  have hrule : ((runHeaderRule { methods := methods } 0 scan t).run handler s).1.2
      = if b then (if [] ∈ t'.literalPool then t'
          else { t' with literalPool := t'.literalPool ++ [[]] }) else t' := by
    rw [runHeaderRule, run_walk_bind, hmsg, if_pos rfl, run_walk_bind, hguard]
    cases b with
    | true => rfl
    | false => rfl
  have hwalk : ((walk (forMethods methods) scan t).run handler s).1.2
      = ((runHeaderRule { methods := methods } 0 scan t).run handler s).1.2 := by
    show ((walkFrom scan 0 [{ methods := methods }] t).run handler s).1.2 = _
    rw [walkFrom, run_walk_bind]
    split
    · rfl
    · rfl
  rw [hwalk, hrule]

/-- **A method of `2 ^ 32` bytes hides the next one from the scan**, which takes it for
the empty one. -/
theorem not_preScan_complete :
    ¬ ∀ rs : Ruleset, (∀ hr ∈ rs.headerRules, [] ∉ hr.methods) → PreScanComplete rs := by
  intro hall
  obtain ⟨m, hlen⟩ : ∃ m : Bytes, m.length = 2 ^ 32 :=
    ⟨List.replicate (2 ^ 32) 88, List.length_replicate⟩
  have hclip : clip m = [] := by
    rw [clip, hlen]
    rfl
  have hne : m ≠ [] := by
    rintro rfl
    cases hlen
  have hB : m ≠ txt "B" := by
    rintro rfl
    cases hlen
  have hscan : (methodGuard { methods := [m, txt "B"] } true {}).run nullRuntime ()
      = ((true, { literalPool := [m] }), ()) := by
    show ((methodAccepted [] false [m, txt "B"] {} >>= fun r => pure (true, r.2)).run
      nullRuntime ()) = _
    rw [methodAccepted, if_neg Bool.false_ne_true]
    show ((methodAccepted [] (Rt.strEq [] (clip m) true) [txt "B"] { literalPool := [m] }
      >>= fun r => pure (true, r.2)).run nullRuntime ()) = _
    rw [hclip]
    rfl
  have hpool : (tables (forMethods [m, txt "B"])).literalPool = [m, []] := by
    show ((walk (forMethods [m, txt "B"]) true {}).run nullRuntime ()).1.2.literalPool = _
    rw [run_forMethods hscan, if_pos rfl, if_neg (by simpa using hne.symm)]
    rfl
  -- a request with a method that neither of them is
  have hinm : m ∈ ((tables (forMethods [m, txt "B"])).setFrozen true).literalPool := by
    show m ∈ (tables (forMethods [m, txt "B"])).literalPool
    rw [hpool]
    exact List.mem_cons_self
  have hninB : txt "B" ∉ ((tables (forMethods [m, txt "B"])).setFrozen true).literalPool := by
    show txt "B" ∉ (tables (forMethods [m, txt "B"])).literalPool
    rw [hpool]
    simpa [hB.symm] using (by decide : txt "B" ≠ [])
  have hmethods : ∀ hr ∈ (forMethods [m, txt "B"]).headerRules, [] ∉ hr.methods := by
    intro hr hhr
    rw [List.mem_singleton.mp hhr]
    simpa [hne.symm] using (by decide : [] ≠ txt "B")
  have hsame := hall (forMethods [m, txt "B"]) hmethods .blind
    ⟨{ method := .ofBytes (txt "C") }, {}⟩ true
  generalize (tables (forMethods [m, txt "B"])).setFrozen true = t at hsame hinm hninB
  have hguard : (methodGuard { methods := [m, txt "B"] } false t).run (runtime .blind)
        ⟨{ method := .ofBytes (txt "C") }, {}⟩
      = ((false, { t with literalPool := t.literalPool ++ [txt "B"] }),
        ⟨{ method := .ofBytes (txt "C") }, {}⟩) := by
    have haccepted : methodAccepted (txt "C") false [m, txt "B"] t
        = pure (false, { t with literalPool := t.literalPool ++ [txt "B"] }) := by
      rw [methodAccepted, if_neg Bool.false_ne_true]
      show (intern m t >>= fun r =>
        methodAccepted (txt "C") (Rt.strEq (txt "C") r.1 true) [txt "B"] r.2) = _
      rw [intern_of_mem hinm, hclip]
      show (intern (txt "B") t >>= fun r =>
        methodAccepted (txt "C") (Rt.strEq (txt "C") r.1 true) [] r.2) = _
      rw [intern_of_not_mem hninB]
      rfl
    show ((methodAccepted (txt "C") false [m, txt "B"] t >>= fun r => pure (r.1, r.2)).run
      (runtime .blind) ⟨{ method := .ofBytes (txt "C") }, {}⟩) = _
    rw [haccepted]
    rfl
  have hpools := congrArg (fun r => r.1.2.literalPool.length) hsame
  dsimp only at hpools
  rw [run_forMethods hguard, if_neg Bool.false_ne_true, List.length_append] at hpools
  exact absurd hpools (by simp)

end Interpreter

end Hmr
