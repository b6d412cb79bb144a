import Hmr.Effects
import Hmr.Machine

/-!
# What slots are given

A slot holds what it was last given, and what it held before the packet until then. To say
so, a run is recorded: next to the world goes what each slot was given so far
(`Meaning.recording`), by the name of the slot. Recording changes nothing about the run
(`Meaning.run_recording`), so whatever is said of the recorded run is said of the run.

The record and the slots agree at every state of it (`Meaning.recorded_visits`): a slot
that was given something holds what it was given last, and one that was given nothing
holds what it held at the beginning. One call either stores, and then it changes the
record and the slot alike, or it leaves both (`Meaning.Recorded.call`).

A program can store under certain names only, those of its store rules and of its element
rules that store (`Meaning.program_stores`). So of a slot that nothing stores under, the
record has nothing to say (`Meaning.record_eq_none`), and the slot keeps what it held.
-/

namespace Hmr

/-- What a slot holds, by name. -/
def World.slot (w : World) (st : SymbolTable) (name : Bytes) : Bytes := w.ctx.slotsBy st name

namespace Meaning

/-- **What slots were last given**, since the record was begun. -/
abbrev Record : Type := Bytes → Option Bytes

/-- A slot is given a text. -/
def Record.note (r : Record) : ∀ i, SymCall i → Record
  | _, .store slot value => fun k => if k = slot then some (clip value) else r k
  | _, _ => r

/-- **A handler that keeps a record** of what slots are given. -/
def recording {σ : Type} (h : Handler SymCall RetTy.den σ) :
    Handler SymCall RetTy.den (σ × Record) :=
  fun i c s => ((h i c s.1).1, (h i c s.1).2, s.2.note i c)

/-- **A recorded run is the run.** -/
theorem run_recording {σ α : Type} (h : Handler SymCall RetTy.den σ) (p : SymProg α)
    (s : σ × Record) :
    (p.run (recording h) s).1 = (p.run h s.1).1
      ∧ (p.run (recording h) s).2.1 = (p.run h s.1).2 := by
  induction p generalizing s with
  | pure a => exact ⟨rfl, rfl⟩
  | call c k ih => exact ih _ _

/-! ## The record and the slots -/

/-- **The record says what the slots hold**: what they were given, or else what they
held when it was begun. -/
structure Recorded (st : SymbolTable) (w₀ : World) (s : World × Record) : Prop where
  inRange : st.slots.length ≤ s.1.ctx.slots.length
  slot : ∀ k, st.Has (.slot k) → s.1.slot st k = (s.2 k).getD (w₀.slot st k)
  clipped : ∀ k v, s.2 k = some v → clip v = v

section
variable {rx : RegexEngine} {st : SymbolTable} {w₀ : World}

/-- Where the record is begun, nothing has been given. -/
theorem recorded_self (w : World) (h : st.slots.length ≤ w.ctx.slots.length) :
    Recorded st w (w, fun _ => none) :=
  ⟨h, fun _ _ => rfl, fun _ _ hv => Option.noConfusion rfl (heq_of_eq hv)⟩

/-- A call that leaves the slots, and gives them nothing. -/
theorem Recorded.of_eq {s s' : World × Record} (h : Recorded st w₀ s)
    (hslots : s'.1.ctx.slots = s.1.ctx.slots) (hrecord : s'.2 = s.2) : Recorded st w₀ s' := by
  refine ⟨hslots ▸ h.inRange, fun k hk => ?_, hrecord ▸ h.clipped⟩
  rw [World.slot, HmrContext.slotsBy, hslots, hrecord]
  exact h.slot k hk

/-- A slot is given a text. -/
theorem Recorded.store {s : World × Record} (h : Recorded st w₀ s) {slot : Bytes}
    (hslot : st.Has (.slot slot)) (v : Bytes) :
    Recorded st w₀ (recording (st.runtime rx) _ (.store slot v) s).2 := by
  constructor
  · show st.slots.length ≤ (s.1.ctx.slots.set _ _).length
    rw [List.length_set]
    exact h.inRange
  · intro k hk
    show ((s.1.ctx.slots.set (st.slotId slot) (clip v))[st.slotId k]?).getD []
      = (if k = slot then some (clip v) else s.2 k).getD (w₀.slot st k)
    have hlt : st.slotId slot < s.1.ctx.slots.length :=
      (SymbolTable.slotId_lt hslot).trans_le h.inRange
    by_cases hslot' : k = slot
    · rw [if_pos hslot', hslot', List.getElem?_set_self hlt]
      rfl
    · have hne : st.slotId slot ≠ st.slotId k :=
        fun hid => hslot' (SymbolTable.slotId_inj hk hslot hid.symm)
      rw [if_neg hslot', List.getElem?_set_ne hne]
      exact h.slot k hk
  · intro k x hx
    have hnote : (if k = slot then some (clip v) else s.2 k) = some x := hx
    split at hnote
    · rw [← Option.some.inj hnote, clip_clip]
    · exact h.clipped k x hnote

/-- **One call keeps the record right.** -/
theorem Recorded.call {s : World × Record} (h : Recorded st w₀ s) {i : RetTy} {c : SymCall i}
    {ks : List TableKey} (hc : Uses ks i c) (hks : ∀ k ∈ ks, st.Has k) :
    Recorded st w₀ (recording (st.runtime rx) i c s).2 := by
  cases c with
  | store slot v => exact h.store (hks _ hc) v
  | hmrMatch t subject pattern key =>
    obtain ⟨_, _, hw⟩ := runtime_hmrMatch rx t subject pattern (st.regexId key) s.1
    exact h.of_eq (congrArg (·.ctx.slots) hw) rfl
  | valAppendVar id =>
    obtain ⟨_, hw⟩ := runtime_valAppendVar rx id s.1
    exact h.of_eq (congrArg (·.ctx.slots) hw) rfl
  | _ => exact h.of_eq rfl rfl

/-- **The record is right at every state of a run.** -/
theorem recorded_visits {ks : List TableKey} (hks : ∀ k ∈ ks, st.Has k) {α : Type}
    {p : SymProg α} (hp : UsesOnly ks p) (w : World)
    (hw : st.slots.length ≤ w.ctx.slots.length) :
    ∀ s ∈ p.visits (recording (st.runtime rx)) (w, fun _ => none), Recorded st w s := by
  have hh : Prog.Honours (recording (st.runtime rx)) (Recorded st w) (Uses ks)
      fun _ _ _ => True :=
    fun i c s hs hc => ⟨trivial, hs.call hc hks⟩
  exact (Prog.Meets.visits hh hp (recorded_self w hw)).2

end

/-! ## Where a program stores -/

/-- A call that stores under none but these names. -/
def Stores (names : Bytes → Prop) : ∀ i, SymCall i → Prop
  | _, .store slot _ => names slot
  | _, _ => True

/-- A program that stores under none but these names. -/
abbrev StoresOnly {α : Type} (names : Bytes → Prop) (p : SymProg α) : Prop :=
  p.Meets (Stores names) (fun _ _ _ => True) (fun _ => True)

/-- A record of a program that does not store under a name. -/
theorem record_eq_none {σ α : Type} {h : Handler SymCall RetTy.den σ} {names : Bytes → Prop}
    {p : SymProg α} (hp : StoresOnly names p) {name : Bytes} (hname : ¬ names name) (s : σ) :
    ∀ t ∈ p.visits (recording h) (s, fun _ => none), t.2 name = none := by
  have hh : Prog.Honours (recording h) (fun t => t.2 name = none) (Stores names)
      fun _ _ _ => True := by
    intro i c t ht hc
    refine ⟨trivial, ?_⟩
    cases c with
    | store slot v =>
      show (if name = slot then some (clip v) else t.2 name) = none
      rw [if_neg, ht]
      rintro rfl
      exact hname hc
    | _ => exact ht
  exact (Prog.Meets.visits hh hp rfl).2

/-- A slot name a rule's own `store` stores under. -/
def StoresUnder (idx : Nat) (hr : HeaderRule) (name : Bytes) : Prop :=
  hr.action = .store ∧ .slot name ∈ storeKeys idx hr

/-- A slot name an element rule stores under. -/
def ElementStoresUnder (hr : HeaderRule) (er : ElementRule) (name : Bytes) : Prop :=
  er.action = .store ∧ elementSlot hr er = name

instance (idx : Nat) (hr : HeaderRule) (name : Bytes) : Decidable (StoresUnder idx hr name) :=
  inferInstanceAs (Decidable (_ ∧ _))

instance (hr : HeaderRule) (er : ElementRule) (name : Bytes) :
    Decidable (ElementStoresUnder hr er name) :=
  inferInstanceAs (Decidable (_ ∧ _))

section
variable {names : Bytes → Prop}

/-- Making up a value stores nothing. -/
theorem Evaluates.stores : ∀ i (c : SymCall i), Evaluates i c → Stores names i c := by
  intro i c hc
  cases c <;> trivial

/-- The groups of a match are stored under the names of their slots, -/
theorem storeGroups_stores {name : Bytes} {n g : Nat}
    (h : ∀ slot, .slot slot ∈ groupKeys name n g → names slot) :
    StoresOnly names (storeGroups callProg (storeAt callProg name) n g) := by
  induction n generalizing g with
  | zero => trivial
  | succ n ih =>
    refine ⟨trivial, fun cap _ => ⟨h _ List.mem_cons_self, fun _ _ => ?_⟩⟩
    exact ih fun slot hslot => h slot (List.mem_cons_of_mem _ hslot)

/-- a store rule stores under its own name or under those, -/
theorem store_stores {idx : Nat} {hr : HeaderRule} {hv : Bytes}
    (h : ∀ slot, .slot slot ∈ storeKeys idx hr → names slot) :
    StoresOnly names (store callProg idx hr hv) := by
  unfold store storeAction
  unfold storeKeys at h
  split
  · rename_i hp
    rw [if_pos hp] at h
    exact storeGroups_stores h
  · rename_i hp
    rw [if_neg hp] at h
    exact ⟨h _ List.mem_cons_self, fun _ _ => trivial⟩

/-- and no other header action stores. -/
theorem headerAction_stores {idx : Nat} {hr : HeaderRule} {hv : Bytes}
    (h : ∀ slot, StoresUnder idx hr slot → names slot) :
    StoresOnly names (headerAction callProg (store callProg idx) hr hv) := by
  have set_stores : StoresOnly names
      (if !hr.newValue.isEmpty && hr.elementRules.isEmpty then do
        let v ← value callProg hr.newValue
        callProg _ (.setHeader (clip hr.headerName) v)
        pure false
      else pure false) := by
    split
    · exact (value_meets Evaluates.stores _).bind fun _ _ => ⟨trivial, fun _ _ => trivial⟩
    · trivial
  unfold headerAction
  -- Of the actions only a store writes to slots.
  cases ha : hr.action with
  | add => exact (value_meets Evaluates.stores _).bind fun _ _ => ⟨trivial, fun _ _ => trivial⟩
  | replace => exact set_stores
  | manipulate => exact set_stores
  | store => exact (store_stores fun slot hslot => h slot ⟨ha, hslot⟩).bind fun _ _ => trivial
  | log =>
    exact (message_meets Evaluates.stores _ _).bind fun _ _ => ⟨trivial, fun _ _ => trivial⟩
  | reject =>
    exact (message_meets Evaluates.stores _ _).bind fun _ _ => ⟨trivial, fun _ _ => trivial⟩
  | delete => exact ⟨trivial, fun _ _ => trivial⟩
  | deleteHeader => exact ⟨trivial, fun _ _ => trivial⟩
  | _ => trivial

/-- An element action that stores does so under the element rule's name. -/
theorem elementAction_stores {hr : HeaderRule} {er : ElementRule} {elem : HmrUriElement}
    {hv ev : Bytes} (h : ∀ slot, ElementStoresUnder hr er slot → names slot) :
    StoresOnly names (elementAction callProg hr er elem hv ev) := by
  unfold elementAction
  cases ha : er.action with
  | replace =>
    refine (value_meets Evaluates.stores _).bind fun nv _ => ?_
    split
    · exact ⟨trivial, fun _ _ => trivial⟩
    · exact ⟨trivial, fun _ _ => ⟨trivial, fun _ _ => trivial⟩⟩
  | deleteElement =>
    dsimp only
    split
    · exact ⟨trivial, fun _ _ => trivial⟩
    · exact ⟨trivial, fun _ _ => ⟨trivial, fun _ _ => trivial⟩⟩
  | store => exact ⟨h _ ⟨ha, rfl⟩, fun _ _ => trivial⟩
  | reject =>
    exact (message_meets Evaluates.stores _ _).bind fun _ _ => ⟨trivial, fun _ _ => trivial⟩
  | _ => trivial

/-- Element rules store under the names of those that do, -/
theorem elementRules_stores {hr : HeaderRule} {ers : List ElementRule}
    (h : ∀ er ∈ ers, ∀ slot, ElementStoresUnder hr er slot → names slot) :
    StoresOnly names (elementRules callProg (guard callProg) hr ers) := by
  -- Up to the action of an element rule nothing is stored, and a reject ends the list.
  induction ers with
  | nil => trivial
  | cons er ers ih =>
    rw [List.forall_mem_cons] at h
    refine Prog.Meets.bind (Q := fun _ => True) ?_ fun flow _ => ?_
    · unfold elementRule
      split
      · trivial
      · rename_i elem htype
        refine ⟨trivial, fun hv _ => ?_⟩
        refine Prog.Meets.bind (p := elementValue callProg hv elem) (Q := fun _ => True) ?_
          fun ev _ => ?_
        · unfold elementValue
          split
          · trivial
          · exact ⟨trivial, fun _ _ => trivial⟩
        · have hguard : StoresOnly names
              (guard callProg er.comparison er.matchValType er.matchValue ev) :=
            guard_meets (fun _ _ _ _ => trivial) _ _ _ _
          refine hguard.bind fun ok _ => ?_
          split
          · exact elementAction_stores h.1
          · trivial
    · cases flow with
      | rejected => trivial
      | «continue» => exact ih h.2

/-- a rule under its own and theirs, -/
theorem rule_stores {idx : Nat} {hr : HeaderRule}
    (h : ∀ slot, StoresUnder idx hr slot → names slot)
    (he : ∀ er ∈ hr.elementRules, ∀ slot, ElementStoresUnder hr er slot → names slot) :
    StoresOnly names (rule callProg idx hr) := by
  refine (fires_meets (fun _ => trivial) trivial trivial (fun _ _ _ _ => trivial) hr).bind
    fun o _ => ?_
  cases o with
  | none => trivial
  | some hv =>
    refine (headerAction_stores h).bind fun rejects _ => ?_
    split
    · trivial
    · exact elementRules_stores he

/-- A slot name the rules from position `idx` on store under. -/
def StoredFrom (idx : Nat) (hrs : List HeaderRule) (name : Bytes) : Prop :=
  ∃ i hr, hrs[i]? = some hr
    ∧ (StoresUnder (idx + i) hr name ∨ ∃ er ∈ hr.elementRules, ElementStoresUnder hr er name)

/-- and the rules from one on, each under its own. -/
theorem rulesFrom_stores {idx : Nat} {hrs : List HeaderRule}
    (h : ∀ name, StoredFrom idx hrs name → names name) :
    StoresOnly names (rulesFrom callProg idx hrs) := by
  induction hrs generalizing idx with
  | nil => trivial
  | cons hr rest ih =>
    have hrule : StoresOnly names (rule callProg idx hr) :=
      rule_stores (fun slot hslot => h slot ⟨0, hr, rfl, Or.inl hslot⟩)
        fun er her slot hslot => h slot ⟨0, hr, rfl, Or.inr ⟨er, her, hslot⟩⟩
    refine hrule.bind fun flow _ => ?_
    cases flow with
    | rejected => trivial
    | «continue» =>
      refine ih fun name hname => ?_
      obtain ⟨i, hr', hget, hstores⟩ := hname
      refine h name ⟨i + 1, hr', hget, ?_⟩
      rwa [← Nat.add_assoc, Nat.add_right_comm]

/-- **A program stores under the names of its stores.** -/
theorem program_stores (rs : Ruleset) :
    StoresOnly (StoredFrom 0 rs.headerRules) (program rs) :=
  rulesFrom_stores fun _ h => h

end

end Meaning

end Hmr
