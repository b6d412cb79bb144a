import Hmr.Effects
import Hmr.Machine
import Hmr.UriShape

/-!
# What an element rule does

An element rule reads the header it is about, compares a part of it, and acts. Reading and
comparing leave the header table and the arena as they are, so what the rule does is a
function of the header store: `HeaderStore.act`, at the new-value and where the guard
holds (`Meaning.elementRule_store`).

A URI element is rewritten in two steps that each take arena space. The URI is rebuilt,
and the header is set to what came out. Where there is no room for the rebuilt text what
comes out is the empty view, and the header is set to that. So a rewrite that fails leaves
the header as it was if there was room for building the text and none for setting the
header to it, and empties the header if there was no room for building it
(`HeaderStore.value?_rewrite`).

## What a rule is asked about

The header is read once, and the part of it that is compared is taken from what was read.
If the header is not there the rule is about the empty text, which is compared and
rewritten like another one.

The guard answers by the header value and by the regexes of the context
(`Meaning.elementGuard_congr`), and leaves the groups it has found behind. The new-value
is evaluated afterwards, in the world that the guard has left, so it may refer to them.
That makes `Interpreter.firing` and `Interpreter.newValueOf` functions of the world the
rule starts in, and the rule one of what they say and of the store
(`Interpreter.runElement_store`).
-/

namespace Hmr

namespace Uri

/-- The rebuilt text is the spliced one, in 32 bits. -/
theorem rebuilt_eq (value : HmrStr) (element : HmrUriElement) (nv : HmrStr) :
    rebuilt value element nv = clip (spliced value.sv element nv.text) := by
  unfold rebuilt spliced
  cases spliceOf value.sv element with
  | none => exact value.clip_text.symm
  | some p => rfl

/-- So its length is cut already. -/
@[simp] theorem clip_rebuilt (value : HmrStr) (element : HmrUriElement) (nv : HmrStr) :
    clip (rebuilt value element nv) = rebuilt value element nv := by
  rw [rebuilt_eq, clip_clip]

/-- A new-value is cut when it becomes a view. -/
@[simp] theorem rebuilt_clip (value : HmrStr) (element : HmrUriElement) (nv : Bytes) :
    rebuilt value element (.ofBytes (clip nv)) = rebuilt value element (.ofBytes nv) := by
  rw [rebuilt_eq, rebuilt_eq, HmrStr.ofBytes_text, HmrStr.ofBytes_text, clip_clip]

end Uri

/-! ## The store -/

namespace HeaderStore

variable {s : HeaderStore} {name v t : Bytes}

/-- What is left of the arena. -/
def room (s : HeaderStore) : Nat := kCapacity - s.used

/-- Take arena space for a text: the text, or nothing where there is no room for
it. -/
def build (s : HeaderStore) (t : Bytes) : Bytes × HeaderStore :=
  match s.claim t.length with
  | none => ([], s)
  | some s' => (t, s')

/-- Set a header to what is built of a text. -/
def rewrite (s : HeaderStore) (name t : Bytes) : HeaderStore :=
  ((s.build t).2.set name (s.build t).1).2

/-- The value of a header, if it is there. -/
def value? (s : HeaderStore) (name : Bytes) : Option Bytes := Assoc.get? iequals s.live name

/-- The header cannot be set: no room for the value, or the header is not there
and cannot be added. -/
def Refuses (s : HeaderStore) (name v : Bytes) : Prop :=
  s.room < v.length
    ∨ (s.value? name = none
      ∧ (hmrMaxHeaders ≤ s.entries ∨ s.room - v.length < name.length + v.length))

instance (s : HeaderStore) (name v : Bytes) : Decidable (s.Refuses name v) :=
  inferInstanceAs (Decidable (_ ∨ _))

/-- There is room for some bytes, and they are taken, or there is not. -/
theorem claim_cases (s : HeaderStore) (n : Nat) :
    (n ≤ s.room ∧ s.claim n = some { s with used := s.used + n })
      ∨ (s.room < n ∧ s.claim n = none) := by
  unfold claim room
  by_cases h : n ≤ kCapacity - s.used
  · exact Or.inl ⟨h, if_pos h⟩
  · exact Or.inr ⟨Nat.lt_of_not_le h, if_neg h⟩

/-- There is room for a text, and it is built, or there is not. -/
theorem build_cases (s : HeaderStore) (t : Bytes) :
    (t.length ≤ s.room ∧ s.build t = (t, { s with used := s.used + t.length }))
      ∨ (s.room < t.length ∧ s.build t = ([], s)) := by
  unfold build
  obtain ⟨h, hc⟩ | ⟨h, hc⟩ := s.claim_cases t.length
  · rw [hc]
    exact Or.inl ⟨h, rfl⟩
  · rw [hc]
    exact Or.inr ⟨h, rfl⟩

/-- What is left when some of it is taken. -/
theorem room_used (s : HeaderStore) (n : Nat) :
    ({ s with used := s.used + n } : HeaderStore).room = s.room - n := by
  unfold room
  dsimp only
  omega

/-- A header is there if it has a value. -/
theorem has_eq (s : HeaderStore) (name : Bytes) :
    Assoc.has iequals s.live name = (s.value? name).isSome :=
  Assoc.has_eq_isSome s.live name

/-- **Setting a header fails in these cases only.** `set_header` copies the value before it looks
for the header. Where there is one, that is all the room it takes; where there is none, an entry
has to be free, and the name and the value are copied again behind the first copy, which is lost. -/
theorem set_fst : (s.set name v).1 = false ↔ s.Refuses name v := by
  unfold set Refuses
  obtain ⟨hv, hc⟩ | ⟨hv, hc⟩ := s.claim_cases v.length
  · rw [hc]
    dsimp only
    rw [has_eq]
    -- A header that is there needs room for its value once; one that is added needs an entry,
    -- and room for the name and for the value again.
    cases hg : s.value? name with
    | some x => simp [hv]
    | none =>
      rw [Option.isSome_none, if_neg Bool.false_ne_true, add]
      dsimp only
      by_cases hfull : hmrMaxHeaders ≤ s.entries
      · simp [hfull]
      · rw [if_neg hfull]
        obtain ⟨hn, hcn⟩ | ⟨hn, hcn⟩ :=
          ({ s with used := s.used + v.length } : HeaderStore).claim_cases name.length
        · rw [hcn]
          dsimp only
          obtain ⟨hw, hcw⟩ | ⟨hw, hcw⟩ := ({ s with used := s.used + v.length + name.length } :
            HeaderStore).claim_cases v.length
          · rw [hcw]
            rw [room_used] at hn
            rw [Nat.add_assoc, room_used] at hw
            simp [hfull]
            omega
          · rw [hcw]
            rw [room_used] at hn
            rw [Nat.add_assoc, room_used] at hw
            simp [hfull]
            omega
        · rw [hcn]
          rw [room_used] at hn
          simp [hfull]
          omega
  · rw [hc]
    simp [hv]

/-- **A header that was set has the value**, and one that could not be set has
the value it had. -/
theorem value?_set : (s.set name v).2.value? name
    = if s.Refuses name v then s.value? name else some v := by
  obtain ⟨ht, hlive⟩ | ⟨hf, hlive⟩ := s.set_spec name v
  · rw [if_neg fun h => absurd (set_fst.mpr h) (by simp [ht]), value?, hlive]
    exact Assoc.get?_set (iequals_refl name) s.live v
  · rw [if_pos (set_fst.mp hf), value?, hlive]
    rfl

/-- A header that is there is refused its value for want of room only. -/
theorem refuses_iff {x : Bytes} (hx : s.value? name = some x) :
    s.Refuses name v ↔ s.room < v.length := by
  unfold Refuses
  rw [hx]
  simp

/-- **A header that was deleted is not there.** -/
@[simp] theorem value?_delete : (s.delete name).2.value? name = none :=
  Assoc.get?_delete s.live name

/-- What `rewrite` leaves: the text, where there is room for building and
setting it; nothing, where there is no room for building it; and what was
there. -/
theorem value?_rewrite : (s.rewrite name t).value? name
    = if t.length ≤ s.room then
        if ({ s with used := s.used + t.length } : HeaderStore).Refuses name t then s.value? name
        else some t
      else if s.Refuses name [] then s.value? name else some [] := by
  unfold rewrite
  obtain ⟨h, hb⟩ | ⟨h, hb⟩ := s.build_cases t
  · rw [hb, if_pos h, value?_set]
    rfl
  · rw [hb, if_neg (Nat.not_le_of_lt h), value?_set]

/-- What is built of a 32-bit text fits 32 bits. -/
theorem clip_build (ht : clip t = t) : clip (s.build t).1 = (s.build t).1 := by
  obtain ⟨-, hb⟩ | ⟨-, hb⟩ := s.build_cases t
  · rw [hb, ht]
  · rw [hb]
    rfl

/-- **The action of an element rule**, on the header it is about. -/
def act (s : HeaderStore) (name : Bytes) (elem : HmrUriElement) (nv : Bytes) :
    ElementAction → HeaderStore
  | .replace =>
    if elem = .whole then (s.set name nv).2
    else s.rewrite name (Uri.rebuilt (.ofBytes (s.get name)) elem (.ofBytes nv))
  | .deleteElement =>
    if elem = .whole then (s.delete name).2
    else s.rewrite name (Uri.rebuilt (.ofBytes (s.get name)) elem (.ofBytes []))
  | _ => s

end HeaderStore

/-! ## The calls on the store -/

/-- The header store of a message and its arena. -/
def World.store (w : World) : HeaderStore := w.msg.storeOf w.ctx.arena

namespace World

variable (rx : RegexEngine) (st : SymbolTable) (w : World)

/-- **`get_header` reads the store.** -/
theorem store_getHeader (name : Bytes) :
    (st.runtime rx _ (.getHeader name) w) = (w.store.get (clip name), w) :=
  Prod.ext (w.msg.getHeader_text w.ctx.arena _) rfl

/-- **`set_header` sets in the store.** -/
theorem store_setHeader (name v : Bytes) :
    (st.runtime rx _ (.setHeader name v) w).2.store = (w.store.set (clip name) (clip v)).2 :=
  congrArg Prod.snd (w.msg.storeOf_setHeader w.ctx.arena (.ofBytes name) (.ofBytes v))

/-- **`delete_header` deletes in the store.** -/
theorem store_deleteHeader (name : Bytes) :
    (st.runtime rx _ (.deleteHeader name) w).2.store = (w.store.delete (clip name)).2 :=
  congrArg Prod.snd (w.msg.storeOf_deleteHeader w.ctx.arena _)

/-- **`uri_set` builds the rebuilt text.** -/
theorem store_uriSet (hv : Bytes) (elem : HmrUriElement) (nv : Bytes) :
    (st.runtime rx _ (.uriSet hv elem nv) w).1
        = (w.store.build (Uri.rebuilt (.ofBytes hv) elem (.ofBytes nv))).1
      ∧ (st.runtime rx _ (.uriSet hv elem nv) w).2.store
        = (w.store.build (Uri.rebuilt (.ofBytes hv) elem (.ofBytes nv))).2 := by
  show (Uri.rebuildUri w.ctx.arena (HmrStr.ofBytes hv).sv elem (HmrStr.ofBytes nv).sv).1.text = _
    ∧ w.msg.storeOf
      (Uri.rebuildUri w.ctx.arena (HmrStr.ofBytes hv).sv elem (HmrStr.ofBytes nv).sv).2 = _
  obtain ⟨hroom, htext, hused⟩ | ⟨hroom, heq⟩ :=
    Uri.rebuildUri_spec w.ctx.arena (.ofBytes hv) elem (.ofBytes nv)
  · obtain ⟨-, hb⟩ | ⟨h, -⟩ := w.store.build_cases (Uri.rebuilt (.ofBytes hv) elem (.ofBytes nv))
    · rw [hb, HmrSipMsg.storeOf, hused]
      exact ⟨htext, rfl⟩
    · exact absurd hroom (Nat.not_le_of_lt h)
  · obtain ⟨h, -⟩ | ⟨-, hb⟩ := w.store.build_cases (Uri.rebuilt (.ofBytes hv) elem (.ofBytes nv))
    · exact absurd h (Nat.not_le_of_lt hroom)
    · rw [hb, heq]
      exact ⟨rfl, rfl⟩

/-- A quiet call leaves the store. -/
theorem store_quiet {i : RetTy} (c : SymCall i) (h : Meaning.Quiet i c) :
    (st.runtime rx i c w).2.store = w.store := by
  cases c with
  | setHeader _ _ => exact h.elim
  | addHeader _ _ => exact h.elim
  | deleteHeader _ => exact h.elim
  | uriSet _ _ _ => exact h.elim
  | reject _ _ => exact h.elim
  | hmrMatch t s p k =>
    obtain ⟨_, _, hw⟩ := runtime_hmrMatch rx t s p (st.regexId k) w
    have hstore := congrArg World.store hw
    exact hstore
  | valAppendVar id =>
    obtain ⟨_, hw⟩ := runtime_valAppendVar rx id w
    have hstore := congrArg World.store hw
    exact hstore
  | _ => rfl

/-- A value that was looked up is one of 32 bits. -/
theorem value?_lt {name v : Bytes} (h : w.store.value? name = some v) : v.length < 2 ^ 32 := by
  have hget : (w.msg.getHeader name).text = v := by
    rw [w.msg.getHeader_text w.ctx.arena]
    exact congrArg (fun o => o.getD []) h
  rw [← hget]
  exact (w.msg.getHeader name).len_lt

end World

namespace Meaning

variable (rx : RegexEngine) (st : SymbolTable)

/-- A quiet program leaves the store. -/
theorem IsQuiet.store {α : Type} {p : SymProg α} (hp : IsQuiet p) (w : World) :
    (p.run (st.runtime rx) w).2.store = w.store :=
  hp.run World.store (fun _ c w hc => w.store_quiet rx st c hc) w

/-- The guard of an element rule, on the header value. -/
def elementGuard (er : ElementRule) (elem : HmrUriElement) (hv : Bytes) : SymProg Bool := do
  let ev ← elementValue callProg hv elem
  guard callProg er.comparison er.matchValType er.matchValue ev

/-- **The guard answers by the header value and the regexes of the context**, and by nothing else
of the world. The element is split out of the value without a look at the message; of the slots,
the arena and the variables, which an action may have changed, no matcher sees any. -/
theorem elementGuard_congr (er : ElementRule) (elem : HmrUriElement) (hv : Bytes)
    {w w' : World} (h : w'.ctx.regexes = w.ctx.regexes) :
    ((elementGuard er elem hv).run (st.runtime rx) w').1
      = ((elementGuard er elem hv).run (st.runtime rx) w).1 := by
  have hvalue : ∀ w, (elementValue callProg hv elem).run (st.runtime rx) w
      = (if elem = .whole then hv else (Uri.component (.ofBytes hv) elem).text, w) := by
    intro w
    unfold elementValue
    split
    · rfl
    · rfl
  -- A matcher sees its operands and the compiled regex, and nothing else of the world.
  have hmatch : ∀ t (s p : Bytes) k,
      (st.runtime rx _ (.hmrMatch t s p k) w').1 = (st.runtime rx _ (.hmrMatch t s p k) w).1 := by
    intro t s p k
    show (Rt.hmrMatch rx w'.ctx t (.ofBytes s) (.ofBytes p) (st.regexId k)).1
      = (Rt.hmrMatch rx w.ctx t (.ofBytes s) (.ofBytes p) (st.regexId k)).1
    unfold Rt.hmrMatch
    split
    · unfold Rt.regexMatch
      rw [h]
      split
      · rfl
      · split
        · rfl
        · rfl
    · rfl
  unfold elementGuard
  rw [Prog.run_bind, Prog.run_bind, hvalue, hvalue]
  dsimp only
  unfold guard matchCall
  split
  · rfl
  · dsimp only
    split
    · exact congrArg (fun b => if er.matchValue.negated then !b else b) (hmatch _ _ _ _)
    · exact congrArg (fun b => if er.matchValue.negated then !b else b) (hmatch _ _ _ _)

/-- The new-value of an element rule. -/
def newValueAt (er : ElementRule) (w : World) : Bytes :=
  clip ((value callProg er.newValue).run (st.runtime rx) w).1

/-- Setting the header. -/
theorem setHeader_store (hr : HeaderRule) (v : Bytes) (w : World) :
    ((do
      callProg _ (.setHeader (clip hr.headerName) v)
      pure Flow.continue : SymProg Flow).run (st.runtime rx) w).2.store
      = (w.store.set (clip hr.headerName) (clip v)).2 := by
  rw [Prog.run_bind]
  exact (w.store_setHeader rx st _ v).trans (by rw [clip_clip])

/-- Rebuilding a URI, and setting the header. -/
theorem rewrite_store (hr : HeaderRule) (hv : Bytes) (elem : HmrUriElement) (nv : Bytes)
    (w : World) :
    ((do
      let v ← callProg _ (.uriSet hv elem nv)
      callProg _ (.setHeader (clip hr.headerName) v)
      pure Flow.continue : SymProg Flow).run (st.runtime rx) w).2.store
      = w.store.rewrite (clip hr.headerName)
        (Uri.rebuilt (.ofBytes hv) elem (.ofBytes nv)) := by
  obtain ⟨hans, hstore⟩ := w.store_uriSet rx st hv elem nv
  rw [Prog.run_bind, setHeader_store]
  show ((st.runtime rx _ (.uriSet hv elem nv) w).2.store.set _
    (clip (st.runtime rx _ (.uriSet hv elem nv) w).1)).2 = _
  rw [hstore, hans, HeaderStore.clip_build (Uri.clip_rebuilt _ _ _)]
  rfl

/-- **The action of an element rule, on the store.** -/
theorem elementAction_store (hr : HeaderRule) (er : ElementRule) (elem : HmrUriElement)
    (ev : Bytes) (w : World) :
    ((elementAction callProg hr er elem (w.store.get (clip hr.headerName)) ev).run
        (st.runtime rx) w).2.store
      = w.store.act (clip hr.headerName) elem (newValueAt rx st er w) er.action := by
  unfold elementAction HeaderStore.act
  cases er.action with
  | replace =>
    have hkeep := (value_quiet er.newValue).store rx st w
    dsimp only
    rw [Prog.run_bind, ← hkeep]
    unfold newValueAt
    split
    · exact setHeader_store rx st hr _ _
    · refine (rewrite_store rx st hr _ elem _ _).trans ?_
      rw [Uri.rebuilt_clip]
  | deleteElement =>
    dsimp only
    split
    · rw [Prog.run_bind]
      exact (w.store_deleteHeader rx st _).trans (by rw [clip_clip])
    · exact rewrite_store rx st hr _ elem _ w
  | store => rfl
  | reject =>
    have hkeep := (message_quiet er.name er.newValue).store rx st w
    dsimp only
    rw [Prog.run_bind]
    exact hkeep
  | _ => rfl

/-- **An element rule, on the store**: the action where the guard holds, and nothing else.
Fetching the header, taking the component and the guard write nothing that is in the store, so
the action finds it as it was, and what the guard has left of the context is what the new value
is made in. -/
theorem elementRule_store (hr : HeaderRule) (er : ElementRule) (elem : HmrUriElement)
    (he : Lowering.uriElement er.type = some elem) (w : World) :
    ((elementRule callProg (guard callProg) hr er).run (st.runtime rx) w).2.store
      = if ((elementGuard er elem (w.store.get (clip hr.headerName))).run
            (st.runtime rx) w).1 then
          w.store.act (clip hr.headerName) elem
            (newValueAt rx st er ((elementGuard er elem (w.store.get (clip hr.headerName))).run
              (st.runtime rx) w).2) er.action
        else w.store := by
  have hget := w.store_getHeader rx st (clip hr.headerName)
  rw [clip_clip] at hget
  have hvalue : ∀ hv, ((elementValue callProg hv elem).run (st.runtime rx) w).2 = w := by
    intro hv
    unfold elementValue
    split
    · rfl
    · rfl
  have hguard : ∀ hv, (elementGuard er elem hv).run (st.runtime rx) w
      = (guard callProg er.comparison er.matchValType er.matchValue
          ((elementValue callProg hv elem).run (st.runtime rx) w).1).run (st.runtime rx) w := by
    intro hv
    rw [elementGuard, Prog.run_bind, hvalue]
  unfold elementRule
  rw [he]
  dsimp only
  rw [Prog.run_bind, show (callProg _ (.getHeader (clip hr.headerName))).run (st.runtime rx) w
    = st.runtime rx _ (.getHeader (clip hr.headerName)) w from rfl, hget]
  dsimp only
  rw [Prog.run_bind, hvalue, Prog.run_bind, ← hguard]
  -- Up to the action nothing is written, so the action finds the store as it was.
  have hkeep : ((elementGuard er elem (w.store.get (clip hr.headerName))).run
      (st.runtime rx) w).2.store = w.store := by
    rw [hguard]
    exact (guard_quiet _ _ _ _).store rx st w
  split
  · have hact := elementAction_store rx st hr er elem
      ((elementValue callProg (w.store.get (clip hr.headerName)) elem).run (st.runtime rx) w).1
      ((elementGuard er elem (w.store.get (clip hr.headerName))).run (st.runtime rx) w).2
    rw [hkeep] at hact
    exact hact
  · exact hkeep

end Meaning

namespace Interpreter

variable (rx : RegexEngine) (rs : Ruleset) (hr : HeaderRule) (er : ElementRule) (w : World)

/-- **One element rule of a header rule, run on a message**, with the tables of a
ruleset. -/
def runElement : World :=
  ((runElementRules { hr with elementRules := [er] } false (tables rs)).run (runtime rx) w).2

/-- It is the run of the rule's program. -/
theorem runElement_eq :
    runElement rx rs hr er w
      = ((Meaning.elementRule Meaning.callProg (Meaning.guard Meaning.callProg) hr er).run
          ((tables rs).symbols.runtime rx) w).2 := by
  have hlowers : Lowers (tables rs).symbols
      (runElementRules { hr with elementRules := [er] } false)
      (Meaning.elementRules Meaning.callProg (Meaning.guard Meaning.callProg) hr [er]) :=
    Lowers.silent (intern_silent _) (runElements_lowers hr [er])
  have hrun := (hlowers.run (t := tables rs) ⟨rfl, rfl⟩ (runtime rx) w).2
  refine hrun.trans ?_
  unfold Meaning.elementRules
  rw [Prog.run_bind]
  unfold SymbolTable.runtime
  split
  · rfl
  · rfl

/-- Whether the guard of the rule holds, and the world it leaves. -/
def guardOf (elem : HmrUriElement) : Bool × World :=
  (Meaning.elementGuard er elem (w.store.get (clip hr.headerName))).run
    ((tables rs).symbols.runtime rx) w

/-- The new-value of the rule, where its guard was evaluated. -/
def newValueOf (elem : HmrUriElement) : Bytes :=
  Meaning.newValueAt rx (tables rs).symbols er (guardOf rx rs hr er w elem).2

/-- The value of the header a rule is about, if it is there. -/
def target : Option Bytes := w.store.value? (clip hr.headerName)

/-- The guard of a rule, asked about a header value. -/
def guardHolds (elem : HmrUriElement) (v : Bytes) : Bool :=
  ((Meaning.elementGuard er elem v).run ((tables rs).symbols.runtime rx) w).1

/-- The part of the header a rule acts on, if its guard holds. -/
def firing : Option HmrUriElement :=
  (Lowering.uriElement er.type).filter fun elem => (guardOf rx rs hr er w elem).1

/-- The element of the rule, if its guard holds of the header value. -/
theorem firing_eq :
    firing rx rs hr er w = (Lowering.uriElement er.type).filter fun elem =>
      guardHolds rx rs er w elem ((target hr w).getD []) := rfl

/-- A guard answers alike in two worlds with the same regexes. -/
theorem guardHolds_congr {w w' : World} (h : w'.ctx.regexes = w.ctx.regexes)
    (elem : HmrUriElement) (v : Bytes) :
    guardHolds rx rs er w' elem v = guardHolds rx rs er w elem v :=
  Meaning.elementGuard_congr rx (tables rs).symbols er elem v h

/-- An element rule compiles nothing. -/
@[simp] theorem runElement_regexes : (runElement rx rs hr er w).ctx.regexes = w.ctx.regexes :=
  congrArg Prod.fst (kept_run rx
    (runElementRules { hr with elementRules := [er] } false (tables rs)) w)

/-- **What an element rule does to the header store.** -/
theorem runElement_store :
    (runElement rx rs hr er w).store
      = match firing rx rs hr er w with
        | none => w.store
        | some elem =>
          w.store.act (clip hr.headerName) elem (newValueOf rx rs hr er w elem) er.action := by
  rw [runElement_eq]
  unfold firing
  cases he : Lowering.uriElement er.type with
  | none =>
    unfold Meaning.elementRule
    rw [he]
    rfl
  | some elem =>
    refine (Meaning.elementRule_store rx (tables rs).symbols hr er elem he w).trans ?_
    rw [Option.filter_some]
    show (if (guardOf rx rs hr er w elem).1 then _ else _) = _
    cases (guardOf rx rs hr er w elem).1 with
    | true => rfl
    | false => rfl

end Interpreter

end Hmr
