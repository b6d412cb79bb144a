import Hmr.Effects
import Hmr.Machine

/-!
# Rejecting

The verdict of a walk is handed up through three returns – of an element rule, of a header
rule, of the walk – while the reject itself is recorded in the context. That the two
always say the same is one half of this file.

It is a property of programs (`Meaning.Tells`): what a part of the walk returns says
whether a reject was recorded in it. A part that makes no reject tells the truth by
returning that there was none; a part with a reject behind other parts does so if it is
not gone on with after them.

The other half is that nothing happens after a reject. A ruleset with more rules, or with
more element rules in its last one, has other tables, since the scan visits everything;
but the numbers it gives to what was there before are the same, so that a context for the
longer ruleset and one for the shorter are twins under the two numberings, and stay twins
as long as the shorter ruleset runs.

Twins have the same in their slots, as far as the shorter ruleset has them, and the same
in everything else but the bytes of the arena, of which only the number counts. That the
calls of the runtime keep them so is looked at a call at a time (`World.Twins.call`), and
the walk of the longer ruleset is that of the shorter one, up to where the latter is
rejected.
-/

namespace Hmr

/-! ## What a context records -/

/-- The code of the reject a context has recorded. -/
def HmrContext.recorded (ctx : HmrContext) : Option Nat :=
  if ctx.rejected then some ctx.rejectCode else none

namespace Meaning

/-- A call that does not reject. -/
def Spares : ∀ i, SymCall i → Prop
  | _, .reject _ _ => False
  | _, _ => True

/-- **The result of a program tells whether it has rejected**: from a context
without a reject, one is recorded exactly when the result says so, and its code
is 403. -/
def Tells {α : Type} (rx : RegexEngine) (st : SymbolTable) (ends : α → Bool)
    (p : SymProg α) : Prop :=
  ∀ w : World, w.ctx.recorded = none →
    (p.run (st.runtime rx) w).2.ctx.recorded
      = if ends (p.run (st.runtime rx) w).1 then some 403 else none

section
variable {rx : RegexEngine} {st : SymbolTable} {α β : Type}

/-- A call that does not reject records nothing. -/
theorem recorded_call {i : RetTy} {c : SymCall i} (hc : Spares i c) (w : World) :
    (st.runtime rx i c w).2.ctx.recorded = w.ctx.recorded := by
  cases c with
  | reject code reason => cases hc
  | hmrMatch t s p k =>
    obtain ⟨_, _, hw⟩ := runtime_hmrMatch rx t s p (st.regexId k) w
    exact congrArg (·.ctx.recorded) hw
  | valAppendVar id =>
    obtain ⟨_, hw⟩ := runtime_valAppendVar rx id w
    exact congrArg (·.ctx.recorded) hw
  | _ => rfl

/-- A quiet call rejects nothing. -/
theorem Quiet.spares : ∀ i (c : SymCall i), Quiet i c → Spares i c := by
  intro i c hc
  cases c with
  | reject code reason => cases hc
  | _ => trivial

/-- What is over without a reject says so. -/
theorem tells_pure {ends : α → Bool} {a : α} (h : ends a = false) :
    Tells rx st ends (pure a) := by
  intro w hw
  show w.ctx.recorded = if ends a then some 403 else none
  rw [h]
  exact hw

/-- A program that does not reject, and what comes after it. -/
theorem IsQuiet.tells_bind {p : SymProg α} {ends : β → Bool} {k : α → SymProg β}
    (hp : IsQuiet p) (hk : ∀ a, Tells rx st ends (k a)) :
    Tells rx st ends (p >>= k) := by
  intro w hw
  rw [Prog.run_bind]
  refine hk _ _ ?_
  have hquiet : (p.run (st.runtime rx) w).2.ctx.recorded = w.ctx.recorded :=
    hp.run (fun w => w.ctx.recorded)
      (fun i c w hc => recorded_call (Quiet.spares i c hc) w) w
  exact hquiet.trans hw

/-- A call that rejects nothing, and what comes after it. -/
theorem tells_call_bind {i : RetTy} {c : SymCall i} {ends : β → Bool}
    {k : i.den → SymProg β} (hc : Spares i c) (hk : ∀ r, Tells rx st ends (k r)) :
    Tells rx st ends (callProg i c >>= k) :=
  fun w hw => hk _ _ ((recorded_call hc w).trans hw)

/-- A reject, and the result that says so. -/
theorem tells_reject {reason : Bytes} {ends : β → Bool} {b : β} (h : ends b = true) :
    Tells rx st ends (callProg _ (.reject 403 reason) >>= fun _ => pure b) := by
  intro w _
  show (if true then some 403 else none) = if ends b then some 403 else none
  rw [h]

/-- **The rule of sequence**: a result that says a reject is handed up, and
another is gone on from. -/
theorem Tells.bind {ends : α → Bool} {p : SymProg α} {ends' : β → Bool}
    {k : α → SymProg β} (hp : Tells rx st ends p)
    (hgo : ∀ a, ends a = false → Tells rx st ends' (k a))
    (hstop : ∀ a, ends a = true → ∃ b, k a = pure b ∧ ends' b = true) :
    Tells rx st ends' (p >>= k) := by
  intro w hw
  have hp := hp w hw
  rw [Prog.run_bind]
  cases hs : ends (p.run (st.runtime rx) w).1 with
  | false =>
    rw [hs] at hp
    exact hgo _ hs _ hp
  | true =>
    rw [hs] at hp
    obtain ⟨b, hk, hb⟩ := hstop _ hs
    rw [hk]
    show _ = if ends' b then some 403 else none
    rw [hb]
    exact hp

/-! ## The three returns -/

/-- The flow says a reject. -/
abbrev Flow.isReject (f : Flow) : Bool := f == .rejected

/-- **The action of an element rule** says whether it was a reject. -/
theorem elementAction_tells (hr : HeaderRule) (er : ElementRule) (elem : HmrUriElement)
    (hv ev : Bytes) :
    Tells rx st Flow.isReject (elementAction callProg hr er elem hv ev) := by
  unfold elementAction
  split
  · refine (value_quiet _).tells_bind fun nv => ?_
    split
    · exact tells_call_bind trivial fun _ => tells_pure rfl
    · refine tells_call_bind trivial fun v => ?_
      exact tells_call_bind trivial fun _ => tells_pure rfl
  · split
    · exact tells_call_bind trivial fun _ => tells_pure rfl
    · refine tells_call_bind trivial fun v => ?_
      exact tells_call_bind trivial fun _ => tells_pure rfl
  · exact tells_call_bind trivial fun _ => tells_pure rfl
  · exact (message_quiet _ _).tells_bind fun v => tells_reject rfl
  · exact tells_pure rfl

/-- So does the element rule, -/
theorem elementRule_tells (hr : HeaderRule) (er : ElementRule) :
    Tells rx st Flow.isReject (elementRule callProg (guard callProg) hr er) := by
  unfold elementRule
  split
  · exact tells_pure rfl
  · rename_i elem _
    refine tells_call_bind trivial fun hv => ?_
    refine (elementValue_quiet hv elem).tells_bind fun ev => ?_
    refine (guard_quiet _ _ _ _).tells_bind fun ok => ?_
    cases ok with
    | false => exact tells_pure rfl
    | true => exact elementAction_tells hr er elem hv ev

/-- and the list of them, which is left at the first. -/
theorem elementRules_tells (hr : HeaderRule) (ers : List ElementRule) :
    Tells rx st Flow.isReject (elementRules callProg (guard callProg) hr ers) := by
  induction ers with
  | nil => exact tells_pure rfl
  | cons er rest ih =>
    refine Tells.bind (elementRule_tells hr er) (fun flow hf => ?_) (fun flow hf => ?_)
    · cases flow with
      | rejected => cases hf
      | «continue» => exact ih
    · cases flow with
      | rejected => exact ⟨_, rfl, rfl⟩
      | «continue» => cases hf

/-- **The action of a header rule** says whether it was a reject. -/
theorem headerAction_tells (hr : HeaderRule) (idx : Nat) (hv : Bytes) :
    Tells rx st id (headerAction callProg (store callProg idx) hr hv) := by
  have hset : Tells rx st id (if !hr.newValue.isEmpty && hr.elementRules.isEmpty then do
        let v ← value callProg hr.newValue
        callProg _ (.setHeader (clip hr.headerName) v)
        pure false
      else pure false) := by
    split
    · refine (value_quiet _).tells_bind fun v => ?_
      exact tells_call_bind trivial fun _ => tells_pure rfl
    · exact tells_pure rfl
  unfold headerAction
  cases hr.action with
  | add =>
    refine (value_quiet _).tells_bind fun v => ?_
    exact tells_call_bind trivial fun _ => tells_pure rfl
  | replace => exact hset
  | manipulate => exact hset
  | delete => exact tells_call_bind trivial fun _ => tells_pure rfl
  | deleteHeader => exact tells_call_bind trivial fun _ => tells_pure rfl
  | store => exact (store_quiet idx hr hv).tells_bind fun _ => tells_pure rfl
  | log =>
    refine (message_quiet _ _).tells_bind fun v => ?_
    exact tells_call_bind trivial fun _ => tells_pure rfl
  | reject => exact (message_quiet _ _).tells_bind fun v => tells_reject rfl
  | _ => exact tells_pure rfl

/-- **A rule** hands it up, -/
theorem rule_tells (hr : HeaderRule) (idx : Nat) :
    Tells rx st Flow.isReject (rule callProg idx hr) := by
  unfold rule headerRule
  refine (fires_quiet hr).tells_bind fun o => ?_
  cases o with
  | none => exact tells_pure rfl
  | some hv =>
    refine Tells.bind (headerAction_tells hr idx hv) (fun b hb => ?_) (fun b hb => ?_)
    · cases hb
      exact elementRules_tells hr hr.elementRules
    · cases hb
      exact ⟨_, rfl, rfl⟩

/-- The verdict says a reject. -/
abbrev Verdict.isReject (v : HmrVerdict) : Bool := v == .rejected

/-- **and so does the walk.** -/
theorem rulesFrom_tells (hrs : List HeaderRule) (idx : Nat) :
    Tells rx st Verdict.isReject (rulesFrom callProg idx hrs) := by
  induction hrs generalizing idx with
  | nil => exact tells_pure rfl
  | cons hr rest ih =>
    refine Tells.bind (rule_tells hr idx) (fun flow hf => ?_) (fun flow hf => ?_)
    · cases flow with
      | rejected => cases hf
      | «continue» => exact ih (idx + 1)
    · cases flow with
      | rejected => exact ⟨_, rfl, rfl⟩
      | «continue» => cases hf

end

end Meaning

/-! ## Two numberings -/

/-- Two arenas of which as much is handed out hand out the same. -/
theorem HmrArena.dup_congr {a a' : HmrArena} (h : a'.used = a.used) (v : StringView) :
    (a'.dup v).1 = (a.dup v).1 ∧ (a'.dup v).2.used = (a.dup v).2.used := by
  have hr : a'.remaining = a.remaining := congrArg (kCapacity - ·) h
  obtain ⟨hs, hd⟩ | ⟨hs, hlt, hd⟩ | ⟨hs, hle, b, hb, hd⟩ := a.dup_cases v
  · obtain ⟨-, hd'⟩ | ⟨hs', -⟩ | ⟨hs', -⟩ := a'.dup_cases v
    · rw [hd, hd']
      exact ⟨rfl, h⟩
    · exact absurd hs hs'
    · exact absurd hs hs'
  · obtain ⟨hs', -⟩ | ⟨-, -, hd'⟩ | ⟨-, hle', -⟩ := a'.dup_cases v
    · exact absurd hs' hs
    · rw [hd, hd']
      exact ⟨rfl, h⟩
    · omega
  · obtain ⟨hs', -⟩ | ⟨-, hlt', -⟩ | ⟨-, -, b', hb', hd'⟩ := a'.dup_cases v
    · exact absurd hs' hs
    · omega
    · obtain ⟨-, -, hu, -⟩ := alloc_eq_some hb
      obtain ⟨-, -, hu', -⟩ := alloc_eq_some hb'
      rw [hd, hd']
      refine ⟨by rw [h], ?_⟩
      rw [write_used, write_used, hu, hu', h]

namespace HmrSipMsg

/-- Adding a header does not depend on the bytes of the arena. -/
theorem addHeader_congr (m : HmrSipMsg) {a a' : HmrArena} (h : a'.used = a.used)
    (name value : StringView) :
    (m.addHeader a' name value).2.1 = (m.addHeader a name value).2.1
      ∧ (m.addHeader a' name value).2.2.used = (m.addHeader a name value).2.2.used := by
  obtain ⟨hn, hnu⟩ := HmrArena.dup_congr h name
  obtain ⟨hv, hvu⟩ := HmrArena.dup_congr hnu value
  unfold addHeader
  dsimp only
  rw [hn, hv]
  split
  · exact ⟨rfl, h⟩
  · split
    · exact ⟨rfl, hnu⟩
    · split
      · exact ⟨rfl, hvu⟩
      · split
        · exact ⟨rfl, hvu⟩
        · exact ⟨rfl, hvu⟩

/-- Nor does setting one, -/
theorem setHeader_congr (m : HmrSipMsg) {a a' : HmrArena} (h : a'.used = a.used)
    (name value : StringView) :
    (m.setHeader a' name value).2.1 = (m.setHeader a name value).2.1
      ∧ (m.setHeader a' name value).2.2.used = (m.setHeader a name value).2.2.used := by
  obtain ⟨hv, hvu⟩ := HmrArena.dup_congr h value
  unfold setHeader
  dsimp only
  rw [hv]
  split
  · exact ⟨rfl, hvu⟩
  · split
    · exact ⟨rfl, hvu⟩
    · exact m.addHeader_congr hvu name value

end HmrSipMsg

/-- or rebuilding a URI. -/
theorem Uri.rebuildUri_congr {a a' : HmrArena} (h : a'.used = a.used) (value : StringView)
    (element : HmrUriElement) (nv : StringView) :
    (rebuildUri a' value element nv).1 = (rebuildUri a value element nv).1
      ∧ (rebuildUri a' value element nv).2.used = (rebuildUri a value element nv).2.used := by
  cases hp : spliceOf value element with
  | none =>
    rw [rebuildUri_of_none hp, rebuildUri_of_none hp]
    exact HmrArena.dup_congr h value
  | some p =>
    have hr : a'.remaining = a.remaining := congrArg (kCapacity - ·) h
    cases ha : a.alloc (clip (p.apply value.text nv.text)).length with
    | none =>
      have ha' : a'.alloc (clip (p.apply value.text nv.text)).length = none := by
        rw [HmrArena.alloc_eq_none_iff] at ha ⊢
        omega
      rw [rebuildUri_of_full hp ha, rebuildUri_of_full hp ha']
      exact ⟨rfl, h⟩
    | some pa =>
      rw [rebuildUri_of_alloc hp ha]
      obtain ⟨dst, b⟩ := pa
      obtain ⟨rfl, -, hu, hle⟩ := HmrArena.alloc_eq_some ha
      obtain ⟨b', ha', hu'⟩ := HmrArena.alloc_of_le (hr ▸ hle)
      rw [rebuildUri_of_alloc hp ha', h]
      refine ⟨rfl, ?_⟩
      rw [HmrArena.write_used, HmrArena.write_used, hu, hu', h]

namespace World

/-- **Twins under two numberings**: the message is the same, as much of the arena
is handed out, and a slot or a regex that is used holds the same in both
contexts, under its number in each. -/
structure Twins (ks : List TableKey) (st st' : SymbolTable) (w w' : World) : Prop where
  msg : w'.msg = w.msg
  used : w'.ctx.arena.used = w.ctx.arena.used
  vars : w'.ctx.vars = w.ctx.vars
  hasMatch : w'.ctx.hasMatch = w.ctx.hasMatch
  lastMatch : w.ctx.hasMatch = true → w'.ctx.lastMatch = w.ctx.lastMatch
  scratch : w'.ctx.scratch = w.ctx.scratch
  logs : w'.ctx.logs = w.ctx.logs
  rejected : w'.ctx.rejected = w.ctx.rejected
  rejectCode : w'.ctx.rejectCode = w.ctx.rejectCode
  rejectReason : w'.ctx.rejectReason = w.ctx.rejectReason
  regexes : ∀ p ci, .regex p ci ∈ ks →
    w'.ctx.regexes[st'.regexId (some (p, ci))]? = w.ctx.regexes[st.regexId (some (p, ci))]?
  slots : ∀ n, .slot n ∈ ks →
    w'.ctx.slots[st'.slotId n]? = w.ctx.slots[st.slotId n]?

namespace Twins

variable {ks : List TableKey} {st st' : SymbolTable} {w w' : World}

/-- Twins have the same groups. -/
theorem getCapture (h : Twins ks st st' w w') (index : Nat) :
    Rt.getCapture w'.ctx index = Rt.getCapture w.ctx index := by
  unfold Rt.getCapture
  rw [h.hasMatch]
  cases hm : w.ctx.hasMatch with
  | false => rfl
  | true => rw [h.lastMatch hm]

/-- A search is the same search, and keeps the same groups. -/
theorem regexMatch (h : Twins ks st st' w w') (rx : RegexEngine) {p : Bytes} {ci : Bool}
    (hk : .regex p ci ∈ ks) (subject : HmrStr) :
    (Rt.regexMatch rx w'.ctx (st'.regexId (some (p, ci))) subject).1
        = (Rt.regexMatch rx w.ctx (st.regexId (some (p, ci))) subject).1
      ∧ Twins ks st st'
        { w with ctx := (Rt.regexMatch rx w.ctx (st.regexId (some (p, ci))) subject).2 }
        { w' with ctx := (Rt.regexMatch rx w'.ctx (st'.regexId (some (p, ci))) subject).2 } := by
  unfold Rt.regexMatch
  rw [h.regexes p ci hk]
  split
  · exact ⟨rfl, h⟩
  · split
    · exact ⟨rfl, { h with hasMatch := rfl, lastMatch := fun _ => rfl }⟩
    · exact ⟨rfl, { h with hasMatch := rfl, lastMatch := fun _ => rfl }⟩

/-- A store goes to the same slot. -/
theorem store (h : Twins ks st st' w w') (hst : ∀ k ∈ ks, st.Has k)
    (hst' : ∀ k ∈ ks, st'.Has k) {n : Bytes} (hk : .slot n ∈ ks) (v : HmrStr) :
    Twins ks st st' { w with ctx := Rt.store w.ctx (st.slotId n) v }
      { w' with ctx := Rt.store w'.ctx (st'.slotId n) v } := by
  refine { h with slots := fun n' hk' => ?_ }
  show (w'.ctx.slots.set (st'.slotId n) v.text)[st'.slotId n']?
    = (w.ctx.slots.set (st.slotId n) v.text)[st.slotId n']?
  rw [List.getElem?_set, List.getElem?_set]
  by_cases hn : n = n'
  · subst hn
    have hlen : st'.slotId n < w'.ctx.slots.length ↔ st.slotId n < w.ctx.slots.length := by
      rw [← Nat.not_le, ← Nat.not_le, ← List.getElem?_eq_none_iff,
        ← List.getElem?_eq_none_iff, h.slots n hk]
    simp [hlen]
  · have hid : st.slotId n ≠ st.slotId n' := fun he =>
      hn (SymbolTable.slotId_inj (hst _ hk) (hst _ hk') he)
    have hid' : st'.slotId n ≠ st'.slotId n' := fun he =>
      hn (SymbolTable.slotId_inj (hst' _ hk) (hst' _ hk') he)
    rw [if_neg hid, if_neg hid']
    exact h.slots n' hk'

/-- A write to the header table. -/
theorem write (h : Twins ks st st' w w') {msg msg' : HmrSipMsg} {a a' : HmrArena}
    (hm : msg' = msg) (hu : a'.used = a.used) :
    Twins ks st st' ⟨msg, { w.ctx with arena := a }⟩ ⟨msg', { w'.ctx with arena := a' }⟩ :=
  { h with msg := hm, used := hu }

/-- **Twins answer a call alike, and stay twins.** Call by call: the number of a slot or a regex
is another one in the longer table, but what it stands for is the same, and a call that uses
neither sees of the two worlds only what is the same in both. -/
theorem call (h : Twins ks st st' w w') (rx : RegexEngine) (hst : ∀ k ∈ ks, st.Has k)
    (hst' : ∀ k ∈ ks, st'.Has k) {i : RetTy} {c : SymCall i} (hc : Meaning.Uses ks i c) :
    (st.runtime rx i c w).1 = (st'.runtime rx i c w').1
      ∧ Twins ks st st' (st.runtime rx i c w).2 (st'.runtime rx i c w').2 := by
  obtain ⟨msg, ctx⟩ := w
  obtain ⟨msg', ctx'⟩ := w'
  obtain rfl : msg' = msg := h.msg
  -- Call by call: the number of a key is another one, but what it stands for is the same.
  cases c with
  | getHeader n => exact ⟨rfl, h⟩
  | setHeader n v =>
    obtain ⟨hm, ha⟩ := msg'.setHeader_congr h.used (HmrStr.ofBytes n).sv (HmrStr.ofBytes v).sv
    exact ⟨rfl, h.write hm ha⟩
  | addHeader n v =>
    obtain ⟨hm, ha⟩ := msg'.addHeader_congr h.used (HmrStr.ofBytes n).sv (HmrStr.ofBytes v).sv
    exact ⟨rfl, h.write hm ha⟩
  | deleteHeader n => exact ⟨rfl, { h with msg := rfl }⟩
  | getMethod => exact ⟨rfl, h⟩
  | isRequest => exact ⟨rfl, h⟩
  | hmrMatch t s p k =>
    cases k with
    | none =>
      cases t with
      | regex => exact absurd rfl hc
      | _ => exact ⟨rfl, h⟩
    | some r =>
      obtain ⟨rfl, hk⟩ := hc
      obtain ⟨hb, ht⟩ := h.regexMatch rx hk (.ofBytes s)
      exact ⟨hb.symm, ht⟩
  | getCapture index => exact ⟨congrArg HmrStr.text (h.getCapture index).symm, h⟩
  | getVar id =>
    refine ⟨?_, h⟩
    show (Rt.getVar ctx id).text = (Rt.getVar ctx' id).text
    rw [Rt.getVar_text, Rt.getVar_text, show ctx'.vars = ctx.vars from h.vars]
  | store slot value => exact ⟨rfl, h.store hst hst' hc (.ofBytes value)⟩
  | load slot =>
    refine ⟨?_, h⟩
    show (Rt.load ctx (st.slotId slot)).text = (Rt.load ctx' (st'.slotId slot)).text
    rw [Rt.load_text, Rt.load_text, show ctx'.slots[st'.slotId slot]? = _ from h.slots slot hc]
  | valReset => exact ⟨rfl, { h with scratch := rfl }⟩
  | valAppendLit literal =>
    exact ⟨rfl, { h with scratch := congrArg (· ++ clip literal) h.scratch }⟩
  | valAppendVar id =>
    refine ⟨rfl, ?_⟩
    show Twins ks st st' (if id = .none then _ else _) (if id = .none then _ else _)
    split
    · exact h
    · exact { h with scratch := congrArg₂ (· ++ ·) h.scratch (congrFun h.vars id) }
  | valAppendCapture index =>
    have hcap := congrArg HmrStr.text (h.getCapture index)
    exact ⟨rfl, { h with scratch := congrArg₂ (· ++ ·) h.scratch hcap }⟩
  | valAppendSlot slot =>
    have hslot := congrArg (fun o => o.getD []) (h.slots slot hc)
    exact ⟨rfl, { h with scratch := congrArg₂ (· ++ ·) h.scratch hslot }⟩
  | valFinish => exact ⟨congrArg clip h.scratch.symm, h⟩
  | uriGet value element => exact ⟨rfl, h⟩
  | uriSet value element nv =>
    obtain ⟨hs, ha⟩ := Uri.rebuildUri_congr h.used (HmrStr.ofBytes value).sv element
      (HmrStr.ofBytes nv).sv
    exact ⟨congrArg HmrStr.text hs.symm, h.write rfl ha⟩
  | log message => exact ⟨rfl, { h with logs := congrArg (· ++ [clip message]) h.logs }⟩
  | reject code reason =>
    exact ⟨rfl, { h with rejected := rfl, rejectCode := rfl, rejectReason := rfl }⟩

/-- **A program runs on twins alike.** -/
theorem run (h : Twins ks st st' w w') (rx : RegexEngine) (hst : ∀ k ∈ ks, st.Has k)
    (hst' : ∀ k ∈ ks, st'.Has k) {α : Type} {p : SymProg α} (hp : Meaning.UsesOnly ks p) :
    (p.run (st.runtime rx) w).1 = (p.run (st'.runtime rx) w').1
      ∧ Twins ks st st' (p.run (st.runtime rx) w).2 (p.run (st'.runtime rx) w').2 :=
  hp.simulates (fun _ _ _ _ hc hR => hR.call rx hst hst' hc) h

end Twins

end World

/-! ## Longer rulesets -/

/-- **A longer ruleset**: with more header rules behind, or with more element
rules in the last one, and more header rules behind that. -/
inductive Ruleset.Extends (rs : Ruleset) : Ruleset → Prop
  | rules (more : List HeaderRule) :
    Extends rs { rs with headerRules := rs.headerRules ++ more }
  | elements {before : List HeaderRule} {hr : HeaderRule}
    (h : rs.headerRules = before ++ [hr]) (es : List ElementRule) (more : List HeaderRule) :
    Extends rs { rs with
      headerRules := before ++ { hr with elementRules := hr.elementRules ++ es } :: more }

namespace Meaning

/-- More element rules in a rule that looks at its element rules have their keys
behind those of the rule. -/
theorem ruleKeys_extended {hr : HeaderRule} (hne : hr.action = .reject ∨ hr.elementRules ≠ [])
    (idx : Nat) (es : List ElementRule) :
    ∃ ks, ruleKeys idx { hr with elementRules := hr.elementRules ++ es }
      = ruleKeys idx hr ++ ks := by
  by_cases ha : hr.action = .reject
  · refine ⟨[], ?_⟩
    unfold ruleKeys actionKeys
    simp only [ha, if_true, List.append_nil]
  · have he := hne.resolve_left ha
    have haction : actionKeys idx { hr with elementRules := hr.elementRules ++ es }
        = actionKeys idx hr := by
      have hempty : (hr.elementRules ++ es).isEmpty = hr.elementRules.isEmpty := by
        cases hl : hr.elementRules with
        | nil => exact absurd hl he
        | cons er rest => rfl
      unfold actionKeys
      dsimp only
      rw [hempty]
      rfl
    refine ⟨es.flatMap (elementKeys hr), ?_⟩
    unfold ruleKeys
    rw [haction, if_neg ha, if_neg ha, List.append_assoc _ _ (es.flatMap _),
      ← List.flatMap_append]
    rfl

section
variable {σ : Type} {h : Handler SymCall RetTy.den σ} {s s' : σ}

/-- **Nothing behind a rule that rejects is run.** -/
theorem run_append_of_rejected {idx : Nat} {a : List HeaderRule}
    (ha : (rulesFrom callProg idx a).run h s = (.rejected, s')) (b : List HeaderRule) :
    (rulesFrom callProg idx (a ++ b)).run h s = (.rejected, s') := by
  have hnil := rulesFrom_append idx a []
  rw [List.append_nil] at hnil
  rw [hnil, Prog.run_bind] at ha
  rw [rulesFrom_append, Prog.run_bind]
  cases hf : ((flowFrom idx a).run h s).1 with
  | rejected =>
    rw [hf] at ha
    exact ha
  | «continue» =>
    rw [hf] at ha
    cases ha

/-- A rule that has no element rules and is no reject does not reject. -/
theorem run_rule_of_nil {hr : HeaderRule} (ha : hr.action ≠ .reject)
    (he : hr.elementRules = []) (idx : Nat) (s : σ) :
    ((rule callProg idx hr).run h s).1 = .continue := by
  have haction : ∀ hv t,
      ((headerAction callProg (store callProg idx) hr hv).run h t).1 = false := by
    intro hv t
    unfold headerAction
    rw [he]
    split
    · rw [Prog.run_bind]
      rfl
    · split
      · rw [Prog.run_bind]
        rfl
      · rfl
    · split
      · rw [Prog.run_bind]
        rfl
      · rfl
    · rfl
    · rfl
    · rw [Prog.run_bind]
      rfl
    · rw [Prog.run_bind]
      rfl
    · exact absurd ‹_› ha
    · rfl
  unfold rule headerRule
  rw [Prog.run_bind]
  cases ((fires callProg (guard callProg) hr).run h s).1 with
  | none => rfl
  | some hv =>
    dsimp only
    rw [Prog.run_bind, haction, he]
    rfl

/-- Element rules are run for the name of the header and the name of the rule,
and nothing else of it. -/
theorem elementRules_extended (hr : HeaderRule) (es' es : List ElementRule) :
    elementRules callProg (guard callProg) { hr with elementRules := es' } es
      = elementRules callProg (guard callProg) hr es := by
  induction es with
  | nil => rfl
  | cons er rest ih =>
    rw [elementRules, elementRules, ih]
    rfl

/-- **Nothing behind an element rule that rejects is run**, in its rule. The guards are the same,
and so is the action, but for a manipulate, which sets the header only where there are no element
rules; so the rule is asked for a rule that rejects itself or that has some already. -/
theorem run_rule_extended {idx : Nat} {hr : HeaderRule}
    (hrej : (rule callProg idx hr).run h s = (.rejected, s'))
    (hne : hr.action = .reject ∨ hr.elementRules ≠ []) (es : List ElementRule) :
    (rule callProg idx { hr with elementRules := hr.elementRules ++ es }).run h s
      = (.rejected, s') := by
  have haction : ∀ hv, headerAction callProg (store callProg idx)
      { hr with elementRules := hr.elementRules ++ es } hv
      = headerAction callProg (store callProg idx) hr hv := by
    intro hv
    obtain ha | he := hne
    · unfold headerAction
      rw [ha]
    · have hempty : (hr.elementRules ++ es).isEmpty = hr.elementRules.isEmpty := by
        cases hl : hr.elementRules with
        | nil => exact absurd hl he
        | cons er rest => rfl
      unfold headerAction
      dsimp only
      rw [hempty]
      rfl
  have hfires : fires callProg (guard callProg) { hr with elementRules := hr.elementRules ++ es }
      = fires callProg (guard callProg) hr := rfl
  unfold rule headerRule at hrej ⊢
  rw [Prog.run_bind] at hrej ⊢
  rw [hfires]
  -- The guards are the same, and so is the action, but for one that is skipped as soon as there
  -- are element rules.
  cases ho : ((fires callProg (guard callProg) hr).run h s).1 with
  | none =>
    rw [ho] at hrej
    cases hrej
  | some hv =>
    rw [ho] at hrej
    dsimp only at hrej ⊢
    rw [Prog.run_bind] at hrej ⊢
    rw [haction]
    split at hrej
    · rename_i hb
      rw [if_pos hb]
      exact hrej
    · rename_i hb
      rw [if_neg hb, elementRules_extended, elementRules_append, Prog.run_bind, hrej]
      rfl

/-- Nothing behind a rule that rejects is run, and nothing behind the element
rule that rejects in it. -/
theorem run_extended {before : List HeaderRule} {hr : HeaderRule}
    (hrej : (rulesFrom callProg 0 (before ++ [hr])).run h s = (.rejected, s'))
    (hne : hr.action = .reject ∨ hr.elementRules ≠ []) (es : List ElementRule)
    (more : List HeaderRule) :
    (rulesFrom callProg 0
        (before ++ { hr with elementRules := hr.elementRules ++ es } :: more)).run h s
      = (.rejected, s') := by
  rw [rulesFrom_append, Prog.run_bind] at hrej ⊢
  split at hrej
  · exact hrej
  · rw [rulesFrom, Prog.run_bind] at hrej ⊢
    cases hflow : (rule callProg (0 + before.length) hr).run h
        ((flowFrom 0 before).run h s).2 with
    | mk flow t =>
      rw [hflow] at hrej
      cases flow with
      | «continue» => cases hrej
      | rejected =>
        rw [run_rule_extended hflow hne es]
        exact hrej

/-- Where the last rule can not reject, a rule before it has. -/
theorem run_before_of_rejected {before : List HeaderRule} {hr : HeaderRule}
    (hrej : (rulesFrom callProg 0 (before ++ [hr])).run h s = (.rejected, s'))
    (ha : hr.action ≠ .reject) (he : hr.elementRules = []) :
    (rulesFrom callProg 0 before).run h s = (.rejected, s') := by
  have hnil := rulesFrom_append 0 before []
  rw [List.append_nil] at hnil
  rw [rulesFrom_append, Prog.run_bind] at hrej
  rw [hnil, Prog.run_bind]
  split at hrej
  · exact hrej
  · rw [rulesFrom, Prog.run_bind, run_rule_of_nil ha he] at hrej
    cases hrej

end

end Meaning

/-! ## Contexts for both -/

namespace Interpreter

open Meaning (keys keysFrom symbols program)

/-- **Contexts alike for two rulesets**: the same variables, and for a regex or a
slot that both rulesets use, the same under its number in each. -/
structure Alike (rs ext : Ruleset) (ctx ctx' : HmrContext) : Prop where
  vars : ctx'.vars = ctx.vars
  regexes : ∀ p ci, .regex p ci ∈ keys rs → .regex p ci ∈ keys ext →
    ctx'.regexes[(symbols ext).regexId (some (p, ci))]?
      = ctx.regexes[(symbols rs).regexId (some (p, ci))]?
  slots : ∀ n, .slot n ∈ keys rs → .slot n ∈ keys ext →
    ctx'.slots[(symbols ext).slotId n]? = ctx.slots[(symbols rs).slotId n]?

/-- Contexts made for the two are alike. -/
theorem alike_of_makeContext {rx : RegexEngine} {rs ext : Ruleset} {ctx ctx' : HmrContext}
    (h : makeContext rx (info rs) = some ctx) (h' : makeContext rx (info ext) = some ctx') :
    Alike rs ext ctx ctx' := by
  have hvars : ∀ {i : HmrModuleInfo} {c : HmrContext}, makeContext rx i = some c →
      c.vars = fun _ => [] := by
    intro i c hc
    unfold makeContext HmrContext.prepare at hc
    split at hc
    · rw [← Option.some.inj hc]
    · cases hc
  have hregex : ∀ {r : Ruleset} {c : HmrContext}, makeContext rx (info r) = some c →
      ∀ p ci, .regex p ci ∈ keys r →
        c.regexes[(symbols r).regexId (some (p, ci))]? = some (cString p, ci) := by
    intro r c hc p ci hk
    rw [(HmrContext.prepared_of_makeContext hc).1.regexes, (info_eq r).2, List.getElem?_map,
      SymbolTable.getElem?_regexId (Meaning.has_symbols r _ hk)]
    rfl
  have hslot : ∀ {r : Ruleset} {c : HmrContext}, makeContext rx (info r) = some c →
      ∀ n, .slot n ∈ keys r → c.slots[(symbols r).slotId n]? = some [] := by
    intro r c hc n hk
    have hlt := SymbolTable.slotId_lt (Meaning.has_symbols r _ hk)
    rw [(HmrContext.prepared_of_makeContext hc).2, (info_eq r).1,
      List.getElem?_replicate_of_lt hlt]
  exact {
    vars := (hvars h').trans (hvars h).symm
    regexes := fun p ci hk hk' => (hregex h' p ci hk').trans (hregex h p ci hk).symm
    slots := fun n hk hk' => (hslot h' n hk').trans (hslot h n hk).symm }

/-- **One context for both**: more header rules behind number their keys behind
the keys that are there. -/
theorem alike_self (rs : Ruleset) (more : List HeaderRule) (ctx : HmrContext) :
    Alike rs { rs with headerRules := rs.headerRules ++ more } ctx ctx := by
  have hsymbols : symbols { rs with headerRules := rs.headerRules ++ more }
      = (symbols rs).addAll (keysFrom (0 + rs.headerRules.length) more) := by
    unfold symbols keys
    rw [Meaning.keysFrom_append, SymbolTable.addAll_append]
  refine ⟨rfl, fun p ci hk _ => ?_, fun n hk _ => ?_⟩
  · rw [hsymbols, SymbolTable.regexId_addAll (Meaning.has_symbols rs _ hk)]
  · rw [hsymbols, SymbolTable.slotId_addAll (Meaning.has_symbols rs _ hk)]

/-- **Contexts for the two rulesets are twins**, on one message. -/
theorem Alike.twins {rs ext : Ruleset} {ctx ctx' : HmrContext} (h : Alike rs ext ctx ctx')
    {ks : List TableKey} (hrs : ks ⊆ keys rs) (hext : ks ⊆ keys ext) (msg : HmrSipMsg) :
    World.Twins ks (symbols rs) (symbols ext) ⟨msg, ctx.resetForApply⟩
      ⟨msg, ctx'.resetForApply⟩ where
  msg := rfl
  used := rfl
  vars := h.vars
  hasMatch := rfl
  lastMatch hm := nomatch hm
  scratch := rfl
  logs := rfl
  rejected := rfl
  rejectCode := rfl
  rejectReason := rfl
  regexes p ci hk := h.regexes p ci (hrs hk) (hext hk)
  slots n hk := h.slots n (hrs hk) (hext hk)

/-- Two rulesets with keys in common run a program over these keys alike. -/
theorem run_of_keys {rx : RegexEngine} {rs ext : Ruleset} {ks : List TableKey}
    (hrs : ks ⊆ keys rs) (hext : ks ⊆ keys ext) {ctx ctx' : HmrContext}
    (halike : Alike rs ext ctx ctx') {p : SymProg HmrVerdict} (hp : Meaning.UsesOnly ks p)
    {msg : HmrSipMsg} {v : HmrVerdict} {w : World}
    (hrun : p.run ((symbols rs).runtime rx) ⟨msg, ctx.resetForApply⟩ = (v, w)) :
    ∃ w', p.run ((symbols ext).runtime rx) ⟨msg, ctx'.resetForApply⟩ = (v, w')
      ∧ World.Twins ks (symbols rs) (symbols ext) w w' := by
  obtain ⟨hv, ht⟩ := (halike.twins hrs hext msg).run rx
    (fun k hk => Meaning.has_symbols rs k (hrs hk))
    (fun k hk => Meaning.has_symbols ext k (hext hk)) hp
  rw [hrun] at hv ht
  exact ⟨(p.run ((symbols ext).runtime rx) ⟨msg, ctx'.resetForApply⟩).2,
    Prod.ext hv.symm rfl, ht⟩

/-- **A longer ruleset rejects where the shorter one does**, and leaves a twin of what the
shorter one leaves. Either there are more rules behind the last one, or there are more element
rules in it and then more rules; what has rejected stands in front of all that is new, unless it
is the last rule itself, which runs the element rules it had first. -/
theorem program_extends {rx : RegexEngine} {rs ext : Ruleset} (hext : rs.Extends ext)
    {ctx ctx' : HmrContext} (halike : Alike rs ext ctx ctx') {msg : HmrSipMsg} {w : World}
    (hrej : (program rs).run ((symbols rs).runtime rx) ⟨msg, ctx.resetForApply⟩
      = (.rejected, w)) :
    ∃ ks w', (program ext).run ((symbols ext).runtime rx) ⟨msg, ctx'.resetForApply⟩
        = (.rejected, w')
      ∧ World.Twins ks (symbols rs) (symbols ext) w w' := by
  -- Either there are more rules, or there are more element rules in the last one and then more
  -- rules.
  cases hext with
  | rules more =>
    have hkeys : keys rs ⊆ keys { rs with headerRules := rs.headerRules ++ more } := by
      unfold keys
      rw [Meaning.keysFrom_append]
      exact List.subset_append_left _ _
    obtain ⟨w', hrun', ht⟩ := run_of_keys (List.Subset.refl _) hkeys halike
      (Meaning.program_uses rs) hrej
    exact ⟨_, w', Meaning.run_append_of_rejected hrun' more, ht⟩
  | elements h es more =>
    rename_i before hr
    have hshort : keys rs = keysFrom 0 before ++ keysFrom (0 + before.length) [hr] := by
      unfold keys
      rw [h, Meaning.keysFrom_append]
    have hlong : keys { rs with headerRules :=
        before ++ { hr with elementRules := hr.elementRules ++ es } :: more } = _ :=
      Meaning.keysFrom_append 0 before ({ hr with elementRules := hr.elementRules ++ es } :: more)
    by_cases hne : hr.action = .reject ∨ hr.elementRules ≠ []
    · -- the last rule looks at its element rules: its keys stay in front
      obtain ⟨ks, hks⟩ := Meaning.ruleKeys_extended hne (0 + before.length) es
      have hkeys : keys rs ⊆ keys { rs with headerRules :=
          before ++ { hr with elementRules := hr.elementRules ++ es } :: more } := by
        rw [hlong, hshort, keysFrom, keysFrom, keysFrom, hks, List.append_nil,
          List.append_assoc, ← List.append_assoc (keysFrom 0 before)]
        exact List.subset_append_left _ _
      obtain ⟨w', hrun', ht⟩ := run_of_keys (List.Subset.refl _) hkeys halike
        (Meaning.program_uses rs) hrej
      refine ⟨_, w', Meaning.run_extended ?_ hne es more, ht⟩
      rw [← h]
      exact hrun'
    · -- it can not reject: a rule before it did
      obtain ⟨ha, he⟩ := not_or.mp hne
      have hbefore : (Meaning.rulesFrom Meaning.callProg 0 before).run ((symbols rs).runtime rx)
          ⟨msg, ctx.resetForApply⟩ = (.rejected, w) := by
        rw [program, h] at hrej
        exact Meaning.run_before_of_rejected hrej ha (not_not.mp he)
      obtain ⟨w', hrun', ht⟩ := run_of_keys (hshort ▸ List.subset_append_left _ _)
        (hlong ▸ List.subset_append_left _ _) halike (Meaning.rulesFrom_uses (List.Subset.refl _))
        hbefore
      exact ⟨_, w', Meaning.run_append_of_rejected hrun' _, ht⟩

/-- **A reject is final, and recorded.** The verdict is a reject exactly when
the context says so, with code 403; and then a longer ruleset, on a context that
is the same as far as the shorter one goes, comes to the same verdict, message,
logs and reject. -/
theorem apply_reject (rx : RegexEngine) (rs : Ruleset) (msg : HmrSipMsg) (ctx : HmrContext) :
    let r := (apply rs).run (runtime rx) ⟨msg, ctx.resetForApply⟩
    (r.1 = .rejected ↔ r.2.ctx.rejected = true)
      ∧ (r.1 = .rejected → r.2.ctx.rejectCode = 403)
      ∧ (r.1 = .rejected → ∀ (ext : Ruleset) (ctx' : HmrContext), rs.Extends ext →
        Alike rs ext ctx ctx' →
        let r' := (apply ext).run (runtime rx) ⟨msg, ctx'.resetForApply⟩
        r'.1 = .rejected ∧ r'.2.msg = r.2.msg ∧ r'.2.ctx.logs = r.2.ctx.logs
          ∧ r'.2.ctx.rejected = r.2.ctx.rejected ∧ r'.2.ctx.rejectCode = r.2.ctx.rejectCode
          ∧ r'.2.ctx.rejectReason = r.2.ctx.rejectReason) := by
  have hrecorded : ((program rs).run ((symbols rs).runtime rx)
      ⟨msg, ctx.resetForApply⟩).2.ctx.recorded = _ :=
    Meaning.rulesFrom_tells rs.headerRules 0 ⟨msg, ctx.resetForApply⟩ rfl
  dsimp only
  rw [run_apply]
  cases hrun : (program rs).run ((symbols rs).runtime rx) ⟨msg, ctx.resetForApply⟩ with
  | mk v w =>
    rw [show (Meaning.rulesFrom Meaning.callProg 0 rs.headerRules).run _ _ = (v, w) from hrun,
      hrun] at hrecorded
    unfold HmrContext.recorded at hrecorded
    cases v with
    | ok =>
      refine ⟨⟨fun h => (nomatch h), fun h => ?_⟩, fun h => (nomatch h), fun h => (nomatch h)⟩
      dsimp only at h hrecorded
      rw [h] at hrecorded
      cases hrecorded
    | rejected =>
      dsimp only at hrecorded ⊢
      have hflag : w.ctx.rejected = true := by
        by_contra hf
        rw [if_neg hf] at hrecorded
        cases hrecorded
      rw [if_pos hflag] at hrecorded
      refine ⟨⟨fun _ => hflag, fun _ => rfl⟩, fun _ => Option.some.inj hrecorded, ?_⟩
      intro _ ext ctx' hext halike
      obtain ⟨ks, w', hrun', ht⟩ := program_extends hext halike hrun
      rw [run_apply, hrun']
      exact ⟨rfl, ht.msg, ht.logs, ht.rejected, ht.rejectCode, ht.rejectReason⟩

/-- A ruleset that rejects what has a `Bad` header, and logs nothing. -/
def refusing : Ruleset where
  headerRules := [{ headerName := txt "Bad", elementRules :=
    [{ type := .headerValue, action := .reject, name := txt "no" }] }]

/-- The same ruleset with a rule behind that would log. -/
def refusingThenLogging : Ruleset where
  headerRules := refusing.headerRules ++ [{ name := txt "seen", action := .log }]

/-- A request refused by the shorter ruleset is refused by the longer one, with
nothing logged. -/
theorem apply_reject_request :
    let r := (apply refusingThenLogging).run (runtime .blind)
      ⟨HmrSipMsg.parse (txt "A b\nBad: x\n\n"), HmrContext.resetForApply {}⟩
    r.1 = .rejected ∧ r.2.ctx.rejectCode = 403 ∧ r.2.ctx.logs = [] := by
  obtain ⟨-, hcode, hfinal⟩ := apply_reject .blind refusing
    (HmrSipMsg.parse (txt "A b\nBad: x\n\n")) {}
  have hrej : ((apply refusing).run (runtime .blind)
      ⟨HmrSipMsg.parse (txt "A b\nBad: x\n\n"), HmrContext.resetForApply {}⟩).1
        = .rejected := by decide
  have hlogs : ((apply refusing).run (runtime .blind)
      ⟨HmrSipMsg.parse (txt "A b\nBad: x\n\n"), HmrContext.resetForApply {}⟩).2.ctx.logs
        = [] := by decide
  obtain ⟨hv, -, hl, -, hc, -⟩ := hfinal hrej refusingThenLogging {} (.rules _)
    (alike_self refusing _ {})
  exact ⟨hv, hc.trans (hcode hrej), hl.trans hlogs⟩

end Interpreter

end Hmr
