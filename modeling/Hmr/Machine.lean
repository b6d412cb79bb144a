import Hmr.HeaderStore
import Hmr.Lowers
import Hmr.Serialize

/-!
# The machine behind the runtime

What a program sees of a message and its context are texts: a header list, the values of
the slots, the groups of the last match, a scratch buffer. `Machine` has these and nothing
else – no addresses, no ids, no bytes in an arena, of which only the number handed out is
left, because running out of it shows.

A slot of the machine is known by its name and a regex by its pattern, so that two
rulesets which number them differently run on the same machine. The runtime, through the
numbers of a ruleset, simulates the machine (`Machine.represents_runtime`), and the
outcome of a packet is what the machine says it is (`Interpreter.outcome_process`).

## What is represented

A world represents a machine (`Machine.Represents`) if it shows what the machine has, each
slot under the name that has its number, and each compiled regex under its pattern. The
machine has a value for every name, of which the world has only those in its table; the
others are never asked for by a program that belongs to the ruleset.

What no call changes – the body, the method, the first line – is of the machine as well,
as a program may ask for some of it, and as it is put out with the headers. So is what has
been logged.

## Packets

A context is reset before a packet, but the slots stay. So the machine of a packet starts
with the slots that the one before it has left (`HmrContext.slotsBy`), and what a packet
comes to depends on earlier packets through them alone.
-/

namespace Hmr

/-- The text `hmr_rt_uri_set` makes, if there is room for it. -/
def Uri.rebuilt (value : HmrStr) (element : HmrUriElement) (nv : HmrStr) : Bytes :=
  match Uri.spliceOf value.sv element with
  | none => value.text
  | some p => clip (p.apply value.text nv.text)

/-- **`rebuild_uri` makes that text**, when the arena has room for it. -/
theorem Uri.rebuildUri_spec (a : HmrArena) (value : HmrStr) (element : HmrUriElement)
    (nv : HmrStr) :
    ((rebuilt value element nv).length ≤ a.remaining
        ∧ (rebuildUri a value.sv element nv.sv).1.text = rebuilt value element nv
        ∧ (rebuildUri a value.sv element nv.sv).2.used
          = a.used + (rebuilt value element nv).length)
      ∨ (a.remaining < (rebuilt value element nv).length
        ∧ rebuildUri a value.sv element nv.sv = (HmrStr.empty, a)) := by
  unfold rebuilt
  -- A value without a host is copied, and any other one is spliced.
  cases hp : spliceOf value.sv element with
  | none =>
    rw [rebuildUri_of_none hp]
    obtain ⟨d, a', h⟩ | ⟨hroom, hdup, -⟩ := a.dup_sv value
    · rw [h.eq]
      exact Or.inl ⟨h.room, h.text, h.used⟩
    · exact Or.inr ⟨hroom, hdup⟩
  | some p =>
    cases ha : a.alloc (clip (p.apply value.sv.text nv.sv.text)).length with
    | none => exact Or.inr ⟨HmrArena.alloc_eq_none_iff.mp ha, rebuildUri_of_full hp ha⟩
    | some da =>
      rw [rebuildUri_of_alloc hp ha]
      obtain ⟨dst, a'⟩ := da
      obtain ⟨rfl, -, hu, hle⟩ := HmrArena.alloc_eq_some ha
      exact Or.inl ⟨hle, rfl, hu⟩

/-- **What a program sees of a message and its context.** -/
structure Machine where
  store : HeaderStore
  isRequest : Bool
  method : Bytes
  start : Bytes
  body : Bytes
  vars : HmrVarId → Bytes
  slots : Bytes → Bytes
  captures : List Bytes
  scratch : Bytes
  logs : List Bytes
  rejected : Bool
  rejectCode : Nat
  rejectReason : Bytes

namespace Machine

/-- The text of a capture. -/
def capture (m : Machine) (index : Nat) : Bytes := (m.captures[index]?).getD []

/-- Search for a pattern and keep the groups; a search that fails leaves
none. -/
def search (rx : RegexEngine) (m : Machine) (key : RegexKey) (subject : Bytes) :
    Bool × Machine :=
  match key with
  | none => (false, m)
  | some (pattern, icase) =>
    match rx.search (cString pattern) icase subject with
    | none => (false, { m with captures := [] })
    | some groups =>
      (true, { m with captures := groups.map fun g =>
        match g with
        | none => []
        | some (off, len) => clip ((subject.drop off).take len) })

/-- Set a slot. -/
def setSlot (m : Machine) (slot value : Bytes) : Machine :=
  { m with slots := fun k => if k = slot then value else m.slots k }

/-- Take arena space for a text. -/
def build (m : Machine) (s : Bytes) : Bytes × Machine :=
  match m.store.claim s.length with
  | none => ([], m)
  | some store => (s, { m with store := store })

/-- **What the calls do to the machine.** -/
def calls (rx : RegexEngine) : Handler SymCall RetTy.den Machine
  | _, .getHeader name, m => (m.store.get (clip name), m)
  | _, .setHeader name value, m =>
    ((), { m with store := (m.store.set (clip name) (clip value)).2 })
  | _, .addHeader name value, m =>
    ((), { m with store := (m.store.add (clip name) (clip value)).2 })
  | _, .deleteHeader name, m => ((), { m with store := (m.store.delete (clip name)).2 })
  | _, .getMethod, m => (m.method, m)
  | _, .isRequest, m => (m.isRequest, m)
  | _, .hmrMatch .regex subject _ key, m => m.search rx key (clip subject)
  | _, .hmrMatch t subject pattern _, m =>
    (Matchers.matchLiteral t (clip subject) (clip pattern), m)
  | _, .getCapture index, m => (m.capture index, m)
  | _, .getVar id, m => (if id = .none then [] else clip (m.vars id), m)
  | _, .store slot value, m => ((), m.setSlot slot (clip value))
  | _, .load slot, m => (clip (m.slots slot), m)
  | _, .valReset, m => ((), { m with scratch := [] })
  | _, .valAppendLit literal, m => ((), { m with scratch := m.scratch ++ clip literal })
  | _, .valAppendVar id, m =>
    ((), if id = .none then m else { m with scratch := m.scratch ++ m.vars id })
  | _, .valAppendCapture index, m =>
    ((), { m with scratch := m.scratch ++ m.capture index })
  | _, .valAppendSlot slot, m => ((), { m with scratch := m.scratch ++ m.slots slot })
  | _, .valFinish, m => (clip m.scratch, m)
  | _, .uriGet headerValue element, m =>
    ((Uri.component (.ofBytes headerValue) element).text, m)
  | _, .uriSet headerValue element newValue, m =>
    m.build (Uri.rebuilt (.ofBytes headerValue) element (.ofBytes newValue))
  | _, .log message, m => ((), { m with logs := m.logs ++ [clip message] })
  | _, .reject code reason, m =>
    ((), { m with rejected := true, rejectCode := code, rejectReason := clip reason })

/-- The message as it would be put out. -/
def rendered (m : Machine) : Bytes :=
  m.start ++ crlf ++ m.store.live.flatMap HmrSipMsg.renderHeader ++ crlf ++ m.body

end Machine

/-! ## Outcomes -/

/-- **What a packet comes to**: the verdict, the message as serialized, the
reject state and the logs. -/
structure Outcome where
  verdict : HmrVerdict
  message : Bytes
  rejected : Bool
  rejectCode : Nat
  rejectReason : Bytes
  logs : List Bytes
  deriving DecidableEq, Repr

/-- The outcome of a run: the message is serialized into an arena of its
own. -/
def World.outcome (v : HmrVerdict) (w : World) : Outcome where
  verdict := v
  message := (w.msg.serialize .fresh).1.text
  rejected := w.ctx.rejected
  rejectCode := w.ctx.rejectCode
  rejectReason := w.ctx.rejectReason
  logs := w.ctx.logs

/-- The outcome of a run of the machine. -/
def Machine.outcome (v : HmrVerdict) (m : Machine) : Outcome where
  verdict := v
  message := if m.rendered.length ≤ kCapacity then m.rendered else []
  rejected := m.rejected
  rejectCode := m.rejectCode
  rejectReason := m.rejectReason
  logs := m.logs

/-! ## The machine a message and its context stand for -/

/-- What no call changes: the first line and the body. -/
def HmrSipMsg.frame (m : HmrSipMsg) : Bool × HmrStr × HmrStr × HmrStr × HmrStr × HmrStr :=
  (m.isRequest, m.startLine, m.method, m.requestUri, m.body, m.modRequestUri)

namespace HmrSipMsg

/-- A header that is appended changes nothing else. -/
theorem frame_push {m m' : HmrSipMsg} {h : Header} (hm : m.push h = some m') :
    m'.frame = m.frame := by
  obtain ⟨hle, rfl⟩ := eq_of_push hm
  rfl

/-- Adding a header changes the table only. -/
@[simp] theorem frame_addHeader (m : HmrSipMsg) (a : HmrArena) (name value : HmrStr) :
    (m.addHeader a name.sv value.sv).2.1.frame = m.frame := by
  obtain ⟨-, heq⟩ | ⟨-, -, heq⟩ | ⟨dn, a₁, -, -, -, heq⟩ |
    ⟨dn, a₁, dv, a₂, m', -, -, -, hm', heq⟩ := m.addHeader_cases a name value
  · rw [heq]
  · rw [heq]
  · rw [heq]
  · rw [heq]
    exact frame_push hm'

/-- So does setting one. -/
@[simp] theorem frame_setHeader (m : HmrSipMsg) (a : HmrArena) (name value : HmrStr) :
    (m.setHeader a name.sv value.sv).2.1.frame = m.frame := by
  obtain ⟨-, heq⟩ | ⟨dv, a₁, i, -, -, heq⟩ | ⟨dv, a₁, -, -, heq⟩ :=
    m.setHeader_cases a name value
  · rw [heq]
  · rw [heq]
    rfl
  · rw [heq]
    exact m.frame_addHeader a₁ name value

end HmrSipMsg

/-- The groups of the last match, as texts. -/
def HmrContext.captures (ctx : HmrContext) : List Bytes :=
  if ctx.hasMatch then ctx.lastMatch.map fun g => (g.getD HmrStr.empty).text else []

/-- A group that is not there reads empty. -/
theorem Rt.getCapture_text (ctx : HmrContext) (index : Nat) :
    (Rt.getCapture ctx index).text = (ctx.captures[index]?).getD [] := by
  unfold Rt.getCapture HmrContext.captures
  cases ctx.hasMatch with
  | false => rfl
  | true =>
    rw [if_pos rfl, if_pos rfl, List.getElem?_map]
    cases ctx.lastMatch[index]? with
    | none => rfl
    | some g => rfl

namespace Machine

variable {st : SymbolTable} {rx : RegexEngine}

/-- **The message and its context stand for the machine**, through the
numbers `st`. -/
structure Represents (st : SymbolTable) (w : World) (m : Machine) : Prop where
  store : w.msg.storeOf w.ctx.arena = m.store
  isRequest : w.msg.isRequest = m.isRequest
  method : w.msg.method.text = m.method
  start : w.msg.firstLine.flatten = m.start
  body : w.msg.body.text = m.body
  vars : w.ctx.vars = m.vars
  regexes : w.ctx.regexes = st.regexes.map fun r => (cString r.1, r.2)
  slots : ∀ k, st.Has (.slot k) → w.ctx.slots[st.slotId k]? = some (m.slots k)
  captures : w.ctx.captures = m.captures
  scratch : w.ctx.scratch = m.scratch
  logs : w.ctx.logs = m.logs
  rejected : w.ctx.rejected = m.rejected
  rejectCode : w.ctx.rejectCode = m.rejectCode
  rejectReason : w.ctx.rejectReason = m.rejectReason

/-- A write to the header table. -/
theorem Represents.write {w : World} {m : Machine} (h : Represents st w m)
    {msg : HmrSipMsg} {a : HmrArena} {s : HeaderStore} (hs : msg.storeOf a = s)
    (hf : msg.frame = w.msg.frame) :
    Represents st ⟨msg, { w.ctx with arena := a }⟩ { m with store := s } := by
  simp only [HmrSipMsg.frame, Prod.mk.injEq] at hf
  obtain ⟨hreq, hstart, hmethod, huri, hbody, hmod⟩ := hf
  have hline : msg.firstLine = w.msg.firstLine := by
    unfold HmrSipMsg.firstLine
    rw [hreq, hstart, huri, hmod]
  exact { h with
    store := hs
    isRequest := hreq.trans h.isRequest
    method := (congrArg HmrStr.text hmethod).trans h.method
    start := (congrArg List.flatten hline).trans h.start
    body := (congrArg HmrStr.text hbody).trans h.body }

/-- A search. -/
theorem Represents.search {w : World} {m : Machine} (h : Represents st w m) {p : Bytes}
    {ci : Bool} (hk : st.Has (.regex p ci)) (subject : HmrStr) :
    (Rt.regexMatch rx w.ctx (st.regexId (some (p, ci))) subject).1
        = (m.search rx (some (p, ci)) subject.text).1
      ∧ Represents st
        { w with ctx := (Rt.regexMatch rx w.ctx (st.regexId (some (p, ci))) subject).2 }
        (m.search rx (some (p, ci)) subject.text).2 := by
  have hget : w.ctx.regexes[st.regexId (some (p, ci))]? = some (cString p, ci) := by
    rw [h.regexes, List.getElem?_map, SymbolTable.getElem?_regexId hk]
    rfl
  unfold Rt.regexMatch Machine.search
  rw [hget]
  dsimp only
  cases rx.search (cString p) ci subject.text with
  | none => exact ⟨rfl, { h with captures := rfl }⟩
  | some groups =>
    refine ⟨rfl, { h with captures := ?_ }⟩
    show (groups.map _).map _ = groups.map _
    rw [List.map_map]
    refine List.map_congr_left fun g _ => ?_
    cases g with
    | none => rfl
    | some g => rfl

/-- A write to a slot. -/
theorem Represents.setSlot {w : World} {m : Machine} (h : Represents st w m) {slot : Bytes}
    (hk : st.Has (.slot slot)) (value : HmrStr) :
    Represents st { w with ctx := Rt.store w.ctx (st.slotId slot) value }
      (m.setSlot slot value.text) := by
  refine { h with slots := fun k hk' => ?_ }
  show (w.ctx.slots.set (st.slotId slot) value.text)[st.slotId k]?
    = some (if k = slot then value.text else m.slots k)
  have hlt : st.slotId slot < w.ctx.slots.length :=
    (List.getElem?_eq_some_iff.mp (h.slots slot hk)).1
  by_cases he : k = slot
  · rw [if_pos he, he, List.getElem?_set_self hlt]
  · rw [if_neg he, List.getElem?_set_ne, h.slots k hk']
    exact fun hid => he (SymbolTable.slotId_inj hk' hk hid.symm)

/-- New arena space. -/
theorem Represents.build {w : World} {m : Machine} (h : Represents st w m) (value : HmrStr)
    (element : HmrUriElement) (nv : HmrStr) :
    (Rt.uriSet w.ctx value element nv).1.text = (m.build (Uri.rebuilt value element nv)).1
      ∧ Represents st { w with ctx := (Rt.uriSet w.ctx value element nv).2 }
        (m.build (Uri.rebuilt value element nv)).2 := by
  have hstore := h.store
  unfold Rt.uriSet Machine.build
  dsimp only
  obtain ⟨hroom, htext, hused⟩ | ⟨hroom, heq⟩ :=
    Uri.rebuildUri_spec w.ctx.arena value element nv
  · have hclaim : m.store.claim (Uri.rebuilt value element nv).length
        = some (w.msg.storeOf (Uri.rebuildUri w.ctx.arena value.sv element nv.sv).2) := by
      rw [← hstore]
      refine (if_pos hroom).trans ?_
      rw [HmrSipMsg.storeOf, HmrSipMsg.storeOf, hused]
    rw [hclaim]
    exact ⟨htext, h.write rfl rfl⟩
  · rw [← hstore, HmrSipMsg.claim_of_lt _ hroom, heq]
    exact ⟨rfl, h⟩

/-- **One call of the runtime does what the machine does.**

Call by call. The calls on headers are those of the store (`storeOf_setHeader` and its like); a
regex or a slot that the call names has a number, and under that number the context has the
compiled pattern or the slot's text; groups are read as the texts of their views; and a rebuilt
URI takes as much room in the arena as the machine puts down for it. -/
theorem Represents.call {w : World} {m : Machine} (h : Represents st w m) {i : RetTy}
    {c : SymCall i} {ks : List TableKey} (hc : Meaning.Uses ks i c) (hks : ∀ k ∈ ks, st.Has k) :
    (runtime rx i (st.resolve i c) w).1 = (calls rx i c m).1
      ∧ Represents st (runtime rx i (st.resolve i c) w).2 (calls rx i c m).2 := by
  have hcap : ∀ i, (Rt.getCapture w.ctx i).text = m.capture i := by
    intro i
    rw [Rt.getCapture_text, h.captures]
    rfl
  -- Call by call: what is answered is read off what is represented, and what is written is
  -- written in both.
  cases c with
  | getHeader name =>
    refine ⟨?_, h⟩
    show (w.msg.getHeader _).text = m.store.get _
    rw [w.msg.getHeader_text w.ctx.arena, h.store]
    rfl
  | setHeader name value =>
    refine ⟨rfl, h.write ?_ (w.msg.frame_setHeader _ (.ofBytes name) (.ofBytes value))⟩
    have := congrArg Prod.snd
      (w.msg.storeOf_setHeader w.ctx.arena (.ofBytes name) (.ofBytes value))
    rwa [h.store] at this
  | addHeader name value =>
    refine ⟨rfl, h.write ?_ (w.msg.frame_addHeader _ (.ofBytes name) (.ofBytes value))⟩
    have := congrArg Prod.snd
      (w.msg.storeOf_addHeader w.ctx.arena (.ofBytes name) (.ofBytes value))
    rwa [h.store] at this
  | deleteHeader name =>
    refine ⟨rfl, ?_⟩
    have := congrArg Prod.snd (w.msg.storeOf_deleteHeader w.ctx.arena (clip name))
    rw [h.store] at this
    exact h.write this rfl
  | getMethod => exact ⟨h.method, h⟩
  | isRequest => exact ⟨h.isRequest, h⟩
  | hmrMatch t subject pattern key =>
    cases key with
    | none =>
      cases t with
      | regex => exact absurd rfl hc
      | _ => exact ⟨rfl, h⟩
    | some r =>
      obtain ⟨rfl, hk⟩ := hc
      exact h.search (hks _ hk) (.ofBytes subject)
  | getCapture index => exact ⟨hcap index, h⟩
  | getVar id =>
    refine ⟨?_, h⟩
    show (Rt.getVar w.ctx id).text = if id = .none then [] else clip (m.vars id)
    rw [Rt.getVar_text, h.vars]
  | store slot value => exact ⟨rfl, h.setSlot (hks _ hc) (.ofBytes value)⟩
  | load slot =>
    refine ⟨?_, h⟩
    show (Rt.load w.ctx (st.slotId slot)).text = clip (m.slots slot)
    rw [Rt.load_text, h.slots slot (hks _ hc)]
    rfl
  | valReset => exact ⟨rfl, { h with scratch := rfl }⟩
  | valAppendLit literal =>
    exact ⟨rfl, { h with scratch := congrArg (· ++ clip literal) h.scratch }⟩
  | valAppendVar id =>
    refine ⟨rfl, ?_⟩
    show Represents st (if id = .none then w else _) (if id = .none then m else _)
    split
    · exact h
    · exact { h with scratch := congrArg₂ (· ++ ·) h.scratch (congrFun h.vars id) }
  | valAppendCapture index =>
    exact ⟨rfl, { h with scratch := congrArg₂ (· ++ ·) h.scratch (hcap index) }⟩
  | valAppendSlot slot =>
    have hs : (w.ctx.slots[st.slotId slot]?).getD [] = m.slots slot := by
      rw [h.slots slot (hks _ hc)]
      rfl
    exact ⟨rfl, { h with scratch := congrArg₂ (· ++ ·) h.scratch hs }⟩
  | valFinish => exact ⟨congrArg clip h.scratch, h⟩
  | uriGet headerValue element => exact ⟨rfl, h⟩
  | uriSet headerValue element newValue =>
    exact h.build (.ofBytes headerValue) element (.ofBytes newValue)
  | log message => exact ⟨rfl, { h with logs := congrArg (· ++ [clip message]) h.logs }⟩
  | reject code reason =>
    exact ⟨rfl, { h with rejected := rfl, rejectCode := rfl, rejectReason := rfl }⟩

/-- **A program does through the runtime what it does on the machine.** -/
theorem represents_runtime (rx : RegexEngine) {ks : List TableKey} (hks : ∀ k ∈ ks, st.Has k)
    {α : Type} {p : SymProg α} (hp : Meaning.UsesOnly ks p) {w : World} {m : Machine}
    (h : Represents st w m) :
    ((p.mapCalls st.resolve).run (runtime rx) w).1 = (p.run (calls rx) m).1
      ∧ Represents st ((p.mapCalls st.resolve).run (runtime rx) w).2
        (p.run (calls rx) m).2 := by
  rw [Prog.run_mapCalls]
  exact hp.simulates (fun i c w m hc hR => hR.call hc hks) h

/-- **What is put out** is what the machine says. -/
theorem Represents.rendered {w : World} {m : Machine} (h : Represents st w m) :
    w.msg.rendered = m.rendered := by
  rw [w.msg.rendered_eq, h.start, h.body, Machine.rendered, ← h.store]
  rfl

/-- **The outcome is that of the machine.** -/
theorem Represents.outcome {w : World} {m : Machine} (h : Represents st w m)
    (v : HmrVerdict) : w.outcome v = m.outcome v := by
  have hr := h.rendered
  have hm : (w.msg.serialize .fresh).1.text
      = if m.rendered.length ≤ kCapacity then m.rendered else [] := by
    obtain ⟨-, ⟨hfit, htext, -⟩ | ⟨hfit, hempty⟩⟩ := w.msg.serialize_spec .fresh
    · rw [htext, ← hr]
      exact (if_pos hfit).symm
    · rw [hempty, ← hr]
      exact (if_neg (Nat.not_le_of_lt hfit)).symm
  unfold World.outcome Machine.outcome
  rw [hm, h.rejected, h.rejectCode, h.rejectReason, h.logs]

end Machine

/-! ## Contexts and packets -/

/-- A context prepared for a module: its regexes, and a place for each of its
slots. -/
structure HmrContext.Prepared (info : HmrModuleInfo) (ctx : HmrContext) : Prop where
  regexes : ctx.regexes = info.regexes.map fun r => (cString r.1, r.2)
  slots : ctx.slots.length = info.numSlots

/-- A new context is prepared, and its slots are empty. -/
theorem HmrContext.prepared_of_makeContext {rx : RegexEngine} {info : HmrModuleInfo}
    {ctx : HmrContext} (h : makeContext rx info = some ctx) :
    ctx.Prepared info ∧ ctx.slots = List.replicate info.numSlots [] := by
  unfold makeContext HmrContext.prepare at h
  split at h
  · rw [← Option.some.inj h]
    exact ⟨⟨rfl, List.length_replicate⟩, rfl⟩
  · cases h

/-- The slots of a context, by name. -/
def HmrContext.slotsBy (ctx : HmrContext) (st : SymbolTable) (name : Bytes) : Bytes :=
  (ctx.slots[st.slotId name]?).getD []

/-- The machine a packet meets: its own headers, and what the context kept. -/
def Machine.ofPacket (raw : Bytes) (vars : HmrVarId → Bytes) (slots : Bytes → Bytes) :
    Machine where
  store := (HmrSipMsg.parse raw).storeOf .fresh
  isRequest := (HmrSipMsg.parse raw).isRequest
  method := (HmrSipMsg.parse raw).method.text
  start := (HmrSipMsg.parse raw).firstLine.flatten
  body := (HmrSipMsg.parse raw).body.text
  vars := vars
  slots := slots
  captures := []
  scratch := []
  logs := []
  rejected := false
  rejectCode := 0
  rejectReason := []

/-- **A packet in a prepared context** is one for the machine. -/
theorem HmrContext.Prepared.represents {rs : Ruleset} {ctx : HmrContext}
    (h : ctx.Prepared (Interpreter.info rs)) (raw : Bytes) :
    Machine.Represents (Meaning.symbols rs) ⟨HmrSipMsg.parse raw, ctx.resetForApply⟩
      (.ofPacket raw ctx.vars (ctx.slotsBy (Meaning.symbols rs))) where
  store := rfl
  isRequest := rfl
  method := rfl
  start := rfl
  body := rfl
  vars := rfl
  regexes := by
    rw [← (Interpreter.info_eq rs).2]
    exact h.regexes
  slots k hk := by
    have hlt : (Meaning.symbols rs).slotId k < ctx.slots.length := by
      rw [h.slots, (Interpreter.info_eq rs).1]
      exact SymbolTable.slotId_lt hk
    show ctx.slots[_]? = some ((ctx.slots[_]?).getD [])
    rw [List.getElem?_eq_getElem hlt]
    rfl
  captures := rfl
  scratch := rfl
  logs := rfl
  rejected := rfl
  rejectCode := rfl
  rejectReason := rfl

/-- **A packet**: the context is reset, the packet parsed, the ruleset
applied. -/
def Interpreter.process (rx : RegexEngine) (rs : Ruleset) (ctx : HmrContext) (raw : Bytes) :
    Outcome × HmrContext :=
  let r := (apply rs).run (runtime rx) ⟨HmrSipMsg.parse raw, ctx.resetForApply⟩
  (r.2.outcome r.1, r.2.ctx)

/-- The context after a sequence of packets. -/
def Interpreter.after (rx : RegexEngine) (rs : Ruleset) (ctx : HmrContext)
    (packets : List Bytes) : HmrContext :=
  packets.foldl (fun ctx raw => (process rx rs ctx raw).2) ctx

/-- The run of the machine for a packet. -/
def Machine.process (rx : RegexEngine) (rs : Ruleset) (raw : Bytes)
    (vars : HmrVarId → Bytes) (slots : Bytes → Bytes) : HmrVerdict × Machine :=
  (Meaning.program rs).run (Machine.calls rx) (.ofPacket raw vars slots)

/-- Every slot and regex of a ruleset has a number. -/
theorem Meaning.has_symbols (rs : Ruleset) : ∀ k ∈ keys rs, (symbols rs).Has k :=
  fun _ hk => SymbolTable.has_addAll.mpr (Or.inr hk)

/-- **The machine says what a packet comes to**, and what the context keeps of
it. -/
theorem Interpreter.represents_process {rx : RegexEngine} {rs : Ruleset} {ctx : HmrContext}
    (h : ctx.Prepared (info rs)) (raw : Bytes) :
    let r := Machine.process rx rs raw ctx.vars (ctx.slotsBy (Meaning.symbols rs))
    (process rx rs ctx raw).1 = r.2.outcome r.1
      ∧ ∃ msg, Machine.Represents (Meaning.symbols rs) ⟨msg, (process rx rs ctx raw).2⟩
        r.2 := by
  have hrun := Machine.represents_runtime rx (Meaning.has_symbols rs)
    (Meaning.program_uses rs) (h.represents raw)
  unfold process
  rw [apply_eq, symbols_tables]
  refine ⟨?_, _, hrun.2⟩
  dsimp only
  rw [hrun.1]
  exact hrun.2.outcome _

/-- **What a packet comes to** is what it comes to on the machine. -/
theorem Interpreter.outcome_process {rx : RegexEngine} {rs : Ruleset} {ctx : HmrContext}
    (h : ctx.Prepared (info rs)) (raw : Bytes) :
    (process rx rs ctx raw).1
      = (Machine.process rx rs raw ctx.vars (ctx.slotsBy (Meaning.symbols rs))).2.outcome
        (Machine.process rx rs raw ctx.vars (ctx.slotsBy (Meaning.symbols rs))).1 :=
  (represents_process h raw).1

end Hmr
