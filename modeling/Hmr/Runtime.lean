import Hmr.Context
import Hmr.Matchers
import Hmr.Prog
import Hmr.SipMessage
import Hmr.Uri

/-!
# The runtime interface

Every back-end acts on a packet through the `hmr_rt_*` functions and in no other way.
`RtCall` is the signature of those calls – with the type of string operands, slot ids and
regex ids left open, since an interpreter passes values where a code generator passes the
names of values – and `runtime` is what they do to a message and its context.

The calls that write return whether they did, but no caller looks; so their answer is
nothing.

A string is passed as a view, and its length is cut to 32 bits when it is. What a call
answers is a text here, and not a view: the back-ends pass on what they get, and the
runtime reads it where it copies it, so that the address makes no difference
(`HeadersRead`, and `ArenaViews` for the copies themselves). A slot or a regex that is not
there reads empty, or does not match.
-/

namespace Hmr

/-! ## The functions of the C interface -/

namespace Rt

variable (rx : RegexEngine)

/-- `hmr_rt_regex_match`: an id out of range matches nothing and changes
nothing. -/
def regexMatch (ctx : HmrContext) (regexId : Nat) (subject : HmrStr) :
    Bool × HmrContext :=
  match ctx.regexes[regexId]? with
  | none => (false, ctx)
  | some (pattern, icase) =>
    match rx.search pattern icase subject.text with
    | none => (false, { ctx with lastMatch := [], hasMatch := false })
    | some groups =>
      (true, { ctx with
        lastMatch := groups.map fun g =>
          g.map fun (off, len) => .of (subject.sv.substr off len)
        hasMatch := true })

/-- `hmr_rt_match`. -/
def hmrMatch (ctx : HmrContext) (t : HmrMatchType) (subject pattern : HmrStr)
    (regexId : Nat) : Bool × HmrContext :=
  match t with
  | .regex => regexMatch rx ctx regexId subject
  | t => (Matchers.matchLiteral t subject.text pattern.text, ctx)

/-- **A matcher keeps the groups of a search**, and writes nothing else. -/
theorem hmrMatch_snd (ctx : HmrContext) (t : HmrMatchType) (subject pattern : HmrStr)
    (regexId : Nat) :
    ∃ groups found, (hmrMatch rx ctx t subject pattern regexId).2
      = { ctx with lastMatch := groups, hasMatch := found } := by
  unfold hmrMatch
  split
  · unfold regexMatch
    split
    · exact ⟨_, _, rfl⟩
    · split
      · exact ⟨_, _, rfl⟩
      · exact ⟨_, _, rfl⟩
  · exact ⟨_, _, rfl⟩

/-- `hmr_rt_get_capture`. -/
def getCapture (ctx : HmrContext) (index : Nat) : HmrStr :=
  if ctx.hasMatch then (ctx.lastMatch[index]?.getD none).getD HmrStr.empty
  else HmrStr.empty

/-- `hmr_rt_get_var`. -/
def getVar (ctx : HmrContext) (id : HmrVarId) : HmrStr :=
  if id = .none then HmrStr.empty else .ofBytes (ctx.vars id)

/-- `hmr_rt_store`: a slot out of range is not there. -/
def store (ctx : HmrContext) (slot : Nat) (value : HmrStr) : HmrContext :=
  { ctx with slots := ctx.slots.set slot value.text }

/-- `hmr_rt_load`. -/
def load (ctx : HmrContext) (slot : Nat) : HmrStr :=
  match ctx.slots[slot]? with
  | none => HmrStr.empty
  | some s => .ofBytes s

/-- A variable reads its text; the one of none is empty. -/
@[simp] theorem getVar_text (ctx : HmrContext) (id : HmrVarId) :
    (getVar ctx id).text = if id = .none then [] else clip (ctx.vars id) := by
  unfold getVar
  split
  · rfl
  · rfl

/-- A slot reads what is stored there; one that is not there is empty. -/
@[simp] theorem load_text (ctx : HmrContext) (slot : Nat) :
    (load ctx slot).text = clip ((ctx.slots[slot]?).getD []) := by
  unfold load
  cases ctx.slots[slot]? with
  | none => rfl
  | some s => rfl

/-- `hmr_rt_uri_set`. -/
def uriSet (ctx : HmrContext) (headerValue : HmrStr) (element : HmrUriElement)
    (newValue : HmrStr) : HmrStr × HmrContext :=
  let (s, a) := Uri.rebuildUri ctx.arena headerValue.sv element newValue.sv
  (s, { ctx with arena := a })

/-- `hmr_rt_reject`. -/
def reject (ctx : HmrContext) (code : Nat) (reason : HmrStr) : HmrContext :=
  { ctx with rejected := true, rejectCode := code, rejectReason := reason.text }

/-- `hmr_rt_str_eq`. -/
def strEq (a b : Bytes) (caseInsensitive : Bool) : Bool :=
  if caseInsensitive then iequals a b else a == b

end Rt

/-! ## The calls -/

/-- What a call answers. -/
inductive RetTy
  | str | flag | unit

/-- The answers of each kind. A string answer is the text it shows: a null
view is an empty one to everything that takes a string. -/
abbrev RetTy.den : RetTy → Type
  | str => Bytes
  | flag => Bool
  | unit => Unit

/-- **The calls of the runtime interface**, over string operands `V`, slots
`S` and regexes `R`. -/
inductive RtCall (V S R : Type) : RetTy → Type
  | getHeader (name : V) : RtCall V S R .str
  | setHeader (name value : V) : RtCall V S R .unit
  | addHeader (name value : V) : RtCall V S R .unit
  | deleteHeader (name : V) : RtCall V S R .unit
  | getMethod : RtCall V S R .str
  | isRequest : RtCall V S R .flag
  | hmrMatch (t : HmrMatchType) (subject pattern : V) (regex : R) : RtCall V S R .flag
  | getCapture (index : Nat) : RtCall V S R .str
  | getVar (id : HmrVarId) : RtCall V S R .str
  | store (slot : S) (value : V) : RtCall V S R .unit
  | load (slot : S) : RtCall V S R .str
  | valReset : RtCall V S R .unit
  | valAppendLit (literal : V) : RtCall V S R .unit
  | valAppendVar (id : HmrVarId) : RtCall V S R .unit
  | valAppendCapture (index : Nat) : RtCall V S R .unit
  | valAppendSlot (slot : S) : RtCall V S R .unit
  | valFinish : RtCall V S R .str
  | uriGet (headerValue : V) (element : HmrUriElement) : RtCall V S R .str
  | uriSet (headerValue : V) (element : HmrUriElement) (newValue : V) : RtCall V S R .str
  | log (message : V) : RtCall V S R .unit
  | reject (code : Nat) (reason : V) : RtCall V S R .unit

namespace RtCall

variable {V V' S S' R R' : Type}

/-- The call with its operands, slots and regexes translated. -/
def map (v : V → V') (s : S → S') (r : R → R') : ∀ i, RtCall V S R i → RtCall V' S' R' i
  | _, getHeader n => getHeader (v n)
  | _, setHeader n x => setHeader (v n) (v x)
  | _, addHeader n x => addHeader (v n) (v x)
  | _, deleteHeader n => deleteHeader (v n)
  | _, getMethod => getMethod
  | _, isRequest => isRequest
  | _, hmrMatch t x p i => hmrMatch t (v x) (v p) (r i)
  | _, getCapture i => getCapture i
  | _, getVar i => getVar i
  | _, store k x => store (s k) (v x)
  | _, load k => load (s k)
  | _, valReset => valReset
  | _, valAppendLit x => valAppendLit (v x)
  | _, valAppendVar i => valAppendVar i
  | _, valAppendCapture i => valAppendCapture i
  | _, valAppendSlot k => valAppendSlot (s k)
  | _, valFinish => valFinish
  | _, uriGet x e => uriGet (v x) e
  | _, uriSet x e n => uriSet (v x) e (v n)
  | _, log x => log (v x)
  | _, reject c x => reject c (v x)

end RtCall

/-- A program that acts through the runtime, on strings that are texts. -/
abbrev RtProg (S R α : Type) : Type := Prog (RtCall Bytes S R) RetTy.den α

/-- A message and its context. -/
structure World where
  msg : HmrSipMsg
  ctx : HmrContext

/-- **What the calls do.** -/
def runtime (rx : RegexEngine) : Handler (RtCall Bytes Nat Nat) RetTy.den World
  | _, .getHeader name, w => ((w.msg.getHeader (HmrStr.ofBytes name).text).text, w)
  | _, .setHeader name value, w =>
    let (_, m, a) := w.msg.setHeader w.ctx.arena (HmrStr.ofBytes name).sv
      (HmrStr.ofBytes value).sv
    ((), { msg := m, ctx := { w.ctx with arena := a } })
  | _, .addHeader name value, w =>
    let (_, m, a) := w.msg.addHeader w.ctx.arena (HmrStr.ofBytes name).sv
      (HmrStr.ofBytes value).sv
    ((), { msg := m, ctx := { w.ctx with arena := a } })
  | _, .deleteHeader name, w =>
    ((), { w with msg := (w.msg.deleteHeader (HmrStr.ofBytes name).text).2 })
  | _, .getMethod, w => (w.msg.method.text, w)
  | _, .isRequest, w => (w.msg.isRequest, w)
  | _, .hmrMatch t subject pattern regex, w =>
    let (b, ctx) := Rt.hmrMatch rx w.ctx t (.ofBytes subject) (.ofBytes pattern) regex
    (b, { w with ctx := ctx })
  | _, .getCapture index, w => ((Rt.getCapture w.ctx index).text, w)
  | _, .getVar id, w => ((Rt.getVar w.ctx id).text, w)
  | _, .store slot value, w =>
    ((), { w with ctx := Rt.store w.ctx slot (.ofBytes value) })
  | _, .load slot, w => ((Rt.load w.ctx slot).text, w)
  | _, .valReset, w => ((), { w with ctx := { w.ctx with scratch := [] } })
  | _, .valAppendLit literal, w =>
    ((), { w with ctx :=
      { w.ctx with scratch := w.ctx.scratch ++ (HmrStr.ofBytes literal).text } })
  | _, .valAppendVar id, w =>
    ((), if id = .none then w
      else { w with ctx := { w.ctx with scratch := w.ctx.scratch ++ w.ctx.vars id } })
  | _, .valAppendCapture index, w =>
    ((), { w with ctx :=
      { w.ctx with scratch := w.ctx.scratch ++ (Rt.getCapture w.ctx index).text } })
  | _, .valAppendSlot slot, w =>
    ((), { w with ctx :=
      { w.ctx with scratch := w.ctx.scratch ++ (w.ctx.slots[slot]?).getD [] } })
  | _, .valFinish, w => ((HmrStr.ofBytes w.ctx.scratch).text, w)
  | _, .uriGet headerValue element, w =>
    ((Uri.component (.ofBytes headerValue) element).text, w)
  | _, .uriSet headerValue element newValue, w =>
    let (s, ctx) := Rt.uriSet w.ctx (.ofBytes headerValue) element (.ofBytes newValue)
    (s.text, { w with ctx := ctx })
  | _, .log message, w =>
    ((), { w with ctx := { w.ctx with logs := w.ctx.logs ++ [(HmrStr.ofBytes message).text] } })
  | _, .reject code reason, w =>
    ((), { w with ctx := Rt.reject w.ctx code (.ofBytes reason) })

/-- So does the call, -/
theorem runtime_hmrMatch (rx : RegexEngine) (t : HmrMatchType) (subject pattern : Bytes)
    (regex : Nat) (w : World) :
    ∃ groups found, (runtime rx _ (.hmrMatch t subject pattern regex) w).2
      = { w with ctx := { w.ctx with lastMatch := groups, hasMatch := found } } := by
  obtain ⟨groups, found, hctx⟩ :=
    Rt.hmrMatch_snd rx w.ctx t (.ofBytes subject) (.ofBytes pattern) regex
  exact ⟨groups, found, congrArg (World.mk w.msg) hctx⟩

/-- and a variable, the one of none included, goes to the value under construction. -/
theorem runtime_valAppendVar (rx : RegexEngine) (id : HmrVarId) (w : World) :
    ∃ s, (runtime rx _ (.valAppendVar id) w).2
      = { w with ctx := { w.ctx with scratch := s } } := by
  show ∃ s, (if id = .none then w else _) = _
  split
  · exact ⟨w.ctx.scratch, rfl⟩
  · exact ⟨_, rfl⟩

/-- **What the calls answer when they are given no message and no context**:
empty strings and zeroes, and nothing happens. Only the matchers that need no
context still compare. -/
def nullRuntime : Handler (RtCall Bytes Nat Nat) RetTy.den Unit
  | _, .getHeader _, _ => ([], ())
  | _, .setHeader _ _, _ => ((), ())
  | _, .addHeader _ _, _ => ((), ())
  | _, .deleteHeader _, _ => ((), ())
  | _, .getMethod, _ => ([], ())
  | _, .isRequest, _ => (false, ())
  | _, .hmrMatch t subject pattern _, _ =>
    (Matchers.matchLiteral t (clip subject) (clip pattern), ())
  | _, .getCapture _, _ => ([], ())
  | _, .getVar _, _ => ([], ())
  | _, .store _ _, _ => ((), ())
  | _, .load _, _ => ([], ())
  | _, .valReset, _ => ((), ())
  | _, .valAppendLit _, _ => ((), ())
  | _, .valAppendVar _, _ => ((), ())
  | _, .valAppendCapture _, _ => ((), ())
  | _, .valAppendSlot _, _ => ((), ())
  | _, .valFinish, _ => ([], ())
  | _, .uriGet _ _, _ => ([], ())
  | _, .uriSet _ _ _, _ => ([], ())
  | _, .log _, _ => ((), ())
  | _, .reject _ _, _ => ((), ())

end Hmr
