import Hmr.Effects
import Hmr.HeaderMemory
import Hmr.Machine

/-!
# What a ruleset leaves alone

A ruleset writes to the header table under the names of its rules, and to nothing else in
a message. Everything that does not go by one of these names – the first line, the body,
and every entry of the table under another name, deleted ones included – is after a run
what it was before, at the place where it was before.

This is more than that the values of other headers are kept. An entry keeps its place in
the table, and its flags with it, so that the order in which headers are written out is
not changed either; what is appended goes behind all of them. And it holds of any run: of
one that is rejected, of one that is given up, and of one in which the table or the arena
has been full.

The names are those the runtime is given, which are views: a header-name from `2 ^ 32`
bytes on is cut, and another header may go by what is left of it
(`Interpreter.apply_frame_long_name`).

## How it is proved

A message that is untouched but for some names is one of a preorder
(`HmrSipMsg.Untouched.trans`), so it is enough to look at a single call. Which calls write
is a matter of what the program of a ruleset is made of, and under which names is read off
the rules (`Meaning.program_keepsTo`). What a call does to the message is a matter of the
runtime (`World.untouched_call`). The two meet in the rule for runs.
-/

namespace Hmr

/-- **The message is untouched but for the headers of these names.** -/
structure HmrSipMsg.Untouched (names : List Bytes) (m m' : HmrSipMsg) : Prop where
  isRequest : m'.isRequest = m.isRequest
  startLine : m'.startLine = m.startLine
  method : m'.method = m.method
  requestUri : m'.requestUri = m.requestUri
  modRequestUri : m'.modRequestUri = m.modRequestUri
  statusCode : m'.statusCode = m.statusCode
  reasonPhrase : m'.reasonPhrase = m.reasonPhrase
  body : m'.body = m.body
  /-- An entry of another name stays where it is, as it is. -/
  entries : ∀ (i : Nat) (h : Header), m.headers[i]? = some h →
    (∀ n ∈ names, iequals h.name.text n = false) → m'.headers[i]? = some h

namespace HmrSipMsg

variable {names : List Bytes} {m m' m'' : HmrSipMsg}

/-- A message is untouched if nothing is done to it. -/
theorem Untouched.refl (names : List Bytes) (m : HmrSipMsg) : m.Untouched names m :=
  ⟨rfl, rfl, rfl, rfl, rfl, rfl, rfl, rfl, fun _ _ h _ => h⟩

/-- What is left alone twice is left alone. -/
theorem Untouched.trans (h : m.Untouched names m') (h' : m'.Untouched names m'') :
    m.Untouched names m'' where
  isRequest := h'.isRequest.trans h.isRequest
  startLine := h'.startLine.trans h.startLine
  method := h'.method.trans h.method
  requestUri := h'.requestUri.trans h.requestUri
  modRequestUri := h'.modRequestUri.trans h.modRequestUri
  statusCode := h'.statusCode.trans h.statusCode
  reasonPhrase := h'.reasonPhrase.trans h.reasonPhrase
  body := h'.body.trans h.body
  entries i e hi hn := h'.entries i e (h.entries i e hi hn) hn

/-! ## The operations on the header table -/

/-- **A header that is appended** goes behind those there are. -/
theorem untouched_push {h : Header} (hm : m.push h = some m') : m.Untouched names m' := by
  obtain ⟨hle, rfl⟩ := eq_of_push hm
  refine { Untouched.refl names m with entries := fun i e hi _ => ?_ }
  rw [List.getElem?_append_left (List.getElem?_eq_some_iff.mp hi).1]
  exact hi

/-- An entry that is found has the name it was looked for by. -/
theorem matchesName_of_find {name : Bytes} {i : Nat} (hi : m.find name = some i) {h : Header}
    (hh : m.headers[i]? = some h) : matchesName name h = true := by
  obtain ⟨hlt, hp, -⟩ := List.findIdx?_eq_some_iff_getElem.mp hi
  rw [List.getElem?_eq_getElem hlt, Option.some.injEq] at hh
  rwa [hh] at hp

/-- **An entry that is found** by one of the names is overwritten. -/
theorem untouched_setValue {name : Bytes} (hn : name ∈ names) {i : Nat}
    (hi : m.find name = some i) (v : HmrStr) : m.Untouched names (m.setValue i v) := by
  refine { Untouched.refl names m with entries := fun j e hj hne => ?_ }
  show (m.headers.modify i _)[j]? = some e
  have hij : i ≠ j := by
    rintro rfl
    have hmatch := matchesName_of_find hi hj
    unfold matchesName at hmatch
    rw [hne name hn, Bool.and_false] at hmatch
    cases hmatch
  rw [List.getElem?_modify, hj]
  simp [hij]

/-- A header may be added under any name. -/
theorem untouched_addHeader (m : HmrSipMsg) (a : HmrArena) (name value : HmrStr) :
    m.Untouched names (m.addHeader a name.sv value.sv).2.1
      ∧ a.Le (m.addHeader a name.sv value.sv).2.2 := by
  obtain ⟨-, heq⟩ | ⟨-, -, heq⟩ | ⟨dn, a₁, hn, -, -, heq⟩ |
    ⟨dn, a₁, dv, a₂, m', hn, hv, -, hm', heq⟩ := m.addHeader_cases a name value
  · rw [heq]
    exact ⟨Untouched.refl names m, HmrArena.Le.refl a⟩
  · rw [heq]
    exact ⟨Untouched.refl names m, HmrArena.Le.refl a⟩
  · rw [heq]
    exact ⟨Untouched.refl names m, hn.le⟩
  · rw [heq]
    exact ⟨untouched_push hm', hn.le.trans hv.le⟩

/-- **A header that is set** is found under its name, or else appended. -/
theorem untouched_setHeader (m : HmrSipMsg) (a : HmrArena) (name : HmrStr)
    (hn : name.text ∈ names) (value : HmrStr) :
    m.Untouched names (m.setHeader a name.sv value.sv).2.1
      ∧ a.Le (m.setHeader a name.sv value.sv).2.2 := by
  obtain ⟨-, heq⟩ | ⟨dv, a₁, i, hv, hi, heq⟩ | ⟨dv, a₁, hv, -, heq⟩ :=
    m.setHeader_cases a name value
  · rw [heq]
    exact ⟨Untouched.refl names m, HmrArena.Le.refl a⟩
  · rw [heq]
    exact ⟨untouched_setValue hn hi dv, hv.le⟩
  · rw [heq]
    obtain ⟨hm, hle⟩ := m.untouched_addHeader a₁ name value
    exact ⟨hm, hv.le.trans hle⟩

/-- **A header that is deleted** is found under its name, again and again. -/
theorem untouched_deleteHeader (m : HmrSipMsg) {name : Bytes} (hn : name ∈ names) :
    m.Untouched names (m.deleteHeader name).2 := by
  refine { Untouched.refl names m with entries := fun i e hi hne => ?_ }
  show (m.headers.map _)[i]? = some e
  have hmatch : matchesName name e = false := by
    unfold matchesName
    rw [hne name hn, Bool.and_false]
  rw [List.getElem?_map, hi, Option.map_some, hmatch]
  rfl

end HmrSipMsg

/-! ## The calls -/

namespace Meaning

/-- A call writes to the header table under one of these names, if it does. -/
def Addresses (names : List Bytes) : ∀ i, SymCall i → Prop
  | _, .setHeader n _ => clip n ∈ names
  | _, .addHeader n _ => clip n ∈ names
  | _, .deleteHeader n => clip n ∈ names
  | _, _ => True

/-- A call that writes nothing addresses nothing. -/
theorem Quiet.addresses {names : List Bytes} : ∀ i (c : SymCall i), Quiet i c →
    Addresses names i c := by
  intro i c hc
  cases c with
  | setHeader n v => cases hc
  | addHeader n v => cases hc
  | deleteHeader n => cases hc
  | _ => trivial

section
variable {names : List Bytes}

/-- A program that writes under these names. -/
abbrev KeepsTo {α : Type} (names : List Bytes) (p : SymProg α) : Prop :=
  p.Meets (Addresses names) (fun _ _ _ => True) (fun _ => True)

/-- A program of such calls keeps to any names. -/
theorem IsQuiet.keepsTo {α : Type} {p : SymProg α} (hp : IsQuiet p) : KeepsTo names p :=
  hp.imp Quiet.addresses fun _ _ _ h => h

/-- A quiet program, and what comes after it. -/
theorem IsQuiet.keepsTo_bind {α β : Type} {p : SymProg α} {k : α → SymProg β}
    (hp : IsQuiet p) (hk : ∀ a, KeepsTo names (k a)) : KeepsTo names (p >>= k) :=
  Prog.Meets.bind hp.keepsTo fun a _ => hk a

/-- So does one that is over. -/
theorem keepsTo_pure {α : Type} (a : α) : KeepsTo names (pure a : SymProg α) := trivial

/-- A call, and what comes after it. -/
theorem keepsTo_call_bind {i : RetTy} {β : Type} {c : SymCall i} {k : i.den → SymProg β}
    (h : Addresses names i c) (hk : ∀ r, KeepsTo names (k r)) :
    KeepsTo names (callProg i c >>= k) :=
  ⟨h, fun r _ => hk r⟩

/-- **The action of an element rule** sets the header of its rule, if anything. -/
theorem elementAction_keepsTo {hr : HeaderRule} (hn : clip hr.headerName ∈ names)
    (er : ElementRule) (elem : HmrUriElement) (hv ev : Bytes) :
    KeepsTo names (elementAction callProg hr er elem hv ev) := by
  rw [← clip_clip] at hn
  unfold elementAction
  split
  · refine (value_quiet _).keepsTo_bind fun nv => ?_
    split
    · exact keepsTo_call_bind hn fun _ => keepsTo_pure _
    · refine keepsTo_call_bind trivial fun v => ?_
      exact keepsTo_call_bind hn fun _ => keepsTo_pure _
  · split
    · exact keepsTo_call_bind hn fun _ => keepsTo_pure _
    · refine keepsTo_call_bind trivial fun v => ?_
      exact keepsTo_call_bind hn fun _ => keepsTo_pure _
  · exact keepsTo_call_bind trivial fun _ => keepsTo_pure _
  · refine (message_quiet _ _).keepsTo_bind fun v => ?_
    exact keepsTo_call_bind trivial fun _ => keepsTo_pure _
  · exact keepsTo_pure _

/-- The element rules of a header, one after the other. -/
theorem elementRules_keepsTo {hr : HeaderRule} (hn : clip hr.headerName ∈ names)
    (ers : List ElementRule) :
    KeepsTo names (elementRules callProg (guard callProg) hr ers) := by
  -- A reject leaves the list, which does no harm.
  induction ers with
  | nil => exact keepsTo_pure _
  | cons er rest ih =>
    refine Prog.Meets.bind (Q := fun _ => True) ?_ fun flow _ => ?_
    · unfold elementRule
      split
      · exact keepsTo_pure _
      · rename_i elem _
        refine keepsTo_call_bind trivial fun hv => ?_
        refine (elementValue_quiet hv elem).keepsTo_bind fun ev => ?_
        refine (guard_quiet _ _ _ _).keepsTo_bind fun ok => ?_
        cases ok with
        | false => exact keepsTo_pure _
        | true => exact elementAction_keepsTo hn er elem hv ev
    · cases flow with
      | rejected => exact keepsTo_pure _
      | «continue» => exact ih

/-- **The action of a header rule** adds, sets or deletes the header of that name. -/
theorem headerAction_keepsTo {hr : HeaderRule} (hn : clip hr.headerName ∈ names) (idx : Nat)
    (hv : Bytes) : KeepsTo names (headerAction callProg (store callProg idx) hr hv) := by
  rw [← clip_clip] at hn
  have hset : KeepsTo names (if !hr.newValue.isEmpty && hr.elementRules.isEmpty then do
        let v ← value callProg hr.newValue
        callProg _ (.setHeader (clip hr.headerName) v)
        pure false
      else pure false) := by
    split
    · refine (value_quiet _).keepsTo_bind fun v => ?_
      exact keepsTo_call_bind hn fun _ => keepsTo_pure _
    · exact keepsTo_pure _
  unfold headerAction
  cases hr.action with
  | add =>
    refine (value_quiet _).keepsTo_bind fun v => ?_
    exact keepsTo_call_bind hn fun _ => keepsTo_pure _
  | replace => exact hset
  | manipulate => exact hset
  | delete => exact keepsTo_call_bind hn fun _ => keepsTo_pure _
  | deleteHeader => exact keepsTo_call_bind hn fun _ => keepsTo_pure _
  | store => exact (store_quiet idx hr hv).keepsTo_bind fun _ => keepsTo_pure _
  | log =>
    refine (message_quiet _ _).keepsTo_bind fun v => ?_
    exact keepsTo_call_bind trivial fun _ => keepsTo_pure _
  | reject =>
    refine (message_quiet _ _).keepsTo_bind fun v => ?_
    exact keepsTo_call_bind trivial fun _ => keepsTo_pure _
  | _ => exact keepsTo_pure _

/-- A rule writes under its header-name. -/
theorem rule_keepsTo {hr : HeaderRule} (hn : clip hr.headerName ∈ names) (idx : Nat) :
    KeepsTo names (rule callProg idx hr) := by
  unfold rule headerRule
  refine (fires_quiet hr).keepsTo_bind fun o => ?_
  cases o with
  | none => exact keepsTo_pure _
  | some hv =>
    refine Prog.Meets.bind (headerAction_keepsTo hn idx hv) fun rejected _ => ?_
    cases rejected with
    | true => exact keepsTo_pure _
    | false => exact elementRules_keepsTo hn hr.elementRules

/-- Rules write under the names of theirs. -/
theorem rulesFrom_keepsTo {hrs : List HeaderRule}
    (hn : ∀ hr ∈ hrs, clip hr.headerName ∈ names) (idx : Nat) :
    KeepsTo names (rulesFrom callProg idx hrs) := by
  induction hrs generalizing idx with
  | nil => exact keepsTo_pure _
  | cons hr rest ih =>
    refine Prog.Meets.bind (rule_keepsTo (hn hr List.mem_cons_self) idx) fun flow _ => ?_
    cases flow with
    | rejected => exact keepsTo_pure _
    | «continue» => exact ih (fun x hx => hn x (List.mem_cons_of_mem _ hx)) (idx + 1)

end

/-- **A ruleset writes to the headers its rules name.** -/
theorem program_keepsTo (rs : Ruleset) :
    KeepsTo (rs.headerRules.map fun hr => clip hr.headerName) (program rs) :=
  rulesFrom_keepsTo (fun hr h => List.mem_map.mpr ⟨hr, h, rfl⟩) 0

end Meaning

namespace World

/-- The message of a world is untouched but for these names, and what the arena
held it still holds. -/
structure Untouched (names : List Bytes) (w w' : World) : Prop where
  msg : w.msg.Untouched names w'.msg
  arena : w.ctx.arena.Le w'.ctx.arena

variable {names : List Bytes} {w w' w'' : World}

/-- Two runs after each other. -/
theorem Untouched.trans (h : w.Untouched names w') (h' : w'.Untouched names w'') :
    w.Untouched names w'' :=
  ⟨h.msg.trans h'.msg, h.arena.trans h'.arena⟩

/-- A call that leaves the message and the arena alone. -/
theorem untouched_of_eq (hm : w'.msg = w.msg) (ha : w'.ctx.arena = w.ctx.arena) :
    w.Untouched names w' := by
  refine ⟨?_, ?_⟩
  · rw [hm]
    exact HmrSipMsg.Untouched.refl names w.msg
  · rw [ha]
    exact HmrArena.Le.refl _

/-- A rebuilt URI stands behind what is handed out. -/
theorem untouched_uriSet (value : HmrStr) (element : HmrUriElement) (nv : HmrStr)
    (w : World) :
    w.Untouched names { w with ctx := (Rt.uriSet w.ctx value element nv).2 } := by
  refine ⟨HmrSipMsg.Untouched.refl names w.msg, ?_⟩
  show w.ctx.arena.Le (Uri.rebuildUri w.ctx.arena value.sv element nv.sv).2
  cases hp : Uri.spliceOf value.sv element with
  | none =>
    rw [Uri.rebuildUri_of_none hp]
    exact HmrArena.le_dup _ _
  | some p =>
    cases ha : w.ctx.arena.alloc (clip (p.apply value.sv.text nv.sv.text)).length with
    | none =>
      rw [Uri.rebuildUri_of_full hp ha]
      exact HmrArena.Le.refl _
    | some da =>
      rw [Uri.rebuildUri_of_alloc hp ha]
      exact HmrArena.le_alloc_write ha

/-- **One call touches what it addresses.** -/
theorem untouched_call (rx : RegexEngine) (st : SymbolTable) {i : RetTy} {c : SymCall i}
    (hc : Meaning.Addresses names i c) (w : World) :
    w.Untouched names (st.runtime rx i c w).2 := by
  cases c with
  | setHeader n v =>
    obtain ⟨hm, ha⟩ := w.msg.untouched_setHeader w.ctx.arena (.ofBytes n) hc (.ofBytes v)
    exact ⟨hm, ha⟩
  | addHeader n v =>
    obtain ⟨hm, ha⟩ := w.msg.untouched_addHeader w.ctx.arena (.ofBytes n) (.ofBytes v)
    exact ⟨hm, ha⟩
  | deleteHeader n => exact ⟨w.msg.untouched_deleteHeader hc, HmrArena.Le.refl _⟩
  | hmrMatch t s p k =>
    -- A search keeps no more than the groups it found.
    obtain ⟨_, _, hw⟩ := runtime_hmrMatch rx t s p (st.regexId k) w
    have hmsg := congrArg World.msg hw
    have harena := congrArg (·.ctx.arena) hw
    exact untouched_of_eq hmsg harena
  | uriSet hv e nv => exact untouched_uriSet (.ofBytes hv) e (.ofBytes nv) w
  | valAppendVar id =>
    obtain ⟨_, hw⟩ := runtime_valAppendVar rx id w
    have hmsg := congrArg World.msg hw
    have harena := congrArg (·.ctx.arena) hw
    exact untouched_of_eq hmsg harena
  | _ => exact untouched_of_eq rfl rfl

end World

/-! ## A run -/

namespace Interpreter

/-- The names under which the rules of a ruleset address headers. -/
def addressed (rs : Ruleset) : List Bytes := rs.headerRules.map fun hr => clip hr.headerName

/-- **The frame of `apply`**: whatever the verdict, and whatever there was no
room for, the first line, the method, the request-URI and its override, the
status, the reason and the body are as they were; an entry of the header table
under no name of a rule is where it was and as it was; and a view of the message
still reads what it read. -/
theorem apply_frame (rx : RegexEngine) (rs : Ruleset) (msg : HmrSipMsg) (ctx : HmrContext) :
    let w := ((apply rs).run (runtime rx) ⟨msg, ctx⟩).2
    msg.Untouched (addressed rs) w.msg
      ∧ ∀ (raw : Bytes) (s : HmrStr), s.Reads raw ctx.arena → s.Reads raw w.ctx.arena := by
  have hh : Prog.Honours ((Meaning.symbols rs).runtime rx)
      (World.Untouched (addressed rs) ⟨msg, ctx⟩) (Meaning.Addresses (addressed rs))
      fun _ _ _ => True :=
    fun i c w hw hc => ⟨trivial, hw.trans (World.untouched_call rx _ hc w)⟩
  have hstart : World.Untouched (addressed rs) ⟨msg, ctx⟩ ⟨msg, ctx⟩ :=
    World.untouched_of_eq rfl rfl
  have hrun := (Prog.Meets.run hh (Meaning.program_keepsTo rs) hstart).2
  rw [run_apply]
  exact ⟨hrun.msg, fun raw s hs => hs.mono hrun.arena⟩

/-- A rule that deletes the header of that name. -/
def deleting (name : Bytes) : Ruleset where
  headerRules := [{ headerName := name, action := .delete }]

/-- The second header of a request, where the first is deleted. -/
theorem apply_frame_request :
    ∃ h : Header, h.name.text = txt "To" ∧ h.value.text = txt "y"
      ∧ (HmrSipMsg.parse (txt "A b\nVia: x\nTo: y\n\nhi")).headers[1]? = some h
      ∧ ((apply (deleting (txt "Via"))).run (runtime .blind)
          ⟨HmrSipMsg.parse (txt "A b\nVia: x\nTo: y\n\nhi"), {}⟩).2.msg.headers[1]?
        = some h := by
  obtain ⟨h, hname, hvalue, hget⟩ : ∃ h : Header, h.name.text = txt "To"
      ∧ h.value.text = txt "y"
      ∧ (HmrSipMsg.parse (txt "A b\nVia: x\nTo: y\n\nhi")).headers[1]? = some h :=
    ⟨⟨.of ⟨.addr .raw 11, txt "To"⟩, .of ⟨.addr .raw 15, txt "y"⟩, false⟩, by decide,
      by decide, by decide⟩
  refine ⟨h, hname, hvalue, hget, ?_⟩
  refine (apply_frame .blind (deleting (txt "Via")) _ {}).1.entries 1 h hget fun n hn => ?_
  rw [List.mem_singleton.mp hn, hname]
  decide

/-- What such a rule does. -/
theorem apply_deleting (rx : RegexEngine) (name : Bytes) (w : World) :
    ((apply (deleting name)).run (runtime rx) w).2
      = { w with msg := (w.msg.deleteHeader (clip (clip name))).2 } := by
  rw [run_apply]
  rfl

/-- **A header-name of `2 ^ 32 + 1` bytes reaches another header**: the one that
goes by its first byte. -/
theorem apply_frame_long_name :
    ¬ ∀ (rx : RegexEngine) (rs : Ruleset) (msg : HmrSipMsg) (ctx : HmrContext),
      ctx.Prepared (info rs) →
      ∀ (i : Nat) (h : Header), msg.headers[i]? = some h →
        (∀ hr ∈ rs.headerRules, iequals h.name.text hr.headerName = false) →
        ((apply rs).run (runtime rx) ⟨msg, ctx⟩).2.msg.headers[i]? = some h := by
  intro hall
  -- The name is `X` and `2 ^ 32` more bytes; cut to 32 bits, `X` is left of it.
  obtain ⟨cs, hlen⟩ : ∃ cs : Bytes, cs.length = 2 ^ 32 :=
    ⟨List.replicate (2 ^ 32) 88, List.length_replicate⟩
  have hclip : clip (txt "X" ++ cs) = txt "X" := by
    have hmod : (txt "X" ++ cs).length % 2 ^ 32 = (txt "X").length := by
      rw [List.length_append, hlen]
      decide
    rw [clip, hmod, List.take_left]
  have hdiffer : iequals (txt "X") (txt "X" ++ cs) = false := by
    refine Bool.eq_false_iff.mpr fun he => ?_
    have hlength := congrArg List.length (iequals_iff.mp he)
    rw [List.length_map, List.length_map, List.length_append, hlen] at hlength
    exact absurd hlength (by decide)
  have hprep : HmrContext.Prepared (info (deleting (txt "X" ++ cs))) {} := by
    obtain ⟨hslots, hregexes⟩ := info_eq (deleting (txt "X" ++ cs))
    exact ⟨by rw [hregexes]; rfl, by rw [hslots]; rfl⟩
  have hkept := hall .blind (deleting (txt "X" ++ cs))
    { headers := [⟨.ofBytes (txt "X"), .ofBytes (txt "v"), false⟩]
      headers_le := by decide } {} hprep 0 _ rfl
    (fun hr hmem => by
      rw [List.mem_singleton.mp hmem]
      exact hdiffer)
  rw [apply_deleting, hclip] at hkept
  exact absurd hkept (by decide)

end Interpreter

end Hmr
