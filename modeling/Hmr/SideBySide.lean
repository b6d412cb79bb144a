import Hmr.Forwarding

/-!
# Two machines side by side

A ruleset and what a pass has made of it are run on the same packet, each on a
machine of its own, and read as one program: most calls are made by both
machines, and where the pass has dropped or rewritten something one of them
does something alone.

A `Pair` is two machines of which nothing tells them apart from outside: they
show the same – the header list with the table space it takes, the logs, the
reject state – and agree about what no call changes. What is behind this may be
different: slots, the groups of the last match, the scratch buffer, the space
taken in the arena. That they show the same is a field of the pair, so a reading
cannot get to machines that do not.

## What a reading asks for

A call that both machines make (`Pair.step`, or `Pair.both` where the pass has
changed an operand) is to be answered the same on both sides, and to leave
machines that show the same. What is different behind does not matter as long
as no answer depends on it, and it may become the same again: a slot that is
stored to on both sides, or by each machine in its own time, is one slot again
as soon as the two texts are equal. There is no record of differences that could
be out of date; the two machines are the record.

What a machine does alone (`Pair.left`, `Pair.right`) is to leave it showing
what it did before.

A reading that stops has found a call that is answered differently, or a part
that was dropped or added and shows. A reading that completes has run each of the
two programs (`Pair.tracks_step` and `Pair.other_step`, and so on for what is
built from steps), so they come to the same verdict and the same outcome
(`Pair.outcome`).
-/

namespace Hmr

namespace Machine

/-- What shows of a machine: the header list with the table space it takes, the
logs and the reject state. -/
def shown (m : Machine) : HeaderList × Nat × List Bytes × Bool × Nat × Bytes :=
  (m.store.live, m.store.entries, m.logs, m.rejected, m.rejectCode, m.rejectReason)

/-- What no call changes. -/
def frame (m : Machine) : Bool × Bytes × Bytes × Bytes × (HmrVarId → Bytes) :=
  (m.isRequest, m.method, m.start, m.body, m.vars)

/-- A call leaves the frame as it is. -/
@[simp] theorem frame_calls (rx : RegexEngine) {i : RetTy} (c : SymCall i) (m : Machine) :
    (calls rx i c m).2.frame = m.frame := by
  cases c with
  | hmrMatch t subject pattern key =>
    cases t with
    | regex =>
      show (m.search rx key _).2.frame = m.frame
      unfold search
      split
      · rfl
      · split <;> rfl
    | _ => rfl
  | valAppendVar id =>
    show Machine.frame (if id = .none then m else _) = m.frame
    split <;> rfl
  | uriSet headerValue element newValue =>
    show (m.build _).2.frame = m.frame
    unfold build
    split <;> rfl
  | _ => rfl

/-- A run leaves the frame as it is. -/
@[simp] theorem frame_run (rx : RegexEngine) {α : Type} (p : SymProg α) (m : Machine) :
    (p.run (calls rx) m).2.frame = m.frame := by
  induction p generalizing m with
  | pure a => rfl
  | call c k ih => exact (ih _ _).trans (frame_calls rx c m)

end Machine

/-- **Two machines that show the same.** -/
structure Pair where
  machine : Machine
  other : Machine
  /-- Nothing tells them apart from outside. -/
  shown : machine.shown = other.shown
  /-- Neither can come to differ in what no call changes. -/
  frame : machine.frame = other.frame

instance (i : RetTy) : DecidableEq i.den :=
  match i with
  | .str => inferInstanceAs (DecidableEq Bytes)
  | .flag => inferInstanceAs (DecidableEq Bool)
  | .unit => inferInstanceAs (DecidableEq Unit)

namespace Pair

/-- **Each machine makes its call**, and they are answered the same. -/
def both (rx : RegexEngine) {i : RetTy} (c c' : SymCall i) : StateT Pair Option i.den := fun p =>
  let l := Machine.calls rx i c p.machine
  let r := Machine.calls rx i c' p.other
  if h : l.1 = r.1 ∧ l.2.shown = r.2.shown then
    some (l.1, ⟨l.2, r.2, h.2,
      ((Machine.frame_calls rx c _).trans p.frame).trans (Machine.frame_calls rx c' _).symm⟩)
  else none

/-- **Both machines make the call.** -/
def step (rx : RegexEngine) : ∀ i, SymCall i → StateT Pair Option i.den := fun _ c => both rx c c

/-- **The machine runs alone**, and nothing shows. -/
def left (rx : RegexEngine) {α : Type} (q : SymProg α) : StateT Pair Option α := fun p =>
  let r := q.run (Machine.calls rx) p.machine
  if h : r.2.shown = p.machine.shown then
    some (r.1, ⟨r.2, p.other, h.trans p.shown, (Machine.frame_run rx q _).trans p.frame⟩)
  else none

/-- **The other machine runs alone**, and nothing shows. -/
def right (rx : RegexEngine) {α : Type} (q : SymProg α) : StateT Pair Option α := fun p =>
  let r := q.run (Machine.calls rx) p.other
  if h : r.2.shown = p.other.shown then
    some (r.1, ⟨p.machine, r.2, p.shown.trans h.symm,
      p.frame.trans (Machine.frame_run rx q _).symm⟩)
  else none

/-- **Machines that show the same have the same outcome.** -/
theorem outcome (p : Pair) (v : HmrVerdict) : p.other.outcome v = p.machine.outcome v := by
  have hs := p.shown
  have hf := p.frame
  simp only [Machine.shown, Machine.frame, Prod.mk.injEq] at hs hf
  obtain ⟨hlive, -, hlogs, hrejected, hcode, hreason⟩ := hs
  obtain ⟨-, -, hstart, hbody, -⟩ := hf
  unfold Machine.outcome Machine.rendered
  rw [hlive, hlogs, hrejected, hcode, hreason, hstart, hbody]

/-! ## What each machine runs -/

variable {rx : RegexEngine} {α β : Type}

/-- The first of the two machines. -/
def IsMachine (p : Pair) (m : Machine) : Prop := p.machine = m

/-- The second of them. -/
def IsOther (p : Pair) (m : Machine) : Prop := p.other = m

/-- **What the first machine runs** where both make a call: its own. -/
theorem tracks_both (rx : RegexEngine) {i : RetTy} (c c' : SymCall i) :
    Tracks (Machine.calls rx) IsMachine (both rx c c') (Prog.perform c) := by
  rintro p m rfl r p' hM
  unfold both at hM
  dsimp only at hM
  split at hM
  · obtain ⟨rfl, rfl⟩ := Prod.mk.inj (Option.some.inj hM)
    exact ⟨rfl, rfl⟩
  · cases hM

/-- So does the second. -/
theorem other_both (rx : RegexEngine) {i : RetTy} (c c' : SymCall i) :
    Tracks (Machine.calls rx) IsOther (both rx c c') (Prog.perform c') := by
  rintro p m rfl r p' hM
  unfold both at hM
  dsimp only at hM
  split at hM
  · rename_i h
    obtain ⟨rfl, rfl⟩ := Prod.mk.inj (Option.some.inj hM)
    -- the answer that is gone on with is the one of the first machine
    exact ⟨h.1.symm, rfl⟩
  · cases hM

/-- Where the call is the same, the first machine makes it. -/
theorem tracks_step (rx : RegexEngine) {i : RetTy} (c : SymCall i) :
    Tracks (Machine.calls rx) IsMachine (step rx i c) (Prog.perform c) := tracks_both rx c c

/-- So does the second. -/
theorem other_step (rx : RegexEngine) {i : RetTy} (c : SymCall i) :
    Tracks (Machine.calls rx) IsOther (step rx i c) (Prog.perform c) := other_both rx c c

/-- The machine does what it does alone. -/
theorem tracks_left (q : SymProg α) : Tracks (Machine.calls rx) IsMachine (left rx q) q := by
  rintro p m rfl r p' hM
  unfold left at hM
  dsimp only at hM
  split at hM
  · obtain ⟨rfl, rfl⟩ := Prod.mk.inj (Option.some.inj hM)
    exact ⟨rfl, rfl⟩
  · cases hM

/-- So does the other. -/
theorem other_right (q : SymProg α) : Tracks (Machine.calls rx) IsOther (right rx q) q := by
  rintro p m rfl r p' hM
  unfold right at hM
  dsimp only at hM
  split at hM
  · obtain ⟨rfl, rfl⟩ := Prod.mk.inj (Option.some.inj hM)
    exact ⟨rfl, rfl⟩
  · cases hM

/-- The machine takes no part in what the other does alone. -/
theorem tracks_skip_right (q : SymProg α) {M : α → StateT Pair Option β} {p : SymProg β}
    (hM : ∀ a, Tracks (Machine.calls rx) IsMachine (M a) p) :
    Tracks (Machine.calls rx) IsMachine (right rx q >>= M) p := by
  refine Tracks.step fun s m hR b s' hN => ⟨?_, hM b⟩
  unfold right at hN
  dsimp only at hN
  split at hN
  · obtain ⟨-, rfl⟩ := Prod.mk.inj (Option.some.inj hN)
    exact hR
  · cases hN

/-- Nor the other in what the machine does. -/
theorem other_skip_left (q : SymProg α) {M : α → StateT Pair Option β} {p : SymProg β}
    (hM : ∀ a, Tracks (Machine.calls rx) IsOther (M a) p) :
    Tracks (Machine.calls rx) IsOther (left rx q >>= M) p := by
  refine Tracks.step fun s m hR b s' hN => ⟨?_, hM b⟩
  unfold left at hN
  dsimp only at hN
  split at hN
  · obtain ⟨-, rfl⟩ := Prod.mk.inj (Option.some.inj hN)
    exact hR
  · cases hN

end Pair

/-! ## Following the walk -/

namespace Meaning

section
variable {A C : Type} {h : Handler SymCall RetTy.den C} {Rel : A → C → Prop}
variable {call : ∀ i, SymCall i → StateT A Option i.den}
variable (hcall : ∀ i (c : SymCall i), Tracks h Rel (call i c) (Prog.perform c))
include hcall

theorem tracks_refValue (r : ValueRef) :
    Tracks h Rel (refValue call r) (refValue callProg r) := by
  unfold refValue
  cases r.kind <;> exact hcall _ _

theorem tracks_appendSegment (s : ValueSegment) :
    Tracks h Rel (appendSegment call s) (appendSegment callProg s) := by
  cases s with
  | literal text => exact Tracks.ite (fun _ => Tracks.pure _) (fun _ => hcall _ _)
  | ref r =>
    unfold appendSegment
    dsimp only
    cases r.kind <;> exact hcall _ _

theorem tracks_appendSegments (segs : List ValueSegment) :
    Tracks h Rel (appendSegments call segs) (appendSegments callProg segs) := by
  induction segs with
  | nil => exact Tracks.pure _
  | cons s rest ih => exact (tracks_appendSegment hcall s).bind fun _ => ih

theorem tracks_value (v : Value) : Tracks h Rel (value call v) (value callProg v) := by
  refine Tracks.ite (fun _ => Tracks.pure _) fun _ => ?_
  refine Tracks.ite (fun _ => Tracks.pure _) fun _ => ?_
  cases v.singleRef? with
  | some r => exact tracks_refValue hcall r
  | none =>
    exact (hcall _ _).bind fun _ => (tracks_appendSegments hcall _).bind fun _ => hcall _ _

theorem tracks_message (name : Bytes) (v : Value) :
    Tracks h Rel (message call name v) (message callProg name v) :=
  Tracks.ite (fun _ => Tracks.pure _) fun _ => tracks_value hcall v

theorem tracks_guard (cmp : ComparisonType) (mvt : MatchValType) (mv : Value)
    (subject : Bytes) :
    Tracks h Rel (guard call cmp mvt mv subject) (guard callProg cmp mvt mv subject) :=
  Tracks.ite (fun _ => Tracks.pure _) fun _ => (hcall _ _).bind fun _ => Tracks.pure _

theorem tracks_elementAction (hr : HeaderRule) (er : ElementRule) (elem : HmrUriElement)
    (hv ev : Bytes) :
    Tracks h Rel (elementAction call hr er elem hv ev)
      (elementAction callProg hr er elem hv ev) := by
  unfold elementAction
  cases er.action with
  | replace =>
    refine (tracks_value hcall _).bind fun nv => Tracks.ite (fun _ => ?_) fun _ => ?_
    · exact (hcall _ _).bind fun _ => Tracks.pure _
    · exact (hcall _ _).bind fun _ => (hcall _ _).bind fun _ => Tracks.pure _
  | deleteElement =>
    refine Tracks.ite (fun _ => ?_) fun _ => ?_
    · exact (hcall _ _).bind fun _ => Tracks.pure _
    · exact (hcall _ _).bind fun _ => (hcall _ _).bind fun _ => Tracks.pure _
  | store => exact (hcall _ _).bind fun _ => Tracks.pure _
  | reject =>
    exact (tracks_message hcall _ _).bind fun _ => (hcall _ _).bind fun _ => Tracks.pure _
  | _ => exact Tracks.pure _

theorem tracks_elementValue (hv : Bytes) (elem : HmrUriElement) :
    Tracks h Rel (elementValue call hv elem) (elementValue callProg hv elem) :=
  Tracks.ite (fun _ => Tracks.pure _) fun _ => hcall _ _

theorem tracks_msgTypeGuard (t : MsgType) :
    Tracks h Rel (msgTypeGuard call t) (msgTypeGuard callProg t) := by
  cases t with
  | request => exact hcall _ _
  | reply => exact (hcall _ _).bind fun _ => Tracks.pure _
  | _ => exact Tracks.pure _

theorem tracks_methodGuard (methods : List Bytes) :
    Tracks h Rel (methodGuard call methods) (methodGuard callProg methods) :=
  Tracks.ite (fun _ => Tracks.pure _) fun _ => (hcall _ _).bind fun _ => Tracks.pure _

theorem tracks_fetchHeader (hr : HeaderRule) :
    Tracks h Rel (fetchHeader call hr) (fetchHeader callProg hr) :=
  Tracks.ite (fun _ => hcall _ _) fun _ => Tracks.pure _

variable {G : Guard (StateT A Option)} {G' : Guard (Prog SymCall RetTy.den)}
variable (hG : ∀ cmp mvt mv s, Tracks h Rel (G cmp mvt mv s) (G' cmp mvt mv s))
include hG

theorem tracks_elementRule (hr : HeaderRule) (er : ElementRule) :
    Tracks h Rel (elementRule call G hr er) (elementRule callProg G' hr er) := by
  unfold elementRule
  cases Lowering.uriElement er.type with
  | none => exact Tracks.pure _
  | some elem =>
    refine (hcall _ _).bind fun hv => (tracks_elementValue hcall hv elem).bind fun ev => ?_
    refine (hG _ _ _ _).bind fun ok => Tracks.ite (fun _ => ?_) fun _ => Tracks.pure _
    exact tracks_elementAction hcall hr er elem hv ev

theorem tracks_elementRules (hr : HeaderRule) (ers : List ElementRule) :
    Tracks h Rel (elementRules call G hr ers) (elementRules callProg G' hr ers) := by
  induction ers with
  | nil => exact Tracks.pure _
  | cons er rest ih =>
    refine (tracks_elementRule hcall hG hr er).bind fun flow => ?_
    cases flow with
    | rejected => exact Tracks.pure _
    | «continue» => exact ih

theorem tracks_fires (hr : HeaderRule) :
    Tracks h Rel (fires call G hr) (fires callProg G' hr) := by
  refine (tracks_msgTypeGuard hcall _).bind fun _ => Tracks.ite (fun _ => ?_) fun _ =>
    Tracks.pure _
  refine (tracks_methodGuard hcall _).bind fun _ => Tracks.ite (fun _ => ?_) fun _ =>
    Tracks.pure _
  refine (tracks_fetchHeader hcall hr).bind fun hv => (hG _ _ _ _).bind fun ok => ?_
  exact Tracks.ite (fun _ => Tracks.pure _) fun _ => Tracks.pure _

omit hG

variable {S : HeaderRule → Bytes → StateT A Option Unit}
variable {S' : HeaderRule → Bytes → SymProg Unit}
variable (hS : ∀ hr hv, Tracks h Rel (S hr hv) (S' hr hv))
include hS

theorem tracks_headerAction (hr : HeaderRule) (hv : Bytes) :
    Tracks h Rel (headerAction call S hr hv) (headerAction callProg S' hr hv) := by
  have hset : Tracks h Rel
      (if (!hr.newValue.isEmpty && hr.elementRules.isEmpty) = true then do
        let v ← value call hr.newValue
        call _ (.setHeader (clip hr.headerName) v)
        pure false
      else pure false)
      (if (!hr.newValue.isEmpty && hr.elementRules.isEmpty) = true then do
        let v ← value callProg hr.newValue
        callProg _ (.setHeader (clip hr.headerName) v)
        pure false
      else pure false) :=
    Tracks.ite
      (fun _ => (tracks_value hcall _).bind fun _ => (hcall _ _).bind fun _ => Tracks.pure _)
      fun _ => Tracks.pure _
  unfold headerAction
  cases hr.action with
  | add => exact (tracks_value hcall _).bind fun _ => (hcall _ _).bind fun _ => Tracks.pure _
  | replace => exact hset
  | manipulate => exact hset
  | delete => exact (hcall _ _).bind fun _ => Tracks.pure _
  | deleteHeader => exact (hcall _ _).bind fun _ => Tracks.pure _
  | store => exact (hS _ _).bind fun _ => Tracks.pure _
  | log =>
    exact (tracks_message hcall _ _).bind fun _ => (hcall _ _).bind fun _ => Tracks.pure _
  | reject =>
    exact (tracks_message hcall _ _).bind fun _ => (hcall _ _).bind fun _ => Tracks.pure _
  | _ => exact Tracks.pure _

include hG

/-- **A header rule is followed** when its guards and its `store` are. -/
theorem tracks_headerRule (hr : HeaderRule) :
    Tracks h Rel (headerRule call G S hr) (headerRule callProg G' S' hr) := by
  refine (tracks_fires hcall hG hr).bind fun fired => ?_
  cases fired with
  | none => exact Tracks.pure _
  | some hv =>
    refine (tracks_headerAction hcall hS hr hv).bind fun rejected =>
      Tracks.ite (fun _ => Tracks.pure _) fun _ => tracks_elementRules hcall hG hr _

end

end Meaning

end Hmr
