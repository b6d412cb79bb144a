import Hmr.Machine
import Hmr.NormalForm

/-!
# Framing

A header value goes out on a line of its own, and nothing escapes it: a line feed in a
name or a value would start a new header, or the body. That there is none is an invariant
of everything values are made of – the packet's headers, the captures and the slots, the
scratch buffer, the variables – and of the ruleset, whose header names are tokens and
whose literals are clean.

`Framed` is that invariant, `framing` the contract between the calls of a program and the
runtime that keeps it: clean operands in, clean answers out. A program keeps to the
contract whatever it is answered within it, and the runtime honours it as long as the
invariant holds (`Framing.honours`), so the two can be proved apart from each other.

## What is not asked for

The match-values need not be clean. They are compared and nothing else, and what a search
finds is a part of its subject. The new-values of logs and rejects are asked for, although
they go into no header: they are put together in the scratch buffer, whose content is part
of the invariant.

A carriage return does not break a line as the message model reads it. It is trimmed at
the end of a value, and in the middle of one it stays.

## Packets

The slots outlive the packet, and what is in them has been clean at the end of the last
one (`Framing.slots_after`). So the invariant is one of a sequence of packets, and of each
state of each of their runs. A packet itself may be any bytes, for its lines are cut at
line feeds.
-/

namespace Hmr

/-- A token: no colon, no blank, no line break. -/
def IsToken (s : Bytes) : Prop :=
  ∀ c ∈ s, c ≠ colon ∧ c ≠ sp ∧ c ≠ tab ∧ c ≠ cr ∧ c ≠ lf

instance (s : Bytes) : Decidable (IsToken s) :=
  inferInstanceAs (Decidable (∀ c ∈ s, _))

/-- What is left of a token is one. -/
theorem IsToken.clip {s : Bytes} (h : IsToken s) : IsToken (clip s) :=
  fun c hc => h c (mem_of_mem_clip hc)

/-- A token can stand in front of a colon. -/
theorem IsToken.isName {s : Bytes} (h : IsToken s) : OnLine s ∧ colon ∉ s := by
  have hfront : ∀ c ∈ s, isBlank c = false := by
    intro c hc
    obtain ⟨-, hsp, htab, -⟩ := h c hc
    simp [isBlank, hsp, htab]
  have hback : ∀ c ∈ s, isBlankOrCr c = false := by
    intro c hc
    obtain ⟨-, hsp, htab, hcr, -⟩ := h c hc
    simp [isBlankOrCr, hsp, htab, hcr]
  have hdrop : s.dropWhile isBlank = s := by
    cases s with
    | nil => rfl
    | cons c s => exact List.dropWhile_cons_of_neg (by simp [hfront c List.mem_cons_self])
  refine ⟨⟨?_, fun hm => (h _ hm).2.2.2.2 rfl⟩, fun hm => (h _ hm).1 rfl⟩
  show (s.dropWhile isBlank).rdropWhile isBlankOrCr = s
  rw [hdrop, List.rdropWhile_eq_self_iff]
  exact fun hne => by simp [hback _ (List.getLast_mem hne)]

namespace Value

/-- No literal of the value breaks the line. -/
def IsClean (v : Value) : Prop := ∀ s ∈ v.segments, lf ∉ s.text ∧ cr ∉ s.text

instance (v : Value) : Decidable v.IsClean := inferInstanceAs (Decidable (∀ s ∈ _, _))

/-- The literals of a clean value, put together. -/
theorem IsClean.literalText {v : Value} (h : v.IsClean) : lf ∉ v.literalText := by
  intro hm
  obtain ⟨s, hs, hm⟩ := List.mem_flatMap.mp hm
  exact (h s hs).1 hm

end Value

/-- **Header names are tokens, and no literal breaks the line.** -/
structure Ruleset.IsClean (rs : Ruleset) : Prop where
  name : ∀ hr ∈ rs.headerRules, IsToken hr.headerName
  value : ∀ hr ∈ rs.headerRules, hr.newValue.IsClean
  element : ∀ hr ∈ rs.headerRules, ∀ er ∈ hr.elementRules, er.newValue.IsClean

/-! ## The contract of clean texts -/

namespace Framing

variable {S R : Type}

/-- Names are tokens, and texts that can get into a header have no line
feed. -/
def pre : ∀ i, RtCall Bytes S R i → Prop
  | _, .setHeader name value => IsToken name ∧ lf ∉ value
  | _, .addHeader name value => IsToken name ∧ lf ∉ value
  | _, .hmrMatch _ subject _ _ => lf ∉ subject
  | _, .store _ value => lf ∉ value
  | _, .valAppendLit literal => lf ∉ literal
  | _, .uriGet headerValue _ => lf ∉ headerValue
  | _, .uriSet headerValue _ newValue => lf ∉ headerValue ∧ lf ∉ newValue
  | _, _ => True

/-- Texts that are answered have no line feed; the method is compared
only. -/
def post : ∀ i, RtCall Bytes S R i → i.den → Prop
  | _, .getHeader _, r => lf ∉ r
  | _, .getCapture _, r => lf ∉ r
  | _, .getVar _, r => lf ∉ r
  | _, .load _, r => lf ∉ r
  | _, .valFinish, r => lf ∉ r
  | _, .uriGet _ _, r => lf ∉ r
  | _, .uriSet _ _ _, r => lf ∉ r
  | _, _, _ => True

/-- A program that keeps to the contract. -/
abbrev Keeps {α : Type} (Q : α → Prop) (p : SymProg α) : Prop := p.Meets pre post Q

open Meaning (callProg)

/-- A call with clean operands. -/
theorem keeps_call {i : RetTy} {c : SymCall i} {Q : i.den → Prop} (hc : pre i c)
    (hQ : ∀ r, post i c r → Q r) : Keeps Q (callProg i c) := ⟨hc, hQ⟩

/-- Such a call, and what comes after it. -/
theorem keeps_call_bind {i : RetTy} {c : SymCall i} {α : Type} {k : i.den → SymProg α}
    {Q : α → Prop} (hc : pre i c) (hk : ∀ r, post i c r → Keeps Q (k r)) :
    Keeps Q (callProg i c >>= k) := ⟨hc, hk⟩

/-- **A reference** is to something clean. -/
theorem refValue_keeps (r : ValueRef) :
    Keeps (fun s => lf ∉ s) (Meaning.refValue callProg r) := by
  unfold Meaning.refValue
  cases r.kind with
  | «variable» => exact keeps_call trivial fun _ h => h
  | capture => exact keeps_call trivial fun _ h => h
  | ruleRef => exact keeps_call trivial fun _ h => h

/-- Segments that are clean make up a clean text in the scratch buffer. -/
theorem appendSegments_keeps {segs : List ValueSegment} (h : ∀ s ∈ segs, lf ∉ s.text) :
    Keeps (fun _ => True) (Meaning.appendSegments callProg segs) := by
  induction segs with
  | nil => trivial
  | cons s segs ih =>
    refine Prog.Meets.bind (Q := fun _ => True) ?_
      fun _ _ => ih fun x hx => h x (List.mem_cons_of_mem _ hx)
    have hs := h s List.mem_cons_self
    cases s with
    | literal text =>
      unfold Meaning.appendSegment
      dsimp only
      split
      · trivial
      · exact keeps_call (fun hm => hs (mem_of_mem_clip hm)) fun _ _ => trivial
    | ref r =>
      unfold Meaning.appendSegment
      dsimp only
      cases r.kind with
      | «variable» => exact keeps_call trivial fun _ _ => trivial
      | capture => exact keeps_call trivial fun _ _ => trivial
      | ruleRef => exact keeps_call trivial fun _ _ => trivial

/-- **A value made of clean texts is clean.** -/
theorem value_keeps {v : Value} (h : v.IsClean) :
    Keeps (fun s => lf ∉ s) (Meaning.value callProg v) := by
  unfold Meaning.value
  split
  · exact List.not_mem_nil
  · split
    · exact fun hm => h.literalText (mem_of_mem_clip hm)
    · cases v.singleRef? with
      | some r => exact refValue_keeps r
      | none =>
        refine keeps_call_bind trivial fun _ _ => ?_
        refine (appendSegments_keeps fun s hs => (h s hs).1).bind fun _ _ => ?_
        exact keeps_call trivial fun _ hr => hr

/-- The text of a log or a reject goes into no header. -/
theorem message_keeps {name : Bytes} {v : Value} (h : v.IsClean) :
    Keeps (fun _ => True) (Meaning.message callProg name v) := by
  unfold Meaning.message
  split
  · trivial
  · exact (value_keeps h).mono fun _ _ => trivial

/-- A guard is asked about a clean text. -/
theorem guard_keeps {cmp : ComparisonType} {mvt : MatchValType} {mv : Value} {s : Bytes}
    (hs : lf ∉ s) : Keeps (fun _ => True) (Meaning.guard callProg cmp mvt mv s) := by
  unfold Meaning.guard
  split
  · trivial
  · unfold Meaning.matchCall
    dsimp only
    split
    · exact ⟨hs, fun _ _ => trivial⟩
    · exact ⟨hs, fun _ _ => trivial⟩

/-- A header is set to a clean text. -/
theorem setHeader_keeps {name v : Bytes} {α : Type} {a : α} (hn : IsToken name)
    (hv : lf ∉ v) :
    Keeps (fun _ => True) (do
      callProg _ (.setHeader (clip name) v)
      pure a) :=
  ⟨⟨hn.clip, hv⟩, fun _ _ => trivial⟩

/-- **The action of an element rule** writes clean texts. -/
theorem elementAction_keeps {hr : HeaderRule} {er : ElementRule} {elem : HmrUriElement}
    {hv ev : Bytes} (hn : IsToken hr.headerName) (hnv : er.newValue.IsClean)
    (hhv : lf ∉ hv) (hev : lf ∉ ev) :
    Keeps (fun _ => True) (Meaning.elementAction callProg hr er elem hv ev) := by
  unfold Meaning.elementAction
  split
  · refine (value_keeps hnv).bind fun nv hnv => ?_
    split
    · exact setHeader_keeps hn hnv
    · exact ⟨⟨hhv, hnv⟩, fun v hv => setHeader_keeps hn hv⟩
  · split
    · exact ⟨trivial, fun _ _ => trivial⟩
    · exact ⟨⟨hhv, List.not_mem_nil⟩, fun v hv => setHeader_keeps hn hv⟩
  · exact ⟨hev, fun _ _ => trivial⟩
  · exact (message_keeps hnv).bind fun _ _ => ⟨trivial, fun _ _ => trivial⟩
  · trivial

/-- The element rules of a header, one after the other. -/
theorem elementRules_keeps {hr : HeaderRule} {ers : List ElementRule}
    (hn : IsToken hr.headerName) (hers : ∀ er ∈ ers, er.newValue.IsClean) :
    Keeps (fun _ => True)
      (Meaning.elementRules callProg (Meaning.guard callProg) hr ers) := by
  induction ers with
  | nil => trivial
  | cons er ers ih =>
    have ih := ih fun x hx => hers x (List.mem_cons_of_mem _ hx)
    refine Prog.Meets.bind (Q := fun _ => True) ?_ fun f _ => ?_
    · unfold Meaning.elementRule
      split
      · trivial
      · rename_i elem _
        refine keeps_call_bind trivial fun hv hhv => ?_
        refine Prog.Meets.bind (Q := fun ev => lf ∉ ev) ?_ fun ev hev => ?_
        · unfold Meaning.elementValue
          by_cases hw : elem = .whole
          · rw [if_pos hw]
            exact hhv
          · rw [if_neg hw]
            exact keeps_call hhv fun _ h => h
        · refine (guard_keeps hev).bind fun ok _ => ?_
          cases ok with
          | false => trivial
          | true => exact elementAction_keeps hn (hers er List.mem_cons_self) hhv hev
    · cases f with
      | rejected => trivial
      | «continue» => exact ih

/-- **The guards of a rule** answer with the header value, which is clean. Where one of them
fails there is no value to be clean; they write nothing but the groups of a search, and those are
parts of a clean subject. -/
theorem fires_keeps (hr : HeaderRule) :
    Keeps (fun o => ∀ hv ∈ o, lf ∉ hv)
      (Meaning.fires callProg (Meaning.guard callProg) hr) := by
  unfold Meaning.fires
  refine Prog.Meets.bind (Q := fun _ => True) ?_ fun b _ => ?_
  · unfold Meaning.msgTypeGuard
    cases hr.msgType with
    | request => exact ⟨trivial, fun _ _ => trivial⟩
    | reply => exact ⟨trivial, fun _ _ => trivial⟩
    | _ => trivial
  · -- Where a guard fails there is no header value to be clean.
    cases b with
    | false =>
      intro _ h
      cases h
    | true =>
      refine Prog.Meets.bind (Q := fun _ => True) ?_ fun b _ => ?_
      · unfold Meaning.methodGuard
        cases hr.methods.isEmpty with
        | true => trivial
        | false => exact ⟨trivial, fun _ _ => trivial⟩
      · cases b with
        | false =>
          intro _ h
          cases h
        | true =>
          refine Prog.Meets.bind (Q := fun hv => lf ∉ hv) ?_ fun hv hhv => ?_
          · unfold Meaning.fetchHeader
            split
            · exact ⟨trivial, fun _ h => h⟩
            · exact List.not_mem_nil
          · refine (guard_keeps hhv).bind fun ok _ => ?_
            cases ok with
            | false =>
              intro _ h
              cases h
            | true => exact fun x hx => Option.some.inj hx ▸ hhv

/-- What is stored is the header value, or groups that were found in it. -/
theorem store_keeps {idx : Nat} {hr : HeaderRule} {hv : Bytes} (hhv : lf ∉ hv) :
    Keeps (fun _ => True) (Meaning.store callProg idx hr hv) := by
  unfold Meaning.store Meaning.storeAction
  split
  · generalize Lowering.countCapturingGroups (Meaning.patternOf hr.matchValue) + 1 = n
    generalize 0 = g
    induction n generalizing g with
    | zero => trivial
    | succ n ih => exact ⟨trivial, fun cap hcap => ⟨hcap, fun _ _ => ih (g + 1)⟩⟩
  · exact keeps_call hhv fun _ _ => trivial

/-- **The action of a header rule** writes clean texts. -/
theorem headerAction_keeps (idx : Nat) {hr : HeaderRule} {hv : Bytes}
    (hn : IsToken hr.headerName) (hnv : hr.newValue.IsClean) (hhv : lf ∉ hv) :
    Keeps (fun _ => True)
      (Meaning.headerAction callProg (Meaning.store callProg idx) hr hv) := by
  have hset : Keeps (fun _ => True)
      (if !hr.newValue.isEmpty && hr.elementRules.isEmpty then do
        let v ← Meaning.value callProg hr.newValue
        callProg _ (.setHeader (clip hr.headerName) v)
        pure false
      else pure false) := by
    split
    · exact (value_keeps hnv).bind fun v hv => setHeader_keeps hn hv
    · trivial
  unfold Meaning.headerAction
  split
  · exact (value_keeps hnv).bind fun v hv => ⟨⟨hn.clip, hv⟩, fun _ _ => trivial⟩
  · exact hset
  · exact hset
  · exact ⟨trivial, fun _ _ => trivial⟩
  · exact ⟨trivial, fun _ _ => trivial⟩
  · exact (store_keeps hhv).bind fun _ _ => trivial
  · exact (message_keeps hnv).bind fun _ _ => ⟨trivial, fun _ _ => trivial⟩
  · exact (message_keeps hnv).bind fun _ _ => ⟨trivial, fun _ _ => trivial⟩
  · trivial

/-- The rules, one after the other. -/
theorem rulesFrom_keeps {hrs : List HeaderRule} (hn : ∀ hr ∈ hrs, IsToken hr.headerName)
    (hv : ∀ hr ∈ hrs, hr.newValue.IsClean)
    (he : ∀ hr ∈ hrs, ∀ er ∈ hr.elementRules, er.newValue.IsClean) (idx : Nat) :
    Keeps (fun _ => True) (Meaning.rulesFrom callProg idx hrs) := by
  induction hrs generalizing idx with
  | nil => trivial
  | cons hr rest ih =>
    have ih := ih (fun x hx => hn x (List.mem_cons_of_mem _ hx))
      (fun x hx => hv x (List.mem_cons_of_mem _ hx))
      (fun x hx => he x (List.mem_cons_of_mem _ hx)) (idx + 1)
    have hhn := hn hr List.mem_cons_self
    refine Prog.Meets.bind (Q := fun _ => True) ?_ fun f _ => ?_
    · unfold Meaning.rule Meaning.headerRule
      refine (fires_keeps hr).bind fun o ho => ?_
      cases o with
      | none => trivial
      | some value =>
        have hact := headerAction_keeps idx hhn (hv hr List.mem_cons_self)
          (ho value rfl)
        refine hact.bind fun t _ => ?_
        cases t with
        | true => trivial
        | false => exact elementRules_keeps hhn (he hr List.mem_cons_self)
    · cases f with
      | rejected => trivial
      | «continue» => exact ih

/-- **A clean ruleset keeps to the contract.** -/
theorem program_keeps {rs : Ruleset} (h : rs.IsClean) :
    Keeps (fun _ => True) (Meaning.program rs) :=
  rulesFrom_keeps h.name h.value h.element 0

/-! ## The invariant -/

/-- **Everything values are made of is clean**: the headers of the message
and, in the context, the variables, the slots, the captures and the scratch
buffer. -/
structure Framed (w : World) : Prop where
  name : ∀ p ∈ w.msg.live, OnLine p.1 ∧ colon ∉ p.1
  value : ∀ p ∈ w.msg.live, lf ∉ p.2
  startLine : OnLine w.msg.startLine.text
  unmodified : w.msg.modRequestUri = {}
  vars : ∀ id, lf ∉ w.ctx.vars id
  slots : ∀ s ∈ w.ctx.slots, lf ∉ s
  captures : ∀ s ∈ w.ctx.captures, lf ∉ s
  scratch : lf ∉ w.ctx.scratch

/-- What a splice adds around the new value is a colon, an at-sign or a
blank. -/
theorem splice_clean {value : StringView} {elem : HmrUriElement} {p : Uri.Splice}
    (hs : Uri.spliceOf value elem = some p) : lf ∉ p.pre ∧ lf ∉ p.post := by
  have hnil : lf ∉ ([] : Bytes) := List.not_mem_nil
  unfold Uri.spliceOf at hs
  cases elem with
  | whole =>
    cases hs
    exact ⟨hnil, hnil⟩
  | user =>
    dsimp only at hs
    split_ifs at hs <;> cases hs
    · exact ⟨hnil, hnil⟩
    · exact ⟨hnil, show lf ∉ [_] by decide⟩
    · exact ⟨hnil, hnil⟩
  | host =>
    dsimp only at hs
    split_ifs at hs
    cases hs
    exact ⟨hnil, hnil⟩
  | port =>
    dsimp only at hs
    split_ifs at hs <;> cases hs
    · exact ⟨hnil, hnil⟩
    · exact ⟨show lf ∉ [colon] by decide, hnil⟩
  | display =>
    dsimp only at hs
    split_ifs at hs <;> cases hs
    · exact ⟨hnil, hnil⟩
    · exact ⟨hnil, show lf ∉ [_] by decide⟩

/-- What is rebuilt of clean texts is clean. -/
theorem lf_not_mem_rebuilt {value nv : HmrStr} {elem : HmrUriElement}
    (hv : lf ∉ value.text) (hnv : lf ∉ nv.text) : lf ∉ Uri.rebuilt value elem nv := by
  unfold Uri.rebuilt
  cases hs : Uri.spliceOf value.sv elem with
  | none => exact hv
  | some p =>
    have hpp := splice_clean hs
    intro hm
    have hm := mem_of_mem_clip hm
    simp only [Uri.Splice.apply, List.mem_append] at hm
    rcases hm with (((hm | hm) | hm) | hm) | hm
    · exact hv (List.mem_of_mem_take hm)
    · exact hpp.1 hm
    · exact hnv hm
    · exact hpp.2 hm
    · exact hv (List.mem_of_mem_drop hm)

/-- A capture is clean, or empty where there is none. -/
theorem Framed.capture {w : World} (h : Framed w) (index : Nat) :
    lf ∉ (Rt.getCapture w.ctx index).text := by
  rw [Rt.getCapture_text]
  cases hc : w.ctx.captures[index]? with
  | none => exact List.not_mem_nil
  | some s => exact h.captures s (List.mem_of_getElem? hc)

/-- So is a slot. -/
theorem Framed.slot {w : World} (h : Framed w) (slot : Nat) :
    lf ∉ (w.ctx.slots[slot]?).getD [] := by
  cases hs : w.ctx.slots[slot]? with
  | none => exact List.not_mem_nil
  | some s => exact h.slots s (List.mem_of_getElem? hs)

/-- Looking a header up. -/
theorem Framed.getHeader {w : World} (h : Framed w) (name : Bytes) :
    lf ∉ (w.msg.getHeader name).text := by
  rw [w.msg.getHeader_text w.ctx.arena]
  show lf ∉ (Assoc.get? iequals w.msg.live name).getD []
  unfold Assoc.get?
  cases hf : w.msg.live.find? fun p => iequals p.1 name with
  | none => exact List.not_mem_nil
  | some p => exact h.value p (List.mem_of_find?_eq_some hf)

/-- A write to the header table that leaves the list, appends a clean pair or
sets a clean value. -/
theorem Framed.write {w : World} (h : Framed w) {msg : HmrSipMsg} {a : HmrArena}
    (hf : msg.frame = w.msg.frame) {name v : Bytes} (hn : OnLine name ∧ colon ∉ name)
    (hv : lf ∉ v)
    (hlive : ∀ p ∈ msg.live,
      p ∈ w.msg.live ∨ p.2 = v ∧ (p.1 = name ∨ p.1 ∈ w.msg.live.map Prod.fst)) :
    Framed ⟨msg, { w.ctx with arena := a }⟩ := by
  simp only [HmrSipMsg.frame, Prod.mk.injEq] at hf
  obtain ⟨-, hstart, -, -, -, hmod⟩ := hf
  refine { h with
    name := fun p hp => ?_
    value := fun p hp => ?_
    startLine := hstart ▸ h.startLine
    unmodified := hmod.trans h.unmodified }
  · rcases hlive p hp with hp | ⟨-, hp | hp⟩
    · exact h.name p hp
    · rw [hp]
      exact hn
    · obtain ⟨q, hq, hqp⟩ := List.mem_map.mp hp
      rw [← hqp]
      exact h.name q hq
  · rcases hlive p hp with hp | ⟨hp, -⟩
    · exact h.value p hp
    · rw [hp]
      exact hv

/-- A header that is set. -/
theorem Framed.setHeader {w : World} (h : Framed w) (name v : HmrStr)
    (hn : OnLine name.text ∧ colon ∉ name.text) (hv : lf ∉ v.text) :
    Framed ⟨(w.msg.setHeader w.ctx.arena name.sv v.sv).2.1,
      { w.ctx with arena := (w.msg.setHeader w.ctx.arena name.sv v.sv).2.2 }⟩ := by
  refine h.write (w.msg.frame_setHeader _ name v) hn hv fun p hp => ?_
  have hst := congrArg (fun r => r.2.live) (w.msg.storeOf_setHeader w.ctx.arena name v)
  have hp : p ∈ ((w.msg.storeOf w.ctx.arena).set name.text v.text).2.live := hst ▸ hp
  obtain ⟨-, hlive⟩ | ⟨-, hlive⟩ := (w.msg.storeOf w.ctx.arena).set_spec name.text v.text
  · rw [hlive] at hp
    exact Assoc.mem_set hp
  · rw [hlive] at hp
    exact Or.inl hp

/-- A header that is added. -/
theorem Framed.addHeader {w : World} (h : Framed w) (name v : HmrStr)
    (hn : OnLine name.text ∧ colon ∉ name.text) (hv : lf ∉ v.text) :
    Framed ⟨(w.msg.addHeader w.ctx.arena name.sv v.sv).2.1,
      { w.ctx with arena := (w.msg.addHeader w.ctx.arena name.sv v.sv).2.2 }⟩ := by
  refine h.write (w.msg.frame_addHeader _ name v) hn hv fun p hp => ?_
  have hst := congrArg (fun r => r.2.live) (w.msg.storeOf_addHeader w.ctx.arena name v)
  have hp : p ∈ ((w.msg.storeOf w.ctx.arena).add name.text v.text).2.live := hst ▸ hp
  obtain ⟨-, hlive⟩ | ⟨-, hlive⟩ := (w.msg.storeOf w.ctx.arena).add_spec name.text v.text
  · rw [hlive, Assoc.add, List.mem_append, List.mem_singleton] at hp
    exact hp.imp id fun he => by simp [he]
  · rw [hlive] at hp
    exact Or.inl hp

/-- A search keeps parts of a clean subject. -/
theorem Framed.search {w : World} (h : Framed w) (rx : RegexEngine) (regex : Nat)
    (subject : HmrStr) (hs : lf ∉ subject.text) :
    Framed { w with ctx := (Rt.regexMatch rx w.ctx regex subject).2 } := by
  unfold Rt.regexMatch
  split
  · exact h
  · split
    · exact { h with captures := fun _ hm => (nomatch hm) }
    · rename_i groups _
      refine { h with captures := fun s hm => ?_ }
      obtain ⟨g, hg, rfl⟩ := List.mem_map.mp hm
      obtain ⟨o, -, rfl⟩ := List.mem_map.mp hg
      cases o with
      | none => exact List.not_mem_nil
      | some o =>
        intro hlf
        exact hs (List.mem_of_mem_drop (List.mem_of_mem_take (mem_of_mem_clip hlf)))

/-- Clean texts, one behind the other. -/
theorem not_mem_append {s t : Bytes} (hs : lf ∉ s) (ht : lf ∉ t) : lf ∉ s ++ t :=
  fun hm => (List.mem_append.mp hm).elim hs ht

/-- **The runtime honours the contract under the invariant.**

Call by call. What is answered is a text of the context or of the message, or a part of an
operand, and those are clean by the invariant or by what is asked of operands; what is written is
an operand, cut to 32 bits at most. The rebuilt URI is made of parts of both
(`lf_not_mem_rebuilt`), and deleting a header takes entries away only. -/
theorem honours (rx : RegexEngine) : Prog.Honours (runtime rx) Framed pre post := by
  intro i c w h hc
  have hclip : ∀ {s : Bytes}, lf ∉ s → lf ∉ clip s := fun hs hm => hs (mem_of_mem_clip hm)
  -- Call by call: most answer with a text the context has, and a write puts a clean text in.
  cases c with
  | getHeader name => exact ⟨h.getHeader _, h⟩
  | setHeader name value =>
    exact ⟨trivial, h.setHeader (.ofBytes name) (.ofBytes value)
      hc.1.clip.isName (hclip hc.2)⟩
  | addHeader name value =>
    exact ⟨trivial, h.addHeader (.ofBytes name) (.ofBytes value)
      hc.1.clip.isName (hclip hc.2)⟩
  | deleteHeader name =>
    have hst := congrArg (fun r => r.2.live)
      (w.msg.storeOf_deleteHeader w.ctx.arena (HmrStr.ofBytes name).text)
    have hsub : ∀ p ∈ (w.msg.deleteHeader (HmrStr.ofBytes name).text).2.live,
        p ∈ w.msg.live := by
      intro p hp
      rw [show (w.msg.deleteHeader (HmrStr.ofBytes name).text).2.live
        = Assoc.delete iequals w.msg.live (HmrStr.ofBytes name).text from hst] at hp
      exact (List.mem_filter.mp hp).1
    exact ⟨trivial, { h with
      name := fun p hp => h.name p (hsub p hp)
      value := fun p hp => h.value p (hsub p hp) }⟩
  | getMethod => exact ⟨trivial, h⟩
  | isRequest => exact ⟨trivial, h⟩
  | hmrMatch t subject pattern regex =>
    cases t with
    | regex => exact ⟨trivial, h.search rx _ (.ofBytes subject) (hclip hc)⟩
    | _ => exact ⟨trivial, h⟩
  | getCapture index => exact ⟨h.capture index, h⟩
  | getVar id =>
    refine ⟨?_, h⟩
    show lf ∉ (Rt.getVar w.ctx id).text
    rw [Rt.getVar_text]
    split
    · exact List.not_mem_nil
    · exact hclip (h.vars id)
  | store slot value =>
    refine ⟨trivial, { h with slots := fun s hs => ?_ }⟩
    rcases List.mem_or_eq_of_mem_set hs with hs | rfl
    · exact h.slots s hs
    · exact hclip hc
  | load slot =>
    refine ⟨?_, h⟩
    show lf ∉ (Rt.load w.ctx slot).text
    rw [Rt.load_text]
    exact hclip (h.slot slot)
  | valReset => exact ⟨trivial, { h with scratch := List.not_mem_nil }⟩
  | valAppendLit literal =>
    exact ⟨trivial, { h with scratch := not_mem_append h.scratch (hclip hc) }⟩
  | valAppendVar id =>
    refine ⟨trivial, ?_⟩
    show Framed (if id = .none then w else _)
    split
    · exact h
    · exact { h with scratch := not_mem_append h.scratch (h.vars id) }
  | valAppendCapture index =>
    exact ⟨trivial, { h with scratch := not_mem_append h.scratch (h.capture index) }⟩
  | valAppendSlot slot =>
    exact ⟨trivial, { h with scratch := not_mem_append h.scratch (h.slot slot) }⟩
  | valFinish => exact ⟨hclip h.scratch, h⟩
  | uriGet headerValue element =>
    have hpart := (Uri.component_isPart (.ofBytes headerValue) element).subset
    exact ⟨fun hm => hclip hc (hpart hm), h⟩
  | uriSet headerValue element newValue =>
    refine ⟨?_, { h with }⟩
    show lf ∉ (Uri.rebuildUri w.ctx.arena (HmrStr.ofBytes headerValue).sv element
      (HmrStr.ofBytes newValue).sv).1.text
    obtain ⟨-, htext, -⟩ | ⟨-, heq⟩ := Uri.rebuildUri_spec w.ctx.arena
      (.ofBytes headerValue) element (.ofBytes newValue)
    · rw [htext]
      exact lf_not_mem_rebuilt (hclip hc.1) (hclip hc.2)
    · rw [heq]
      exact List.not_mem_nil
  | log message => exact ⟨trivial, { h with }⟩
  | reject code reason => exact ⟨trivial, { h with }⟩

/-- A packet starts out framed, whatever the context has of earlier ones. -/
theorem framed_parse {raw : Bytes} (hraw : raw.length < 2 ^ 32) {ctx : HmrContext}
    (hvars : ∀ id, lf ∉ ctx.vars id) (hslots : ∀ s ∈ ctx.slots, lf ∉ s) :
    Framed ⟨HmrSipMsg.parse raw, ctx.resetForApply⟩ where
  name := (HmrSipMsg.canonicalOf raw hraw).name_onLine
  value p hp := ((HmrSipMsg.canonicalOf raw hraw).value_onLine p hp).no_lf
  startLine := (HmrSipMsg.canonicalOf raw hraw).startLine_onLine
  unmodified := HmrSipMsg.modRequestUri_parse raw
  vars := hvars
  slots := hslots
  captures _ hm := (nomatch hm)
  scratch := List.not_mem_nil

end Framing

/-- **The framing of a message is intact**: no live header breaks its line, and
parsing what is put out gives the live headers back, with their values
trimmed, the start line and the body. -/
structure HmrSipMsg.Intact (m : HmrSipMsg) : Prop where
  no_lf : ∀ p ∈ m.live, lf ∉ p.1 ∧ lf ∉ p.2
  reparse : ∀ a : HmrArena, (m.serialize a).1.present = true →
    (parse (m.serialize a).1.text).live = m.live.map (fun p => (p.1, trim p.2))
      ∧ (parse (m.serialize a).1.text).startLine.text = m.startLine.text
      ∧ (parse (m.serialize a).1.text).body.text = m.body.text

namespace Framing

/-- **A framed message is intact.** -/
theorem Framed.intact {w : World} (h : Framed w) : w.msg.Intact where
  no_lf p hp := ⟨(h.name p hp).1.no_lf, h.value p hp⟩
  reparse a hp := by
    obtain ⟨htext, hfit⟩ := HmrSipMsg.text_of_serialize hp
    have hle : w.msg.live.length ≤ hmrMaxHeaders := by
      refine le_trans ?_ w.msg.headers_le
      unfold HmrSipMsg.live Tombstone.live
      rw [List.length_map]
      exact List.length_filter_le _ _
    have hlen : w.msg.rendered.length < 2 ^ 32 :=
      Nat.lt_of_le_of_lt (hfit.trans (Nat.sub_le _ _)) (show kCapacity < 2 ^ 32 by decide)
    have hr : w.msg.rendered = w.msg.startLine.text ++ crlf
        ++ w.msg.live.flatMap HmrSipMsg.renderHeader ++ crlf ++ w.msg.body.text :=
      HmrSipMsg.rendered_of_unmodified h.unmodified
    rw [hr] at hlen
    have hw := CanonicalMessage.wire_parse_text h.startLine hle h.name h.value hlen
    rw [← hr, ← htext] at hw
    refine ⟨congrArg Wire.headers hw, ?_, congrArg Wire.body hw⟩
    refine (congrArg Wire.startLine hw).trans ?_
    exact (HmrSipMsg.firstWire_startLine _).trans w.msg.startLine.clip_text

/-- The numbers of a ruleset are no part of the contract. -/
theorem keeps_resolve {st : SymbolTable} {α : Type} {Q : α → Prop} {p : SymProg α}
    (hp : Keeps Q p) : (p.mapCalls st.resolve).Meets pre post Q := by
  refine (hp.imp (fun i c hc => ?_) (fun i c r hr => ?_)).mapCalls
  · cases c <;> exact hc
  · cases c <;> exact hr

/-- **A packet stays framed**, at every state of its run. -/
theorem framed_visits (rx : RegexEngine) {rs : Ruleset} (hrs : rs.IsClean) {w : World}
    (h : Framed w) : ∀ w' ∈ (Interpreter.apply rs).visits (runtime rx) w, Framed w' := by
  rw [Interpreter.apply_eq]
  exact ((keeps_resolve (program_keeps hrs)).visits (honours rx) h).2

/-- **A sequence of packets** leaves clean slots. -/
theorem slots_after (rx : RegexEngine) {rs : Ruleset} (hrs : rs.IsClean)
    {packets : List Bytes} (hlen : ∀ raw ∈ packets, raw.length < 2 ^ 32) (ctx : HmrContext)
    (hvars : ∀ id, lf ∉ ctx.vars id) (hslots : ∀ s ∈ ctx.slots, lf ∉ s) :
    (∀ id, lf ∉ (Interpreter.after rx rs ctx packets).vars id)
      ∧ ∀ s ∈ (Interpreter.after rx rs ctx packets).slots, lf ∉ s := by
  induction packets generalizing ctx with
  | nil => exact ⟨hvars, hslots⟩
  | cons raw packets ih =>
    have hw := framed_visits rx hrs
      (framed_parse (hlen raw List.mem_cons_self) hvars hslots) _ (Prog.run_mem_visits _ _ _)
    exact ih (fun x hx => hlen x (List.mem_cons_of_mem _ hx)) _ hw.vars hw.slots

end Framing

namespace Interpreter

/-- **No header injection.** For a ruleset whose header names are tokens and
whose literals do not break the line, variables that do not either, and any
sequence of packets below `2 ^ 32` bytes on one context: the framing of the
message is intact at every state of every run. -/
theorem framing_integrity (rx : RegexEngine) (rs : Ruleset) (hrs : rs.IsClean)
    (ctx : HmrContext) (hctx : makeContext rx (info rs) = some ctx)
    (vars : HmrVarId → Bytes) (hvars : ∀ id, lf ∉ vars id ∧ cr ∉ vars id)
    (packets : List Bytes) (hlen : ∀ raw ∈ packets, raw.length < 2 ^ 32)
    (raw : Bytes) (hraw : raw.length < 2 ^ 32) :
    ∀ w ∈ (apply rs).visits (runtime rx)
      ⟨HmrSipMsg.parse raw, (after rx rs { ctx with vars := vars } packets).resetForApply⟩,
      w.msg.Intact := by
  have hslots : ∀ s ∈ ctx.slots, lf ∉ s := by
    rw [(HmrContext.prepared_of_makeContext hctx).2]
    intro s hs
    rw [List.eq_of_mem_replicate hs]
    exact List.not_mem_nil
  obtain ⟨hv, hs⟩ := Framing.slots_after rx hrs hlen { ctx with vars := vars }
    (fun id => (hvars id).1) hslots
  exact fun w hw =>
    (Framing.framed_visits rx hrs (Framing.framed_parse hraw hv hs) w hw).intact

/-- A rule that keeps a header, and one that adds what it kept and a variable
to every message. -/
def keepAndAdd : Ruleset where
  headerRules :=
    [{ name := txt "via", headerName := txt "Via", action := .store },
      { headerName := txt "X-Via", action := .add,
        newValue :=
          { raw := txt "$via+$LOCAL_IP"
            segments := [.ref ⟨.ruleRef, txt "via", -1⟩, .ref ⟨.variable, txt "LOCAL_IP", -1⟩] } }]

/-- A packet after one that broke its lines with CR. -/
theorem framing_integrity_request :
    ((apply keepAndAdd).run (runtime .blind)
      ⟨HmrSipMsg.parse (txt "BYE b\nVia: c\n\n"),
        (after .blind keepAndAdd { slots := [[]], vars := fun _ => txt "10.0.0.1" }
          [txt "A b\nVia: x\ry\n\n"]).resetForApply⟩).2.msg.Intact := by
  have hinfo : info keepAndAdd = ⟨txt "hmr", 1, []⟩ := by decide +kernel
  exact framing_integrity .blind keepAndAdd
    ⟨by decide +kernel, by decide +kernel, by decide +kernel⟩ { slots := [[]] }
    (by rw [hinfo]; rfl) (fun _ => txt "10.0.0.1") (fun _ => by decide)
    [txt "A b\nVia: x\ry\n\n"] (by decide) (txt "BYE b\nVia: c\n\n") (by decide)
    _ (Prog.run_mem_visits _ _ _)

/-- A packet whose one header has a name of two bytes and `cs`. -/
def longName (cs : Bytes) : Bytes :=
  txt "A" ++ lf :: ((txt "b " ++ cs) ++ colon :: txt "v" ++ lf :: [lf])

/-- **A name of `2 ^ 32 + 2` bytes is read as its first two.** When `cs` fills a 32-bit length
exactly, the view of the name ends with the two bytes in front of it, the second of which is a
blank; so the header that is parsed has a name that no line of the wire can have. -/
theorem wire_longName {cs : Bytes} (hcs : ∀ c ∈ cs, c = 99) (hlen : cs.length = 2 ^ 32) :
    (HmrSipMsg.parse (longName cs)).wire
      = { HmrSipMsg.firstWire (txt "A") with headers := [(txt "b ", txt "v")] } := by
  have hne : cs ≠ [] := fun h => by
    rw [h] at hlen
    cases hlen
  have hnot : ∀ x : UInt8, x ≠ 99 → x ∉ txt "b " → x ∉ txt "b " ++ cs := fun x hx hb hm =>
    (List.mem_append.mp hm).elim hb fun hm => hx (hcs x hm)
  have hcolon := hnot colon (by decide) (by decide)
  have hline : lf ∉ (txt "b " ++ cs) ++ colon :: txt "v" := fun hm =>
    (List.mem_append.mp hm).elim (hnot lf (by decide) (by decide))
      fun hm => absurd hm (by decide)
  have htrim : trim (txt "b " ++ cs) = txt "b " ++ cs := by
    show (List.dropWhile isBlank (98 :: (32 :: cs))).rdropWhile isBlankOrCr = _
    rw [List.dropWhile_cons_of_neg (by decide)]
    refine List.rdropWhile_eq_self_iff.mpr fun _ => ?_
    rw [List.getLast_cons (List.cons_ne_nil _ _), List.getLast_cons hne,
      hcs _ (List.getLast_mem hne)]
    decide
  -- The length of the name is two, in 32 bits, so its view ends behind the blank.
  have hof : headerOf ((txt "b " ++ cs) ++ colon :: txt "v") = some (txt "b ", txt "v") := by
    have hmod : (txt "b " ++ cs).length % 2 ^ 32 = (txt "b ").length := by
      rw [List.length_append, hlen]
      decide
    rw [headerOf, find_append hcolon]
    dsimp only
    rw [List.take_left, htrim, ← List.drop_drop, List.drop_left, clip, hmod,
      List.take_left]
    rfl
  have hls : ∀ l ∈ [(txt "b " ++ cs) ++ colon :: txt "v"],
      lf ∉ l ∧ (trim l).isEmpty = false := by
    intro l hl
    rw [List.mem_singleton.mp hl]
    refine ⟨hline, Bool.eq_false_iff.mpr fun he => ?_⟩
    have hmem : colon ∈ trim ((txt "b " ++ cs) ++ colon :: txt "v") :=
      colon_mem_trim (List.mem_append_right _ List.mem_cons_self)
    rw [List.isEmpty_iff.mp he] at hmem
    cases hmem
  obtain ⟨hlines, hbody⟩ := headerLines_flatMap _ hls (b := []) (by decide) (by decide) []
  rw [List.flatMap_singleton, List.append_assoc, List.singleton_append,
    List.nil_append] at hlines hbody
  rw [HmrSipMsg.parse_wire, longName, lineSplit_append (by decide)]
  dsimp only
  rw [hlines, hbody, List.filterMap_cons, hof]
  rfl

/-- **Past `2 ^ 32` bytes the framing is not intact**: a name cut down to 32
bits can end in a blank, which is not read back. -/
theorem framing_not_intact :
    ¬ ∀ (rx : RegexEngine) (rs : Ruleset), rs.IsClean →
      ∀ ctx : HmrContext, makeContext rx (info rs) = some ctx →
      ∀ vars : HmrVarId → Bytes, (∀ id, lf ∉ vars id ∧ cr ∉ vars id) →
      ∀ (packets : List Bytes) (raw : Bytes),
      ∀ w ∈ (apply rs).visits (runtime rx)
        ⟨HmrSipMsg.parse raw,
          (after rx rs { ctx with vars := vars } packets).resetForApply⟩,
        w.msg.Intact := by
  intro h
  obtain ⟨cs, hcs, hlen⟩ : ∃ cs : Bytes, (∀ c ∈ cs, c = 99) ∧ cs.length = 2 ^ 32 :=
    ⟨List.replicate (2 ^ 32) 99, fun _ => List.eq_of_mem_replicate, List.length_replicate⟩
  have hinfo : info {} = ⟨txt "hmr", 0, []⟩ := by decide
  have hi := h .blind {} ⟨by decide, by decide, by decide⟩ {} (by rw [hinfo]; rfl)
    (fun _ => []) (fun _ => by decide) [] (longName cs) _ List.mem_cons_self
  have hw := wire_longName hcs hlen
  have hr : (HmrSipMsg.parse (longName cs)).rendered = txt "A\r\nb : v\r\n\r\n" := by
    rw [HmrSipMsg.rendered_of_unmodified (HmrSipMsg.modRequestUri_parse _), hw]
    decide
  obtain ⟨hfit, hser⟩ := (HmrSipMsg.parse (longName cs)).serialize_iff .fresh
  have hp := hfit.mpr (by rw [hr]; decide)
  have hlive := (hi.reparse .fresh hp).1
  rw [hser hp, hr, show (HmrSipMsg.parse (longName cs)).live = [(txt "b ", txt "v")] from
    congrArg Wire.headers hw] at hlive
  exact absurd hlive (by decide)

end Interpreter

end Hmr
