import Hmr.Forwarding

/-!
# One packet after another

A context is used for packet after packet, and `reset_for_apply` leaves its slots as they
are. What an earlier packet stored is therefore there for a later one to read – unless the
later one only reads slots it has stored to itself. `ownSlots` says that of a run, and
then the packet comes to what it would on a fresh context (`Interpreter.isolation`): call
by call the two runs are answered the same, and the slots an earlier packet filled stay
the only difference (`calls_slots`, `run_ownSlots`).

Reading a slot that an earlier packet has left empty is no harm either, since in a new
context it is empty too. So what is asked of the earlier packets is which slots they have
left something in, and of the packet that it stores to such a slot before it reads it.
Both can be told before the packet is handled, from the ruleset and the state it is
handled in.

Everything else in a context is reset, or is set again before it is read: the groups of
the last match are forgotten, the arena and the scratch buffer are emptied, and the
variables are the host's.
-/

namespace Hmr

/-! ## A context after use -/

/-- A context that has been used is still prepared, with the same variables. -/
theorem HmrContext.Prepared.after {rs : Ruleset} {ctx : HmrContext}
    (h : ctx.Prepared (Interpreter.info rs)) (rx : RegexEngine) (packets : List Bytes) :
    (Interpreter.after rx rs ctx packets).Prepared (Interpreter.info rs)
      ∧ (Interpreter.after rx rs ctx packets).vars = ctx.vars := by
  induction packets generalizing ctx with
  | nil => exact ⟨h, rfl⟩
  | cons raw packets ih =>
    have hkept : (Interpreter.process rx rs ctx raw).2.kept = ctx.kept :=
      kept_run rx (Interpreter.apply rs) ⟨HmrSipMsg.parse raw, ctx.resetForApply⟩
    simp only [HmrContext.kept, Prod.mk.injEq] at hkept
    obtain ⟨hregexes, hslots, hvars⟩ := hkept
    obtain ⟨hp, hv⟩ := ih ⟨hregexes.trans h.regexes, hslots.trans h.slots⟩
    exact ⟨hp, hv.trans hvars⟩

/-! ## Slots of its own -/

/-- The call reads a slot that is as an earlier packet left it. -/
def readsLeft (left : Bytes → Bool) : ∀ i, SymCall i → Bool
  | _, .load slot => left slot
  | _, .valAppendSlot slot => left slot
  | _, _ => false

/-- The slots that are still as an earlier packet left them. -/
def stillLeft (left : Bytes → Bool) : ∀ i, SymCall i → Bytes → Bool
  | _, .store slot _ => fun k => k != slot && left k
  | _, _ => left

/-- **The run reads no slot that an earlier packet filled**, other than those
it has stored to itself. -/
def ownSlots (rx : RegexEngine) {α : Type} : SymProg α → (Bytes → Bool) → Machine → Bool
  | .pure _, _, _ => true
  | .call c k, left, m =>
    !readsLeft left _ c
      && ownSlots rx (k (Machine.calls rx _ c m).1) (stillLeft left _ c)
        (Machine.calls rx _ c m).2

section
variable {rx : RegexEngine} {α : Type} {left : Bytes → Bool} {m : Machine} {slots : Bytes → Bytes}

/-- **A call that reads no such slot** is answered whatever is in them, and what is left in the
others stays as it is.

Call by call. A store takes its slot out of those that are left over, and writes the same text on
both sides; a load, or a reference in a value, is to a slot that is the same on both sides, as
the call reads none that is left over; and no other call gets to the slots. -/
theorem calls_slots {i : RetTy} {c : SymCall i} (hc : readsLeft left i c = false)
    (hs : ∀ k, left k = false → m.slots k = slots k) :
    ∃ slots', Machine.calls rx i c { m with slots := slots }
        = ((Machine.calls rx i c m).1, { (Machine.calls rx i c m).2 with slots := slots' })
      ∧ ∀ k, stillLeft left i c k = false → (Machine.calls rx i c m).2.slots k = slots' k := by
  -- A store writes the same on both sides; a load reads a slot that is the same; other calls do
  -- not get to the slots.
  cases c with
  | store slot value =>
    refine ⟨fun k => if k = slot then clip value else slots k, rfl, fun k hk => ?_⟩
    have hk : (k != slot && left k) = false := hk
    show (if k = slot then clip value else m.slots k)
      = if k = slot then clip value else slots k
    by_cases he : k = slot
    · rw [if_pos he, if_pos he]
    · rw [bne_iff_ne.mpr he, Bool.true_and] at hk
      rw [if_neg he, if_neg he, hs k hk]
  | load slot =>
    refine ⟨slots, ?_, hs⟩
    show (clip (slots slot), ({ m with slots := slots } : Machine))
      = (clip (m.slots slot), { m with slots := slots })
    rw [hs slot hc]
  | valAppendSlot slot =>
    refine ⟨slots, ?_, hs⟩
    show ((), ({ m with scratch := m.scratch ++ slots slot, slots := slots } : Machine))
      = ((), { m with scratch := m.scratch ++ m.slots slot, slots := slots })
    rw [hs slot hc]
  | hmrMatch t subject pattern key =>
    cases t with
    | regex =>
      show ∃ slots', Machine.search rx { m with slots := slots } key (clip subject)
          = ((m.search rx key (clip subject)).1,
            { (m.search rx key (clip subject)).2 with slots := slots' })
        ∧ ∀ k, left k = false → (m.search rx key (clip subject)).2.slots k = slots' k
      unfold Machine.search
      cases key with
      | none => exact ⟨slots, rfl, hs⟩
      | some r =>
        dsimp only
        cases rx.search (cString r.1) r.2 (clip subject) with
        | none => exact ⟨slots, rfl, hs⟩
        | some groups => exact ⟨slots, rfl, hs⟩
    | _ => exact ⟨slots, rfl, hs⟩
  | valAppendVar id =>
    refine ⟨slots, ?_, ?_⟩
    · by_cases hid : id = .none
      · simp [Machine.calls, hid]
      · simp [Machine.calls, hid]
    · by_cases hid : id = .none
      · simpa [Machine.calls, stillLeft, hid] using hs
      · simpa [Machine.calls, stillLeft, hid] using hs
  | uriSet headerValue element newValue =>
    show ∃ slots', Machine.build { m with slots := slots } _
        = ((m.build _).1, { (m.build _).2 with slots := slots' })
      ∧ ∀ k, left k = false → (m.build _).2.slots k = slots' k
    unfold Machine.build
    dsimp only
    cases m.store.claim _ with
    | none => exact ⟨slots, rfl, hs⟩
    | some store => exact ⟨slots, rfl, hs⟩
  | _ => exact ⟨slots, rfl, hs⟩

/-- **So is a run** that reads none: it comes to the same, apart from the slots. -/
theorem run_ownSlots {q : SymProg α} (hq : ownSlots rx q left m = true)
    (hs : ∀ k, left k = false → m.slots k = slots k) :
    ∃ slots', q.run (Machine.calls rx) { m with slots := slots }
      = ((q.run (Machine.calls rx) m).1,
        { (q.run (Machine.calls rx) m).2 with slots := slots' }) := by
  -- A call leaves slots that differ where they did, but for the one that is stored to.
  induction q generalizing left m slots with
  | pure a => exact ⟨slots, rfl⟩
  | call c k ih =>
    rw [ownSlots, Bool.and_eq_true, Bool.not_eq_true'] at hq
    obtain ⟨slots', hcall, hs'⟩ := calls_slots hq.1 hs
    obtain ⟨slots'', hrun⟩ := ih _ hq.2 hs'
    refine ⟨slots'', ?_⟩
    show (k (Machine.calls rx _ c { m with slots := slots }).1).run (Machine.calls rx)
      (Machine.calls rx _ c { m with slots := slots }).2 = _
    rw [hcall]
    exact hrun

end

namespace Interpreter

/-- **A packet comes to what it would on a fresh context**, when its run reads
no slot that an earlier packet filled. -/
theorem isolation (rx : RegexEngine) (rs : Ruleset) (ctx : HmrContext)
    (hctx : makeContext rx (info rs) = some ctx) (vars : HmrVarId → Bytes)
    (packets : List Bytes) (raw : Bytes) :
    let fresh := { ctx with vars := vars }
    let used := after rx rs fresh packets
    let slots := used.slotsBy (Meaning.symbols rs)
    ownSlots rx (Meaning.program rs) (fun k => slots k != []) (.ofPacket raw vars slots) = true →
      (process rx rs used raw).1 = (process rx rs fresh raw).1 := by
  intro fresh used slots hown
  have hprep : fresh.Prepared (info rs) :=
    let h := (HmrContext.prepared_of_makeContext hctx).1
    ⟨h.regexes, h.slots⟩
  obtain ⟨hused, hvars⟩ := hprep.after rx packets
  -- A new context has empty slots, so they differ only where something was left.
  have hempty : ∀ k, fresh.slotsBy (Meaning.symbols rs) k = [] := by
    intro k
    unfold HmrContext.slotsBy
    rw [show fresh.slots = List.replicate (info rs).numSlots [] from
      (HmrContext.prepared_of_makeContext hctx).2, List.getElem?_replicate]
    split <;> rfl
  have hsame : ∀ k, (slots k != []) = false → slots k = fresh.slotsBy (Meaning.symbols rs) k :=
    fun k hk => (bne_eq_false_iff_eq.mp hk).trans (hempty k).symm
  obtain ⟨slots', hrun⟩ := run_ownSlots hown hsame
  have hfresh : Machine.process rx rs raw vars (fresh.slotsBy (Meaning.symbols rs)) = _ := hrun
  rw [outcome_process hused, outcome_process hprep, hvars, hfresh]
  rfl

/-- A rule that keeps the Via header of the messages of a type, and one that
adds what is kept to every message. -/
def keepVia (msgType : MsgType) : Ruleset where
  headerRules :=
    [{ name := txt "via", headerName := txt "Via", action := .store, msgType := msgType },
      { headerName := txt "X", action := .add,
        newValue := { raw := txt "$via", segments := [.ref ⟨.ruleRef, txt "via", -1⟩] } }]

/-- It has one slot, and no regex. -/
theorem info_keepVia (t : MsgType) : info (keepVia t) = ⟨txt "hmr", 1, []⟩ := by
  cases t <;> decide

/-- Every message keeps its own header before it adds what is kept. -/
theorem isolation_own_slots :
    (process .blind (keepVia .any)
        (after .blind (keepVia .any) { slots := [[]] } [txt "A b\nVia: x\n\n"])
        (txt "A b\nVia: y\n\n")).1
      = (process .blind (keepVia .any) { slots := [[]] } (txt "A b\nVia: y\n\n")).1 :=
  isolation .blind (keepVia .any) { slots := [[]] } (by rw [info_keepVia]; rfl) (fun _ => [])
    [txt "A b\nVia: x\n\n"] (txt "A b\nVia: y\n\n") (by decide)

/-- **A reply shows the Via of the request before it**, which only requests
keep. -/
theorem isolation_leak :
    ¬ ∀ (rx : RegexEngine) (rs : Ruleset) (ctx : HmrContext),
      makeContext rx (info rs) = some ctx → ∀ (vars : HmrVarId → Bytes)
        (packets : List Bytes) (raw : Bytes),
        (process rx rs (after rx rs { ctx with vars := vars } packets) raw).1
          = (process rx rs { ctx with vars := vars } raw).1 := by
  intro h
  have hleak := h .blind (keepVia .request) { slots := [[]] } (by rw [info_keepVia]; rfl)
    (fun _ => []) [txt "A b\nVia: x\n\n"] (txt "SIP/2.0 200\nVia: y\n\n")
  exact absurd (congrArg Outcome.message hleak) (by decide)

end Interpreter

end Hmr
