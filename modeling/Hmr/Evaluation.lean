import Hmr.Records

/-!
# What a value comes to

A value is text and references, and what it comes to is the text with that of the
references in their places. The back-ends get there in three ways: text alone is a
constant, a reference alone is looked up, and anything else is put together piece by
piece. The result is the same (`Meaning.run_value`), as long as a 32-bit view can show all
of it.

The pieces are put together in the scratch buffer of the context, which is emptied first.
What a reference reads is not in that buffer, so it reads the same whatever has been put
into it (`Meaning.refText_addScratch`), and the pieces can be evaluated one by one and
then be appended.

Nothing else of the context or of the message is changed by that, so two values that are
evaluated in turn do not depend on each other.
-/

namespace Hmr

/-- The text of a segment, given that of references. -/
def ValueSegment.textWith (env : ValueRef → Bytes) : ValueSegment → Bytes
  | .literal text => text
  | .ref r => env r

/-- **The text of a value**, given that of references. -/
def Value.textWith (env : ValueRef → Bytes) (v : Value) : Bytes :=
  v.segments.flatMap (ValueSegment.textWith env)

namespace Meaning

/-- **What a reference stands for**: what a variable is bound to, a capture matched or a
slot holds. -/
def refText (st : SymbolTable) (w : World) (r : ValueRef) : Bytes :=
  match r.kind with
  | .variable =>
    if Lowering.variableId r.name = .none then [] else w.ctx.vars (Lowering.variableId r.name)
  | .capture => (Rt.getCapture w.ctx (refGroup r)).text
  | .ruleRef => w.slot st (refSlot r)

/-- The state with some more text in the scratch buffer. -/
def addScratch (w : World) (text : Bytes) : World :=
  { w with ctx := { w.ctx with scratch := w.ctx.scratch ++ text } }

section
variable (rx : RegexEngine) {st : SymbolTable} {w : World}

/-- **A reference does not read the scratch buffer.** -/
theorem refText_addScratch (text : Bytes) (r : ValueRef) :
    refText st (addScratch w text) r = refText st w r := by
  unfold refText
  cases r.kind with
  | «variable» => rfl
  | capture => rfl
  | ruleRef => rfl

/-- A reference alone is looked up. -/
theorem run_refValue (r : ValueRef) :
    ((refValue callProg r).run (st.runtime rx) w).1 = clip (refText st w r) := by
  unfold refValue refText
  cases r.kind with
  | «variable» =>
    change (Rt.getVar w.ctx (Lowering.variableId r.name)).text = _
    rw [Rt.getVar_text]
    split
    · rfl
    · rfl
  | capture => exact (HmrStr.clip_text _).symm
  | ruleRef =>
    exact Rt.load_text w.ctx (st.slotId (refSlot r))

/-- A segment is added to the scratch buffer. -/
theorem run_appendSegment {s : ValueSegment}
    (hlen : (s.textWith (refText st w)).length < 2 ^ 32) :
    ((appendSegment callProg s).run (st.runtime rx) w).2
      = addScratch w (s.textWith (refText st w)) := by
  cases s with
  | literal text =>
    have hclip : clip text = text := clip_of_lt hlen
    unfold appendSegment
    dsimp only
    split
    · rename_i hempty
      obtain rfl := List.isEmpty_iff.mp hempty
      change w = addScratch w []
      rw [addScratch, List.append_nil]
    · change addScratch w (clip (clip text)) = addScratch w text
      rw [hclip, hclip]
  | ref r =>
    unfold appendSegment
    dsimp only [ValueSegment.textWith]
    unfold refText
    cases r.kind with
    | «variable» =>
      change (if Lowering.variableId r.name = .none then w
        else addScratch w (w.ctx.vars (Lowering.variableId r.name))) = _
      dsimp only
      split
      · rw [addScratch, List.append_nil]
      · rfl
    | capture => rfl
    | ruleRef => rfl

/-- **The segments are added one after the other.** -/
theorem run_appendSegments {segs : List ValueSegment}
    (hlen : (segs.flatMap (ValueSegment.textWith (refText st w))).length < 2 ^ 32) :
    ((appendSegments callProg segs).run (st.runtime rx) w).2
      = addScratch w (segs.flatMap (ValueSegment.textWith (refText st w))) := by
  -- What has been appended does not change what the next segment comes to.
  induction segs generalizing w with
  | nil =>
    change w = addScratch w []
    rw [addScratch, List.append_nil]
  | cons s segs ih =>
    rw [List.flatMap_cons, List.length_append] at hlen
    have henv : refText st (addScratch w (s.textWith (refText st w))) = refText st w :=
      funext (refText_addScratch _)
    have hfirst := run_appendSegment rx (lt_of_le_of_lt (Nat.le_add_right _ _) hlen)
    have hrest : (segs.flatMap (ValueSegment.textWith
        (refText st (addScratch w (s.textWith (refText st w)))))).length < 2 ^ 32 := by
      rw [henv]
      exact lt_of_le_of_lt (Nat.le_add_left _ _) hlen
    rw [appendSegments, Prog.run_bind, hfirst, ih hrest, henv, addScratch, addScratch, addScratch,
      List.flatMap_cons, List.append_assoc]

/-- A value of text only has that text, whatever references stand for. -/
theorem textWith_of_pureLiteral {v : Value} (h : v.isPureLiteral = true)
    (env : ValueRef → Bytes) : v.textWith env = v.literalText := by
  unfold Value.isPureLiteral at h
  unfold Value.textWith Value.literalText
  rw [List.all_eq_true] at h
  refine List.flatMap_congr fun s hs => ?_
  cases s with
  | literal text => rfl
  | ref r => cases h _ hs

/-- **A value comes to its text.** There are four ways a back-end takes: nothing is looked up for
an empty value, a literal is passed as it is, a single reference is looked up and passed on, and
anything else goes through the scratch buffer, segment by segment. The text is the same in all of
them, as long as it is one of 32 bits; longer ones are cut, and in different places. -/
theorem run_value {v : Value} (hempty : v.raw = [] → v.segments = [])
    (hlen : (v.textWith (refText st w)).length < 2 ^ 32) :
    ((value callProg v).run (st.runtime rx) w).1 = v.textWith (refText st w) := by
  unfold value
  split
  · rename_i h
    rw [Value.textWith, hempty (List.isEmpty_iff.mp h)]
    rfl
  · split
    · rename_i hpure
      rw [textWith_of_pureLiteral hpure] at hlen ⊢
      exact clip_of_lt hlen
    · split
      · rename_i r hsingle
        have hsegments : v.segments = [.ref r] := by
          unfold Value.singleRef? at hsingle
          split at hsingle
          · rename_i heq
            cases hsingle
            exact heq
          · cases hsingle
        have htext : v.textWith (refText st w) = refText st w r := by
          rw [Value.textWith, hsegments]
          exact List.append_nil _
        rw [htext] at hlen ⊢
        exact (run_refValue rx r).trans (clip_of_lt hlen)
      · -- The scratch buffer is emptied first, which no reference sees.
        have hreset : refText st { w with ctx := { w.ctx with scratch := [] } } = refText st w := by
          funext r
          unfold refText
          cases r.kind with
          | «variable» => rfl
          | capture => rfl
          | ruleRef => rfl
        have hsegments : (v.segments.flatMap (ValueSegment.textWith
            (refText st { w with ctx := { w.ctx with scratch := [] } }))).length < 2 ^ 32 := by
          rwa [hreset]
        have hrun := run_appendSegments rx hsegments
        rw [Prog.run_bind, Prog.run_bind]
        change clip ((appendSegments callProg v.segments).run (st.runtime rx)
          { w with ctx := { w.ctx with scratch := [] } }).2.ctx.scratch = _
        rw [hrun, hreset]
        exact clip_of_lt hlen

end

end Meaning

end Hmr
