import Hmr.BackReferences
import Hmr.Deleting
import Hmr.Records

/-!
# References to elements

An element rule `e` of a header rule `h` stores in the slot `e`. The reference written for
it, `$h.$e`, is read as one path of two names, and the slot of a path is that of its first
name. So what it reads is the slot `h` – which nothing but the rule `h` itself stores to.
It resolves to the element exactly when what is found there is the same text
(`Interpreter.elementReference_resolves_iff`).

Both slots have a history. What is in `h` may be left from an earlier packet, or be empty,
if `h` is no `store` and no other rule has its name; and it may be what `e` has stored, as
when `h` stores the part that `e` is about. The condition is about the state the reference
is evaluated in, where both are known.
-/

namespace Hmr

namespace Value

/-- The text of a reference to an element. -/
def elementReference (h e : Bytes) : Bytes := 36 :: (h ++ 46 :: 36 :: e)

/-- **`$h.$e` is one token.** -/
theorem nextToken_element {h e : Bytes} (hh : IsRuleName h) (he : IsRuleName e) :
    nextToken (h ++ 46 :: 36 :: e) = some (.chain h [e] none, []) := by
  obtain ⟨hname, htail⟩ := takeWhile_name (c := 46) (36 :: e) hh.ident (by decide)
  have hstart : startsWith isIdentStart e = true := by
    simpa using he.startsWith []
  have helement : e.takeWhile isIdentCont = e := List.takeWhile_eq_self_iff.mpr he.ident
  have hnone : e.dropWhile isIdentCont = [] := List.dropWhile_eq_nil_iff.mpr he.ident
  have hlast : ∀ fuel, links fuel [] = ([], none, []) := fun fuel =>
    links_of_not fuel fun after heq => List.noConfusion rfl (heq_of_eq heq)
  rw [nextToken_name hh, hname, htail]
  simp only [List.length_append, List.length_cons, ← Nat.add_assoc, links, hstart, if_true,
    helement, hnone, hlast]

/-- **It is read as one reference**, to a path of two names. -/
theorem parse_element {h e : Bytes} (hh : IsRuleName h) (he : IsRuleName e) :
    parse (elementReference h e) .newValue false
      = some
          { raw := elementReference h e
            segments := [.ref ⟨.ruleRef, h ++ 46 :: e, -1⟩] } := by
  have hplus : 43 ∉ elementReference h e := by
    simp only [elementReference, List.mem_append, List.mem_cons, not_or]
    exact ⟨by decide, hh.not_mem (by decide), by decide, by decide, he.not_mem (by decide)⟩
  have hfits : (RefToken.chain h [e] none).Fits := by
    intro num hnum
    cases hnum
  have hread := parseRef_nextToken (nextToken_element hh he) hfits
  have hsegs := interpolate_reference [] (h ++ 46 :: 36 :: e) [] List.not_mem_nil
    List.not_mem_nil (by rw [List.append_nil]; exact hh.startsRef _)
    (by rw [List.append_nil]; exact hread)
  rw [List.append_nil] at hsegs
  rw [parse_operand hplus (List.cons_ne_nil _ _) hsegs]
  simp [RefToken.ref, RefToken.path, RefToken.index, RefToken.num?, flush]

end Value

namespace Interpreter

open Meaning

/-- **A reference resolves to a text**: it is that text as a value of its own, and it
adds that text to a value it is part of. -/
def Resolves (rx : RegexEngine) (st : SymbolTable) (w : World) (r : ValueRef) (text : Bytes) :
    Prop :=
  ((refValue callProg r).run (st.runtime rx) w).1 = text
    ∧ ((Meaning.appendSegment callProg (.ref r)).run (st.runtime rx) w).2.ctx.scratch
      = w.ctx.scratch ++ text

/-- A reference to a rule resolves to what its slot holds. -/
theorem resolves_iff {rx : RegexEngine} {st : SymbolTable} {w : World} {r : ValueRef}
    (hr : r.kind = .ruleRef) {text : Bytes} (hclip : clip text = text) :
    Resolves rx st w r text ↔ w.slot st (refSlot r) = text := by
  have hvalue : ((refValue callProg r).run (st.runtime rx) w).1
      = clip (w.slot st (refSlot r)) := by
    unfold refValue
    rw [hr]
    exact Rt.load_text w.ctx (st.slotId (refSlot r))
  have happend : ((Meaning.appendSegment callProg (.ref r)).run (st.runtime rx) w).2.ctx.scratch
      = w.ctx.scratch ++ w.slot st (refSlot r) := by
    unfold Meaning.appendSegment
    dsimp only
    rw [hr]
    rfl
  rw [Resolves, hvalue, happend, List.append_cancel_left_eq]
  constructor
  · exact And.right
  · rintro rfl
    exact ⟨hclip, rfl⟩

/-- **The names of a header rule and of an element rule of it**: rule names, which are
no other store's. -/
structure Named (rs : Ruleset) (hr : HeaderRule) (er : ElementRule) : Prop where
  header : Value.IsRuleName hr.name
  element : Value.IsRuleName er.name
  ne : hr.name ≠ er.name
  headerStores : ∀ (idx : Nat) hr', rs.headerRules[idx]? = some hr' →
    (StoresUnder idx hr' hr.name → hr' = hr) ∧ ¬ StoresUnder idx hr' er.name
  elementStores : ∀ hr' ∈ rs.headerRules, ∀ er' ∈ hr'.elementRules,
    ¬ ElementStoresUnder hr' er' hr.name ∧ (ElementStoresUnder hr' er' er.name → er' = er)

/-- **When a reference to an element resolves.** At every state of a run in which the
element rule has stored a text, `$h.$e` resolves to it exactly when the rule `h` has
stored the same text itself or, if it has not, the slot `h` held it before. -/
theorem elementReference_resolves_iff (rx : RegexEngine) (rs : Ruleset) (msg : HmrSipMsg)
    (ctx : HmrContext) (hctx : ctx.Prepared (info rs)) {hr : HeaderRule} {er : ElementRule}
    (hnamed : Named rs hr er) (hread : .slot hr.name ∈ keys rs) :
    ∃ r, Value.parse (Value.elementReference hr.name er.name) .newValue false
        = some { raw := Value.elementReference hr.name er.name, segments := [.ref r] }
      ∧ ∀ s ∈ (program rs).visits (recording ((symbols rs).runtime rx))
            (⟨msg, ctx.resetForApply⟩, fun _ => none),
          ∀ text, s.2 (elementSlot hr er) = some text →
            (Resolves rx (symbols rs) s.1 r text
              ↔ (if hr.action = .store then s.2 hr.name else none).getD
                  (ctx.slotsBy (symbols rs) hr.name) = text) := by
  refine ⟨_, Value.parse_element hnamed.header hnamed.element, fun s hs text htext => ?_⟩
  have hdot : 46 ∉ hr.name := hnamed.header.not_mem (by decide)
  have hslot : refSlot ⟨.ruleRef, hr.name ++ 46 :: er.name, -1⟩ = hr.name := by
    rw [refSlot, Lowering.refBaseName_append hdot]
    rfl
  have hlen : (symbols rs).slots.length ≤ (ctx.resetForApply).slots.length := by
    rw [← (info_eq rs).1]
    exact hctx.slots.ge
  have hrec := recorded_visits (has_symbols rs) (program_uses rs) ⟨msg, ctx.resetForApply⟩ hlen s hs
  rw [resolves_iff rfl (hrec.clipped _ _ htext), hslot, hrec.slot _ (has_symbols rs _ hread)]
  -- Nothing but the rule itself stores to the slot of its name.
  have hrecord : s.2 hr.name = if hr.action = .store then s.2 hr.name else none := by
    by_cases hact : hr.action = .store
    · rw [if_pos hact]
    · rw [if_neg hact]
      refine record_eq_none (program_stores rs) ?_ _ s hs
      rintro ⟨i, hr', hget, hstores | ⟨er', her', hstores⟩⟩
      · rw [Nat.zero_add] at hstores
        obtain rfl := (hnamed.headerStores i hr' hget).1 hstores
        exact hact hstores.1
      · exact (hnamed.elementStores hr' (List.mem_of_getElem? hget) er' her').1 hstores
  rw [← hrecord]
  rfl

/-- An element rule that stores the value of its header. -/
def storingCaller : ElementRule where
  name := txt "caller"
  type := .headerValue
  action := .store

/-- The rule it belongs to. -/
def readingTo : HeaderRule where
  name := txt "to"
  headerName := txt "To"
  action := .manipulate
  elementRules := [storingCaller]

/-- That rule, and one that writes to another header what it stores. -/
def copying : Ruleset where
  headerRules :=
    [readingTo,
      { name := txt "copy", headerName := txt "X", action := .add,
        newValue :=
          { raw := txt "$to.$caller", segments := [.ref ⟨.ruleRef, txt "to.caller", -1⟩] } }]

theorem named_copying : Named copying readingTo storingCaller where
  header := .of_all rfl rfl rfl
  element := .of_all rfl rfl rfl
  ne := by decide
  headerStores := by
    intro idx hr' hget
    obtain _ | _ | idx := idx
    · obtain rfl := Option.some.inj hget
      decide
    · obtain rfl := Option.some.inj hget
      decide
    · cases hget
  elementStores := by decide

/-- The state the rules end in, about a message to `al`. -/
def copied : World × Record :=
  ((program copying).run (recording ((symbols copying).runtime .blind))
    (⟨(addressedTo (txt "al")).msg, HmrContext.resetForApply { slots := [[], []] }⟩,
      fun _ => none)).2

/-- The element rule has stored the user. -/
theorem copied_caller : copied.2 (elementSlot readingTo storingCaller) = some (txt "al") := by
  decide

/-- It is prepared for the ruleset. -/
theorem prepared_copying : HmrContext.Prepared (info copying) { slots := [[], []] } :=
  ⟨by decide, by decide⟩

/-- The element is not found: the rule stores nothing itself. -/
theorem elementReference_resolves_iff_copying :
    ∃ r, Value.parse (Value.elementReference readingTo.name storingCaller.name) .newValue false
        = some
            { raw := Value.elementReference readingTo.name storingCaller.name
              segments := [.ref r] }
      ∧ (Resolves .blind (symbols copying) copied.1 r (txt "al") ↔ ([] : Bytes) = txt "al") := by
  obtain ⟨r, hparse, hiff⟩ :=
    elementReference_resolves_iff .blind copying (addressedTo (txt "al")).msg
      { slots := [[], []] } prepared_copying named_copying (by decide)
  exact ⟨r, hparse, hiff copied (Prog.run_mem_visits ..) (txt "al") copied_caller⟩

/-- **A reference to an element reads something else.** -/
theorem not_elementReference_resolves :
    ¬ ∀ (rx : RegexEngine) (rs : Ruleset) (msg : HmrSipMsg) (ctx : HmrContext),
      ctx.Prepared (info rs) → ∀ hr ∈ rs.headerRules, ∀ er ∈ hr.elementRules,
      (Lowering.uriElement er.type).isSome = true → er.action = .store → Named rs hr er →
      .slot hr.name ∈ keys rs → ∀ r,
      Value.parse (Value.elementReference hr.name er.name) .newValue false
        = some { raw := Value.elementReference hr.name er.name, segments := [.ref r] } →
      ∀ s ∈ (program rs).visits (recording ((symbols rs).runtime rx))
          (⟨msg, ctx.resetForApply⟩, fun _ => none),
        ∀ text, s.2 (elementSlot hr er) = some text → Resolves rx (symbols rs) s.1 r text := by
  intro h
  have hparse := Value.parse_element named_copying.header named_copying.element
  have hresolves := h .blind copying (addressedTo (txt "al")).msg { slots := [[], []] }
    prepared_copying readingTo (by decide) storingCaller (by decide) rfl rfl named_copying
    (by decide) _ hparse copied (Prog.run_mem_visits ..) (txt "al") copied_caller
  exact absurd ((resolves_iff rfl rfl).mp hresolves) (by decide)

end Interpreter

end Hmr
