import Hmr.Elements

/-!
# A header that is not there

An element rule about an absent header reads the empty value, and a guard may hold of it.
What the action then does is up to `set_header`, which rewrites the first header of that
name *or appends one*: a replacement is an upsert. So a rule whose own action is
`manipulate`, with nothing to set, adds at most one header, and only where one of its
replacements fires on the empty value.

That it is one header, however many replacements fire, is since the second of them finds
what the first has added. A deletion may come in between, and then it is added again. In
front of it nothing is touched, so the list after any number of element rules is the one
before them, with that header behind it or without (`HeaderStore.AddedTo`).

An action on a URI element finds no URI in the empty value, and makes one of its new part.
Deletions are taken to be of the whole value here: that of a part would make one of the
delimiter, which `Deleting` is about.
-/

namespace Hmr

namespace HeaderStore

variable {s : HeaderStore} {name : Bytes}

/-- Setting a header sets it in the list, or is refused. -/
theorem live_set (s : HeaderStore) (name v : Bytes) :
    (s.set name v).2.live = s.live ∨ (s.set name v).2.live = Assoc.set iequals s.live name v := by
  obtain ⟨-, h⟩ | ⟨-, h⟩ := s.set_spec name v
  · exact Or.inr h
  · exact Or.inl h

/-- Building a text changes no header. -/
theorem live_build (s : HeaderStore) (t : Bytes) : (s.build t).2.live = s.live := by
  obtain ⟨-, h⟩ | ⟨-, h⟩ := s.build_cases t
  · rw [h]
  · rw [h]

/-- A rewrite sets the header to something, or is refused. -/
theorem live_rewrite (s : HeaderStore) (name t : Bytes) :
    (s.rewrite name t).live = s.live
      ∨ ∃ v, (s.rewrite name t).live = Assoc.set iequals s.live name v := by
  unfold rewrite
  have h := live_set (s.build t).2 name (s.build t).1
  rw [live_build] at h
  exact h.imp_right fun h => ⟨_, h⟩

/-- The header is there, behind what was there before, or it is not. -/
def AddedTo (l : HeaderList) (name : Bytes) (l' : HeaderList) : Prop :=
  l' = l ∨ ∃ v, l' = l ++ [(name, v)]

/-- **What an action leaves of such a list**: a replacement may add the header, and no other
action does.

The list is the old one, or that with one header more at its end. Setting the header then appends
it in the first case and exchanges the value in the second, so that it stays such a list whatever
is set; a deletion of the whole leads from either back to the old one. The second part is about
actions other than `replace`: on the old list they leave the old list. -/
theorem addedTo_act {l : HeaderList} (habs : Assoc.has iequals l name = false)
    (h : AddedTo l name s.live) (elem : HmrUriElement) (nv : Bytes) {a : ElementAction}
    (ha : a = .deleteElement → elem = .whole) :
    AddedTo l name (s.act name elem nv a).live
      ∧ (a ≠ .replace → s.live = l → (s.act name elem nv a).live = l) := by
  have hset : ∀ v, AddedTo l name (Assoc.set iequals s.live name v) := by
    intro v
    obtain h | ⟨x, h⟩ := h
    · rw [h, Assoc.set_of_not_has habs]
      exact Or.inr ⟨v, rfl⟩
    · rw [h, Assoc.set_append habs (iequals_refl name)]
      exact Or.inr ⟨v, rfl⟩
  unfold act
  -- Only a replacement sets the header; a deletion takes it away again, and leaves what was
  -- there.
  cases a with
  | replace =>
    refine ⟨?_, fun hne => absurd rfl hne⟩
    dsimp only
    split
    · obtain hl | hl := s.live_set name nv
      · rw [hl]
        exact h
      · rw [hl]
        exact hset nv
    · obtain hl | ⟨v, hl⟩ := s.live_rewrite name
        (Uri.rebuilt (.ofBytes (s.get name)) elem (.ofBytes nv))
      · rw [hl]
        exact h
      · rw [hl]
        exact hset v
  | deleteElement =>
    dsimp only
    rw [if_pos (ha rfl)]
    have hdel : (s.delete name).2.live = Assoc.delete iequals s.live name := rfl
    rw [hdel]
    refine ⟨Or.inl ?_, fun _ hl => by rw [hl, Assoc.delete_of_not_has habs]⟩
    obtain h | ⟨x, h⟩ := h
    · rw [h, Assoc.delete_of_not_has habs]
    · rw [h, Assoc.delete, List.filter_append, ← Assoc.delete, Assoc.delete_of_not_has habs]
      simp
  | _ => exact ⟨h, fun _ hl => hl⟩

end HeaderStore

namespace Interpreter

variable (rx : RegexEngine) (rs : Ruleset) (hr : HeaderRule)

/-- **A replacement of the list fires on the empty value.** -/
def Upserts (w : World) : Prop :=
  ∃ er ∈ hr.elementRules, er.action = .replace ∧
    ∃ elem, Lowering.uriElement er.type = some elem
      ∧ guardHolds rx rs er w elem [] = true

/-- What the element rules keep: the header is not there, or it was added by a
replacement. -/
structure Absent (w w' : World) : Prop where
  regexes : w'.ctx.regexes = w.ctx.regexes
  live : HeaderStore.AddedTo w.msg.live (clip hr.headerName) w'.msg.live
  added : w'.msg.live ≠ w.msg.live → Upserts rx rs hr w

variable {rx rs hr} {w w' : World}

/-- One element rule of the list keeps it. Where it does not fire, the store is as it was. Where
it does, `addedTo_act` says what it can have left; and if the list is another one only now, this
is the replacement that was asked for, and its guard has held of the absent header, which reads
the empty value. -/
theorem Absent.elementRule (habs : Assoc.has iequals w.msg.live (clip hr.headerName) = false)
    (h : Absent rx rs hr w w') {er : ElementRule} (her : er ∈ hr.elementRules)
    (hdel : er.action = .deleteElement →
      ∀ elem, Lowering.uriElement er.type = some elem → elem = .whole) :
    Absent rx rs hr w (runElement rx rs hr er w') := by
  have hlive : (runElement rx rs hr er w').msg.live = (runElement rx rs hr er w').store.live := rfl
  have hregexes := (runElement_regexes rx rs hr er w').trans h.regexes
  have hstore := runElement_store rx rs hr er w'
  cases hf : firing rx rs hr er w' with
  | none =>
    rw [hf] at hstore
    have hsame : (runElement rx rs hr er w').msg.live = w'.msg.live := by
      rw [hlive, hstore]
      rfl
    exact ⟨hregexes, hsame ▸ h.live, hsame ▸ h.added⟩
  | some elem =>
    rw [hf] at hstore
    dsimp only at hstore
    rw [firing_eq] at hf
    obtain ⟨htype, hguard⟩ := Option.filter_eq_some_iff.mp hf
    have hact := HeaderStore.addedTo_act (s := w'.store) habs h.live elem
      (newValueOf rx rs hr er w' elem) (a := er.action) fun ha => hdel ha elem htype
    rw [← hstore, ← hlive] at hact
    refine ⟨hregexes, hact.1, fun hne => ?_⟩
    by_cases hw : w'.msg.live = w.msg.live
    · refine ⟨er, her, ?_, elem, htype, ?_⟩
      · -- Had the list been as it was, an action other than a replacement would have left it
        -- so.
        by_contra hrep
        exact hne (hact.2 hrep hw)
      · have hnone : target hr w' = none := by
          have := HeaderStore.has_eq w'.store (clip hr.headerName)
          rw [show w'.store.live = w.msg.live from hw, habs] at this
          exact Option.isNone_iff_eq_none.mp (Option.isSome_eq_false_iff.mp this.symm)
        rw [hnone, guardHolds_congr rx rs er h.regexes] at hguard
        exact hguard
    · exact h.added hw

/-- **The element rules of the list keep it**, in order, up to a reject. -/
theorem Absent.elementRules
    (habs : Assoc.has iequals w.msg.live (clip hr.headerName) = false)
    (hdel : ∀ er ∈ hr.elementRules, er.action = .deleteElement →
      ∀ elem, Lowering.uriElement er.type = some elem → elem = .whole)
    {ers : List ElementRule} (hers : ∀ er ∈ ers, er ∈ hr.elementRules)
    (h : Absent rx rs hr w w') :
    Absent rx rs hr w ((Meaning.elementRules Meaning.callProg (Meaning.guard Meaning.callProg)
      hr ers).run ((tables rs).symbols.runtime rx) w').2 := by
  induction ers generalizing w' with
  | nil => exact h
  | cons er rest ih =>
    have her := hers er List.mem_cons_self
    have hstep := h.elementRule habs her (hdel er her)
    rw [runElement_eq] at hstep
    rw [Meaning.elementRules, Prog.run_bind]
    split
    · exact hstep
    · exact ih (fun er h => hers er (List.mem_cons_of_mem _ h)) hstep

variable (rx rs hr)

/-- A rule that does nothing on its own keeps it. Its guards change neither the store nor the
regexes (`Meaning.fires_quiet`), its own action is `manipulate` with nothing to set, and what is
left are its element rules, one after the other. -/
theorem absent_runHeaderRule (idx : Nat) (w : World) (hact : hr.action = .manipulate)
    (hnew : hr.newValue.isEmpty = true)
    (hdel : ∀ er ∈ hr.elementRules, er.action = .deleteElement →
      ∀ elem, Lowering.uriElement er.type = some elem → elem = .whole)
    (habs : Assoc.has iequals w.msg.live (clip hr.headerName) = false) :
    Absent rx rs hr w
      ((runHeaderRule hr idx false (tables rs)).run (runtime rx) w).2 := by
  have hself : ∀ w', w'.ctx.regexes = w.ctx.regexes → w'.store = w.store →
      Absent rx rs hr w w' := by
    intro w' hreg hst
    have hlive : w'.msg.live = w.msg.live := congrArg HeaderStore.live hst
    exact ⟨hreg, Or.inl hlive, fun hne => absurd hlive hne⟩
  have hquiet := Meaning.fires_quiet hr
  have hfires := hself _
    (hquiet.run (fun w => w.ctx.regexes)
      (fun i c w _ => congrArg Prod.fst (kept_runtime rx ((tables rs).symbols.resolve i c) w)) w)
    (hquiet.store rx (tables rs).symbols w)
  have hnone : ∀ S hv, Meaning.headerAction Meaning.callProg S hr hv = pure false := by
    intro S hv
    unfold Meaning.headerAction
    rw [hact]
    dsimp only
    rw [hnew]
    rfl
  rw [((runHeaderRule_lowers hr idx).run (t := tables rs) ⟨rfl, rfl⟩ (runtime rx) w).2]
  show Absent rx rs hr w ((Meaning.rule Meaning.callProg idx hr).run
    ((tables rs).symbols.runtime rx) w).2
  unfold Meaning.rule Meaning.headerRule
  rw [Prog.run_bind]
  split
  · exact hfires
  · rw [hnone]
    exact hfires.elementRules habs hdel fun er h => h

/-- **A `manipulate` rule without a new-value, about a header that is not there**:
the header list stays as it is, unless a replacement fires on the empty value,
and then at most that header is added. -/
theorem runHeaderRule_absent (idx : Nat) (w : World) (hact : hr.action = .manipulate)
    (hnew : hr.newValue.isEmpty = true)
    (hdel : ∀ er ∈ hr.elementRules, er.action = .deleteElement →
      ∀ elem, Lowering.uriElement er.type = some elem → elem = .whole)
    (habs : Assoc.has iequals w.msg.live (clip hr.headerName) = false) :
    let w' := ((runHeaderRule hr idx false (tables rs)).run (runtime rx) w).2
    HeaderStore.AddedTo w.msg.live (clip hr.headerName) w'.msg.live
      ∧ (w'.msg.live ≠ w.msg.live → Upserts rx rs hr w) :=
  have h := absent_runHeaderRule rx rs hr idx w hact hnew hdel habs
  ⟨h.live, h.added⟩

/-- A rule that replaces the value of a header. -/
def replacing (name v : Bytes) : HeaderRule where
  headerName := name
  action := .manipulate
  elementRules := [{ type := .headerValue, action := .replace, newValue := Value.verbatim v }]

/-- Replacing the value of a header that is not there. -/
theorem runHeaderRule_absent_subject :
    let w' := ((runHeaderRule (replacing (txt "Subject") (txt "x")) 0 false (tables {})).run
      (runtime .blind) ⟨{}, {}⟩).2
    HeaderStore.AddedTo [] (txt "Subject") w'.msg.live
      ∧ (w'.msg.live ≠ [] → Upserts .blind {} (replacing (txt "Subject") (txt "x")) ⟨{}, {}⟩) :=
  runHeaderRule_absent .blind {} (replacing (txt "Subject") (txt "x")) 0 ⟨{}, {}⟩ rfl rfl
    (by decide) (by decide)

/-- **A replacement adds the header.** -/
theorem runHeaderRule_absent_added :
    ¬ ∀ (rx : RegexEngine) (rs : Ruleset) (hr : HeaderRule) (idx : Nat) (w : World),
      hr.action = .manipulate → hr.newValue.isEmpty = true →
      Assoc.has iequals w.msg.live (clip hr.headerName) = false →
      ((runHeaderRule hr idx false (tables rs)).run (runtime rx) w).2.msg.live
        = w.msg.live := by
  intro h
  have hadded := h .blind {} (replacing (txt "Subject") (txt "x")) 0 ⟨{}, {}⟩ rfl rfl (by decide)
  exact absurd hadded (by decide)

end Interpreter

end Hmr
