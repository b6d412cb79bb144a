import Hmr.Elements

/-!
# An arena that runs out

`set_header` and `add_header` look at what the arena gave them and leave the
table alone where it gave nothing. The element rules do not look: a URI that
could not be rebuilt is the empty view, and the header is set to it. Setting it
takes no space, so it goes through.

So a rule leaves the old value or the complete new one as long as there is room
to rebuild the URI, and otherwise only by chance (`HeaderStore.Whole`): the header
was empty before, or it is absent and cannot be added.

The length of what is rebuilt is counted in 32 bits. From `2 ^ 32` bytes on the
arena is asked for the length that is left of that, and where it grants it, the
pieces are copied over the end of what it has granted (`HeaderStore.Overruns`).
That is no value at all; the model writes the clipped text there, and what it
leaves is not looked at.
-/

namespace Hmr

namespace HeaderStore

variable {s : HeaderStore} {name t : Bytes}

/-- **More is copied than was asked for**: `rebuild_uri` asks for the length of the text
modulo `2 ^ 32`, gets that, and copies all of it. -/
def Overruns (s : HeaderStore) (t : Bytes) : Prop :=
  t.length % 2 ^ 32 ≤ s.room ∧ t.length % 2 ^ 32 < t.length

/-- **A header is rewritten to the text, or not at all**: there is room to build it, or
it is refused and the empty value that is set instead is the one the header has, or
cannot be added. -/
def Whole (s : HeaderStore) (name t : Bytes) : Prop :=
  t.length ≤ s.room
    ∨ (s.room < t.length % 2 ^ 32
      ∧ (s.value? name = some []
        ∨ (s.value? name = none ∧ (hmrMaxHeaders ≤ s.entries ∨ s.room < name.length))))

/-- There is less room than `2 ^ 32` bytes. -/
theorem room_lt (s : HeaderStore) : s.room < 2 ^ 32 :=
  Nat.lt_of_le_of_lt (Nat.sub_le _ _) (by decide)

/-- An empty value is refused where it is to be added only. -/
theorem refuses_nil : s.Refuses name []
    ↔ s.value? name = none ∧ (hmrMaxHeaders ≤ s.entries ∨ s.room < name.length) := by
  simp [Refuses]

/-- What is rewritten to a text that there is no room to build. -/
theorem value?_rewrite_refused (h : s.room < (clip t).length) :
    (s.rewrite name (clip t)).value? name
      = if s.Refuses name [] then s.value? name else some [] := by
  obtain ⟨hroom, -⟩ | ⟨-, hb⟩ := s.build_cases (clip t)
  · exact absurd hroom (Nat.not_le_of_lt h)
  · rw [rewrite, hb, value?_set]

/-- What is rewritten to a text that there is room for: the space may not be enough to
set the header to it, but then the header stays. -/
theorem value?_rewrite_built (h : t.length ≤ s.room) :
    (s.rewrite name (clip t)).value? name = s.value? name
      ∨ (s.rewrite name (clip t)).value? name = some t := by
  rw [clip_of_lt (h.trans_lt s.room_lt)]
  obtain ⟨-, hb⟩ | ⟨hroom, -⟩ := s.build_cases t
  · rw [rewrite, hb, value?_set]
    split
    · exact Or.inl rfl
    · exact Or.inr rfl
  · exact absurd h (Nat.not_le_of_lt hroom)

/-- **A rewrite leaves the old value or the new one**, and overruns nothing, exactly when the
text is written whole or not at all.

There are three cases. A text that fits is written, and setting the header to it either succeeds
or leaves the old value. One of which only the length in 32 bits fits is what overruns the arena.
And if even that is refused, the null view is passed on: the header is set to nothing, which is
as it was only if it was empty, or if the empty value cannot be added either. -/
theorem value?_rewrite_whole :
    (¬ s.Overruns t ∧ ((s.rewrite name (clip t)).value? name = s.value? name
        ∨ (s.rewrite name (clip t)).value? name = some t))
      ↔ s.Whole name t := by
  have hlt := s.room_lt
  have hlength : (clip t).length = t.length % 2 ^ 32 := by
    rw [clip, List.length_take, Nat.min_eq_left (Nat.mod_le _ _)]
  have hmod : t.length % 2 ^ 32 ≤ t.length := Nat.mod_le _ _
  -- There are three cases: the text fits; or only its length in 32 bits does; or neither.
  by_cases hfits : t.length ≤ s.room
  · have hover : ¬ s.Overruns t := fun h => absurd h.2 (by omega)
    exact iff_of_true ⟨hover, value?_rewrite_built hfits⟩ (Or.inl hfits)
  by_cases hgranted : t.length % 2 ^ 32 ≤ s.room
  · have hover : s.Overruns t := ⟨hgranted, by omega⟩
    exact iff_of_false (fun h => h.1 hover) fun h =>
      h.elim hfits fun h => absurd h.1 (Nat.not_lt_of_le hgranted)
  have hover : ¬ s.Overruns t := fun h => hgranted h.1
  have hne : t ≠ [] := by
    rintro rfl
    exact hfits (Nat.zero_le _)
  have hrefused := Nat.lt_of_not_le hgranted
  have hwhole : s.Whole name t ↔ s.value? name = some [] ∨ s.Refuses name [] := by
    rw [Whole, ← refuses_nil]
    exact ⟨fun h => (h.resolve_left hfits).2, fun h => Or.inr ⟨hrefused, h⟩⟩
  rw [value?_rewrite_refused (by omega), hwhole]
  by_cases hr : s.Refuses name []
  · rw [if_pos hr]
    exact iff_of_true ⟨hover, Or.inl rfl⟩ (Or.inr hr)
  · rw [if_neg hr]
    constructor
    · rintro ⟨-, hkept | hnew⟩
      · exact Or.inl hkept.symm
      · exact absurd (Option.some.inj hnew).symm hne
    · rintro (hempty | h)
      · exact ⟨hover, Or.inl hempty.symm⟩
      · exact absurd h hr

end HeaderStore

namespace Interpreter

variable (rx : RegexEngine) (rs : Ruleset) (hr : HeaderRule) (er : ElementRule) (w : World)

/-- The text a firing rule sets the header to: the new-value, or the header with
the element spliced. -/
def newText (elem : HmrUriElement) (nv : Bytes) : Bytes :=
  if elem = .whole then nv
  else Uri.spliced (HmrStr.ofBytes (w.store.get (clip hr.headerName))).sv elem nv

/-- **The value a rule is to leave**: the one it was, for a rule that does not
fire, or is about something else. -/
def intended : Option Bytes :=
  match firing rx rs hr er w, er.action with
  | some elem, .replace => some (newText hr w elem (newValueOf rx rs hr er w elem))
  | some elem, .deleteElement => if elem = .whole then none else some (newText hr w elem [])
  | _, _ => target hr w

/-- **The text a rule rebuilds**: the new value, where a part of a URI is
replaced or deleted. -/
def rebuilds : Option Bytes :=
  match firing rx rs hr er w, er.action with
  | some elem, .replace =>
    if elem = .whole then none else some (newText hr w elem (newValueOf rx rs hr er w elem))
  | some elem, .deleteElement => if elem = .whole then none else some (newText hr w elem [])
  | _, _ => none

/-- **What a rule leaves when the arena runs out.** The header has its old value or the
complete new one, and no more is copied than was asked for, exactly when a text the rule
has to rebuild is written whole or not at all. -/
theorem runElement_exhausted :
    ((∀ t ∈ rebuilds rx rs hr er w, ¬ w.store.Overruns t)
      ∧ (target hr (runElement rx rs hr er w) = target hr w
        ∨ target hr (runElement rx rs hr er w) = intended rx rs hr er w))
      ↔ ∀ t ∈ rebuilds rx rs hr er w, w.store.Whole (clip hr.headerName) t := by
  have hclip : ∀ elem, clip (newValueOf rx rs hr er w elem) = newValueOf rx rs hr er w elem :=
    fun elem => clip_clip _
  unfold target intended rebuilds
  rw [runElement_store]
  cases hf : firing rx rs hr er w with
  | none => simp
  | some elem =>
    dsimp only
    unfold HeaderStore.act
    cases er.action with
    | replace =>
      dsimp only
      -- The whole value is set without building anything.
      by_cases he : elem = .whole
      · rw [if_pos he, if_pos he, HeaderStore.value?_set, newText, if_pos he]
        simp only [Option.mem_def, reduceCtorEq, false_implies, implies_true, iff_true, true_and]
        split
        · exact Or.inl rfl
        · exact Or.inr rfl
      · rw [if_neg he, if_neg he, Uri.rebuilt_eq, HmrStr.ofBytes_text, hclip, newText,
          if_neg he]
        simpa using HeaderStore.value?_rewrite_whole
    | deleteElement =>
      dsimp only
      by_cases he : elem = .whole
      · rw [if_pos he, if_pos he, HeaderStore.value?_delete]
        simp
      · rw [if_neg he, if_neg he, Uri.rebuilt_eq, newText, if_neg he]
        simpa using HeaderStore.value?_rewrite_whole
    | _ => simp

/-- A message with one header, and an arena with five bytes left. -/
def nearlyFull : World where
  msg := { headers := [⟨.ofBytes (txt "To"), .ofBytes (txt "<sip:a@b>"), false⟩]
           headers_le := Nat.le_of_ble_eq_true rfl }
  ctx := { arena := ⟨fun _ => 0, kCapacity - 5, Nat.sub_le _ _⟩ }

/-- **There is no room to rebuild the URI, and the header is empty after.** -/
theorem runElement_exhausted_empty :
    ¬ ∀ (rx : RegexEngine) (rs : Ruleset) (hr : HeaderRule) (er : ElementRule) (w : World),
      target hr (runElement rx rs hr er w) = target hr w
        ∨ target hr (runElement rx rs hr er w) = intended rx rs hr er w := by
  intro h
  refine absurd (h .blind {} { headerName := txt "To" }
    { type := .uriUser, action := .replace, newValue := Value.verbatim (txt "z") }
    nearlyFull) ?_
  decide

end Interpreter

end Hmr
