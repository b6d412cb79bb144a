import Hmr.Elements
import Hmr.UriLaws

/-!
# Deleting a part of a URI

`delete-element` is a replacement by the empty text. Where the part is there, it is
emptied and the delimiter that introduced it stays; where it is not, there is still an
insertion to be made, and the delimiter is inserted. Only the display name in front of a
`<` has no delimiter, and is deleted as it should be – if the arena has room for the
rebuilt value and for the copy the header is set to.

## When it is deleted

What deleting should leave is the value without the part and its delimiter
(`Uri.without`). The code never makes that of a value with a user or a port, so it can
only be there by accident, and lengths tell that it is not: what is left is longer by the
delimiter. Where there was no such part the value should stay, and it does exactly if the
insertion fails, be it when the text is built or when the header is set. So the condition
speaks of lengths and of the room in the arena, and of nothing else (`Uri.Cleanly`).

## Twice

A second deletion is one of what the first has left. A display name that has been emptied
is emptied again, and nothing changes but the room that is left: the text is built once
more, and where there is no room for that the header is set to nothing
(`Uri.CleanlyTwice`).
-/

namespace Hmr

namespace Uri

/-- The display name of a split value. -/
@[simp] theorem part_display (u : ParsedUri) : part u .display = u.display := rfl

/-- Its user. -/
@[simp] theorem part_user (u : ParsedUri) : part u .user = u.user := rfl

/-- Its host. -/
@[simp] theorem part_host (u : ParsedUri) : part u .host = u.host := rfl

/-- Its port. -/
@[simp] theorem part_port (u : ParsedUri) : part u .port = u.port := rfl

/-- A value, split. -/
abbrev split (v : Bytes) : ParsedUri := parseUri (.ofBytes v)

/-- Where a part of a value starts. -/
def offset (v : Bytes) (e : HmrUriElement) : Nat := (part (split v) e).data.sub (.addr .ext 0)

/-- How long it is. -/
def extent (v : Bytes) (e : HmrUriElement) : Nat := (part (split v) e).text.length

/-- The value has the part. -/
def Has (v : Bytes) (e : HmrUriElement) : Prop := (part (split v) e).data ≠ .null

instance (v : Bytes) (e : HmrUriElement) : Decidable (Has v e) :=
  inferInstanceAs (Decidable (_ ≠ _))

/-- **The value without a part and the delimiter that introduced it**: the `@`
behind the user, the colon in front of the port. -/
def without (v : Bytes) (e : HmrUriElement) : Bytes :=
  if Has v e then
    match e with
    | .user => v.take (offset v e) ++ v.drop (offset v e + extent v e + 1)
    | .port => v.take (offset v e - 1) ++ v.drop (offset v e + extent v e)
    | _ => v.take (offset v e) ++ v.drop (offset v e + extent v e)
  else v

/-- What deleting makes of the value. -/
def emptied (v : Bytes) (e : HmrUriElement) : Bytes := spliced (.ofBytes v) e []

section
variable {v : Bytes}

/-- A view with an address shows something. -/
theorem view_null {p : Ptr} {t : Option Bytes} (h : (Shape.view p t).data ≠ .null) :
    ∃ x, t = some x := by
  cases t with
  | none => exact absurd rfl h
  | some x => exact ⟨x, rfl⟩

/-- A user has its `@` behind it. -/
theorem user_position (h : Has v .user) : offset v .user + extent v .user + 1 ≤ v.length := by
  obtain ⟨s, hs, rfl⟩ := Shape.exists_shape v
  unfold Has offset extent split StringView.ofBytes at *
  rw [Shape.parseUri_shape hs] at *
  obtain ⟨u, hu⟩ : ∃ u, s.user = some u := view_null h
  simp [part, Shape.parsed, hu, Shape.view, Ptr.add, Ptr.sub, Shape.text, Shape.address,
    Shape.rest, Shape.userText]
  omega

/-- A port has its colon in front of it. -/
theorem port_position (h : Has v .port) :
    1 ≤ offset v .port ∧ offset v .port + extent v .port ≤ v.length := by
  obtain ⟨s, hs, rfl⟩ := Shape.exists_shape v
  unfold Has offset extent split StringView.ofBytes at *
  rw [Shape.parseUri_shape hs] at *
  obtain ⟨p, hp⟩ : ∃ p, s.port = some p := view_null h
  simp [part, Shape.parsed, hp, Shape.view, Ptr.add, Ptr.sub, Shape.text, Shape.address,
    Shape.rest, Shape.hostport, Shape.portText]
  omega

/-- **A display name has the `<` behind it, and emptied it stays empty.** The value is taken in
the shape in which it is split: what stands in front of the `<` is split around the display name
(`Shape.exists_display`), and with nothing in its place the rest is split in its turn and has an
empty display name there. -/
theorem display_position (h : Has v .display) :
    offset v .display + extent v .display < v.length
      ∧ emptied (emptied v .display) .display = emptied v .display
      ∧ Has (emptied v .display) .display := by
  obtain ⟨s, hs, rfl⟩ := Shape.exists_shape v
  unfold emptied Has offset extent split StringView.ofBytes at *
  rw [Shape.parseUri_shape hs] at *
  obtain ⟨d, hd⟩ : ∃ d, s.lead = some d := by
    cases hl : s.lead with
    | some d => exact ⟨d, rfl⟩
    | none =>
      refine absurd ?_ h
      show (s.lead.elim {} (Shape.displayView _)).data = _
      rw [hl]
      rfl
  obtain ⟨a, x, b, rfl, hview, hget⟩ := Shape.exists_display d
  have hlead : 60 ∉ a ++ [] ++ b := by
    have := (hs.angled _ hd).1
    simp only [List.mem_append, not_or] at this ⊢
    exact ⟨⟨this.1.1, by simp⟩, this.2⟩
  have hs' := hs.setLead hd hlead
  -- what is left is split in its turn, and its display name is empty
  obtain ⟨a', x', b', hab, hview', hget'⟩ := Shape.exists_display (a ++ [] ++ b)
  have hx' : x' = [] := by
    have := hget (.addr .ext 0) [] (by simp)
    rw [hview'] at this
    exact this
  subst hx'
  have hpart : part (s.parsed (.addr .ext 0)) .display = ⟨.addr .ext (0 + a.length), x⟩ := by
    show s.lead.elim {} (Shape.displayView _) = _
    rw [hd]
    exact hview _
  rw [Shape.spliced_display hs hd hview, hpart]
  refine ⟨?_, ?_, ?_⟩
  · simp only [Ptr.sub, Shape.text, Shape.leadText, hd, Option.elim_some, List.length_append,
      List.length_cons]
    omega
  · have hagain := Shape.spliced_display hs' (congrArg some hab) (fun p => hab ▸ hview' p) .ext 0 []
    rw [hagain]
    simp only [← hab]
  · rw [Shape.parseUri_shape hs']
    show ((some _ : Option Bytes).elim {} (Shape.displayView _)).data ≠ _
    rw [Option.elim_some, hview']
    intro hnull
    cases hnull

/-- A part that is there is spliced where it stands. -/
theorem spliceOf_has (e : HmrUriElement) (he : e ≠ .whole) (h : Has v e) :
    spliceOf (.ofBytes v) e
      = some { start := offset v e, stop := offset v e + extent v e } := by
  unfold Has at h
  unfold offset extent spliceOf
  cases e with
  | whole => exact absurd rfl he
  | host =>
    rw [part_host] at h
    rw [part_host]
    exact if_pos h
  | display =>
    rw [part_display] at h
    rw [part_display]
    exact if_pos h
  | user =>
    rw [part_user] at h
    rw [part_user]
    exact if_pos h
  | port =>
    rw [part_port] at h
    rw [part_port]
    exact if_pos h

/-- Deleting a part that is there leaves the text around it. -/
theorem emptied_eq (e : HmrUriElement) (he : e ≠ .whole) (h : Has v e) :
    emptied v e = v.take (offset v e) ++ v.drop (offset v e + extent v e) := by
  unfold emptied spliced
  rw [spliceOf_has e he h]
  simp [Splice.apply]

/-- **Deleting a part that is not there inserts its delimiter**, so the value gets one byte
longer: a blank for a display name, in front of everything, an `@` for a user, in front of the
host, and a colon for a port, behind it. -/
theorem length_emptied_absent (e : HmrUriElement) (he : e = .display ∨ e = .user ∨ e = .port)
    (h : ¬ Has v e) : (emptied v e).length = v.length + 1 := by
  obtain ⟨s, hs, rfl⟩ := Shape.exists_shape v
  unfold Has emptied split StringView.ofBytes at *
  rw [Shape.parseUri_shape hs] at h
  obtain rfl | rfl | rfl := he
  · cases hl : s.lead with
    | none =>
      rw [Shape.spliced_display_bare hs hl]
      simp
    | some d =>
      refine absurd (fun hn => ?_) h
      obtain ⟨a, x, b, -, hview, -⟩ := Shape.exists_display d
      have hpart : (part (s.parsed (.addr .ext 0)) .display).data = .addr .ext (0 + a.length) := by
        show (s.lead.elim {} (Shape.displayView _)).data = _
        rw [hl, Option.elim_some, hview]
        rfl
      rw [hpart] at hn
      cases hn
  · cases hu : s.user with
    | none =>
      rw [Shape.spliced_user hs]
      simp [Shape.text, Shape.leadText, Shape.schemeText, Shape.address, Shape.rest,
        Shape.userText, Shape.hostport, Shape.portText, hu]
      omega
    | some u =>
      refine absurd (fun hn => ?_) h
      rw [show part (s.parsed (.addr .ext 0)) .user = Shape.view _ s.user from rfl, hu] at hn
      cases hn
  · cases hp : s.port with
    | none =>
      rw [Shape.spliced_port hs]
      simp [Shape.text, Shape.leadText, Shape.schemeText, Shape.address, Shape.rest,
        Shape.userText, Shape.hostport, Shape.portText, hp]
      omega
    | some u =>
      refine absurd (fun hn => ?_) h
      rw [show part (s.parsed (.addr .ext 0)) .port = Shape.view _ s.port from rfl, hp] at hn
      cases hn

/-- The value without a part that is there: an emptied display name has nothing
else to go, a user or a port has its delimiter. -/
theorem without_display (h : Has v .display) : without v .display = emptied v .display := by
  unfold without
  rw [if_pos h, emptied_eq _ (by decide) h]

/-- A user or a port goes with its delimiter, and is emptied without. -/
theorem length_without (e : HmrUriElement) (he : e = .user ∨ e = .port) (h : Has v e) :
    (without v e).length + extent v e + 1 = v.length
      ∧ (emptied v e).length + extent v e = v.length := by
  unfold without
  rw [if_pos h, emptied_eq e (by rintro rfl; simp at he) h]
  obtain rfl | rfl := he
  · have := user_position h
    simp only [List.length_append, List.length_take, List.length_drop]
    omega
  · have := port_position h
    simp only [List.length_append, List.length_take, List.length_drop]
    omega

/-- A display name is emptied of all its characters, and the `<` is left. -/
theorem length_emptied_display (h : Has v .display) :
    (emptied v .display).length + extent v .display = v.length
      ∧ 1 ≤ (emptied v .display).length := by
  have := (display_position h).1
  rw [emptied_eq _ (by decide) h]
  simp only [List.length_append, List.length_take, List.length_drop]
  omega

end

/-- **When deleting a part leaves the value without it**, by the arena space there
is: the display name of an address in angle brackets goes when the result fits
twice; a part that is not there stays away when the insertion cannot be made. -/
def Cleanly (v : Bytes) (e : HmrUriElement) (room : Nat) : Prop :=
  if Has v e then
    if e = .display then
      2 * (v.length - extent v e) ≤ room ∨ (extent v e = 0 ∧ v.length ≤ room)
    else v.length = extent v e + 1 ∧ room = 0
  else (v.length < room ∧ room < 2 * (v.length + 1)) ∨ (v = [] ∧ room = 0)

/-- When deleting it again changes nothing. -/
def CleanlyTwice (v : Bytes) (e : HmrUriElement) (room : Nat) : Prop :=
  if Has v e then e = .display → 3 * (v.length - extent v e) ≤ room
  else v = [] ∧ room ≤ 1

instance (v : Bytes) (e : HmrUriElement) (room : Nat) : Decidable (Cleanly v e room) :=
  inferInstanceAs (Decidable (if Has v e then _ else _))

instance (v : Bytes) (e : HmrUriElement) (room : Nat) : Decidable (CleanlyTwice v e room) :=
  inferInstanceAs (Decidable (if Has v e then _ else _))

end Uri

namespace HeaderStore

variable {s : HeaderStore} {name v t : Bytes}

/-- **Rewriting a header that is there**, by the arena space there is. The text is written twice,
once as it is built and once as `set_header` copies it: with room for both the header has it,
with room for one it keeps the value it had, and with room for none it is built as the null view,
and an empty value is set. -/
theorem rewrite_present (hv : s.value? name = some v) (t : Bytes) :
    (2 * t.length ≤ s.room ∧ (s.rewrite name t).value? name = some t
        ∧ (s.rewrite name t).room = s.room - 2 * t.length)
      ∨ (t.length ≤ s.room ∧ s.room < 2 * t.length ∧ (s.rewrite name t).value? name = some v
        ∧ (s.rewrite name t).room = s.room - t.length)
      ∨ (s.room < t.length ∧ (s.rewrite name t).value? name = some []
        ∧ (s.rewrite name t).room = s.room) := by
  have hset : ∀ (s' : HeaderStore) (x : Bytes), s'.value? name = some v →
      (s'.set name x).2.room = if x.length ≤ s'.room then s'.room - x.length else s'.room := by
    intro s' x hs'
    unfold set
    obtain ⟨hx, hc⟩ | ⟨hx, hc⟩ := s'.claim_cases x.length
    · rw [hc]
      dsimp only
      rw [has_eq, hs', Option.isSome_some, if_pos rfl, if_pos hx]
      exact s'.room_used x.length
    · rw [hc, if_neg (Nat.not_le_of_lt hx)]
  rw [value?_rewrite]
  obtain ⟨h, hb⟩ | ⟨h, hb⟩ := s.build_cases t
  · have hval : ({ s with used := s.used + t.length } : HeaderStore).value? name = some v := hv
    have hroom : (s.rewrite name t).room
        = if t.length ≤ s.room - t.length then s.room - t.length - t.length
          else s.room - t.length := by
      rw [rewrite, hb, hset _ _ hval, room_used]
    rw [if_pos h, hroom, if_congr (refuses_iff hval) rfl rfl, room_used]
    by_cases h2 : 2 * t.length ≤ s.room
    · refine Or.inl ⟨h2, if_neg (by omega), ?_⟩
      rw [if_pos (by omega)]
      omega
    · refine Or.inr (Or.inl ⟨h, by omega, ?_, if_neg (by omega)⟩)
      rw [if_pos (by omega), hv]
  · refine Or.inr (Or.inr ⟨h, ?_, ?_⟩)
    · rw [if_neg (Nat.not_le_of_lt h), if_neg (by rw [refuses_iff hv]; simp)]
    · rw [rewrite, hb, hset _ _ hv]
      simp

/-- **Deleting a part of a header's URI once** leaves the value without it exactly when the arena
lets it (`Uri.Cleanly`). The outcomes of a rewrite are taken one by one and compared with the
value without the part, by length where the two differ. The `@` of a user and the colon of a port
are kept, so the result is one byte too long, but for a value that was nothing else and is set
empty because nothing could be written. -/
theorem delete_once (hv : s.value? name = some v) (hlt : v.length < 2 ^ 32) {e : HmrUriElement}
    (he : e = .display ∨ e = .user ∨ e = .port) :
    (s.rewrite name (clip (Uri.emptied v e))).value? name = some (Uri.without v e)
      ↔ Uri.Cleanly v e s.room := by
  have hcap : s.room ≤ kCapacity := Nat.sub_le _ _
  unfold kCapacity at hcap
  have hcases := s.rewrite_present hv (clip (Uri.emptied v e))
  unfold Uri.Cleanly
  -- A part that is there is emptied; one that is not is inserted, and then the value is longer
  -- by a delimiter.
  by_cases h : Uri.Has v e
  · rw [if_pos h]
    obtain rfl | he := he
    · obtain ⟨hlen, hpos⟩ := Uri.length_emptied_display h
      rw [clip_of_lt (by omega)] at hcases ⊢
      rw [if_pos rfl, Uri.without_display h]
      obtain ⟨h2, hval, -⟩ | ⟨h1, h2, hval, -⟩ | ⟨h0, hval, -⟩ := hcases
      · rw [hval]
        simp
        omega
      · rw [hval, Option.some.injEq]
        refine ⟨fun hve => ?_, fun hc => ?_⟩
        · have := congrArg List.length hve
          omega
        · obtain hc | ⟨hext, -⟩ := hc
          · omega
          · rw [Uri.emptied_eq _ (by decide) h, hext, Nat.add_zero, List.take_append_drop]
      · rw [hval, Option.some.injEq]
        refine ⟨fun hve => ?_, fun hc => ?_⟩
        · have := congrArg List.length hve
          rw [List.length_nil] at this
          omega
        · omega
    · obtain ⟨hwithout, hlen⟩ := Uri.length_without e he h
      rw [clip_of_lt (by omega)] at hcases ⊢
      rw [if_neg (by rintro rfl; simp at he)]
      obtain ⟨h2, hval, -⟩ | ⟨h1, h2, hval, -⟩ | ⟨h0, hval, -⟩ := hcases
      · rw [hval, Option.some.injEq]
        refine ⟨fun hve => ?_, fun hc => by omega⟩
        have := congrArg List.length hve
        omega
      · rw [hval, Option.some.injEq]
        refine ⟨fun hve => ?_, fun hc => by omega⟩
        have := congrArg List.length hve
        omega
      · rw [hval, Option.some.injEq]
        refine ⟨fun hve => ?_, fun hc => ?_⟩
        · rw [← hve, List.length_nil] at hwithout
          omega
        · exact (List.length_eq_zero_iff.mp (by omega)).symm
  · rw [if_neg h, show Uri.without v e = v from if_neg h]
    have hlen := Uri.length_emptied_absent e he h
    have hnil : v = [] ↔ v.length = 0 := List.length_eq_zero_iff.symm
    -- A value of `2 ^ 32 - 1` bytes becomes one of no bytes, in 32 bits.
    by_cases hwrap : v.length + 1 < 2 ^ 32
    · rw [clip_of_lt (by omega)] at hcases ⊢
      obtain ⟨h2, hval, -⟩ | ⟨h1, h2, hval, -⟩ | ⟨h0, hval, -⟩ := hcases
      · rw [hval, Option.some.injEq]
        refine ⟨fun hve => ?_, fun hc => ?_⟩
        · have := congrArg List.length hve
          omega
        · rw [hnil] at hc
          omega
      · rw [hval]
        simp only [true_iff]
        exact Or.inl (by omega)
      · rw [hval, Option.some.injEq, eq_comm, hnil]
        omega
    · -- the inserted delimiter makes it `2 ^ 32` bytes, of which a view shows none
      have hclip : clip (Uri.emptied v e) = [] := by
        rw [clip, show (Uri.emptied v e).length % 2 ^ 32 = 0 by omega, List.take_zero]
      rw [hclip] at hcases ⊢
      have hval : (s.rewrite name []).value? name = some [] := by
        obtain ⟨-, hval, -⟩ | ⟨-, h2, -⟩ | ⟨h0, -⟩ := hcases
        · exact hval
        · simp at h2
        · simp at h0
      rw [hval, Option.some.injEq, eq_comm, hnil]
      omega

/-- **Deleting it twice** is deleting it once exactly when the arena lets it
(`Uri.CleanlyTwice`). The second rewrite finds the value without the part, and what room the
first one has left: an emptied display name is emptied once more into the same value, and a part
that is not there gets its delimiter wherever there is room for it. -/
theorem delete_twice (hv : s.value? name = some v) (hlt : v.length < 2 ^ 32) {e : HmrUriElement}
    (he : e = .display ∨ e = .user ∨ e = .port) (hc : Uri.Cleanly v e s.room) :
    ((s.rewrite name (clip (Uri.emptied v e))).rewrite name
        (clip (Uri.emptied (Uri.without v e) e))).value? name = some (Uri.without v e)
      ↔ Uri.CleanlyTwice v e s.room := by
  have hcap : s.room ≤ kCapacity := Nat.sub_le _ _
  unfold kCapacity at hcap
  have honce := (delete_once hv hlt he).mpr hc
  have hcases := s.rewrite_present hv (clip (Uri.emptied v e))
  have hagain := (s.rewrite name (clip (Uri.emptied v e))).rewrite_present honce
    (clip (Uri.emptied (Uri.without v e) e))
  unfold Uri.Cleanly at hc
  unfold Uri.CleanlyTwice
  -- The second rewrite finds the value without the part, and what room the first one has left.
  by_cases h : Uri.Has v e
  · rw [if_pos h] at hc ⊢
    obtain rfl | he := he
    · obtain ⟨hlen, hpos⟩ := Uri.length_emptied_display h
      rw [if_pos rfl] at hc
      simp only [forall_const]
      rw [Uri.without_display h, (Uri.display_position h).2.1] at hagain ⊢
      rw [clip_of_lt (by omega)] at hcases hagain ⊢
      have hroom : 2 * (Uri.emptied v .display).length ≤ s.room
          ∧ (s.rewrite name (Uri.emptied v .display)).room
            = s.room - 2 * (Uri.emptied v .display).length
          ∨ s.room < 2 * (Uri.emptied v .display).length
          ∧ (s.rewrite name (Uri.emptied v .display)).room
            = s.room - (Uri.emptied v .display).length := by
        obtain ⟨h2, -, hroom⟩ | ⟨-, h2, -, hroom⟩ | ⟨h0, -, -⟩ := hcases
        · exact Or.inl ⟨h2, hroom⟩
        · exact Or.inr ⟨h2, hroom⟩
        · omega
      obtain ⟨h2, hval, -⟩ | ⟨h1, -, hval, -⟩ | ⟨h0, hval, -⟩ := hagain
      · rw [hval]
        simp only [true_iff]
        omega
      · rw [hval]
        simp only [true_iff]
        omega
      · rw [hval, Option.some.injEq]
        refine ⟨fun hve => ?_, fun hc => by omega⟩
        have := congrArg List.length hve
        rw [List.length_nil] at this
        omega
    · obtain ⟨hwithout, hlen⟩ := Uri.length_without e he h
      rw [if_neg (by rintro rfl; simp at he)] at hc
      have hnil : Uri.without v e = [] := List.length_eq_zero_iff.mp (by omega)
      have hone : (clip (Uri.emptied [] e)).length = 1 := by
        obtain rfl | rfl := he
        · decide
        · decide
      rw [hnil] at hagain ⊢
      rw [hone] at hagain
      rw [clip_of_lt (by omega)] at hcases hagain ⊢
      refine ⟨fun _ hd => ?_, fun _ => ?_⟩
      · rw [hd] at he
        simp at he
      · obtain ⟨h2, -⟩ | ⟨h1, -⟩ | ⟨-, -, hroom⟩ := hcases
        · omega
        · omega
        · obtain ⟨h2, -⟩ | ⟨h1, -⟩ | ⟨-, hval, -⟩ := hagain
          · omega
          · omega
          · exact hval
  · rw [if_neg h] at hc ⊢
    have hwithout : Uri.without v e = v := if_neg h
    have hlen := Uri.length_emptied_absent e he h
    have hnil : v = [] ↔ v.length = 0 := List.length_eq_zero_iff.symm
    rw [hwithout] at hagain ⊢
    rw [hnil] at hc ⊢
    rw [clip_of_lt (by omega)] at hcases hagain ⊢
    obtain ⟨h2, -, hroom⟩ | ⟨h1, -, -, hroom⟩ | ⟨h0, -, hroom⟩ := hcases
    · omega
    · obtain ⟨h2', -⟩ | ⟨h1', -⟩ | ⟨-, hval, -⟩ := hagain
      · omega
      · omega
      · rw [hval, Option.some.injEq, eq_comm, hnil]
        omega
    · obtain ⟨h2', -⟩ | ⟨h1', -⟩ | ⟨-, hval, -⟩ := hagain
      · omega
      · omega
      · rw [hval, Option.some.injEq, eq_comm, hnil]
        omega

end HeaderStore

namespace Interpreter

variable (rx : RegexEngine) (rs : Ruleset) (hr : HeaderRule) (er : ElementRule) (w : World)
variable {elem : HmrUriElement} {v : Bytes}

/-- **The part is deleted**: the value is without it after the rule, and the rule
a second time changes nothing. -/
def Deletes (elem : HmrUriElement) (v : Bytes) : Prop :=
  target hr (runElement rx rs hr er w) = some (Uri.without v elem)
    ∧ target hr (runElement rx rs hr er (runElement rx rs hr er w))
      = target hr (runElement rx rs hr er w)

/-- A rule fires if its guard holds of the value that is there. -/
theorem firing_of_guard (htype : Lowering.uriElement er.type = some elem)
    (hv : target hr w = some v) :
    firing rx rs hr er w = if guardHolds rx rs er w elem v then some elem else none := by
  rw [firing_eq, htype, hv, Option.filter_some]
  rfl

/-- A rule that fires rebuilds the URI with the part emptied. -/
theorem runElement_delete_store (hact : er.action = .deleteElement) (he : elem ≠ .whole)
    (hf : firing rx rs hr er w = some elem) (hv : target hr w = some v) :
    (runElement rx rs hr er w).store
      = w.store.rewrite (clip hr.headerName) (clip (Uri.emptied v elem)) := by
  have hsv : (HmrStr.ofBytes v).sv = .ofBytes v := by
    show (⟨.addr .ext 0, clip v⟩ : StringView) = ⟨.addr .ext 0, v⟩
    rw [clip_of_lt (w.value?_lt hv)]
  rw [runElement_store, hf, hact]
  dsimp only [HeaderStore.act]
  rw [if_neg he, show w.store.get (clip hr.headerName) = v from congrArg (fun o => o.getD []) hv,
    Uri.rebuilt_eq, hsv]
  rfl

/-- **Deleting a display name, a user or a port** of a header that is there. The
value is without it, and stays so, exactly when the arena lets it
(`Uri.Cleanly`, `Uri.CleanlyTwice`). -/
theorem runElement_deletes (hact : er.action = .deleteElement)
    (he : elem = .display ∨ elem = .user ∨ elem = .port)
    (htype : Lowering.uriElement er.type = some elem) (hv : target hr w = some v)
    (hguard : guardHolds rx rs er w elem v = true) :
    Deletes rx rs hr er w elem v
      ↔ Uri.Cleanly v elem w.store.room
        ∧ (guardHolds rx rs er w elem (Uri.without v elem) = true →
          Uri.CleanlyTwice v elem w.store.room) := by
  have hne : elem ≠ .whole := by
    rintro rfl
    simp at he
  have hlt := w.value?_lt hv
  have hf : firing rx rs hr er w = some elem := by
    rw [firing_of_guard rx rs hr er w htype hv, if_pos hguard]
  have hstore := runElement_delete_store rx rs hr er w hact hne hf hv
  have honce : target hr (runElement rx rs hr er w) = some (Uri.without v elem)
      ↔ Uri.Cleanly v elem w.store.room := by
    unfold target
    rw [hstore]
    exact HeaderStore.delete_once hv hlt he
  unfold Deletes
  rw [honce]
  refine and_congr_right fun hc => ?_
  have hv' := honce.mpr hc
  -- the second time the guard is asked about the value the first time left
  have hf' := firing_of_guard rx rs hr er _ htype hv'
  rw [guardHolds_congr rx rs er (runElement_regexes rx rs hr er w)] at hf'
  by_cases hagain : guardHolds rx rs er w elem (Uri.without v elem) = true
  · rw [if_pos hagain] at hf'
    have hstore' := runElement_delete_store rx rs hr er _ hact hne hf' hv'
    rw [hv', ← HeaderStore.delete_twice hv hlt he hc, ← hstore, ← hstore']
    exact ⟨fun h _ => h, fun h => h hagain⟩
  · rw [if_neg hagain] at hf'
    have hsame : (runElement rx rs hr er (runElement rx rs hr er w)).store
        = (runElement rx rs hr er w).store := by
      rw [runElement_store, hf']
    unfold target
    rw [hsame]
    exact ⟨fun _ h => absurd h hagain, fun _ => rfl⟩

/-- A rule that deletes a part of the URI in `To`. -/
def deletingElement (type : ElementType) : ElementRule := { type := type, action := .deleteElement }

/-- A message with a `To`. -/
def addressedTo (v : Bytes) : World where
  msg := { headers := [⟨.ofBytes (txt "To"), .ofBytes v, false⟩]
           headers_le := Nat.le_of_ble_eq_true rfl }
  ctx := {}

/-- The display name is deleted. -/
theorem runElement_deletes_display :
    Deletes .blind {} { headerName := txt "To" } (deletingElement .uriDisplay)
      (addressedTo (txt "Bob <sip:bob@example.com>")) .display (txt "Bob <sip:bob@example.com>") :=
  (runElement_deletes .blind {} { headerName := txt "To" } (deletingElement .uriDisplay)
    (addressedTo (txt "Bob <sip:bob@example.com>")) rfl (Or.inl rfl) rfl (by decide)
    rfl).mpr (by decide)

/-- **The `@` is left behind** when the user is deleted. -/
theorem runElement_deletes_not_user :
    ¬ ∀ (rx : RegexEngine) (rs : Ruleset) (hr : HeaderRule) (er : ElementRule) (w : World)
      (elem : HmrUriElement) (v : Bytes), er.action = .deleteElement →
      (elem = .display ∨ elem = .user ∨ elem = .port) →
      Lowering.uriElement er.type = some elem → target hr w = some v →
      guardHolds rx rs er w elem v = true → Deletes rx rs hr er w elem v := by
  intro h
  have hdeleted := (h .blind {} { headerName := txt "To" } (deletingElement .uriUser)
    (addressedTo (txt "sip:bob@example.com")) .user (txt "sip:bob@example.com") rfl
    (Or.inr (Or.inl rfl)) rfl (by decide) rfl).1
  exact absurd hdeleted (by decide)

end Interpreter

end Hmr
