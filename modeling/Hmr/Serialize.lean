import Hmr.HeaderStore

/-!
# What `serialize` writes

`serialize` puts the pieces of a message into the arena one behind the other, and gives up
for good at the first one that does not fit. So it succeeds exactly when the whole message
fits, and then the pieces stand in the arena without a gap: the view it returns shows the
rendered message, and the memory under that view holds it.

A piece of no bytes fits everywhere, and takes nothing. The pieces are the first line, or
its parts where the request-URI has been rewritten; for each header that is not deleted
its name, a colon and a blank, its value and a line end; an empty line; and the body.

What is written before it gives up stays handed out.
-/

namespace Hmr

namespace HmrArena

/-- What is read in one go is read in two. -/
theorem read_add (a : HmrArena) (off m n : Nat) :
    a.read off (m + n) = a.read off m ++ a.read (off + m) n := by
  simp only [read, List.range_add, List.map_append, List.map_map]
  refine congrArg₂ (· ++ ·) rfl (List.map_congr_left fun i _ => ?_)
  show a.buffer (off + (m + i)) = a.buffer (off + m + i)
  rw [Nat.add_assoc]

end HmrArena

namespace HmrSipMsg

/-- Once the arena is exhausted, nothing more is put out. -/
theorem foldl_put_false (ps : List Bytes) (a : HmrArena) :
    ps.foldl (fun out s => put s out) (false, a) = (false, a) := by
  induction ps with
  | nil => rfl
  | cons p ps ih => exact ih

/-- **One `put`** of a text that a 32-bit length can hold: it appends the text
or, where there is no room, fails and leaves the arena as it is. -/
theorem put_spec (a : HmrArena) {s : Bytes} (hs : s.length < 2 ^ 32) :
    (s.length ≤ a.remaining ∧ ∃ a', put s (true, a) = (true, a')
        ∧ a.Le a' ∧ a'.used = a.used + s.length ∧ a'.read a.used s.length = s)
      ∨ (a.remaining < s.length ∧ put s (true, a) = (false, a)) := by
  unfold put
  rw [Bool.not_true, Bool.false_or, clip_of_lt hs]
  by_cases hnil : s.isEmpty = true
  · rw [if_pos hnil]
    obtain rfl := List.isEmpty_iff.mp hnil
    exact Or.inl ⟨Nat.zero_le _, a, rfl, HmrArena.Le.refl a, rfl, rfl⟩
  · rw [if_neg hnil]
    dsimp only
    cases ha : a.alloc s.length with
    | none => exact Or.inr ⟨HmrArena.alloc_eq_none_iff.mp ha, rfl⟩
    | some pa =>
      obtain ⟨p, a'⟩ := pa
      obtain ⟨rfl, -, hu, hle⟩ := HmrArena.alloc_eq_some ha
      exact Or.inl ⟨hle, _, rfl, HmrArena.le_alloc_write ha, hu,
        HmrArena.read_write_self _ _ _⟩

/-- **Putting out a list of texts** succeeds exactly when all of it fits, and
then it stands in the arena without a gap. -/
theorem foldl_put (ps : List Bytes) (hps : ∀ s ∈ ps, s.length < 2 ^ 32) (a : HmrArena) :
    (ps.flatten.length ≤ a.remaining
        ∧ ∃ a', ps.foldl (fun out s => put s out) (true, a) = (true, a')
          ∧ a.Le a' ∧ a'.used = a.used + ps.flatten.length
          ∧ a'.read a.used ps.flatten.length = ps.flatten)
      ∨ (a.remaining < ps.flatten.length
        ∧ ∃ a', ps.foldl (fun out s => put s out) (true, a) = (false, a') ∧ a.Le a') := by
  -- Once a piece has not fit, none is put any more.
  induction ps generalizing a with
  | nil => exact Or.inl ⟨Nat.zero_le _, a, rfl, HmrArena.Le.refl a, rfl, rfl⟩
  | cons p ps ih =>
    rw [List.foldl_cons, List.flatten_cons, List.length_append]
    obtain ⟨hp, a₁, hput, hle, hu, hr⟩ | ⟨hp, hput⟩ :=
      put_spec a (hps p List.mem_cons_self)
    · have hrem : a₁.remaining = a.remaining - p.length := by
        unfold HmrArena.remaining
        omega
      rw [hput]
      obtain ⟨hps', a₂, hfold, hle', hu', hr'⟩ | ⟨hps', a₂, hfold, hle'⟩ :=
        ih (fun s hs => hps s (List.mem_cons_of_mem _ hs)) a₁
      · refine Or.inl ⟨by omega, a₂, hfold, hle.trans hle', by omega, ?_⟩
        rw [HmrArena.read_add, hle'.read (Nat.le_of_eq hu.symm), hr, ← hu, hr']
      · exact Or.inr ⟨by omega, a₂, hfold, hle.trans hle'⟩
    · rw [hput, foldl_put_false]
      exact Or.inr ⟨by omega, a, rfl, HmrArena.Le.refl a⟩

/-- The pieces of a message are views and constants, so their lengths fit 32
bits. -/
theorem length_lt_of_mem_pieces (m : HmrSipMsg) : ∀ s ∈ m.pieces, s.length < 2 ^ 32 := by
  have hcrlf : (crlf : Bytes).length < 2 ^ 32 := by decide
  have hsep : (txt ": ").length < 2 ^ 32 := by decide
  have hpart : ∀ {s t : Bytes}, s <:+: t → t.length < 2 ^ 32 → s.length < 2 ^ 32 :=
    fun h ht => Nat.lt_of_le_of_lt h.length_le ht
  intro s hs
  simp only [pieces, List.mem_append, List.mem_flatMap, List.mem_cons, List.not_mem_nil,
    or_false] at hs
  rcases hs with ((hs | rfl) | ⟨h, -, hs⟩) | rfl | rfl
  · unfold firstLine at hs
    split at hs
    · simp only [List.mem_cons, List.not_mem_nil, or_false] at hs
      rcases hs with rfl | rfl | rfl
      · exact hpart (List.take_prefix _ _).isInfix m.startLine.len_lt
      · exact m.modRequestUri.len_lt
      · exact hpart (List.drop_suffix _ _).isInfix m.startLine.len_lt
    · rw [List.mem_singleton] at hs
      exact hs ▸ m.startLine.len_lt
  · exact hcrlf
  · rcases hs with rfl | rfl | rfl | rfl
    · exact h.name.len_lt
    · exact hsep
    · exact h.value.len_lt
    · exact hcrlf
  · exact hcrlf
  · exact m.body.len_lt

/-- **`serialize`** returns a view of the rendered message, in new arena
space which holds it, exactly when it fits; else the null view. -/
theorem serialize_spec (m : HmrSipMsg) (a : HmrArena) :
    a.Le (m.serialize a).2
      ∧ ((m.rendered.length ≤ a.remaining ∧ (m.serialize a).1.text = m.rendered
            ∧ (m.serialize a).1.present = true
            ∧ ∀ raw, (m.serialize a).1.Reads raw (m.serialize a).2)
        ∨ (a.remaining < m.rendered.length ∧ (m.serialize a).1 = HmrStr.empty)) := by
  unfold serialize
  dsimp only
  have hcap : a.remaining ≤ kCapacity := Nat.sub_le _ _
  obtain ⟨hfit, a', hfold, hle, hu, hr⟩ | ⟨hfit, a', hfold, hle⟩ :=
    foldl_put m.pieces m.length_lt_of_mem_pieces a
  · rw [hfold]
    have hlen : a'.used - a.used = m.rendered.length := by
      rw [hu, Nat.add_sub_cancel_left]
      rfl
    -- The pieces have been put from `used` on, without a gap.
    have hread : a'.read a.used m.rendered.length = m.rendered := hr
    have hclip : clip (a'.read a.used (a'.used - a.used)) = m.rendered := by
      rw [hlen, hread]
      exact clip_of_lt (Nat.lt_of_le_of_lt (hfit.trans hcap) (by decide))
    refine ⟨hle, Or.inl ⟨hfit, hclip, rfl, fun raw => ⟨fun off hd => Or.inr ?_, ?_⟩⟩⟩
    · cases hd
      show a.used + (clip (a'.read a.used (a'.used - a.used))).length ≤ a'.used
      rw [hclip, ← hlen]
      omega
    · show a'.read a.used (clip (a'.read a.used (a'.used - a.used))).length
        = clip (a'.read a.used (a'.used - a.used))
      rw [hclip, hread]
  · rw [hfold]
    exact ⟨hle, Or.inr ⟨hfit, rfl⟩⟩

/-- `serialize` returned something: it fits, and what is returned is the
rendered message. -/
theorem text_of_serialize {m : HmrSipMsg} {a : HmrArena}
    (h : (m.serialize a).1.present = true) :
    (m.serialize a).1.text = m.rendered ∧ m.rendered.length ≤ a.remaining := by
  obtain ⟨-, ⟨hfit, htext, -⟩ | ⟨-, hempty⟩⟩ := m.serialize_spec a
  · exact ⟨htext, hfit⟩
  · rw [hempty] at h
    cases h

/-- A header as it is put out. -/
def renderHeader (p : Bytes × Bytes) : Bytes := p.1 ++ txt ": " ++ p.2 ++ crlf

/-- **The rendered message is its first line, its live headers in order, a
blank line and its body.** -/
theorem rendered_eq (m : HmrSipMsg) :
    m.rendered = m.firstLine.flatten ++ crlf ++ m.live.flatMap renderHeader
      ++ crlf ++ m.body.text := by
  have hheaders : ((m.headers.filter (!·.removed)).flatMap
      (fun h => [h.name.text, txt ": ", h.value.text, crlf])).flatten
        = m.live.flatMap renderHeader := by
    unfold live Tombstone.live
    rw [List.flatMap_map]
    induction m.headers.filter (!·.removed) with
    | nil => rfl
    | cons h l ih =>
      rw [List.flatMap_cons, List.flatten_append, ih, List.flatMap_cons]
      simp [renderHeader]
  unfold rendered pieces
  rw [List.flatten_append, List.flatten_append, List.flatten_append, hheaders]
  simp

end HmrSipMsg

end Hmr
