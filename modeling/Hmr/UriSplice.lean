import Hmr.UriLaws
import Mathlib.Data.List.GetD

/-!
# Splitting loses nothing, and rebuilding is a splice

The components `parse_uri` finds are ranges of the address, in order, and with their
delimiters they are all of it (`Uri.Partition`). So the offsets `rebuild_uri` recovers by
subtracting pointers are offsets of the value, and what it copies into the arena, one
piece behind the other (`Uri.copied`), is as long as what it has allocated.

All of this is about values that stand somewhere (`.addr r o`), if only as an empty text.
The null view has no offsets to recover: its host is the null view, and `rebuild_uri`
takes that for a value without a host.

A value is taken apart by its shape (`UriShape`), so that the offsets of its components
can be read off the texts in front of them.

## Splices

What is rebuilt is the value with a range of it replaced (`Uri.Splices`): the range of the
component, if it is there, and an empty range where it belongs, if it is not. What is put
in the place of an absent component has its delimiter in front or behind, and of a present
one nothing but the new text. That the range lies in the value is all that is needed for
the copies: what is in front of it, what is behind it, and what is put between add up.
-/

namespace Hmr

namespace HmrArena

/-- **Two copies, one behind the other**, are one. -/
@[simp] theorem write_append (a : HmrArena) (off : Nat) (s t : Bytes) :
    (a.write off s).write (off + s.length) t = a.write off (s ++ t) := by
  unfold write
  rw [HmrArena.mk.injEq]
  refine ⟨funext fun i => ?_, rfl⟩
  dsimp only
  rw [List.length_append]
  by_cases hs : off ≤ i ∧ i < off + s.length
  · rw [if_neg (by omega), if_pos hs, if_pos (by omega), List.getD_append _ _ _ _ (by omega)]
  · by_cases ht : off + s.length ≤ i ∧ i < off + s.length + t.length
    · rw [if_pos ht, if_pos (by omega), List.getD_append_right _ _ _ _ (by omega), Nat.sub_sub]
    · rw [if_neg ht, if_neg hs, if_neg (by omega)]

/-- Nothing is written. -/
@[simp] theorem write_nil (a : HmrArena) (off : Nat) : a.write off [] = a := by
  unfold write
  cases a
  rw [HmrArena.mk.injEq]
  refine ⟨funext fun i => if_neg ?_, rfl⟩
  rw [List.length_nil]
  omega

end HmrArena

namespace Uri

open StringView (RangeOf)

/-! ## The partition -/

/-- A component that ends with a delimiter, if it is there. -/
def closed (v : StringView) (delimiter : UInt8) : Bytes := (shown v).elim [] (· ++ [delimiter])

/-- A component that starts with a delimiter, if it is there. -/
def opened (v : StringView) (delimiter : UInt8) : Bytes := (shown v).elim [] (delimiter :: ·)

/-- **The components are all of the address**: the whole value, or what stands behind the
first `<` up to the next `>`, or up to the end. With their delimiters they are the
address, each a range of it where the ones in front of it end. -/
structure Partition (value addr : StringView) (u : ParsedUri) : Prop where
  address : RangeOf value addr u.addrStart (u.addrStart + addr.text.length)
  brackets : 60 ∉ value.text ∧ addr = value
    ∨ ∃ d r, value.text = d ++ 60 :: (addr.text ++ r) ∧ 60 ∉ d ∧ 62 ∉ addr.text
      ∧ (r = [] ∨ ∃ r', r = 62 :: r')
  text : addr.text = closed u.scheme colon ++ closed u.user 64 ++ u.host.text
    ++ opened u.port colon ++ u.tail.text
  scheme : u.scheme.data ≠ .null → RangeOf addr u.scheme 0 u.scheme.text.length
  user : u.user.data ≠ .null → RangeOf addr u.user (closed u.scheme colon).length
    ((closed u.scheme colon).length + u.user.text.length)
  host : RangeOf addr u.host (closed u.scheme colon ++ closed u.user 64).length
    ((closed u.scheme colon ++ closed u.user 64).length + u.host.text.length)
  port : u.port.data ≠ .null → RangeOf addr u.port
    (closed u.scheme colon ++ closed u.user 64 ++ u.host.text ++ [colon]).length
    ((closed u.scheme colon ++ closed u.user 64 ++ u.host.text ++ [colon]).length
      + u.port.text.length)
  tail : u.tail.data ≠ .null → RangeOf addr u.tail
    (closed u.scheme colon ++ closed u.user 64 ++ u.host.text ++ opened u.port colon).length
    addr.text.length

namespace Shape

variable {s : Shape}

/-- A component with its delimiter behind it. -/
@[simp] theorem closed_view (r : Region) (o : Nat) (t : Option Bytes) (c : UInt8) :
    closed (view (.addr r o) t) c = t.elim [] (· ++ [c]) := by
  rw [closed, shown_view]

/-- One with its delimiter in front of it. -/
@[simp] theorem opened_view (r : Region) (o : Nat) (t : Option Bytes) (c : UInt8) :
    opened (view (.addr r o) t) c = t.elim [] (c :: ·) := by
  rw [opened, shown_view]

/-- A component that stands where `a` ends. -/
theorem rangeOf_view {p q : Ptr} {w a b : Bytes} {t : Option Bytes} (hq : q = p.add a.length)
    (h : ∀ x, t = some x → w = a ++ x ++ b) (hdata : (view q t).data ≠ .null) :
    RangeOf ⟨p, w⟩ (view q t) a.length (a.length + (view q t).text.length) := by
  subst hq
  cases t with
  | none => exact absurd rfl hdata
  | some x =>
    rw [h x rfl]
    exact .of_append

/-- **A shape is partitioned into its components.** Each component with its delimiter is a part
of the shape's text, and they come in the order of the text; so the range of a component begins
where those in front of it end, and the view the splitter gives has just this range. -/
theorem partition (h : s.Wf) (r : Region) (o : Nat) :
    Partition ⟨.addr r o, s.text⟩ (addressOf ⟨.addr r o, s.text⟩).1
      (parseUri ⟨.addr r o, s.text⟩) := by
  rw [parseUri_shape h, addressOf_text h]
  -- Each component with its delimiter is a part of the shape's text.
  have hscheme : closed (s.parsed (.addr r o)).scheme colon = s.schemeText := closed_view _ _ _ _
  have huser : closed (s.parsed (.addr r o)).user 64 = s.userText := closed_view _ _ _ _
  have hport : opened (s.parsed (.addr r o)).port colon = s.portText := opened_view _ _ _ _
  have htail : (s.parsed (.addr r o)).tail.text = s.tail := by
    show (if s.tail = [] then ({} : StringView) else _).text = s.tail
    split
    · rename_i hnil
      exact hnil.symm
    · rfl
  refine ⟨.of_append, ?_, ?_, ?_, ?_, ?_, ?_, ?_⟩
  · cases hl : s.lead with
    | none =>
      obtain ⟨h60, hclose⟩ := h.bare hl
      refine Or.inl ?_
      rw [text, leadText, hl, hclose]
      simpa using h60
    | some d =>
      obtain ⟨h60, h62, hclose⟩ := h.angled d hl
      refine Or.inr ⟨d, s.close, ?_, h60, h62, hclose⟩
      show s.text = d ++ 60 :: (s.address ++ s.close)
      simp [text, leadText, hl]
  · rw [hscheme, huser, hport, htail]
    simp [address, rest, hostport, parsed]
  · intro hdata
    have hrange := rangeOf_view (p := .addr r (o + s.leadText.length)) (w := s.address) (a := [])
      (b := colon :: s.rest) (t := s.scheme) rfl (fun c hc => ?_) hdata
    · rwa [List.length_nil, Nat.zero_add] at hrange
    · simp [address, schemeText, hc]
  · intro hdata
    rw [hscheme]
    refine rangeOf_view (b := 64 :: s.hostport) ?_ (fun v hv => ?_) hdata
    · exact (Ptr.add_add _ _ _).symm
    · simp [address, rest, userText, hv]
  · rw [hscheme, huser]
    have htext : s.address = s.schemeText ++ s.userText ++ s.host ++ (s.portText ++ s.tail) := by
      simp [address, rest, hostport]
    have hdata : (s.parsed (.addr r o)).host = ⟨(Ptr.add (.addr r o) s.leadText.length).add
        (s.schemeText ++ s.userText).length, s.host⟩ := by
      simp [parsed, Nat.add_assoc]
    rw [hdata, htext]
    exact .of_append
  · intro hdata
    rw [hscheme, huser]
    refine rangeOf_view (b := s.tail) ?_ (fun v hv => ?_) hdata
    · simp [parsed, Nat.add_assoc]
    · simp [address, rest, hostport, parsed, portText, hv]
  · intro hdata
    rw [hscheme, huser, hport]
    have hne : s.tail ≠ [] := fun hnil => hdata (by simp [parsed, hnil])
    have htext : s.address
        = s.schemeText ++ s.userText ++ s.host ++ s.portText ++ s.tail ++ [] := by
      simp [address, rest, hostport]
    have htail : (s.parsed (.addr r o)).tail = ⟨(Ptr.add (.addr r o) s.leadText.length).add
        (s.schemeText ++ s.userText ++ s.host ++ s.portText).length, s.tail⟩ := by
      simp [parsed, hne, Nat.add_assoc]
    have hrange := RangeOf.of_append (p := Ptr.add (.addr r o) s.leadText.length)
      (a := s.schemeText ++ s.userText ++ s.host ++ s.portText) (x := s.tail) (b := [])
    rw [← htext] at hrange
    rw [htail]
    have hlen : s.address.length
        = (s.schemeText ++ s.userText ++ s.host ++ s.portText).length + s.tail.length := by
      rw [htext, List.append_nil, List.length_append]
    show RangeOf ⟨_, s.address⟩ _ _ s.address.length
    rw [hlen]
    exact hrange

end Shape

/-- **Every value is partitioned.** -/
theorem partition_parseUri (r : Region) (o : Nat) (v : Bytes) :
    Partition ⟨.addr r o, v⟩ (addressOf ⟨.addr r o, v⟩).1 (parseUri ⟨.addr r o, v⟩) := by
  obtain ⟨s, hs, rfl⟩ := Shape.exists_shape v
  exact s.partition hs r o

/-! ## The offsets -/

/-- A range of a range. -/
theorem rangeOf_trans {whole v w : StringView} {lo hi lo' hi' : Nat} (h : RangeOf whole v lo hi)
    (h' : RangeOf v w lo' hi') : RangeOf whole w (lo + lo') (lo + hi') := by
  have hlen := h.length
  have hin := h'.inside
  have hle := h'.le
  have hle' := h.le
  have hin' := h.inside
  refine ⟨?_, ?_, by omega, by omega⟩
  · rw [h'.data, h.data, Ptr.add_add]
  · rw [h'.text, h.text, List.take_drop, List.drop_drop, List.take_take,
      Nat.min_eq_left (by omega)]

variable {r : Region} {o : Nat} {v : Bytes} {x : StringView} {lo hi : Nat}

/-- **The offset of a range is recovered** by subtracting the pointers. -/
theorem off_rangeOf (h : RangeOf ⟨.addr r o, v⟩ x lo hi) :
    x.data ≠ .null ∧ x.data.sub (.addr r o) = lo ∧ lo + x.text.length = hi := by
  have hlen := h.length
  have hle := h.le
  rw [h.data]
  exact ⟨Ptr.noConfusion, Shape.off_add r o lo, by omega⟩

/-- A range exchanged for itself. -/
theorem apply_same (h : RangeOf ⟨.addr r o, v⟩ x lo hi) :
    ({ start := lo, stop := hi } : Splice).apply v x.text = v := by
  have htext : x.text = (v.take hi).drop lo := h.text
  have hle := h.le
  have hfront : v.take lo = (v.take hi).take lo := by
    rw [List.take_take, Nat.min_eq_left hle]
  unfold Splice.apply
  dsimp only
  rw [List.append_nil, List.append_nil, htext, hfront, List.take_append_drop,
    List.take_append_drop]

/-- The display name is a range of the value. -/
theorem rangeOf_display (hdata : (parseUri ⟨.addr r o, v⟩).display.data ≠ .null) :
    ∃ lo hi, RangeOf ⟨.addr r o, v⟩ (parseUri ⟨.addr r o, v⟩).display lo hi := by
  obtain ⟨s, hs, rfl⟩ := Shape.exists_shape v
  rw [Shape.parseUri_shape hs] at hdata ⊢
  cases hl : s.lead with
  | none => exact absurd (by simp [Shape.parsed, hl]) hdata
  | some d =>
    obtain ⟨a, x, b, hd, hview, -⟩ := Shape.exists_display d
    have hdisplay : (s.parsed (.addr r o)).display = ⟨Ptr.add (.addr r o) a.length, x⟩ := by
      show s.lead.elim {} (Shape.displayView (.addr r o)) = _
      rw [hl]
      exact hview _
    have htext : s.text = a ++ x ++ (b ++ [60] ++ s.address ++ s.close) := by
      simp [Shape.text, Shape.leadText, hl, hd]
    rw [hdisplay, htext]
    exact ⟨_, _, .of_append⟩

/-- The component an element addresses; the whole value has one, too. -/
def componentView (value : StringView) (element : HmrUriElement) : StringView :=
  match element with
  | .whole => value
  | _ => part (parseUri value) element

/-- **The offsets `rebuild_uri` computes** are offsets of the value, in order; what it
puts in of its own is at most one byte, and where there is the component already, nothing:
a component exchanged for itself leaves the value. -/
structure Splices (v : Bytes) (present : StringView) (p : Splice) : Prop where
  le : p.start ≤ p.stop
  inside : p.stop ≤ v.length
  own : p.pre.length + p.post.length ≤ 1
  same : ∀ nv, shown present = some nv → p.apply v nv = v

/-- **A component that is there** is replaced where it stands. -/
theorem splices_present (h : RangeOf ⟨.addr r o, v⟩ x lo hi) :
    Splices v x { start := lo, stop := hi } := by
  refine ⟨h.le, h.inside, Nat.zero_le _, fun nv hnv => ?_⟩
  rw [shown, if_neg (off_rangeOf h).1] at hnv
  rw [← Option.some.inj hnv]
  exact apply_same h

/-- **One that is not** is inserted, with a delimiter of its own. -/
theorem splices_absent {place : Nat} {pre post : Bytes} (hat : place ≤ v.length)
    (hown : pre.length + post.length ≤ 1) (hx : ¬ x.data ≠ .null) :
    Splices v x { start := place, stop := place, pre := pre, post := post } := by
  refine ⟨Nat.le_refl _, hat, hown, fun nv hnv => ?_⟩
  rw [shown, if_pos (not_not.mp hx)] at hnv
  cases hnv

/-- **Every rebuild of a value** is a splice of it. By the element: a component that is there is
exchanged for the new text, and one that is not is put where it belongs, with its delimiter. -/
theorem exists_splice (r : Region) (o : Nat) (v : Bytes) (element : HmrUriElement) :
    ∃ p, spliceOf ⟨.addr r o, v⟩ element = some p
      ∧ Splices v (componentView ⟨.addr r o, v⟩ element) p := by
  have hpart := partition_parseUri r o v
  have hhost := rangeOf_trans hpart.address hpart.host
  obtain ⟨hhostdata, hoff, -⟩ := off_rangeOf hhost
  have hin := hhost.inside
  have hle := hhost.le
  have hwhole : Splices v ⟨.addr r o, v⟩ { start := 0, stop := v.length } :=
    splices_present (.self _)
  unfold spliceOf componentView
  dsimp only at hin ⊢
  -- By the element: where it is there, or where it is put.
  cases element with
  | whole => exact ⟨_, rfl, hwhole⟩
  | display =>
    by_cases hdata : (parseUri ⟨.addr r o, v⟩).display.data ≠ .null
    · obtain ⟨lo, hi, hrange⟩ := rangeOf_display hdata
      obtain ⟨-, hlo, hhi⟩ := off_rangeOf hrange
      dsimp only
      rw [if_pos hdata, hlo, hhi]
      exact ⟨_, rfl, splices_present hrange⟩
    · dsimp only
      rw [if_neg hdata]
      exact ⟨_, rfl, splices_absent (Nat.zero_le _) (Nat.le_refl _) hdata⟩
  | user =>
    by_cases hdata : (parseUri ⟨.addr r o, v⟩).user.data ≠ .null
    · have hrange := rangeOf_trans hpart.address (hpart.user hdata)
      obtain ⟨-, hlo, hhi⟩ := off_rangeOf hrange
      dsimp only
      rw [if_pos hdata, hlo, hhi]
      exact ⟨_, rfl, splices_present hrange⟩
    · dsimp only
      rw [if_neg hdata, if_pos hhostdata, hoff]
      exact ⟨_, rfl, splices_absent (by omega) (Nat.le_refl _) hdata⟩
  | host =>
    obtain ⟨-, hlo, hhi⟩ := off_rangeOf hhost
    dsimp only
    rw [if_pos hhostdata, hlo, hhi]
    exact ⟨_, rfl, splices_present hhost⟩
  | port =>
    by_cases hdata : (parseUri ⟨.addr r o, v⟩).port.data ≠ .null
    · have hrange := rangeOf_trans hpart.address (hpart.port hdata)
      obtain ⟨-, hlo, hhi⟩ := off_rangeOf hrange
      dsimp only
      rw [if_pos hdata, hlo, hhi]
      exact ⟨_, rfl, splices_present hrange⟩
    · obtain ⟨-, hlo, hhi⟩ := off_rangeOf hhost
      dsimp only
      rw [if_neg hdata, if_pos hhostdata, hlo, hhi]
      exact ⟨_, rfl, splices_absent hin (Nat.le_refl _) hdata⟩

/-! ## The copies -/

/-- The element of a code; any other code is the whole value. -/
def elementOf (code : Nat) : HmrUriElement :=
  if code = 1 then .display
  else if code = 2 then .user
  else if code = 3 then .host
  else if code = 4 then .port
  else .whole

/-- `total`: what is allocated, a 32-bit number. -/
def Splice.total (p : Splice) (value nv : Bytes) : Nat :=
  (p.start + p.pre.length + nv.length + p.post.length + (value.length - p.stop)) % 2 ^ 32

/-- The texts that are copied, in order. -/
def Splice.copies (p : Splice) (value nv : Bytes) : List Bytes :=
  [value.take p.start, p.pre, nv, p.post, value.drop p.stop]

/-- `put`: copy a text to where the pointer is, and move the pointer behind it. -/
def copyTo (s : Bytes) (out : Nat × HmrArena) : Nat × HmrArena :=
  if s.isEmpty then out else (out.1 + s.length, out.2.write out.1 s)

/-- The copies of `rebuild_uri` into what it has allocated at `dst`. -/
def copied (p : Splice) (value nv : Bytes) (dst : Nat) (a : HmrArena) : Nat × HmrArena :=
  (p.copies value nv).foldl (fun out s => copyTo s out) (dst, a)

/-- A copy moves the place for the next one behind itself. -/
theorem copyTo_eq (s : Bytes) (dst : Nat) (a : HmrArena) :
    copyTo s (dst, a) = (dst + s.length, a.write dst s) := by
  unfold copyTo
  split
  · rename_i hnil
    rw [List.isEmpty_iff.mp hnil, HmrArena.write_nil]
    rfl
  · rfl

/-- So copies one after the other are one of all of it. -/
theorem foldl_copyTo (ss : List Bytes) (dst : Nat) (a : HmrArena) :
    ss.foldl (fun out s => copyTo s out) (dst, a)
      = (dst + ss.flatten.length, a.write dst ss.flatten) := by
  induction ss generalizing dst a with
  | nil => rw [List.foldl_nil, List.flatten_nil, List.length_nil, Nat.add_zero, HmrArena.write_nil]
  | cons s ss ih =>
    rw [List.foldl_cons, copyTo_eq, ih, HmrArena.write_append, List.flatten_cons,
      List.length_append, Nat.add_assoc]

/-- **The copies are the spliced text**, and end as far behind as it is long. -/
theorem copied_eq (p : Splice) (value nv : Bytes) (dst : Nat) (a : HmrArena) :
    copied p value nv dst a
      = (dst + (p.apply value nv).length, a.write dst (p.apply value nv)) := by
  have hflat : (p.copies value nv).flatten = p.apply value nv := by
    simp [Splice.copies, Splice.apply]
  rw [copied, foldl_copyTo, hflat]

/-- **What is allocated is the length of what is copied.** -/
theorem Splices.total_eq {p : Splice} (h : Splices v x p) {nv : Bytes}
    (hlen : v.length + nv.length + 1 < 2 ^ 32) :
    p.total v nv = (p.apply v nv).length ∧ (p.apply v nv).length < 2 ^ 32 := by
  have hle := h.le
  have hin := h.inside
  have hown := h.own
  have hlength : (p.apply v nv).length
      = p.start + p.pre.length + nv.length + p.post.length + (v.length - p.stop) := by
    rw [Splice.apply, List.length_append, List.length_append, List.length_append,
      List.length_append, List.length_take, List.length_drop, Nat.min_eq_left (by omega)]
  rw [Splice.total, ← hlength, Nat.mod_eq_of_lt (by omega)]
  exact ⟨rfl, by omega⟩

/-- **A rebuild is exact**: its offsets are in order and in the value; it allocates as
much as its copies take, which are the spliced text; it returns that text, or the null view
if the arena has no room for it; and a component that is there, put in its own place, gives
the value back. -/
structure RebuildsExactly (a : HmrArena) (value : StringView) (element : HmrUriElement)
    (nv : StringView) (p : Splice) : Prop where
  splice : spliceOf value element = some p
  offsets : p.start ≤ p.stop ∧ p.stop ≤ value.text.length
  total : p.total value.text nv.text = (p.apply value.text nv.text).length
  copies : ∀ dst a', a.alloc (p.total value.text nv.text) = some (dst, a') →
    copied p value.text nv.text dst a'
        = (dst + p.total value.text nv.text, (rebuildUri a value element nv).2)
      ∧ (rebuildUri a value element nv).1.data = .addr .arena dst
      ∧ (rebuildUri a value element nv).1.text = p.apply value.text nv.text
      ∧ (rebuildUri a value element nv).2.read dst (p.total value.text nv.text)
        = p.apply value.text nv.text
  null : (rebuildUri a value element nv).1.data = .null
    ↔ a.remaining < (p.apply value.text nv.text).length
  refused : (rebuildUri a value element nv).1.data = .null →
    (rebuildUri a value element nv).2 = a
  same : shown (componentView value element) = some nv.text →
    p.apply value.text nv.text = value.text

/-- **Splitting is a partition, and rebuilding a splice.** The first is said of the shape of the
value, the second of the arena: it has room for the whole of the new text, which is then written
and given back, or it refuses, and nothing is written at all. -/
theorem parseUri_rebuildUri (r : Region) (o : Nat) (v : Bytes) :
    Partition ⟨.addr r o, v⟩ (addressOf ⟨.addr r o, v⟩).1 (parseUri ⟨.addr r o, v⟩)
      ∧ ∀ (a : HmrArena) (code : Nat) (nv : StringView),
        v.length + nv.text.length + 1 < 2 ^ 32 →
          ∃ p, RebuildsExactly a ⟨.addr r o, v⟩ (elementOf code) nv p := by
  refine ⟨partition_parseUri r o v, fun a code nv hlen => ?_⟩
  obtain ⟨p, hp, hsplices⟩ := exists_splice r o v (elementOf code)
  obtain ⟨htotal, hlt⟩ := hsplices.total_eq hlen
  refine ⟨p, ?_⟩
  -- The arena has room for the whole, or nothing is written.
  cases halloc : a.alloc (p.apply v nv.text).length with
  | none =>
    have hrebuild : rebuildUri a ⟨.addr r o, v⟩ (elementOf code) nv = (HmrStr.empty, a) :=
      rebuildUri_of_full hp (by rwa [clip_of_lt hlt])
    refine ⟨hp, ⟨hsplices.le, hsplices.inside⟩, htotal, fun dst a' h => ?_, ?_, fun _ => ?_,
      hsplices.same nv.text⟩
    · rw [htotal, halloc] at h
      cases h
    · rw [hrebuild]
      exact iff_of_true rfl (HmrArena.alloc_eq_none_iff.mp halloc)
    · rw [hrebuild]
  | some d =>
    obtain ⟨dst, a'⟩ := d
    have hrebuild : rebuildUri a ⟨.addr r o, v⟩ (elementOf code) nv
        = (⟨.addr .arena dst, p.apply v nv.text, hlt⟩, a'.write dst (p.apply v nv.text)) := by
      rw [rebuildUri_of_alloc hp (by rwa [clip_of_lt hlt])]
      simp only [clip_of_lt hlt]
    obtain ⟨-, -, -, hroom⟩ := HmrArena.alloc_eq_some halloc
    refine ⟨hp, ⟨hsplices.le, hsplices.inside⟩, htotal, fun dst' a'' h => ?_, ?_, fun h => ?_,
      hsplices.same nv.text⟩
    · rw [htotal, halloc] at h
      cases h
      rw [hrebuild, copied_eq, htotal]
      exact ⟨rfl, rfl, rfl, HmrArena.read_write_self _ _ _⟩
    · rw [hrebuild]
      exact iff_of_false Ptr.noConfusion (Nat.not_lt_of_le hroom)
    · rw [hrebuild] at h
      cases h

/-- A port put into an address that has none. -/
theorem parseUri_rebuildUri_port :
    Partition ⟨.addr .ext 0, txt "sip:a@b"⟩ (addressOf ⟨.addr .ext 0, txt "sip:a@b"⟩).1
        (parseUri ⟨.addr .ext 0, txt "sip:a@b"⟩)
      ∧ ∃ p, RebuildsExactly .fresh ⟨.addr .ext 0, txt "sip:a@b"⟩ .port (.ofBytes (txt "5060")) p :=
  have h := parseUri_rebuildUri .ext 0 (txt "sip:a@b")
  ⟨h.1, h.2 .fresh 4 (.ofBytes (txt "5060")) (by decide)⟩

/-- **The null view has no host to rewrite.** No splice is computed for its host or
port; a copy of it is returned, which is the null view again, however much room there
is. -/
theorem not_parseUri_rebuildUri :
    ¬ ∀ value : StringView, (value.data = .null → value.text = []) →
      Partition value (addressOf value).1 (parseUri value)
        ∧ ∀ (a : HmrArena) (code : Nat) (nv : StringView),
          value.text.length + nv.text.length + 1 < 2 ^ 32 →
            ∃ p, RebuildsExactly a value (elementOf code) nv p := by
  intro h
  obtain ⟨p, hp⟩ := (h {} fun _ => rfl).2 .fresh 3 {} (by decide)
  have hnone : spliceOf {} (elementOf 3) = none := rfl
  rw [hp.splice] at hnone
  cases hnone

-- all of the arena is free
example : rebuildUri .fresh {} .host (.ofBytes (txt "b")) = (HmrStr.empty, .fresh) := rfl

end Uri

end Hmr
