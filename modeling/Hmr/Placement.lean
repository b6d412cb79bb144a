import Hmr.HeaderMemory
import Hmr.Wire

/-!
# Where the slices of a message lie

`parse` cuts a packet up with `substr`, which throws beyond the end of a view, in a
function that must not throw. `HmrSipMsg.parse?` is the same function with the `substr` of
the standard library, and `HmrSipMsg.parse?_eq` says that it never throws. It has the same
loop as the other one, so that this is shown a function at a time, by what `find` says
about the position it answers with.

The slices it makes are ranges of the packet (`StringView.Spans`). They come in the order
they are read in: a cursor runs over the packet, what has been read lies in front of it,
what will be read behind it (`HmrSipMsg.Placed`). A line is a range from the cursor on,
and the slices of a line lie in it, so whatever is read of one line is in front of what is
read of the next.

The body starts behind the first blank line. That is the first one behind the start line,
though: the start line is read as such even if it is blank, and a packet that begins with
two line ends has its body behind the second of them. For the header section, the first
line is therefore not looked at (`HmrSipMsg.behindFirst`).

Slices are 32 bits long, and so are their positions; the packet is taken to be shorter
than that.
-/

namespace Hmr

/-! ## Ranges of the packet -/

namespace StringView

namespace RangeOf

variable {whole v : StringView} {lo hi : Nat}

/-- A range from some place on. -/
theorem substrFrom (h : RangeOf whole v lo hi) (pos : Nat) (hpos : pos ≤ hi - lo) :
    RangeOf whole (v.substrFrom pos) (lo + pos) hi := by
  have hle := h.le
  refine ⟨?_, ?_, by omega, h.inside⟩
  · show v.data.add pos = _
    rw [h.data, Ptr.add_add]
  · show v.text.drop pos = _
    rw [h.text, List.drop_drop]

/-- A range of a range. -/
theorem substr (h : RangeOf whole v lo hi) (pos n : Nat) (hn : pos + n ≤ hi - lo) :
    RangeOf whole (v.substr pos n) (lo + pos) (lo + pos + n) := by
  have hle := h.le
  have hin := h.inside
  refine ⟨?_, ?_, by omega, by omega⟩
  · show v.data.add pos = _
    rw [h.data, Ptr.add_add]
  · show (v.text.drop pos).take n = _
    rw [h.text, List.drop_drop, List.take_drop, List.take_take, Nat.min_eq_left (by omega)]

/-- **Trimming** moves both ends inwards. -/
theorem trim (h : RangeOf whole v lo hi) :
    ∃ lo' hi', lo ≤ lo' ∧ hi' ≤ hi ∧ RangeOf whole v.trim lo' hi' := by
  have hfront : (v.text.takeWhile isBlank).length ≤ v.text.length :=
    (List.takeWhile_prefix _).length_le
  have hdrop : v.text.drop (v.text.takeWhile isBlank).length = v.text.dropWhile isBlank := by
    have := @List.drop_left _ (v.text.takeWhile isBlank) (v.text.dropWhile isBlank)
    rwa [List.takeWhile_append_dropWhile] at this
  have hprefix : Hmr.trim v.text <+: v.text.drop (v.text.takeWhile isBlank).length := by
    rw [hdrop]
    exact List.rdropWhile_prefix _ _
  have hlen := hprefix.length_le
  rw [List.length_drop] at hlen
  have htrim : v.trim
      = v.substr (v.text.takeWhile isBlank).length (Hmr.trim v.text).length := by
    unfold StringView.trim StringView.substr
    rw [← List.prefix_iff_eq_take.mp hprefix]
  rw [h.length] at hfront hlen
  refine ⟨_, _, ?_, ?_, htrim ▸ h.substr _ _ (by omega)⟩
  · exact Nat.le_add_right _ _
  · have := h.le
    omega

end RangeOf

/-- **The view is the range of the packet** from `lo` up to `hi`. -/
abbrev Spans (raw : Bytes) (v : StringView) (lo hi : Nat) : Prop :=
  RangeOf ⟨.addr .raw 0, raw⟩ v lo hi

/-! ## `substr`, as the standard library has it -/

/-- `substr(pos, n)`, which throws where `pos` is beyond the end. -/
def substr? (v : StringView) (pos n : Nat) : Option StringView :=
  if pos ≤ v.text.length then some (v.substr pos n) else none

/-- `substr(pos)`. -/
def substrFrom? (v : StringView) (pos : Nat) : Option StringView :=
  if pos ≤ v.text.length then some (v.substrFrom pos) else none

/-- `substr` does not throw at the end of a view, or in front of it. -/
theorem substr?_of_le {v : StringView} {pos : Nat} (h : pos ≤ v.text.length) (n : Nat) :
    v.substr? pos n = some (v.substr pos n) := if_pos h

/-- Nor does it without a length. -/
theorem substrFrom?_of_le {v : StringView} {pos : Nat} (h : pos ≤ v.text.length) :
    v.substrFrom? pos = some (v.substrFrom pos) := if_pos h

end StringView

/-- What is found lies at the position or behind it, and in the text. -/
theorem find_bounds {s : Bytes} {c : UInt8} {pos i : Nat} (h : find s c pos = some i) :
    pos ≤ i ∧ i < s.length := by
  obtain ⟨j, hj, rfl⟩ := Option.map_eq_some_iff.mp h
  have hlt := (List.idxOf?_eq_some_iff.mp hj).1
  rw [List.length_drop] at hlt
  omega

namespace HmrSipMsg

/-! ## `parse`, which may throw -/

/-- `next_line`. -/
def nextLine? (raw : StringView) (pos : Nat) : Option (Option (StringView × Nat)) :=
  if raw.text.length ≤ pos then some none
  else match Hmr.find raw.text lf pos with
    | none => (raw.substrFrom? pos).map fun line => some (line, raw.text.length + 1)
    | some nl => (raw.substr? pos (nl - pos)).map fun line => some (line, nl + 1)

/-- The first line of a response. -/
def parseStatusLine? (m : HmrSipMsg) (t : StringView) : Option HmrSipMsg :=
  match Hmr.find t.text sp 0 with
  | none => some { m with isRequest := false }
  | some sp1 => do
    let sp2 := Hmr.find t.text sp (sp1 + 1)
    let code ← t.substr? (sp1 + 1) (sp2.getD t.text.length - sp1 - 1)
    let reason ← match sp2 with
      | none => some m.reasonPhrase
      | some sp2 => (t.substrFrom? (sp2 + 1)).map fun rest => .of rest.trim
    some { m with isRequest := false, statusCode := statusOf code.text, reasonPhrase := reason }

/-- The first line of a request. -/
def parseRequestLine? (m : HmrSipMsg) (t : StringView) : Option HmrSipMsg :=
  match Hmr.find t.text sp 0 with
  | none => some { m with isRequest := true }
  | some sp1 => do
    let sp2 := (Hmr.find t.text sp (sp1 + 1)).getD t.text.length
    let method ← t.substr? 0 sp1
    let uri ← t.substr? (sp1 + 1) (sp2 - sp1 - 1)
    some { m with isRequest := true, method := .of method, requestUri := .of uri.trim }

/-- The first line. -/
def parseFirst? (m : HmrSipMsg) (t : StringView) : Option HmrSipMsg :=
  let m := { m with startLine := .of t }
  if (txt "SIP/").isPrefixOf t.text then m.parseStatusLine? t else m.parseRequestLine? t

/-- A header line. -/
def parseHeaderLine? (m : HmrSipMsg) (line : StringView) : Option HmrSipMsg :=
  match Hmr.find line.text colon 0 with
  | none => some m
  | some c => do
    let name ← line.substr? 0 c
    let value ← line.substrFrom? (c + 1)
    some ((m.push ⟨.of name.trim, .of value.trim, false⟩).getD m)

/-- The line loop; a round more than there are would not be one that ends. -/
def parseLines? (raw : StringView) : Nat → Nat → Bool → HmrSipMsg → Option HmrSipMsg
  | 0, _, _, _ => none
  | fuel + 1, pos, first, m => do
    match ← nextLine? raw pos with
    | none => some m
    | some (line, pos) =>
      let t := line.trim
      if first then
        let m ← m.parseFirst? t
        parseLines? raw fuel pos false m
      else if t.text.isEmpty then
        if pos ≤ raw.text.length then do
          let body ← raw.substrFrom? pos
          some { m with body := .of body }
        else some m
      else
        let m ← m.parseHeaderLine? line
        parseLines? raw fuel pos false m

/-- **`HmrSipMsg::parse`**, with a `substr` that throws. -/
def parse? (raw : Bytes) : Option HmrSipMsg :=
  parseLines? ⟨.addr .raw 0, raw⟩ (raw.length + 1) 0 true {}

/-! ## It does not throw -/

/-- The next line is found in the packet. -/
@[simp] theorem nextLine?_eq (raw : StringView) (pos : Nat) :
    nextLine? raw pos = some (nextLine raw pos) := by
  unfold nextLine? nextLine
  split
  · rfl
  · rename_i hpos
    rw [StringView.substrFrom?_of_le (by omega)]
    cases Hmr.find raw.text lf pos with
    | none => rfl
    | some nl =>
      dsimp only
      rw [StringView.substr?_of_le (by omega)]
      rfl

/-- The first line of a response is cut up inside. -/
@[simp] theorem parseStatusLine?_eq (m : HmrSipMsg) (t : StringView) :
    m.parseStatusLine? t = some (m.parseStatusLine t) := by
  unfold parseStatusLine? parseStatusLine
  cases hsp1 : Hmr.find t.text sp 0 with
  | none => rfl
  | some sp1 =>
    have hlt := (find_bounds hsp1).2
    dsimp only
    rw [StringView.substr?_of_le hlt]
    cases hsp2 : Hmr.find t.text sp (sp1 + 1) with
    | none => rfl
    | some sp2 =>
      dsimp only
      rw [StringView.substrFrom?_of_le (find_bounds hsp2).2]
      rfl

/-- So is that of a request, -/
@[simp] theorem parseRequestLine?_eq (m : HmrSipMsg) (t : StringView) :
    m.parseRequestLine? t = some (m.parseRequestLine t) := by
  unfold parseRequestLine? parseRequestLine
  cases hsp1 : Hmr.find t.text sp 0 with
  | none => rfl
  | some sp1 =>
    dsimp only
    rw [StringView.substr?_of_le (Nat.zero_le _), StringView.substr?_of_le (find_bounds hsp1).2]
    rfl

/-- whichever it is, -/
@[simp] theorem parseFirst?_eq (m : HmrSipMsg) (t : StringView) :
    m.parseFirst? t = some (m.parseFirst t) := by
  unfold parseFirst? parseFirst
  dsimp only
  split
  · exact parseStatusLine?_eq _ t
  · exact parseRequestLine?_eq _ t

/-- and a header line. -/
@[simp] theorem parseHeaderLine?_eq (m : HmrSipMsg) (line : StringView) :
    m.parseHeaderLine? line = some (m.parseHeaderLine line) := by
  unfold parseHeaderLine? parseHeaderLine
  cases hc : Hmr.find line.text colon 0 with
  | none => rfl
  | some c =>
    dsimp only
    rw [StringView.substr?_of_le (Nat.zero_le _), StringView.substrFrom?_of_le (find_bounds hc).2]
    rfl

/-- A line moves the cursor. -/
theorem lt_of_nextLine {raw line : StringView} {pos pos' : Nat}
    (h : nextLine raw pos = some (line, pos')) : pos < pos' ∧ pos < raw.text.length := by
  unfold nextLine at h
  split at h
  · cases h
  · rename_i hpos
    cases hnl : Hmr.find raw.text lf pos with
    | none =>
      rw [hnl] at h
      obtain ⟨-, rfl⟩ := Prod.mk.inj (Option.some.inj h)
      omega
    | some nl =>
      rw [hnl] at h
      obtain ⟨-, rfl⟩ := Prod.mk.inj (Option.some.inj h)
      have := find_bounds hnl
      omega

/-- **The line loop** does not throw, and ends. -/
theorem parseLines?_eq (raw : StringView) {fuel pos : Nat} (first : Bool) (m : HmrSipMsg)
    (hpos : 0 < fuel) (hfuel : raw.text.length < pos + fuel) :
    parseLines? raw fuel pos first m = some (parseLines raw fuel pos first m) := by
  induction fuel generalizing pos first m with
  | zero => omega
  | succ fuel ih =>
    rw [parseLines?, parseLines, nextLine?_eq, Option.bind_eq_bind, Option.bind_some]
    cases hline : nextLine raw pos with
    | none => rfl
    | some p =>
      obtain ⟨line, pos'⟩ := p
      have hlt := lt_of_nextLine hline
      have hrest : ∀ m, parseLines? raw fuel pos' false m
          = some (parseLines raw fuel pos' false m) :=
        fun m => ih false m (by omega) (by omega)
      dsimp only
      rw [parseFirst?_eq, parseHeaderLine?_eq]
      split
      · exact hrest _
      · split
        · split
          · rename_i hin
            rw [StringView.substrFrom?_of_le hin]
            rfl
          · rfl
        · exact hrest _

/-- **`parse` never throws.** -/
theorem parse?_eq (raw : Bytes) : parse? raw = some (parse raw) :=
  parseLines?_eq _ true {} (Nat.succ_pos _)
    (show raw.length < 0 + (raw.length + 1) by omega)

/-! ## The order of the slices -/

/-- A slice that is a range of the packet. -/
def Spans (raw : Bytes) (s : HmrStr) (lo hi : Nat) : Prop :=
  StringView.Spans raw ⟨s.data, s.text⟩ lo hi

/-- One slice ends where another starts, or before. -/
def Before (raw : Bytes) (s t : HmrStr) : Prop :=
  ∃ lo hi lo' hi', Spans raw s lo hi ∧ Spans raw t lo' hi' ∧ hi ≤ lo'

/-- One slice lies inside another. -/
def Inside (raw : Bytes) (s t : HmrStr) : Prop :=
  ∃ lo hi lo' hi', Spans raw s lo hi ∧ Spans raw t lo' hi' ∧ lo' ≤ lo ∧ hi ≤ hi'

/-- The slices of the table, in order. -/
def tableSlices (m : HmrSipMsg) : List HmrStr := m.headers.flatMap fun h => [h.name, h.value]

/-- The slices of the table, and the body, if there is one. -/
def slicesInOrder (m : HmrSipMsg) : List HmrStr :=
  m.tableSlices ++ (if m.body.present then [m.body] else [])

/-- **What follows the first blank line of a text.** -/
def AfterBlank (text rest : Bytes) : Prop :=
  ∃ (lines : List Bytes) (blank : Bytes),
    text = lines.flatMap (· ++ [lf]) ++ (blank ++ lf :: rest)
      ∧ (∀ l ∈ lines, lf ∉ l ∧ trim l ≠ []) ∧ lf ∉ blank ∧ trim blank = []

/-- The slices of the first line are well placed; the request-URI is not rewritten. -/
structure LinePlaced (raw : Bytes) (m : HmrSipMsg) : Prop where
  startLine : m.startLine.present = true → ∃ lo hi, Spans raw m.startLine lo hi
  method : m.method.present = true → Inside raw m.method m.startLine
  requestUri : m.requestUri.present = true → Inside raw m.requestUri m.startLine
  reasonPhrase : m.reasonPhrase.present = true → Inside raw m.reasonPhrase m.startLine
  modRequestUri : m.modRequestUri.present = false

/-- **The slices of a message are well placed** in the packet, whose header section is
the one that `text` starts with. -/
structure WellPlaced (raw text : Bytes) (m : HmrSipMsg) : Prop extends LinePlaced raw m where
  slices : ∀ s ∈ m.slicesInOrder, ∃ lo hi, Spans raw s lo hi
  ordered : m.slicesInOrder.Pairwise (Before raw)
  body : m.body.present = true →
    (∃ lo, Spans raw m.body lo raw.length) ∧ AfterBlank text m.body.text
  numHeaders : m.headers.length ≤ 32

/-- The slice lies in front of the cursor. -/
def Ends (raw : Bytes) (pos : Nat) (s : HmrStr) : Prop := ∃ lo hi, Spans raw s lo hi ∧ hi ≤ pos

/-- The slice lies behind the cursor. -/
def Starts (raw : Bytes) (pos : Nat) (s : HmrStr) : Prop := ∃ lo hi, Spans raw s lo hi ∧ pos ≤ lo

/-- **What has been read lies in front of the cursor**, in order, and the body has not
been read. -/
structure Placed (raw : Bytes) (pos : Nat) (m : HmrSipMsg) : Prop where
  line : LinePlaced raw m
  ends : ∀ s ∈ m.tableSlices, Ends raw pos s
  ordered : m.tableSlices.Pairwise (Before raw)
  body : m.body = {}

section
variable {raw text : Bytes} {pos pos' lo hi : Nat} {m m' : HmrSipMsg} {v line : StringView}
  {s t : HmrStr}

/-- What is in front of the cursor stays there as it goes on. -/
theorem Ends.mono (h : Ends raw pos s) (hle : pos ≤ pos') : Ends raw pos' s := by
  obtain ⟨lo, hi, hs, hhi⟩ := h
  exact ⟨lo, hi, hs, hhi.trans hle⟩

/-- **In front of the cursor is before what is behind it.** -/
theorem Ends.before (h : Ends raw pos s) (h' : Starts raw pos t) : Before raw s t := by
  obtain ⟨lo, hi, hs, hhi⟩ := h
  obtain ⟨lo', hi', ht, hlo⟩ := h'
  exact ⟨lo, hi, lo', hi', hs, ht, hhi.trans hlo⟩

/-- A view of the packet fits 32 bits. -/
theorem spans_of (hraw : raw.length < 2 ^ 32) (h : v.Spans raw lo hi) :
    Spans raw (.of v) lo hi := by
  have hlen : v.text.length < 2 ^ 32 := by
    have hin : hi ≤ raw.length := h.inside
    rw [h.length]
    omega
  have hview : (⟨(HmrStr.of v).data, (HmrStr.of v).text⟩ : StringView) = v := by
    rw [HmrStr.of_text, clip_of_lt hlen]
    rfl
  unfold Spans
  rwa [hview]

/-- A part of a view, trimmed, lies inside of it. -/
theorem inside_trim (hraw : raw.length < 2 ^ 32) {lo' hi' : Nat} (ht : v.Spans raw lo hi)
    (hv : line.Spans raw lo' hi') (hlo : lo ≤ lo') (hhi : hi' ≤ hi) :
    Inside raw (.of line.trim) (.of v) := by
  obtain ⟨p, q, hp, hq, htrim⟩ := hv.trim
  exact ⟨p, q, lo, hi, spans_of hraw htrim, spans_of hraw ht, hlo.trans hp, hq.trans hhi⟩

/-! ### The first line -/

/-- **The parts of the first line lie in it.** -/
theorem linePlaced_parseFirst (hraw : raw.length < 2 ^ 32) (ht : v.Spans raw lo hi) :
    LinePlaced raw (parseFirst {} v) := by
  have hlen := ht.length
  have hle := ht.le
  have hstart : ∃ lo hi, Spans raw (.of v) lo hi := ⟨lo, hi, spans_of hraw ht⟩
  have hnone : ∀ s, HmrStr.present {} = true → Inside raw {} s := fun _ h => by cases h
  unfold parseFirst
  dsimp only
  -- By the first line: a response's, or a request's.
  split
  · unfold parseStatusLine
    dsimp only
    cases hsp1 : Hmr.find v.text sp 0 with
    | none => exact ⟨fun _ => hstart, hnone _, hnone _, hnone _, rfl⟩
    | some sp1 =>
      refine ⟨fun _ => hstart, hnone _, hnone _, ?_, rfl⟩
      dsimp only
      cases hsp2 : Hmr.find v.text sp (sp1 + 1) with
      | none => exact hnone _
      | some sp2 =>
        intro _
        have hlt := (find_bounds hsp2).2
        exact inside_trim hraw ht (ht.substrFrom (sp2 + 1) (by omega)) (by omega)
          (Nat.le_refl _)
  · unfold parseRequestLine
    dsimp only
    cases hsp1 : Hmr.find v.text sp 0 with
    | none => exact ⟨fun _ => hstart, hnone _, hnone _, hnone _, rfl⟩
    | some sp1 =>
      have hlt := (find_bounds hsp1).2
      have hsp2 : (Hmr.find v.text sp (sp1 + 1)).getD v.text.length ≤ v.text.length := by
        cases hfind : Hmr.find v.text sp (sp1 + 1) with
        | none => exact Nat.le_refl _
        | some sp2 => exact Nat.le_of_lt (find_bounds hfind).2
      refine ⟨fun _ => hstart, fun _ => ?_, fun _ => ?_, hnone _, rfl⟩
      · exact ⟨_, _, lo, hi, spans_of hraw (ht.substr 0 sp1 (by omega)),
          spans_of hraw ht, by omega, by omega⟩
      · exact inside_trim hraw ht (ht.substr (sp1 + 1) _ (by omega)) (by omega) (by omega)

/-! ### A header line -/

/-- **A header line puts its name and its value behind what has been read.** -/
theorem Placed.parseHeaderLine (h : Placed raw pos m) (hraw : raw.length < 2 ^ 32)
    (hline : line.Spans raw pos hi) : Placed raw (hi + 1) (m.parseHeaderLine line) := by
  have hlen := hline.length
  have hle := hline.le
  have hskip : Placed raw (hi + 1) m :=
    ⟨h.line, fun s hs => (h.ends s hs).mono (by omega), h.ordered, h.body⟩
  unfold HmrSipMsg.parseHeaderLine
  -- Without a colon nothing is read; with one, the name is in front of it and the value behind.
  cases hc : Hmr.find line.text colon 0 with
  | none => exact hskip
  | some c =>
    have hlt := (find_bounds hc).2
    obtain ⟨n, n', hn, hn', hname⟩ := (hline.substr 0 c (by omega)).trim
    obtain ⟨w, w', hw, hw', hvalue⟩ := (hline.substrFrom (c + 1) (by omega)).trim
    have hname' := spans_of hraw hname
    have hvalue' := spans_of hraw hvalue
    have hnle := hname.le
    have hwle := hvalue.le
    dsimp only
    unfold push
    split
    · rw [Option.getD_some]
      have hline' := h.line
      refine ⟨⟨hline'.startLine, hline'.method, hline'.requestUri, hline'.reasonPhrase,
        hline'.modRequestUri⟩, fun s hs => ?_, ?_, h.body⟩
      · rw [tableSlices, List.flatMap_append, List.mem_append] at hs
        obtain hs | hs := hs
        · exact (h.ends s hs).mono (by omega)
        · simp only [List.flatMap_cons, List.flatMap_nil, List.append_nil, List.mem_cons,
            List.not_mem_nil, or_false] at hs
          obtain rfl | rfl := hs
          · exact ⟨n, n', hname', by omega⟩
          · exact ⟨w, w', hvalue', by omega⟩
      · rw [tableSlices, List.flatMap_append, List.pairwise_append]
        refine ⟨h.ordered, ?_, fun s hs t ht => ?_⟩
        · refine List.pairwise_pair.mpr ?_
          exact ⟨n, n', w, w', hname', hvalue', by omega⟩
        · simp only [List.flatMap_cons, List.flatMap_nil, List.append_nil, List.mem_cons,
            List.not_mem_nil, or_false] at ht
          refine (h.ends s hs).before ?_
          obtain rfl | rfl := ht
          · exact ⟨n, n', hname', by omega⟩
          · exact ⟨w, w', hvalue', by omega⟩
    · exact hskip

/-! ### The lines -/

/-- **A line is a range from the cursor on**, and the cursor goes behind its end. -/
theorem nextLine_spans (h : nextLine ⟨.addr .raw 0, raw⟩ pos = some (line, pos')) :
    ∃ stop, line.Spans raw pos stop ∧ pos' = stop + 1 ∧ lf ∉ line.text
      ∧ (raw.drop pos = line.text ++ lf :: raw.drop pos'
        ∨ raw.length < pos' ∧ raw.drop pos' = []) := by
  have hself : StringView.Spans raw ⟨.addr .raw 0, raw⟩ 0 raw.length := .self _
  unfold nextLine at h
  dsimp only at h
  split at h
  · cases h
  · rename_i hpos
    have hfrom := hself.substrFrom pos (by omega)
    rw [Nat.zero_add] at hfrom
    -- The last line ends with the packet.
    cases hj : List.idxOf? lf (raw.drop pos) with
    | none =>
      rw [Hmr.find, hj] at h
      obtain ⟨rfl, rfl⟩ := Prod.mk.inj (Option.some.inj h)
      refine ⟨raw.length, hfrom, rfl, ?_, Or.inr ⟨Nat.lt_succ_self _, ?_⟩⟩
      · exact List.idxOf?_eq_none_iff.mp hj
      · exact List.drop_of_length_le (Nat.le_succ _)
    | some j =>
      have hsplit : Hmr.find (raw.drop pos) lf 0 = some j := by
        rw [Hmr.find, List.drop_zero, hj]
        rfl
      obtain ⟨htext, hnot, hlt⟩ := find_eq_some hsplit
      rw [List.length_drop] at hlt
      rw [Hmr.find, hj] at h
      obtain ⟨rfl, rfl⟩ := Prod.mk.inj (Option.some.inj h)
      have hsub := hself.substr pos (j + pos - pos) (by omega)
      rw [Nat.zero_add, Nat.add_sub_cancel, Nat.add_comm pos j] at hsub
      refine ⟨j + pos, by rwa [Nat.add_sub_cancel], rfl, ?_, Or.inl ?_⟩
      · show lf ∉ (raw.drop pos).take (j + pos - pos)
        rwa [Nat.add_sub_cancel]
      · show raw.drop pos = (raw.drop pos).take (j + pos - pos) ++ _
        rw [List.drop_drop] at htext
        rwa [Nat.add_sub_cancel, show j + pos + 1 = pos + (j + 1) by omega]

/-- A line that is not blank is in front of the blank one. -/
theorem AfterBlank.cons {l rest : Bytes} (hl : lf ∉ l) (hne : trim l ≠ [])
    (h : AfterBlank text rest) : AfterBlank (l ++ lf :: text) rest := by
  obtain ⟨lines, blank, rfl, hlines, hblank⟩ := h
  refine ⟨l :: lines, blank, ?_, List.forall_mem_cons.mpr ⟨⟨hl, hne⟩, hlines⟩, hblank⟩
  rw [List.flatMap_cons, List.append_assoc l, List.append_assoc, List.singleton_append]
  rfl

/-- No text follows a blank line of the empty one. -/
theorem not_afterBlank_nil (rest : Bytes) : ¬ AfterBlank [] rest := by
  rintro ⟨lines, blank, heq, -⟩
  have hlen := congrArg List.length heq
  rw [List.length_nil, List.length_append, List.length_append, List.length_cons] at hlen
  omega

/-- The lines are read, and there is no body. -/
theorem Placed.wellPlaced (h : Placed raw pos m) (text : Bytes) : WellPlaced raw text m := by
  have habsent : m.body.present = false := by
    rw [h.body]
    rfl
  have hslices : m.slicesInOrder = m.tableSlices := by
    rw [slicesInOrder, habsent, if_neg Bool.false_ne_true, List.append_nil]
  refine ⟨h.line, ?_, ?_, fun hbody => ?_, m.headers_le⟩
  · intro s hs
    rw [hslices] at hs
    obtain ⟨lo, hi, hspans, -⟩ := h.ends s hs
    exact ⟨lo, hi, hspans⟩
  · rw [hslices]
    exact h.ordered
  · rw [habsent] at hbody
    cases hbody

/-- The lines are read, and the rest of the packet is the body. -/
theorem Placed.withBody (h : Placed raw pos m) (hraw : raw.length < 2 ^ 32) (hpos : pos ≤ pos')
    (hin : pos' ≤ raw.length) (hblank : AfterBlank text (raw.drop pos')) :
    WellPlaced raw text
      { m with body := .of (StringView.substrFrom ⟨.addr .raw 0, raw⟩ pos') } := by
  have hself : StringView.Spans raw ⟨.addr .raw 0, raw⟩ 0 raw.length := .self _
  have hrest := hself.substrFrom pos' (by omega)
  rw [Nat.zero_add] at hrest
  have hbody := spans_of hraw hrest
  have hline := h.line
  refine ⟨⟨hline.startLine, hline.method, hline.requestUri, hline.reasonPhrase,
    hline.modRequestUri⟩, ?_, ?_, fun _ => ⟨⟨pos', hbody⟩, ?_⟩, m.headers_le⟩
  · intro s hs
    obtain hs | hs := List.mem_append.mp hs
    · obtain ⟨lo, hi, hspans, -⟩ := h.ends s hs
      exact ⟨lo, hi, hspans⟩
    · obtain rfl := List.mem_singleton.mp hs
      exact ⟨pos', raw.length, hbody⟩
  · refine List.pairwise_append.mpr ⟨h.ordered, List.pairwise_singleton _ _, ?_⟩
    intro s hs t ht
    obtain rfl := List.mem_singleton.mp ht
    exact (h.ends s hs).before ⟨pos', raw.length, hbody, hpos⟩
  · show AfterBlank text (clip (raw.drop pos'))
    rwa [clip_of_lt (by rw [List.length_drop]; omega)]

/-- **The header lines and the body** are put where they are read. -/
theorem Placed.parseLines (h : Placed raw pos m) (hraw : raw.length < 2 ^ 32) (fuel : Nat) :
    WellPlaced raw (raw.drop pos) (parseLines ⟨.addr .raw 0, raw⟩ fuel pos false m) := by
  induction fuel generalizing pos m with
  | zero => exact h.wellPlaced _
  | succ fuel ih =>
    rw [HmrSipMsg.parseLines]
    cases hnext : nextLine ⟨.addr .raw 0, raw⟩ pos with
    | none => exact h.wellPlaced _
    | some p =>
      obtain ⟨line, pos'⟩ := p
      obtain ⟨stop, hline, rfl, hlf, hrest⟩ := nextLine_spans hnext
      have hle := hline.le
      dsimp only
      rw [if_neg Bool.false_ne_true]
      split
      · rename_i hblank
        have hblank' : trim line.text = [] := List.isEmpty_iff.mp hblank
        split
        · rename_i hin
          have hrest' := hrest.resolve_right fun hend => absurd hin (Nat.not_le_of_lt hend.1)
          refine h.withBody hraw (by omega) hin ⟨[], line.text, ?_, ?_, hlf, hblank'⟩
          · rw [List.flatMap_nil, List.nil_append, hrest']
          · exact fun l hl => absurd hl List.not_mem_nil
        · exact h.wellPlaced _
      · rename_i hblank
        have hblank' : trim line.text ≠ [] := fun hnil => hblank (List.isEmpty_iff.mpr hnil)
        have hplaced := ih (h.parseHeaderLine hraw hline)
        obtain hrest | ⟨-, hrest⟩ := hrest
        · refine { hplaced with body := fun hbody => ?_ }
          obtain ⟨hspans, hafter⟩ := hplaced.body hbody
          exact ⟨hspans, hrest ▸ hafter.cons hlf hblank'⟩
        · refine { hplaced with body := fun hbody => ?_ }
          exact absurd (hrest ▸ (hplaced.body hbody).2) (not_afterBlank_nil _)

end

/-- What follows the first line. -/
def behindFirst (raw : Bytes) : Bytes := (lineSplit raw).elim [] Prod.snd

/-- **The slices of a parsed message are well placed.** The header section is what
follows the first line. -/
theorem wellPlaced_parse (raw : Bytes) (hraw : raw.length < 2 ^ 32) :
    WellPlaced raw (behindFirst raw) (parse raw) := by
  unfold parse
  rw [parseLines]
  obtain ⟨hnext, hsplit⟩ | ⟨line, pos', l, r, hnext, hsplit, -, hrest, -⟩ :=
    nextLine_eq ⟨.addr .raw 0, raw⟩ 0
  · rw [hnext]
    have hempty : Placed raw 0 {} := by
      refine ⟨⟨?_, ?_, ?_, ?_, rfl⟩, fun s hs => absurd hs List.not_mem_nil, List.Pairwise.nil, rfl⟩
      all_goals exact fun h => by cases h
    exact hempty.wellPlaced _
  · obtain ⟨stop, hline, rfl, -⟩ := nextLine_spans hnext
    obtain ⟨lo, hi, -, -, htrim⟩ := hline.trim
    have hbehind : behindFirst raw = raw.drop (stop + 1) := by
      rw [List.drop_zero] at hsplit
      rw [behindFirst, hsplit]
      exact hrest.symm
    have hbody : (parseFirst {} line.trim).body = {} := body_parseFirst {} line.trim
    have htable : (parseFirst {} line.trim).tableSlices = [] := by
      rw [tableSlices, headers_parseFirst]
      rfl
    have hplaced : Placed raw (stop + 1) (parseFirst {} line.trim) := by
      refine ⟨linePlaced_parseFirst hraw htrim, ?_, ?_, hbody⟩
      · rw [htable]
        exact fun s hs => absurd hs List.not_mem_nil
      · rw [htable]
        exact List.Pairwise.nil
    rw [hnext]
    dsimp only
    rw [if_pos rfl, hbehind]
    exact hplaced.parseLines hraw raw.length

/-- **`parse` is in bounds, and its slices are well placed.** The first line is the start
line, blank or not; the body follows the first blank line behind it. -/
theorem parse_inBounds (raw : Bytes) (hraw : raw.length < 2 ^ 32) :
    parse? raw = some (parse raw) ∧ WellPlaced raw (behindFirst raw) (parse raw) :=
  ⟨parse?_eq raw, wellPlaced_parse raw hraw⟩

/-- A request that ends with its only header line. -/
theorem parse_inBounds_bodyless :
    parse? (txt "A b\nC: d\n") = some (parse (txt "A b\nC: d\n"))
      ∧ WellPlaced (txt "A b\nC: d\n") (behindFirst (txt "A b\nC: d\n"))
        (parse (txt "A b\nC: d\n")) :=
  parse_inBounds (txt "A b\nC: d\n") (by decide)

/-- **A blank start line does not end the header section**: of two blank lines, the body
follows the second. -/
theorem not_parse_inBounds :
    ¬ ∀ raw : Bytes, raw.length < 2 ^ 32 →
      parse? raw = some (parse raw) ∧ WellPlaced raw raw (parse raw) := by
  intro h
  have hplaced := (h (txt "\n\nx") (by decide)).2
  have hbody : (parse (txt "\n\nx")).body.text = txt "x" := by decide
  obtain ⟨lines, blank, heq, hlines, hlf, -⟩ := (hplaced.body (by decide)).2
  rw [hbody] at heq
  cases lines with
  | nil =>
    cases blank with
    | nil => exact absurd heq (by decide)
    | cons c blank =>
      obtain rfl : lf = c := (List.cons.inj heq).1
      exact hlf List.mem_cons_self
  | cons l lines =>
    have hfirst := hlines l List.mem_cons_self
    cases l with
    | nil => exact hfirst.2 rfl
    | cons c l =>
      obtain rfl : lf = c := (List.cons.inj heq).1
      exact hfirst.1 List.mem_cons_self

end HmrSipMsg

end Hmr
