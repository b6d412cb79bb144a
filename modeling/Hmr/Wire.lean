import Hmr.HeaderStore

/-!
# What a message says

The wire form of a message is lines: a first line, header lines up to the first blank one,
and then the body. `Wire` is what such a text says – the fields of the first line, the
headers in order, and the body – without the addresses of the views a parsed message is
made of.

`parse_wire` reads `parse` off the lines: the first line, trimmed, decides the fields;
every header line with a colon gives one header, as long as the table has room; what
follows the blank line is the body. Everything that is said about parsing – that it undoes
`serialize`, which headers it keeps – is said about that description.

## Lines

A line ends with a line feed, and the last one may go without. There is a difference
between no line and an empty one, and between the empty text, which has none, and a line
feed, which ends one (`lineSplit`). The parser has a cursor instead, that it moves from
line to line; behind the last one it stands at the end of the packet
(`HmrSipMsg.nextLine_eq`).

A header line without a colon is skipped, and one that begins with a colon is a header
without a name. Folded lines are not put together: a line that begins with a blank is a
header line as any other.
-/

namespace Hmr

/-! ## Lines -/

/-- The line at the front of a text, and what follows it. The last line need
not be terminated, and an empty text has no line. -/
def lineSplit (s : Bytes) : Option (Bytes × Bytes) :=
  if s.isEmpty then none
  else match find s lf 0 with
    | none => some (s, [])
    | some i => some (s.take i, s.drop (i + 1))

/-- What follows a line is shorter than the text. -/
theorem lineSplit_length_lt {s l r : Bytes} (h : lineSplit s = some (l, r)) :
    r.length < s.length := by
  unfold lineSplit at h
  split at h
  · cases h
  · rename_i hs
    have hpos : 0 < s.length := by
      rw [List.length_pos_iff]
      exact fun h0 => hs (by rw [h0]; rfl)
    split at h
    · obtain ⟨-, rfl⟩ := Prod.mk.inj (Option.some.inj h)
      exact hpos
    · obtain ⟨-, rfl⟩ := Prod.mk.inj (Option.some.inj h)
      rw [List.length_drop]
      omega

/-- The line of a terminated text. -/
theorem lineSplit_append {l r : Bytes} (h : lf ∉ l) :
    lineSplit (l ++ lf :: r) = some (l, r) := by
  rw [lineSplit, if_neg (by simp), find_append h]
  simp

/-- The line of a text with no line feed is the text. -/
theorem lineSplit_of_not_mem {s : Bytes} (hne : s ≠ []) (h : lf ∉ s) :
    lineSplit s = some (s, []) := by
  rw [lineSplit, if_neg (by simpa using hne), find_eq_none_iff.mpr h]

/-- A line has no line feed. -/
theorem lf_not_mem_line {s l r : Bytes} (h : lineSplit s = some (l, r)) : lf ∉ l := by
  unfold lineSplit at h
  split at h
  · cases h
  · rcases find_cases s lf with ⟨hn, hf⟩ | ⟨a, b, rfl, ha, hf⟩
    · rw [hf] at h
      obtain ⟨rfl, -⟩ := Prod.mk.inj (Option.some.inj h)
      exact hn
    · rw [hf] at h
      obtain ⟨rfl, -⟩ := Prod.mk.inj (Option.some.inj h)
      rwa [List.take_left' rfl]

/-- A line and what follows it are part of the text. -/
theorem line_isPart {s l r : Bytes} (h : lineSplit s = some (l, r)) :
    l <+: s ∧ r <:+ s := by
  unfold lineSplit at h
  split at h
  · cases h
  · split at h
    · obtain ⟨rfl, rfl⟩ := Prod.mk.inj (Option.some.inj h)
      exact ⟨List.prefix_rfl, List.nil_suffix⟩
    · obtain ⟨rfl, rfl⟩ := Prod.mk.inj (Option.some.inj h)
      exact ⟨List.take_prefix _ _, List.drop_suffix _ _⟩

/-- **The header lines of a text**: its lines up to the first blank one. -/
def headerLines (s : Bytes) : List Bytes :=
  match _h : lineSplit s with
  | none => []
  | some (l, r) => if (trim l).isEmpty then [] else l :: headerLines r
termination_by s.length
decreasing_by exact lineSplit_length_lt _h

/-- **The body of a text**: what follows its first blank line. -/
def bodyOf (s : Bytes) : Bytes :=
  match _h : lineSplit s with
  | none => []
  | some (l, r) => if (trim l).isEmpty then r else bodyOf r
termination_by s.length
decreasing_by exact lineSplit_length_lt _h

/-- There are no header lines where there is no line. -/
theorem headerLines_of_none {s : Bytes} (h : lineSplit s = none) : headerLines s = [] := by
  rw [headerLines]
  split
  · rfl
  · rename_i h'
    rw [h] at h'
    cases h'

/-- The first line is one unless it is blank. -/
theorem headerLines_of_some {s l r : Bytes} (h : lineSplit s = some (l, r)) :
    headerLines s = if (trim l).isEmpty then [] else l :: headerLines r := by
  rw [headerLines]
  split
  · rename_i h'
    rw [h] at h'
    cases h'
  · rename_i h'
    rw [h] at h'
    obtain ⟨rfl, rfl⟩ := Prod.mk.inj (Option.some.inj h')
    rfl

/-- Nor is there a body. -/
theorem bodyOf_of_none {s : Bytes} (h : lineSplit s = none) : bodyOf s = [] := by
  rw [bodyOf]
  split
  · rfl
  · rename_i h'
    rw [h] at h'
    cases h'

/-- The body is behind the first line that is blank. -/
theorem bodyOf_of_some {s l r : Bytes} (h : lineSplit s = some (l, r)) :
    bodyOf s = if (trim l).isEmpty then r else bodyOf r := by
  rw [bodyOf]
  split
  · rename_i h'
    rw [h] at h'
    cases h'
  · rename_i h'
    rw [h] at h'
    obtain ⟨rfl, rfl⟩ := Prod.mk.inj (Option.some.inj h')
    rfl

/-- The header a line holds: what stands before and behind its first colon,
trimmed, as 32-bit views show it. -/
def headerOf (line : Bytes) : Option (Bytes × Bytes) :=
  match find line colon 0 with
  | none => none
  | some c => some (clip (trim (line.take c)), clip (trim (line.drop (c + 1))))

/-- The first item of a list gives something, or nothing. -/
theorem filterMap_cons_toList {α β : Type} (f : α → Option β) (x : α) (l : List α) :
    (x :: l).filterMap f = (f x).toList ++ l.filterMap f := by
  rw [List.filterMap_cons]
  cases f x <;> rfl

/-- Keeping the first `n` once more on the way changes nothing. -/
theorem take_take_append {α : Type} (n : Nat) (a b : List α) :
    (a.take n ++ b).take n = (a ++ b).take n := by
  have hlen : n - min n a.length = n - a.length := by omega
  rw [List.take_append, List.take_append, List.take_take, Nat.min_self,
    List.length_take, hlen]

/-! ## What a message says -/

/-- **What a message says**: the fields of its first line, its headers and
its body. -/
structure Wire where
  startLine : Bytes := []
  isRequest : Bool := true
  method : Bytes := []
  requestUri : Bytes := []
  statusCode : Nat := 0
  reasonPhrase : Bytes := []
  headers : HeaderList := []
  body : Bytes := []
  deriving DecidableEq, Repr

namespace HmrSipMsg

/-- What a message says. -/
def wire (m : HmrSipMsg) : Wire where
  startLine := m.startLine.text
  isRequest := m.isRequest
  method := m.method.text
  requestUri := m.requestUri.text
  statusCode := m.statusCode
  reasonPhrase := m.reasonPhrase.text
  headers := m.live
  body := m.body.text

/-- What a message whose first line is `t`, and nothing else, says. -/
def firstWire (t : Bytes) : Wire := (parseFirst {} (.ofBytes t)).wire

/-- The fields of the first line depend on its text only. -/
theorem wire_parseFirst (v : StringView) :
    (parseFirst {} v).wire = firstWire v.text := by
  obtain ⟨d, t⟩ := v
  unfold firstWire parseFirst StringView.ofBytes
  dsimp only
  cases (txt "SIP/").isPrefixOf t with
  | true =>
    rw [if_pos rfl, if_pos rfl]
    unfold parseStatusLine
    dsimp only
    cases Hmr.find t sp 0 with
    | none => rfl
    | some sp1 =>
      dsimp only
      cases Hmr.find t sp (sp1 + 1) <;> rfl
  | false =>
    rw [if_neg Bool.false_ne_true, if_neg Bool.false_ne_true]
    unfold parseRequestLine
    dsimp only
    cases Hmr.find t sp 0 <;> rfl

/-- It says its first line. -/
@[simp] theorem firstWire_startLine (t : Bytes) : (firstWire t).startLine = clip t :=
  congrArg HmrStr.text (startLine_parseFirst {} (.ofBytes t))

/-! ## Parsing, line by line -/

/-- The cursor of `next_line` follows the lines of the text. -/
theorem nextLine_eq (raw : StringView) (pos : Nat) :
    nextLine raw pos = none ∧ lineSplit (raw.text.drop pos) = none
      ∨ ∃ line pos' l r, nextLine raw pos = some (line, pos')
        ∧ lineSplit (raw.text.drop pos) = some (l, r) ∧ line.text = l
        ∧ raw.text.drop pos' = r ∧ (pos' ≤ raw.text.length ∨ r = []) := by
  unfold nextLine
  by_cases hpos : raw.text.length ≤ pos
  · refine Or.inl ⟨if_pos hpos, ?_⟩
    rw [List.drop_of_length_le hpos]
    rfl
  · refine Or.inr ?_
    have hne : ¬ (raw.text.drop pos).isEmpty = true := by
      rw [List.isEmpty_iff, List.drop_eq_nil_iff]
      exact hpos
    rw [if_neg hpos, lineSplit, if_neg hne]
    unfold Hmr.find
    rw [List.drop_zero]
    -- Without a line feed, the rest of the text is the line, and the cursor is put behind the
    -- end.
    cases hi : List.idxOf? lf (raw.text.drop pos) with
    | none =>
      refine ⟨_, _, _, _, rfl, rfl, rfl, ?_, Or.inr rfl⟩
      exact List.drop_of_length_le (Nat.le_succ _)
    | some i =>
      have hlt : i < (raw.text.drop pos).length := (List.idxOf?_eq_some_iff.mp hi).1
      rw [List.length_drop] at hlt
      refine ⟨_, _, _, _, rfl, rfl, ?_, ?_, Or.inl ?_⟩
      · show (raw.text.drop pos).take (i + pos - pos) = (raw.text.drop pos).take i
        rw [Nat.add_sub_cancel]
      · show raw.text.drop (i + pos + 1) = (raw.text.drop pos).drop (i + 0 + 1)
        rw [List.drop_drop]
        rw [Nat.add_zero, Nat.add_comm i pos]
        rfl
      · show i + pos + 1 ≤ raw.text.length
        omega

/-- No entry is deleted, so that the live headers are all of them. -/
def NoneRemoved (m : HmrSipMsg) : Prop := m.live.length = m.headers.length

/-- The headers of a message, replaced. -/
theorem wire_push {m m' : HmrSipMsg} {h : Header} (hm : m.push h = some m') :
    m'.wire = { m.wire with headers := m'.live } := by
  obtain ⟨hle, rfl⟩ := eq_of_push hm
  rfl

/-- Whatever a header line holds goes behind the headers read so far, if the
table has room for it. -/
theorem parseHeaderLine_spec {m : HmrSipMsg} (hm : m.NoneRemoved) (line : StringView) :
    (m.parseHeaderLine line).wire
        = { m.wire with
            headers := (m.live ++ (headerOf line.text).toList).take hmrMaxHeaders }
      ∧ (m.parseHeaderLine line).NoneRemoved := by
  have hle : m.live.length ≤ hmrMaxHeaders := hm.symm ▸ m.headers_le
  unfold parseHeaderLine headerOf
  cases Hmr.find line.text colon 0 with
  | none =>
    refine ⟨?_, hm⟩
    rw [Option.toList_none, List.append_nil, List.take_of_length_le hle]
    rfl
  | some c =>
    dsimp only
    by_cases hlt : m.headers.length < hmrMaxHeaders
    · obtain ⟨m', hm'⟩ := m.push_of_lt
        ⟨.of (line.substr 0 c).trim, .of (line.substrFrom (c + 1)).trim, false⟩ hlt
      obtain ⟨hlive, hlen⟩ := live_push hm'
      have hlive' : m'.live = m.live
          ++ [(clip (trim (line.text.take c)), clip (trim (line.text.drop (c + 1))))] := hlive
      have hlen' : m'.live.length = m'.headers.length := by
        rw [hlen, hlive', List.length_append, hm]
        rfl
      rw [hm', Option.getD_some, wire_push hm', Option.toList_some, ← hlive',
        List.take_of_length_le (hlen'.symm ▸ m'.headers_le)]
      exact ⟨rfl, hlen'⟩
    · have hnone : ∀ h, m.push h = none := fun h => dif_neg hlt
      have heq : m.live.length = hmrMaxHeaders :=
        Nat.le_antisymm hle (hm.symm ▸ Nat.le_of_not_lt hlt)
      rw [hnone, Option.getD_none, List.take_append_of_le_length (Nat.le_of_eq heq.symm),
        List.take_of_length_le (Nat.le_of_eq heq)]
      exact ⟨rfl, hm⟩

/-- The loop, behind the first line: the header lines of what is left go into
the table while it has room, and the body is what follows them. -/
theorem wire_parseLines (raw : StringView) :
    ∀ (fuel pos : Nat) (m : HmrSipMsg), (raw.text.drop pos).length < fuel →
      m.NoneRemoved → m.body = {} →
      (parseLines raw fuel pos false m).wire
        = { m.wire with
            headers := (m.live ++ (headerLines (raw.text.drop pos)).filterMap headerOf).take
              hmrMaxHeaders
            body := clip (bodyOf (raw.text.drop pos)) }
  | 0, _, _, hfuel, _, _ => absurd hfuel (Nat.not_lt_zero _)
  | fuel + 1, pos, m, hfuel, hm, hbody => by
    have hle : m.live.length ≤ hmrMaxHeaders := hm.symm ▸ m.headers_le
    -- no line is left, or the blank line ends the text
    have hstop : m.wire = { m.wire with
        headers := (m.live ++ ([] : List Bytes).filterMap headerOf).take hmrMaxHeaders
        body := clip [] } := by
      rw [List.filterMap_nil, List.append_nil, List.take_of_length_le hle]
      unfold wire
      rw [hbody]
      rfl
    rw [parseLines]
    obtain ⟨hn, hs⟩ | ⟨line, pos', l, r, hn, hs, hl, hr, hpos⟩ := nextLine_eq raw pos
    · rw [hn, headerLines_of_none hs, bodyOf_of_none hs]
      exact hstop
    · rw [hn, headerLines_of_some hs, bodyOf_of_some hs]
      dsimp only
      rw [if_neg Bool.false_ne_true]
      by_cases hblank : (trim l).isEmpty = true
      · have hblank' : line.trim.text.isEmpty = true := by
          rw [StringView.trim_text, hl]
          exact hblank
        rw [if_pos hblank', if_pos hblank, if_pos hblank]
        by_cases hin : pos' ≤ raw.text.length
        · rw [if_pos hin, List.filterMap_nil, List.append_nil, List.take_of_length_le hle, ← hr]
          rfl
        · rw [if_neg hin, hpos.resolve_left hin]
          exact hstop
      · have hblank' : ¬ line.trim.text.isEmpty = true := by
          rw [StringView.trim_text, hl]
          exact hblank
        rw [if_neg hblank', if_neg hblank, if_neg hblank]
        obtain ⟨hw, hm'⟩ := parseHeaderLine_spec hm line
        have hlen : (raw.text.drop pos').length < fuel := by
          rw [hr]
          exact Nat.lt_of_lt_of_le (lineSplit_length_lt hs) (Nat.le_of_lt_succ hfuel)
        have hlive : (m.parseHeaderLine line).live
            = (m.live ++ (headerOf l).toList).take hmrMaxHeaders :=
          hl ▸ congrArg Wire.headers hw
        rw [wire_parseLines raw fuel pos' _ hlen hm'
          ((body_parseHeaderLine m line).trans hbody), hw, hlive, hr, Wire.mk.injEq]
        refine ⟨rfl, rfl, rfl, rfl, rfl, rfl, ?_, rfl⟩
        rw [filterMap_cons_toList, ← List.append_assoc, take_take_append]

/-- **What `parse` reads**: the fields of the first line, the headers of the
header lines while the table has room, and the body. -/
theorem parse_wire (raw : Bytes) :
    (parse raw).wire = match lineSplit raw with
      | none => {}
      | some (l, r) =>
        { firstWire (trim l) with
          headers := ((headerLines r).filterMap headerOf).take hmrMaxHeaders
          body := clip (bodyOf r) } := by
  unfold parse
  rw [parseLines]
  obtain ⟨hn, hs⟩ | ⟨line, pos', l, r, hn, hs, rfl, hr, -⟩ :=
    nextLine_eq ⟨.addr .raw 0, raw⟩ 0
  · rw [List.drop_zero] at hs
    rw [hn, hs]
    rfl
  · rw [List.drop_zero] at hs
    rw [hn, hs]
    dsimp only
    rw [if_pos rfl]
    have hheaders := headers_parseFirst {} line.trim
    -- The first line leaves the table empty, so the headers are those of the header lines.
    have hlive : (parseFirst {} line.trim).live = [] := by
      rw [live, hheaders]
      rfl
    have hbody : (parseFirst {} line.trim).body = {} := body_parseFirst {} line.trim
    have hlen : (raw.drop pos').length < raw.length := by
      rw [hr]
      exact lineSplit_length_lt hs
    rw [wire_parseLines _ raw.length pos' _ hlen
      (by rw [NoneRemoved, hlive, hheaders]; rfl) hbody, wire_parseFirst, hlive, hr]
    rfl

end HmrSipMsg

end Hmr
