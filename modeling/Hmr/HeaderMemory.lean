import Hmr.Serialize

/-!
# The header list in memory

The headers of a message are addresses, into the packet for what was parsed and into the
arena for what was written since. Reading the live entries of the table *through those
addresses* gives a list of names and values (`HmrSipMsg.fetched`), and that list is the
header store of the message: at every point of any history of writes, lookups read it,
writes change it as they should, and `serialize` puts it out.

The invariant is that every entry reads its text (`HmrSipMsg.HeadersRead`): at the address
that it holds there are, in memory as it is now, the bytes that the model says it shows. A
parsed message has it, because parsing only ever cuts sub-views out of the packet
(`StringView.Within`); the writes keep it, because the arena is written only where nothing
has been handed out. It is a statement about the table together with one state of the
arena, and survives the growth of the arena (`HeadersRead.mono`).

What the list is changed by is the association list of `Hmr.AssocList`, and what is proved
here is that the table, its dead entries and its two regions of memory are such a list,
after any history of writes (`HmrSipMsg.header_store_refinement`). The names and values of
the writes have less than `2 ^ 32` bytes, as those of the runtime calls have; a longer
name is cut in the arena and not in the comparison, and then the table is no such list.
-/

namespace Hmr

/-! ## Sub-views of the packet -/

/-- The view shows a part of the packet. -/
def StringView.Within (raw : Bytes) (v : StringView) : Prop :=
  ∃ off, v.data = .addr .raw off ∧ v.text <+: raw.drop off

namespace StringView.Within

variable {raw : Bytes} {v : StringView}

/-- The packet is a part of itself, -/
theorem self (raw : Bytes) : Within raw ⟨.addr .raw 0, raw⟩ := ⟨0, rfl, List.prefix_rfl⟩

/-- the end of a part is one, -/
theorem substrFrom (h : v.Within raw) (pos : Nat) : (v.substrFrom pos).Within raw := by
  obtain ⟨off, hd, hp⟩ := h
  refine ⟨off + pos, ?_, ?_⟩
  · show v.data.add pos = _
    rw [hd]
    rfl
  · rw [← List.drop_drop]
    exact hp.drop pos

/-- a piece of a part is, -/
theorem substr (h : v.Within raw) (pos n : Nat) : (v.substr pos n).Within raw := by
  obtain ⟨off, hd, hp⟩ := h.substrFrom pos
  exact ⟨off, hd, (List.take_prefix _ _).trans hp⟩

/-- and a part without its blanks. -/
theorem trim (h : v.Within raw) : v.trim.Within raw := by
  obtain ⟨off, hd, hp⟩ := h.substrFrom (v.text.takeWhile isBlank).length
  refine ⟨off, hd, List.IsPrefix.trans ?_ hp⟩
  have hdrop : v.text.drop (v.text.takeWhile isBlank).length = v.text.dropWhile isBlank := by
    have := @List.drop_left _ (v.text.takeWhile isBlank) (v.text.dropWhile isBlank)
    rwa [List.takeWhile_append_dropWhile] at this
  show Hmr.trim v.text <+: v.text.drop _
  rw [hdrop]
  exact List.rdropWhile_prefix _ _

/-- Such a view reads what it shows, whatever the arena holds. -/
theorem reads (h : v.Within raw) (a : HmrArena) : (HmrStr.of v).Reads raw a := by
  obtain ⟨off, hd, hp⟩ := h
  obtain ⟨d, t⟩ := v
  cases hd
  exact HmrStr.reads_raw raw a hp

end StringView.Within

namespace HmrSipMsg

/-- Every view of the message satisfies `P`. -/
structure AllViews (P : HmrStr → Prop) (m : HmrSipMsg) : Prop where
  headers : ∀ h ∈ m.headers, P h.name ∧ P h.value
  startLine : P m.startLine
  method : P m.method
  requestUri : P m.requestUri
  reasonPhrase : P m.reasonPhrase
  body : P m.body
  modRequestUri : P m.modRequestUri

/-- A line is a part of the packet. -/
theorem within_of_nextLine {raw : Bytes} {line : StringView} {pos pos' : Nat}
    (h : nextLine ⟨.addr .raw 0, raw⟩ pos = some (line, pos')) : line.Within raw := by
  unfold nextLine at h
  split at h
  · cases h
  · split at h
    · obtain ⟨rfl, -⟩ := Prod.mk.inj (Option.some.inj h)
      exact (StringView.Within.self raw).substrFrom pos
    · obtain ⟨rfl, -⟩ := Prod.mk.inj (Option.some.inj h)
      exact (StringView.Within.self raw).substr pos _

section
variable {raw : Bytes} {P : HmrStr → Prop} (hof : ∀ v, v.Within raw → P (.of v))
include hof

/-- The first line's views are sub-views of the packet, -/
theorem AllViews.parseFirst {m : HmrSipMsg} (hm : m.AllViews P) {t : StringView}
    (ht : t.Within raw) : (m.parseFirst t).AllViews P := by
  unfold HmrSipMsg.parseFirst
  dsimp only
  split
  · unfold parseStatusLine
    dsimp only
    split
    · exact { hm with startLine := hof _ ht }
    · refine { hm with startLine := hof _ ht, reasonPhrase := ?_ }
      dsimp only
      split
      · exact hm.reasonPhrase
      · exact hof _ (ht.substrFrom _).trim
  · unfold parseRequestLine
    dsimp only
    split
    · exact { hm with startLine := hof _ ht }
    · exact { hm with
        startLine := hof _ ht
        method := hof _ (ht.substr _ _)
        requestUri := hof _ (ht.substr _ _).trim }

/-- and so are those of a header line. -/
theorem AllViews.parseHeaderLine {m : HmrSipMsg} (hm : m.AllViews P) {line : StringView}
    (hl : line.Within raw) : (m.parseHeaderLine line).AllViews P := by
  unfold HmrSipMsg.parseHeaderLine
  split
  · exact hm
  · rename_i c _
    unfold push
    dsimp only
    split
    · refine { hm with headers := fun h hh => ?_ }
      rcases List.mem_append.mp hh with hh | hh
      · exact hm.headers h hh
      · rw [List.mem_singleton.mp hh]
        exact ⟨hof _ (hl.substr _ _).trim, hof _ (hl.substrFrom _).trim⟩
    · exact hm

/-- The line loop only adds sub-views of the packet. -/
theorem AllViews.parseLines (fuel : Nat) (pos : Nat) (first : Bool) {m : HmrSipMsg}
    (hm : m.AllViews P) :
    (HmrSipMsg.parseLines ⟨.addr .raw 0, raw⟩ fuel pos first m).AllViews P := by
  refine parseLines_invariant (fun m line _ _ hn h => ?_) (fun m pos' h => ?_) fuel pos
    (fun _ m line _ _ hn h => ?_) hm
  · exact h.parseHeaderLine hof (within_of_nextLine hn)
  · exact { h with body := hof _ ((StringView.Within.self raw).substrFrom pos') }
  · exact h.parseFirst hof (within_of_nextLine hn).trim

end

/-- **Every view of a parsed message reads what it shows.** -/
theorem parse_reads (raw : Bytes) (a : HmrArena) :
    (parse raw).AllViews (HmrStr.Reads raw a) :=
  AllViews.parseLines (fun _ hv => hv.reads a) _ _ _
    { headers := fun _ hh => (nomatch hh)
      startLine := HmrStr.reads_empty raw a
      method := HmrStr.reads_empty raw a
      requestUri := HmrStr.reads_empty raw a
      reasonPhrase := HmrStr.reads_empty raw a
      body := HmrStr.reads_empty raw a
      modRequestUri := HmrStr.reads_empty raw a }

/-! ## Histories of writes -/

/-- The live headers as memory has them. -/
def fetched (raw : Bytes) (a : HmrArena) (m : HmrSipMsg) : HeaderList :=
  Tombstone.live Header.removed (fun h => h.name.fetch raw a)
    (fun h => h.value.fetch raw a) m.headers

/-- **Every entry of the table reads its text.** -/
def HeadersRead (raw : Bytes) (a : HmrArena) (m : HmrSipMsg) : Prop :=
  ∀ h ∈ m.headers, h.name.Reads raw a ∧ h.value.Reads raw a

/-- Then what memory has are the live headers. -/
theorem HeadersRead.fetched_eq {raw : Bytes} {a : HmrArena} {m : HmrSipMsg}
    (h : m.HeadersRead raw a) : m.fetched raw a = m.live := by
  refine List.map_congr_left (fun e he => ?_)
  obtain ⟨hn, hv⟩ := h e (List.mem_filter.mp he).1
  exact Prod.ext hn.fetch_eq hv.fetch_eq

/-- The arena may grow: what it has handed out stays as it is. -/
theorem HeadersRead.mono {raw : Bytes} {a b : HmrArena} {m : HmrSipMsg}
    (h : m.HeadersRead raw a) (hle : a.Le b) : m.HeadersRead raw b :=
  fun e he => ⟨(h e he).1.mono hle, (h e he).2.mono hle⟩

/-- An entry that reads its texts may be added, -/
theorem HeadersRead.push {raw : Bytes} {a : HmrArena} {m m' : HmrSipMsg} {e : Header}
    (h : m.HeadersRead raw a) (hn : e.name.Reads raw a) (hv : e.value.Reads raw a)
    (hm : m.push e = some m') : m'.HeadersRead raw a := by
  obtain ⟨hle, rfl⟩ := eq_of_push hm
  intro x hx
  rcases List.mem_append.mp hx with hx | hx
  · exact h x hx
  · rw [List.mem_singleton.mp hx]
    exact ⟨hn, hv⟩

/-- and a value that does may be put in the place of another. -/
theorem HeadersRead.setValue {raw : Bytes} {a : HmrArena} {m : HmrSipMsg} {v : HmrStr}
    (h : m.HeadersRead raw a) (hv : v.Reads raw a) (i : Nat) :
    (m.setValue i v).HeadersRead raw a := by
  intro x hx
  obtain ⟨j, hj, rfl⟩ := List.getElem_of_mem hx
  have hj' : j < m.headers.length := by
    simpa [HmrSipMsg.setValue] using hj
  have hm := h m.headers[j] (List.getElem_mem hj')
  simp only [HmrSipMsg.setValue, List.getElem_modify]
  by_cases hij : i = j
  · rw [if_pos hij]
    exact ⟨hm.1, hv⟩
  · rw [if_neg hij]
    exact hm

end HmrSipMsg

namespace HmrArena.Copies

variable {a a' : HmrArena} {s d : HmrStr}

/-- Copying makes the arena grow, -/
theorem le (h : a.Copies s d a') : a.Le a' := by
  have := a.le_dup s.sv
  rwa [h.eq] at this

theorem reads (h : a.Copies s d a') (raw : Bytes) : d.Reads raw a' := by
  have := HmrStr.reads_dup raw a s.sv
  rwa [h.eq] at this

end HmrArena.Copies

/-- A write to the header table, with names and values that fit an `HmrStr`: fewer than
`2 ^ 32` bytes, which is what the runtime calls take. -/
inductive HeaderOp
  | set (name value : HmrStr)
  | add (name value : HmrStr)
  | delete (name : HmrStr)

/-- What a write does to a message and its arena, and what it returns. -/
def HeaderOp.run (op : HeaderOp) (s : HmrSipMsg × HmrArena) :
    Bool × HmrSipMsg × HmrArena :=
  match op with
  | .set name value => s.1.setHeader s.2 name.sv value.sv
  | .add name value => s.1.addHeader s.2 name.sv value.sv
  | .delete name => ((s.1.deleteHeader name.text).1, (s.1.deleteHeader name.text).2, s.2)

/-- The message and the arena after a history of writes. -/
def HeaderOp.runAll (ops : List HeaderOp) (s : HmrSipMsg × HmrArena) :
    HmrSipMsg × HmrArena :=
  ops.foldl (fun s op => (op.run s).2) s

namespace HmrSipMsg

variable {raw : Bytes} {m : HmrSipMsg} {a : HmrArena}

/-- `add_header` adds an entry of two copies, or leaves the table alone. -/
theorem HeadersRead.addHeader (h : m.HeadersRead raw a) (name value : HmrStr) :
    (m.addHeader a name.sv value.sv).2.1.HeadersRead raw
      (m.addHeader a name.sv value.sv).2.2 := by
  obtain ⟨-, heq⟩ | ⟨-, -, heq⟩ | ⟨dn, a₁, hn, -, -, heq⟩ |
    ⟨dn, a₁, dv, a₂, m', hn, hv, -, hm', heq⟩ := m.addHeader_cases a name value
  · rw [heq]
    exact h
  · rw [heq]
    exact h
  · rw [heq]
    exact h.mono hn.le
  · rw [heq]
    exact (h.mono (hn.le.trans hv.le)).push ((hn.reads raw).mono hv.le) (hv.reads raw) hm'

/-- **A write leaves every entry reading its text.** -/
theorem HeadersRead.run (h : m.HeadersRead raw a) (op : HeaderOp) :
    (op.run (m, a)).2.1.HeadersRead raw (op.run (m, a)).2.2 := by
  cases op with
  | set name value =>
    show (m.setHeader a name.sv value.sv).2.1.HeadersRead raw
      (m.setHeader a name.sv value.sv).2.2
    obtain ⟨-, heq⟩ | ⟨dv, a₁, i, hv, -, heq⟩ | ⟨dv, a₁, hv, -, heq⟩ :=
      m.setHeader_cases a name value
    · rw [heq]
      exact h
    · rw [heq]
      exact (h.mono hv.le).setValue (hv.reads raw) i
    · rw [heq]
      exact (h.mono hv.le).addHeader name value
  | add name value => exact h.addHeader name value
  | delete name =>
    intro x hx
    obtain ⟨y, hy, rfl⟩ := List.mem_map.mp hx
    have := h y hy
    split
    · exact this
    · exact this

/-- The same, with the result of the write given names. -/
theorem HeadersRead.of_run (h : m.HeadersRead raw a) (op : HeaderOp) {b : Bool}
    {m' : HmrSipMsg} {a' : HmrArena} (heq : op.run (m, a) = (b, m', a')) :
    m'.HeadersRead raw a' := by
  have := h.run op
  rwa [heq] at this

/-- **So does a history of writes.** -/
theorem HeadersRead.runAll (ops : List HeaderOp) (s : HmrSipMsg × HmrArena)
    (h : s.1.HeadersRead raw s.2) :
    (HeaderOp.runAll ops s).1.HeadersRead raw (HeaderOp.runAll ops s).2 := by
  induction ops generalizing s with
  | nil => exact h
  | cons op ops ih => exact ih _ (h.run op)

/-- **The message is the header list that memory holds**: lookups read that
list, writes change it as an association list is changed or leave it alone,
and `serialize` puts it out in order. -/
structure IsHeaderList (raw : Bytes) (m : HmrSipMsg) (a : HmrArena) : Prop where
  get_header : ∀ name : HmrStr,
    (m.getHeader name.text).fetch raw a
      = (Assoc.get? iequals (m.fetched raw a) name.text).getD []
  set_header : ∀ (name value : HmrStr) m' a',
    m.setHeader a name.sv value.sv = (true, m', a') →
      m'.fetched raw a' = Assoc.set iequals (m.fetched raw a) name.text value.text
  add_header : ∀ (name value : HmrStr) m' a',
    m.addHeader a name.sv value.sv = (true, m', a') →
      m'.fetched raw a' = Assoc.add (m.fetched raw a) name.text value.text
  delete_header : ∀ name : HmrStr,
    (m.deleteHeader name.text).2.fetched raw a
        = Assoc.delete iequals (m.fetched raw a) name.text
      ∧ (m.deleteHeader name.text).1 = Assoc.has iequals (m.fetched raw a) name.text
  refused : ∀ (op : HeaderOp) m' a', op.run (m, a) = (false, m', a') →
    m'.fetched raw a' = m.fetched raw a
  num_headers : m.headers.length ≤ hmrMaxHeaders
  serialize : ∀ out a', m.serialize a = (out, a') → out.present = true →
    out.fetch raw a' = m.firstLine.flatten ++ crlf
      ++ (m.fetched raw a).flatMap renderHeader ++ crlf ++ m.body.text

/-- An entry found reads its value. -/
theorem HeadersRead.getHeader (h : m.HeadersRead raw a) (name : Bytes) :
    (m.getHeader name).Reads raw a := by
  unfold HmrSipMsg.getHeader
  split
  · exact HmrStr.reads_empty raw a
  · rename_i i _
    cases hi : m.headers[i]? with
    | none => exact HmrStr.reads_empty raw a
    | some e => exact (h e (List.mem_of_getElem? hi)).2

/-- Where every entry reads its text, the message is the list. What memory has is then what the
texts say (`HeadersRead.fetched_eq`), before an operation and after it, as long as the operation
keeps the entries readable (`HeadersRead.run`); so each law about memory is the law of the store
about texts (`HeaderStore.set_spec`, `add_spec`), and a failed operation is the other case of the
same law. -/
theorem HeadersRead.isHeaderList (h : m.HeadersRead raw a) : m.IsHeaderList raw a where
  -- What is in memory is what the texts say, so each law is one of the store.
  get_header name := by
    rw [(h.getHeader name.text).fetch_eq, h.fetched_eq, m.getHeader_text a]
    rfl
  set_header name value m' a' heq := by
    have hread : m'.HeadersRead raw a' := h.of_run (.set name value) heq
    have hst := m.storeOf_setHeader a name value
    rw [heq] at hst
    obtain ⟨-, hlive⟩ | ⟨hf, -⟩ := (m.storeOf a).set_spec name.text value.text
    · rw [hread.fetched_eq, h.fetched_eq]
      exact (congrArg (fun r => r.2.live) hst).trans hlive
    · rw [← hst] at hf
      cases hf
  add_header name value m' a' heq := by
    have hread : m'.HeadersRead raw a' := h.of_run (.add name value) heq
    have hst := m.storeOf_addHeader a name value
    rw [heq] at hst
    obtain ⟨-, hlive⟩ | ⟨hf, -⟩ := (m.storeOf a).add_spec name.text value.text
    · rw [hread.fetched_eq, h.fetched_eq]
      exact (congrArg (fun r => r.2.live) hst).trans hlive
    · rw [← hst] at hf
      cases hf
  delete_header name := by
    have hread : (m.deleteHeader name.text).2.HeadersRead raw a := h.run (.delete name)
    have hst := m.storeOf_deleteHeader a name.text
    rw [hread.fetched_eq, h.fetched_eq]
    exact ⟨congrArg (fun r => r.2.live) hst, congrArg Prod.fst hst⟩
  refused op m' a' heq := by
    have hread : m'.HeadersRead raw a' := h.of_run op heq
    rw [hread.fetched_eq, h.fetched_eq]
    cases op with
    | set name value =>
      have hst := m.storeOf_setHeader a name value
      rw [show m.setHeader a name.sv value.sv = (false, m', a') from heq] at hst
      obtain ⟨ht, -⟩ | ⟨-, hlive⟩ := (m.storeOf a).set_spec name.text value.text
      · rw [← hst] at ht
        cases ht
      · exact (congrArg (fun r => r.2.live) hst).trans hlive
    | add name value =>
      have hst := m.storeOf_addHeader a name value
      rw [show m.addHeader a name.sv value.sv = (false, m', a') from heq] at hst
      obtain ⟨ht, -⟩ | ⟨-, hlive⟩ := (m.storeOf a).add_spec name.text value.text
      · rw [← hst] at ht
        cases ht
      · exact (congrArg (fun r => r.2.live) hst).trans hlive
    | delete name =>
      have hst := m.storeOf_deleteHeader a name.text
      obtain ⟨hf, hm'⟩ := Prod.mk.inj heq
      obtain ⟨rfl, -⟩ := Prod.mk.inj hm'
      have hhas : Assoc.has iequals m.live name.text = false :=
        (congrArg Prod.fst hst).symm.trans hf
      refine (congrArg (fun r => r.2.live) hst).trans ?_
      refine List.filter_eq_self.mpr (fun p hp => ?_)
      rw [Assoc.has, List.any_eq_false] at hhas
      simpa using hhas p hp
  num_headers := m.headers_le
  serialize out a' heq hp := by
    obtain ⟨-, ⟨-, htext, -, hreads⟩ | ⟨-, hempty⟩⟩ := m.serialize_spec a
    · rw [heq] at htext hreads
      rw [(hreads raw).fetch_eq, h.fetched_eq, htext, m.rendered_eq]
    · rw [heq] at hempty
      rw [show out = HmrStr.empty from hempty] at hp
      cases hp

/-- **A parsed message, after any history of writes, is the header list that
memory holds.** -/
theorem header_store_refinement (raw : Bytes) (a₀ : HmrArena) (ops : List HeaderOp) :
    (HeaderOp.runAll ops (parse raw, a₀)).1.IsHeaderList raw
      (HeaderOp.runAll ops (parse raw, a₀)).2 :=
  (HeadersRead.runAll ops (parse raw, a₀) (parse_reads raw a₀).headers).isHeaderList

/-- **A name of four gibibytes is not stored**: the length of what `dup` returns has 32
bits, so the header that is added, with success, has the empty name. -/
theorem not_header_store_refinement :
    ¬ ∀ (raw : Bytes) (a : HmrArena) (name value : StringView) m' a',
      (parse raw).addHeader a name value = (true, m', a') →
        m'.fetched raw a' = Assoc.add ((parse raw).fetched raw a) name.text value.text := by
  intro h
  obtain ⟨s, hlen⟩ : ∃ s : Bytes, s.length = 2 ^ 32 :=
    ⟨List.replicate (2 ^ 32) 97, List.length_replicate⟩
  -- The name is cut to nothing, and nothing is copied.
  have hdup : HmrArena.dup .fresh (.ofBytes s) = (⟨.addr .ext 0, [], by decide⟩, .fresh) := by
    have hclip : clip s = [] := by rw [clip, hlen, Nat.mod_self, List.take_zero]
    unfold HmrArena.dup
    dsimp only [StringView.ofBytes]
    simp only [hclip, List.length_nil, if_true]
  have hadd : (parse []).addHeader .fresh (.ofBytes s) {}
      = (true, { parse [] with
          headers := [⟨⟨.addr .ext 0, [], by decide⟩, HmrStr.empty, false⟩]
          headers_le := by decide }, .fresh) := by
    unfold addHeader
    rw [hdup]
    rfl
  have hlost := h [] .fresh (.ofBytes s) {} _ _ hadd
  have hname : ([] : Bytes) = s := congrArg (fun l => (l.getLast?.map Prod.fst).getD []) hlost
  rw [← hname] at hlen
  cases hlen

end HmrSipMsg

end Hmr
