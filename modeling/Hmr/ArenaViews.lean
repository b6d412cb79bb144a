import Hmr.HeaderMemory
import Hmr.Placement
import Hmr.UriSplice

/-!
# Views stay valid

`dup`, `rebuild_uri` and `serialize` are modelled by the texts they put into the arena.
The code copies *memory*: it reads a view where it points, at the moment it copies it, and
that may be the very arena it is writing to. Here the three are taken once more, byte for
byte (`Memory.dup`, `Memory.rebuildUri`, `Memory.serialize`), and so is `alloc`; a copy
that would leave the buffer has no result, for behind the buffer stands `used`.

Every call writes from `used` on, so what has been handed out keeps its bytes, whatever is
read and wherever a call gives up (`Memory.KeepsViews`). What can go wrong is the 32-bit
length of a rebuilt URI (`Memory.Call.Fits`): where the text is longer, less is allocated
than is copied.

## Copies

A copy that fits in what has been allocated has a result, and what is written is what the
view read before it, since the view lies in front of what is written. A copy that does not
fit may still have a result, if it stays in the buffer; then it has written where the next
call will allocate, and no view points there yet. Only at the end of the buffer there is
none, and a call that has copied more than `2 ^ 32` bytes has got there.

## Runs

A list of calls is run from any arena, with views that read what they show. The result is
that of the texts (`Memory.viewsStayValid_iff`), call by call, and all views that were
handed out, and those that were there, read what they did.
-/

namespace Hmr

/-! ## Reading memory -/

namespace HmrArena

/-- A part of what stands somewhere stands there, too. -/
theorem read_part {a : HmrArena} {off : Nat} {x y z : Bytes}
    (h : a.read off (x ++ y ++ z).length = x ++ y ++ z) :
    a.read (off + x.length) y.length = y := by
  rw [List.length_append, List.length_append, read_add, read_add] at h
  have hxy := (List.append_inj h (by simp)).1
  exact (List.append_inj hxy (by simp)).2

end HmrArena

namespace StringView

/-- The bytes at the address of the view. -/
def fetch (raw : Bytes) (a : HmrArena) (v : StringView) : Bytes :=
  match v.data with
  | .null => []
  | .addr .raw off => (raw.drop off).take v.text.length
  | .addr .arena off => a.read off v.text.length
  | .addr .ext _ => v.text

/-- **The view reads its text**, from what is handed out. -/
structure Reads (raw : Bytes) (a : HmrArena) (v : StringView) : Prop where
  inUsed : ∀ off, v.data = .addr .arena off → v.text = [] ∨ off + v.text.length ≤ a.used
  fetch_eq : v.fetch raw a = v.text

variable {raw : Bytes} {a b : HmrArena} {v : StringView}

/-- An empty view reads nothing. -/
theorem reads_of_nil (h : v.text = []) : v.Reads raw a := by
  refine ⟨fun _ _ => Or.inl h, ?_⟩
  unfold fetch
  rw [h]
  split <;> rfl

/-- A view of memory of the caller reads its text. -/
theorem reads_ofBytes (s : Bytes) : (ofBytes s).Reads raw a :=
  ⟨fun _ hd => Ptr.noConfusion hd fun h => Region.noConfusion h, rfl⟩

/-- A view into the arena reads the same as the arena grows. -/
theorem Reads.mono (hv : v.Reads raw a) (h : a.Le b) : v.Reads raw b := by
  by_cases hnil : v.text = []
  · exact reads_of_nil hnil
  · have hin : ∀ off, v.data = .addr .arena off → off + v.text.length ≤ a.used :=
      fun off hd => (hv.inUsed off hd).resolve_left hnil
    refine ⟨fun off hd => Or.inr ((hin off hd).trans h.1), ?_⟩
    rw [← hv.fetch_eq]
    unfold fetch
    split
    · rfl
    · rfl
    · rename_i off hd
      exact h.read (hin off hd)
    · rfl

/-- **A part of a view that reads its text** reads its own. A view that shows nothing reads it
anywhere, so there is something left to show, and the view is not null. In the packet the part is
a prefix of what stands behind its start. In the arena it lies between what is in front of it and
what is behind it, all of which is read, and below what is handed out. -/
theorem Reads.substr (hv : v.Reads raw a) (pos n : Nat) : (v.substr pos n).Reads raw a := by
  obtain ⟨d, t⟩ := v
  by_cases hnil : ((t.drop pos).take n) = []
  · exact reads_of_nil hnil
  have hpos : pos < t.length := by
    by_contra hle
    rw [List.drop_eq_nil_of_le (Nat.le_of_not_lt hle), List.take_nil] at hnil
    exact hnil rfl
  have ht : t ≠ [] := fun h => by
    rw [h] at hpos
    exact Nat.not_lt_zero _ hpos
  have hlen : ((t.drop pos).take n).length ≤ t.length - pos := by
    rw [List.length_take, List.length_drop]
    exact Nat.min_le_right _ _
  -- By the place: a null view shows nothing, and elsewhere a part of what is read is read.
  cases d with
  | null =>
    have : [] = t := hv.fetch_eq
    exact absurd this.symm ht
  | addr r off =>
    refine ⟨fun off' hd => Or.inr ?_, ?_⟩
    · obtain ⟨rfl, rfl⟩ : r = .arena ∧ off + pos = off' := by
        have h : Ptr.addr r (off + pos) = .addr .arena off' := hd
        exact ⟨(Ptr.addr.inj h).1, (Ptr.addr.inj h).2⟩
      have hin : off + t.length ≤ a.used := (hv.inUsed off rfl).resolve_left ht
      show off + pos + ((t.drop pos).take n).length ≤ a.used
      omega
    · cases r with
      | raw =>
        have hfront : t <+: raw.drop off := List.prefix_iff_eq_take.mpr (Eq.symm hv.fetch_eq)
        have hpart : (t.drop pos).take n <+: raw.drop (off + pos) := by
          rw [← List.drop_drop]
          exact (List.take_prefix _ _).trans (hfront.drop pos)
        exact (List.prefix_iff_eq_take.mp hpart).symm
      | arena =>
        have hparts : t.take pos ++ (t.drop pos).take n ++ (t.drop pos).drop n = t := by
          rw [List.append_assoc, List.take_append_drop, List.take_append_drop]
        have hread : a.read (off + (t.take pos).length) ((t.drop pos).take n).length
            = (t.drop pos).take n := by
          refine HmrArena.read_part (z := (t.drop pos).drop n) ?_
          rw [hparts]
          exact hv.fetch_eq
        rwa [List.length_take, Nat.min_eq_left hpos.le] at hread
      | ext => rfl

/-- A part of a view reads a part of its text. -/
theorem Reads.substrFrom (hv : v.Reads raw a) (pos : Nat) : (v.substrFrom pos).Reads raw a := by
  have h := hv.substr pos (v.text.length - pos)
  rwa [StringView.substr, ← List.length_drop, List.take_length] at h

/-- Cut to 32 bits, a view still reads its text. -/
theorem Reads.clip (hv : v.Reads raw a) : Reads raw a ⟨v.data, Hmr.clip v.text⟩ := by
  have h := hv.substr 0 (v.text.length % 2 ^ 32)
  rwa [StringView.substr, Ptr.add_zero, List.drop_zero] at h

end StringView

/-- A view reads its text as a `std::string_view`, too. -/
theorem HmrStr.Reads.sv {raw : Bytes} {a : HmrArena} {s : HmrStr} (h : s.Reads raw a) :
    s.sv.Reads raw a := by
  by_cases hnull : s.data = .null
  · refine StringView.reads_of_nil ?_
    have hfetch := h.fetch_eq
    unfold HmrStr.fetch at hfetch
    rw [hnull] at hfetch
    exact hfetch.symm
  · have hview : s.sv = ⟨s.data, s.text⟩ := by
      unfold HmrStr.sv
      rw [if_neg hnull]
    rw [hview]
    exact ⟨h.inUsed, h.fetch_eq⟩

namespace HmrArena

/-- `memcpy` of a view to `dst`. Behind the buffer stands `used`: of an arena that is
written there, nothing can be said. -/
def copy (raw : Bytes) (a : HmrArena) (dst : Nat) (v : StringView) : Option HmrArena :=
  if dst + v.text.length ≤ kCapacity then some (a.write dst (v.fetch raw a)) else none

/-- `HmrStr{p, n}`: the view shows what stands there. -/
def handedOut (a : HmrArena) (p n : Nat) : HmrStr := .of ⟨.addr .arena p, a.read p n⟩

end HmrArena

namespace Memory

open Uri (spliceOf elementOf)

/-! ## The calls, byte for byte -/

section
variable (raw : Bytes)

/-- `HmrArena::dup`. -/
def dup (a : HmrArena) (v : StringView) : Option (HmrStr × HmrArena) :=
  let s : StringView := ⟨v.data, clip v.text⟩
  if s.text.length = 0 then some (⟨v.data, [], length_nil_lt⟩, a)
  else match a.alloc s.text.length with
    | none => some (HmrStr.empty, a)
    | some (p, a') => (a'.copy raw p s).map fun b => (b.handedOut p s.text.length, b)

/-- `put`, of `rebuild_uri`: copy a view to where the pointer is, and move the pointer
behind it. -/
def copyTo (v : StringView) (out : Nat × HmrArena) : Option (Nat × HmrArena) :=
  if v.text.isEmpty then some out
  else (out.2.copy raw out.1 v).map fun b => (out.1 + v.text.length, b)

/-- Views copied one behind the other. -/
def copyAll (vs : List StringView) (out : Nat × HmrArena) : Option (Nat × HmrArena) :=
  vs.foldlM (fun out v => copyTo raw v out) out

/-- `rebuild_uri`. As much as is allocated is a 32-bit number; what is copied is not. -/
def rebuildUri (a : HmrArena) (value : StringView) (element : HmrUriElement)
    (nv : StringView) : Option (HmrStr × HmrArena) :=
  match spliceOf value element with
  | none => dup raw a value
  | some p =>
    let total := p.total value.text nv.text
    match a.alloc total with
    | none => some (HmrStr.empty, a)
    | some (dst, a') => do
      let front ← value.substr? 0 p.start
      let back ← value.substrFrom? p.stop
      let out ← copyAll raw [front, .ofBytes p.pre, nv, .ofBytes p.post, back] (dst, a')
      some (out.2.handedOut dst total, out.2)

/-- `put`, of `serialize`. -/
def put (v : StringView) (out : Bool × HmrArena) : Option (Bool × HmrArena) :=
  if !out.1 || v.text.isEmpty then some out
  else match out.2.alloc (clip v.text).length with
    | none => some (false, out.2)
    | some (p, a) => (a.copy raw p v).map fun b => (true, b)

/-- Views put out one after the other. -/
def putAll (vs : List StringView) (out : Bool × HmrArena) : Option (Bool × HmrArena) :=
  vs.foldlM (fun out v => put raw v out) out

end

/-- The views of the first line. Where the request-URI has been set, the offset of the old
one in the start line is the difference of two pointers, which has to be one. -/
def firstLine (m : HmrSipMsg) : Option (List StringView) :=
  if m.isRequest && m.modRequestUri.present && m.requestUri.present then
    let off := m.requestUri.data.sub m.startLine.data
    if m.requestUri.data = m.startLine.data.add off then do
      let front ← m.startLine.sv.substr? 0 off
      let back ← m.startLine.sv.substrFrom? (off + m.requestUri.text.length)
      some [front, m.modRequestUri.sv, back]
    else none
  else some [m.startLine.sv]

/-- The views `serialize` puts out behind the first line. -/
def rest (m : HmrSipMsg) : List StringView :=
  [.ofBytes crlf]
    ++ (m.headers.filter (!·.removed)).flatMap
        (fun h => [h.name.sv, .ofBytes (txt ": "), h.value.sv, .ofBytes crlf])
    ++ [.ofBytes crlf, m.body.sv]

/-- `HmrSipMsg::serialize`. -/
def serialize (raw : Bytes) (m : HmrSipMsg) (a : HmrArena) : Option (HmrStr × HmrArena) := do
  let first ← firstLine m
  let out ← putAll raw (first ++ rest m) (true, a)
  some (if out.1 then out.2.handedOut a.used (out.2.used - a.used) else HmrStr.empty, out.2)

/-- **A call on the arena.** -/
inductive Call
  | alloc (n : UInt32)
  | dup (v : StringView)
  | rebuildUri (value : StringView) (code : Nat) (nv : StringView)
  | serialize (m : HmrSipMsg)

/-- What a call returns, and the arena it leaves. -/
def Call.perform (raw : Bytes) (a : HmrArena) : Call → Option (HmrStr × HmrArena)
  | .alloc n => some (match a.alloc n.toNat with
    | none => (HmrStr.empty, a)
    | some (p, b) => (b.handedOut p n.toNat, b))
  | .dup v => Memory.dup raw a v
  | .rebuildUri value code nv => Memory.rebuildUri raw a value (elementOf code) nv
  | .serialize m => Memory.serialize raw m a

/-- **A run**: one call after the other, on one arena. -/
def run (raw : Bytes) : List Call → HmrArena → Option (List HmrStr × HmrArena)
  | [], a => some ([], a)
  | c :: cs, a => do
    let (r, b) ← c.perform raw a
    let (rs, b') ← run raw cs b
    some (r :: rs, b')

/-! ## What is to hold -/

/-- The region has the byte of the buffer at `i`. -/
def Holds (s : HmrStr) (i : Nat) : Prop :=
  ∃ off, s.data = .addr .arena off ∧ off ≤ i ∧ i < off + s.text.length

/-- The region lies in the part of the buffer from `lo` up to `hi`. -/
def Between (s : HmrStr) (lo hi : Nat) : Prop :=
  ∃ off, s.data = .addr .arena off ∧ lo ≤ off ∧ off + s.text.length ≤ hi

/-- **`serialize` returned all of the message, or null**: null exactly if the rendered
message is longer than the space that was left, and else a view of the rendered message at
the front of that space, one piece behind the other. -/
structure SerializesWhole (m : HmrSipMsg) (a : HmrArena) (r : HmrStr) (b : HmrArena) :
    Prop where
  null : r.data = .null ↔ a.remaining < m.rendered.length
  whole : r.data ≠ .null → r.data = .addr .arena a.used ∧ r.text = m.rendered
    ∧ b.read a.used m.rendered.length = m.rendered
  contiguous : r.data ≠ .null → ∀ ps p qs, m.pieces = ps ++ p :: qs →
    b.read (a.used + ps.flatten.length) p.length = p

/-- **A call keeps the views** that have been handed out before, `rs`. What it returns in
the arena `b` is null or a new region of the buffer – or, `dup` of an empty view, that
view, which is handed back and not handed out. -/
structure KeepsViews (raw : Bytes) (rs : List HmrStr) (a : HmrArena) (c : Call) (r : HmrStr)
    (b : HmrArena) : Prop where
  used : a.used ≤ b.used ∧ b.used ≤ kCapacity
  inside : r.data ≠ .null → Between r 0 kCapacity
    ∨ ∃ v, c = .dup v ∧ clip v.text = [] ∧ r = ⟨v.data, [], length_nil_lt⟩
  disjoint : ∀ s ∈ rs, ∀ i, ¬ (Holds s i ∧ Holds r i)
  unchanged : ∀ s ∈ rs, ∀ i, Holds s i → b.buffer i = a.buffer i
  serialize : ∀ m, c = .serialize m → m.AllViews (HmrStr.Reads raw a) →
    SerializesWhole m a r b

/-- **In the run from `a`, every call returns and keeps the views.** -/
def ViewsStayValid (raw : Bytes) (a : HmrArena) (cs : List Call) : Prop :=
  ∀ before c after rs b, cs = before ++ c :: after → run raw before a = some (rs, b) →
    ∃ r b', c.perform raw b = some (r, b') ∧ KeepsViews raw rs b c r b'

/-- Where the request-URI is to be spliced out, it is in the start line. -/
def UriInLine (m : HmrSipMsg) : Prop :=
  m.isRequest = true → m.modRequestUri.present = true → m.requestUri.present = true →
    ∃ lo, m.requestUri.data = m.startLine.data.add lo
      ∧ lo + m.requestUri.text.length ≤ m.startLine.text.length

/-- **The call fits the arena**: a rebuilt URI is shorter than `2 ^ 32` bytes, or its length
modulo `2 ^ 32` is more than there is room for; a message has its request-URI in its start
line. -/
def Call.Fits (a : HmrArena) : Call → Prop
  | .alloc _ => True
  | .dup _ => True
  | .rebuildUri value code nv => ∀ p, spliceOf value (elementOf code) = some p →
    (p.apply value.text nv.text).length < 2 ^ 32
      ∨ a.remaining < (p.apply value.text nv.text).length % 2 ^ 32
  | .serialize m => UriInLine m

/-! ## Copies into what has been allocated -/

section
variable {raw : Bytes} {a b a₀ : HmrArena} {v : StringView} {vs : List StringView} {dst : Nat}

/-- A copy in the buffer. -/
theorem copy_of_le (h : dst + v.text.length ≤ kCapacity) :
    a.copy raw dst v = some (a.write dst (v.fetch raw a)) := if_pos h

/-- One that leaves it. -/
theorem copy_of_lt (h : kCapacity < dst + v.text.length) : a.copy raw dst v = none :=
  if_neg (Nat.not_le_of_lt h)

/-- A write leaves what stands in front of it. -/
theorem write_buffer_of_lt (a : HmrArena) (s : Bytes) {i : Nat} (h : i < dst) :
    (a.write dst s).buffer i = a.buffer i := if_neg (by omega)

/-- A write behind what was handed out gives a later arena. -/
theorem le_write (hle : a₀.Le a) (hdst : a₀.used ≤ dst) (s : Bytes) :
    a₀.Le (a.write dst s) :=
  ⟨hle.1, fun i hi => (write_buffer_of_lt a s (hi.trans_le hdst)).trans (hle.2 i hi)⟩

/-- A copy to a place that moves behind it. -/
theorem copyTo_of_le (h : dst + v.text.length ≤ kCapacity) :
    copyTo raw v (dst, a) = some (dst + v.text.length, a.write dst (v.fetch raw a)) := by
  unfold copyTo
  split
  · rename_i hnil
    have htext := List.isEmpty_iff.mp hnil
    rw [(StringView.reads_of_nil htext).fetch_eq, htext, HmrArena.write_nil]
    rfl
  · rw [copy_of_le h]
    rfl

/-- One that leaves the buffer. -/
theorem copyTo_of_lt (hdst : dst ≤ kCapacity) (h : kCapacity < dst + v.text.length) :
    copyTo raw v (dst, a) = none := by
  unfold copyTo
  split
  · rename_i hnil
    rw [List.isEmpty_iff.mp hnil] at h
    exact absurd h (Nat.not_lt_of_le hdst)
  · rw [copy_of_lt h]
    rfl

/-- One copy, and the others. -/
@[simp] theorem copyAll_cons (v : StringView) (vs : List StringView) (out : Nat × HmrArena) :
    copyAll raw (v :: vs) out = (copyTo raw v out).bind (copyAll raw vs) := rfl

/-- **Copies, one behind the other,** stay in the buffer if their lengths do; then what
stands in front of them is as it was. -/
theorem copyAll_cases (raw : Bytes) (vs : List StringView) (a : HmrArena)
    (hdst : dst ≤ kCapacity) :
    (dst + (vs.flatMap (·.text)).length ≤ kCapacity ∧ ∃ b,
        copyAll raw vs (dst, a) = some (dst + (vs.flatMap (·.text)).length, b)
          ∧ b.used = a.used ∧ ∀ i < dst, b.buffer i = a.buffer i)
      ∨ (kCapacity < dst + (vs.flatMap (·.text)).length ∧ copyAll raw vs (dst, a) = none) := by
  induction vs generalizing dst a with
  | nil => exact Or.inl ⟨hdst, a, rfl, rfl, fun _ _ => rfl⟩
  | cons v vs ih =>
    rw [List.flatMap_cons, List.length_append, ← Nat.add_assoc, copyAll_cons]
    rcases Nat.lt_or_ge kCapacity (dst + v.text.length) with hlt | hle
    · rw [copyTo_of_lt hdst hlt]
      exact Or.inr ⟨by omega, rfl⟩
    · rw [copyTo_of_le hle, Option.bind_some]
      obtain ⟨hfit, b, hb, hused, hsame⟩ | hno := ih (a.write dst (v.fetch raw a)) hle
      · refine Or.inl ⟨hfit, b, hb, hused, fun i hi => ?_⟩
        rw [hsame i (by omega), write_buffer_of_lt a _ hi]
      · exact Or.inr hno

/-- **Copies of views that read their texts** from what was handed out before are the
texts. -/
theorem copyAll_eq (hreads : ∀ v ∈ vs, v.Reads raw a₀) (hle : a₀.Le a) (hdst : a₀.used ≤ dst)
    (hfit : dst + (vs.flatMap (·.text)).length ≤ kCapacity) :
    copyAll raw vs (dst, a)
      = some (dst + (vs.flatMap (·.text)).length, a.write dst (vs.flatMap (·.text))) := by
  induction vs generalizing dst a with
  | nil =>
    rw [List.flatMap_nil, HmrArena.write_nil]
    rfl
  | cons v vs ih =>
    rw [List.flatMap_cons, List.length_append, ← Nat.add_assoc] at hfit ⊢
    have hfetch := ((hreads v List.mem_cons_self).mono hle).fetch_eq
    rw [copyAll_cons, copyTo_of_le (by omega), Option.bind_some, hfetch,
      ih (fun w hw => hreads w (List.mem_cons_of_mem _ hw)) (le_write hle hdst _)
        (by omega) hfit, HmrArena.write_append]

/-! ## What `dup` does -/

/-- What is handed out between two places. -/
theorem between_handedOut {p n lo hi : Nat} (hlo : lo ≤ p) (hhi : p + n ≤ hi) :
    Between (b.handedOut p n) lo hi := by
  refine ⟨p, rfl, hlo, ?_⟩
  have hlen : (clip (b.read p n)).length ≤ n := by
    have h := (clip_isPrefix (b.read p n)).length_le
    rwa [HmrArena.read_length] at h
  exact (Nat.add_le_add_left hlen p).trans hhi

/-- What stands there is what is shown. -/
theorem handedOut_eq {p : Nat} {s : Bytes} (hs : s.length < 2 ^ 32)
    (h : b.read p s.length = s) : b.handedOut p s.length = ⟨.addr .arena p, s, hs⟩ := by
  unfold HmrArena.handedOut HmrStr.of
  simp only [h, clip_of_lt hs]

/-- **`dup`** returns null, a new region or, where the view is empty, the view. -/
theorem dup_cases (raw : Bytes) (a : HmrArena) (v : StringView) :
    ∃ r b, dup raw a v = some (r, b) ∧ a.Le b
      ∧ (r.data ≠ .null → Between r a.used b.used
        ∨ (clip v.text = [] ∧ r = ⟨v.data, [], length_nil_lt⟩)) := by
  unfold dup
  dsimp only
  split
  · rename_i hnil
    exact ⟨_, _, rfl, .refl a, fun _ => Or.inr ⟨List.length_eq_zero_iff.mp hnil, rfl⟩⟩
  · cases ha : a.alloc (clip v.text).length with
    | none => exact ⟨_, _, rfl, .refl a, fun h => absurd rfl h⟩
    | some pa =>
      obtain ⟨p, a'⟩ := pa
      obtain ⟨rfl, -, hused, hroom⟩ := HmrArena.alloc_eq_some ha
      have hcap := a'.used_le
      dsimp only
      rw [copy_of_le (by dsimp only; omega)]
      exact ⟨_, _, rfl, HmrArena.le_alloc_write ha, fun _ =>
        Or.inl (between_handedOut (Nat.le_refl _) (Nat.le_of_eq hused.symm))⟩

/-- Of a view that reads its text, it is the `dup` of the model. -/
theorem dup_eq (hv : v.Reads raw a) : dup raw a v = some (a.dup v) := by
  unfold dup
  dsimp only
  obtain ⟨hs, h⟩ | ⟨hs, hlt, h⟩ | ⟨hs, hle, a', ha, h⟩ := a.dup_cases v
  · rw [if_pos (List.length_eq_zero_iff.mpr hs), h]
  · rw [if_neg (mt List.length_eq_zero_iff.mp hs), HmrArena.alloc_eq_none_iff.mpr hlt, h]
  · obtain ⟨-, hbuffer, hused, -⟩ := HmrArena.alloc_eq_some ha
    have hcap := a'.used_le
    have hlater : a.Le a' := ⟨by omega, fun i _ => by rw [hbuffer]⟩
    rw [if_neg (mt List.length_eq_zero_iff.mp hs), ha, h]
    dsimp only
    rw [copy_of_le (by dsimp only; omega), (hv.clip.mono hlater).fetch_eq, Option.map_some,
      handedOut_eq (clip_length_lt v.text) (HmrArena.read_write_self _ _ _)]

/-! ## What `rebuild_uri` does -/

/-- What is cut out of a null view is null. -/
theorem parseUri_null (t : Bytes) :
    (Uri.parseUri ⟨.null, t⟩).display.data = .null ∧ (Uri.parseUri ⟨.null, t⟩).user.data = .null
      ∧ (Uri.parseUri ⟨.null, t⟩).host.data = .null
      ∧ (Uri.parseUri ⟨.null, t⟩).port.data = .null := by
  have haddress : (Uri.addressOf ⟨.null, t⟩).1.data = .null
      ∧ (Uri.addressOf ⟨.null, t⟩).2.display.data = .null
      ∧ (Uri.addressOf ⟨.null, t⟩).2.user.data = .null
      ∧ (Uri.addressOf ⟨.null, t⟩).2.port.data = .null := by
    unfold Uri.addressOf
    split
    · exact ⟨rfl, rfl, rfl, rfl⟩
    · refine ⟨rfl, ?_, rfl, rfl⟩
      dsimp only [Uri.unquote]
      split <;> rfl
  unfold Uri.parseUri
  generalize Uri.addressOf ⟨.null, t⟩ = found at haddress
  obtain ⟨⟨d, s⟩, u⟩ := found
  obtain ⟨hd, hdisplay, huser, hport⟩ := haddress
  dsimp only at hd hdisplay huser hport ⊢
  subst hd
  unfold Uri.takeScheme Uri.takeUser Uri.takeTail Uri.takeHostPort
  split <;> split <;> split <;> split <;>
    exact ⟨hdisplay, by first | rfl | exact huser, rfl, by first | rfl | exact hport⟩

/-- **The offsets of a splice** are in order and in the value, and where there is nothing
to splice, the value is null. -/
theorem spliceOf_cases (value : StringView) (element : HmrUriElement) :
    (value.data = .null ∧ spliceOf value element = none)
      ∨ ∃ p, spliceOf value element = some p ∧ p.start ≤ p.stop ∧ p.stop ≤ value.text.length := by
  obtain ⟨d, t⟩ := value
  cases d with
  | null =>
    obtain ⟨hdisplay, huser, hhost, hport⟩ := parseUri_null t
    unfold spliceOf
    cases element with
    | user =>
      exact Or.inr ⟨{ start := 0, stop := t.length }, by simp [huser, hhost], Nat.zero_le _,
        Nat.le_refl _⟩
    | host => exact Or.inl ⟨rfl, by simp [hhost]⟩
    | port => exact Or.inl ⟨rfl, by simp [hport, hhost]⟩
    | display =>
      exact Or.inr ⟨{ start := 0, stop := 0, post := [sp] }, by simp [hdisplay], Nat.le_refl _,
        Nat.zero_le _⟩
    | whole => exact Or.inr ⟨_, rfl, Nat.zero_le _, Nat.le_refl _⟩
  | addr r o =>
    obtain ⟨p, hp, hsplices⟩ := Uri.exists_splice r o t element
    exact Or.inr ⟨p, hp, hsplices.le, hsplices.inside⟩

section
variable {value nv : StringView} {p : Uri.Splice} {element : HmrUriElement}

/-- What is allocated is what is copied, modulo `2 ^ 32`. -/
theorem total_eq (nv : StringView) (hle : p.start ≤ p.stop) (hin : p.stop ≤ value.text.length) :
    p.total value.text nv.text = (p.apply value.text nv.text).length % 2 ^ 32 := by
  have hfront : (value.text.take p.start).length = p.start :=
    List.length_take_of_le (hle.trans hin)
  rw [Uri.Splice.total, Uri.Splice.apply, List.length_append, List.length_append,
    List.length_append, List.length_append, hfront, List.length_drop]

/-- The copies of a rebuild, into what it has allocated. -/
theorem rebuildUri_eq_copyAll (hp : spliceOf value element = some p)
    (hin : p.stop ≤ value.text.length) {a' : HmrArena}
    (ha : a.alloc (p.total value.text nv.text) = some (dst, a')) :
    rebuildUri raw a value element nv
      = (copyAll raw [value.substr 0 p.start, .ofBytes p.pre, nv, .ofBytes p.post,
          value.substrFrom p.stop] (dst, a')).map fun out =>
        (out.2.handedOut dst (p.total value.text nv.text), out.2) := by
  unfold rebuildUri
  rw [hp]
  dsimp only
  rw [ha]
  dsimp only
  rw [StringView.substr?_of_le (Nat.zero_le _), StringView.substrFrom?_of_le hin,
    Option.map_eq_bind]
  rfl

/-- The five copies are the spliced text. -/
theorem flatMap_copies (p : Uri.Splice) (value nv : StringView) :
    ([value.substr 0 p.start, .ofBytes p.pre, nv, .ofBytes p.post,
        value.substrFrom p.stop].flatMap (·.text)) = p.apply value.text nv.text := by
  simp [Uri.Splice.apply]

/-- **`rebuild_uri`** returns null or a new region, if the call fits; else it leaves the buffer.

Without a splice it is `dup`, which cannot hand the value back here, the value being null then.
With one, what is allocated is the length modulo `2 ^ 32`, and the five copies take all of it:
they stay in the buffer if and only if the length is below that bound, and in this case they end
where the allocation does. -/
theorem rebuildUri_cases (raw : Bytes) (a : HmrArena) (value nv : StringView) (code : Nat) :
    ((Call.rebuildUri value code nv).Fits a
        ∧ ∃ r b, rebuildUri raw a value (elementOf code) nv = some (r, b) ∧ a.Le b
          ∧ (r.data ≠ .null → Between r a.used b.used))
      ∨ (¬ (Call.rebuildUri value code nv).Fits a
        ∧ rebuildUri raw a value (elementOf code) nv = none) := by
  obtain ⟨hnull, hnone⟩ | ⟨p, hp, hle, hin⟩ := spliceOf_cases value (elementOf code)
  · refine Or.inl ⟨fun p hp => ?_, ?_⟩
    · rw [hnone] at hp
      cases hp
    · obtain ⟨r, b, hdup, hlater, hr⟩ := dup_cases raw a value
      refine ⟨r, b, ?_, hlater, fun hdata => (hr hdata).resolve_right fun hback => ?_⟩
      · unfold rebuildUri
        rw [hnone]
        exact hdup
      · rw [hback.2] at hdata
        exact hdata hnull
  · have htotal := total_eq nv hle hin
    have hfits : (Call.rebuildUri value code nv).Fits a
        ↔ (p.apply value.text nv.text).length < 2 ^ 32
          ∨ a.remaining < (p.apply value.text nv.text).length % 2 ^ 32 := by
      refine ⟨fun h => h p hp, fun h q hq => ?_⟩
      rw [hp] at hq
      exact Option.some.inj hq ▸ h
    rw [hfits]
    cases ha : a.alloc (p.total value.text nv.text) with
    | none =>
      refine Or.inl ⟨Or.inr (htotal ▸ HmrArena.alloc_eq_none_iff.mp ha), HmrStr.empty, a, ?_,
        .refl a, fun h => absurd rfl h⟩
      unfold rebuildUri
      rw [hp]
      dsimp only
      rw [ha]
    | some d =>
      obtain ⟨dst, a'⟩ := d
      obtain ⟨rfl, hbuffer, hused, hroom⟩ := HmrArena.alloc_eq_some ha
      have hcap := a.used_le
      have hremaining : a.remaining = kCapacity - a.used := rfl
      have hsmall : kCapacity < 2 ^ 32 := by decide
      have hcopies := copyAll_cases raw [value.substr 0 p.start, .ofBytes p.pre, nv,
        .ofBytes p.post, value.substrFrom p.stop] a' hcap
      rw [flatMap_copies] at hcopies
      rw [rebuildUri_eq_copyAll hp hin ha]
      obtain ⟨hfit, b, hb, hbused, hsame⟩ | ⟨hno, hb⟩ := hcopies
      · rw [hb]
        refine Or.inl ⟨Or.inl (by omega), _, b, rfl, ⟨by omega, fun i hi => ?_⟩, fun _ =>
          between_handedOut (Nat.le_refl _) (by omega)⟩
        rw [hsame i hi, hbuffer]
      · rw [hb]
        refine Or.inr ⟨?_, rfl⟩
        -- were it shorter, what is allocated would be all of it
        rintro (hlt | hlt)
        · rw [Nat.mod_eq_of_lt hlt] at htotal
          omega
        · omega

/-- Of views that read their texts, it is the `rebuild_uri` of the model. -/
theorem rebuildUri_eq {code : Nat} (hvalue : value.Reads raw a) (hnv : nv.Reads raw a)
    (hfits : (Call.rebuildUri value code nv).Fits a) :
    rebuildUri raw a value (elementOf code) nv
      = some (Uri.rebuildUri a value (elementOf code) nv) := by
  obtain ⟨hnull, hnone⟩ | ⟨p, hp, hle, hin⟩ := spliceOf_cases value (elementOf code)
  · rw [rebuildUri, hnone, Uri.rebuildUri_of_none hnone]
    exact dup_eq hvalue
  · have htotal := total_eq nv hle hin
    have hclip : (clip (p.apply value.text nv.text)).length = p.total value.text nv.text := by
      rw [htotal]
      exact List.length_take_of_le (Nat.mod_le _ _)
    cases ha : a.alloc (p.total value.text nv.text) with
    | none =>
      rw [Uri.rebuildUri_of_full hp (by rwa [hclip]), rebuildUri, hp]
      dsimp only
      rw [ha]
    | some d =>
      obtain ⟨dst, a'⟩ := d
      obtain ⟨rfl, hbuffer, hused, hroom⟩ := HmrArena.alloc_eq_some ha
      have hcap := a'.used_le
      have hlt : (p.apply value.text nv.text).length < 2 ^ 32 :=
        (hfits p hp).resolve_right (by omega)
      rw [Nat.mod_eq_of_lt hlt] at htotal
      have hlater : a.Le a' := ⟨by omega, fun i _ => by rw [hbuffer]⟩
      have hreads : ∀ w ∈ [value.substr 0 p.start, .ofBytes p.pre, nv, .ofBytes p.post,
          value.substrFrom p.stop], w.Reads raw a := by
        simp only [List.forall_mem_cons]
        exact ⟨hvalue.substr _ _, StringView.reads_ofBytes _, hnv, StringView.reads_ofBytes _,
          hvalue.substrFrom _, fun _ h => absurd h List.not_mem_nil⟩
      have hcopies := copyAll_eq hreads hlater (Nat.le_refl _) (by rw [flatMap_copies]; omega)
      rw [flatMap_copies] at hcopies
      rw [rebuildUri_eq_copyAll hp hin ha, hcopies, htotal, Option.map_some,
        handedOut_eq hlt (HmrArena.read_write_self _ _ _),
        Uri.rebuildUri_of_alloc hp (by rwa [hclip])]
      simp only [clip_of_lt hlt]

end

/-! ## What `serialize` does -/

/-- **The views of the first line** are those of its texts; there are none if the request-URI to
be spliced out is not in the start line. The source subtracts two pointers and takes sub-views at
the difference: this is sound where the one points into what the other shows, which `UriInLine`
asks for, and `substr` throws or the subtraction has no meaning anywhere else. -/
theorem firstLine_cases (m : HmrSipMsg) :
    (UriInLine m ∧ ∃ vs, firstLine m = some vs ∧ vs.map (·.text) = m.firstLine
        ∧ ∀ raw a, m.AllViews (HmrStr.Reads raw a) → ∀ v ∈ vs, v.Reads raw a)
      ∨ (¬ UriInLine m ∧ firstLine m = none) := by
  unfold firstLine HmrSipMsg.firstLine
  -- Without a rewritten request-URI, the first line is the start line as it is.
  by_cases hset : (m.isRequest && m.modRequestUri.present && m.requestUri.present) = true
  · rw [if_pos hset, if_pos hset]
    simp only [Bool.and_eq_true] at hset
    obtain ⟨⟨hrequest, hmod⟩, huri⟩ := hset
    have hline : UriInLine m ↔ m.requestUri.data
          = m.startLine.data.add (m.requestUri.data.sub m.startLine.data)
        ∧ m.requestUri.data.sub m.startLine.data + m.requestUri.text.length
          ≤ m.startLine.text.length := by
      refine ⟨fun h => ?_, fun h _ _ _ => ⟨_, h⟩⟩
      obtain ⟨lo, hdata, hlen⟩ := h hrequest hmod huri
      cases hstart : m.startLine.data with
      | null =>
        rw [hstart] at hdata
        rw [HmrStr.present, hdata] at huri
        cases huri
      | addr r o =>
        rw [hstart] at hdata
        have hoff : m.requestUri.data.sub (.addr r o) = lo := by
          rw [hdata]
          exact Uri.Shape.off_add r o lo
        rw [hoff]
        exact ⟨hdata, hlen⟩
    dsimp only
    by_cases hdata : m.requestUri.data
        = m.startLine.data.add (m.requestUri.data.sub m.startLine.data)
    · rw [if_pos hdata, StringView.substr?_of_le (Nat.zero_le _)]
      by_cases hlen : m.requestUri.data.sub m.startLine.data + m.requestUri.text.length
          ≤ m.startLine.text.length
      · rw [StringView.substrFrom?_of_le hlen]
        refine Or.inl ⟨hline.mpr ⟨hdata, hlen⟩, _, rfl, ?_, fun raw a hviews => ?_⟩
        · simp
        · simp only [List.forall_mem_cons]
          exact ⟨hviews.startLine.sv.substr _ _, hviews.modRequestUri.sv,
            hviews.startLine.sv.substrFrom _, fun _ h => absurd h List.not_mem_nil⟩
      · have hnone : m.startLine.sv.substrFrom?
            (m.requestUri.data.sub m.startLine.data + m.requestUri.text.length) = none :=
          if_neg hlen
        rw [hnone]
        exact Or.inr ⟨fun h => hlen (hline.mp h).2, rfl⟩
    · rw [if_neg hdata]
      exact Or.inr ⟨fun h => hdata (hline.mp h).1, rfl⟩
  · rw [if_neg hset, if_neg hset]
    refine Or.inl ⟨fun hrequest hmod huri => absurd ?_ hset, _, rfl, rfl, fun raw a hviews => ?_⟩
    · rw [hrequest, hmod, huri]
      rfl
    · exact List.forall_mem_singleton.mpr hviews.startLine.sv

/-- The copies of `serialize` are the pieces of the message. -/
theorem map_rest (m : HmrSipMsg) {vs : List StringView} (h : vs.map (·.text) = m.firstLine) :
    (vs ++ rest m).map (·.text) = m.pieces := by
  rw [List.map_append, h]
  simp [rest, HmrSipMsg.pieces, List.map_flatMap]

/-- They are of views that read what they show. -/
theorem reads_rest {m : HmrSipMsg} (hviews : m.AllViews (HmrStr.Reads raw a)) :
    ∀ v ∈ rest m, v.Reads raw a := by
  intro v hv
  simp only [rest, List.mem_append, List.mem_flatMap, List.mem_cons, List.not_mem_nil,
    or_false] at hv
  obtain (rfl | ⟨h, hh, rfl | rfl | rfl | rfl⟩) | rfl | rfl := hv
  · exact StringView.reads_ofBytes _
  · exact (hviews.headers h (List.mem_of_mem_filter hh)).1.sv
  · exact StringView.reads_ofBytes _
  · exact (hviews.headers h (List.mem_of_mem_filter hh)).2.sv
  · exact StringView.reads_ofBytes _
  · exact StringView.reads_ofBytes _
  · exact hviews.body.sv

/-- **One `put`** of a view with a 32-bit length writes behind what was handed out; of a
view that reads its text, it is the `put` of the model. -/
theorem put_cases (raw : Bytes) (out : Bool × HmrArena) (hv : v.text.length < 2 ^ 32) :
    ∃ out', put raw v out = some out' ∧ out.2.Le out'.2
      ∧ (v.Reads raw out.2 → out' = HmrSipMsg.put v.text out) := by
  unfold put HmrSipMsg.put
  split
  · exact ⟨out, rfl, .refl _, fun _ => rfl⟩
  · rw [clip_of_lt hv]
    cases ha : out.2.alloc v.text.length with
    | none => exact ⟨_, rfl, .refl _, fun _ => rfl⟩
    | some pa =>
      obtain ⟨p, a'⟩ := pa
      obtain ⟨rfl, hbuffer, hused, -⟩ := HmrArena.alloc_eq_some ha
      have hcap := a'.used_le
      have hlater : out.2.Le a' := ⟨by omega, fun i _ => by rw [hbuffer]⟩
      dsimp only
      rw [copy_of_le (by omega)]
      refine ⟨_, rfl, HmrArena.le_alloc_write ha, fun hreads => ?_⟩
      rw [(hreads.mono hlater).fetch_eq]

/-- **All of them**, one after the other. -/
theorem putAll_cases (raw : Bytes) (vs : List StringView)
    (hvs : ∀ v ∈ vs, v.text.length < 2 ^ 32) (out : Bool × HmrArena) :
    ∃ out', putAll raw vs out = some out' ∧ out.2.Le out'.2
      ∧ ((∀ v ∈ vs, v.Reads raw out.2) →
        out' = (vs.map (·.text)).foldl (fun out s => HmrSipMsg.put s out) out) := by
  induction vs generalizing out with
  | nil => exact ⟨out, rfl, .refl _, fun _ => rfl⟩
  | cons v vs ih =>
    obtain ⟨out₁, hput, hle, heq⟩ := put_cases raw out (hvs v List.mem_cons_self)
    obtain ⟨out₂, hall, hle', heq'⟩ := ih (fun w hw => hvs w (List.mem_cons_of_mem _ hw)) out₁
    refine ⟨out₂, ?_, hle.trans hle', fun hreads => ?_⟩
    · show (put raw v out).bind (putAll raw vs) = some out₂
      rw [hput]
      exact hall
    · rw [heq' fun w hw => (hreads w (List.mem_cons_of_mem _ hw)).mono hle,
        heq (hreads v List.mem_cons_self)]
      rfl

/-- **`serialize`** returns null or a new region, if the message has its request-URI in its
start line; if its views read their texts, it is the `serialize` of the model. -/
theorem serialize_cases (raw : Bytes) (m : HmrSipMsg) (a : HmrArena) :
    (UriInLine m ∧ ∃ r b, serialize raw m a = some (r, b) ∧ a.Le b
        ∧ (r.data ≠ .null → Between r a.used b.used)
        ∧ (m.AllViews (HmrStr.Reads raw a) → (r, b) = m.serialize a))
      ∨ (¬ UriInLine m ∧ serialize raw m a = none) := by
  unfold serialize
  obtain ⟨hline, vs, hfirst, htexts, hreads⟩ | ⟨hline, hfirst⟩ := firstLine_cases m
  · have hmap := map_rest m htexts
    have hlen : ∀ v ∈ vs ++ rest m, v.text.length < 2 ^ 32 := fun v hv =>
      m.length_lt_of_mem_pieces _ (hmap ▸ List.mem_map_of_mem hv)
    obtain ⟨out, hout, hle, heq⟩ := putAll_cases raw (vs ++ rest m) hlen (true, a)
    rw [hfirst]
    refine Or.inl ⟨hline, if out.1 then out.2.handedOut a.used (out.2.used - a.used)
      else HmrStr.empty, out.2, ?_, hle, fun hdata => ?_, fun hviews => ?_⟩
    · show (putAll raw (vs ++ rest m) (true, a)).bind _ = _
      rw [hout]
      rfl
    · split at hdata
      · rename_i hok
        rw [if_pos hok]
        have hused := hle.1
        exact between_handedOut (Nat.le_refl _) (by dsimp only at hused; omega)
      · exact absurd rfl hdata
    · have hall := heq fun v hv => (List.mem_append.mp hv).elim (hreads raw a hviews v)
        (reads_rest hviews v)
      rw [hmap] at hall
      rw [hall]
      rfl
  · rw [hfirst]
    exact Or.inr ⟨hline, rfl⟩

/-- A message that could be put out is at the front of the space that was left. -/
theorem data_serialize {m : HmrSipMsg} (h : (m.serialize a).1.data ≠ .null) :
    (m.serialize a).1.data = .addr .arena a.used := by
  unfold HmrSipMsg.serialize at h ⊢
  dsimp only at h ⊢
  split
  · rfl
  · rename_i hok
    rw [if_neg hok] at h
    exact absurd rfl h

/-- **The `serialize` of the model** returns all of the message or null. -/
theorem serializesWhole (m : HmrSipMsg) (a : HmrArena) :
    SerializesWhole m a (m.serialize a).1 (m.serialize a).2 := by
  obtain ⟨-, ⟨hfit, htext, hpresent, hreads⟩ | ⟨hfit, hempty⟩⟩ := m.serialize_spec a
  · have hdata : (m.serialize a).1.data ≠ .null := bne_iff_ne.mp hpresent
    have hread : (m.serialize a).2.read a.used m.rendered.length = m.rendered := by
      have hfetch := (hreads []).fetch_eq
      unfold HmrStr.fetch at hfetch
      rw [data_serialize hdata, htext] at hfetch
      exact hfetch
    refine ⟨iff_of_false hdata (Nat.not_lt_of_le hfit), fun _ => ⟨data_serialize hdata, htext,
      hread⟩, fun _ ps p qs hsplit => ?_⟩
    refine HmrArena.read_part (z := qs.flatten) ?_
    have hflat : m.rendered = ps.flatten ++ p ++ qs.flatten := by
      rw [HmrSipMsg.rendered, hsplit, List.flatten_append, List.flatten_cons, List.append_assoc]
    rwa [hflat] at hread
  · rw [hempty]
    exact ⟨iff_of_true rfl hfit, fun h => absurd rfl h, fun h => absurd rfl h⟩

/-- **The message of a packet** has its request-URI in its start line, whatever has been
written to it since. -/
theorem uriInLine_parse {m : HmrSipMsg} (hraw : raw.length < 2 ^ 32)
    (hline : m.startLine = (HmrSipMsg.parse raw).startLine)
    (huri : m.requestUri = (HmrSipMsg.parse raw).requestUri) : UriInLine m := by
  intro _ _ hpresent
  rw [hline, huri] at *
  obtain ⟨lo, hi, lo', hi', hu, hl, hlo, hhi⟩ :=
    (HmrSipMsg.wellPlaced_parse raw hraw).requestUri hpresent
  have hulen := hu.length
  have hllen := hl.length
  have hule := hu.le
  refine ⟨lo - lo', ?_, ?_⟩
  · have hudata : (HmrSipMsg.parse raw).requestUri.data = Ptr.add (.addr .raw 0) lo := hu.data
    have hldata : (HmrSipMsg.parse raw).startLine.data = Ptr.add (.addr .raw 0) lo' := hl.data
    rw [hudata, hldata, Ptr.add_add, Nat.add_sub_cancel' hlo]
  · dsimp only at hulen hllen
    omega

/-! ## Runs -/

/-- **One call**: it returns null, a new region or a view handed back, if it fits; else it has no
result. Only `rebuild_uri` and `serialize` can fail to fit, and only `dup` hands back what it was
given, which then shows nothing. -/
theorem perform_cases (raw : Bytes) (a : HmrArena) (c : Call) :
    (c.Fits a ∧ ∃ r b, c.perform raw a = some (r, b) ∧ a.Le b
        ∧ (r.data ≠ .null → Between r a.used b.used
          ∨ ∃ v, c = .dup v ∧ clip v.text = [] ∧ r = ⟨v.data, [], length_nil_lt⟩))
      ∨ (¬ c.Fits a ∧ c.perform raw a = none) := by
  cases c with
  | alloc n =>
    refine Or.inl ⟨trivial, ?_⟩
    cases ha : a.alloc n.toNat with
    | none =>
      have hperform : Call.perform raw a (.alloc n) = some (HmrStr.empty, a) := by
        simp only [Call.perform, ha]
      exact ⟨_, _, hperform, .refl a, fun h => absurd rfl h⟩
    | some pb =>
      obtain ⟨p, b⟩ := pb
      obtain ⟨rfl, hbuffer, hused, -⟩ := HmrArena.alloc_eq_some ha
      have hperform : Call.perform raw a (.alloc n)
          = some (b.handedOut a.used n.toNat, b) := by
        simp only [Call.perform, ha]
      exact ⟨_, _, hperform, ⟨by omega, fun i _ => by rw [hbuffer]⟩, fun _ =>
        Or.inl (between_handedOut (Nat.le_refl _) (Nat.le_of_eq hused.symm))⟩
  | dup v =>
    obtain ⟨r, b, hdup, hle, hr⟩ := dup_cases raw a v
    exact Or.inl ⟨trivial, r, b, hdup, hle, fun h => (hr h).imp_right fun hback =>
      ⟨v, rfl, hback⟩⟩
  | rebuildUri value code nv =>
    obtain ⟨hfits, r, b, hrebuild, hle, hr⟩ | hno := rebuildUri_cases raw a value nv code
    · exact Or.inl ⟨hfits, r, b, hrebuild, hle, fun h => Or.inl (hr h)⟩
    · exact Or.inr hno
  | serialize m =>
    obtain ⟨hline, r, b, hserialize, hle, hr, -⟩ | hno := serialize_cases raw m a
    · exact Or.inl ⟨hline, r, b, hserialize, hle, fun h => Or.inl (hr h)⟩
    · exact Or.inr hno

/-- The bytes of what a call returns are new. -/
theorem holds_perform {c : Call} {r : HmrStr} (h : c.perform raw a = some (r, b)) :
    a.Le b ∧ ∀ i, Holds r i → a.used ≤ i ∧ i < b.used := by
  obtain ⟨-, r', b', hperform, hle, hr⟩ | ⟨-, hnone⟩ := perform_cases raw a c
  · rw [h] at hperform
    obtain ⟨rfl, rfl⟩ := Prod.mk.inj (Option.some.inj hperform)
    refine ⟨hle, fun i hi => ?_⟩
    obtain ⟨off, hdata, hoff, hlt⟩ := hi
    obtain ⟨off', hdata', hlo, hhi⟩ | ⟨v, -, -, hback⟩ :=
      hr (by rw [hdata]; exact Ptr.noConfusion)
    · rw [hdata] at hdata'
      obtain ⟨-, rfl⟩ := Ptr.addr.inj hdata'
      omega
    · rw [hback] at hlt
      exact absurd hlt (Nat.not_lt_of_le hoff)
  · rw [h] at hnone
    cases hnone

/-- **A run** leaves what was handed out before it, and all it returns lies behind that. -/
theorem holds_run {cs : List Call} {rs : List HmrStr} (h : run raw cs a = some (rs, b)) :
    a.Le b ∧ ∀ s ∈ rs, ∀ i, Holds s i → a.used ≤ i ∧ i < b.used := by
  induction cs generalizing a rs with
  | nil =>
    obtain ⟨rfl, rfl⟩ := Prod.mk.inj (Option.some.inj h)
    exact ⟨.refl a, fun _ hs => absurd hs List.not_mem_nil⟩
  | cons c cs ih =>
    obtain ⟨⟨r, b₁⟩, hperform, h⟩ := Option.bind_eq_some_iff.mp h
    obtain ⟨⟨rs', b₂⟩, hrun, h⟩ := Option.bind_eq_some_iff.mp h
    obtain ⟨rfl, rfl⟩ := Prod.mk.inj (Option.some.inj h)
    obtain ⟨hle, hr⟩ := holds_perform hperform
    obtain ⟨hle', hrs⟩ := ih hrun
    refine ⟨hle.trans hle', fun s hs i hi => ?_⟩
    have hused := hle.1
    have hused' := hle'.1
    rcases List.mem_cons.mp hs with rfl | hs
    · have := hr i hi
      omega
    · have := hrs s hs i hi
      omega

/-- **A call that fits keeps the views** that a run has handed out before it. -/
theorem keepsViews_of_run {cs : List Call} {rs : List HmrStr} {c : Call}
    (h : run raw cs a₀ = some (rs, a)) (hfits : c.Fits a) :
    ∃ r b, c.perform raw a = some (r, b) ∧ KeepsViews raw rs a c r b := by
  obtain ⟨-, r, b, hperform, hle, hr⟩ | ⟨hno, -⟩ := perform_cases raw a c
  · have hold := (holds_run h).2
    have hnew := (holds_perform hperform).2
    refine ⟨r, b, hperform, ⟨hle.1, b.used_le⟩, fun hdata => (hr hdata).imp_left ?_, ?_,
      fun s hs i hi => hle.2 i (hold s hs i hi).2, ?_⟩
    · rintro ⟨off, hdata, -, hhi⟩
      exact ⟨off, hdata, Nat.zero_le _, hhi.trans b.used_le⟩
    · rintro s hs i ⟨hi, hi'⟩
      exact Nat.not_lt_of_le (hnew i hi').1 (hold s hs i hi).2
    · rintro m rfl hviews
      obtain ⟨-, r', b', hserialize, -, -, heq⟩ | ⟨hno, -⟩ := serialize_cases raw m a
      · have hsome : some (r, b) = some (r', b') := hperform.symm.trans hserialize
        obtain ⟨rfl, rfl⟩ := Prod.mk.inj (Option.some.inj hsome)
        obtain ⟨hr', hb'⟩ := Prod.mk.inj (heq hviews)
        rw [hr', hb']
        exact serializesWhole m a
      · exact absurd hfits hno
  · exact absurd hfits hno

end

/-- **In the run from `a`, each call fits the arena it finds.** -/
def EachFits (raw : Bytes) (a : HmrArena) (cs : List Call) : Prop :=
  ∀ before c after rs b, cs = before ++ c :: after → run raw before a = some (rs, b) → c.Fits b

/-- **The views stay valid exactly in the runs in which each call fits.** -/
theorem viewsStayValid_iff (raw : Bytes) (a : HmrArena) (cs : List Call) :
    ViewsStayValid raw a cs ↔ EachFits raw a cs := by
  refine ⟨fun h before c after rs b hcs hrun => ?_, fun h before c after rs b hcs hrun =>
    keepsViews_of_run hrun (h before c after rs b hcs hrun)⟩
  obtain ⟨r, b', hperform, -⟩ := h before c after rs b hcs hrun
  obtain ⟨hfits, -⟩ | ⟨-, hnone⟩ := perform_cases raw b c
  · exact hfits
  · rw [hperform] at hnone
    cases hnone

/-- A user of `2 ^ 32 - 2` bytes, put in front of a host of one byte, makes `2 ^ 32` bytes
with the `@`: none are allocated, and all of them are copied. -/
theorem not_fits {nv : StringView} (h : nv.text.length = 2 ^ 32 - 2) :
    ¬ (Call.rebuildUri (.ofBytes (txt "a")) 2 nv).Fits .fresh := by
  intro hfits
  have hsplice : spliceOf (.ofBytes (txt "a")) (elementOf 2)
      = some { start := 0, stop := 0, post := [64] } := by decide
  have hlength : (({ start := 0, stop := 0, post := [64] } : Uri.Splice).apply
      (StringView.ofBytes (txt "a")).text nv.text).length = 2 ^ 32 := by
    simp [Uri.Splice.apply, txt, h]
  have hfits := hfits _ hsplice
  rw [hlength] at hfits
  exact hfits.elim (Nat.lt_irrefl _) (fun h => absurd h (by decide))

/-- A user of that length, in front of a host of one byte: with the `@` between them the length
is cut to nothing, and all of it is copied. -/
theorem not_viewsStayValid_of_length {nv : StringView} (h : nv.text.length = 2 ^ 32 - 2) :
    ¬ ViewsStayValid [] .fresh [.rebuildUri (.ofBytes (txt "a")) 2 nv] := by
  intro hvalid
  obtain ⟨r, b, hperform, -⟩ := hvalid [] _ [] [] _ rfl rfl
  obtain ⟨hfits, -⟩ | ⟨-, hnone⟩ :=
    perform_cases [] .fresh (.rebuildUri (.ofBytes (txt "a")) 2 nv)
  · exact not_fits h hfits
  · rw [hperform] at hnone
    cases hnone

/-- Such a user: 4 GiB of `x`. -/
theorem not_viewsStayValid :
    ¬ ViewsStayValid [] .fresh
      [.rebuildUri (.ofBytes (txt "a")) 2 (.ofBytes (List.replicate (2 ^ 32 - 2) 120))] := by
  refine not_viewsStayValid_of_length ?_
  rw [StringView.ofBytes_text, List.length_replicate]

end Memory

end Hmr
