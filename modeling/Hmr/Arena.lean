import Hmr.Bytes

/-!
# Views and the arena

Texts are passed around as views: an address and a length. The bytes at the address belong
to one of three places – the packet, which is immutable; the arena, which is written front
to back and only rewound between packets; or memory of the caller (a literal, a variable,
a slot, the scratch buffer).

A view here carries the text it shows along with its address, so that what a function
computes from a view can be read off its definition. That the two agree is a theorem and
not a convention: `HmrStr.Reads` says that the bytes at the address are the text, and
`HmrStr.Reads.mono` that arena writes, which only ever go to fresh addresses, leave it so.

## Lengths

A `std::string_view` has a length of 64 bits, and no text is too long for it. An `HmrStr`
has one of 32 bits, and where the one is made of the other the length is cut
(`HmrStr.of`). That is a field of the type here: there is no `HmrStr` with a longer text.

## Running out

The arena is never extended. What there is no room for is refused, and the view that comes
back is null (`HmrArena.dup`), which is how callers tell it from the copy of a text. The
empty text takes no room and is returned as it is, so it is null if it was
(`HmrArena.dup_cases`).
-/

namespace Hmr

/-- The places a view can point to. -/
inductive Region
  | raw | arena | ext
  deriving DecidableEq, Repr

/-- An address: the null pointer, or an offset into a region. -/
inductive Ptr
  | null
  | addr (r : Region) (off : Nat)
  deriving DecidableEq, Repr

namespace Ptr

/-- Pointer arithmetic. -/
def add : Ptr → Nat → Ptr
  | null, _ => null
  | addr r off, n => addr r (off + n)

/-- The distance between two pointers into one buffer. -/
def sub : Ptr → Ptr → Nat
  | addr _ a, addr _ b => a - b
  | _, _ => 0

/-- Nothing is added. -/
@[simp] theorem add_zero (p : Ptr) : p.add 0 = p := by
  cases p <;> rfl

/-- Two steps are one. -/
@[simp] theorem add_add (p : Ptr) (m n : Nat) : (p.add m).add n = p.add (m + n) := by
  cases p with
  | null => rfl
  | addr r off => exact congrArg (addr r) (Nat.add_assoc off m n)

end Ptr

/-- A `std::string_view`. -/
structure StringView where
  data : Ptr := .null
  text : Bytes := []
  deriving DecidableEq, Repr

namespace StringView

/-- A view of memory of the caller. -/
def ofBytes (s : Bytes) : StringView := ⟨.addr .ext 0, s⟩

/-- `substr(pos, n)`. -/
def substr (v : StringView) (pos n : Nat) : StringView :=
  ⟨v.data.add pos, (v.text.drop pos).take n⟩

/-- `substr(pos)`. -/
def substrFrom (v : StringView) (pos : Nat) : StringView :=
  ⟨v.data.add pos, v.text.drop pos⟩

/-- `trim`, as the message model does it. -/
def trim (v : StringView) : StringView :=
  ⟨v.data.add (v.text.takeWhile isBlank).length, Hmr.trim v.text⟩

/-- `trim`, as the URI splitter does it. -/
def trimBlanks (v : StringView) : StringView :=
  ⟨v.data.add (v.text.takeWhile isBlank).length, Hmr.trimBlanks v.text⟩

/-- It shows the bytes. -/
@[simp] theorem ofBytes_text (s : Bytes) : (ofBytes s).text = s := rfl

/-- Part of a view shows part of its text. -/
@[simp] theorem substr_text (v : StringView) (pos n : Nat) :
    (v.substr pos n).text = (v.text.drop pos).take n := rfl

/-- So does what is behind a position. -/
@[simp] theorem substrFrom_text (v : StringView) (pos : Nat) :
    (v.substrFrom pos).text = v.text.drop pos := rfl

/-- Of two texts, the first is what stands in front, -/
@[simp] theorem substr_left (p : Ptr) (a b : Bytes) :
    (StringView.mk p (a ++ b)).substr 0 a.length = ⟨p, a⟩ := by
  unfold substr
  rw [Ptr.add_zero, List.drop_zero, List.take_left]

/-- the second what stands behind it, -/
@[simp] theorem substrFrom_left (p : Ptr) (a b : Bytes) :
    (StringView.mk p (a ++ b)).substrFrom a.length = ⟨p.add a.length, b⟩ := by
  unfold substrFrom
  rw [List.drop_left]

/-- also with a character between them, -/
@[simp] theorem substrFrom_succ (p : Ptr) (a b : Bytes) (c : UInt8) :
    (StringView.mk p (a ++ c :: b)).substrFrom (a.length + 1) = ⟨p.add (a.length + 1), b⟩ := by
  unfold substrFrom
  rw [← List.drop_drop, List.drop_left, List.drop_succ_cons, List.drop_zero]

/-- and a text behind such a character may end before the view does. -/
@[simp] theorem substr_succ (p : Ptr) (a b r : Bytes) (c : UInt8) :
    (StringView.mk p (a ++ c :: (b ++ r))).substr (a.length + 1) b.length
      = ⟨p.add (a.length + 1), b⟩ := by
  unfold substr
  rw [← List.drop_drop, List.drop_left, List.drop_succ_cons, List.drop_zero, List.take_left]

/-- Trimming a view trims its text. -/
@[simp] theorem trim_text (v : StringView) : v.trim.text = Hmr.trim v.text := rfl

/-- So it does in the URI splitter. -/
@[simp] theorem trimBlanks_text (v : StringView) :
    v.trimBlanks.text = Hmr.trimBlanks v.text := rfl

/-- **The view is a range of another one**, from `lo` up to `hi`. -/
structure RangeOf (whole v : StringView) (lo hi : Nat) : Prop where
  data : v.data = whole.data.add lo
  text : v.text = (whole.text.take hi).drop lo
  le : lo ≤ hi
  inside : hi ≤ whole.text.length

namespace RangeOf

variable {whole v : StringView} {lo hi : Nat}

/-- Its length is the distance of its ends. -/
theorem length (h : RangeOf whole v lo hi) : v.text.length = hi - lo := by
  rw [h.text, List.length_drop, List.length_take, Nat.min_eq_left h.inside]

/-- The whole of it. -/
theorem self (v : StringView) : RangeOf v v 0 v.text.length :=
  ⟨v.data.add_zero.symm, by rw [List.take_length, List.drop_zero], Nat.zero_le _, Nat.le_refl _⟩

/-- The middle of three parts. -/
theorem of_append {p : Ptr} {a x b : Bytes} :
    RangeOf ⟨p, a ++ x ++ b⟩ ⟨p.add a.length, x⟩ a.length (a.length + x.length) := by
  refine ⟨rfl, ?_, Nat.le_add_right _ _, ?_⟩
  · show x = ((a ++ x ++ b).take _).drop _
    rw [← List.length_append, List.take_left, List.drop_left]
  · show _ ≤ (a ++ x ++ b).length
    rw [List.length_append, List.length_append]
    omega

end RangeOf

end StringView

/-- The length of nothing fits 32 bits. -/
theorem length_nil_lt : ([] : Bytes).length < 2 ^ 32 := by decide

/-- **`HmrStr`, and the `Slice` of the message model**: a view whose length
fits 32 bits. -/
structure HmrStr where
  data : Ptr := .null
  text : Bytes := []
  len_lt : text.length < 2 ^ 32 := by exact length_nil_lt
  deriving DecidableEq, Repr

namespace HmrStr

/-- The view of nothing. -/
def empty : HmrStr := {}

/-- `Slice::of`, and `to_str`: the length is cut to 32 bits. -/
def of (v : StringView) : HmrStr := ⟨v.data, clip v.text, clip_length_lt v.text⟩

/-- A view of memory of the caller. -/
def ofBytes (s : Bytes) : HmrStr := of (.ofBytes s)

/-- `present`: the view has an address. -/
def present (s : HmrStr) : Bool := s.data != .null

/-- `sv`, and `view`: a null view shows the empty literal. -/
def sv (s : HmrStr) : StringView :=
  ⟨if s.data = .null then .addr .ext 0 else s.data, s.text⟩

/-- It shows nothing. -/
@[simp] theorem empty_text : empty.text = [] := rfl

/-- It shows what is left of the text when its length is cut. -/
@[simp] theorem of_text (v : StringView) : (of v).text = clip v.text := rfl

/-- It has the same address. -/
@[simp] theorem of_data (v : StringView) : (of v).data = v.data := rfl

/-- It shows the bytes, if their number fits. -/
@[simp] theorem ofBytes_text (s : Bytes) : (ofBytes s).text = clip s := rfl

/-- It shows the same. -/
@[simp] theorem sv_text (s : HmrStr) : s.sv.text = s.text := rfl

/-- The length of an `HmrStr` is cut already. -/
@[simp] theorem clip_text (s : HmrStr) : clip s.text = s.text := clip_of_lt s.len_lt

end HmrStr

/-! ## The arena -/

/-- `kCapacity`. -/
def kCapacity : Nat := 64 * 1024

/-- **`HmrArena`**: a buffer, and how much of it is handed out. -/
structure HmrArena where
  buffer : Nat → UInt8
  used : Nat
  used_le : used ≤ kCapacity

namespace HmrArena

/-- A new arena. -/
def fresh : HmrArena := ⟨fun _ => 0, 0, Nat.zero_le _⟩

/-- `reset`: rewind, without touching the buffer. -/
def reset (a : HmrArena) : HmrArena := ⟨a.buffer, 0, Nat.zero_le _⟩

/-- `remaining`. -/
def remaining (a : HmrArena) : Nat := kCapacity - a.used

/-- `alloc`: the next `n` bytes, if there are that many. -/
def alloc (a : HmrArena) (n : Nat) : Option (Nat × HmrArena) :=
  if h : n ≤ a.remaining then
    some (a.used, ⟨a.buffer, a.used + n, by
      have := a.used_le
      unfold remaining at h
      omega⟩)
  else none

/-- `memcpy` into the buffer. -/
def write (a : HmrArena) (off : Nat) (s : Bytes) : HmrArena where
  buffer i := if off ≤ i ∧ i < off + s.length then s.getD (i - off) 0 else a.buffer i
  used := a.used
  used_le := a.used_le

/-- `dup`: copy a view into the arena. An empty view is returned as it is,
and where there is no room, the view is null. -/
def dup (a : HmrArena) (v : StringView) : HmrStr × HmrArena :=
  let s := clip v.text
  if s.length = 0 then (⟨v.data, [], length_nil_lt⟩, a)
  else match a.alloc s.length with
    | none => (HmrStr.empty, a)
    | some (p, a') => (⟨.addr .arena p, s, clip_length_lt v.text⟩, a'.write p s)

/-- The bytes of the buffer from `off` on. -/
def read (a : HmrArena) (off n : Nat) : Bytes :=
  (List.range n).map fun i => a.buffer (off + i)

/-- So many bytes are read, whatever they are. -/
@[simp] theorem read_length (a : HmrArena) (off n : Nat) : (a.read off n).length = n := by
  rw [read, List.length_map, List.length_range]

/-- Writing hands nothing out. -/
@[simp] theorem write_used (a : HmrArena) (off : Nat) (s : Bytes) :
    (a.write off s).used = a.used := rfl

/-- Nothing is handed out afterwards. -/
@[simp] theorem reset_used (a : HmrArena) : a.reset.used = 0 := rfl

/-- **What is handed out** begins where the arena ended, and nothing is written. -/
theorem alloc_eq_some {a a' : HmrArena} {n p : Nat} (h : a.alloc n = some (p, a')) :
    p = a.used ∧ a'.buffer = a.buffer ∧ a'.used = a.used + n ∧ n ≤ a.remaining := by
  unfold alloc at h
  split at h
  · rename_i hn
    obtain ⟨rfl, rfl⟩ := Prod.mk.inj (Option.some.inj h)
    exact ⟨rfl, rfl, rfl, hn⟩
  · cases h

/-- It is handed out if there is room for it. -/
theorem alloc_of_le {a : HmrArena} {n : Nat} (h : n ≤ a.remaining) :
    ∃ a', a.alloc n = some (a.used, a') ∧ a'.used = a.used + n := by
  unfold alloc
  rw [dif_pos h]
  exact ⟨_, rfl, rfl⟩

/-- It is refused if there is none, and only then. -/
theorem alloc_eq_none_iff {a : HmrArena} {n : Nat} :
    a.alloc n = none ↔ a.remaining < n := by
  unfold alloc
  split <;> simp <;> omega

/-- What is read at the address of a write is what was written. -/
@[simp] theorem read_write_self (a : HmrArena) (off : Nat) (s : Bytes) :
    (a.write off s).read off s.length = s := by
  refine List.ext_getElem (read_length _ _ _) (fun i hi hs => ?_)
  simp only [read, write, List.getElem_map, List.getElem_range, Nat.le_add_right,
    Nat.add_lt_add_iff_left, hs, and_self, if_true, Nat.add_sub_cancel_left]
  exact (List.getElem_eq_getD 0).symm

/-- Later arenas: more is handed out, and what was handed out before still
holds the same bytes. -/
def Le (a b : HmrArena) : Prop :=
  a.used ≤ b.used ∧ ∀ i < a.used, b.buffer i = a.buffer i

/-- An arena is as late as itself. -/
theorem Le.refl (a : HmrArena) : a.Le a := ⟨Nat.le_refl _, fun _ _ => rfl⟩

/-- A later one, and one later than that. -/
theorem Le.trans {a b c : HmrArena} (h : a.Le b) (h' : b.Le c) : a.Le c :=
  ⟨h.1.trans h'.1, fun i hi => (h'.2 i (hi.trans_le h.1)).trans (h.2 i hi)⟩

/-- Allocating and writing what was allocated gives a later arena. -/
theorem le_alloc_write {a a' : HmrArena} {n p : Nat} {s : Bytes}
    (h : a.alloc n = some (p, a')) : a.Le (a'.write p s) := by
  obtain ⟨rfl, hb, hu, -⟩ := alloc_eq_some h
  refine ⟨by rw [write_used, hu]; exact Nat.le_add_right _ _, fun i hi => ?_⟩
  show (if a.used ≤ i ∧ i < a.used + s.length then s.getD (i - a.used) 0
    else a'.buffer i) = a.buffer i
  rw [if_neg (by omega), hb]

/-- What is handed out reads the same in a later arena. -/
theorem Le.read {a b : HmrArena} (h : a.Le b) {off n : Nat} (hn : off + n ≤ a.used) :
    b.read off n = a.read off n := by
  refine List.map_congr_left (fun i hi => h.2 _ ?_)
  have : i < n := List.mem_range.mp hi
  omega

/-! ### What `dup` does -/

/-- `dup` fails on a view that shows something exactly when the arena has no
room for it. -/
theorem dup_cases (a : HmrArena) (v : StringView) :
    (clip v.text = [] ∧ a.dup v = (⟨v.data, [], length_nil_lt⟩, a))
      ∨ (clip v.text ≠ [] ∧ a.remaining < (clip v.text).length
          ∧ a.dup v = (HmrStr.empty, a))
      ∨ (clip v.text ≠ [] ∧ (clip v.text).length ≤ a.remaining
          ∧ ∃ a', a.alloc (clip v.text).length = some (a.used, a')
            ∧ a.dup v = (⟨.addr .arena a.used, clip v.text, clip_length_lt v.text⟩,
                a'.write a.used (clip v.text))) := by
  -- The empty view is looked at first in the source, before anything is allocated.
  by_cases hs : clip v.text = []
  · exact Or.inl ⟨hs, if_pos (List.length_eq_zero_iff.mpr hs)⟩
  · have hne : ¬ (clip v.text).length = 0 := fun h => hs (List.length_eq_zero_iff.mp h)
    cases ha : a.alloc (clip v.text).length with
    | none =>
      refine Or.inr (Or.inl ⟨hs, alloc_eq_none_iff.mp ha, ?_⟩)
      simp only [dup, if_neg hne, ha]
    | some pa =>
      obtain ⟨p, a'⟩ := pa
      obtain ⟨rfl, -, -, hle⟩ := alloc_eq_some ha
      refine Or.inr (Or.inr ⟨hs, hle, a', rfl, ?_⟩)
      simp only [dup, if_neg hne, ha]

/-- Copying gives a later arena, whether there is room or not. -/
theorem le_dup (a : HmrArena) (v : StringView) : a.Le (a.dup v).2 := by
  obtain ⟨-, h⟩ | ⟨-, -, h⟩ | ⟨-, -, a', ha, h⟩ := a.dup_cases v
  · rw [h]; exact Le.refl a
  · rw [h]; exact Le.refl a
  · rw [h]; exact le_alloc_write ha

/-- `dup` copied the view: it returned `d`, which shows the same text, and
took that many bytes. -/
structure Copies (a : HmrArena) (s : HmrStr) (d : HmrStr) (a' : HmrArena) : Prop where
  eq : a.dup s.sv = (d, a')
  room : s.text.length ≤ a.remaining
  text : d.text = s.text
  used : a'.used = a.used + s.text.length
  notNull : ¬ (d.data = .null ∧ s.sv.text ≠ [])

/-- **`dup` of a 32-bit view** either copies it, or finds no room and returns
the null view – which, for a view that shows something, is how callers tell
the two apart. -/
theorem dup_sv (a : HmrArena) (s : HmrStr) :
    (∃ d a', a.Copies s d a')
      ∨ (a.remaining < s.text.length ∧ a.dup s.sv = (HmrStr.empty, a) ∧ s.text ≠ []) := by
  have hc : clip s.sv.text = s.text := s.clip_text
  obtain ⟨hs, h⟩ | ⟨hs, hlt, h⟩ | ⟨-, hle, a', ha, h⟩ := a.dup_cases s.sv
  · rw [hc] at hs
    refine Or.inl ⟨_, _, h, ?_, hs.symm, ?_, fun h => h.2 hs⟩
    · rw [hs]
      exact Nat.zero_le _
    · rw [hs]
      rfl
  · rw [hc] at hs hlt
    exact Or.inr ⟨hlt, h, hs⟩
  · obtain ⟨-, -, hu, -⟩ := alloc_eq_some ha
    rw [hc] at hle hu
    refine Or.inl ⟨_, _, h, hle, hc, ?_, fun h => (nomatch h.1)⟩
    rw [write_used, hu]

end HmrArena

/-! ## Views and memory -/

namespace HmrStr

/-- The bytes at the address of the view, in the packet `raw` and the arena
`a`. Memory of the caller is not modelled: there the text stands for
itself. -/
def fetch (raw : Bytes) (a : HmrArena) (s : HmrStr) : Bytes :=
  match s.data with
  | .null => []
  | .addr .raw off => (raw.drop off).take s.text.length
  | .addr .arena off => a.read off s.text.length
  | .addr .ext _ => s.text

/-- A view into the arena lies in what is handed out. -/
def InUsed (a : HmrArena) (s : HmrStr) : Prop :=
  ∀ off, s.data = .addr .arena off → s.text = [] ∨ off + s.text.length ≤ a.used

/-- **The view reads its text**: it lies in what is handed out, and the bytes
at its address are the text it carries. -/
structure Reads (raw : Bytes) (a : HmrArena) (s : HmrStr) : Prop where
  inUsed : s.InUsed a
  fetch_eq : s.fetch raw a = s.text

/-- An empty view fetches what it shows, wherever it points. -/
theorem reads_of_nil (raw : Bytes) (a : HmrArena) {s : HmrStr} (h : s.text = []) :
    s.Reads raw a := by
  refine ⟨fun _ _ => Or.inl h, ?_⟩
  unfold fetch
  rw [h]
  split <;> rfl

/-- The view of nothing reads it. -/
theorem reads_empty (raw : Bytes) (a : HmrArena) : empty.Reads raw a :=
  reads_of_nil raw a rfl

/-- **A view keeps reading what it read as the arena grows.** -/
theorem Reads.mono {raw : Bytes} {a b : HmrArena} (h : a.Le b) {s : HmrStr}
    (hs : s.Reads raw a) : s.Reads raw b := by
  -- A view that shows nothing may point anywhere.
  by_cases hnil : s.text = []
  · exact reads_of_nil raw b hnil
  · have hin : ∀ off, s.data = .addr .arena off → off + s.text.length ≤ a.used :=
      fun off hd => (hs.inUsed off hd).resolve_left hnil
    refine ⟨fun off hd => Or.inr ((hin off hd).trans h.1), ?_⟩
    rw [← hs.fetch_eq]
    unfold fetch
    split
    · rfl
    · rfl
    · rename_i off hd
      exact h.read (hin off hd)
    · rfl

/-- A view into the packet reads what stands there. -/
theorem reads_raw (raw : Bytes) (a : HmrArena) {off : Nat} {s : Bytes}
    (h : s <+: raw.drop off) : (of ⟨.addr .raw off, s⟩).Reads raw a := by
  refine ⟨fun _ hd => (nomatch hd), ?_⟩
  show (raw.drop off).take (clip s).length = clip s
  exact (List.prefix_iff_eq_take.mp ((clip_isPrefix s).trans h)).symm

/-- What `dup` returns reads what it was given. -/
theorem reads_dup (raw : Bytes) (a : HmrArena) (v : StringView) :
    (a.dup v).1.Reads raw (a.dup v).2 := by
  obtain ⟨-, h⟩ | ⟨-, -, h⟩ | ⟨-, -, a', ha, h⟩ := a.dup_cases v
  · rw [h]
    exact reads_of_nil raw a rfl
  · rw [h]
    exact reads_empty raw a
  · rw [h]
    obtain ⟨-, -, hu, -⟩ := HmrArena.alloc_eq_some ha
    refine ⟨fun off hd => Or.inr ?_, ?_⟩
    · cases hd
      show a.used + (clip v.text).length ≤ a'.used
      rw [hu]
    · exact HmrArena.read_write_self _ _ _

end HmrStr

end Hmr
