import Mathlib.Algebra.GroupWithZero.Nat
import Mathlib.Data.List.DropRight
import Mathlib.Data.List.Infix

/-!
# Byte strings

What the message model, the matchers and the rule language all work on: byte strings, and
the few operations on them that the sources write out by hand – finding a byte, trimming
blanks, comparing without regard to ASCII case, and cutting a length down to the 32 bits a
view has room for.

Everything is stated about lists of bytes. Where a byte *lives* – in the packet, in the
arena, in a literal – is the business of the views built on top of this. What is text to a
reader of the sources, a header name or a keyword, is bytes here as well (`txt`).

There are two functions of the name `trim` in the sources, which differ in what they drop
at the back; both are instances of `trimBy`, about which the lemmas are. For finding there
is one way to use it: a string in which a byte is found is what stands before it, the
byte, and what stands behind (`find_eq_some`), and the first part does not have the byte.
-/

namespace Hmr

/-- What a `std::string` or a `std::string_view` holds. -/
abbrev Bytes : Type := List UInt8

/-- The bytes of an ASCII literal. -/
def txt (s : String) : Bytes := s.toList.map fun c => UInt8.ofNat c.toNat

/-- The horizontal tab. -/
abbrev tab : UInt8 := 9
/-- The line feed, `'\n'`. -/
abbrev lf : UInt8 := 10
/-- The carriage return, `'\r'`. -/
abbrev cr : UInt8 := 13
/-- The space. -/
abbrev sp : UInt8 := 32
/-- The colon. -/
abbrev colon : UInt8 := 58

/-- The line end `serialize` writes. -/
abbrev crlf : Bytes := [cr, lf]

/-! ## Lengths of 32 bits

A view carries its length in a `uint32_t`, and `static_cast<uint32_t>` of a
longer length keeps it modulo `2 ^ 32`: the view then shows that many bytes
from the front. -/

/-- The bytes a 32-bit view of `s` shows. -/
def clip (s : Bytes) : Bytes := s.take (s.length % 2 ^ 32)

/-- A view shows the front of its string. -/
theorem clip_isPrefix (s : Bytes) : clip s <+: s := List.take_prefix _ _

/-- A string of less than `2 ^ 32` bytes is shown as it is, -/
theorem clip_of_lt {s : Bytes} (h : s.length < 2 ^ 32) : clip s = s := by
  rw [clip, Nat.mod_eq_of_lt h, List.take_length]

/-- the empty one at any rate, -/
@[simp] theorem clip_nil : clip [] = [] := rfl

/-- and what is shown has less. -/
theorem clip_length_lt (s : Bytes) : (clip s).length < 2 ^ 32 :=
  lt_of_le_of_lt (List.length_take_le _ _) (Nat.mod_lt _ (by decide))

/-- What is shown is in the string. -/
theorem mem_of_mem_clip {c : UInt8} {s : Bytes} (h : c ∈ clip s) : c ∈ s :=
  (clip_isPrefix s).subset h

/-- What is shown is shown whole. -/
@[simp] theorem clip_clip (s : Bytes) : clip (clip s) = clip s :=
  clip_of_lt (clip_length_lt s)

/-! ## Finding a byte -/

/-- `s.find(c, pos)`: where `c` first occurs from `pos` on. -/
def find (s : Bytes) (c : UInt8) (pos : Nat) : Option Nat :=
  ((s.drop pos).idxOf? c).map (· + pos)

/-- Nothing is found exactly where nothing is. -/
theorem find_eq_none_iff {s : Bytes} {c : UInt8} : find s c 0 = none ↔ c ∉ s := by
  simp [find]

/-- The first occurrence splits the string: nothing before it is `c`. -/
theorem find_append {a b : Bytes} {c : UInt8} (h : c ∉ a) :
    find (a ++ c :: b) c 0 = some a.length := by
  have hi : List.idxOf? c (a ++ c :: b) = some a.length := by
    rw [List.idxOf?_eq_some_iff]
    refine ⟨by simp, by simp, fun j hj => ?_⟩
    rw [List.getElem_append_left hj]
    exact fun he => h (he ▸ List.getElem_mem hj)
  rw [find, List.drop_zero, hi]
  rfl

/-- A string in which `c` is found is what stands before, `c`, and what
stands behind. -/
theorem find_eq_some {s : Bytes} {c : UInt8} {i : Nat} (h : find s c 0 = some i) :
    s = s.take i ++ c :: s.drop (i + 1) ∧ c ∉ s.take i ∧ i < s.length := by
  have hi : List.idxOf? c s = some i := by
    simpa [find] using h
  obtain ⟨hlt, hc, hmin⟩ := List.idxOf?_eq_some_iff.mp hi
  refine ⟨?_, fun hm => ?_, hlt⟩
  · calc s = s.take i ++ s.drop i := (List.take_append_drop i s).symm
      _ = s.take i ++ c :: s.drop (i + 1) := by
          rw [List.drop_eq_getElem_cons hlt, hc]
  · obtain ⟨j, hj, hjc⟩ := List.getElem_of_mem hm
    have hji : j < i := lt_of_lt_of_le hj (List.length_take_le _ _)
    rw [List.getElem_take] at hjc
    exact hmin j hji hjc

/-- Every string either has no `c` or splits at its first one. -/
theorem find_cases (s : Bytes) (c : UInt8) :
    (c ∉ s ∧ find s c 0 = none)
      ∨ ∃ a b, s = a ++ c :: b ∧ c ∉ a ∧ find s c 0 = some a.length := by
  cases hf : find s c 0 with
  | none => exact Or.inl ⟨find_eq_none_iff.mp hf, rfl⟩
  | some i =>
    obtain ⟨hs, hc, hlt⟩ := find_eq_some hf
    refine Or.inr ⟨s.take i, s.drop (i + 1), hs, hc, ?_⟩
    rw [List.length_take, Nat.min_eq_left (Nat.le_of_lt hlt)]

/-! ## Trimming -/

/-- Drop bytes off the front, then off the back. -/
def trimBy (front back : UInt8 → Bool) (s : Bytes) : Bytes :=
  (s.dropWhile front).rdropWhile back

/-- A space or a tab. -/
def isBlank (c : UInt8) : Bool := c == sp || c == tab

/-- A space, a tab or a carriage return. -/
def isBlankOrCr (c : UInt8) : Bool := c == sp || c == tab || c == cr

/-- `trim` of the message model: blanks at both ends, and carriage returns
at the back. -/
def trim (s : Bytes) : Bytes := trimBy isBlank isBlankOrCr s

/-- `trim` of the URI splitter and of the matchers: blanks at both ends. -/
def trimBlanks (s : Bytes) : Bytes := trimBy isBlank isBlank s

section
variable {front back : UInt8 → Bool}

/-- What is left is a part of the string, -/
theorem trimBy_isInfix (s : Bytes) : trimBy front back s <:+: s :=
  (List.rdropWhile_prefix back _).isInfix.trans (List.dropWhile_suffix front).isInfix

/-- and so are its bytes. -/
theorem mem_of_mem_trimBy {c : UInt8} {s : Bytes} (h : c ∈ trimBy front back s) :
    c ∈ s :=
  (trimBy_isInfix s).subset h

/-- What is cut off the back of a string with its front dropped leaves
nothing more to drop at the front. -/
theorem dropWhile_of_prefix {t s : Bytes} (h : t <+: s.dropWhile front) :
    t.dropWhile front = t := by
  cases t with
  | nil => rfl
  | cons c t =>
    obtain ⟨r, hr⟩ := h
    have hc := List.head?_dropWhile_not front s
    rw [← hr] at hc
    exact List.dropWhile_cons_of_neg (by simpa using hc)

/-- **Trimming is idempotent.** -/
@[simp] theorem trimBy_trimBy (s : Bytes) :
    trimBy front back (trimBy front back s) = trimBy front back s := by
  have hfront : (trimBy front back s).dropWhile front = trimBy front back s :=
    dropWhile_of_prefix (List.rdropWhile_prefix back _)
  rw [trimBy, hfront]
  exact List.rdropWhile_idempotent back _

/-- A byte to be dropped in front makes no difference, -/
theorem trimBy_cons {c : UInt8} (h : front c = true) (s : Bytes) :
    trimBy front back (c :: s) = trimBy front back s := by
  rw [trimBy, List.dropWhile_cons_of_pos h]
  rfl

/-- and neither does one at the back. -/
theorem trimBy_append_singleton {c : UInt8} (h : back c = true) (s : Bytes) :
    trimBy front back (s ++ [c]) = trimBy front back s := by
  rw [trimBy, List.dropWhile_append]
  split
  · rename_i hs
    rw [List.isEmpty_iff] at hs
    rw [trimBy, hs, List.rdropWhile_nil]
    cases hc : front c with
    | true =>
      rw [List.dropWhile_cons_of_pos hc]
      rfl
    | false =>
      rw [List.dropWhile_cons_of_neg (by simp [hc])]
      exact List.rdropWhile_singleton back c |>.trans (by simp [h])
  · rw [List.rdropWhile_concat, if_pos h]
    rfl

/-- A byte of neither set survives. -/
theorem mem_trimBy {c : UInt8} (hf : front c = false) (hb : back c = false)
    {s : Bytes} (h : c ∈ s) : c ∈ trimBy front back s := by
  have keep : ∀ (p : UInt8 → Bool) (l : Bytes), p c = false → c ∈ l →
      c ∈ l.dropWhile p := by
    intro p l hp hl
    rw [← List.takeWhile_append_dropWhile (p := p) (l := l), List.mem_append] at hl
    refine hl.resolve_left fun ht => ?_
    rw [List.mem_takeWhile_imp ht] at hp
    cases hp
  rw [trimBy, List.rdropWhile, List.mem_reverse]
  exact keep back _ hb (List.mem_reverse.mpr (keep front _ hf h))

end

/-- The same for the `trim` of the message model, -/
theorem trim_isInfix (s : Bytes) : trim s <:+: s := trimBy_isInfix s

/-- whose bytes are those of the string. -/
theorem mem_of_mem_trim {c : UInt8} {s : Bytes} (h : c ∈ trim s) : c ∈ s :=
  mem_of_mem_trimBy h

/-- It is idempotent; -/
@[simp] theorem trim_trim (s : Bytes) : trim (trim s) = trim s := trimBy_trimBy s

/-- there is nothing to drop of nothing; -/
@[simp] theorem trim_nil : trim [] = [] := rfl

/-- a blank in front makes no difference, -/
@[simp] theorem trim_sp_cons (s : Bytes) : trim (sp :: s) = trim s :=
  trimBy_cons (by decide) s

/-- and neither does a carriage return behind. -/
@[simp] theorem trim_append_cr (s : Bytes) : trim (s ++ [cr]) = trim s :=
  trimBy_append_singleton (by decide) s

/-- A colon is not dropped. -/
theorem colon_mem_trim {s : Bytes} (h : colon ∈ s) : colon ∈ trim s :=
  mem_trimBy (by decide) (by decide) h

/-! ## Splitting -/

/-- A piece of a string is made of bytes that do not separate. -/
theorem mem_of_mem_splitOnP {p : UInt8 → Bool} {s piece : Bytes} (h : piece ∈ s.splitOnP p) :
    ∀ c ∈ piece, c ∈ s ∧ p c = false := by
  -- A separator starts a new piece, and any other byte goes to the first one.
  induction s generalizing piece with
  | nil =>
    rw [List.splitOnP_nil, List.mem_singleton] at h
    subst h
    simp
  | cons x s ih =>
    have hrest : ∀ piece ∈ s.splitOnP p, ∀ c ∈ piece, c ∈ x :: s ∧ p c = false :=
      fun piece hpiece c hc => ⟨List.mem_cons_of_mem _ (ih hpiece c hc).1, (ih hpiece c hc).2⟩
    rw [List.splitOnP_cons_eq_if_modifyHead] at h
    split at h
    · rcases List.mem_cons.mp h with rfl | h
      · simp
      · exact hrest piece h
    · rename_i hx
      cases hs : s.splitOnP p with
      | nil => exact absurd hs (List.splitOnP_ne_nil p s)
      | cons first more =>
        rw [hs] at h hrest
        rcases List.mem_cons.mp h with rfl | h
        · exact List.forall_mem_cons.mpr
            ⟨⟨List.mem_cons_self, by simpa using hx⟩, hrest first List.mem_cons_self⟩
        · exact hrest piece (List.mem_cons_of_mem _ h)

/-! ## Comparing without regard to case -/

/-- `ascii_to_lower`. -/
def asciiToLower (c : UInt8) : UInt8 := if 65 ≤ c ∧ c ≤ 90 then c - 65 + 97 else c

/-- `iequals`: equal lengths, and equal bytes up to case. -/
def iequals (a b : Bytes) : Bool :=
  if a.length ≠ b.length then false
  else (a.zip b).all fun p => asciiToLower p.1 == asciiToLower p.2

/-- **`iequals` compares the lower-cased strings.** -/
theorem iequals_iff {a b : Bytes} :
    iequals a b = true ↔ a.map asciiToLower = b.map asciiToLower := by
  induction a generalizing b with
  | nil => cases b <;> simp [iequals]
  | cons x a ih =>
    cases b with
    | nil => simp [iequals]
    | cons y b =>
      have := @ih b
      simp only [iequals, List.length_cons, List.zip_cons_cons, List.all_cons,
        List.map_cons, List.cons.injEq] at this ⊢
      -- Lengths are compared first.
      by_cases hl : a.length = b.length
      · rw [if_neg (by simpa using hl)] at this
        rw [if_neg (by simpa using hl), Bool.and_eq_true, this, beq_iff_eq]
      · rw [if_pos (by simpa using hl)]
        refine ⟨fun h => (Bool.false_ne_true h).elim, fun h => (hl ?_).elim⟩
        simpa using congrArg List.length h.2

/-- A string is equal to itself. -/
@[simp] theorem iequals_refl (a : Bytes) : iequals a a = true := iequals_iff.mpr rfl

end Hmr
