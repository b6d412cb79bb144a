import Hmr.BackReferences
import Hmr.CppLiterals

/-!
# The string literals of the C++ back-end

Literals, patterns and header names reach the generated C++ as
`HmrStr{"…", …u}`, with the characters escaped (`CppGenerator.esc`) and the length
written out (`CppGenerator.strLit`). What a C++ compiler reads there is what was written
(`CppGenerator.hmrStrOf_strLit`), as long as the length fits the 32 bits an `HmrStr` has
for it: braces do not narrow, so a longer one does not compile.

A byte is spelled by itself, by a simple escape sequence or by an octal one of three
digits. Since an octal sequence has room for three digits and no more, a digit that comes
behind it is read as itself; that is why each byte is decoded on its own, whatever its
neighbours are, and the facts about strings are the facts about bytes, put together along
the list (`Cpp.Spells.flatMap`).
-/

namespace Hmr

namespace CppGenerator

/-- An octal digit of a byte. -/
def octalDigit (d : UInt8) : UInt8 := 48 + (d &&& 7)

/-- One byte of `esc`. -/
def escByte (c : UInt8) : Bytes :=
  if c = 92 then [92, 92]
  else if c = 34 then [92, 34]
  else if c = lf then [92, 110]
  else if c = cr then [92, 114]
  else if c = tab then [92, 116]
  else if c < 32 ∨ 127 ≤ c then [92, octalDigit (c >>> 6), octalDigit (c >>> 3), octalDigit c]
  else [c]

/-- **`esc`**: the body of a string literal. -/
def esc (s : Bytes) : Bytes := s.flatMap escByte

/-- **`CppEmitter::str_lit`**. -/
def strLit (s : Bytes) : Bytes :=
  txt "HmrStr\x7b\"" ++ esc s ++ txt "\", " ++ Lowering.toDecimal s.length ++ txt "u\x7d"

/-- **What the expression `HmrStr{"…", …u}` denotes**, as a C++ compiler reads it: that
many bytes from the front of the array the literal is, which has a NUL at its end. The
length of an `HmrStr` has 32 bits, and braces do not take a number with more of them. -/
def hmrStrOf (e : Bytes) : Option Bytes := do
  let body ← e.dropPrefix? (txt "HmrStr\x7b\"")
  let (chars, rest) ← Cpp.readChars body
  let number ← rest.dropPrefix? (txt ", ")
  let n := Value.digitsVal (number.takeWhile Value.isDigit)
  if number.dropWhile Value.isDigit = txt "u\x7d" ∧ n < 2 ^ 32 ∧ n ≤ chars.length + 1 then
    some ((chars ++ [0]).take n)
  else none

/-! ## One byte -/

/-- An octal digit, as a character. -/
@[simp] theorem toNat_octalDigit (d : UInt8) : (octalDigit d).toNat = 48 + d.toNat % 8 := by
  have hmask : d.toNat &&& 7 = d.toNat % 2 ^ 3 := Nat.and_two_pow_sub_one_eq_mod d.toNat 3
  have hlt : d.toNat % 2 ^ 3 < 8 := Nat.mod_lt _ (by decide)
  rw [octalDigit, UInt8.toNat_add, UInt8.toNat_and, show (7 : UInt8).toNat = 7 from rfl,
    show (48 : UInt8).toNat = 48 from rfl, hmask, Nat.mod_eq_of_lt (by omega)]
  rfl

/-- It is one. -/
@[simp] theorem isOctal_octalDigit (d : UInt8) : Cpp.isOctal (octalDigit d) = true := by
  have hd := toNat_octalDigit d
  have hlt : d.toNat % 8 < 8 := Nat.mod_lt _ (by decide)
  rw [Cpp.isOctal, Bool.and_eq_true, decide_eq_true_iff, decide_eq_true_iff,
    UInt8.le_iff_toNat_le, UInt8.le_iff_toNat_le, hd]
  exact ⟨Nat.le_add_right 48 _, Nat.add_le_add_left (Nat.le_of_lt_succ hlt) 48⟩

/-- **Three digits are the byte.** -/
@[simp] theorem octalValue_octalDigit (c : UInt8) :
    Cpp.octalValue [octalDigit (c >>> 6), octalDigit (c >>> 3), octalDigit c] = c.toNat := by
  have hlt := c.toNat_lt
  have h6 : (c >>> 6).toNat = c.toNat / 64 := by
    rw [UInt8.toNat_shiftRight, Nat.shiftRight_eq_div_pow]
    rfl
  have h3 : (c >>> 3).toNat = c.toNat / 8 := by
    rw [UInt8.toNat_shiftRight, Nat.shiftRight_eq_div_pow]
    rfl
  simp only [Cpp.octalValue, List.map_cons, List.map_nil, Radix.number_cons, Radix.number_nil,
    List.length_cons, List.length_nil, toNat_octalDigit, h6, h3]
  omega

/-- **A byte is spelled**, by itself or by an escape sequence. -/
theorem spells_escByte (c : UInt8) : Cpp.Spells (escByte c) [c] := by
  unfold escByte
  split_ifs with hescape hquote hlf hcr htab hodd
  · rw [hescape]
    exact .simple rfl rfl
  · rw [hquote]
    exact .simple rfl rfl
  · rw [hlf]
    exact .simple rfl rfl
  · rw [hcr]
    exact .simple rfl rfl
  · rw [htab]
    exact .simple rfl rfl
  · exact .octal (isOctal_octalDigit _) (isOctal_octalDigit _) (isOctal_octalDigit _)
      (octalValue_octalDigit c)
  · exact .char hquote hlf hescape

/-- **Only printable characters are written.** -/
theorem printable_escByte {c d : UInt8} (hd : d ∈ escByte c) : 32 ≤ d ∧ d < 127 := by
  have hdigit : ∀ e, 32 ≤ octalDigit e ∧ octalDigit e < 127 := by
    intro e
    have he := toNat_octalDigit e
    have hlt : e.toNat % 8 < 8 := Nat.mod_lt _ (by decide)
    rw [UInt8.le_iff_toNat_le, UInt8.lt_iff_toNat_lt, he, show (32 : UInt8).toNat = 32 from rfl,
      show (127 : UInt8).toNat = 127 from rfl]
    omega
  unfold escByte at hd
  split_ifs at hd with hescape hquote hlf hcr htab hodd
  all_goals simp only [List.mem_cons, List.not_mem_nil, or_false] at hd
  · obtain rfl | rfl := hd <;> decide
  · obtain rfl | rfl := hd <;> decide
  · obtain rfl | rfl := hd <;> decide
  · obtain rfl | rfl := hd <;> decide
  · obtain rfl | rfl := hd <;> decide
  · obtain rfl | rfl | rfl | rfl := hd
    · decide
    · exact hdigit _
    · exact hdigit _
    · exact hdigit _
  · rw [hd]
    exact ⟨UInt8.not_lt.mp fun h => hodd (.inl h), UInt8.not_le.mp fun h => hodd (.inr h)⟩

/-- A quote comes behind a backslash. -/
theorem isUnquoted_escByte (c : UInt8) (rest : Bytes) :
    Cpp.isUnquoted (escByte c ++ rest) = Cpp.isUnquoted rest := by
  have hplain : ∀ (d : UInt8) (l : Bytes), d ≠ 34 → d ≠ 92 →
      Cpp.isUnquoted (d :: l) = Cpp.isUnquoted l := by
    intro d l hquote hescape
    rw [Cpp.isUnquoted.eq_3 _ _ (by intro e m h; exact absurd h hescape), bne_iff_ne.mpr hquote,
      Bool.true_and]
  have hdigit : ∀ (d : UInt8) (l : Bytes),
      Cpp.isUnquoted (octalDigit d :: l) = Cpp.isUnquoted l := by
    intro d l
    have hd := toNat_octalDigit d
    have hlt : d.toNat % 8 < 8 := Nat.mod_lt _ (by decide)
    refine hplain _ l (fun h => ?_) fun h => ?_
    · rw [h, show (34 : UInt8).toNat = 34 from rfl] at hd
      omega
    · rw [h, show (92 : UInt8).toNat = 92 from rfl] at hd
      omega
  unfold escByte
  split_ifs with hescape hquote
  iterate 5 rfl
  · show Cpp.isUnquoted (octalDigit (c >>> 3) :: octalDigit c :: rest) = _
    rw [hdigit, hdigit]
  · exact hplain c rest hquote hescape

/-! ## Strings -/

/-- **An escaped string spells the string.** -/
theorem spells_esc (s : Bytes) : Cpp.Spells (esc s) s := .flatMap spells_escByte s

/-- It has printable characters only. -/
theorem printable_esc {s : Bytes} {d : UInt8} (hd : d ∈ esc s) : 32 ≤ d ∧ d < 127 := by
  obtain ⟨c, -, hc⟩ := List.mem_flatMap.mp hd
  exact printable_escByte hc

/-- Its quotes are escaped. -/
@[simp] theorem isUnquoted_esc (s : Bytes) : Cpp.isUnquoted (esc s) = true := by
  induction s with
  | nil => rfl
  | cons c s ih => rw [esc, List.flatMap_cons, isUnquoted_escByte, ← esc, ih]

/-- **An `HmrStr` denotes what it was written from**, if its length fits. -/
theorem hmrStrOf_strLit (s : Bytes) :
    hmrStrOf (strLit s) = if s.length < 2 ^ 32 then some s else none := by
  have hdigits : ∀ c ∈ Lowering.toDecimal s.length, Value.isDigit c = true :=
    fun c hc => Lowering.isDigit_of_mem_toDecimal hc
  have htake : (Lowering.toDecimal s.length ++ txt "u\x7d").takeWhile Value.isDigit
      = Lowering.toDecimal s.length := by
    rw [List.takeWhile_append_of_pos hdigits]
    exact List.append_nil _
  have hdrop : (Lowering.toDecimal s.length ++ txt "u\x7d").dropWhile Value.isDigit
      = txt "u\x7d" := by
    rw [List.dropWhile_append_of_pos hdigits]
    rfl
  -- The literal is read up to its quote, and behind it the digits of the length.
  have hread : Cpp.readChars
      (esc s ++ (txt "\", " ++ (Lowering.toDecimal s.length ++ txt "u\x7d")))
      = some (s, txt ", " ++ (Lowering.toDecimal s.length ++ txt "u\x7d")) :=
    (spells_esc s).readChars_quote _
  rw [hmrStrOf, strLit, List.append_assoc, List.append_assoc, List.append_assoc,
    List.dropPrefix?_append_of_beq _ (beq_self_eq_true _), Option.bind_eq_bind, Option.bind_some,
    hread]
  show (List.dropPrefix? (txt ", " ++ _) (txt ", ")).bind _ = _
  rw [List.dropPrefix?_append_of_beq _ (beq_self_eq_true _), Option.bind_some]
  simp only [htake, hdrop, Lowering.digitsVal_toDecimal]
  have hfirst : (s ++ [0]).take s.length = s := List.take_left' rfl
  by_cases hfits : s.length < 2 ^ 32
  · rw [if_pos ⟨trivial, hfits, Nat.le_succ _⟩, if_pos hfits, hfirst]
  · rw [if_neg fun h => hfits h.2.1, if_neg hfits]

/-- **Strings are escaped exactly**: there is no line end in them and no quote but
escaped ones, a compiler reads the string that was written, be it followed by the
closing quote or by digits, and an `HmrStr` denotes it – as long as it has no more
characters than an `HmrStr` can. -/
theorem esc_exact (s : Bytes) :
    lf ∉ esc s ∧ Cpp.isUnquoted (esc s) = true ∧ Cpp.decode (esc s) = some s
      ∧ (∀ rest, Cpp.readChars (esc s ++ 34 :: rest) = some (s, rest))
      ∧ (∀ rest, Cpp.readChars (esc s ++ rest)
          = (Cpp.readChars rest).map fun r => (s ++ r.1, r.2))
      ∧ hmrStrOf (strLit s) = if s.length < 2 ^ 32 then some s else none := by
  refine ⟨fun h => ?_, isUnquoted_esc s, (spells_esc s).decode, (spells_esc s).readChars_quote,
    spells_esc s, hmrStrOf_strLit s⟩
  exact absurd (printable_esc h).1 (by decide)

/-- **A string of four gibibytes is not denoted**: its length does not fit an
`HmrStr`, and what is written for it does not compile. -/
theorem not_esc_exact :
    ¬ ∀ s : Bytes, lf ∉ esc s ∧ Cpp.isUnquoted (esc s) = true ∧ Cpp.decode (esc s) = some s
      ∧ (∀ rest, Cpp.readChars (esc s ++ 34 :: rest) = some (s, rest))
      ∧ (∀ rest, Cpp.readChars (esc s ++ rest)
          = (Cpp.readChars rest).map fun r => (s ++ r.1, r.2))
      ∧ hmrStrOf (strLit s) = some s := by
  intro h
  obtain ⟨s, hlen⟩ : ∃ s : Bytes, s.length = 2 ^ 32 :=
    ⟨List.replicate (2 ^ 32) 97, List.length_replicate⟩
  obtain ⟨-, -, -, -, -, hdenotes⟩ := h s
  rw [hmrStrOf_strLit, if_neg (by omega)] at hdenotes
  cases hdenotes

/-- A NUL and a digit: the escape sequence is full before the digit. -/
example : esc [0, 49] = txt "\\0001" := rfl

end CppGenerator

end Hmr
