import Hmr.Radix
import Mathlib.Data.Option.Basic

/-!
# String literals of C++

What stands between the quotes of a C++ string literal is a sequence of characters and of
escape sequences: simple ones, which are a backslash and a character, and octal ones,
which are a backslash and one, two or three octal digits – as many of them as there are.
The literal ends at the first quote that is none of an escape sequence, and it has no line
end in it.

`Cpp.readChars` reads what follows the opening quote. `Cpp.Spells` says that a text spells
out some characters whatever stands behind it, so that spellings of one character each may
be put next to each other (`Cpp.Spells.flatMap`). An octal sequence of fewer than three
digits is no such spelling, for the character behind it may be a digit.

Hexadecimal sequences and those of Unicode are left out, with whatever else may stand
behind a backslash: they are not read, and nothing is claimed of a literal with one.
-/

namespace Cpp

/-- The simple escape sequences: the character behind the backslash, and the one that is
meant. -/
def simpleEscapes : List (UInt8 × UInt8) :=
  [(39, 39), (34, 34), (63, 63), (92, 92), (97, 7), (98, 8), (102, 12), (110, 10), (114, 13),
   (116, 9), (118, 11)]

/-- An octal digit. -/
def isOctal (c : UInt8) : Bool := 48 ≤ c && c ≤ 55

/-- **The digits of an octal escape sequence**: as many as there are, and three at most. -/
def octalDigits (l : List UInt8) : List UInt8 := (l.take 3).takeWhile isOctal

/-- The number that some octal digits are. -/
def octalValue (digits : List UInt8) : ℕ := Radix.number 8 (digits.map fun d => d.toNat - 48)

/-- **An escape sequence**, behind its backslash: the character it stands for, and what
follows. An octal one has to fit a character. -/
def readEscape : List UInt8 → Option (UInt8 × List UInt8)
  | [] => none
  | c :: rest =>
    if isOctal c then
      if octalValue (octalDigits (c :: rest)) < 256 then
        some (UInt8.ofNat (octalValue (octalDigits (c :: rest))),
          (c :: rest).drop (octalDigits (c :: rest)).length)
      else none
    else (simpleEscapes.lookup c).map fun b => (b, rest)

/-- An escape sequence is not empty. -/
theorem readEscape_length {l : List UInt8} {r : UInt8 × List UInt8} (h : readEscape l = some r) :
    r.2.length < l.length := by
  cases l with
  | nil => cases h
  | cons c rest =>
    rw [readEscape] at h
    split_ifs at h with hoctal
    · cases h
      have hpos : 0 < (octalDigits (c :: rest)).length := by
        rw [octalDigits, List.take_succ_cons, List.takeWhile_cons_of_pos hoctal]
        exact Nat.succ_pos _
      rw [List.length_drop, List.length_cons]
      omega
    · obtain ⟨b, -, rfl⟩ := Option.map_eq_some_iff.mp h
      exact Nat.lt_succ_self _

/-- **The characters of a literal**, behind its opening quote, and what follows the
closing one. -/
def readChars (l : List UInt8) : Option (List UInt8 × List UInt8) :=
  match l with
  | [] => none
  | c :: rest =>
    if c = 34 then some ([], rest)
    else if c = 10 then none
    else if c = 92 then
      match _h : readEscape rest with
      | none => none
      | some (b, after) => (readChars after).map fun r => (b :: r.1, r.2)
    else (readChars rest).map fun r => (c :: r.1, r.2)
termination_by l.length
decreasing_by
  · exact Nat.lt_succ_of_lt (readEscape_length _h)
  · exact Nat.lt_succ_self _

/-- **The value of a literal**, given by what stands between its quotes. -/
def decode (body : List UInt8) : Option (List UInt8) :=
  match readChars (body ++ [34]) with
  | some (s, []) => some s
  | _ => none

/-- **No quote but behind a backslash.** -/
def isUnquoted : List UInt8 → Bool
  | [] => true
  | 92 :: _ :: rest => isUnquoted rest
  | c :: rest => c != 34 && isUnquoted rest

/-- **A text spells some characters**, whatever follows it. -/
def Spells (text chars : List UInt8) : Prop :=
  ∀ rest, readChars (text ++ rest) = (readChars rest).map fun r => (chars ++ r.1, r.2)

section
variable {c b : UInt8} {l rest text text' chars chars' : List UInt8}

/-- A quote is the end. -/
theorem readChars_quote : readChars (34 :: rest) = some ([], rest) := by
  rw [readChars, if_pos rfl]

/-- An escape sequence is one character. -/
theorem readChars_escape (h : readEscape l = some (b, rest)) :
    readChars (92 :: l) = (readChars rest).map fun r => (b :: r.1, r.2) := by
  rw [readChars, if_neg (by decide), if_neg (by decide), if_pos rfl]
  split
  · rename_i hnone
    rw [hnone] at h
    cases h
  · rename_i hsome
    rw [hsome] at h
    cases h
    rfl

/-! ## Spellings -/

/-- Nothing is spelled by nothing. -/
theorem Spells.nil : Spells [] [] := fun rest => by
  rw [List.nil_append]
  exact Option.map_id'.symm

/-- **Spellings next to each other.** -/
theorem Spells.append (h : Spells text chars) (h' : Spells text' chars') :
    Spells (text ++ text') (chars ++ chars') := fun rest => by
  rw [List.append_assoc, h, h', Option.map_map]
  refine Option.map_congr fun r _ => ?_
  rw [Function.comp_apply, List.append_assoc]

/-- **A spelling of each character** is one of them all. -/
theorem Spells.flatMap {f : UInt8 → List UInt8} (h : ∀ c, Spells (f c) [c]) (s : List UInt8) :
    Spells (s.flatMap f) s := by
  induction s with
  | nil => exact .nil
  | cons c s ih =>
    rw [List.flatMap_cons]
    exact (h c).append ih

/-- A character stands for itself, if it is no quote, no backslash and no line end. -/
theorem Spells.char (hquote : c ≠ 34) (hbreak : c ≠ 10) (hescape : c ≠ 92) : Spells [c] [c] :=
  fun rest => by
    rw [List.singleton_append, readChars, if_neg hquote, if_neg hbreak, if_neg hescape]
    rfl

/-- A simple escape sequence. -/
theorem Spells.simple (hoctal : isOctal c = false) (h : simpleEscapes.lookup c = some b) :
    Spells [92, c] [b] := fun rest => by
  refine readChars_escape (l := c :: rest) ?_
  rw [readEscape, if_neg (Bool.eq_false_iff.mp hoctal), h]
  rfl

/-- **An octal escape sequence of three digits** takes no digit of what follows. -/
theorem Spells.octal {x y z : UInt8} (hx : isOctal x = true) (hy : isOctal y = true)
    (hz : isOctal z = true) (h : octalValue [x, y, z] = b.toNat) : Spells [92, x, y, z] [b] :=
  fun rest => by
    have hdigits : octalDigits (x :: y :: z :: rest) = [x, y, z] := by
      rw [octalDigits, List.take_succ_cons, List.take_succ_cons, List.take_succ_cons,
        List.take_zero]
      rw [List.takeWhile_cons_of_pos hx, List.takeWhile_cons_of_pos hy,
        List.takeWhile_cons_of_pos hz, List.takeWhile_nil]
    refine readChars_escape (l := x :: y :: z :: rest) ?_
    rw [readEscape, if_pos hx, hdigits, h, if_pos b.toNat_lt, UInt8.ofNat_toNat]
    rfl

/-- **The literal of a spelling.** -/
theorem Spells.readChars_quote (h : Spells text chars) (rest : List UInt8) :
    readChars (text ++ 34 :: rest) = some (chars, rest) := by
  rw [h, Cpp.readChars_quote, Option.map_some, List.append_nil]

/-- A text that spells out characters is their literal. -/
theorem Spells.decode (h : Spells text chars) : decode text = some chars := by
  rw [Cpp.decode, h.readChars_quote]

end

end Cpp
