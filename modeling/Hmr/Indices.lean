import Hmr.Value

/-!
# Capture indices

Reading a value fails in one way only: `std::stoi` throws when a run of digits is beyond
`INT_MAX`. Which runs reach it is a matter of where they stand. A run directly behind a
`$` does, be it a capture `$1` or the end of a chain `$rule.$1`, unless braces `${…}`
enclose it.

The reading goes reference by reference. What it converts is found here with a scan that
goes byte by byte and remembers only its place (`Value.Place`), and the two agree: a text
is read exactly when all its indices fit (`Value.interpolate_isSome`), and so is a value
(`Value.parse_isSome`).

The scan has no need to know what a reference comes to. In a text it waits for a `$`;
behind one it sees whether digits follow, or an identifier, or braces; and behind an
identifier it sees whether the chain goes on. Where the reading takes a reference as a
whole, the scan has gone through its characters, and is in a text again (`Value.Reads`),
with no index left behind that the reading has not converted.

How a value is read depends on what it is for. A match-value is read for references only
if it begins with one, and a new-value operand by operand. A quoted value, or a literal,
is not read for references at all.
-/

namespace Hmr

namespace Value

/-- **Where a scan stands** in a text. -/
inductive Place
  /-- Outside of references. -/
  | text
  /-- Behind a `$`. -/
  | dollar
  /-- In an identifier of a chain. -/
  | ident
  /-- Behind the `.` after one. -/
  | dot
  /-- Behind the `$` after that. -/
  | link
  /-- Between braces. -/
  | braces
  deriving DecidableEq, Repr

namespace Place

/-- A run of digits here is a capture index. -/
def takesIndex : Place → Bool
  | dollar | link => true
  | _ => false

/-- The place behind one more byte. -/
def next (p : Place) (c : UInt8) : Place :=
  match p with
  | braces => if c = 125 then text else braces
  | ident =>
    if isIdentCont c then ident else if c = 46 then dot else if c = 36 then dollar else text
  | dot => if c = 36 then link else text
  | dollar =>
    if c = 123 then braces
    else if isIdentStart c then ident else if c = 36 then dollar else text
  | link => if isIdentStart c then ident else if c = 36 then dollar else text
  | text => if c = 36 then dollar else text

end Place

/-- **The capture indices of a text**, scanned from some place on. -/
def indices : Place → Bytes → List Bytes
  | _, [] => []
  | p, c :: rest =>
    if p.takesIndex && isDigit c then
      (c :: rest).takeWhile isDigit :: indices .text rest
    else indices (p.next c) rest

/-- Every capture index is an `int`. -/
def Fits (p : Place) (text : Bytes) : Prop := ∀ num ∈ indices p text, digitsVal num ≤ 2147483647

instance (p : Place) (text : Bytes) : Decidable (Fits p text) :=
  inferInstanceAs (Decidable (∀ num ∈ indices p text, _))

section
variable {c : UInt8} {text rest : Bytes} {p : Place}

/-- There are no digits in nothing. -/
@[simp] theorem fits_nil : Fits p [] := fun _ h => (nomatch h)

/-! ### One reference after the other -/

/-- What starts an identifier is no digit. -/
theorem isDigit_of_isIdentStart (h : isIdentStart c = true) : isDigit c = false := by
  simp only [isIdentStart, isAlpha, Bool.or_eq_true, Bool.and_eq_true, decide_eq_true_eq,
    beq_iff_eq, UInt8.le_iff_toNat_le, ← UInt8.toNat_inj] at h
  simp only [isDigit, Bool.and_eq_false_iff, decide_eq_false_iff_not, UInt8.le_iff_toNat_le]
  simp only [UInt8.reduceToNat] at h ⊢
  omega

/-- In a text, nothing but a dollar matters. -/
theorem indices_text_cons (h : c ≠ 36) : indices .text (c :: rest) = indices .text rest := by
  simp [indices, Place.takesIndex, Place.next, h]

/-- Outside of references a run of digits is text. -/
@[simp] theorem indices_text_dropWhile :
    indices .text (rest.dropWhile isDigit) = indices .text rest := by
  induction rest with
  | nil => rfl
  | cons c rest ih =>
    by_cases hc : isDigit c = true
    · rw [List.dropWhile_cons_of_pos hc, ih, indices_text_cons]
      rintro rfl
      revert hc
      decide
    · rw [List.dropWhile_cons_of_neg hc]

/-- Where an index may stand, a run of digits is one. -/
theorem fits_digits (hp : p.takesIndex = true) (hne : (rest.takeWhile isDigit).isEmpty = false) :
    Fits p rest ↔ digitsVal (rest.takeWhile isDigit) ≤ 2147483647
      ∧ Fits .text (rest.dropWhile isDigit) := by
  cases rest with
  | nil => cases hne
  | cons c rest =>
    have hc : isDigit c = true := by
      by_contra hc
      simp [hc] at hne
    unfold Fits
    rw [indices, hp, hc, List.dropWhile_cons_of_pos hc, indices_text_dropWhile]
    exact List.forall_mem_cons

/-- Braces hide what they enclose. -/
theorem indices_braces :
    indices .braces rest = indices .text ((rest.dropWhile (· != 125)).drop 1) := by
  induction rest with
  | nil => rfl
  | cons c rest ih =>
    by_cases hc : c = 125
    · subst hc
      rfl
    · rw [List.dropWhile_cons_of_pos (by simpa using hc), ← ih]
      simp [indices, Place.takesIndex, Place.next, hc]

/-- An identifier is read to its end. -/
@[simp] theorem indices_ident_dropWhile :
    indices .ident (rest.dropWhile isIdentCont) = indices .ident rest := by
  induction rest with
  | nil => rfl
  | cons c rest ih =>
    by_cases hc : isIdentCont c = true
    · rw [List.dropWhile_cons_of_pos hc, ih]
      simp [indices, Place.takesIndex, Place.next, hc]
    · rw [List.dropWhile_cons_of_neg hc]

/-- Behind an identifier a chain goes on with `.$`, and is over otherwise. -/
theorem indices_ident_of_not (h : ∀ c, rest.head? = some c → isIdentCont c = false)
    (hchain : ∀ after, rest ≠ 46 :: 36 :: after) : indices .ident rest = indices .text rest := by
  cases rest with
  | nil => rfl
  | cons c rest =>
    have hc := h c rfl
    by_cases hdot : c = 46
    · subst hdot
      cases rest with
      | nil => rfl
      | cons d rest =>
        have hd : d ≠ 36 := fun hd => hchain rest (by rw [hd])
        simp [indices, Place.takesIndex, Place.next, hc, hd]
    · simp [indices, Place.takesIndex, Place.next, hc, hdot]

/-- A chain starts or goes on with an identifier. -/
theorem indices_of_isIdentStart (hp : p.takesIndex = true) (hc : isIdentStart c = true) :
    indices p (c :: rest) = indices .ident rest := by
  have hbrace : c ≠ 123 := by
    rintro rfl
    revert hc
    decide
  cases p with
  | dollar => simp [indices, Place.next, isDigit_of_isIdentStart hc, hc, hbrace]
  | link => simp [indices, Place.next, isDigit_of_isIdentStart hc, hc]
  | _ => cases hp

/-- A `$` that starts no reference is text. -/
theorem indices_of_not (hp : p.takesIndex = true) (hdigit : isDigit c = false)
    (hstart : isIdentStart c = false) (hbrace : p = .dollar → c ≠ 123) :
    indices p (c :: rest) = indices .text (c :: rest) := by
  cases p with
  | dollar => simp [indices, Place.takesIndex, Place.next, hdigit, hstart, hbrace rfl]
  | link => simp [indices, Place.takesIndex, Place.next, hdigit, hstart]
  | _ => cases hp

/-- A byte that starts no reference is text. -/
theorem indices_text_of_not (h : c = 36 → startsRef rest = false) :
    indices .text (c :: rest) = indices .text rest := by
  by_cases hc : c = 36
  · subst hc
    have hnot := h rfl
    cases rest with
    | nil => rfl
    | cons d rest =>
      simp only [startsRef, Bool.or_eq_false_iff, beq_eq_false_iff_ne] at hnot
      exact indices_of_not rfl hnot.1.2 hnot.1.1 fun _ => hnot.2
  · exact indices_text_cons hc

/-! ### What is read -/

/-- What reading a reference comes to, from a place on: it fails only when an
index does not fit, and otherwise leaves the other ones. -/
def Reads (p : Place) (rest : Bytes) (after : Option Bytes) : Prop :=
  match after with
  | none => ¬ Fits p rest
  | some after => (Fits p rest ↔ Fits .text after) ∧ after.length ≤ rest.length

/-- A run of digits, converted. -/
theorem reads_digits (hp : p.takesIndex = true) (hne : (rest.takeWhile isDigit).isEmpty = false) :
    Reads p rest
      ((stoi (rest.takeWhile isDigit)).map fun _ => rest.dropWhile isDigit) := by
  rw [stoi]
  split
  · rename_i hle
    refine ⟨?_, (List.dropWhile_suffix _).length_le⟩
    rw [fits_digits hp hne]
    exact and_iff_right hle
  · rename_i hgt
    intro hfits
    exact hgt ((fits_digits hp hne).mp hfits).1

/-- What is read from further on. -/
theorem Reads.of_eq {q : Place} {after : Option Bytes} (h : Reads q text after)
    (heq : indices p rest = indices q text) (hle : text.length ≤ rest.length) :
    Reads p rest after := by
  unfold Reads Fits at h ⊢
  rw [heq]
  cases after with
  | none => exact h
  | some after => exact ⟨h.1, h.2.trans hle⟩

/-- A text that is read up to its end. -/
theorem reads_self : Reads .text rest (some rest) := ⟨Iff.rfl, le_rfl⟩

/-- **A chain reads the indices behind its `.$`.** By induction on the rounds of the scanner. A
round takes an identifier, in which there is no index to be read; behind it there may be `.$` and
digits, which are one, or `.$` and the next identifier, and this is the next round, or neither,
and then the chain is over and what is left is scanned as a text is. -/
theorem reads_parseChain {fuel : Nat} {path : Bytes} (hp : p.takesIndex = true)
    (hfuel : rest.length ≤ fuel) (hdigits : (rest.takeWhile isDigit).isEmpty = true)
    (hbrace : p = .dollar → rest.head? ≠ some 123) :
    Reads p rest ((parseChain fuel rest path).map (·.2.2)) := by
  -- A round of the scanner takes one link, and leaves the scan behind a link, too.
  induction fuel generalizing rest path p with
  | zero =>
    obtain rfl := List.eq_nil_of_length_eq_zero (Nat.le_zero.mp hfuel)
    exact reads_self.of_eq rfl le_rfl
  | succ fuel ih =>
    cases rest with
    | nil => exact reads_self.of_eq rfl le_rfl
    | cons c rest =>
      have hdigit : isDigit c = false := by
        by_contra hc
        simp [hc] at hdigits
      rw [parseChain]
      split
      · rename_i hstart
        have hcont : isIdentCont c = true := by
          simp only [isIdentStart, Bool.or_eq_true] at hstart
          simp only [isIdentCont, Bool.or_eq_true]
          tauto
        have hident : indices p (c :: rest) = indices .ident (rest.dropWhile isIdentCont) := by
          rw [indices_of_isIdentStart hp hstart, indices_ident_dropWhile]
        have hle := (List.dropWhile_suffix (l := rest) isIdentCont).length_le
        dsimp only
        rw [List.dropWhile_cons_of_pos hcont]
        split
        · rename_i after hrest
          rw [hrest] at hident hle
          simp only [List.length_cons] at hle hfuel
          have hlink : ∀ r, Reads .link after r → Reads p (c :: rest) r := fun r h =>
            h.of_eq hident (by simp only [List.length_cons]; omega)
          refine hlink _ ?_
          split
          · rename_i hempty
            exact ih rfl (by omega) hempty (by simp)
          · rename_i hne
            rw [Option.map_map]
            exact reads_digits rfl (Bool.eq_false_iff.mpr hne)
        · rename_i hchain
          refine reads_self.of_eq ?_ (hle.trans (Nat.le_succ _))
          rw [hident]
          refine indices_ident_of_not (fun d hd => ?_) hchain
          have hnot := List.head?_dropWhile_not isIdentCont rest
          rwa [hd] at hnot
      · rename_i hstart
        exact reads_self.of_eq (indices_of_not hp hdigit (Bool.eq_false_iff.mpr hstart)
          fun h hc => hbrace h (by rw [hc]; rfl)) le_rfl

/-- **A reference reads its index**, if it has one. -/
theorem reads_parseRef (rest : Bytes) :
    Reads .dollar rest ((parseRef rest).map Prod.snd) := by
  unfold parseRef
  split
  · rename_i rest
    refine reads_self.of_eq indices_braces ?_
    simp only [List.length_drop, List.length_cons]
    exact (Nat.sub_le _ _).trans ((List.dropWhile_suffix _).length_le.trans (Nat.le_succ _))
  · rename_i hbrace
    dsimp only
    split
    · rename_i hempty
      rw [Option.map_map]
      refine reads_parseChain rfl le_rfl hempty fun _ hhead => ?_
      obtain ⟨after, rfl⟩ := List.head?_eq_some_iff.mp hhead
      exact hbrace after rfl
    · rename_i hne
      rw [Option.map_map]
      exact reads_digits rfl (Bool.eq_false_iff.mpr hne)

/-- **The loop of interpolation** does not throw exactly when the indices that it comes to fit.
By induction on the rounds: a round takes a character that begins no reference, or it takes a
reference, which reads its indices (`reads_parseRef`) and leaves the scan in a text again. -/
theorem interpolateFrom_isSome {fuel : Nat} {lit : Bytes} (hfuel : rest.length ≤ fuel) :
    (interpolateFrom fuel rest lit).isSome = true ↔ Fits .text rest := by
  -- Where a reference is read, the scan is in a text again behind it.
  induction fuel generalizing rest lit with
  | zero =>
    obtain rfl := List.eq_nil_of_length_eq_zero (Nat.le_zero.mp hfuel)
    simp [interpolateFrom]
  | succ fuel ih =>
    cases rest with
    | nil => simp [interpolateFrom]
    | cons c rest =>
      have hle : rest.length ≤ fuel := Nat.le_of_succ_le_succ hfuel
      rw [interpolateFrom]
      split
      · rename_i href
        obtain ⟨hc, hstarts⟩ := Bool.and_eq_true_iff.mp href
        obtain rfl := beq_iff_eq.mp hc
        have hdollar : Fits .text (36 :: rest) ↔ Fits .dollar rest := Iff.rfl
        have hreads := reads_parseRef rest
        rw [hdollar]
        cases hr : parseRef rest with
        | none =>
          rw [hr] at hreads
          exact iff_of_false (by simp) hreads
        | some q =>
          rw [hr] at hreads
          rw [hreads.1, ← @ih q.2 [] (hreads.2.trans hle)]
          show ((interpolateFrom fuel q.2 []).bind fun segs =>
            some (flush lit ++ .ref q.1 :: segs)).isSome = true ↔ _
          cases interpolateFrom fuel q.2 [] with
          | none => rfl
          | some segs => rfl
      · rename_i hnot
        rw [ih hle]
        unfold Fits
        rw [indices_text_of_not (by simpa using hnot)]

/-- **A text is read exactly when its capture indices fit.** -/
theorem interpolate_isSome (text : Bytes) :
    (interpolate text).isSome = true ↔ Fits .text text :=
  interpolateFrom_isSome le_rfl

end

/-- All items are read, or the list is not. -/
theorem mapM_isSome {α β : Type} (f : α → Option β) (l : List α) :
    (l.mapM f).isSome = true ↔ ∀ a ∈ l, (f a).isSome = true := by
  induction l with
  | nil => simp
  | cons a l ih =>
    rw [List.forall_mem_cons, ← ih, List.mapM_cons]
    cases f a with
    | none => simp
    | some b => cases l.mapM f <;> simp

/-- **The capture indices of a value fit**: a quoted or literal value has none,
nor has a match-value that is no `$` expression, and a new-value has those of its
operands. -/
def InRange (raw : Bytes) (mode : ValueMode) (quoted : Bool) : Prop :=
  quoted = true ∨
    match mode with
    | .literal => True
    | .matchValue =>
      let body := if raw.head? = some 33 then raw.tail else raw
      body.head? = some 36 → Fits .text body
    | .newValue => ∀ part ∈ splitConcat raw, Fits .text part

/-- A match-value is read for its references if it begins with one, behind the `!` it may have. -/
theorem parseMatch_isSome (raw : Bytes) :
    (parseMatch raw).isSome = true ↔
      ((if raw.head? = some 33 then raw.tail else raw).head? = some 36 →
        Fits .text (if raw.head? = some 33 then raw.tail else raw)) := by
  simp only [parseMatch, beq_iff_eq]
  generalize (if raw.head? = some 33 then raw.tail else raw) = body
  split
  · rename_i hbody
    rw [Option.isSome_map, interpolate_isSome]
    exact ⟨fun h _ => h, fun h => h hbody⟩
  · rename_i hbody
    exact iff_of_true rfl fun h => absurd h hbody

/-- A new-value is read operand by operand. -/
theorem parseNew_isSome (raw : Bytes) :
    (parseNew raw).isSome = true ↔ ∀ part ∈ splitConcat raw, Fits .text part := by
  have hparse : (parseNew raw).isSome
      = (((splitConcat raw).filter (!·.isEmpty)).mapM interpolate).isSome := by
    unfold parseNew
    cases ((splitConcat raw).filter (!·.isEmpty)).mapM interpolate with
    | none => rfl
    | some parts => rfl
  rw [hparse, mapM_isSome]
  constructor
  · intro h part hpart
    cases part with
    | nil => exact fits_nil
    | cons c rest =>
      exact (interpolate_isSome _).mp (h _ (List.mem_filter.mpr ⟨hpart, rfl⟩))
  · intro h part hpart
    exact (interpolate_isSome part).mpr (h part (List.mem_of_mem_filter hpart))

/-- **`Value::parse` returns exactly when the capture indices fit.** -/
theorem parse_isSome (raw : Bytes) (mode : ValueMode) (quoted : Bool) :
    (parse raw mode quoted).isSome = true ↔ InRange raw mode quoted := by
  unfold parse InRange
  cases quoted with
  | true => simp
  | false =>
    simp only [Bool.false_eq_true, if_false, false_or]
    cases mode with
    | literal => simp
    | matchValue => exact parseMatch_isSome raw
    | newValue => exact parseNew_isSome raw

/-- A capture index of eleven digits is beyond `INT_MAX`. -/
theorem not_parse_isSome : ¬ ∀ (raw : Bytes) (mode : ValueMode) (quoted : Bool),
    (parse raw mode quoted).isSome = true := fun h =>
  absurd (h (txt "$99999999999") .newValue false) (by decide)

end Value

end Hmr
