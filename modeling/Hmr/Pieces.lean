import Hmr.Quotes

/-!
# The pieces of a text

A text with references in it is a list of pieces: reference tokens, each as long as it can
be, and the literal text between them. `Value.pieces` finds them, and no byte of the text
is lost (`Value.text_pieces`).

A token is `$` with an identifier, a number or something in braces behind it, and
identifiers are chained by `.$`. A chain goes on as long as an identifier follows, and it
may end in an index, which is a number behind a `.$`. The definition here looks for what
follows before it takes a `.$`, and does nothing else.

Interpolation is meant to find the same. It does, but for chains: the scanner takes the
`.$` behind an identifier for a separator before it knows that something follows, so a
`.$` with neither an identifier nor a digit behind it is gone. The pieces are found
exactly when no chain ends before a `.$` (`Value.interpolate_pieces_iff`).

## Both directions

That the pieces are found otherwise is shown by following the scanner through a token
(`Value.parseChain_eq`, `Value.parseRef_nextToken`), and then from token to token. That a
`.$` which is taken is missed needs something that tells the two readings apart, whatever
follows: with the `.$` in it, the text behind the token starts with a literal that has
these two characters in front of the one it has without it (`Value.plain_separator_ne`).

What the scanner does with braces that are not closed, and with numbers that are too
large, is no matter of pieces, and is left out by `Value.Closed` and by
`Value.RefToken.Fits`.
-/

namespace Hmr

namespace Value

/-! ## Tokens -/

/-- **A reference token.** -/
inductive RefToken
  /-- `${NAME}`. -/
  | braces (name : Bytes)
  /-- `$` and digits. -/
  | capture (num : Bytes)
  /-- `$` and an identifier, `.$` and another one any number of times, and perhaps
  `.$` and digits. -/
  | chain (first : Bytes) (more : List Bytes) (num : Option Bytes)
  deriving DecidableEq, Repr

namespace RefToken

/-- The links of a chain, behind its first identifier. -/
def linksText (more : List Bytes) (num : Option Bytes) : Bytes :=
  more.flatMap ([46, 36] ++ ·) ++ num.elim [] ([46, 36] ++ ·)

/-- The text of a token. -/
def text : RefToken → Bytes
  | braces name => [36, 123] ++ name ++ [125]
  | capture num => 36 :: num
  | chain first more num => 36 :: (first ++ linksText more num)

/-- The path a chain is kept as: its identifiers, and its index as it is written. -/
def path (first : Bytes) (more : List Bytes) (num : Option Bytes) : Bytes :=
  first ++ more.flatMap (46 :: ·) ++ num.elim [] ([46, 36] ++ ·)

/-- The digits of a token, where it has an index. -/
def num? : RefToken → Option Bytes
  | braces _ => none
  | capture num => some num
  | chain _ _ num => num

/-- The index of a token is an `int`. -/
def Fits (t : RefToken) : Prop := ∀ num ∈ t.num?, digitsVal num ≤ 2147483647

/-- The index of a token, or `-1`. -/
def index (t : RefToken) : Int := t.num?.elim (-1) fun num => digitsVal num

/-- **The reference a token stands for.** -/
def ref (t : RefToken) : ValueRef :=
  match t with
  | braces name => ⟨.variable, name, t.index⟩
  | capture num => ⟨.capture, num, t.index⟩
  | chain first more num =>
    ⟨if !(path first more num).contains 46 && isAllUpper (path first more num) then .variable
      else .ruleRef, path first more num, t.index⟩

/-- A chain without an index, which one more link could follow. -/
def isOpen : RefToken → Bool
  | chain _ _ num => num.isNone
  | _ => false

end RefToken

/-- Something starts with a character of this class. -/
def startsWith (p : UInt8 → Bool) (text : Bytes) : Bool := text.head?.any p

/-- The links behind an identifier, and what follows: further identifiers as long as
each `.$` has one behind it, and an index if a `.$` has digits behind it. -/
def links : Nat → Bytes → List Bytes × Option Bytes × Bytes
  | fuel + 1, 46 :: 36 :: rest =>
    if startsWith isIdentStart rest then
      let q := links fuel (rest.dropWhile isIdentCont)
      (rest.takeWhile isIdentCont :: q.1, q.2)
    else if startsWith isDigit rest then
      ([], some (rest.takeWhile isDigit), rest.dropWhile isDigit)
    else ([], none, 46 :: 36 :: rest)
  | _, rest => ([], none, rest)

/-- **The token behind a `$`**, as long as it can be, and what follows it. -/
def nextToken (rest : Bytes) : Option (RefToken × Bytes) :=
  match rest with
  | 123 :: rest =>
    if rest.contains 125 then
      some (.braces (rest.takeWhile (· != 125)), (rest.dropWhile (· != 125)).drop 1)
    else none
  | _ =>
    if startsWith isDigit rest then
      some (.capture (rest.takeWhile isDigit), rest.dropWhile isDigit)
    else if startsWith isIdentStart rest then
      let q := links rest.length (rest.dropWhile isIdentCont)
      some (.chain (rest.takeWhile isIdentCont) q.1 q.2.1, q.2.2)
    else none

/-! ## Pieces -/

/-- A piece of a text: literal text, or a token. -/
inductive Piece
  | literal (text : Bytes)
  | token (t : RefToken)
  deriving DecidableEq, Repr

namespace Piece

/-- The text of a piece. -/
def text : Piece → Bytes
  | literal t => t
  | token t => t.text

/-- The segment a piece is to become. -/
def segment : Piece → ValueSegment
  | literal t => .literal t
  | token t => .ref t.ref

/-- A chain without an index. -/
def isOpen : Piece → Bool
  | literal _ => false
  | token t => t.isOpen

end Piece

/-- The literal collected so far. -/
def literalPiece (lit : Bytes) : List Piece := if lit.isEmpty then [] else [.literal lit]

/-- The pieces of a text, with the literal collected so far. -/
def piecesFrom : Nat → Bytes → Bytes → List Piece
  | 0, _, lit => literalPiece lit
  | _ + 1, [], lit => literalPiece lit
  | fuel + 1, c :: rest, lit =>
    match (if c == 36 then nextToken rest else none) with
    | some (t, rest) => literalPiece lit ++ .token t :: piecesFrom fuel rest []
    | none => piecesFrom fuel rest (lit ++ [c])

/-- **The pieces of a text**: its tokens, found from the left, and the text between
them. -/
def pieces (text : Bytes) : List Piece := piecesFrom text.length text []

/-- No `${` is left open. -/
def Closed (text : Bytes) : Prop :=
  ∀ before rest, text = before ++ [36, 123] ++ rest → 125 ∈ rest

/-- **No chain ends before a `.$`.** -/
def Ended : List Piece → Prop
  | [] => True
  | p :: rest => (p.isOpen = true → ¬ [46, 36] <+: rest.flatMap Piece.text) ∧ Ended rest

/-- **A text is read piece by piece**, and nothing of it is lost: the segments are
its pieces, which make up the text. -/
def ReadsPieces (text : Bytes) : Prop :=
  interpolate text = some ((pieces text).map Piece.segment)
    ∧ (pieces text).flatMap Piece.text = text

section
variable {p : UInt8 → Bool} {c : UInt8} {rest lit : Bytes}

/-! ## No byte is lost -/

/-- A text starts with its first character. -/
@[simp] theorem startsWith_cons : startsWith p (c :: rest) = p c := rfl

/-- A text starts with a character of a class exactly when a run of that class does. -/
theorem startsWith_eq (p : UInt8 → Bool) (text : Bytes) :
    startsWith p text = !(text.takeWhile p).isEmpty := by
  cases text with
  | nil => rfl
  | cons c rest =>
    rw [startsWith_cons]
    cases hc : p c with
    | false => rw [List.takeWhile_cons_of_neg (by simp [hc])]; rfl
    | true => rw [List.takeWhile_cons_of_pos hc]; rfl

/-- A brace that closes is what the text before it ends with. -/
theorem dropWhile_brace (h : 125 ∈ rest) :
    125 :: (rest.dropWhile (· != 125)).drop 1 = rest.dropWhile (· != 125) := by
  cases hdrop : rest.dropWhile (· != 125) with
  | nil => simpa using List.dropWhile_eq_nil_iff.mp hdrop 125 h
  | cons c after =>
    have hhead := List.head?_dropWhile_not (· != 125) rest
    rw [hdrop] at hhead
    have hc : c = 125 := by simpa using hhead
    rw [hc]
    rfl

/-- The links of a chain, and what follows them, are what they are found in. -/
theorem text_links (fuel : Nat) (rest : Bytes) :
    RefToken.linksText (links fuel rest).1 (links fuel rest).2.1 ++ (links fuel rest).2.2
      = rest := by
  induction fuel generalizing rest with
  | zero => rfl
  | succ fuel ih =>
    rw [links.eq_def]
    split
    · rename_i fuel' rest heq
      cases heq
      split
      · have hrest := ih (rest.dropWhile isIdentCont)
        simp only [RefToken.linksText, List.flatMap_cons, List.append_assoc] at hrest ⊢
        rw [hrest, List.takeWhile_append_dropWhile]
        rfl
      · split
        · simp [RefToken.linksText, List.takeWhile_append_dropWhile]
        · rfl
    · rfl

/-- A token, and what follows it, are what it is found in. -/
theorem text_nextToken {t : RefToken} {after : Bytes} (h : nextToken rest = some (t, after)) :
    t.text ++ after = 36 :: rest := by
  unfold nextToken at h
  split at h
  · rename_i rest
    split at h
    · rename_i hclosed
      cases h
      rw [RefToken.text, List.append_assoc, List.append_assoc, List.singleton_append,
        dropWhile_brace (by simpa using hclosed), List.takeWhile_append_dropWhile]
      rfl
    · cases h
  · split at h
    · cases h
      rw [RefToken.text, List.cons_append, List.takeWhile_append_dropWhile]
    · split at h
      · cases h
        rw [RefToken.text, List.cons_append, List.append_assoc, text_links,
          List.takeWhile_append_dropWhile]
      · cases h

/-- A literal is its text, and nothing if it is empty. -/
@[simp] theorem text_literalPiece (lit : Bytes) : (literalPiece lit).flatMap Piece.text = lit := by
  unfold literalPiece
  split
  · rename_i hempty
    exact (List.isEmpty_iff.mp hempty).symm
  · simp [Piece.text]

/-- What follows a token is shorter. -/
theorem length_nextToken {t : RefToken} {after : Bytes} (h : nextToken rest = some (t, after)) :
    after.length ≤ rest.length := by
  have htext := congrArg List.length (text_nextToken h)
  have hpos : 1 ≤ t.text.length := by
    cases t <;> simp [RefToken.text]
  rw [List.length_append, List.length_cons] at htext
  omega

/-- The pieces from some place on, and what was collected before. -/
theorem text_piecesFrom (fuel : Nat) (rest lit : Bytes) (hfuel : rest.length ≤ fuel) :
    (piecesFrom fuel rest lit).flatMap Piece.text = lit ++ rest := by
  induction fuel generalizing rest lit with
  | zero =>
    obtain rfl := List.eq_nil_of_length_eq_zero (Nat.le_zero.mp hfuel)
    rw [List.append_nil]
    exact text_literalPiece lit
  | succ fuel ih =>
    cases rest with
    | nil =>
      rw [List.append_nil]
      exact text_literalPiece lit
    | cons c rest =>
      have hle : rest.length ≤ fuel := Nat.le_of_succ_le_succ hfuel
      rw [piecesFrom]
      split
      · rename_i t after hnext
        obtain ⟨hc, htoken⟩ := Option.ite_none_right_eq_some.mp hnext
        obtain rfl := beq_iff_eq.mp hc
        rw [List.flatMap_append, text_literalPiece, List.flatMap_cons,
          ih after [] ((length_nextToken htoken).trans hle), List.nil_append]
        exact congrArg _ (text_nextToken htoken)
      · rw [ih rest _ hle, List.append_assoc]
        rfl

/-- **The pieces of a text are all of it.** -/
@[simp] theorem text_pieces (text : Bytes) : (pieces text).flatMap Piece.text = text :=
  text_piecesFrom _ _ _ le_rfl

/-! ## What the scanner reads -/

/-- Where the scanner goes on behind a token: it has taken the `.$` behind an open
chain too. -/
def behind (t : RefToken) (after : Bytes) : Bytes :=
  if t.isOpen = true ∧ [46, 36] <+: after then after.drop 2 else after

/-- What starts an identifier may stand in one. -/
theorem isIdentCont_of_isIdentStart (h : isIdentStart c = true) : isIdentCont c = true := by
  simp only [isIdentStart, Bool.or_eq_true] at h
  simp only [isIdentCont, Bool.or_eq_true]
  tauto

/-- Where no `.$` follows, nothing is taken. -/
theorem behind_of_not_prefix {t : RefToken} {after : Bytes} (h : ¬ [46, 36] <+: after) :
    behind t after = after := if_neg fun hboth => h hboth.2

/-- The scanner stops where no identifier starts. -/
theorem parseChain_stop {fuel : Nat} {path : Bytes} (h : startsWith isIdentStart rest = false) :
    parseChain fuel rest path = some (path, -1, rest) := by
  cases fuel with
  | zero => rfl
  | succ fuel =>
    cases rest with
    | nil => rfl
    | cons c rest =>
      have hc : isIdentStart c = false := h
      rw [parseChain, if_neg (by simp [hc])]

/-- What a round of the scanner makes of the path. -/
def joinPath (path ident : Bytes) : Bytes :=
  (if path.isEmpty then path else path ++ [46]) ++ ident

/-- A round of the scanner that ends with an index. -/
theorem parseChain_index {fuel : Nat} {path after : Bytes}
    (hstart : startsWith isIdentStart rest = true)
    (hrest : rest.dropWhile isIdentCont = 46 :: 36 :: after)
    (hindex : startsWith isDigit after = true) :
    parseChain (fuel + 1) rest path
      = (stoi (after.takeWhile isDigit)).map fun n =>
          (joinPath path (rest.takeWhile isIdentCont) ++ [46, 36] ++ after.takeWhile isDigit, n,
            after.dropWhile isDigit) := by
  cases rest with
  | nil => cases hstart
  | cons c rest =>
    rw [startsWith_eq, Bool.not_eq_true'] at hindex
    have hc : isIdentStart c = true := hstart
    simp only [parseChain, hc, if_true, hrest, hindex, Bool.false_eq_true, if_false]
    rfl

/-- A round of the scanner that another one follows. -/
theorem parseChain_link {fuel : Nat} {path after : Bytes}
    (hstart : startsWith isIdentStart rest = true)
    (hrest : rest.dropWhile isIdentCont = 46 :: 36 :: after)
    (hindex : startsWith isDigit after = false) :
    parseChain (fuel + 1) rest path
      = parseChain fuel after (joinPath path (rest.takeWhile isIdentCont)) := by
  cases rest with
  | nil => cases hstart
  | cons c rest =>
    rw [startsWith_eq, Bool.not_eq_false'] at hindex
    have hc : isIdentStart c = true := hstart
    simp only [parseChain, hc, if_true, hrest, hindex]
    rfl

/-- A round of the scanner that ends the chain. -/
theorem parseChain_end {fuel : Nat} {path : Bytes}
    (hstart : startsWith isIdentStart rest = true)
    (hend : ∀ after, rest.dropWhile isIdentCont ≠ 46 :: 36 :: after) :
    parseChain (fuel + 1) rest path
      = some (joinPath path (rest.takeWhile isIdentCont), -1, rest.dropWhile isIdentCont) := by
  cases rest with
  | nil => cases hstart
  | cons c rest =>
    have hc : isIdentStart c = true := hstart
    rw [parseChain, if_pos hc]
    generalize (c :: rest).dropWhile isIdentCont = tail at hend ⊢
    dsimp only
    split
    · exact absurd rfl (hend _)
    · rfl

/-! ## Chains as they are read -/

/-- Where no `.$` follows, there are no links. -/
theorem links_of_not (fuel : Nat) (h : ∀ after, rest ≠ 46 :: 36 :: after) :
    links fuel rest = ([], none, rest) := by
  rw [links.eq_def]
  split
  · exact absurd rfl (h _)
  · rfl

/-- An identifier has a character. -/
theorem takeWhile_ne_nil (h : startsWith isIdentStart rest = true) :
    rest.takeWhile isIdentCont ≠ [] := by
  cases rest with
  | nil => cases h
  | cons c rest =>
    rw [List.takeWhile_cons_of_pos (isIdentCont_of_isIdentStart h)]
    exact List.cons_ne_nil _ _

/-- What follows it is shorter. -/
theorem length_dropWhile_lt (h : startsWith isIdentStart rest = true) :
    (rest.dropWhile isIdentCont).length < rest.length := by
  cases rest with
  | nil => cases h
  | cons c rest =>
    rw [List.dropWhile_cons_of_pos (isIdentCont_of_isIdentStart h), List.length_cons]
    exact Nat.lt_succ_of_le (List.dropWhile_suffix _).length_le

/-- It starts with no digit. -/
theorem startsWith_isDigit (h : startsWith isIdentStart rest = true) :
    startsWith isDigit rest = false := by
  cases rest with
  | nil => rfl
  | cons c rest => exact isDigit_of_isIdentStart h

/-- Paths are joined from the left or from the right. -/
theorem joinPath_joinPath {path ident : Bytes} (h : ident ≠ []) (tail : Bytes) :
    joinPath (joinPath path ident) tail = joinPath path (ident ++ 46 :: tail) := by
  have hne : (joinPath path ident).isEmpty = false := by
    simp [joinPath, h]
  rw [joinPath, hne, if_neg Bool.false_ne_true]
  simp [joinPath]

/-- **The scanner reads a chain to its end**, and the `.$` behind it. One round of the scanner is
one link of the chain, by induction on what is left: behind `.$` there is another name, or an
index that ends the chain, or neither, and in the last case the two characters have been read all
the same. -/
theorem parseChain_eq {fuel fuel' : Nat} {path : Bytes} {more : List Bytes} {num : Option Bytes}
    {after : Bytes} (hfuel : rest.length ≤ fuel)
    (hfuel' : (rest.dropWhile isIdentCont).length ≤ fuel')
    (hstart : startsWith isIdentStart rest = true)
    (hlinks : links fuel' (rest.dropWhile isIdentCont) = (more, num, after)) :
    parseChain fuel rest path
      = (num.elim (some (-1)) stoi).map fun k =>
          (joinPath path (RefToken.path (rest.takeWhile isIdentCont) more num), k,
            behind (.chain (rest.takeWhile isIdentCont) more num) after) := by
  -- One round of the scanner is one link of the chain.
  induction fuel generalizing rest path fuel' more num after with
  | zero =>
    obtain rfl := List.eq_nil_of_length_eq_zero (Nat.le_zero.mp hfuel)
    cases hstart
  | succ fuel ih =>
    -- The scanner goes on, or stops with an index, where `.$` follows, whatever comes behind
    -- it.
    by_cases hlink : ∃ tail, rest.dropWhile isIdentCont = 46 :: 36 :: tail
    · obtain ⟨tail, htail⟩ := hlink
      have hlt := length_dropWhile_lt hstart
      rw [htail] at hfuel' hlinks hlt
      simp only [List.length_cons] at hfuel' hlt
      obtain ⟨fuel', rfl⟩ : ∃ k, fuel' = k + 1 := ⟨fuel' - 1, by omega⟩
      rw [links] at hlinks
      split at hlinks
      · rename_i hident
        have hle : (tail.dropWhile isIdentCont).length ≤ fuel' :=
          (List.dropWhile_suffix _).length_le.trans (by omega)
        obtain ⟨rfl, hrest⟩ := Prod.mk.inj hlinks
        have hq : links fuel' (tail.dropWhile isIdentCont)
            = ((links fuel' (tail.dropWhile isIdentCont)).1, num, after) := Prod.ext rfl hrest
        rw [parseChain_link hstart htail (startsWith_isDigit hident), ih (by omega) hle hident hq]
        simp only [joinPath_joinPath (takeWhile_ne_nil hstart), RefToken.path, List.flatMap_cons,
          List.append_assoc, List.cons_append]
        rfl
      · rename_i hident
        split at hlinks
        · rename_i hdigit
          cases hlinks
          rw [parseChain_index hstart htail hdigit]
          simp [RefToken.path, joinPath, behind, RefToken.isOpen]
        · rename_i hdigit
          cases hlinks
          rw [parseChain_link hstart htail (Bool.eq_false_iff.mpr hdigit),
            parseChain_stop (Bool.eq_false_iff.mpr hident)]
          simp [RefToken.path, behind, RefToken.isOpen]
    · have hend := not_exists.mp hlink
      rw [links_of_not _ hend] at hlinks
      cases hlinks
      rw [parseChain_end hstart hend, behind_of_not_prefix]
      · simp [RefToken.path]
      · rintro ⟨after', hafter'⟩
        exact hend after' hafter'.symm

/-! ## Tokens as they are read -/

/-- **An index that fits** is read as the number it is. -/
theorem stoi_index {first : Bytes} {more : List Bytes} {num : Option Bytes}
    (h : (RefToken.chain first more num).Fits) :
    num.elim (some (-1)) stoi = some (RefToken.chain first more num).index := by
  cases num with
  | none => rfl
  | some num =>
    have hle : digitsVal num ≤ 2147483647 := h num rfl
    show stoi num = some ((digitsVal num : Nat) : Int)
    rw [stoi, if_pos hle]

/-- **The scanner reads a token**, and the `.$` behind it if it is an open chain. What stands
behind the `$` says which token it is: a brace encloses it, an identifier starts a chain, and
digits are the index of a group, which `Fits` keeps in the range of `stoi`. -/
theorem parseRef_nextToken {t : RefToken} {after : Bytes} (h : nextToken rest = some (t, after))
    (hfits : t.Fits) : parseRef rest = some (t.ref, behind t after) := by
  unfold nextToken at h
  -- By what stands behind the `$`: a brace, an identifier, or a digit.
  split at h
  · rename_i rest
    split at h
    · cases h
      rfl
    · cases h
  · rename_i hbrace
    rw [parseRef.eq_def]
    split
    · rename_i rest'
      exact absurd rfl (hbrace rest')
    · dsimp only
      split at h
      · rename_i hdigit
        rw [startsWith_eq, Bool.not_eq_true'] at hdigit
        cases h
        have hle : digitsVal (rest.takeWhile isDigit) ≤ 2147483647 := hfits _ rfl
        rw [hdigit, if_neg Bool.false_ne_true, stoi, if_pos hle]
        rfl
      · rename_i hdigit
        rw [startsWith_eq, Bool.not_eq_true', Bool.not_eq_false] at hdigit
        split at h
        · rename_i hident
          cases h
          rw [hdigit, if_pos rfl, parseChain_eq le_rfl (length_dropWhile_lt hident).le hident rfl]
          generalize links rest.length (rest.dropWhile isIdentCont) = q at hfits ⊢
          have hindex : q.2.1.elim (some (-1)) stoi
              = some (RefToken.chain (rest.takeWhile isIdentCont) q.1 q.2.1).index :=
            stoi_index hfits
          rw [hindex]
          rfl
        · cases h

/-- A `$` starts a token exactly when the scanner takes it for a reference. -/
theorem nextToken_isSome (hclosed : Closed (36 :: rest)) :
    (nextToken rest).isSome = startsRef rest := by
  cases rest with
  | nil => rfl
  | cons c rest =>
    by_cases hc : c = 123
    · subst hc
      have hmem : rest.contains 125 = true := by simpa using hclosed [] rest rfl
      rw [nextToken, if_pos hmem]
      rfl
    · rw [nextToken.eq_def, startsRef]
      split
      · rename_i heq
        exact absurd (List.cons.inj heq).1 hc
      · rw [startsWith_cons, startsWith_cons, beq_eq_false_iff_ne.mpr hc, Bool.or_false]
        split
        · rename_i hdigit
          rw [hdigit, Bool.or_true]
          rfl
        · rename_i hdigit
          rw [Bool.eq_false_iff.mpr hdigit, Bool.or_false]
          split
          · rename_i hident
            exact hident.symm
          · rename_i hident
            exact (Bool.eq_false_iff.mpr hident).symm

/-- In the rest of a text no `${` is left open either. -/
theorem Closed.tail (h : Closed (c :: rest)) : Closed rest := by
  rintro before after rfl
  exact h (c :: before) after rfl

/-- Nor in what is behind some front of it. -/
theorem Closed.append {front : Bytes} (h : Closed (front ++ rest)) : Closed rest := by
  rintro before after rfl
  exact h (front ++ before) after (by simp only [List.append_assoc])

/-! ## Where the first reference stands -/

/-- The text in front of the first reference. -/
def plain : Bytes → Bytes
  | [] => []
  | c :: rest => if c == 36 && startsRef rest then [] else c :: plain rest

/-- The literal a text starts with. -/
def leading : List ValueSegment → Bytes
  | .literal text :: _ => text
  | _ => []

/-- The literal that is collected is the first one. -/
theorem leading_flush (segs : List ValueSegment) (hsegs : leading segs = []) :
    leading (flush lit ++ segs) = lit := by
  unfold flush
  split
  · rename_i hempty
    rw [List.nil_append, hsegs]
    exact (List.isEmpty_iff.mp hempty).symm
  · rfl

/-- The first literal that is read, and what was collected before it. -/
theorem leading_interpolateFrom {fuel : Nat} {segs : List ValueSegment}
    (hfuel : rest.length ≤ fuel) (h : interpolateFrom fuel rest lit = some segs) :
    leading segs = lit ++ plain rest := by
  induction fuel generalizing rest lit with
  | zero =>
    obtain rfl := List.eq_nil_of_length_eq_zero (Nat.le_zero.mp hfuel)
    cases h
    simpa [plain] using leading_flush [] rfl
  | succ fuel ih =>
    cases rest with
    | nil =>
      cases h
      simpa [plain] using leading_flush [] rfl
    | cons c rest =>
      rw [interpolateFrom] at h
      rw [plain]
      split at h
      · rename_i href
        obtain ⟨⟨r, after⟩, -, hrest⟩ := Option.bind_eq_some_iff.mp h
        obtain ⟨more, -, heq⟩ := Option.bind_eq_some_iff.mp hrest
        cases heq
        rw [if_pos href, List.append_nil]
        exact leading_flush _ rfl
      · rename_i href
        rw [if_neg href, ih (Nat.le_of_succ_le_succ hfuel) h, List.append_assoc]
        rfl

/-- As a segment it is what the scanner flushes. -/
@[simp] theorem map_literalPiece (lit : Bytes) :
    (literalPiece lit).map Piece.segment = flush lit := by
  unfold literalPiece flush
  split <;> rfl

/-- A byte starts a token exactly when the scanner takes it for a reference. -/
theorem token_isSome (h : Closed (c :: rest)) :
    (if c == 36 then nextToken rest else none).isSome = (c == 36 && startsRef rest) := by
  split
  · rename_i hc
    obtain rfl := beq_iff_eq.mp hc
    rw [nextToken_isSome h, beq_self_eq_true, Bool.true_and]
  · rename_i hc
    rw [Bool.eq_false_iff.mpr hc, Bool.false_and]
    rfl

/-- The first literal among the pieces. -/
theorem leading_piecesFrom {fuel : Nat} (hfuel : rest.length ≤ fuel) (hclosed : Closed rest) :
    leading ((piecesFrom fuel rest lit).map Piece.segment) = lit ++ plain rest := by
  induction fuel generalizing rest lit with
  | zero =>
    obtain rfl := List.eq_nil_of_length_eq_zero (Nat.le_zero.mp hfuel)
    rw [piecesFrom, map_literalPiece]
    simpa [plain] using leading_flush [] rfl
  | succ fuel ih =>
    cases rest with
    | nil =>
      rw [piecesFrom, map_literalPiece]
      simpa [plain] using leading_flush [] rfl
    | cons c rest =>
      have hsome := token_isSome hclosed
      rw [piecesFrom, plain]
      split
      · rename_i t after hnext
        rw [hnext] at hsome
        have hstarts : (c == 36 && startsRef rest) = true := hsome.symm
        rw [if_pos hstarts, List.append_nil, List.map_append, map_literalPiece]
        exact leading_flush _ rfl
      · rename_i hnext
        rw [hnext] at hsome
        have hstarts : (c == 36 && startsRef rest) = false := hsome.symm
        rw [hstarts, if_neg Bool.false_ne_true, ih (Nat.le_of_succ_le_succ hfuel) hclosed.tail,
          List.append_assoc]
        rfl

/-- **A `.$` is seen to be missing**: the text with it and the text without it do not
start with the same literal. -/
theorem plain_separator_ne (rest : Bytes) : plain (46 :: 36 :: rest) ≠ plain rest := by
  intro h
  have hdot : plain (46 :: 36 :: rest) = 46 :: plain (36 :: rest) := rfl
  rw [hdot, plain, beq_self_eq_true, Bool.true_and] at h
  split at h
  · rename_i hstarts
    cases rest with
    | nil => cases h
    | cons c rest =>
      rw [plain] at h
      split at h
      · cases h
      · obtain rfl := (List.cons.inj h).1
        cases hstarts
  · have hlen := congrArg List.length h
    simp only [List.length_cons] at hlen
    omega

/-! ## Text and pieces -/

/-- A literal is no chain. -/
@[simp] theorem ended_literalPiece (ps : List Piece) :
    Ended (literalPiece lit ++ ps) ↔ Ended ps := by
  unfold literalPiece
  split
  · exact Iff.rfl
  · exact and_iff_right fun h => Bool.noConfusion h

/-- Nor does it end before a `.$` by itself. -/
theorem ended_literal (lit : Bytes) : Ended (literalPiece lit) := by
  rw [← List.append_nil (literalPiece lit)]
  exact (ended_literalPiece []).mpr trivial

/-- A reference that is read, and the segments behind it. -/
theorem interpolateFrom_ref {fuel : Nat} {r : ValueRef} {after : Bytes}
    (hstarts : (c == 36 && startsRef rest) = true) (href : parseRef rest = some (r, after)) :
    interpolateFrom (fuel + 1) (c :: rest) lit
      = (interpolateFrom fuel after []).map fun segs => flush lit ++ .ref r :: segs := by
  rw [interpolateFrom, if_pos hstarts, href]
  show (interpolateFrom fuel after []).bind (fun segs => some (flush lit ++ .ref r :: segs)) = _
  exact (Option.map_eq_bind ..).symm

/-- **A separator that is taken is missed**: what is read without it is not what the
pieces with it stand for. -/
theorem interpolateFrom_separator_ne {fuel fuel' : Nat} {after : Bytes}
    (hafter : after = 46 :: 36 :: rest) (hclosed : Closed after) (hle : after.length ≤ fuel)
    (hle' : rest.length ≤ fuel') :
    interpolateFrom fuel' rest [] ≠ some ((piecesFrom fuel after []).map Piece.segment) := by
  intro hread
  have hleading := leading_interpolateFrom hle' hread
  rw [leading_piecesFrom hle hclosed, hafter] at hleading
  exact plain_separator_ne rest hleading

/-- **The loop of interpolation**, from some place on. It takes the pieces of the text one by
one, and behind a token both go on at the same place, unless a separator has been taken: the
scanner steps over the `.$` behind an open chain before it looks what follows. So the loop has
the pieces exactly if no open chain has such a separator behind it. -/
theorem interpolateFrom_pieces_iff {fuel : Nat} (hfuel : rest.length ≤ fuel)
    (hclosed : Closed rest)
    (hfits : ∀ t, Piece.token t ∈ piecesFrom fuel rest lit → t.Fits) :
    interpolateFrom fuel rest lit = some ((piecesFrom fuel rest lit).map Piece.segment)
      ↔ Ended (piecesFrom fuel rest lit) := by
  induction fuel generalizing rest lit with
  | zero =>
    rw [interpolateFrom, piecesFrom, map_literalPiece]
    exact iff_of_true rfl (ended_literal lit)
  | succ fuel ih =>
    cases rest with
    | nil =>
      rw [interpolateFrom, piecesFrom, map_literalPiece]
      exact iff_of_true rfl (ended_literal lit)
    | cons c rest =>
      have hle : rest.length ≤ fuel := Nat.le_of_succ_le_succ hfuel
      have hsome := token_isSome hclosed
      rw [piecesFrom] at hfits ⊢
      split at hfits
      · rename_i t after hnext
        rw [hnext] at hsome
        have hstarts : (c == 36 && startsRef rest) = true := hsome.symm
        obtain ⟨hc, htoken⟩ := Option.ite_none_right_eq_some.mp hnext
        have hafter := (length_nextToken htoken).trans hle
        have hclosed' : Closed after := by
          rw [beq_iff_eq.mp hc, ← text_nextToken htoken] at hclosed
          exact hclosed.append
        have hfirst : t.Fits := hfits t (by simp)
        have hothers : ∀ t', Piece.token t' ∈ piecesFrom fuel after [] → t'.Fits :=
          fun t' ht' => hfits t' (by simp [ht'])
        rw [interpolateFrom_ref hstarts (parseRef_nextToken htoken hfirst)]
        rw [List.map_append, map_literalPiece, ended_literalPiece, List.map_cons]
        have hpieces : Ended (.token t :: piecesFrom fuel after [])
            ↔ (t.isOpen = true → ¬ [46, 36] <+: after) ∧ Ended (piecesFrom fuel after []) := by
          rw [Ended, text_piecesFrom _ _ _ hafter]
          rfl
        rw [hpieces]
        have hread : ∀ o : Option (List ValueSegment),
            o.map (fun segs => flush lit ++ .ref t.ref :: segs)
                = some (flush lit
                    ++ (Piece.token t).segment :: (piecesFrom fuel after []).map Piece.segment)
              ↔ o = some ((piecesFrom fuel after []).map Piece.segment) := by
          intro o
          cases o <;> simp [Piece.segment]
        rw [hread]
        -- Behind a token both go on at the same place, unless a separator has been taken.
        by_cases hsep : t.isOpen = true ∧ [46, 36] <+: after
        · obtain ⟨hopen, rest', rfl⟩ := hsep
          have hmissed : interpolateFrom fuel rest' []
              ≠ some ((piecesFrom fuel (46 :: 36 :: rest') []).map Piece.segment) :=
            interpolateFrom_separator_ne rfl hclosed' hafter
              ((Nat.le_add_right _ 2).trans hafter)
          rw [behind, if_pos ⟨hopen, rest', rfl⟩]
          exact iff_of_false hmissed fun h => h.1 hopen ⟨rest', rfl⟩
        · rw [behind, if_neg hsep, ih hafter hclosed' hothers]
          exact (and_iff_right fun hopen hpre => hsep ⟨hopen, hpre⟩).symm
      · rename_i hnext
        rw [hnext] at hsome
        have hstarts : (c == 36 && startsRef rest) = false := hsome.symm
        rw [interpolateFrom, hstarts, if_neg Bool.false_ne_true]
        exact ih hle hclosed.tail hfits

end

/-- **Interpolation loses nothing exactly when no chain ends before a `.$`.** -/
theorem interpolate_pieces_iff {text : Bytes} (hclosed : Closed text)
    (hfits : ∀ t, Piece.token t ∈ pieces text → t.Fits) :
    ReadsPieces text ↔ Ended (pieces text) := by
  rw [ReadsPieces, and_iff_left (text_pieces text)]
  exact interpolateFrom_pieces_iff le_rfl hclosed hfits

/-- A text without braces. -/
theorem closed_of_not_mem {text : Bytes} (h : 123 ∉ text) : Closed text := by
  rintro before rest rfl
  exact absurd (by simp) h

/-- A text that ends in a brace. -/
theorem closed_of_getLast? {text : Bytes} (h : text.getLast? = some 125) : Closed text := by
  rintro before rest rfl
  cases hrest : rest.getLast? with
  | none =>
    obtain rfl := List.getLast?_eq_none_iff.mp hrest
    simp at h
  | some c =>
    rw [List.getLast?_append, hrest] at h
    obtain rfl := Option.some.inj h
    exact List.mem_of_getLast? hrest

/-- A chain of one identifier, with a dot behind it. -/
theorem interpolate_pieces_iff_user :
    ReadsPieces (txt "sip:$user.$1@") ↔ Ended (pieces (txt "sip:$user.$1@")) := by
  have hpieces : pieces (txt "sip:$user.$1@")
      = [.literal (txt "sip:"), .token (.chain (txt "user") [] (some (txt "1"))),
        .literal (txt "@")] := by decide
  refine interpolate_pieces_iff (closed_of_not_mem (by decide)) fun t ht => ?_
  rw [hpieces] at ht
  obtain rfl : t = .chain (txt "user") [] (some (txt "1")) := by simpa using ht
  intro num hnum
  cases hnum
  decide

/-- **`$REALM.${INTERFACE}` loses its separator**, and the variable behind it. -/
theorem not_readsPieces : ¬ ∀ text, 43 ∉ text → Closed text →
    (∀ t, Piece.token t ∈ pieces text → t.Fits) → ReadsPieces text := by
  intro h
  have hpieces : pieces (txt "$REALM.${INTERFACE}")
      = [.token (.chain (txt "REALM") [] none), .literal (txt "."),
        .token (.braces (txt "INTERFACE"))] := by decide
  have hreads := h (txt "$REALM.${INTERFACE}") (by decide) (closed_of_getLast? (by decide))
    fun t ht => by
    rw [hpieces] at ht
    rcases (by simpa using ht : t = .chain (txt "REALM") [] none ∨ t = .braces (txt "INTERFACE"))
      with rfl | rfl
    all_goals
      intro num hnum
      cases hnum
  exact absurd hreads.1 (by decide)

end Value

end Hmr
