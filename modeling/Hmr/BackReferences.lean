import Hmr.Interpreter
import Hmr.Pieces

/-!
# Back-references

`$n.$N` is written for group `N` of what the rule `n` stored. Three pieces of code have to
agree on it: the scanner, which reads a chain of dotted names and a number; the slot key,
which is made of the name up to the first dot and the number; and the store, which makes
its keys of the rule's name and the groups of its pattern. For a name of letters, digits
and underscores they do (`Value.parse_backReference`), and different names or groups have
different keys (`Lowering.captureSlotKey_inj`).

What makes the keys differ is that no name has a dot in it, and that a number is
determined by its decimal digits. A name with a dot in it would be cut at the dot, and two
such names could have one key; but the scanner does not read one as a name.

A name that is all upper case is none either: it is a variable's. That is a property of a
whole name (`Value.IsRuleName`), while the other one is of its characters.

## A reference in a text

The token at a `$` is as long as it can be, so it is to be said where it ends. Digits end
where no digit follows; a name ends where no character of an identifier does, and where no
`.$` follows with something behind it. The text around a reference is taken to have no `$`
in it, and to begin with nothing that would be read as part of the token.
-/

namespace Hmr

namespace Lowering

/-! ## Decimal digits -/

/-- A digit is the same as a byte. -/
theorem toUInt8_isDigit {c : Char} (h : c.isDigit = true) :
    Value.isDigit (UInt8.ofNat c.toNat) = true
      ∧ (UInt8.ofNat c.toNat).toNat = c.toNat := by
  rw [Char.isDigit, Bool.and_eq_true, decide_eq_true_iff, decide_eq_true_iff] at h
  have hlow : 48 ≤ c.toNat := h.1
  have hhigh : c.toNat ≤ 57 := h.2
  have hnat : (UInt8.ofNat c.toNat).toNat = c.toNat := by
    rw [UInt8.toNat_ofNat']
    omega
  refine ⟨?_, hnat⟩
  simp only [Value.isDigit, Bool.and_eq_true, decide_eq_true_eq, UInt8.le_iff_toNat_le, hnat]
  exact h

/-- **The digits of a number are digits.** -/
theorem isDigit_of_mem_toDecimal {n : Nat} {c : UInt8} (h : c ∈ toDecimal n) :
    Value.isDigit c = true := by
  obtain ⟨d, hd, rfl⟩ := List.mem_map.mp h
  exact (toUInt8_isDigit (Nat.isDigit_of_mem_toDigits (by decide) (by decide) hd)).1

/-- A number has a digit. -/
theorem toDecimal_ne_nil (n : Nat) : toDecimal n ≠ [] :=
  fun h => Nat.toDigits_ne_nil (List.map_eq_nil_iff.mp h)

/-- **And they stand for the number.** -/
@[simp] theorem digitsVal_toDecimal (n : Nat) : Value.digitsVal (toDecimal n) = n := by
  have hfold : ∀ (cs : List Char) (v : Nat), (∀ c ∈ cs, c.isDigit = true) →
      (cs.map fun c => UInt8.ofNat c.toNat).foldl (fun v c => v * 10 + (c.toNat - 48)) v
        = Nat.ofDigitChars 10 cs v := by
    intro cs
    induction cs with
    | nil => exact fun v _ => (Nat.ofDigitChars_nil).symm
    | cons c cs ih =>
      intro v h
      rw [List.forall_mem_cons] at h
      rw [List.map_cons, List.foldl_cons, ih _ h.2, Nat.ofDigitChars_cons,
        (toUInt8_isDigit h.1).2, Nat.mul_comm]
      rfl
  rw [Value.digitsVal, toDecimal,
    hfold _ _ fun c hc => Nat.isDigit_of_mem_toDigits (by decide) (by decide) hc]
  exact Nat.ofDigitChars_ten_toDigits

/-- **So numbers with the same digits are the same.** -/
theorem toDecimal_inj {n m : Nat} (h : toDecimal n = toDecimal m) : n = m := by
  rw [← digitsVal_toDecimal n, h, digitsVal_toDecimal]

/-! ## Slot keys -/

/-- A name without a dot is its own base. -/
theorem refBaseName_self {name : Bytes} (h : 46 ∉ name) : refBaseName name = name := by
  refine List.takeWhile_eq_self_iff.mpr fun c hc => ?_
  simpa using fun heq : c = 46 => h (heq ▸ hc)

/-- The base of a path is what stands before its first dot. -/
theorem refBaseName_append {name : Bytes} (h : 46 ∉ name) (rest : Bytes) :
    refBaseName (name ++ 46 :: rest) = name := by
  have hself : ∀ c ∈ name, (c != 46) = true :=
    fun c hc => by simpa using fun heq : c = 46 => h (heq ▸ hc)
  rw [refBaseName, List.takeWhile_append_of_pos hself,
    List.takeWhile_cons_of_neg (by decide), List.append_nil]

/-- The name of a key is its base. -/
theorem refBaseName_captureSlotKey {name : Bytes} (hname : 46 ∉ name) (group : Nat) :
    refBaseName (captureSlotKey name group) = name := by
  unfold captureSlotKey
  split
  · exact refBaseName_self hname
  · rw [List.append_assoc]
    exact refBaseName_append hname _

/-- A group is determined by its key. -/
theorem captureSlotKey_group_inj {name : Bytes} {group group' : Nat}
    (hkey : captureSlotKey name group = captureSlotKey name group') : group = group' := by
  unfold captureSlotKey at hkey
  split at hkey
  · rename_i hg
    split at hkey
    · rename_i hg'
      rw [hg, hg']
    · simp at hkey
  · split at hkey
    · simp at hkey
    · exact toDecimal_inj (List.append_cancel_left hkey)

/-- **Keys are equal only if the names and the groups are.** -/
theorem captureSlotKey_inj {name name' : Bytes} {group group' : Nat} (h : 46 ∉ name)
    (h' : 46 ∉ name') (hkey : captureSlotKey name group = captureSlotKey name' group') :
    name = name' ∧ group = group' := by
  have hname : name = name' := by
    rw [← refBaseName_captureSlotKey h group, hkey, refBaseName_captureSlotKey h']
  subst hname
  exact ⟨rfl, captureSlotKey_group_inj hkey⟩

end Lowering

namespace Value

/-! ## Rule names -/

/-- **A rule name**: a letter, then letters, digits or underscores; not all of it upper
case, as a variable's name is. -/
structure IsRuleName (n : Bytes) : Prop where
  letter : ∃ c rest, n = c :: rest ∧ isAlpha c = true
  ident : ∀ c ∈ n, isIdentCont c = true
  notUpper : isAllUpper n = false

section
variable {n : Bytes}

/-- A name has a character. -/
theorem IsRuleName.ne_nil (h : IsRuleName n) : n ≠ [] := by
  obtain ⟨c, rest, rfl, -⟩ := h.letter
  exact List.cons_ne_nil c rest

/-- No name has a character in it that identifiers do not have. -/
theorem IsRuleName.not_mem (h : IsRuleName n) {c : UInt8} (hc : isIdentCont c = false) :
    c ∉ n := by
  intro hmem
  rw [h.ident c hmem] at hc
  cases hc

/-- A name that is checked character by character. -/
theorem IsRuleName.of_all {c : UInt8} {rest : Bytes} (hletter : isAlpha c = true)
    (hident : (c :: rest).all isIdentCont = true) (hupper : isAllUpper (c :: rest) = false) :
    IsRuleName (c :: rest) :=
  ⟨⟨c, rest, rfl, hletter⟩, List.all_eq_true.mp hident, hupper⟩

/-- A name is read as one identifier. -/
theorem takeWhile_name {c : UInt8} (rest : Bytes) (h : ∀ d ∈ n, isIdentCont d = true)
    (hc : isIdentCont c = false) :
    (n ++ c :: rest).takeWhile isIdentCont = n
      ∧ (n ++ c :: rest).dropWhile isIdentCont = c :: rest := by
  constructor
  · rw [List.takeWhile_append_of_pos h, List.takeWhile_cons_of_neg (by simp [hc]), List.append_nil]
  · rw [List.dropWhile_append_of_pos h, List.dropWhile_cons_of_neg (by simp [hc])]

/-- A number is read as one run of digits. -/
theorem takeWhile_decimal (group : Nat) {rest : Bytes}
    (hrest : ∀ c, rest.head? = some c → isDigit c = false) :
    (Lowering.toDecimal group ++ rest).takeWhile isDigit = Lowering.toDecimal group
      ∧ (Lowering.toDecimal group ++ rest).dropWhile isDigit = rest := by
  have hdigits : ∀ c ∈ Lowering.toDecimal group, isDigit c = true :=
    fun c hc => Lowering.isDigit_of_mem_toDecimal hc
  rw [List.takeWhile_append_of_pos hdigits, List.dropWhile_append_of_pos hdigits]
  cases rest with
  | nil => exact ⟨List.append_nil _, rfl⟩
  | cons c rest =>
    have hc := hrest c rfl
    rw [List.takeWhile_cons_of_neg (by simp [hc]), List.dropWhile_cons_of_neg (by simp [hc])]
    exact ⟨List.append_nil _, rfl⟩

/-- A name starts an identifier. -/
theorem IsRuleName.startsWith (h : IsRuleName n) (rest : Bytes) :
    startsWith isIdentStart (n ++ rest) = true := by
  obtain ⟨c, tail, rfl, hc⟩ := h.letter
  rw [List.cons_append, startsWith_cons, isIdentStart, hc, Bool.true_or]

/-- The token at an identifier is a chain that starts with it. -/
theorem nextToken_ident {text : Bytes} (hstart : Value.startsWith isIdentStart text = true) :
    nextToken text
      = some (.chain (text.takeWhile isIdentCont)
          (links text.length (text.dropWhile isIdentCont)).1
          (links text.length (text.dropWhile isIdentCont)).2.1,
        (links text.length (text.dropWhile isIdentCont)).2.2) := by
  rw [nextToken.eq_def]
  split
  · cases hstart
  · rw [startsWith_isDigit hstart, if_neg Bool.false_ne_true, if_pos hstart]

/-- The token at a name is a chain that starts with it. -/
theorem nextToken_name (h : IsRuleName n) (rest : Bytes) :
    nextToken (n ++ rest)
      = some (.chain ((n ++ rest).takeWhile isIdentCont)
          (links (n ++ rest).length ((n ++ rest).dropWhile isIdentCont)).1
          (links (n ++ rest).length ((n ++ rest).dropWhile isIdentCont)).2.1,
        (links (n ++ rest).length ((n ++ rest).dropWhile isIdentCont)).2.2) :=
  nextToken_ident (h.startsWith rest)

/-- **`$n.$N` is one token**, up to where the digits end. -/
theorem nextToken_group (h : IsRuleName n) (group : Nat) {rest : Bytes}
    (hrest : ∀ c, rest.head? = some c → isDigit c = false) :
    nextToken (n ++ 46 :: 36 :: (Lowering.toDecimal group ++ rest))
      = some (.chain n [] (some (Lowering.toDecimal group)), rest) := by
  obtain ⟨hname, htail⟩ := takeWhile_name (c := 46)
    (36 :: (Lowering.toDecimal group ++ rest)) h.ident (by decide)
  obtain ⟨hdigits, hafter⟩ := takeWhile_decimal group hrest
  have hindex : startsWith isDigit (Lowering.toDecimal group ++ rest) = true := by
    rw [startsWith_eq, hdigits]
    simpa using Lowering.toDecimal_ne_nil group
  -- An index is tried where no identifier starts, and a digit starts none.
  have hident : startsWith isIdentStart (Lowering.toDecimal group ++ rest) = false := by
    by_contra hident
    rw [startsWith_isDigit (Bool.not_eq_false _ ▸ hident)] at hindex
    cases hindex
  rw [nextToken_name h, hname, htail]
  simp only [List.length_append, List.length_cons, ← Nat.add_assoc, links, hident, hindex,
    Bool.false_eq_true, if_false, if_true, hdigits, hafter]

/-- **`$n` is one token.** -/
theorem nextToken_plain (h : IsRuleName n) : nextToken n = some (.chain n [] none, []) := by
  have hname : n.takeWhile isIdentCont = n := List.takeWhile_eq_self_iff.mpr h.ident
  have hnone : n.dropWhile isIdentCont = [] := List.dropWhile_eq_nil_iff.mpr h.ident
  have htoken := nextToken_name h []
  rw [List.append_nil, hname, hnone] at htoken
  rw [htoken, links_of_not _ fun after heq => List.noConfusion rfl (heq_of_eq heq)]

/-- **`$n.$N` is read as a back-reference.** -/
theorem parseRef_group (h : IsRuleName n) {group : Nat} (hgroup : group ≤ 2147483647)
    {rest : Bytes} (hrest : ∀ c, rest.head? = some c → isDigit c = false) :
    parseRef (n ++ 46 :: 36 :: (Lowering.toDecimal group ++ rest))
      = some (⟨.ruleRef, n ++ [46, 36] ++ Lowering.toDecimal group, group⟩, rest) := by
  have hfits : (RefToken.chain n [] (some (Lowering.toDecimal group))).Fits := by
    intro num hnum
    cases hnum
    rwa [Lowering.digitsVal_toDecimal]
  rw [parseRef_nextToken (nextToken_group h group hrest) hfits]
  simp [RefToken.ref, RefToken.path, RefToken.index, RefToken.num?, behind, RefToken.isOpen]

/-- **`$n` is read as a back-reference.** -/
theorem parseRef_plain (h : IsRuleName n) : parseRef n = some (⟨.ruleRef, n, -1⟩, []) := by
  have hfits : (RefToken.chain n [] none).Fits := by
    intro num hnum
    cases hnum
  rw [parseRef_nextToken (nextToken_plain h) hfits]
  simp [RefToken.ref, RefToken.path, RefToken.index, RefToken.num?, behind, h.notUpper]

/-! ## A back-reference in its text -/

/-- Interpolation takes a text without a dollar into the literal. -/
theorem interpolateFrom_before {before : Bytes} (h : 36 ∉ before) :
    ∀ {fuel : Nat} {rest lit : Bytes}, interpolateFrom (before.length + fuel) (before ++ rest) lit
      = interpolateFrom fuel rest (lit ++ before) := by
  induction before with
  | nil =>
    intro fuel rest lit
    rw [List.length_nil, Nat.zero_add, List.nil_append, List.append_nil]
  | cons c before ih =>
    intro fuel rest lit
    obtain ⟨hc, hbefore⟩ := not_or.mp (List.mem_cons.not.mp h)
    have hdollar : (c == 36) = false := beq_eq_false_iff_ne.mpr (Ne.symm hc)
    rw [List.length_cons, Nat.add_right_comm, List.cons_append, interpolateFrom, hdollar,
      Bool.false_and, if_neg Bool.false_ne_true, ih hbefore, List.append_assoc,
      List.singleton_append]

/-- A text without a dollar has no reference in it. -/
theorem noReference_of_not_mem {text : Bytes} (h : 36 ∉ text) : NoReference text := by
  rintro before rest rfl
  exact absurd (by simp) h

/-- The text of a back-reference to a group. -/
def backReference (n : Bytes) (group : Nat) : Bytes :=
  36 :: (n ++ 46 :: 36 :: Lowering.toDecimal group)

/-- A reference between two texts without a dollar is the only one. -/
theorem interpolate_reference (before ref after : Bytes) {r : ValueRef}
    (hbefore : 36 ∉ before) (hafter : 36 ∉ after) (hstarts : startsRef (ref ++ after) = true)
    (href : parseRef (ref ++ after) = some (r, after)) :
    interpolate (before ++ 36 :: ref ++ after) = some (flush before ++ .ref r :: flush after) := by
  have hlen : (before ++ 36 :: ref ++ after).length
      = before.length + ((ref.length + after.length) + 1) := by
    simp only [List.length_append, List.length_cons]
    omega
  rw [interpolate, hlen, List.append_assoc, interpolateFrom_before hbefore, List.cons_append,
    interpolateFrom, hstarts, beq_self_eq_true, Bool.and_self, if_pos rfl, href, List.nil_append]
  simp only [Option.bind_eq_bind, Option.bind_some]
  rw [interpolateFrom_noReference (Nat.le_add_left _ _) (noReference_of_not_mem hafter),
    List.nil_append]
  rfl

/-- A new-value without a `+` is one operand. -/
theorem parse_operand {raw : Bytes} {segs : List ValueSegment} (hplus : 43 ∉ raw)
    (hne : raw ≠ []) (h : interpolate raw = some segs) :
    parse raw .newValue false = some { raw := raw, segments := segs } := by
  have hfilter : (splitConcat raw).filter (!·.isEmpty) = [raw] := by
    rw [splitConcat, List.splitOn_eq_singleton hplus,
      List.filter_cons_of_pos (by simpa using hne), List.filter_nil]
  change parseNew raw = _
  rw [parseNew, hfilter]
  simp [h]

/-- A dollar in front of a name starts a reference. -/
theorem IsRuleName.startsRef (h : IsRuleName n) (rest : Bytes) :
    startsRef (n ++ rest) = true := by
  obtain ⟨c, tail, rfl, hc⟩ := h.letter
  simp [Value.startsRef, isIdentStart, hc]

/-- **A rule's name in a text is read as a reference to group 0.** -/
theorem parse_plain (h : IsRuleName n) :
    parse (36 :: n) .newValue false
      = some { raw := 36 :: n, segments := [.ref ⟨.ruleRef, n, -1⟩] } := by
  have hplus : 43 ∉ (36 :: n : Bytes) := by
    rw [List.mem_cons, not_or]
    exact ⟨by decide, h.not_mem (by decide)⟩
  have hread := interpolate_reference [] n []
    List.not_mem_nil List.not_mem_nil (h.startsRef _)
    (by rw [List.append_nil]; exact parseRef_plain h)
  rw [List.append_nil] at hread
  exact parse_operand hplus (List.cons_ne_nil _ _) hread

/-- **A back-reference in a text is read as one reference, and the text around it as
literals.** -/
theorem parse_group (before after : Bytes) (h : IsRuleName n) {group : Nat}
    (hgroup : group ≤ 2147483647) (hbefore : 36 ∉ before ∧ 43 ∉ before)
    (hafter : 36 ∉ after ∧ 43 ∉ after)
    (hdigit : ∀ c, after.head? = some c → isDigit c = false) :
    parse (before ++ backReference n group ++ after) .newValue false
      = some
          { raw := before ++ backReference n group ++ after
            segments := flush before
              ++ .ref ⟨.ruleRef, n ++ [46, 36] ++ Lowering.toDecimal group, group⟩
              :: flush after } := by
  have hdecimal : 43 ∉ Lowering.toDecimal group := by
    intro hmem
    have := Lowering.isDigit_of_mem_toDecimal hmem
    revert this
    decide
  have hplus : 43 ∉ before ++ backReference n group ++ after := by
    simp only [backReference, List.mem_append, List.mem_cons, not_or]
    exact ⟨⟨hbefore.2, by decide, h.not_mem (by decide), by decide, by decide, hdecimal⟩,
      hafter.2⟩
  refine parse_operand hplus (by simp [backReference]) ?_
  refine interpolate_reference _ _ _ hbefore.1 hafter.1 ?_ ?_
  · rw [List.append_assoc]
    exact h.startsRef _
  · rw [List.append_assoc]
    exact parseRef_group h hgroup hdigit

end

/-- **A back-reference resolves, and to nothing else.** In a text around it, `$n.$N` is
read as one reference to a rule, whose slot is the one a store named `n` writes group
`N` to; so is `$n`, for group 0; and the slots of two pairs of name and group are equal
only if the pairs are. -/
theorem parse_backReference {n : Bytes} (before after : Bytes) (group : Nat) (h : IsRuleName n)
    (hgroup : group ≤ 2147483647) (hbefore : 36 ∉ before ∧ 43 ∉ before)
    (hafter : 36 ∉ after ∧ 43 ∉ after)
    (hdigit : ∀ c, after.head? = some c → isDigit c = false) :
    ∃ r : ValueRef,
      parse (before ++ backReference n group ++ after) .newValue false
          = some
              { raw := before ++ backReference n group ++ after
                segments := flush before ++ .ref r :: flush after }
        ∧ r.kind = .ruleRef
        ∧ Meaning.refSlot r = Lowering.captureSlotKey n group
        ∧ Interpreter.slotForRef r.name r.captureIndex
            = Interpreter.slotFor (Lowering.captureSlotKey n group)
        ∧ (∀ hr idx v, hr.name = n →
            Meaning.storeAt (fun _ => Prog.perform) (Meaning.storeName hr idx) group v
              = Prog.perform (RtCall.store (Lowering.captureSlotKey n group) v : SymCall .unit))
        ∧ (group = 0 → ∃ r₀ : ValueRef,
            parse (36 :: n) .newValue false
                = some { raw := 36 :: n, segments := [.ref r₀] }
              ∧ r₀.kind = .ruleRef ∧ Meaning.refSlot r₀ = Meaning.refSlot r)
        ∧ ∀ n' group', IsRuleName n' →
            Lowering.captureSlotKey n group = Lowering.captureSlotKey n' group' →
              n = n' ∧ group = group' := by
  have hdot : 46 ∉ n := h.not_mem (by decide)
  -- The slot of the reference goes by what is in front of the first dot, and the name has none.
  have hbase : Lowering.refBaseName (n ++ [46, 36] ++ Lowering.toDecimal group) = n := by
    rw [List.append_assoc]
    exact Lowering.refBaseName_append hdot _
  have hslot : Meaning.refSlot ⟨.ruleRef, n ++ [46, 36] ++ Lowering.toDecimal group, group⟩
      = Lowering.captureSlotKey n group := by
    rw [Meaning.refSlot, hbase]
    simp [Meaning.refGroup]
  refine ⟨_, parse_group before after h hgroup hbefore hafter hdigit, rfl, hslot, ?_, ?_, ?_, ?_⟩
  · exact congrArg Interpreter.slotFor hslot
  · rintro hr idx v rfl
    have hne : hr.name.isEmpty = false := by simpa using h.ne_nil
    rw [Meaning.storeAt, Meaning.storeName, hne, if_neg Bool.false_ne_true]
  · rintro rfl
    refine ⟨_, parse_plain h, rfl, ?_⟩
    rw [hslot, Meaning.refSlot]
    rw [Lowering.refBaseName_self hdot]
    rfl
  · exact fun n' group' h' hkey => Lowering.captureSlotKey_inj hdot (h'.not_mem (by decide)) hkey

/-- This is a name. -/
theorem isRuleName_getUser : IsRuleName (txt "getUser") := IsRuleName.of_all rfl rfl rfl

/-- A group of the rule with this name, in an address. -/
theorem parse_backReference_getUser : ∃ r : ValueRef,
    parse (txt "sip:$getUser.$1@sbc") .newValue false
        = some
            { raw := txt "sip:$getUser.$1@sbc"
              segments := [.literal (txt "sip:"), .ref r, .literal (txt "@sbc")] }
      ∧ r.kind = .ruleRef ∧ Meaning.refSlot r = txt "getUser.$1" := by
  obtain ⟨r, hparse, hkind, hslot, -⟩ :=
    parse_backReference (txt "sip:") (txt "@sbc") 1 isRuleName_getUser (by decide)
      (by decide) (by decide) (by
        intro c hc
        cases hc
        rfl)
  exact ⟨r, hparse, hkind, hslot⟩

end Value

end Hmr
