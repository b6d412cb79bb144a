import Hmr.Machine

/-!
# The capturing groups of a regex

`count_capturing_groups` scans the text of a regex from the left: it keeps one flag,
whether it is within a character class, and looks up to three characters ahead. What it is
to count are the groups of the regex as it is read by a parser, that is of a syntax tree,
whose parentheses are nested.

The scanner adds up what it finds, so for a part of a regex it finds what is in that part,
whatever follows (`Regex.countGroupsFrom_text`). What it looks ahead for stands behind an
opening parenthesis and in front of anything else: a group that does not capture is known
by its `?`, and if a name follows, by what stands before it. A parenthesis that is escaped
or in a class is none.

The count is an `unsigned`, so that is exact for fewer than `2 ^ 32` groups, and for as
many as that it comes to nothing. A store of a pattern-rule goes over the groups from 0 up
to the count and including it; with `2 ^ 32 - 1` groups the last of them is the largest
`unsigned`, and the loop does not end. What is said about slots is therefore said for
fewer groups than that.

Which texts are the text of a tree is left to the tree (`Regex.IsProper`): a character
stands for itself if it is none of those with a meaning, and a name is made of such.
-/

namespace Hmr

/-- What stands in a character class. -/
inductive ClassItem
  | char (c : UInt8)
  | escape (c : UInt8)
  deriving DecidableEq, Repr

/-- The groups that do not capture: `(?:`, `(?=`, `(?!`, `(?<=` and `(?<!`. -/
inductive GroupKind
  | plain | ahead | notAhead | behind | notBehind
  deriving DecidableEq, Repr

/-- **The syntax tree of a regex**, as far as groups are concerned: quantifiers,
alternatives and anchors are characters of it. -/
inductive Regex
  | empty
  | char (c : UInt8)
  | escape (c : UInt8)
  | charClass (items : List ClassItem)
  | capturing (body : Regex)
  | named (name : Bytes) (body : Regex)
  | nonCapturing (kind : GroupKind) (body : Regex)
  | cat (first second : Regex)
  deriving DecidableEq, Repr

namespace ClassItem

/-- The text of an item. -/
def text : ClassItem → Bytes
  | char c => [c]
  | escape c => [92, c]

/-- A character of a class is not the bracket that ends it, and no backslash. -/
def IsProper : ClassItem → Prop
  | char c => c ≠ 93 ∧ c ≠ 92
  | escape _ => True

instance : DecidablePred IsProper
  | char _ => inferInstanceAs (Decidable (_ ∧ _))
  | escape _ => inferInstanceAs (Decidable True)

end ClassItem

/-- What follows the `?` of such a group. -/
def GroupKind.text : GroupKind → Bytes
  | plain => [58]
  | ahead => [61]
  | notAhead => [33]
  | behind => [60, 61]
  | notBehind => [60, 33]

namespace Regex

/-- **The text of a regex.** -/
def text : Regex → Bytes
  | empty => []
  | char c => [c]
  | escape c => [92, c]
  | charClass items => 91 :: (items.flatMap ClassItem.text ++ [93])
  | capturing body => 40 :: (body.text ++ [41])
  | named name body => 40 :: 63 :: 60 :: (name ++ 62 :: (body.text ++ [41]))
  | nonCapturing kind body => 40 :: 63 :: (kind.text ++ (body.text ++ [41]))
  | cat first second => first.text ++ second.text

/-- **The groups that capture.** -/
def groups : Regex → Nat
  | empty | char _ | escape _ | charClass _ => 0
  | capturing body => body.groups + 1
  | named _ body => body.groups + 1
  | nonCapturing _ body => body.groups
  | cat first second => first.groups + second.groups

/-- A character without a meaning for groups: no backslash, no bracket and no
parenthesis that opens something. -/
def IsOrdinary (c : UInt8) : Prop := c ≠ 92 ∧ c ≠ 91 ∧ c ≠ 40

instance : DecidablePred IsOrdinary := fun _ => inferInstanceAs (Decidable (_ ∧ _))

/-- The name of a group, which does not make it a look-behind. -/
def IsName (name : Bytes) : Prop :=
  name ≠ [] ∧ (∀ c ∈ name, IsOrdinary c ∧ c ≠ 62) ∧ name.head? ≠ some 61 ∧ name.head? ≠ some 33

instance : DecidablePred IsName := fun _ => inferInstanceAs (Decidable (_ ∧ _))

/-- **The text is read as this tree**: its characters are characters, and no `?` comes
right behind the parenthesis of a group that captures. -/
def IsProper : Regex → Prop
  | empty | escape _ => True
  | char c => IsOrdinary c
  | charClass items => ∀ i ∈ items, i.IsProper
  | capturing body => body.text.head? ≠ some 63 ∧ body.IsProper
  | named name body => IsName name ∧ body.IsProper
  | nonCapturing _ body => body.IsProper
  | cat first second => first.IsProper ∧ second.IsProper

instance decidableIsProper : DecidablePred IsProper
  | empty | escape _ => inferInstanceAs (Decidable True)
  | char _ => inferInstanceAs (Decidable (IsOrdinary _))
  | charClass _ => inferInstanceAs (Decidable (∀ _ ∈ _, ClassItem.IsProper _))
  | capturing body =>
    haveI := decidableIsProper body
    inferInstanceAs (Decidable (_ ∧ body.IsProper))
  | named _ body =>
    haveI := decidableIsProper body
    inferInstanceAs (Decidable (_ ∧ body.IsProper))
  | nonCapturing _ body => decidableIsProper body
  | cat first second =>
    haveI := decidableIsProper first
    haveI := decidableIsProper second
    inferInstanceAs (Decidable (first.IsProper ∧ second.IsProper))

open Lowering

/-! ## One step of the scanner -/

section
variable {c : UInt8} {rest name : Bytes}

/-- The character behind a backslash is skipped. -/
theorem countGroupsFrom_escape (inClass : Bool) (c : UInt8) (rest : Bytes) :
    countGroupsFrom inClass (92 :: c :: rest) = countGroupsFrom inClass rest := by
  rw [countGroupsFrom.eq_def]
  exact if_pos rfl

/-- Any other character. -/
theorem countGroupsFrom_cons (inClass : Bool) (h : c ≠ 92) (rest : Bytes) :
    countGroupsFrom inClass (c :: rest)
      = if inClass then countGroupsFrom (c != 93) rest
        else if c = 91 then countGroupsFrom true rest
        else if c = 40 then (if opensCapture rest then 1 else 0) + countGroupsFrom false rest
        else countGroupsFrom false rest := by
  rw [countGroupsFrom.eq_def]
  simp only [beq_iff_eq, if_neg h]

/-- A character without a meaning counts for nothing. -/
theorem countGroupsFrom_ordinary (h : IsOrdinary c) (rest : Bytes) :
    countGroupsFrom false (c :: rest) = countGroupsFrom false rest := by
  rw [countGroupsFrom_cons false h.1, if_neg Bool.false_ne_true, if_neg h.2.1, if_neg h.2.2]

/-- Nor do several. -/
theorem countGroupsFrom_ordinaries (h : ∀ c ∈ name, IsOrdinary c) (rest : Bytes) :
    countGroupsFrom false (name ++ rest) = countGroupsFrom false rest := by
  induction name with
  | nil => rfl
  | cons c name ih =>
    rw [List.forall_mem_cons] at h
    rw [List.cons_append, countGroupsFrom_ordinary h.1, ih h.2]

/-- A bracket opens a class. -/
theorem countGroupsFrom_bracket (rest : Bytes) :
    countGroupsFrom false (91 :: rest) = countGroupsFrom true rest := by
  rw [countGroupsFrom_cons false (by decide), if_neg Bool.false_ne_true, if_pos rfl]

/-- A parenthesis opens a group. -/
theorem countGroupsFrom_paren (rest : Bytes) :
    countGroupsFrom false (40 :: rest)
      = (if opensCapture rest then 1 else 0) + countGroupsFrom false rest := by
  rw [countGroupsFrom_cons false (by decide), if_neg Bool.false_ne_true, if_neg (by decide),
    if_pos rfl]

/-- **A class is left by its closing bracket**, whatever parentheses are in it. -/
theorem countGroupsFrom_items {items : List ClassItem} (h : ∀ i ∈ items, i.IsProper)
    (rest : Bytes) :
    countGroupsFrom true (items.flatMap ClassItem.text ++ 93 :: rest)
      = countGroupsFrom false rest := by
  -- In a class nothing is counted, and it ends at the first bracket that is not escaped.
  induction items with
  | nil =>
    rw [List.flatMap_nil, List.nil_append, countGroupsFrom_cons true (by decide), if_pos rfl]
    rfl
  | cons i items ih =>
    rw [List.forall_mem_cons] at h
    rw [List.flatMap_cons, List.append_assoc, ← ih h.2]
    cases i with
    | char c =>
      obtain ⟨hend, hescape⟩ : c ≠ 93 ∧ c ≠ 92 := h.1
      rw [ClassItem.text, List.singleton_append, countGroupsFrom_cons true hescape, if_pos rfl,
        bne_iff_ne.mpr hend]
    | escape c => exact countGroupsFrom_escape true c _

/-! ## Which groups capture -/

/-- A parenthesis without a `?` behind it. -/
theorem opensCapture_of_head (h : rest.head? ≠ some 63) : opensCapture rest = true := by
  unfold opensCapture
  split
  · exact absurd rfl h
  · exact absurd rfl h
  · rfl

/-- A name makes a group capture. -/
theorem opensCapture_name (h : IsName name) (rest : Bytes) :
    opensCapture (63 :: 60 :: (name ++ rest)) = true := by
  obtain ⟨hne, -, hahead, hnot⟩ := h
  obtain ⟨c, name, rfl⟩ := List.exists_cons_of_ne_nil hne
  rw [List.head?_cons, ne_eq, Option.some_inj] at hahead hnot
  show (c != 61 && c != 33) = true
  rw [bne_iff_ne.mpr hahead, bne_iff_ne.mpr hnot, Bool.true_and]

/-- **The other forms with a `?` do not capture**, and have nothing in them that is
counted. -/
theorem countGroupsFrom_kind (kind : GroupKind) (rest : Bytes) :
    countGroupsFrom false (40 :: 63 :: (kind.text ++ rest)) = countGroupsFrom false rest := by
  have hopens : opensCapture (63 :: (kind.text ++ rest)) = false := by cases kind <;> rfl
  have hmark : ∀ d ∈ kind.text, IsOrdinary d := by cases kind <;> simp [GroupKind.text, IsOrdinary]
  rw [countGroupsFrom_paren, hopens, if_neg Bool.false_ne_true, Nat.zero_add,
    countGroupsFrom_ordinary (by decide), countGroupsFrom_ordinaries hmark]

end

/-! ## A whole regex -/

/-- **The scanner finds the groups of a regex**, and then those of what follows it.

By induction on the tree, for everything that may follow. The scanner is outside of classes where
a part begins and where it ends, which is why the parts can be read one by one: a class is left
at its own `]`, the escapes take their character along, and what stands behind a `(` decides by
itself whether the parenthesis counts. -/
theorem countGroupsFrom_text {r : Regex} (h : r.IsProper) (rest : Bytes) :
    countGroupsFrom false (r.text ++ rest) = r.groups + countGroupsFrom false rest := by
  have hclose : ∀ rest, countGroupsFrom false (41 :: rest) = countGroupsFrom false rest :=
    countGroupsFrom_ordinary (by decide)
  -- The scanner is not in a class at the beginning of a part, nor at its end.
  induction r generalizing rest with
  | empty => exact (Nat.zero_add _).symm
  | char c => rw [text, List.singleton_append, countGroupsFrom_ordinary h, groups, Nat.zero_add]
  | escape c =>
    rw [groups, Nat.zero_add]
    exact countGroupsFrom_escape false c rest
  | charClass items =>
    rw [text, List.cons_append, List.append_assoc, countGroupsFrom_bracket,
      List.singleton_append, countGroupsFrom_items h, groups, Nat.zero_add]
  | capturing body ih =>
    have hopens : opensCapture (body.text ++ 41 :: rest) = true := by
      have hhead := h.1
      refine opensCapture_of_head ?_
      generalize body.text = text at hhead ⊢
      cases text with
      | nil => simp
      | cons c text => exact hhead
    rw [text, List.cons_append, List.append_assoc, List.singleton_append, countGroupsFrom_paren,
      hopens, if_pos rfl, ih h.2, hclose, groups]
    omega
  | named name body ih =>
    rw [text, List.cons_append, List.cons_append, List.cons_append, List.append_assoc,
      List.cons_append, List.append_assoc, List.singleton_append, countGroupsFrom_paren,
      opensCapture_name h.1, if_pos rfl, countGroupsFrom_ordinary (by decide),
      countGroupsFrom_ordinary (by decide), countGroupsFrom_ordinaries fun c hc => (h.1.2.1 c hc).1,
      countGroupsFrom_ordinary (by decide), ih h.2, hclose, groups]
    omega
  | nonCapturing kind body ih =>
    rw [text, List.cons_append, List.cons_append, List.append_assoc, List.append_assoc,
      List.singleton_append, countGroupsFrom_kind, ih h, hclose, groups]
  | cat first second ihFirst ihSecond =>
    rw [text, List.append_assoc, ihFirst h.1, ihSecond h.2, groups, Nat.add_assoc]

/-- **The count is that of the groups**, as an `unsigned` has it. -/
theorem countCapturingGroups_text {r : Regex} (h : r.IsProper) :
    Lowering.countCapturingGroups r.text = r.groups % 2 ^ 32 := by
  have htext := countGroupsFrom_text h []
  rw [List.append_nil] at htext
  rw [Lowering.countCapturingGroups, htext]
  rfl

/-- `n` groups without anything in them, one behind the other. -/
def emptyGroups : Nat → Regex
  | 0 => .empty
  | n + 1 => .cat (.capturing .empty) (emptyGroups n)

/-- It has so many groups. -/
@[simp] theorem groups_emptyGroups (n : Nat) : (emptyGroups n).groups = n := by
  induction n with
  | zero => rfl
  | succ n ih => rw [emptyGroups, groups, ih, Nat.add_comm n]; rfl

/-- It is the text of a tree. -/
theorem isProper_emptyGroups (n : Nat) : (emptyGroups n).IsProper := by
  induction n with
  | zero => trivial
  | succ n ih => exact ⟨⟨by decide, trivial⟩, ih⟩

end Regex

/-! ## The slots of a store -/

/-- The groups from `g` on are among the keys. -/
theorem Meaning.mem_groupKeys {name : Bytes} {n g i : Nat} (hg : g ≤ i) (hi : i < g + n) :
    .slot (Lowering.captureSlotKey name i) ∈ Meaning.groupKeys name n g := by
  induction n generalizing g with
  | zero => omega
  | succ n ih =>
    rw [Meaning.groupKeys, List.mem_cons]
    obtain rfl | hlt := Nat.eq_or_lt_of_le hg
    · exact Or.inl rfl
    · exact Or.inr (ih hlt (by omega))

namespace Interpreter

/-- A rule that stores what a pattern finds. -/
def storing (pattern : Bytes) : HeaderRule where
  name := txt "keep"
  headerName := txt "To"
  action := .store
  comparison := .patternRule
  matchValue := Value.verbatim pattern

/-- **The groups of a regex are counted exactly** where their number is an `unsigned`,
and a pattern-rule store of any ruleset has a slot for each of them, and for the whole
match. -/
theorem groups_reserved (r : Regex) (h : r.IsProper) (hfew : r.groups < 2 ^ 32) :
    Lowering.countCapturingGroups r.text = r.groups
      ∧ (r.groups + 1 < 2 ^ 32 →
        ∀ (rs : Ruleset) (before after : List HeaderRule) (hr : HeaderRule),
        rs.headerRules = before ++ hr :: after → hr.action = .store →
        Lowering.isPattern hr.comparison = true →
        Meaning.patternOf hr.matchValue = r.text → ∀ g ≤ r.groups,
          Lowering.captureSlotKey (Meaning.storeName hr before.length) g
            ∈ (tables rs).slots) := by
  have hcount : Lowering.countCapturingGroups r.text = r.groups := by
    rw [Regex.countCapturingGroups_text h, Nat.mod_eq_of_lt hfew]
  refine ⟨hcount, ?_⟩
  intro _ rs before after hr hrules hstore hpattern htext g hg
  have hkey : .slot (Lowering.captureSlotKey (Meaning.storeName hr before.length) g)
      ∈ Meaning.ruleKeys before.length hr := by
    have hgroup : .slot (Lowering.captureSlotKey (Meaning.storeName hr before.length) g)
        ∈ Meaning.groupKeys (Meaning.storeName hr before.length) (r.groups + 1) 0 :=
      Meaning.mem_groupKeys (Nat.zero_le g) (by omega)
    rw [Meaning.ruleKeys, Meaning.actionKeys, hstore, Meaning.storeKeys, if_pos hpattern, htext,
      hcount]
    exact List.mem_append_left _ (List.mem_append_right _ hgroup)
  have hhas := Meaning.has_symbols rs _ (Meaning.ruleKeys_subset hrules hkey)
  rwa [← symbols_tables] at hhas

/-- `(?<n>[(]\()(?:(b)?)`: two groups, a named one and one within another that does not
capture. -/
def twoGroups : Regex :=
  .cat (.named (txt "n") (.cat (.charClass [.char 40]) (.escape 40)))
    (.nonCapturing .plain (.cat (.capturing (.char 98)) (.char 63)))

/-- A pattern with two groups, one in the other. -/
theorem groups_reserved_two :
    Lowering.countCapturingGroups twoGroups.text = 2
      ∧ ∀ g ≤ 2, Lowering.captureSlotKey (txt "keep") g
          ∈ (tables { headerRules := [storing twoGroups.text] }).slots := by
  have hname : Regex.IsName (txt "n") :=
    ⟨by decide, List.forall_mem_singleton.mpr (by decide), by decide, by decide⟩
  have hclass : (Regex.charClass [.char 40]).IsProper := List.forall_mem_singleton.mpr (by decide)
  have hproper : twoGroups.IsProper :=
    ⟨⟨hname, hclass, trivial⟩, ⟨by decide, by decide⟩, by decide⟩
  obtain ⟨hcount, hslots⟩ := groups_reserved twoGroups hproper (by decide)
  exact ⟨hcount, hslots (by decide) { headerRules := [storing twoGroups.text] } [] []
    (storing twoGroups.text) rfl rfl rfl rfl⟩

/-- **The count wraps around**: of `2 ^ 32` groups none is counted. -/
theorem not_groups_reserved :
    ¬ ∀ r : Regex, r.IsProper → Lowering.countCapturingGroups r.text = r.groups := by
  intro h
  obtain ⟨r, hproper, hgroups⟩ : ∃ r : Regex, r.IsProper ∧ r.groups = 2 ^ 32 :=
    ⟨_, Regex.isProper_emptyGroups (2 ^ 32), Regex.groups_emptyGroups _⟩
  have hcount := h r hproper
  rw [Regex.countCapturingGroups_text hproper, hgroups, Nat.mod_self] at hcount
  exact absurd hcount (by decide)

end Interpreter

end Hmr
