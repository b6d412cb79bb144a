import Hmr.Meaning

/-!
# Slot names and regexes of a ruleset

A slot is known to a ruleset by its name and to the runtime by its number, and so is a
regex. The numbers are given out in the order the names are met: a `SymbolTable` is the
list of what has been met, and the number of a name is its position. So a number that was
given out stays what it is when more are (`SymbolTable.slotId_addAll`), and two slots with
one number are one slot (`SymbolTable.slotId_inj`).

`Meaning.keys` lists the names and patterns of a ruleset in the order in which its
back-ends meet them. It is what the tables of the interpreter and of the two emitters are
compared with, and it is defined apart from all three: it goes through the rules once, and
says what each part of a rule asks for, fired or not.

It is complete, too: the program of a ruleset uses no other slot and no other regex
(`Meaning.program_uses`). That is a contract of the program's calls, in the sense of
`Prog.Meets`, and is shown along the functions of the meaning, each of which uses the keys
of its own part. The element rules of a header rule that rejects are the one place where
the list is shorter than the ruleset; no back-end looks at them.
-/

namespace Hmr

/-! ## Numbering -/

/-- Append a key that is not there yet. -/
def register {K : Type} [DecidableEq K] (l : List K) (k : K) : List K :=
  if k ∈ l then l else l ++ [k]

section
variable {K : Type} [DecidableEq K] [BEq K] [LawfulBEq K] {l : List K} {k k' : K}

omit [BEq K] [LawfulBEq K] in
/-- A key is registered, next to those that are. -/
@[simp] theorem mem_register : k' ∈ register l k ↔ k' ∈ l ∨ k' = k := by
  unfold register
  split
  · rename_i h
    exact ⟨Or.inl, fun h' => h'.elim id (fun e => e ▸ h)⟩
  · rw [List.mem_append, List.mem_singleton]

/-- **Numbers, once given out, stay.** -/
theorem idxOf?_register (h : k' ∈ l) : (register l k).idxOf? k' = l.idxOf? k' := by
  unfold register
  split
  · rfl
  · obtain ⟨i, hi⟩ := Option.isSome_iff_exists.mp (List.isSome_idxOf?.mpr h)
    obtain ⟨hlt, hget, hmin⟩ := List.idxOf?_eq_some_iff.mp hi
    rw [hi, List.idxOf?_eq_some_iff]
    refine ⟨by rw [List.length_append]; omega, ?_, fun j hj => ?_⟩
    · rw [List.getElem_append_left hlt]
      exact hget
    · rw [List.getElem_append_left (by omega)]
      exact hmin j hj

end

/-- A slot name, or a pattern with its case-insensitive flag. -/
inductive TableKey
  | slot (name : Bytes)
  | regex (pattern : Bytes) (ci : Bool)
  deriving DecidableEq, Repr

/-- **What has been numbered**: each slot name and each regex, at the position
that is its id. -/
structure SymbolTable where
  regexes : List (Bytes × Bool) := []
  slots : List Bytes := []
  deriving DecidableEq, Repr

namespace SymbolTable

/-- Number a key. -/
def add (t : SymbolTable) : TableKey → SymbolTable
  | .slot name => { t with slots := register t.slots name }
  | .regex pattern ci => { t with regexes := register t.regexes (pattern, ci) }

/-- Number keys in order. -/
def addAll (t : SymbolTable) (ks : List TableKey) : SymbolTable := ks.foldl add t

/-- The key has a number. -/
def Has (t : SymbolTable) : TableKey → Prop
  | .slot name => name ∈ t.slots
  | .regex pattern ci => (pattern, ci) ∈ t.regexes

/-- The id of a slot. -/
def slotId (t : SymbolTable) (name : Bytes) : Nat := (t.slots.idxOf? name).getD 0

/-- The id of a regex; a guard that is no pattern passes zero. -/
def regexId (t : SymbolTable) : RegexKey → Nat
  | none => 0
  | some r => (t.regexes.idxOf? r).getD 0

/-- **Put the ids in.** -/
def resolve (t : SymbolTable) : ∀ i, SymCall i → RtCall Bytes Nat Nat i :=
  RtCall.map id t.slotId t.regexId

/-- Numbering no keys changes nothing. -/
@[simp] theorem addAll_nil (t : SymbolTable) : t.addAll [] = t := rfl

/-- Keys that come in two lists are numbered in two steps, -/
@[simp] theorem addAll_append (t : SymbolTable) (ks ks' : List TableKey) :
    t.addAll (ks ++ ks') = (t.addAll ks).addAll ks' :=
  List.foldl_append

/-- and one by one. -/
@[simp] theorem addAll_cons (t : SymbolTable) (k : TableKey) (ks : List TableKey) :
    t.addAll (k :: ks) = (t.add k).addAll ks := rfl

/-- A key has a number if it had one, or is given one. -/
@[simp] theorem has_add {t : SymbolTable} {k k' : TableKey} :
    (t.add k).Has k' ↔ t.Has k' ∨ k' = k := by
  cases k <;> cases k' <;> simp [add, Has]

/-- A table has what it had, and what was added. -/
@[simp] theorem has_addAll {t : SymbolTable} {ks : List TableKey} {k : TableKey} :
    (t.addAll ks).Has k ↔ t.Has k ∨ k ∈ ks := by
  induction ks generalizing t with
  | nil => simp
  | cons x ks ih => rw [addAll_cons, ih, has_add, List.mem_cons, or_assoc]

/-- The id of a slot that has one is below the number of slots. -/
theorem slotId_lt {t : SymbolTable} {name : Bytes} (h : t.Has (.slot name)) :
    t.slotId name < t.slots.length := by
  obtain ⟨i, hi⟩ := Option.isSome_iff_exists.mp (List.isSome_idxOf?.mpr h)
  obtain ⟨hlt, -⟩ := List.idxOf?_eq_some_iff.mp hi
  rw [slotId, hi]
  exact hlt

/-- The slot at the id of a name is that name. -/
theorem getElem?_slotId {t : SymbolTable} {name : Bytes} (h : t.Has (.slot name)) :
    t.slots[t.slotId name]? = some name := by
  obtain ⟨i, hi⟩ := Option.isSome_iff_exists.mp (List.isSome_idxOf?.mpr h)
  obtain ⟨hlt, hget, -⟩ := List.idxOf?_eq_some_iff.mp hi
  rw [slotId, hi, Option.getD_some, List.getElem?_eq_getElem hlt, hget]

/-- **Two slots with one id are one slot.** -/
theorem slotId_inj {t : SymbolTable} {n n' : Bytes} (h : t.Has (.slot n))
    (h' : t.Has (.slot n')) (he : t.slotId n = t.slotId n') : n = n' := by
  have := getElem?_slotId h
  rw [he, getElem?_slotId h'] at this
  exact (Option.some.inj this).symm

/-- The same for regexes: an id is below their number, -/
theorem regexId_lt {t : SymbolTable} {p : Bytes} {ci : Bool} (h : t.Has (.regex p ci)) :
    t.regexId (some (p, ci)) < t.regexes.length := by
  obtain ⟨i, hi⟩ := Option.isSome_iff_exists.mp (List.isSome_idxOf?.mpr h)
  obtain ⟨hlt, -⟩ := List.idxOf?_eq_some_iff.mp hi
  rw [regexId, hi]
  exact hlt

/-- the regex at it is the regex, -/
theorem getElem?_regexId {t : SymbolTable} {p : Bytes} {ci : Bool}
    (h : t.Has (.regex p ci)) : t.regexes[t.regexId (some (p, ci))]? = some (p, ci) := by
  obtain ⟨i, hi⟩ := Option.isSome_iff_exists.mp (List.isSome_idxOf?.mpr h)
  obtain ⟨hlt, hget, -⟩ := List.idxOf?_eq_some_iff.mp hi
  rw [regexId, hi, Option.getD_some, List.getElem?_eq_getElem hlt, hget]

/-- Numbering more keys leaves the id of a slot as it is. -/
theorem slotId_addAll {t : SymbolTable} {name : Bytes} (h : t.Has (.slot name))
    (ks : List TableKey) : (t.addAll ks).slotId name = t.slotId name := by
  induction ks generalizing t with
  | nil => rfl
  | cons k ks ih =>
    rw [addAll_cons, ih (has_add.mpr (Or.inl h))]
    cases k with
    | slot x =>
      show ((register t.slots x).idxOf? name).getD 0 = _
      rw [idxOf?_register h]
      rfl
    | regex p ci => rfl

/-- and it stays what it is. -/
theorem regexId_addAll {t : SymbolTable} {p : Bytes} {ci : Bool}
    (h : t.Has (.regex p ci)) (ks : List TableKey) :
    (t.addAll ks).regexId (some (p, ci)) = t.regexId (some (p, ci)) := by
  induction ks generalizing t with
  | nil => rfl
  | cons k ks ih =>
    rw [addAll_cons, ih (has_add.mpr (Or.inl h))]
    cases k with
    | slot x => rfl
    | regex q cj =>
      show ((register t.regexes (q, cj)).idxOf? (p, ci)).getD 0 = _
      rw [idxOf?_register h]
      rfl

end SymbolTable

namespace Meaning

/-! ## The keys of a ruleset -/

/-- The slot of a reference, if it is one to what a rule stored. -/
def refKeys (r : ValueRef) : List TableKey :=
  match r.kind with
  | .ruleRef => [.slot (refSlot r)]
  | _ => []

/-- The slot of a segment. -/
def segmentKeys : ValueSegment → List TableKey
  | .literal _ => []
  | .ref r => refKeys r

/-- The slots a value reads. -/
def valueKeys (v : Value) : List TableKey :=
  if v.isEmpty || v.isPureLiteral then [] else v.segments.flatMap segmentKeys

/-- The regex of a guard. -/
def guardKeys (cmp : ComparisonType) (mv : Value) : List TableKey :=
  if alwaysHolds mv || !Lowering.isPattern cmp then []
  else [.regex (patternOf mv) (Lowering.isCaseInsensitive cmp)]

/-- The slots of `n` groups, from `g` on. -/
def groupKeys (name : Bytes) : Nat → Nat → List TableKey
  | 0, _ => []
  | n + 1, g => .slot (Lowering.captureSlotKey name g) :: groupKeys name n (g + 1)

/-- The slots a header-level `store` fills. -/
def storeKeys (idx : Nat) (hr : HeaderRule) : List TableKey :=
  if Lowering.isPattern hr.comparison then
    groupKeys (storeName hr idx)
      (Lowering.countCapturingGroups (patternOf hr.matchValue) + 1) 0
  else [.slot (storeName hr idx)]

/-- The keys of a header action. -/
def actionKeys (idx : Nat) (hr : HeaderRule) : List TableKey :=
  match hr.action with
  | .add | .log | .reject => valueKeys hr.newValue
  | .replace | .manipulate =>
    if !hr.newValue.isEmpty && hr.elementRules.isEmpty then valueKeys hr.newValue else []
  | .store => storeKeys idx hr
  | _ => []

/-- The keys of an element rule's action. -/
def elementActionKeys (hr : HeaderRule) (er : ElementRule) : List TableKey :=
  match er.action with
  | .replace | .reject => valueKeys er.newValue
  | .store => [.slot (elementSlot hr er)]
  | _ => []

/-- The keys of an element rule: none if it is about a part no back-end acts
on. -/
def elementKeys (hr : HeaderRule) (er : ElementRule) : List TableKey :=
  if (Lowering.uriElement er.type).isNone then []
  else guardKeys er.comparison er.matchValue ++ elementActionKeys hr er

/-- The keys of a header rule. The element rules of one that rejects are never
looked at. -/
def ruleKeys (idx : Nat) (hr : HeaderRule) : List TableKey :=
  guardKeys hr.comparison hr.matchValue ++ actionKeys idx hr
    ++ (if hr.action = .reject then [] else hr.elementRules.flatMap (elementKeys hr))

/-- The keys of the rules from position `idx` on. -/
def keysFrom : Nat → List HeaderRule → List TableKey
  | _, [] => []
  | idx, hr :: rest => ruleKeys idx hr ++ keysFrom (idx + 1) rest

/-- **The keys of a ruleset**, in the order they are met. -/
def keys (rs : Ruleset) : List TableKey := keysFrom 0 rs.headerRules

/-- **The numbering of a ruleset.** -/
def symbols (rs : Ruleset) : SymbolTable := SymbolTable.addAll {} (keys rs)

/-- The keys of rules in two parts. The second part has its own positions. -/
@[simp] theorem keysFrom_append (idx : Nat) (a b : List HeaderRule) :
    keysFrom idx (a ++ b) = keysFrom idx a ++ keysFrom (idx + a.length) b := by
  induction a generalizing idx with
  | nil => rfl
  | cons hr rest ih =>
    rw [List.cons_append, keysFrom, keysFrom, ih, List.append_assoc, List.length_cons,
      Nat.add_assoc, Nat.add_comm 1]

/-- The keys of a rule are among those of its ruleset. -/
theorem ruleKeys_subset {rs : Ruleset} {before after : List HeaderRule} {hr : HeaderRule}
    (h : rs.headerRules = before ++ hr :: after) : ruleKeys before.length hr ⊆ keys rs := by
  unfold keys
  rw [h, keysFrom_append, Nat.zero_add, keysFrom]
  exact List.Subset.trans (List.subset_append_left _ _) (List.subset_append_right _ _)

/-! ## The program uses these keys and no others -/

/-- A call uses the slot and the regex of its operands. -/
def Uses (ks : List TableKey) : ∀ i, SymCall i → Prop
  | _, .store slot _ => .slot slot ∈ ks
  | _, .load slot => .slot slot ∈ ks
  | _, .valAppendSlot slot => .slot slot ∈ ks
  | _, .hmrMatch t _ _ (some (p, ci)) => t = .regex ∧ .regex p ci ∈ ks
  | _, .hmrMatch t _ _ none => t ≠ .regex
  | _, _ => True

/-- A program that uses the keys `ks` and no others. -/
abbrev UsesOnly {α : Type} (ks : List TableKey) (p : SymProg α) : Prop :=
  p.Meets (Uses ks) (fun _ _ _ => True) (fun _ => True)

/-- The calls of the runtime, as programs. -/
abbrev callProg : ∀ i, SymCall i → SymProg i.den := fun _ => Prog.perform

section
variable {ks : List TableKey}

/-- A call that uses the keys is a program that does, -/
theorem usesOnly_call {i : RetTy} {c : SymCall i} (h : Uses ks i c) :
    UsesOnly ks (callProg i c) := ⟨h, fun _ _ => trivial⟩

/-- and so is one with a program behind it. -/
theorem usesOnly_call_bind {i : RetTy} {β : Type} {c : SymCall i} {k : i.den → SymProg β}
    (h : Uses ks i c) (hk : ∀ r, UsesOnly ks (k r)) : UsesOnly ks (callProg i c >>= k) :=
  ⟨h, fun r _ => hk r⟩

/-- Programs one after the other. -/
theorem UsesOnly.bind {α β : Type} {p : SymProg α} {k : α → SymProg β}
    (hp : UsesOnly ks p) (hk : ∀ a, UsesOnly ks (k a)) : UsesOnly ks (p >>= k) :=
  Prog.Meets.bind hp (fun a _ => hk a)

/-- No calls, no keys. -/
theorem usesOnly_pure {α : Type} (a : α) : UsesOnly ks (pure a : SymProg α) := trivial

/-- Both branches of a condition. -/
theorem usesOnly_ite {α : Type} {c : Prop} [Decidable c] {p q : SymProg α}
    (hp : c → UsesOnly ks p) (hq : ¬ c → UsesOnly ks q) :
    UsesOnly ks (if c then p else q) := by
  split
  · exact hp ‹_›
  · exact hq ‹_›

/-- **Each part of a rule uses its keys.** A reference uses the slot it reads, -/
theorem refValue_uses {r : ValueRef} (h : refKeys r ⊆ ks) :
    UsesOnly ks (refValue callProg r) := by
  unfold refValue
  unfold refKeys at h
  split
  · exact usesOnly_call trivial
  · exact usesOnly_call trivial
  · rename_i hk
    rw [hk] at h
    exact usesOnly_call (h List.mem_cons_self)

/-- a segment that of its reference, -/
theorem appendSegment_uses {s : ValueSegment} (h : segmentKeys s ⊆ ks) :
    UsesOnly ks (appendSegment callProg s) := by
  cases s with
  | literal text =>
    exact usesOnly_ite (fun _ => usesOnly_pure _) (fun _ => usesOnly_call trivial)
  | ref r =>
    rw [appendSegment]
    split
    · exact usesOnly_call trivial
    · exact usesOnly_call trivial
    · rename_i hk
      rw [segmentKeys, refKeys, hk] at h
      exact usesOnly_call (h List.mem_cons_self)

/-- segments those of theirs, -/
theorem appendSegments_uses {segs : List ValueSegment} (h : segs.flatMap segmentKeys ⊆ ks) :
    UsesOnly ks (appendSegments callProg segs) := by
  induction segs with
  | nil => exact usesOnly_pure _
  | cons s segs ih =>
    rw [List.flatMap_cons, List.append_subset] at h
    exact (appendSegment_uses h.1).bind (fun _ => ih h.2)

/-- a value those of its segments, -/
theorem value_uses {v : Value} (h : valueKeys v ⊆ ks) : UsesOnly ks (value callProg v) := by
  unfold value
  unfold valueKeys at h
  split
  · exact usesOnly_pure _
  · rename_i he
    split
    · exact usesOnly_pure _
    · rename_i hp
      rw [if_neg (by simp [he, hp])] at h
      unfold Value.singleRef?
      split
      · rename_i r hr
        split at hr
        · rename_i hs
          obtain rfl := Option.some.inj hr
          rw [hs] at h
          exact refValue_uses (by simpa [segmentKeys] using h)
        · cases hr
      · refine usesOnly_call_bind trivial fun _ => ?_
        exact (appendSegments_uses h).bind fun _ => usesOnly_call trivial

/-- a message those of its value; -/
theorem message_uses {name : Bytes} {v : Value} (h : valueKeys v ⊆ ks) :
    UsesOnly ks (message callProg name v) := by
  unfold message
  split
  · exact usesOnly_pure _
  · exact value_uses h

/-- a guard uses its regex; -/
theorem guard_uses {cmp : ComparisonType} {mvt : MatchValType} {mv : Value} {s : Bytes}
    (h : guardKeys cmp mv ⊆ ks) : UsesOnly ks (guard callProg cmp mvt mv s) := by
  unfold guard
  unfold guardKeys at h
  split
  · exact usesOnly_pure _
  · rename_i ha
    refine UsesOnly.bind ?_ fun _ => usesOnly_pure _
    unfold matchCall
    dsimp only
    split
    · rename_i hp
      rw [if_neg (by simp [ha, hp])] at h
      exact usesOnly_call ⟨rfl, h List.mem_cons_self⟩
    · refine usesOnly_call (c := .hmrMatch _ _ _ none) ?_
      unfold literalMatch Lowering.ipMatchType
      show _ ≠ HmrMatchType.regex
      split
      · split
        · decide
        · split <;> decide
      · decide
      · split <;> decide

/-- an element action its value's, or the slot it stores to, -/
theorem elementAction_uses {hr : HeaderRule} {er : ElementRule} {elem : HmrUriElement}
    {hv ev : Bytes} (h : elementActionKeys hr er ⊆ ks) :
    UsesOnly ks (elementAction callProg hr er elem hv ev) := by
  unfold elementAction
  unfold elementActionKeys at h
  -- Only a stored element and the texts of a replacement are looked up.
  split
  · rename_i ha
    rw [ha] at h
    refine (value_uses h).bind fun nv => ?_
    split
    · exact usesOnly_call_bind trivial fun _ => usesOnly_pure _
    · refine usesOnly_call_bind trivial fun _ => ?_
      exact usesOnly_call_bind trivial fun _ => usesOnly_pure _
  · split
    · exact usesOnly_call_bind trivial fun _ => usesOnly_pure _
    · refine usesOnly_call_bind trivial fun _ => ?_
      exact usesOnly_call_bind trivial fun _ => usesOnly_pure _
  · rename_i ha
    rw [ha] at h
    exact usesOnly_call_bind (h List.mem_cons_self) fun _ => usesOnly_pure _
  · rename_i ha
    rw [ha] at h
    exact (message_uses h).bind fun _ =>
      usesOnly_call_bind trivial fun _ => usesOnly_pure _
  · exact usesOnly_pure _

/-- an element rule those of its guard and its action, -/
theorem elementRule_uses {hr : HeaderRule} {er : ElementRule}
    (h : elementKeys hr er ⊆ ks) :
    UsesOnly ks (elementRule callProg (guard callProg) hr er) := by
  unfold elementRule
  unfold elementKeys at h
  split
  · exact usesOnly_pure _
  · rename_i elem he
    rw [he] at h
    obtain ⟨hg, ha⟩ := List.append_subset.mp h
    refine usesOnly_call_bind trivial fun hv => ?_
    refine UsesOnly.bind ?_ fun ev => ?_
    · exact usesOnly_ite (fun _ => usesOnly_pure _) (fun _ => usesOnly_call trivial)
    · refine (guard_uses hg).bind fun ok => ?_
      split
      · exact elementAction_uses ha
      · exact usesOnly_pure _

/-- and element rules those of each; -/
theorem elementRules_uses {hr : HeaderRule} {ers : List ElementRule}
    (h : ers.flatMap (elementKeys hr) ⊆ ks) :
    UsesOnly ks (elementRules callProg (guard callProg) hr ers) := by
  induction ers with
  | nil => exact usesOnly_pure _
  | cons er ers ih =>
    rw [List.flatMap_cons, List.append_subset] at h
    refine (elementRule_uses h.1).bind fun f => ?_
    cases f with
    | rejected => exact usesOnly_pure _
    | «continue» => exact ih h.2

/-- the guards of a header rule use the regex of the match-value, -/
theorem fires_uses {hr : HeaderRule} (h : guardKeys hr.comparison hr.matchValue ⊆ ks) :
    UsesOnly ks (fires callProg (guard callProg) hr) := by
  unfold fires
  refine UsesOnly.bind ?_ fun b => ?_
  · unfold msgTypeGuard
    cases hr.msgType with
    | request => exact usesOnly_call trivial
    | reply => exact usesOnly_call_bind trivial fun _ => usesOnly_pure _
    | _ => exact usesOnly_pure _
  · split
    · refine UsesOnly.bind ?_ fun b => ?_
      · unfold methodGuard
        split
        · exact usesOnly_pure _
        · exact usesOnly_call_bind trivial fun _ => usesOnly_pure _
      · split
        · refine UsesOnly.bind ?_ fun hv => ?_
          · exact usesOnly_ite (fun _ => usesOnly_call trivial) (fun _ => usesOnly_pure _)
          · refine (guard_uses h).bind fun ok => ?_
            split <;> exact usesOnly_pure _
        · exact usesOnly_pure _
    · exact usesOnly_pure _

/-- groups that are stored, their slots, -/
theorem storeGroups_uses {name : Bytes} {n g : Nat} (h : groupKeys name n g ⊆ ks) :
    UsesOnly ks (storeGroups callProg (storeAt callProg name) n g) := by
  induction n generalizing g with
  | zero => exact usesOnly_pure _
  | succ n ih =>
    rw [groupKeys, List.cons_subset] at h
    refine usesOnly_call_bind trivial fun cap => ?_
    exact usesOnly_call_bind h.1 fun _ => ih h.2

/-- a store rule, the slot of its name or those of its groups, -/
theorem store_uses {idx : Nat} {hr : HeaderRule} {hv : Bytes} (h : storeKeys idx hr ⊆ ks) :
    UsesOnly ks (store callProg idx hr hv) := by
  unfold store storeAction
  unfold storeKeys at h
  split
  · rename_i hp
    rw [if_pos hp] at h
    exact storeGroups_uses h
  · rename_i hp
    rw [if_neg hp] at h
    exact usesOnly_call (h List.mem_cons_self)

/-- a header action, those or its value's, -/
theorem headerAction_uses {idx : Nat} {hr : HeaderRule} {hv : Bytes}
    (h : actionKeys idx hr ⊆ ks) :
    UsesOnly ks (headerAction callProg (store callProg idx) hr hv) := by
  unfold headerAction
  unfold actionKeys at h
  -- Three of the actions set the header the same way.
  have set_uses : ∀ {name : Bytes}, (if !hr.newValue.isEmpty && hr.elementRules.isEmpty then
      valueKeys hr.newValue else []) ⊆ ks →
      UsesOnly ks (if !hr.newValue.isEmpty && hr.elementRules.isEmpty then do
        let v ← value callProg hr.newValue
        callProg _ (.setHeader name v)
        pure false
      else pure false) := by
    intro name h
    split
    · rename_i hc
      rw [if_pos hc] at h
      exact (value_uses h).bind fun _ => usesOnly_call_bind trivial fun _ => usesOnly_pure _
    · exact usesOnly_pure _
  split
  all_goals rename_i ha; first | rw [ha] at h | skip
  · exact (value_uses h).bind fun _ => usesOnly_call_bind trivial fun _ => usesOnly_pure _
  · exact set_uses h
  · exact set_uses h
  · exact usesOnly_call_bind trivial fun _ => usesOnly_pure _
  · exact usesOnly_call_bind trivial fun _ => usesOnly_pure _
  · exact (store_uses h).bind fun _ => usesOnly_pure _
  · exact (message_uses h).bind fun _ => usesOnly_call_bind trivial fun _ => usesOnly_pure _
  · exact (message_uses h).bind fun _ => usesOnly_call_bind trivial fun _ => usesOnly_pure _
  · exact usesOnly_pure _

/-- a header rule, those of its parts, -/
theorem rule_uses {idx : Nat} {hr : HeaderRule} (h : ruleKeys idx hr ⊆ ks) :
    UsesOnly ks (rule callProg idx hr) := by
  unfold rule headerRule
  unfold ruleKeys at h
  obtain ⟨hga, he⟩ := List.append_subset.mp h
  obtain ⟨hg, ha⟩ := List.append_subset.mp hga
  refine (fires_uses hg).bind fun o => ?_
  cases o with
  | none => exact usesOnly_pure _
  | some hv =>
    by_cases hrej : hr.action = .reject
    · -- a reject ends the rule, whatever its element rules
      unfold headerAction
      unfold actionKeys at ha
      rw [hrej] at ha ⊢
      dsimp only
      rw [bind_assoc]
      exact (message_uses ha).bind fun _ => ⟨trivial, fun _ _ => usesOnly_pure _⟩
    · rw [if_neg hrej] at he
      refine (headerAction_uses ha).bind fun t => ?_
      exact usesOnly_ite (fun _ => usesOnly_pure _) (fun _ => elementRules_uses he)

/-- and rules, those of each. -/
theorem rulesFrom_uses {idx : Nat} {hrs : List HeaderRule} (h : keysFrom idx hrs ⊆ ks) :
    UsesOnly ks (rulesFrom callProg idx hrs) := by
  induction hrs generalizing idx with
  | nil => exact usesOnly_pure _
  | cons hr rest ih =>
    rw [keysFrom, List.append_subset] at h
    refine (rule_uses h.1).bind fun f => ?_
    cases f with
    | rejected => exact usesOnly_pure _
    | «continue» => exact ih h.2

/-- **The program of a ruleset uses the keys of the ruleset and no others.** -/
theorem program_uses (rs : Ruleset) : UsesOnly (keys rs) (program rs) :=
  rulesFrom_uses (List.Subset.refl _)

end

end Meaning

end Hmr
