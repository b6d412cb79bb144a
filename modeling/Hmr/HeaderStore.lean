import Hmr.AssocList
import Hmr.SipMessage

/-!
# The header table is a list of headers

The table of a message keeps deleted entries, points into two buffers, and can refuse a
write for three reasons: it is full, or the arena has no room for the name or for the
value. What it is *for* is simpler – a list of names and values in which a name may occur
more than once and case does not matter.

`HeaderStore` is that list with the two resources a write uses up, and `storeOf` reads it
off a message and its arena: every operation on the message is the operation on the store,
refusals included. The resources are part of it because a refusal shows, and because a
header that is added takes the room of its name even where there is none left for its
value.

An entry that is deleted stays in the table, and takes its place there. So the number of
entries in use is not that of the headers in the list, and a message from which headers
are deleted and to which others are added runs out of entries in the end.

## The order of the proof

What an operation can do is listed first (`addHeader_cases`, `setHeader_cases`), for which
the table, the arena and what was there before are looked at once. That each case is the
one of the store is read off the list of them (`storeOf_addHeader`, `storeOf_setHeader`).
What remains is that the texts of the store are what is in memory, which is the invariant
`HeadersRead`: it holds of a parsed message and is kept by every operation, because the
arena never writes where it has written before.
-/

namespace Hmr

/-- Names and values, in order. -/
abbrev HeaderList : Type := List (Bytes × Bytes)

/-- The live headers of a message. -/
def HmrSipMsg.live (m : HmrSipMsg) : HeaderList :=
  Tombstone.live Header.removed (fun h => h.name.text) (fun h => h.value.text) m.headers

/-- **A header list with its resources**: the entries of the table in use,
and the bytes of the arena handed out. -/
structure HeaderStore where
  live : HeaderList
  entries : Nat
  used : Nat
  deriving DecidableEq, Repr

namespace HeaderStore

/-- Take `n` bytes of the arena. -/
def claim (s : HeaderStore) (n : Nat) : Option HeaderStore :=
  if n ≤ kCapacity - s.used then some { s with used := s.used + n } else none

/-- Append a header. -/
def add (s : HeaderStore) (name value : Bytes) : Bool × HeaderStore :=
  if hmrMaxHeaders ≤ s.entries then (false, s)
  else match s.claim name.length with
    | none => (false, s)
    | some s =>
      match s.claim value.length with
      | none => (false, s)
      | some s =>
        (true, { s with live := Assoc.add s.live name value, entries := s.entries + 1 })

/-- Rewrite the first header of that name, or append one. -/
def set (s : HeaderStore) (name value : Bytes) : Bool × HeaderStore :=
  match s.claim value.length with
  | none => (false, s)
  | some s =>
    if Assoc.has iequals s.live name then
      (true, { s with live := Assoc.set iequals s.live name value })
    else s.add name value

/-- Remove every header of that name. -/
def delete (s : HeaderStore) (name : Bytes) : Bool × HeaderStore :=
  (Assoc.has iequals s.live name, { s with live := Assoc.delete iequals s.live name })

/-- The value of the first header of that name, or nothing. -/
def get (s : HeaderStore) (name : Bytes) : Bytes :=
  (Assoc.get? iequals s.live name).getD []

/-- Room that is taken changes no header. -/
theorem live_claim {s s' : HeaderStore} {n : Nat} (h : s.claim n = some s') :
    s'.live = s.live := by
  unfold claim at h
  split at h
  · rw [← Option.some.inj h]
  · cases h

/-- What `add` does to the list: it appends, or leaves it. -/
theorem add_spec (s : HeaderStore) (name value : Bytes) :
    ((s.add name value).1 = true
        ∧ (s.add name value).2.live = Assoc.add s.live name value)
      ∨ ((s.add name value).1 = false ∧ (s.add name value).2.live = s.live) := by
  unfold add
  split
  · exact Or.inr ⟨rfl, rfl⟩
  · split
    · exact Or.inr ⟨rfl, rfl⟩
    · rename_i s₁ h₁
      split
      · exact Or.inr ⟨rfl, live_claim h₁⟩
      · rename_i s₂ h₂
        refine Or.inl ⟨rfl, ?_⟩
        show Assoc.add s₂.live name value = _
        rw [live_claim h₂, live_claim h₁]

/-- What `set` does to the list: it sets, or leaves it. -/
theorem set_spec (s : HeaderStore) (name value : Bytes) :
    ((s.set name value).1 = true
        ∧ (s.set name value).2.live = Assoc.set iequals s.live name value)
      ∨ ((s.set name value).1 = false ∧ (s.set name value).2.live = s.live) := by
  unfold set
  split
  · exact Or.inr ⟨rfl, rfl⟩
  · rename_i s₁ h₁
    split
    · refine Or.inl ⟨rfl, ?_⟩
      show Assoc.set iequals s₁.live name value = _
      rw [live_claim h₁]
    · rename_i hn
      rw [Bool.not_eq_true, live_claim h₁] at hn
      rw [← live_claim h₁, Assoc.set_of_not_has (live_claim h₁ ▸ hn)]
      exact s₁.add_spec name value

end HeaderStore

namespace HmrSipMsg

variable {raw : Bytes} {m m' : HmrSipMsg} {a a' : HmrArena}

/-! ## The operations on the message are those on the store -/

/-- The store of a message and its arena. -/
def storeOf (m : HmrSipMsg) (a : HmrArena) : HeaderStore :=
  ⟨m.live, m.headers.length, a.used⟩

/-- **Looking a header up** reads the list. -/
theorem getHeader_text (m : HmrSipMsg) (a : HmrArena) (name : Bytes) :
    (m.getHeader name).text = (m.storeOf a).get name := by
  have hfind : m.find name = m.headers.findIdx? (matchesName name) := rfl
  have hlive := Tombstone.find?_hit Header.removed (fun h => h.name.text)
    (fun h => h.value.text) iequals m.headers name
  show _ = (Assoc.get? iequals m.live name).getD []
  rw [live, ← hlive]
  show _ = ((m.headers.find? (matchesName name)).map fun h => h.value.text).getD []
  unfold getHeader
  rw [hfind, List.find?_eq_bind_findIdx?_getElem?]
  cases m.headers.findIdx? (matchesName name) with
  | none => rfl
  | some i =>
    show ((m.headers[i]?.map Header.value).getD HmrStr.empty).text
      = ((m.headers[i]?).map fun h => h.value.text).getD []
    cases m.headers[i]? with
    | none => rfl
    | some h => rfl

/-- Some entry is found exactly when the list has the name. -/
theorem isSome_find (m : HmrSipMsg) (name : Bytes) :
    (m.find name).isSome = Assoc.has iequals m.live name := by
  have h := Tombstone.any_hit Header.removed (fun h => h.name.text)
    (fun h => h.value.text) iequals m.headers name
  rw [find, List.findIdx?_isSome]
  exact h

/-- **A header that is appended** is the last one, and takes an entry. -/
theorem live_push {h : Header} (hm : m.push h = some m') :
    m'.live = m.live ++ (if h.removed then [] else [(h.name.text, h.value.text)])
      ∧ m'.headers.length = m.headers.length + 1 := by
  obtain ⟨hle, rfl⟩ := eq_of_push hm
  refine ⟨?_, by simp⟩
  show Tombstone.live _ _ _ (m.headers ++ [h]) = _
  rw [Tombstone.live_append, Tombstone.live_cons]
  rfl

/-- There is an entry for it in a table that is not full. -/
theorem push_of_lt (m : HmrSipMsg) (h : Header) (hlt : m.headers.length < hmrMaxHeaders) :
    ∃ m', m.push h = some m' := by
  unfold push
  rw [dif_pos hlt]
  exact ⟨_, rfl⟩

/-- **The entry that is found** is the first one of that name in the list. -/
theorem live_setValue {name : Bytes} {i : Nat} (hi : m.find name = some i) (v : HmrStr) :
    (m.setValue i v).live = Assoc.set iequals m.live name v.text :=
  Tombstone.live_modify Header.removed (fun h => h.name.text) (fun h => h.value.text) iequals
    (f := fun h => { h with value := v }) (fun _ => rfl) (fun _ => rfl) (fun _ => rfl)
    m.headers name hi

/-- What `add_header` can do, in the order in which it looks: at the table, which may be full, at
the room for the name, and at the room for the value, where the copy of the name stays behind
unused. If it comes through, the entry is appended, there being one. -/
theorem addHeader_cases (m : HmrSipMsg) (a : HmrArena) (name value : HmrStr) :
    (hmrMaxHeaders ≤ m.headers.length
        ∧ m.addHeader a name.sv value.sv = (false, m, a))
      ∨ (m.headers.length < hmrMaxHeaders ∧ a.remaining < name.text.length
        ∧ m.addHeader a name.sv value.sv = (false, m, a))
      ∨ (∃ dn a₁, a.Copies name dn a₁ ∧ m.headers.length < hmrMaxHeaders
        ∧ a₁.remaining < value.text.length
        ∧ m.addHeader a name.sv value.sv = (false, m, a₁))
      ∨ (∃ dn a₁ dv a₂ m', a.Copies name dn a₁ ∧ a₁.Copies value dv a₂
        ∧ m.headers.length < hmrMaxHeaders ∧ m.push ⟨dn, dv, false⟩ = some m'
        ∧ m.addHeader a name.sv value.sv = (true, m', a₂)) := by
  -- The table is looked at first, then the name is copied, and then the value.
  by_cases hfull : hmrMaxHeaders ≤ m.headers.length
  · exact Or.inl ⟨hfull, if_pos hfull⟩
  · have hlt := Nat.lt_of_not_le hfull
    refine Or.inr ?_
    obtain ⟨dn, a₁, hn⟩ | ⟨hroom, hdup, hne⟩ := a.dup_sv name
    · refine Or.inr ?_
      obtain ⟨dv, a₂, hv⟩ | ⟨hroom, hdup, hne⟩ := a₁.dup_sv value
      · obtain ⟨m', hm'⟩ := m.push_of_lt ⟨dn, dv, false⟩ hlt
        refine Or.inr ⟨dn, a₁, dv, a₂, m', hn, hv, hlt, hm', ?_⟩
        rw [addHeader, if_neg hfull, hn.eq]
        dsimp only
        rw [if_neg hn.notNull, hv.eq]
        dsimp only
        rw [if_neg hv.notNull, hm']
      · refine Or.inl ⟨dn, a₁, hn, hlt, hroom, ?_⟩
        rw [addHeader, if_neg hfull, hn.eq]
        dsimp only
        rw [if_neg hn.notNull, hdup]
        exact if_pos ⟨rfl, hne⟩
    · refine Or.inl ⟨hlt, hroom, ?_⟩
      rw [addHeader, if_neg hfull, hdup]
      exact if_pos ⟨rfl, hne⟩

/-- What `set_header` can do. -/
theorem setHeader_cases (m : HmrSipMsg) (a : HmrArena) (name value : HmrStr) :
    (a.remaining < value.text.length ∧ m.setHeader a name.sv value.sv = (false, m, a))
      ∨ (∃ dv a₁ i, a.Copies value dv a₁ ∧ m.find name.text = some i
        ∧ m.setHeader a name.sv value.sv = (true, m.setValue i dv, a₁))
      ∨ (∃ dv a₁, a.Copies value dv a₁ ∧ m.find name.text = none
        ∧ m.setHeader a name.sv value.sv = m.addHeader a₁ name.sv value.sv) := by
  obtain ⟨dv, a₁, hv⟩ | ⟨hroom, hdup, hne⟩ := a.dup_sv value
  · refine Or.inr ?_
    rw [setHeader, hv.eq]
    dsimp only
    rw [if_neg hv.notNull, HmrStr.sv_text]
    cases hi : m.find name.text with
    | none => exact Or.inr ⟨dv, a₁, hv, rfl, rfl⟩
    | some i => exact Or.inl ⟨dv, a₁, i, hv, rfl, rfl⟩
  · refine Or.inl ⟨hroom, ?_⟩
    rw [setHeader, hdup]
    exact if_pos ⟨rfl, hne⟩

/-- A copy takes the room of its text. -/
theorem claim_of_copies (m : HmrSipMsg) {a : HmrArena} {s d : HmrStr} {a' : HmrArena}
    (h : a.Copies s d a') : (m.storeOf a).claim s.text.length = some (m.storeOf a') := by
  refine (if_pos h.room).trans ?_
  rw [storeOf, storeOf, h.used]

/-- Where there is no room, the store has none either. -/
theorem claim_of_lt (m : HmrSipMsg) {a : HmrArena} {n : Nat} (h : a.remaining < n) :
    (m.storeOf a).claim n = none :=
  if_neg (Nat.not_le_of_lt h)

/-- **`add_header` refines `add`.** -/
theorem storeOf_addHeader (m : HmrSipMsg) (a : HmrArena) (name value : HmrStr) :
    ((m.addHeader a name.sv value.sv).1,
        (m.addHeader a name.sv value.sv).2.1.storeOf (m.addHeader a name.sv value.sv).2.2)
      = (m.storeOf a).add name.text value.text := by
  obtain ⟨hfull, heq⟩ | ⟨hlt, hroom, heq⟩ | ⟨dn, a₁, hn, hlt, hroom, heq⟩ |
    ⟨dn, a₁, dv, a₂, m', hn, hv, hlt, hm', heq⟩ := m.addHeader_cases a name value
  · rw [heq]
    exact (if_pos hfull).symm
  · rw [heq, HeaderStore.add, claim_of_lt m hroom]
    exact (if_neg (Nat.not_le_of_lt hlt)).symm
  · rw [heq, HeaderStore.add, claim_of_copies m hn]
    simp only
    rw [claim_of_lt m hroom]
    exact (if_neg (Nat.not_le_of_lt hlt)).symm
  · obtain ⟨hlive, hlen⟩ := live_push hm'
    rw [heq, HeaderStore.add, claim_of_copies m hn]
    simp only
    rw [claim_of_copies m hv]
    refine Eq.trans ?_ (if_neg (Nat.not_le_of_lt hlt)).symm
    show (true, HeaderStore.mk m'.live m'.headers.length a₂.used) = _
    rw [hlive, hlen, hn.text, hv.text]
    rfl

/-- **`set_header` refines `set`.** -/
theorem storeOf_setHeader (m : HmrSipMsg) (a : HmrArena) (name value : HmrStr) :
    ((m.setHeader a name.sv value.sv).1,
        (m.setHeader a name.sv value.sv).2.1.storeOf (m.setHeader a name.sv value.sv).2.2)
      = (m.storeOf a).set name.text value.text := by
  have hhas : (m.find name.text).isSome = Assoc.has iequals m.live name.text :=
    m.isSome_find name.text
  -- Room for the value is taken first, on both sides; then the name is looked for.
  obtain ⟨hroom, heq⟩ | ⟨dv, a₁, i, hv, hi, heq⟩ | ⟨dv, a₁, hv, hi, heq⟩ :=
    m.setHeader_cases a name value
  · rw [heq, HeaderStore.set, claim_of_lt m hroom]
  · rw [hi] at hhas
    rw [heq, HeaderStore.set, claim_of_copies m hv]
    refine Eq.trans ?_ (if_pos hhas.symm).symm
    show (true, HeaderStore.mk (m.setValue i dv).live (m.setValue i dv).headers.length _) = _
    rw [live_setValue hi, hv.text, setValue, List.length_modify]
    rfl
  · rw [hi] at hhas
    rw [heq, HeaderStore.set, claim_of_copies m hv, m.storeOf_addHeader a₁ name value]
    refine (if_neg ?_).symm
    rw [show (m.storeOf a₁).live = m.live from rfl, ← hhas]
    exact Bool.false_ne_true

/-- **`delete_header` refines `delete`.** -/
theorem storeOf_deleteHeader (m : HmrSipMsg) (a : HmrArena) (name : Bytes) :
    ((m.deleteHeader name).1, (m.deleteHeader name).2.storeOf a)
      = (m.storeOf a).delete name := by
  have hany := Tombstone.any_hit Header.removed (fun h => h.name.text)
    (fun h => h.value.text) iequals m.headers name
  have hmark := Tombstone.live_mark Header.removed (fun h => h.name.text)
    (fun h => h.value.text) iequals (f := fun h => { h with removed := true }) (fun _ => rfl)
    m.headers name
  refine Prod.ext hany ?_
  show HeaderStore.mk _ _ _ = HeaderStore.mk _ _ _
  rw [HeaderStore.mk.injEq]
  exact ⟨hmark, List.length_map _, rfl⟩

end HmrSipMsg

end Hmr
