import Hmr.SipMessage

/-!
# When a header is refused

`add_header` takes room in the arena for the name and for the value, `set_header` for the
value – and then, where it finds no header to rewrite, calls `add_header`, which takes
room for the value again. So `set_header` does not do what `add_header` does: it refuses a
header that would have fit (`HmrSipMsg.setHeader_append`).

`HmrSipMsg.SetsForRoom` is what `set_header` is to do, by the room that is left, and
`HmrSipMsg.AsRoomAllows` says of the lengths when it does.

There is more to it than the second copy. Where the first copy fails, nothing is taken;
where it succeeds and the header is refused afterwards, its room is lost. And lengths are
cut to 32 bits: of a text from `2 ^ 32` bytes on, what is left is copied, so it may find
room where the text has none. A view of no address shows nothing, and takes nothing
(`StringView.Valid`).
-/

namespace Hmr

/-- A view is one that a program may have: behind the null pointer there is nothing. -/
def StringView.Valid (v : StringView) : Prop := v.data = .null → v.text = []

/-- The length of a view, as a 32-bit number. -/
def StringView.len (v : StringView) : Nat := (clip v.text).length

namespace StringView

variable {v : StringView}

/-- A length that is cut is no greater. -/
theorem len_le (v : StringView) : v.len ≤ v.text.length := List.length_take_le' _ _

/-- A length that fits is not cut. -/
theorem len_of_lt (h : v.text.length < 2 ^ 32) : v.len = v.text.length :=
  congrArg List.length (clip_of_lt h)

/-- A view of memory of the caller has an address. -/
theorem valid_ofBytes (s : Bytes) : (ofBytes s).Valid := fun h => by cases h

end StringView

namespace HmrArena

/-- The arena is smaller than that. -/
theorem remaining_lt (a : HmrArena) : a.remaining < 2 ^ 32 :=
  Nat.lt_of_le_of_lt (Nat.sub_le _ _) (by decide)

/-- **`dup` of any view**: it is copied, or there is no room for it. -/
theorem dup_valid (a : HmrArena) {v : StringView} (hv : v.Valid) :
    (∃ d a', a.dup v = (d, a') ∧ ¬ (d.data = .null ∧ v.text ≠ []) ∧ v.len ≤ a.remaining
        ∧ a'.used = a.used + v.len ∧ (v.len = 0 → a' = a))
      ∨ (a.remaining < v.len ∧ a.dup v = (HmrStr.empty, a) ∧ v.text ≠ []) := by
  obtain ⟨hs, h⟩ | ⟨hs, hlt, h⟩ | ⟨hs, hle, a', ha, h⟩ := a.dup_cases v
  · have hzero : v.len = 0 := List.length_eq_zero_iff.mpr hs
    refine Or.inl ⟨_, _, h, fun hnull => hnull.2 (hv hnull.1), ?_, ?_, fun _ => rfl⟩
    · rw [hzero]
      exact Nat.zero_le _
    · rw [hzero, Nat.add_zero]
  · refine Or.inr ⟨hlt, h, fun hnil => hs ?_⟩
    rw [hnil, clip_nil]
  · obtain ⟨-, -, hused, -⟩ := alloc_eq_some ha
    refine Or.inl ⟨_, _, h, fun hnull => ?_, hle, hused, fun hzero => ?_⟩
    · cases hnull.1
    · exact absurd (List.length_eq_zero_iff.mp hzero) hs

/-- What is left when some of it is taken. -/
theorem remaining_of_used {a a' : HmrArena} {n : Nat} (h : a'.used = a.used + n) :
    a'.remaining = a.remaining - n := by
  unfold remaining
  omega

end HmrArena

namespace HmrSipMsg

section
variable {m : HmrSipMsg} {a : HmrArena} {name value : StringView}

/-! ## What an addition comes to -/

/-- **What `add_header` can do**, by the room there is. The three refusals come in this order:
the table, the name, the value; and a name that has been copied stays where it is when the value
no longer fits, so the last of them leaves the message and wastes the room of the name. -/
theorem addHeader_room (m : HmrSipMsg) (a : HmrArena) (hname : name.Valid)
    (hvalue : value.Valid) :
    ((hmrMaxHeaders ≤ m.headers.length ∨ a.remaining < name.len)
        ∧ m.addHeader a name value = (false, m, a))
      ∨ (m.headers.length < hmrMaxHeaders ∧ name.len ≤ a.remaining
        ∧ a.remaining < name.len + value.len
        ∧ ∃ a₁ : HmrArena, a₁.used = a.used + name.len
          ∧ m.addHeader a name value = (false, m, a₁))
      ∨ (m.headers.length < hmrMaxHeaders ∧ name.len + value.len ≤ a.remaining
        ∧ ∃ (m' : HmrSipMsg) (a₂ : HmrArena), a₂.used = a.used + (name.len + value.len)
          ∧ m.addHeader a name value = (true, m', a₂)) := by
  -- The three refusals come in this order: the table, the name, the value.
  by_cases hfull : hmrMaxHeaders ≤ m.headers.length
  · exact Or.inl ⟨Or.inl hfull, if_pos hfull⟩
  have hfree := Nat.lt_of_not_le hfull
  obtain ⟨dn, a₁, hn, hnull, hle, hused, -⟩ | ⟨hlt, hn, hne⟩ := a.dup_valid hname
  · have hrem := HmrArena.remaining_of_used hused
    obtain ⟨dv, a₂, hv, hnull', hle', hused', -⟩ | ⟨hlt, hv, hne⟩ := a₁.dup_valid hvalue
    · have hpush : ∃ m', m.push ⟨dn, dv, false⟩ = some m' := ⟨_, dif_pos hfree⟩
      obtain ⟨m', hm'⟩ := hpush
      refine Or.inr (Or.inr ⟨hfree, by omega, m', a₂, by omega, ?_⟩)
      rw [addHeader, if_neg hfull, hn]
      dsimp only
      rw [if_neg hnull, hv]
      dsimp only
      rw [if_neg hnull', hm']
    · refine Or.inr (Or.inl ⟨hfree, hle, by omega, a₁, hused, ?_⟩)
      rw [addHeader, if_neg hfull, hn]
      dsimp only
      rw [if_neg hnull, hv]
      exact if_pos ⟨rfl, hne⟩
  · refine Or.inl ⟨Or.inr hlt, ?_⟩
    rw [addHeader, if_neg hfull, hn]
    exact if_pos ⟨rfl, hne⟩

/-! ## What a setting comes to -/

/-- **A header that is there** takes room for the value. -/
theorem setHeader_rewrite {i : Nat} (hvalue : value.Valid) (hi : m.find name.text = some i) :
    (a.remaining < value.len ∧ m.setHeader a name value = (false, m, a))
      ∨ (value.len ≤ a.remaining ∧ ∃ (m' : HmrSipMsg) (a₁ : HmrArena),
        a₁.used = a.used + value.len ∧ m.setHeader a name value = (true, m', a₁)) := by
  obtain ⟨dv, a₁, hv, hnull, hle, hused, -⟩ | ⟨hlt, hv, hne⟩ := a.dup_valid hvalue
  · refine Or.inr ⟨hle, m.setValue i dv, a₁, hused, ?_⟩
    rw [setHeader, hv]
    dsimp only
    rw [if_neg hnull, hi]
  · refine Or.inl ⟨hlt, ?_⟩
    rw [setHeader, hv]
    exact if_pos ⟨rfl, hne⟩

/-- **A header that is not there** is added in the room that a copy of the value has
left. -/
theorem setHeader_append (hvalue : value.Valid) (hnone : m.find name.text = none) :
    (a.remaining < value.len ∧ m.setHeader a name value = (false, m, a))
      ∨ (value.len ≤ a.remaining ∧ ∃ a₁ : HmrArena, a₁.used = a.used + value.len
        ∧ (value.len = 0 → a₁ = a) ∧ m.setHeader a name value = m.addHeader a₁ name value) := by
  obtain ⟨dv, a₁, hv, hnull, hle, hused, hsame⟩ | ⟨hlt, hv, hne⟩ := a.dup_valid hvalue
  · refine Or.inr ⟨hle, a₁, hused, hsame, ?_⟩
    rw [setHeader, hv]
    dsimp only
    rw [if_neg hnull, hnone]
  · refine Or.inl ⟨hlt, ?_⟩
    rw [setHeader, hv]
    exact if_pos ⟨rfl, hne⟩

/-- **A refused header** leaves the message as it was. -/
theorem setHeader_refused (hname : name.Valid) (hvalue : value.Valid)
    (h : (m.setHeader a name value).1 = false) : (m.setHeader a name value).2.1 = m := by
  cases hi : m.find name.text with
  | some i =>
    obtain ⟨-, heq⟩ | ⟨-, m', a₁, -, heq⟩ := setHeader_rewrite (a := a) hvalue hi
    · rw [heq]
    · rw [heq] at h
      cases h
  | none =>
    obtain ⟨-, heq⟩ | ⟨-, a₁, -, -, heq⟩ := setHeader_append (a := a) hvalue hi
    · rw [heq]
    · rw [heq] at h ⊢
      obtain ⟨-, hadd⟩ | ⟨-, -, -, a₂, -, hadd⟩ | ⟨-, -, m', a₂, -, hadd⟩ :=
        addHeader_room m a₁ hname hvalue
      · rw [hadd]
      · rw [hadd]
      · rw [hadd] at h
        cases h

/-! ## The law -/

/-- **`set_header` fails for lack of room only**: a header that is there is rewritten if
the value fits, and takes that many bytes; one that is not there is added as `add_header`
would; and a refused one leaves the message as it was. -/
structure SetsForRoom (m : HmrSipMsg) (a : HmrArena) (name value : StringView) : Prop where
  rewrites : (m.find name.text).isSome = true →
    ((m.setHeader a name value).1 = true ↔ value.text.length ≤ a.remaining)
      ∧ ((m.setHeader a name value).1 = true →
        (m.setHeader a name value).2.2.used = a.used + value.text.length)
  appends : (m.find name.text).isSome = false →
    (m.setHeader a name value).1 = (m.addHeader a name value).1
      ∧ (m.setHeader a name value).2.1 = (m.addHeader a name value).2.1
      ∧ (m.setHeader a name value).2.2.used = (m.addHeader a name value).2.2.used
      ∧ (m.headers.length < hmrMaxHeaders →
        name.text.length + value.text.length ≤ a.remaining →
        (m.setHeader a name value).1 = true)
  refuses : (m.setHeader a name value).1 = false → (m.setHeader a name value).2.1 = m

/-- **When the lengths are such that it does.** A header is rewritten as it should, unless
its length is cut to 32 bits and then fits. A header is appended as it should if the value
is empty; or if the value alone does not fit, and neither does the name, or there is no
name, or no room in the table; or if neither of the two ways has room for both, and they
waste as much. -/
def AsRoomAllows (m : HmrSipMsg) (a : HmrArena) (name value : StringView) : Prop :=
  if (m.find name.text).isSome then
    value.text.length < 2 ^ 32 ∨ a.remaining < value.len
  else
    value.len = 0
      ∨ a.remaining < value.len
        ∧ (hmrMaxHeaders ≤ m.headers.length ∨ a.remaining < name.len ∨ name.len = 0)
      ∨ m.headers.length < hmrMaxHeaders ∧ name.len = value.len ∧ value.len ≤ a.remaining
        ∧ a.remaining < 2 * value.len

instance (m : HmrSipMsg) (a : HmrArena) (name value : StringView) :
    Decidable (m.AsRoomAllows a name value) :=
  inferInstanceAs (Decidable (ite _ _ _))

/-- A length that fits the arena is not cut. -/
theorem len_of_room {v : StringView} {n : Nat} (h : n + v.text.length ≤ a.remaining) :
    v.len = v.text.length :=
  StringView.len_of_lt (by have := a.remaining_lt; omega)

/-- **Where there is a header to rewrite**, it is rewritten as the room allows exactly if lengths
are not cut to something that fits. -/
theorem rewrites_iff {i : Nat} (hvalue : value.Valid) (hi : m.find name.text = some i) :
    (((m.setHeader a name value).1 = true ↔ value.text.length ≤ a.remaining)
        ∧ ((m.setHeader a name value).1 = true →
          (m.setHeader a name value).2.2.used = a.used + value.text.length))
      ↔ value.text.length < 2 ^ 32 ∨ a.remaining < value.len := by
  have hle := value.len_le
  have hrem := a.remaining_lt
  obtain ⟨hlt, heq⟩ | ⟨hfits, m', a₁, hused, heq⟩ := setHeader_rewrite (a := a) hvalue hi
  · rw [heq]
    refine iff_of_true ⟨iff_of_false Bool.false_ne_true (by omega), fun h => by cases h⟩
      (Or.inr hlt)
  · rw [heq]
    constructor
    · rintro ⟨hdone, -⟩
      have := hdone.mp rfl
      omega
    · rintro (hshort | hlt)
      · rw [StringView.len_of_lt hshort] at hfits hused
        exact ⟨iff_of_true rfl hfits, fun _ => hused⟩
      · omega

/-- **Where there is none**, it is added as by `add_header` in three cases, of which only an
empty value is one where it succeeds. -/
theorem appends_iff (hname : name.Valid) (hvalue : value.Valid)
    (hnone : m.find name.text = none) :
    ((m.setHeader a name value).1 = (m.addHeader a name value).1
        ∧ (m.setHeader a name value).2.1 = (m.addHeader a name value).2.1
        ∧ (m.setHeader a name value).2.2.used = (m.addHeader a name value).2.2.used
        ∧ (m.headers.length < hmrMaxHeaders →
          name.text.length + value.text.length ≤ a.remaining →
          (m.setHeader a name value).1 = true))
      ↔ value.len = 0
        ∨ a.remaining < value.len
          ∧ (hmrMaxHeaders ≤ m.headers.length ∨ a.remaining < name.len ∨ name.len = 0)
        ∨ m.headers.length < hmrMaxHeaders ∧ name.len = value.len ∧ value.len ≤ a.remaining
          ∧ a.remaining < 2 * value.len := by
  have hname_le := name.len_le
  have hvalue_le := value.len_le
  have hadd := addHeader_room m a hname hvalue
  obtain ⟨hlt, heq⟩ | ⟨hfits, a₁, hused, hsame, heq⟩ := setHeader_append (a := a) hvalue hnone
  · rw [heq]
    obtain ⟨hno, hadd⟩ | ⟨hfree, hn, -, a₂, hused', hadd⟩ | ⟨-, hboth, -⟩ := hadd
    · rw [hadd]
      refine iff_of_true ⟨rfl, rfl, rfl, fun _ hroom => ?_⟩ (Or.inr (Or.inl ⟨hlt, ?_⟩))
      · rw [len_of_room hroom] at hlt
        omega
      · exact hno.imp_right Or.inl
    · rw [hadd]
      constructor
      · rintro ⟨-, -, hsame, -⟩
        have hspace : a.used = a₂.used := hsame
        exact Or.inr (Or.inl ⟨hlt, Or.inr (Or.inr (by omega))⟩)
      · intro hcond
        have hzero : name.len = 0 := by omega
        refine ⟨rfl, rfl, by rw [hused', hzero, Nat.add_zero], fun _ hroom => ?_⟩
        rw [len_of_room hroom] at hlt
        omega
    · omega
  · have hrem := HmrArena.remaining_of_used hused
    rw [heq]
    -- With an empty value the first copy takes nothing, and `add_header` is called with the
    -- same room.
    by_cases hzero : value.len = 0
    · rw [hsame hzero]
      refine iff_of_true ⟨rfl, rfl, rfl, fun hfree hroom => ?_⟩ (Or.inl hzero)
      obtain ⟨hno, -⟩ | ⟨-, -, hno, -⟩ | ⟨-, -, m', a₂, -, hadd⟩ := hadd
      · omega
      · omega
      · rw [hadd]
    · obtain ⟨hno, hset⟩ | ⟨hfree, hn, hno, a₂, hused₂, hset⟩ |
        ⟨hfree, hboth, m', a₂, hused₂, hset⟩ := addHeader_room m a₁ hname hvalue
      · -- the name no longer fits: as much may be wasted as `add_header` wastes
        rw [hset]
        obtain ⟨hno', hadd⟩ | ⟨hfree, hn, hno', a₃, hused₃, hadd⟩ | ⟨hfree, hboth, -⟩ := hadd
        · rw [hadd]
          refine iff_of_false (fun h => ?_) (by omega)
          have hspace : a₁.used = a.used := h.2.2.1
          omega
        · rw [hadd]
          constructor
          · rintro ⟨-, -, hsame, -⟩
            have hspace : a₁.used = a₃.used := hsame
            exact Or.inr (Or.inr ⟨hfree, by omega, hfits, by omega⟩)
          · intro hcond
            have hspace : a₁.used = a₃.used := by omega
            refine ⟨rfl, rfl, hspace, fun _ hroom => ?_⟩
            have hlen := len_of_room hroom
            omega
        · omega
      · -- the name fits, the second copy of the value does not
        rw [hset]
        obtain ⟨hno', -⟩ | ⟨-, -, hno', -⟩ | ⟨-, hboth, m', a₃, -, hadd⟩ := hadd
        · omega
        · omega
        · rw [hadd]
          exact iff_of_false (fun h => by cases h.1) (by omega)
      · -- there is room for both copies
        rw [hset]
        obtain ⟨hno', -⟩ | ⟨-, -, hno', -⟩ | ⟨-, -, m'', a₃, hused₃, hadd⟩ := hadd
        · omega
        · omega
        · rw [hadd]
          refine iff_of_false (fun h => ?_) (by omega)
          have hspace : a₂.used = a₃.used := h.2.2.1
          omega

/-- **`set_header` fails for lack of room only** exactly when the lengths are such that
the copy that is made first is of use, or of no matter. -/
theorem setsForRoom_iff (m : HmrSipMsg) (a : HmrArena) (name value : StringView)
    (hname : name.Valid) (hvalue : value.Valid) :
    m.SetsForRoom a name value ↔ m.AsRoomAllows a name value := by
  have hrefuses : (m.setHeader a name value).1 = false → (m.setHeader a name value).2.1 = m :=
    setHeader_refused hname hvalue
  unfold AsRoomAllows
  -- Two of the three parts are about a header that is not there, or one that is.
  cases hfind : m.find name.text with
  | some i =>
    rw [Option.isSome_some, if_pos rfl, ← rewrites_iff hvalue hfind]
    constructor
    · intro h
      exact h.rewrites (by rw [hfind]; rfl)
    · intro h
      refine ⟨fun _ => h, fun hnone => ?_, hrefuses⟩
      rw [hfind] at hnone
      cases hnone
  | none =>
    rw [Option.isSome_none, if_neg Bool.false_ne_true, ← appends_iff hname hvalue hfind]
    constructor
    · intro h
      exact h.appends (by rw [hfind]; rfl)
    · intro h
      refine ⟨fun hsome => ?_, fun _ => h, hrefuses⟩
      rw [hfind] at hsome
      cases hsome

/-- An arena with so many bytes left. -/
def arenaWith (left : Nat) : HmrArena := ⟨fun _ => 0, kCapacity - left, Nat.sub_le _ _⟩

/-- A request with two headers. -/
def subscribe : HmrSipMsg :=
  parse (txt "SUBSCRIBE sip:b SIP/2.0\r\nFrom: <sip:a@b>\r\nEvent: presence\r\n\r\n")

/-- With twenty bytes left, the From of the request is set as it should, whatever the case its
name is given in; an Expires is not, though it takes eleven. -/
theorem setsForRoom_iff_subscribe :
    subscribe.SetsForRoom (arenaWith 20) (.ofBytes (txt "from"))
        (.ofBytes (txt "<sip:anon@invalid>"))
      ∧ ¬ subscribe.SetsForRoom (arenaWith 20) (.ofBytes (txt "Expires"))
        (.ofBytes (txt "3600")) :=
  ⟨(setsForRoom_iff _ _ _ _ (StringView.valid_ofBytes _) (StringView.valid_ofBytes _)).mpr
      (by decide +kernel),
    fun h => absurd ((setsForRoom_iff _ _ _ _ (StringView.valid_ofBytes _)
      (StringView.valid_ofBytes _)).mp h) (by decide +kernel)⟩

/-- **A header that fits is refused**: `X` with the value `ab`, in three bytes. -/
theorem not_setsForRoom :
    ¬ ∀ (m : HmrSipMsg) (a : HmrArena) (name value : StringView), name.Valid → value.Valid →
      m.SetsForRoom a name value := by
  intro h
  have hset := h {} (arenaWith 3) (.ofBytes (txt "X")) (.ofBytes (txt "ab"))
    (StringView.valid_ofBytes _) (StringView.valid_ofBytes _)
  have hdone := (hset.appends (by decide)).2.2.2 (by decide) (by decide)
  exact absurd hdone (by decide)

end

end HmrSipMsg

end Hmr
