import Hmr.HeaderMemory
import Hmr.UriLaws

/-!
# Fields

The user and the host of three URIs – the request-URI, From and To – can be read and
written by number. None of the six is stored: a field is looked up in the value it is a
part of, and writing it rebuilds that value, in the header where it stands or as the
override of the request-URI.

So what a write does is a matter of the URI laws (`Uri.rebuildUri_putGet`): the field is
the new one, the other field of that URI is as it was, and the four fields of the other
two are read off values that were not touched. A field that is not there is no text, and
is told from an empty one by the address of its view.

## Where a field stands

A number stands for a header, or for the request-URI, and for an element of it
(`HmrSipMsg.fieldRef`), and everything is said in these terms, so that the six fields are
treated alike. From and To are looked up under their full names; a header that goes by its
short form is another header. What is read is the first of that name.

## When it is written

A write may be refused for want of room, in the arena or in the table, and a field of a
header that is not there is written into a header that is added. The override of the
request-URI is a field of the message and no header, and is read in place of the
request-URI from then on.
-/

namespace Hmr

/-- The fields, in the order of their codes. -/
inductive HmrField
  | requestUriUser | requestUriHost | fromUser | fromHost | toUser | toHost
  deriving DecidableEq, Repr

/-- The field of a code below `HMR_FIELD_MAX`. -/
def HmrField.ofCode : Nat → Option HmrField
  | 0 => some .requestUriUser
  | 1 => some .requestUriHost
  | 2 => some .fromUser
  | 3 => some .fromHost
  | 4 => some .toUser
  | 5 => some .toHost
  | _ => none

/-- The code of a field. -/
def HmrField.code : HmrField → Nat
  | .requestUriUser => 0
  | .requestUriHost => 1
  | .fromUser => 2
  | .fromHost => 3
  | .toUser => 4
  | .toHost => 5

/-- A number stands for the field whose code it is. -/
theorem HmrField.ofCode_eq_some {n : Nat} {f : HmrField} : ofCode n = some f ↔ n = f.code := by
  constructor
  · intro h
    unfold ofCode at h
    split at h <;> cases h <;> rfl
  · rintro rfl
    cases f <;> rfl

/-- `FieldRef`: the header a field is in, the request-URI if none, and its URI element. -/
structure FieldRef where
  header : Option Bytes
  element : HmrUriElement
  deriving DecidableEq, Repr

/-- `field_ref`. -/
def fieldRef : HmrField → FieldRef
  | .requestUriUser => ⟨none, .user⟩
  | .requestUriHost => ⟨none, .host⟩
  | .fromUser => ⟨some (txt "From"), .user⟩
  | .fromHost => ⟨some (txt "From"), .host⟩
  | .toUser => ⟨some (txt "To"), .user⟩
  | .toHost => ⟨some (txt "To"), .host⟩

/-- `component_of`. -/
def componentOf (value : StringView) (element : HmrUriElement) : HmrStr :=
  let u := Uri.parseUri value
  match element with
  | .user => .of u.user
  | .host => .of u.host
  | _ => HmrStr.empty

namespace HmrSipMsg

/-- `current_request_uri`: the override, if there is one. -/
def currentRequestUri (m : HmrSipMsg) : HmrStr :=
  if m.modRequestUri.present then m.modRequestUri else m.requestUri

/-- **`get_field`.** -/
def getField (m : HmrSipMsg) (field : Nat) : HmrStr :=
  match HmrField.ofCode field with
  | none => HmrStr.empty
  | some f =>
    let value := match (fieldRef f).header with
      | some name => (m.getHeader name).sv
      | none => m.currentRequestUri.sv
    componentOf value (fieldRef f).element

/-- **`set_field`**: rebuild the value the field is a part of, as the override of the
request-URI or in the place of the header's value. -/
def setField (m : HmrSipMsg) (a : HmrArena) (field : Nat) (value : StringView) :
    Bool × HmrSipMsg × HmrArena :=
  match HmrField.ofCode field with
  | none => (false, m, a)
  | some f =>
    match (fieldRef f).header with
    | none =>
      let (rebuilt, a) := Uri.rebuildUri a m.currentRequestUri.sv (fieldRef f).element value
      if rebuilt.data = .null then (false, m, a)
      else (true, { m with modRequestUri := rebuilt }, a)
    | some name =>
      match m.find name with
      | none => (false, m, a)
      | some i =>
        let current := (m.headers[i]?.map Header.value).getD HmrStr.empty
        let (rebuilt, a) := Uri.rebuildUri a current.sv (fieldRef f).element value
        if rebuilt.data = .null then (false, m, a) else (true, m.setValue i rebuilt, a)

/-! ## What a field is a part of -/

/-- The value a field is looked up in. -/
def fieldValue (m : HmrSipMsg) (f : HmrField) : HmrStr :=
  match (fieldRef f).header with
  | some name => m.getHeader name
  | none => m.currentRequestUri

/-- The message with that value exchanged. -/
def putValue (m : HmrSipMsg) (f : HmrField) (value : HmrStr) : HmrSipMsg :=
  match (fieldRef f).header with
  | some name => (m.find name).elim m fun i => m.setValue i value
  | none => { m with modRequestUri := value }

variable {m : HmrSipMsg} {a : HmrArena} {field : Nat} {f : HmrField} {v : StringView}

/-- The value of a field in a header is that header's, -/
theorem fieldValue_eq_getHeader {name : Bytes} (hh : (fieldRef f).header = some name) :
    m.fieldValue f = m.getHeader name := by
  rw [fieldValue, hh]

/-- and that of a field in no header is the request-URI. -/
theorem fieldValue_eq_uri (hh : (fieldRef f).header = none) :
    m.fieldValue f = m.currentRequestUri := by
  rw [fieldValue, hh]

/-- It is exchanged in the entry that is found, -/
theorem putValue_eq_setValue {name : Bytes} {i : Nat} (hh : (fieldRef f).header = some name)
    (hi : m.find name = some i) (value : HmrStr) : m.putValue f value = m.setValue i value := by
  rw [putValue, hh]
  exact congrArg (·.elim m fun i => m.setValue i value) hi

/-- in none where none is found, -/
theorem putValue_eq_self {name : Bytes} (hh : (fieldRef f).header = some name)
    (hi : m.find name = none) (value : HmrStr) : m.putValue f value = m := by
  rw [putValue, hh]
  exact congrArg (·.elim m fun i => m.setValue i value) hi

/-- and as an override of the request-URI. -/
theorem putValue_eq_override (hh : (fieldRef f).header = none) (value : HmrStr) :
    m.putValue f value = { m with modRequestUri := value } := by
  rw [putValue, hh]

/-- A field is a component of the value it is a part of. -/
theorem getField_eq (h : HmrField.ofCode field = some f) :
    m.getField field = componentOf (m.fieldValue f).sv (fieldRef f).element := by
  unfold getField fieldValue
  rw [h]
  dsimp only
  cases (fieldRef f).header <;> rfl

/-- **What `set_field` does** where the value is there: it exchanges it for the rebuilt one,
if there was room for that. -/
theorem setField_of_found (hf : HmrField.ofCode field = some f)
    (hfound : ∀ name ∈ (fieldRef f).header, (m.find name).isSome = true) (a : HmrArena)
    (v : StringView) {rebuilt : HmrStr} {a' : HmrArena}
    (hr : Uri.rebuildUri a (m.fieldValue f).sv (fieldRef f).element v = (rebuilt, a')) :
    m.setField a field v
      = if rebuilt.data = .null then (false, m, a') else (true, m.putValue f rebuilt, a') := by
  unfold setField
  rw [hf]
  dsimp only
  cases hh : (fieldRef f).header with
  | none =>
    rw [fieldValue_eq_uri hh] at hr
    rw [putValue_eq_override hh]
    dsimp only
    rw [hr]
  | some name =>
    obtain ⟨i, hi⟩ := Option.isSome_iff_exists.mp (hfound name hh)
    rw [fieldValue_eq_getHeader hh, getHeader, hi] at hr
    rw [putValue_eq_setValue hh hi]
    dsimp only at hr ⊢
    rw [hi]
    dsimp only
    rw [hr]

/-- Nothing, or that. A code that is no field is refused, and so is a field whose header is not
there; else it is `setField_of_found`, which fails where the rebuilt value is the null view. -/
theorem setField_cases (m : HmrSipMsg) (a : HmrArena) (field : Nat) (v : StringView) :
    ((m.setField a field v).1 = false ∧ (m.setField a field v).2.1 = m)
      ∨ ∃ f rebuilt a', HmrField.ofCode field = some f
          ∧ (∀ name ∈ (fieldRef f).header, (m.find name).isSome = true)
          ∧ Uri.rebuildUri a (m.fieldValue f).sv (fieldRef f).element v = (rebuilt, a')
          ∧ rebuilt.data ≠ .null
          ∧ m.setField a field v = (true, m.putValue f rebuilt, a') := by
  cases hf : HmrField.ofCode field with
  | none =>
    unfold setField
    rw [hf]
    exact Or.inl ⟨rfl, rfl⟩
  | some f =>
    by_cases hfound : ∀ name ∈ (fieldRef f).header, (m.find name).isSome = true
    · rcases hr : Uri.rebuildUri a (m.fieldValue f).sv (fieldRef f).element v with ⟨rebuilt, a'⟩
      have heq := setField_of_found hf hfound a v hr
      -- A rebuild that has failed is a null view, and is what the code asks for.
      by_cases hnull : rebuilt.data = .null
      · rw [if_pos hnull] at heq
        exact Or.inl ⟨congrArg Prod.fst heq, congrArg (fun r => r.2.1) heq⟩
      · rw [if_neg hnull] at heq
        exact Or.inr ⟨f, rebuilt, a', rfl, hfound, hr, hnull, heq⟩
    · simp only [not_forall, Bool.not_eq_true, Option.isSome_eq_false_iff,
        Option.isNone_iff_eq_none] at hfound
      obtain ⟨name, hname, hnone⟩ := hfound
      have hrefused : m.setField a field v = (false, m, a) := by
        unfold setField
        rw [hf]
        dsimp only
        rw [Option.mem_def.mp hname]
        dsimp only
        rw [hnone]
      rw [hrefused]
      exact Or.inl ⟨rfl, rfl⟩

/-! ## Reading -/

/-- What a view shows; the null view shows nothing. -/
def shown (s : HmrStr) : Option Bytes := if s.present then some s.text else none

/-- The element that is shown is the component of the value. -/
theorem shown_componentOf (value : HmrStr) {e : HmrUriElement} (he : e = .user ∨ e = .host) :
    shown (componentOf value.sv e) = Uri.shown (Uri.part (Uri.parseUri value.sv) e) := by
  have hparts := Uri.partsOf_parseUri value.sv
  have hclip : ∀ w : StringView, w.text <:+: value.text →
      shown (.of w) = Uri.shown w := by
    intro w hw
    have hlt : w.text.length < 2 ^ 32 := lt_of_le_of_lt hw.length_le value.len_lt
    unfold shown Uri.shown HmrStr.present
    rw [HmrStr.of_text, HmrStr.of_data, clip_of_lt hlt]
    by_cases hnull : w.data = .null
    · rw [hnull]
      rfl
    · rw [if_neg hnull, if_pos (by simpa using hnull)]
  obtain rfl | rfl := he
  · exact hclip _ hparts.user
  · exact hclip _ hparts.host

/-- It is a user or a host. -/
theorem element_fieldRef (f : HmrField) :
    (fieldRef f).element = .user ∨ (fieldRef f).element = .host := by
  cases f <;> simp [fieldRef]

/-- Headers are found by their names. -/
@[simp] theorem find_setValue (m : HmrSipMsg) (i : Nat) (value : HmrStr) (name : Bytes) :
    (m.setValue i value).find name = m.find name := by
  have hmodify : ∀ (l : List Header) (i : Nat),
      (l.modify i fun h => { h with value := value }).findIdx? (matchesName name)
        = l.findIdx? (matchesName name) := by
    intro l
    induction l with
    | nil =>
      intro i
      rw [List.modify_nil]
    | cons h l ih =>
      intro i
      cases i with
      | zero => rfl
      | succ i =>
        rw [List.modify_succ_cons, List.findIdx?_cons, List.findIdx?_cons, ih]
  exact hmodify m.headers i

/-- **A header value that was exchanged** is the value of its header. -/
theorem getHeader_setValue {name : Bytes} {i : Nat} (hi : m.find name = some i) (value : HmrStr) :
    (m.setValue i value).getHeader name = value := by
  have hlt : i < m.headers.length := (List.findIdx?_eq_some_iff_getElem.mp hi).1
  unfold getHeader
  rw [find_setValue, hi]
  show (((m.headers.modify i fun h => { h with value := value })[i]?.map Header.value).getD _) = _
  rw [List.getElem?_modify_eq, List.getElem?_eq_getElem hlt]
  rfl

/-- And of no other. -/
theorem getHeader_setValue_of_ne {name other : Bytes} {i : Nat} (hi : m.find name = some i)
    (hne : iequals name other = false) (value : HmrStr) :
    (m.setValue i value).getHeader other = m.getHeader other := by
  unfold getHeader
  rw [find_setValue]
  cases hj : m.find other with
  | none => rfl
  | some j =>
    have hij : i ≠ j := by
      rintro rfl
      obtain ⟨hlt, hname, -⟩ := List.findIdx?_eq_some_iff_getElem.mp hi
      obtain ⟨_, hother, -⟩ := List.findIdx?_eq_some_iff_getElem.mp hj
      have hname' := iequals_iff.mp (Bool.and_eq_true_iff.mp hname).2
      have hother' := iequals_iff.mp (Bool.and_eq_true_iff.mp hother).2
      rw [iequals_iff.mpr (hname'.symm.trans hother')] at hne
      cases hne
    show (((m.headers.modify i fun h => { h with value := value })[j]?.map Header.value).getD _) = _
    rw [List.getElem?_modify_ne _ _ hij]

/-! ## Writing -/

/-- **The exchanged value is the field's.** -/
theorem fieldValue_putValue (hfound : ∀ name ∈ (fieldRef f).header, (m.find name).isSome = true)
    {value : HmrStr} (hvalue : value.data ≠ .null) : (m.putValue f value).fieldValue f = value := by
  cases hh : (fieldRef f).header with
  | none =>
    rw [fieldValue_eq_uri hh, putValue_eq_override hh]
    exact if_pos (by simpa [HmrStr.present] using hvalue)
  | some name =>
    obtain ⟨i, hi⟩ := Option.isSome_iff_exists.mp (hfound name hh)
    rw [fieldValue_eq_getHeader hh, putValue_eq_setValue hh hi]
    exact getHeader_setValue hi value

/-- The values of the fields elsewhere are what they were. -/
theorem fieldValue_putValue_of_ne {g : HmrField} (hne : (fieldRef g).header ≠ (fieldRef f).header)
    (value : HmrStr) : (m.putValue f value).fieldValue g = m.fieldValue g := by
  have hnames : ∀ f g : HmrField, (fieldRef g).header ≠ (fieldRef f).header →
      ∀ name ∈ (fieldRef f).header, ∀ other ∈ (fieldRef g).header,
        iequals name other = false := by
    intro f g hne name hname other hother
    cases f <;> cases g <;>
      first
      | exact absurd rfl hne
      | exact absurd hname (Option.not_mem_none name)
      | exact absurd hother (Option.not_mem_none other)
      | (rw [← Option.mem_some_iff.mp hname, ← Option.mem_some_iff.mp hother]; rfl)
  cases hf : (fieldRef f).header with
  | none =>
    cases hg : (fieldRef g).header with
    | none => exact absurd (hg.trans hf.symm) hne
    | some other =>
      rw [putValue_eq_override hf, fieldValue_eq_getHeader hg, fieldValue_eq_getHeader hg]
      rfl
  | some name =>
    cases hi : m.find name with
    | none => rw [putValue_eq_self hf hi]
    | some i =>
      rw [putValue_eq_setValue hf hi]
      cases hg : (fieldRef g).header with
      | none =>
        rw [fieldValue_eq_uri hg, fieldValue_eq_uri hg]
        rfl
      | some other =>
        rw [fieldValue_eq_getHeader hg, fieldValue_eq_getHeader hg]
        exact getHeader_setValue_of_ne hi (hnames f g hne name hf other hg) value

/-! ## The laws -/

/-- A new value: none of `<`, `>`, `@`, `:`, `;`, `?`, a quote, a blank or a line end. -/
def IsFieldText (v : Bytes) : Prop := ∀ c ∈ v, Uri.isPlain c = true ∧ c ≠ cr ∧ c ≠ lf

/-- The scheme of a value is `sip`, `sips` or `tel`. -/
def HasScheme (value : HmrStr) : Prop := (Uri.parseUri value.sv).scheme.data ≠ .null

/-- The text the value of a field is rebuilt to. -/
def rebuiltText (m : HmrSipMsg) (f : HmrField) (v : Bytes) : Bytes :=
  Uri.spliced (m.fieldValue f).sv (fieldRef f).element v

/-- The message, but for where its header values are stored. -/
def withoutAddresses (m : HmrSipMsg) : HmrSipMsg :=
  { m with
    headers := m.headers.map fun h => { h with value := .ofBytes h.value.text }
    headers_le := by rw [List.length_map]; exact m.headers_le }

/-- **The laws of the fields**, for a message, a field and a new value. -/
structure FieldLaws (m : HmrSipMsg) (a : HmrArena) (field : Nat) (v : StringView) : Prop where
  /-- What is refused changes nothing. -/
  refused : (m.setField a field v).1 = false → (m.setField a field v).2.1 = m
  /-- What is put is got. -/
  put : ∀ f, HmrField.ofCode field = some f → (m.setField a field v).1 = true →
    HasScheme (m.fieldValue f) → (m.rebuiltText f v.text).length < 2 ^ 32 →
    shown ((m.setField a field v).2.1.getField field) = some v.text
  /-- The other fields are what they were. -/
  others : ∀ f, HmrField.ofCode field = some f → (m.setField a field v).1 = true →
    HasScheme (m.fieldValue f) → (m.rebuiltText f v.text).length < 2 ^ 32 →
    ∀ other, other ≠ field →
      shown ((m.setField a field v).2.1.getField other) = shown (m.getField other)
  /-- In a header, it is `set_header` of the rebuilt value. -/
  header : ∀ f name, HmrField.ofCode field = some f → (fieldRef f).header = some name →
    (m.find name).isSome = true → (m.rebuiltText f v.text).length < 2 ^ 32 →
    2 * (m.rebuiltText f v.text).length ≤ a.remaining →
    let rebuilt := Uri.rebuildUri a (m.getHeader name).sv (fieldRef f).element v
    let byHeader := m.setHeader rebuilt.2 (.ofBytes name) rebuilt.1.sv
    (m.setField a field v).1 = true ∧ byHeader.1 = true
      ∧ (m.setField a field v).2.1.withoutAddresses = byHeader.2.1.withoutAddresses

/-- A view in memory of its own shows the text. -/
theorem sv_eq (s : HmrStr) : ∃ r o, s.sv = ⟨.addr r o, s.text⟩ := by
  unfold HmrStr.sv
  cases hd : s.data with
  | null => exact ⟨.ext, 0, by rw [if_pos rfl]⟩
  | addr r o => exact ⟨r, o, by rw [if_neg (by simp)]⟩

/-- **The field that was written, and its neighbour**: the URI laws of the rebuilt value. -/
theorem putGet_setField {rebuilt : HmrStr} {a' : HmrArena} (hv : IsFieldText v.text)
    (hscheme : HasScheme (m.fieldValue f)) (hfits : (m.rebuiltText f v.text).length < 2 ^ 32)
    (hr : Uri.rebuildUri a (m.fieldValue f).sv (fieldRef f).element v = (rebuilt, a'))
    (hnull : rebuilt.data ≠ .null) :
    Uri.PutGet (Uri.parseUri (m.fieldValue f).sv) (Uri.parseUri rebuilt.sv)
      (fieldRef f).element v.text := by
  have helement := element_fieldRef f
  have hwhole : (fieldRef f).element ≠ .whole := by
    obtain h | h := helement <;> simp [h]
  have hdisplay : (fieldRef f).element ≠ .display := by
    obtain h | h := helement <;> simp [h]
  unfold HasScheme at hscheme
  unfold rebuiltText at hfits
  obtain ⟨r, o, hsv⟩ := sv_eq (m.fieldValue f)
  rw [hsv] at hr hscheme hfits ⊢
  have hok : (Uri.rebuildUri a ⟨.addr r o, (m.fieldValue f).text⟩ (fieldRef f).element v).1.data
      ≠ .null := by
    rw [hr]
    exact hnull
  obtain ⟨r', o', hview⟩ := Uri.sv_rebuildUri hfits hok
  rw [hr] at hview
  rw [hview]
  exact (Uri.putGet_spliced hscheme hwhole (fun c hc => (hv c hc).1) r' o').mpr fun h =>
    hdisplay h.1

/-- A field with the header of another is the other, or another element. -/
theorem element_ne_of_header_eq {f g : HmrField} (hne : f ≠ g)
    (hheader : (fieldRef f).header = (fieldRef g).header) :
    (fieldRef f).element ≠ (fieldRef g).element := by
  intro helement
  refine hne ?_
  cases f <;> cases g <;> first | rfl | exact absurd hheader (by decide) | cases helement

/-- The names of the headers are short. -/
theorem length_header_lt {f : HmrField} {name : Bytes} (h : (fieldRef f).header = some name) :
    name.length < 2 ^ 32 := by
  cases f <;> cases h <;> decide

/-- Two fields of one header are parts of one value. -/
theorem fieldValue_congr {f g : HmrField} (hheader : (fieldRef f).header = (fieldRef g).header)
    (m : HmrSipMsg) : m.fieldValue f = m.fieldValue g := by
  unfold fieldValue
  rw [hheader]

/-- **Where there is room, the value is rebuilt.** -/
theorem rebuildUri_of_room {value nv : StringView} {e : HmrUriElement} {r : Region} {o : Nat}
    {t : Bytes} (hvalue : value = ⟨.addr r o, t⟩)
    (hfits : (Uri.spliced value e nv.text).length < 2 ^ 32)
    (hroom : (Uri.spliced value e nv.text).length ≤ a.remaining) :
    ∃ rebuilt a', Uri.rebuildUri a value e nv = (rebuilt, a') ∧ rebuilt.data ≠ .null
      ∧ rebuilt.text = Uri.spliced value e nv.text
      ∧ a'.used = a.used + (Uri.spliced value e nv.text).length := by
  subst hvalue
  unfold Uri.spliced at hfits hroom ⊢
  cases hs : Uri.spliceOf ⟨.addr r o, t⟩ e with
  | none =>
    rw [hs] at hfits hroom
    rw [Uri.rebuildUri_of_none hs]
    dsimp only at hfits hroom ⊢
    obtain ⟨hnil, hdup⟩ | ⟨-, hlt, -⟩ | ⟨-, -, a', ha, hdup⟩ := a.dup_cases ⟨.addr r o, t⟩
    · rw [clip_of_lt hfits] at hnil
      subst hnil
      exact ⟨_, _, hdup, by simp, rfl, rfl⟩
    · rw [clip_of_lt hfits] at hlt
      exact absurd hroom (Nat.not_le_of_lt hlt)
    · obtain ⟨-, -, hused, -⟩ := HmrArena.alloc_eq_some ha
      rw [clip_of_lt hfits] at hused
      exact ⟨_, _, hdup, by simp, clip_of_lt hfits, hused⟩
  | some p =>
    rw [hs] at hfits hroom
    dsimp only at hfits hroom ⊢
    have hclip := clip_of_lt hfits
    obtain ⟨a', ha, hused⟩ := HmrArena.alloc_of_le hroom
    rw [← hclip] at ha
    exact ⟨_, _, Uri.rebuildUri_of_alloc hs ha, by simp, hclip, hused⟩

/-- Values of one text differ in their addresses only. -/
theorem withoutAddresses_setValue (m : HmrSipMsg) (i : Nat) {d d' : HmrStr}
    (h : d.text = d'.text) :
    (m.setValue i d).withoutAddresses = (m.setValue i d').withoutAddresses := by
  have hmap : ∀ (l : List Header) (i : Nat),
      ((l.modify i fun h => { h with value := d }).map fun h =>
          { h with value := HmrStr.ofBytes h.value.text })
        = (l.modify i fun h => { h with value := d' }).map fun h =>
          { h with value := HmrStr.ofBytes h.value.text } := by
    intro l
    induction l with
    | nil =>
      intro i
      rw [List.modify_nil, List.modify_nil]
    | cons x l ih =>
      intro i
      cases i with
      | zero =>
        rw [List.modify_zero_cons, List.modify_zero_cons, List.map_cons, List.map_cons, h]
      | succ i =>
        rw [List.modify_succ_cons, List.modify_succ_cons, List.map_cons, List.map_cons, ih]
  unfold withoutAddresses setValue
  simp only [hmap m.headers i]

/-- **The laws of the fields hold**, of every message, field and new value.

A `set_field` that fails leaves the message (`setField_cases`). One that succeeds has exchanged
one value for its rebuilt text, so the field itself is by the put-get law of rebuilding
(`putGet_setField`); another field of the same header is the other component of that value, by
the same law; and a field elsewhere is part of a value that was not touched. The last law is that
of `set_header`, which copies the rebuilt text once more and finds the same entry. -/
theorem fieldLaws (m : HmrSipMsg) (a : HmrArena) (field : Nat) (hv : IsFieldText v.text) :
    FieldLaws m a field v where
  refused := by
    intro h
    obtain ⟨-, hsame⟩ | ⟨f, rebuilt, a', -, -, -, -, heq⟩ := m.setField_cases a field v
    · exact hsame
    · rw [heq] at h
      cases h
  put := by
    intro f hf htrue hscheme hfits
    obtain ⟨hfalse, -⟩ | ⟨g, rebuilt, a', hg, hfound, hr, hnull, heq⟩ := m.setField_cases a field v
    · rw [hfalse] at htrue
      cases htrue
    · obtain rfl : f = g := Option.some.inj (hf.symm.trans hg)
      rw [heq, getField_eq hf, fieldValue_putValue hfound hnull,
        shown_componentOf _ (element_fieldRef f)]
      exact (putGet_setField hv hscheme hfits hr hnull).put
  others := by
    intro f hf htrue hscheme hfits other hother
    obtain ⟨hfalse, -⟩ | ⟨f', rebuilt, a', hf', hfound, hr, hnull, heq⟩ :=
      m.setField_cases a field v
    · rw [hfalse] at htrue
      cases htrue
    · obtain rfl : f = f' := Option.some.inj (hf.symm.trans hf')
      rw [heq]
      cases hg : HmrField.ofCode other with
      | none =>
        unfold getField
        rw [hg]
      | some g =>
        have hne : g ≠ f := by
          rintro rfl
          exact hother ((HmrField.ofCode_eq_some.mp hg).trans (HmrField.ofCode_eq_some.mp hf).symm)
        rw [getField_eq hg, getField_eq hg]
        -- Another field is the other component of the same value, or part of a value that is
        -- not touched.
        by_cases hheader : (fieldRef g).header = (fieldRef f).header
        · rw [fieldValue_congr hheader, fieldValue_congr hheader,
            fieldValue_putValue hfound hnull, shown_componentOf _ (element_fieldRef g),
            shown_componentOf _ (element_fieldRef g)]
          exact (putGet_setField hv hscheme hfits hr hnull).others _
            (element_ne_of_header_eq hne hheader)
        · rw [fieldValue_putValue_of_ne hheader]
  header := by
    intro f name hf hh hfound hfits hroom
    have hvalue : m.fieldValue f = m.getHeader name := fieldValue_eq_getHeader hh
    have hname : StringView.ofBytes name = (HmrStr.ofBytes name).sv := by
      have hlt : name.length < 2 ^ 32 := length_header_lt hh
      unfold HmrStr.ofBytes HmrStr.of HmrStr.sv
      rw [StringView.mk.injEq]
      exact ⟨rfl, (clip_of_lt hlt).symm⟩
    have hfound' : ∀ other ∈ (fieldRef f).header, (m.find other).isSome = true := by
      intro other hother
      rw [hh, Option.mem_some_iff] at hother
      exact hother ▸ hfound
    obtain ⟨i, hi⟩ := Option.isSome_iff_exists.mp hfound
    obtain ⟨r, o, hsv⟩ := sv_eq (m.fieldValue f)
    unfold rebuiltText at hfits hroom
    obtain ⟨rebuilt, a', hr, hnull, htext, hused⟩ :=
      rebuildUri_of_room (a := a) hsv hfits (by omega)
    have hset := setField_of_found hf hfound' a v hr
    rw [if_neg hnull, putValue_eq_setValue hh hi] at hset
    rw [← hvalue, hr, hset, hname]
    dsimp only
    obtain ⟨hlt, -⟩ | ⟨d, a₁, i', hcopies, hi', heq⟩ | ⟨d, a₁, -, hnone, -⟩ :=
      m.setHeader_cases a' (.ofBytes name) rebuilt
    · have hremaining : a'.remaining = a.remaining - rebuilt.text.length := by
        rw [htext]
        unfold HmrArena.remaining
        omega
      rw [htext] at hlt hremaining
      omega
    · rw [HmrStr.ofBytes_text, clip_of_lt (length_header_lt hh), hi] at hi'
      cases hi'
      rw [heq]
      exact ⟨rfl, rfl, m.withoutAddresses_setValue i hcopies.text.symm⟩
    · rw [HmrStr.ofBytes_text, clip_of_lt (length_header_lt hh), hi] at hnone
      cases hnone

end HmrSipMsg

end Hmr
