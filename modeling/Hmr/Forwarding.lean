import Hmr.Effects
import Hmr.Machine
import Hmr.NormalForm

/-!
# Forwarding a packet

The header table has room for 32 headers, and `parse` says nothing when it is full: the
header lines behind the 32nd are read and dropped. Up to there every header line with a
colon is recorded, and a ruleset that does not fire puts every recorded header out again.

That a rule does not fire is a matter of its guards, which are asked in the state the
packet is in. They look at the message and change nothing of it, but a search leaves its
groups, so the state they are asked in is one that looks the same (`Machine.LooksLike`),
and the guards of the next rule answer as they would have in the first state. So it can be
asked of all rules at once, of the packet as it came in.

What is put out then are the names and the values as they were read. The blanks around
them are gone, and a line is put out with one blank behind its colon.
-/

namespace Hmr

/-- What follows the first line of a packet. -/
def headerSection (raw : Bytes) : Bytes := ((lineSplit raw).map Prod.snd).getD []

/-- The name and the value on a header line: what stands before and behind its
first colon, trimmed, as 32-bit views show it. -/
def lineHeader (line : Bytes) : Bytes × Bytes :=
  (clip (trim (line.takeWhile (· != colon))),
    clip (trim ((line.dropWhile (· != colon)).drop 1)))

/-- A line with a colon holds a header. -/
theorem headerOf_of_mem {line : Bytes} (h : colon ∈ line) :
    headerOf line = some (lineHeader line) := by
  obtain ⟨hn, -⟩ | ⟨a, b, rfl, ha, hf⟩ := find_cases line colon
  · exact absurd h hn
  · have hkeep : ∀ c ∈ a, (c != colon) = true := fun c hc =>
      bne_iff_ne.mpr (fun he => ha (he ▸ hc))
    have hdrop : (a ++ colon :: b).drop (a.length + 1) = b := by
      rw [← List.drop_drop, List.drop_left]
      rfl
    have htake : (a ++ colon :: b).takeWhile (· != colon) = a := by
      rw [List.takeWhile_append_of_pos hkeep, List.takeWhile_cons_of_neg (by simp)]
      exact List.append_nil a
    have hwhile : (a ++ colon :: b).dropWhile (· != colon) = colon :: b := by
      rw [List.dropWhile_append_of_pos hkeep, List.dropWhile_cons_of_neg (by simp)]
    rw [headerOf, hf, lineHeader, htake, hwhile]
    dsimp only
    rw [List.take_left, hdrop]
    rfl

namespace HmrSipMsg

/-- **The headers of a packet** whose header lines all have a colon: one for
each line, as far as the table has room. -/
theorem live_parse {raw : Bytes} (h : ∀ line ∈ headerLines (headerSection raw), colon ∈ line) :
    (parse raw).live
      = ((headerLines (headerSection raw)).take hmrMaxHeaders).map lineHeader := by
  have hw := congrArg Wire.headers (parse_wire raw)
  refine hw.trans ?_
  unfold headerSection at h ⊢
  cases hs : lineSplit raw with
  | none =>
    rw [Option.map_none, Option.getD_none, headerLines_of_none rfl]
    rfl
  | some lr =>
    obtain ⟨l, r⟩ := lr
    rw [hs] at h
    rw [Option.map_some, Option.getD_some] at h ⊢
    show ((headerLines r).filterMap headerOf).take hmrMaxHeaders = _
    rw [List.filterMap_congr fun line hl => headerOf_of_mem (h line hl),
      List.filterMap_eq_map', List.map_take]

end HmrSipMsg

/-! ## Rules that do not fire -/

namespace Machine

variable {rx : RegexEngine}

/-- A header rule fires on a machine: its guards hold. -/
def Fires (rx : RegexEngine) (hr : HeaderRule) (m : Machine) : Prop :=
  ((Meaning.fires Meaning.callProg (Meaning.guard Meaning.callProg) hr).run
    (calls rx) m).1.isSome = true

instance (hr : HeaderRule) (m : Machine) : Decidable (Fires rx hr m) :=
  inferInstanceAs (Decidable (_ = true))

/-- The calls guards make: they look, and change no more than the groups of
the last match. -/
def Looks : ∀ i, SymCall i → Prop
  | _, .getHeader _ => True
  | _, .getMethod => True
  | _, .isRequest => True
  | _, .hmrMatch _ _ _ _ => True
  | _, _ => False

/-- The machines differ in the groups of the last match at most. -/
def LooksLike (m m' : Machine) : Prop := { m with captures := m'.captures } = m'

/-- A machine looks like itself. -/
theorem LooksLike.refl (m : Machine) : LooksLike m m := rfl

/-- Looking alike is mutual. -/
theorem LooksLike.symm {m m' : Machine} (h : LooksLike m m') : LooksLike m' m := by
  unfold LooksLike at *
  rw [← h]

/-- Machines that look like a third one look alike. -/
theorem LooksLike.trans {m m' m'' : Machine} (h : LooksLike m m') (h' : LooksLike m' m'') :
    LooksLike m m'' := by
  unfold LooksLike at *
  rw [← h', ← h]

/-- They put out the same. -/
theorem LooksLike.rendered {m m' : Machine} (h : LooksLike m m') :
    m'.rendered = m.rendered := by
  unfold LooksLike at h
  rw [← h]
  rfl

/-- A search leaves its groups, and nothing else. -/
theorem looksLike_search (m : Machine) (key : RegexKey) (subject : Bytes) :
    LooksLike m (m.search rx key subject).2 := by
  unfold search
  split
  · rfl
  · split <;> rfl

/-- Looking leaves a machine that looks the same. -/
theorem looksLike_calls {i : RetTy} {c : SymCall i} (hc : Looks i c) (m : Machine) :
    LooksLike m (calls rx i c m).2 := by
  cases c with
  | getHeader name => rfl
  | getMethod => rfl
  | isRequest => rfl
  | hmrMatch t subject pattern key =>
    cases t with
    | regex => exact looksLike_search m key _
    | _ => rfl
  | _ => cases hc

/-- Machines that look the same answer the same. -/
theorem calls_congr {i : RetTy} {c : SymCall i} (hc : Looks i c) {m m' : Machine}
    (h : LooksLike m m') : (calls rx i c m).1 = (calls rx i c m').1 := by
  unfold LooksLike at h
  rw [← h]
  cases c with
  | getHeader name => rfl
  | getMethod => rfl
  | isRequest => rfl
  | hmrMatch t subject pattern key =>
    cases t with
    | regex =>
      show (m.search rx key _).1 = (search rx { m with captures := m'.captures } key _).1
      unfold search
      split
      · rfl
      · split <;> rfl
    | _ => rfl
  | _ => cases hc

/-- **Guards only look.** -/
theorem fires_looks (hr : HeaderRule) :
    (Meaning.fires Meaning.callProg (Meaning.guard Meaning.callProg) hr).Meets Looks
      (fun _ _ _ => True) (fun _ => True) :=
  Meaning.fires_meets (fun _ => trivial) trivial trivial (fun _ _ _ _ => trivial) hr

/-- The guards of a rule leave a machine that looks the same, -/
theorem looksLike_fires (hr : HeaderRule) (m : Machine) :
    LooksLike m ((Meaning.fires Meaning.callProg (Meaning.guard Meaning.callProg) hr).run
      (calls rx) m).2 := by
  have hh : Prog.Honours (calls rx) (LooksLike m) Looks fun _ _ _ => True :=
    fun _ _ s hs hc => ⟨trivial, hs.trans (looksLike_calls hc s)⟩
  exact ((fires_looks hr).run hh (LooksLike.refl m)).2

/-- and do not depend on anything else. -/
theorem fires_congr {hr : HeaderRule} {m m' : Machine} (h : LooksLike m m') :
    Fires rx hr m ↔ Fires rx hr m' := by
  have hcall : ∀ i (c : SymCall i) s t, Looks i c → LooksLike s t →
      (calls rx i c s).1 = (calls rx i c t).1
        ∧ LooksLike (calls rx i c s).2 (calls rx i c t).2 := fun i c s t hc hst =>
    ⟨calls_congr hc hst, ((looksLike_calls hc s).symm.trans hst).trans (looksLike_calls hc t)⟩
  unfold Fires
  rw [((fires_looks hr).simulates hcall h).1]

/-- **Rules that do not fire change nothing.** -/
theorem rulesFrom_of_not_fires {hrs : List HeaderRule} {m₀ : Machine}
    (hno : ∀ hr ∈ hrs, ¬ Fires rx hr m₀) (idx : Nat) {m : Machine} (hm : LooksLike m₀ m) :
    ((Meaning.rulesFrom Meaning.callProg idx hrs).run (calls rx) m).1 = .ok
      ∧ LooksLike m₀ ((Meaning.rulesFrom Meaning.callProg idx hrs).run (calls rx) m).2 := by
  -- The guards of each rule are asked on a machine that looks like the first one.
  induction hrs generalizing idx m with
  | nil => exact ⟨rfl, hm⟩
  | cons hr rest ih =>
    have hfire : ¬ Fires rx hr m := fun h =>
      hno hr List.mem_cons_self ((fires_congr hm).mpr h)
    have hlook : LooksLike m₀ ((Meaning.fires Meaning.callProg
        (Meaning.guard Meaning.callProg) hr).run (calls rx) m).2 :=
      hm.trans (looksLike_fires hr m)
    rw [Meaning.rulesFrom, Meaning.rule, Meaning.headerRule, bind_assoc, Prog.run_bind]
    cases ho : ((Meaning.fires Meaning.callProg (Meaning.guard Meaning.callProg) hr).run
        (calls rx) m).1 with
    | none => exact ih (fun x hx => hno x (List.mem_cons_of_mem _ hx)) (idx + 1) hlook
    | some hv =>
      rw [Fires, ho] at hfire
      exact absurd rfl hfire

end Machine

namespace HmrSipMsg

/-- **Forwarding.** Of a packet whose header lines, up to the first blank
line, all have a colon, `parse` records the first 32 in order, each with its
trimmed name and value; and a ruleset no rule of which fires puts out exactly
these. -/
theorem parse_forward (rx : RegexEngine) (rs : Ruleset) (ctx : HmrContext)
    (hctx : ctx.Prepared (Interpreter.info rs)) (raw : Bytes)
    (hcolon : ∀ line ∈ headerLines (headerSection raw), colon ∈ line) :
    let headers := ((headerLines (headerSection raw)).take hmrMaxHeaders).map lineHeader
    (parse raw).live = headers
      ∧ ((∀ hr ∈ rs.headerRules, ¬ Machine.Fires rx hr
            (.ofPacket raw ctx.vars (ctx.slotsBy (Meaning.symbols rs)))) →
          let w := ((Interpreter.apply rs).run (runtime rx) ⟨parse raw, ctx.resetForApply⟩).2
          ∀ a : HmrArena, (w.msg.serialize a).1.present = true →
            (w.msg.serialize a).1.text
              = (parse raw).startLine.text ++ crlf ++ headers.flatMap renderHeader ++ crlf
                ++ (parse raw).body.text) := by
  have hlive := live_parse hcolon
  refine ⟨hlive, fun hno a hp => ?_⟩
  have hrun := Machine.represents_runtime rx (Meaning.has_symbols rs)
    (Meaning.program_uses rs) (hctx.represents raw)
  -- No rule fires on the machine of the packet, so the machine looks the same in the end.
  have hsame := (Machine.rulesFrom_of_not_fires hno 0 (Machine.LooksLike.refl _)).2
  rw [← Interpreter.symbols_tables, ← Interpreter.apply_eq] at hrun
  rw [(text_of_serialize hp).1, hrun.2.rendered, Interpreter.symbols_tables]
  have hline : (parse raw).firstLine.flatten = (parse raw).startLine.text := by
    unfold firstLine
    rw [modRequestUri_parse, if_neg (by simp [HmrStr.present])]
    exact List.append_nil _
  have hr : Machine.rendered (.ofPacket raw ctx.vars (ctx.slotsBy (Meaning.symbols rs)))
      = (parse raw).startLine.text ++ crlf ++ (parse raw).live.flatMap renderHeader ++ crlf
        ++ (parse raw).body.text := by
    rw [← hline]
    rfl
  rw [← hlive, ← hr]
  exact hsame.rendered

/-- A rule for replies. -/
def viaFromReplies : Ruleset where
  headerRules := [{ headerName := txt "Via", action := .delete, msgType := .reply }]

/-- A request whose one header has a blank before its colon, through a rule for
replies. -/
theorem parse_forward_request :
    (((Interpreter.apply viaFromReplies).run (runtime .blind)
        ⟨parse (txt "A b\nVia : x\n\nhi"), HmrContext.resetForApply {}⟩).2.msg.serialize
          .fresh).1.text
      = txt "A b\r\nVia: x\r\n\r\nhi" := by
  have hlines : headerLines (headerSection (txt "A b\nVia : x\n\nhi")) = [txt "Via : x"] :=
    (headerLines_flatMap [txt "Via : x"] (by decide) (b := []) (by decide) (by decide)
      (txt "hi")).1
  have hforward := (parse_forward .blind viaFromReplies {}
    ⟨by decide, by decide⟩ (txt "A b\nVia : x\n\nhi")
    (by rw [hlines]; decide)).2 (by decide) .fresh (by decide)
  rw [hlines] at hforward
  exact hforward.trans (by decide)

/-- 33 header lines. -/
def crowded : Bytes :=
  txt "A" ++ lf :: ((List.replicate 33 (txt "a:b")).flatMap (fun l => l ++ [lf]) ++ [lf])

/-- **The 33rd header is lost**: its line has a colon, and no header is
recorded for it. -/
theorem parse_drops_header :
    ¬ ∀ raw : Bytes, (∀ line ∈ headerLines (headerSection raw), colon ∈ line) →
      (parse raw).live = (headerLines (headerSection raw)).map lineHeader := by
  intro h
  have hsection : headerSection crowded
      = (List.replicate 33 (txt "a:b")).flatMap (fun l => l ++ [lf]) ++ ([] ++ lf :: []) := by
    unfold headerSection crowded
    rw [lineSplit_append (by decide)]
    rfl
  have hlines : headerLines (headerSection crowded) = List.replicate 33 (txt "a:b") := by
    rw [hsection]
    exact (headerLines_flatMap _ (fun l hl => by
      rw [List.eq_of_mem_replicate hl]
      decide) (by decide) (by decide) []).1
  have hcolon : ∀ line ∈ headerLines (headerSection crowded), colon ∈ line := by
    rw [hlines]
    intro line hl
    rw [List.eq_of_mem_replicate hl]
    decide
  have hlen := congrArg List.length ((live_parse hcolon).symm.trans (h crowded hcolon))
  rw [hlines] at hlen
  simp [hmrMaxHeaders] at hlen

end HmrSipMsg

end Hmr
