import Hmr.CppMeaning
import Hmr.IrTerminators
import Hmr.Lowers

/-!
# The back-ends agree

A ruleset is interpreted, or compiled by way of LLVM, or by way of C++. Each of the three
walks the rules by itself, and each numbers slots and regexes as they come up. That they agree
is that each of them is the ruleset's program, with the numbers of the same table put in: they
publish the same descriptor (`IrGenerator.hmrModuleInfo_eq`, `CppGenerator.hmrModuleInfo_eq`),
and on every message and in every context they do the same (`IrGenerator.run_hmrApply`,
`CppProgram.run_apply`).

A number that is passed to the runtime is one that the descriptor counts
(`Interpreter.covers_apply`), so a context that was prepared from it has a slot and a compiled
pattern for every call.

## What is asked of a ruleset

By way of LLVM every ruleset is compiled to what it means. By way of C++ there is a text in
between, and two things may go wrong with it. A string constant of `2 ^ 32` bytes or more has a
length that an `HmrStr` cannot have, and does not compile; so the constants are to be shorter.
And the names of rules are put into comments as they are, so that one may become code, or take
code away; so there are to be no comments, or no such names (`CppGenerator.NamesUnseen`). What
is said of the unit is said of the program a compiler reads in it, and that it reads that
program is said with it.
-/

namespace Hmr

/-! ## Descriptors -/

namespace IrGenerator

/-- The table the emitter ends with. -/
def symbols (rs : Ruleset) : SymbolTable := ((emit rs) {}).2.numbers.symbols

/-- The descriptor of the module is the one of the interpreter. -/
theorem hmrModuleInfo_eq (rs : Ruleset) : (generateIr rs).hmrModuleInfo = Interpreter.info rs := by
  obtain ⟨hslots, hregexes⟩ := Interpreter.info_eq rs
  have hname : (generateIr rs).hmrModuleInfo.name = (Interpreter.info rs).name := rfl
  have hslots' : (generateIr rs).hmrModuleInfo.numSlots = (Interpreter.info rs).numSlots :=
    (congrArg (fun t => t.slots.length) (symbols_emit rs)).trans hslots.symm
  have hregexes' : (generateIr rs).hmrModuleInfo.regexes = (Interpreter.info rs).regexes :=
    (congrArg SymbolTable.regexes (symbols_emit rs)).trans hregexes.symm
  generalize (generateIr rs).hmrModuleInfo = a, Interpreter.info rs = b at *
  cases a
  cases b
  exact congr (congr (congrArg _ hname) hslots') hregexes'

end IrGenerator

namespace CppGenerator

/-- The table the emitter ends with. -/
def symbols (rs : Ruleset) : SymbolTable := ⟨(emitted rs).regexes, (emitted rs).slots⟩

/-- `hmr_module_info`, as it stands at the end of the unit. -/
def hmrModuleInfo (opts : CppGenOptions) (rs : Ruleset) : HmrModuleInfo where
  name := moduleName opts rs
  numSlots := (emitted rs).slots.length
  regexes := (emitted rs).regexes

/-- The slots of the C++ unit are those of the ruleset. -/
theorem slots_emitted (rs : Ruleset) : (emitted rs).slots = (Meaning.symbols rs).slots :=
  (CppProgram.same_emitted rs).slots.trans
    (congrArg SymbolTable.slots (CppProgram.symbols_emitted rs))

/-- So are its regexes. -/
theorem regexes_emitted (rs : Ruleset) : (emitted rs).regexes = (Meaning.symbols rs).regexes :=
  (CppProgram.same_emitted rs).regexes.trans
    (congrArg SymbolTable.regexes (CppProgram.symbols_emitted rs))

/-- The descriptor of the unit is the one of the interpreter, if it is not given a name. -/
theorem hmrModuleInfo_eq (rs : Ruleset) (flag : Bool) :
    hmrModuleInfo { emitComments := flag } rs = Interpreter.info rs := by
  obtain ⟨hslots, hregexes⟩ := Interpreter.info_eq rs
  have hname : moduleName { emitComments := flag } rs = (Interpreter.info rs).name := rfl
  rw [hmrModuleInfo, slots_emitted, regexes_emitted, hname, ← hslots, ← hregexes]

/-- **The tables agree**: each slot name, and each pattern with its flag, has the number the
interpreter has for it. -/
theorem symbols_eq (rs : Ruleset) : symbols rs = (Interpreter.tables rs).symbols := by
  rw [symbols, slots_emitted, regexes_emitted, Interpreter.symbols_tables]

end CppGenerator

/-! ## Numbers -/

/-- **What the call is passed is counted**: its slot, and the regex of a pattern. -/
def HmrModuleInfo.Counts (info : HmrModuleInfo) : ∀ i, RtCall Bytes Nat Nat i → Prop
  | _, .store slot _ => slot < info.numSlots
  | _, .load slot => slot < info.numSlots
  | _, .valAppendSlot slot => slot < info.numSlots
  | _, .hmrMatch .regex _ _ id => id < info.regexes.length
  | _, _ => True

/-- **Every call of the program is passed what is counted**, whatever is answered to the ones
before it. -/
abbrev HmrModuleInfo.Covers {α : Type} (info : HmrModuleInfo) (p : RtProg Nat Nat α) : Prop :=
  p.Meets info.Counts (fun _ _ _ => True) (fun _ => True)

namespace Interpreter

/-- **The number of a key** that is used is one that is counted. -/
theorem counts_resolve {rs : Ruleset} {i : RetTy} {c : SymCall i}
    (h : Meaning.Uses (Meaning.keys rs) i c) :
    (info rs).Counts i ((Meaning.symbols rs).resolve i c) := by
  obtain ⟨hslots, hregexes⟩ := info_eq rs
  have hslot {name : Bytes} (hn : TableKey.slot name ∈ Meaning.keys rs) :
      (Meaning.symbols rs).slotId name < (info rs).numSlots :=
    hslots ▸ SymbolTable.slotId_lt (SymbolTable.has_addAll.mpr (.inr hn))
  cases c with
  | store slot x => exact hslot h
  | load slot => exact hslot h
  | valAppendSlot slot => exact hslot h
  | hmrMatch t x p r =>
    cases r with
    | none =>
      -- only a regex match needs a number
      cases t with
      | regex => exact absurd rfl h
      | _ => exact trivial
    | some r =>
      obtain ⟨rfl, hr⟩ := h
      show (Meaning.symbols rs).regexId (some r) < (info rs).regexes.length
      rw [hregexes]
      exact SymbolTable.regexId_lt (SymbolTable.has_addAll.mpr (.inr hr))
  | _ => exact trivial

/-- **No number is out of range**, whatever is answered to the calls. -/
theorem covers_apply (rs : Ruleset) : (info rs).Covers (apply rs) := by
  rw [apply_eq, symbols_tables]
  exact ((Meaning.program_uses rs).imp (fun _ _ h => counts_resolve h) fun _ _ _ h => h).mapCalls

end Interpreter

/-! ## Programs -/

/-- What is made of a result is no matter of the run. -/
theorem Prog.run_map {ι : Type} {F : ι → Type} {R : ι → Type} {α β σ : Type} (h : Handler F R σ)
    (f : α → β) (p : Prog F R α) (s : σ) :
    (f <$> p).run h s = (f (p.run h s).1, (p.run h s).2) := by
  rw [map_eq_pure_bind, run_bind]
  rfl

/-- Nor of the calls that are made. -/
theorem HmrModuleInfo.Covers.map {α β : Type} {info : HmrModuleInfo} {p : RtProg Nat Nat α}
    (h : info.Covers p) (f : α → β) : info.Covers (f <$> p) := by
  rw [map_eq_pure_bind]
  exact h.bind fun _ _ => trivial

namespace IrGenerator

/-- The compiled function is the interpreter. -/
theorem apply_generateIr_eq (rs : Ruleset) :
    (generateIr rs).hmrApply.apply (generateIr rs).hmrApply.length
      = some <$> Interpreter.apply rs := by
  rw [apply_resolve rs (.refl _), Interpreter.apply_eq, Interpreter.symbols_tables]

/-- The unit has the tables of the interpreter. -/
theorem symbols_eq (rs : Ruleset) : symbols rs = (Interpreter.tables rs).symbols :=
  (symbols_emit rs).trans (Interpreter.symbols_tables rs).symm

/-- Its function makes no call with another number. -/
theorem covers_hmrApply (rs : Ruleset) : (Interpreter.info rs).Covers
    ((generateIr rs).hmrApply.apply (generateIr rs).hmrApply.length) := by
  rw [apply_generateIr_eq]
  exact (Interpreter.covers_apply rs).map some

/-- **It does on every message what the interpreter does**: with the same verdict, and to the
message and the context. -/
theorem run_hmrApply (rs : Ruleset) (rx : RegexEngine) (w : World) :
    ((generateIr rs).hmrApply.apply (generateIr rs).hmrApply.length).run (runtime rx) w
      = (some ((Interpreter.apply rs).run (runtime rx) w).1,
        ((Interpreter.apply rs).run (runtime rx) w).2) := by
  rw [apply_generateIr_eq, Prog.run_map]

end IrGenerator

namespace CppProgram

open CppGenerator (hmrStrOf strLit)

section
variable {rs : Ruleset} (h : ∀ s ∈ (emitted rs).body.literals, s.length < 2 ^ 32)
include h

/-- The function in the unit is the interpreter. -/
theorem apply_eq :
    apply (fun s => hmrStrOf (strLit s)) rs = some <$> Interpreter.apply rs := by
  rw [apply_decoded rs h, apply_clipped, Interpreter.apply_eq, Interpreter.symbols_tables]

/-- Nor does that of the unit. -/
theorem covers_apply :
    (Interpreter.info rs).Covers (apply (fun s => hmrStrOf (strLit s)) rs) := by
  rw [apply_eq h]
  exact (Interpreter.covers_apply rs).map some

/-- **So does the function in the unit.** -/
theorem run_apply (rx : RegexEngine) (w : World) :
    (apply (fun s => hmrStrOf (strLit s)) rs).run (runtime rx) w
      = (some ((Interpreter.apply rs).run (runtime rx) w).1,
        ((Interpreter.apply rs).run (runtime rx) w).2) := by
  rw [apply_eq h, Prog.run_map]

end

end CppProgram

section
variable (cc : Cpp.Dialect) (rs : Ruleset) (flag : Bool)
variable (hnames : CppGenerator.NamesUnseen cc rs { emitComments := flag })
variable (h : ∀ s ∈ (CppProgram.emitted rs).body.literals, s.length < 2 ^ 32)
include hnames h

/-- **The back-ends agree**: on every message and in every context, the three of them end with
the same verdict, and leave the same message and the same context. -/
theorem backEnds_agree (rx : RegexEngine) (w : World) :
    let r := (Interpreter.apply rs).run (runtime rx) w
    ((IrGenerator.generateIr rs).hmrApply.apply
        (IrGenerator.generateIr rs).hmrApply.length).run (runtime rx) w = (some r.1, r.2)
      ∧ Cpp.tokens cc (CppGenerator.generateCpp rs { emitComments := flag })
        = Cpp.tokens cc (CppProgram.text rs { emitComments := flag })
      ∧ (CppProgram.apply (fun s => CppGenerator.hmrStrOf (CppGenerator.strLit s)) rs).run
          (runtime rx) w = (some r.1, r.2) :=
  ⟨IrGenerator.run_hmrApply rs rx w, CppProgram.tokens_generateCpp hnames,
    CppProgram.run_apply h rx w⟩

end

open CppProgram (anonymized) in
/-- It does the same by all three ways, on a message without headers. -/
theorem backEnds_agree_anonymized :
    let r := (Interpreter.apply anonymized).run (runtime .blind) ⟨{}, {}⟩
    ((IrGenerator.generateIr anonymized).hmrApply.apply
        (IrGenerator.generateIr anonymized).hmrApply.length).run (runtime .blind) ⟨{}, {}⟩
        = (some r.1, r.2)
      ∧ Cpp.tokens .gnu (CppGenerator.generateCpp anonymized {})
        = Cpp.tokens .gnu (CppProgram.text anonymized {})
      ∧ (CppProgram.apply (fun s => CppGenerator.hmrStrOf (CppGenerator.strLit s)) anonymized).run
          (runtime .blind) ⟨{}, {}⟩ = (some r.1, r.2) :=
  backEnds_agree .gnu anonymized true (CppProgram.namesUnseen_anonymized .gnu)
    CppProgram.fits_anonymized .blind ⟨{}, {}⟩

/-! ## All of it -/

/-- **What a back-end is to do**, with its table, its descriptor and its `hmr_apply`: number as
the interpreter does, publish what the interpreter has scanned, pass no number that is not
counted there, and do on every message and in every context what the interpreter does. -/
structure Interprets (rs : Ruleset) (symbols : SymbolTable) (info : HmrModuleInfo)
    (apply : RtProg Nat Nat (Option HmrVerdict)) : Prop where
  slotId : ∀ name, symbols.slotId name = (Interpreter.tables rs).symbols.slotId name
  regexId : ∀ r, symbols.regexId r = (Interpreter.tables rs).symbols.regexId r
  published : info = Interpreter.info rs
  counted : info.Covers apply
  run : ∀ (rx : RegexEngine) (w : World), apply.run (runtime rx) w
    = (some ((Interpreter.apply rs).run (runtime rx) w).1,
      ((Interpreter.apply rs).run (runtime rx) w).2)

/-- A ruleset that deletes one header. -/
def deletesHeader (name : Bytes) : Ruleset where
  headerRules := [{ headerName := name, action := .delete }]

/-- Its lambda passes the name on. -/
theorem emitted_deletesHeader (name : Bytes) : (CppProgram.emitted (deletesHeader name)).body
    = .lambda (CppGenerator.headerNote { headerName := name, action := .delete } 0)
      (.code (.call (.deleteHeader (.lit name))) (.ret false .done)) .done := by
  rfl

end Hmr
