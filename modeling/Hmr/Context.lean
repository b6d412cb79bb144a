import Hmr.Arena
import Hmr.Lowering

/-!
# The per-worker context

A worker has one `HmrContext`, prepared once for a module – its regexes compiled, its
slots allocated – and used for packet after packet, with `reset_for_apply` in between.
What a reset clears, and what it leaves, is spelled out field by field here, because that
is all that separates one packet from the next.

Regexes are `std::regex`, and stay a parameter: an engine says which patterns compile, and
where in a subject the groups of a match stand. A capture is thereby a part of the subject
it was found in.

The slots are as many as the module's descriptor counts, and each is a text of its own,
which is copied when it is stored. The groups of the last match are views into the subject
instead, and a reset forgets them by a flag.
-/

namespace Hmr

/-- **A regex engine**: the patterns that compile, and the search for one in
a subject, with or without regard to case. A successful search gives the
offset and the length of every group, starting with the whole match; a group
that did not take part has none. -/
structure RegexEngine where
  valid : Bytes → Bool
  search : Bytes → Bool → Bytes → Option (List (Option (Nat × Nat)))

/-- The engine that compiles everything and finds nothing. -/
def RegexEngine.blind : RegexEngine := ⟨fun _ => true, fun _ _ _ => none⟩

/-- The descriptor a module publishes: its name, the slots it needs, and its
regexes, each with its case-insensitive flag. -/
structure HmrModuleInfo where
  name : Bytes
  numSlots : Nat
  regexes : List (Bytes × Bool)
  deriving DecidableEq, Repr

/-- A text passed as a C string ends at its first NUL. -/
def cString (s : Bytes) : Bytes := s.takeWhile (· != 0)

/-- **`HmrContext`.** -/
structure HmrContext where
  arena : HmrArena := HmrArena.fresh
  vars : HmrVarId → Bytes := fun _ => []
  regexes : List (Bytes × Bool) := []
  slots : List Bytes := []
  /-- The groups of the last match, as views into its subject. -/
  lastMatch : List (Option HmrStr) := []
  hasMatch : Bool := false
  scratch : Bytes := []
  logs : List Bytes := []
  rejected : Bool := false
  rejectCode : Nat := 0
  rejectReason : Bytes := []

namespace HmrContext

/-- `set_var`. -/
def setVar (ctx : HmrContext) (id : HmrVarId) (value : Bytes) : HmrContext :=
  if id = .none then ctx
  else { ctx with vars := fun i => if i = id then value else ctx.vars i }

/-- `prepare`: compile the regexes and allocate the slots. A pattern that does
not compile throws. -/
def prepare (rx : RegexEngine) (ctx : HmrContext) (info : HmrModuleInfo) :
    Option HmrContext :=
  if info.regexes.all fun r => rx.valid (cString r.1) then
    some { ctx with
      regexes := info.regexes.map fun r => (cString r.1, r.2)
      slots := List.replicate info.numSlots [] }
  else none

/-- **`reset_for_apply`.** -/
def resetForApply (ctx : HmrContext) : HmrContext :=
  { ctx with
    arena := ctx.arena.reset
    hasMatch := false
    scratch := []
    logs := []
    rejected := false
    rejectCode := 0
    rejectReason := [] }

end HmrContext

/-- `make_context`. -/
def makeContext (rx : RegexEngine) (info : HmrModuleInfo) : Option HmrContext :=
  HmrContext.prepare rx {} info

end Hmr
