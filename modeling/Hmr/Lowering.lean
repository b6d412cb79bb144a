import Hmr.Ast

/-!
# Lowering decisions

The mappings from the syntax to the immediate operands of the runtime – variable ids, URI
elements, matchers, slot names – which the interpreter and both code generators share, so
that none of them decides these for itself. The enumerations are those of the runtime's C
header.

They are total where the source has a default and partial where it says that there is
nothing: an element that is no part of a URI and not the whole value has no operand, and
the rule about it does nothing. A variable that is unknown is the one with the number
zero, as in the source.

The names of slots are made here as well, of a rule's name and a number, and the groups of
a pattern are counted.
-/

namespace Hmr

/-- The built-in variables. -/
inductive HmrVarId
  | none | localIp | remoteIp | localPort | remotePort | trunkGroup | realm
  | interface | method | ruriUser | ruriHost | toUser | toHost | fromUser
  | fromHost
  deriving DecidableEq, Repr

/-- The parts of a header value `hmr_rt_uri_get` and `hmr_rt_uri_set`
address. -/
inductive HmrUriElement
  | whole | display | user | host | port
  deriving DecidableEq, Repr

/-- The matchers `hmr_rt_match` dispatches to. -/
inductive HmrMatchType
  | exact | exactCi | regex | ip | ipMask | ipRange | fqdn
  deriving DecidableEq, Repr

namespace Lowering

/-- `toupper`, in the C locale. -/
def toUpper (c : UInt8) : UInt8 := if 97 ≤ c ∧ c ≤ 122 then c - 97 + 65 else c

/-- The table of `variable_id`. -/
def variableTable : List (Bytes × HmrVarId) :=
  [(txt "LOCAL_IP", .localIp), (txt "REMOTE_IP", .remoteIp),
   (txt "LOCAL_PORT", .localPort), (txt "REMOTE_PORT", .remotePort),
   (txt "TRUNK_GROUP", .trunkGroup), (txt "REALM", .realm),
   (txt "INTERFACE", .interface), (txt "METHOD", .method),
   (txt "RURI_USER", .ruriUser), (txt "RURI_HOST", .ruriHost),
   (txt "TO_USER", .toUser), (txt "TO_HOST", .toHost),
   (txt "FROM_USER", .fromUser), (txt "FROM_HOST", .fromHost)]

/-- `variable_id`: a name that is not in the table is no variable. -/
def variableId (name : Bytes) : HmrVarId :=
  (variableTable.lookup (name.map toUpper)).getD .none

/-- `uri_element`: the element types the back-ends act on. -/
def uriElement : ElementType → Option HmrUriElement
  | .headerValue => some .whole
  | .uriDisplay => some .display
  | .uriUser => some .user
  | .uriHost => some .host
  | .uriPort => some .port
  | _ => none

/-- `is_case_insensitive`. -/
def isCaseInsensitive (c : ComparisonType) : Bool :=
  c == .caseInsensitive || c == .referCaseInsensitive

/-- `is_pattern`. -/
def isPattern (c : ComparisonType) : Bool := c == .patternRule

/-- `ip_match_type`: a slash makes it a subnet, else a dash a range. -/
def ipMatchType (pat : Bytes) : HmrMatchType :=
  if pat.contains 47 then .ipMask
  else if pat.contains 45 then .ipRange
  else .ip

/-- What follows a `(` makes it a group that captures: anything but `?`, or
`?<` and a name. -/
def opensCapture (rest : Bytes) : Bool :=
  match rest with
  | 63 :: 60 :: c :: _ => c != 61 && c != 33
  | 63 :: _ => false
  | _ => true

/-- The loop of `count_capturing_groups`, inside a character class or not. -/
def countGroupsFrom : Bool → Bytes → Nat
  | _, [] => 0
  | inClass, c :: rest =>
    if c == 92 then
      match rest with
      | [] => 0
      | _ :: rest => countGroupsFrom inClass rest
    else if inClass then countGroupsFrom (c != 93) rest
    else if c == 91 then countGroupsFrom true rest
    else if c == 40 then
      (if opensCapture rest then 1 else 0) + countGroupsFrom false rest
    else countGroupsFrom false rest

/-- `count_capturing_groups`, which counts in an `unsigned`. -/
def countCapturingGroups (re : Bytes) : Nat := countGroupsFrom false re % 2 ^ 32

/-- `std::to_string` of an unsigned number. -/
def toDecimal (n : Nat) : Bytes :=
  (Nat.toDigits 10 n).map fun c => UInt8.ofNat c.toNat

/-- `capture_slot_key`: the slot of a group of a stored match. Group 0 has
the rule's own name. -/
def captureSlotKey (ruleName : Bytes) (group : Nat) : Bytes :=
  if group = 0 then ruleName else ruleName ++ [46, 36] ++ toDecimal group

/-- `ref_base_name`: the path up to its first dot. -/
def refBaseName (path : Bytes) : Bytes := path.takeWhile (· != 46)

end Lowering

end Hmr
