import Hmr.Lowering

/-!
# The specialized matchers

What a match-value that is not a regex is compared with: exact text, an IP address, a
subnet, an address range, or a domain name. Addresses are held in network byte order, so
that comparing them as byte strings compares them as numbers.

A matcher that cannot read its pattern, or its subject, as what it is about does not
match. There is no other answer, and no error. Blanks around an address are trimmed, and
so are those around the parts of a pattern; for exact text they are not, and the case of
letters is ignored where names are compared.

An address is read by a parser of the source's own, and is kept with its family in a
buffer of sixteen bytes, of which an IPv4 address uses four.
-/

namespace Hmr

/-- The family of an address. -/
inductive IpFamily
  | none | v4 | v6
  deriving DecidableEq, Repr

/-- A parsed address: sixteen bytes, of which a `v4` address has the first
four. -/
structure IpAddr where
  family : IpFamily := .none
  bytes : List UInt8 := List.replicate 16 0
  deriving DecidableEq, Repr

namespace IpAddr

/-- `valid`. -/
def valid (a : IpAddr) : Bool := a.family != .none

/-- `byte_len`. -/
def byteLen (a : IpAddr) : Nat := if a.family = .v4 then 4 else 16

/-- `width_bits`. -/
def widthBits (a : IpAddr) : Nat := if a.family = .v4 then 32 else 128

end IpAddr

namespace Matchers

/-- `hex_val`. -/
def hexVal (c : UInt8) : Option Nat :=
  if 48 ≤ c ∧ c ≤ 57 then some (c.toNat - 48)
  else if 97 ≤ c ∧ c ≤ 102 then some (c.toNat - 97 + 10)
  else if 65 ≤ c ∧ c ≤ 70 then some (c.toNat - 65 + 10)
  else none

/-- The loop of `parse_uint`. -/
def parseUintFrom (max : Nat) : Nat → Bytes → Option Nat
  | v, [] => some v
  | v, c :: rest =>
    if 48 ≤ c ∧ c ≤ 57 then
      let v := v * 10 + (c.toNat - 48)
      if v > max then none else parseUintFrom max v rest
    else none

/-- `parse_uint`: an unsigned decimal of at most `max`. -/
def parseUint (s : Bytes) (max : Nat) : Option Nat :=
  if s.isEmpty then none else parseUintFrom max 0 s

/-- The end of an octet: one more, if there are not four already. -/
def closeOctet (tok : Bytes) (out : List UInt8) : Option (List UInt8) :=
  if out.length ≥ 4 then none
  else (parseUint tok 255).map fun octet => out ++ [UInt8.ofNat octet]

/-- The loop of `parse_ipv4`, with the octet being read and those read. -/
def parseIpv4From : Bytes → List UInt8 → Bytes → Option (List UInt8)
  | tok, out, [] => closeOctet tok out
  | tok, out, c :: rest =>
    if c == 46 then do
      let out ← closeOctet tok out
      parseIpv4From [] out rest
    else parseIpv4From (tok ++ [c]) out rest

/-- `parse_ipv4`: four octets. -/
def parseIpv4 (s : Bytes) : Option (List UInt8) :=
  (parseIpv4From [] [] s).filter (·.length == 4)

/-- The value of a group of hex digits. -/
def hextet (tok : Bytes) : Option Nat :=
  tok.foldlM (fun v c => (hexVal c).map fun h => v * 16 + h) 0

/-- The end of a group of an IPv6 address: two bytes, or four from a dotted
quad, which has to be the last. -/
def closeGroup (tok : Bytes) (out : List UInt8) (last : Bool) :
    Option (List UInt8) :=
  if tok.isEmpty then none
  else if tok.contains 46 then
    if !last then none
    else do
      let v4 ← parseIpv4 tok
      if out.length + 4 > 16 then none else some (out ++ v4)
  else if tok.length > 4 then none
  else do
    let value ← hextet tok
    if out.length + 2 > 16 then none
    else some (out ++ [UInt8.ofNat (value / 256), UInt8.ofNat value])

/-- The loop of `parse_v6_part`. -/
def parseV6From : Bytes → List UInt8 → Bytes → Option (List UInt8)
  | tok, out, [] => closeGroup tok out true
  | tok, out, c :: rest =>
    if c == colon then do
      let out ← closeGroup tok out false
      parseV6From [] out rest
    else parseV6From (tok ++ [c]) out rest

/-- `parse_v6_part`: groups separated by single colons; nothing is no
group. -/
def parseV6Part (part : Bytes) : Option (List UInt8) :=
  if part.isEmpty then some [] else parseV6From [] [] part

/-- `find("::")`. -/
def findDoubleColon : Bytes → Option Nat
  | c :: d :: rest =>
    if c == colon && d == colon then some 0
    else (findDoubleColon (d :: rest)).map (· + 1)
  | _ => none

/-- Brackets around the address and a zone behind it are dropped. -/
def stripV6 (s : Bytes) : Bytes :=
  let s := if s.length ≥ 2 ∧ s.head? = some 91 ∧ s.getLast? = some 93 then
    (s.drop 1).take (s.length - 2) else s
  s.takeWhile (· != 37)

/-- `parse_ipv6`: eight groups, or fewer around one `::`. -/
def parseIpv6 (s : Bytes) : Option (List UInt8) :=
  let s := stripV6 s
  if s.isEmpty then none
  else match findDoubleColon s with
    | some dc =>
      if (findDoubleColon (s.drop (dc + 1))).isSome then none
      else do
        let head ← parseV6Part (s.take dc)
        let tail ← parseV6Part (s.drop (dc + 2))
        if head.length + tail.length > 14 then none
        else some (head ++ List.replicate (16 - head.length - tail.length) 0 ++ tail)
    | none => (parseV6Part s).filter (·.length == 16)

/-- **`parse_ip`.** -/
def parseIp (text : Bytes) : IpAddr :=
  let text := trimBlanks text
  match parseIpv4 text with
  | some v4 => ⟨.v4, v4 ++ List.replicate 12 0⟩
  | none =>
    match parseIpv6 text with
    | some v6 => ⟨.v6, v6⟩
    | none => {}

/-- `memcmp`. -/
def memcmp : List UInt8 → List UInt8 → Ordering
  | a :: as, b :: bs => (compare a b).then (memcmp as bs)
  | _, _ => .eq

/-- `addr_cmp`. -/
def addrCmp (a b : IpAddr) : Ordering :=
  memcmp (a.bytes.take a.byteLen) (b.bytes.take a.byteLen)

/-- `match_exact`. -/
def matchExact (subject pattern : Bytes) (caseInsensitive : Bool) : Bool :=
  if caseInsensitive then iequals subject pattern else subject == pattern

/-- `match_ip`. -/
def matchIp (subject pattern : Bytes) : Bool :=
  let a := parseIp subject
  let b := parseIp pattern
  a.valid && b.valid && a.family == b.family && addrCmp a b == .eq

/-- The bits of a byte, from the highest. -/
def bitsOf (byte : UInt8) : List Bool :=
  (List.range 8).map fun i => byte.toNat.testBit (7 - i)

/-- The length of a run of ones followed by zeros only. -/
def leadingOnes : List Bool → Option Nat
  | [] => some 0
  | true :: rest => (leadingOnes rest).map (· + 1)
  | false :: rest => if rest.any id then none else some 0

/-- The prefix length a subnet's suffix stands for: a dotted mask, or a
decimal. -/
def prefixLength (net : IpAddr) (suffix : Bytes) : Option Nat :=
  let dotted := parseIp suffix
  if dotted.valid && dotted.family == net.family then
    leadingOnes ((dotted.bytes.take dotted.byteLen).flatMap bitsOf)
  else parseUint suffix net.widthBits

/-- The first `len` bits of two addresses agree: whole bytes, then what is
left of the next one under a mask. -/
def prefixEq (subj net : IpAddr) (len : Nat) : Bool :=
  let fullBytes := len / 8
  let remBits := len % 8
  memcmp (subj.bytes.take fullBytes) (net.bytes.take fullBytes) == .eq
    && (remBits == 0 ||
      let mask := UInt8.ofNat (255 * 2 ^ (8 - remBits))
      subj.bytes.getD fullBytes 0 &&& mask == net.bytes.getD fullBytes 0 &&& mask)

/-- `match_ip_mask`. -/
def matchIpMask (subject pattern : Bytes) : Bool :=
  match find pattern 47 0 with
  | none => false
  | some slash =>
    let netText := trimBlanks (pattern.take slash)
    let suffix := trimBlanks (pattern.drop (slash + 1))
    let subj := parseIp subject
    let net := parseIp netText
    if !subj.valid || !net.valid || subj.family != net.family then false
    else match prefixLength net suffix with
      | none => false
      | some len => prefixEq subj net len

/-- `match_ip_range`. -/
def matchIpRange (subject pattern : Bytes) : Bool :=
  match find pattern 45 0 with
  | none => false
  | some dash =>
    let lo := parseIp (trimBlanks (pattern.take dash))
    let hi := parseIp (trimBlanks (pattern.drop (dash + 1)))
    let subj := parseIp subject
    lo.valid && hi.valid && subj.valid && lo.family == hi.family
      && lo.family == subj.family && addrCmp subj lo != .lt && addrCmp subj hi != .gt

/-- A single trailing dot is dropped. -/
def dropRootDot (s : Bytes) : Bytes :=
  if s.length > 1 ∧ s.getLast? = some 46 then s.dropLast else s

/-- `match_fqdn`. -/
def matchFqdn (subject pattern : Bytes) : Bool :=
  let subject := dropRootDot subject
  let pattern := dropRootDot pattern
  !subject.isEmpty && !pattern.isEmpty && iequals subject pattern

/-- A matcher that needs no state, by its code. -/
def matchLiteral (t : HmrMatchType) (subject pattern : Bytes) : Bool :=
  match t with
  | .exact => matchExact subject pattern false
  | .exactCi => matchExact subject pattern true
  | .regex => false
  | .ip => matchIp subject pattern
  | .ipMask => matchIpMask subject pattern
  | .ipRange => matchIpRange subject pattern
  | .fqdn => matchFqdn subject pattern

end Matchers

end Hmr
