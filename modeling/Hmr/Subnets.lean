import Hmr.Addresses
import Hmr.Radix

/-!
# Subnets

A subnet is the addresses that begin like one of them. `match_ip_mask` compares the
beginnings byte by byte, and the last byte of them under a mask. What it should compare is
a number: the address divided by a power of two. The two are the same because the bytes of
an address are the digits of that number (`IpAddr.value`), so that the first of them are a
quotient, and the mask cuts a quotient out of one more digit (`Matchers.prefixEq_iff`).

## Suffixes

The suffix of a pattern comes in two spellings, a decimal and a dotted mask, and no text
is both: digits alone are no address. A mask is an address of the network's own family
whose bits are ones in front of zeros, which is said of its number
(`Matchers.leadingOnes_bitsOf`). A mask with a gap is none, and a decimal that is longer
than an address is none either, and both match nothing.

## Reads

An address has sixteen bytes in memory, of which the first four are those of an IPv4
address. The comparison reads a byte behind the last whole one if bits of it count. That
it never reads a sixteenth one, or one of another family, is shown on a copy of the
matcher in which every read is checked (`Matchers.matchIpMaskReading_eq`).
-/

namespace Hmr

namespace IpAddr

/-- **The address as a number**, its first byte the highest digit. -/
def value (a : IpAddr) : Nat := Radix.number 256 ((a.bytes.take a.byteLen).map UInt8.toNat)

/-- A byte of the address. Behind its end there is none. -/
def byteAt (a : IpAddr) (i : Nat) : Option UInt8 := if i < a.byteLen then a.bytes[i]? else none

/-- Its first `n` bytes, one after the other. -/
def bytesTo (a : IpAddr) : Nat → Option (List UInt8)
  | 0 => some []
  | n + 1 => do
    let front ← a.bytesTo n
    let byte ← a.byteAt n
    some (front ++ [byte])

end IpAddr

namespace Matchers

/-! ## What a pattern says -/

/-- **The prefix length a suffix stands for**: a decimal, or an address of ones in front of
zeros. -/
def DenotesPrefix (net : IpAddr) (suffix : Bytes) (p : Nat) : Prop :=
  p ≤ net.widthBits
    ∧ ((trimBlanks suffix ≠ [] ∧ (∀ c ∈ trimBlanks suffix, Value.isDigit c = true)
          ∧ Value.digitsVal (trimBlanks suffix) = p)
      ∨ ((parseIp suffix).family = net.family
          ∧ (parseIp suffix).value = (2 ^ p - 1) * 2 ^ (net.widthBits - p)))

/-- **The subject is in the subnet** of a network and a prefix length. -/
def InSubnet (subj net : IpAddr) (p : Nat) : Prop :=
  subj.valid = true ∧ net.valid = true ∧ subj.family = net.family
    ∧ subj.value / 2 ^ (net.widthBits - p) = net.value / 2 ^ (net.widthBits - p)

/-! ## The same with every read checked -/

/-- `prefixEq`, reading what it reads. -/
def prefixEqReading (subj net : IpAddr) (len : Nat) : Option Bool := do
  let fullBytes := len / 8
  let remBits := len % 8
  let front ← subj.bytesTo fullBytes
  let front' ← net.bytesTo fullBytes
  if memcmp front front' != .eq then some false
  else if remBits == 0 then some true
  else
    let mask := UInt8.ofNat (255 * 2 ^ (8 - remBits))
    let byte ← subj.byteAt fullBytes
    let byte' ← net.byteAt fullBytes
    some (byte &&& mask == byte' &&& mask)

/-- `prefixLength`, reading what it reads. -/
def prefixLengthReading (net : IpAddr) (suffix : Bytes) : Option (Option Nat) :=
  let dotted := parseIp suffix
  if dotted.valid && dotted.family == net.family then
    (dotted.bytesTo dotted.byteLen).map fun bytes => leadingOnes (bytes.flatMap bitsOf)
  else some (parseUint suffix net.widthBits)

/-- **`match_ip_mask` with every read checked**: no result if a byte outside of an address is
read. -/
def matchIpMaskReading (subject pattern : Bytes) : Option Bool :=
  match find pattern 47 0 with
  | none => some false
  | some slash =>
    let subj := parseIp subject
    let net := parseIp (trimBlanks (pattern.take slash))
    if !subj.valid || !net.valid || subj.family != net.family then some false
    else do
      let len ← prefixLengthReading net (trimBlanks (pattern.drop (slash + 1)))
      match len with
      | none => some false
      | some len => prefixEqReading subj net len

/-- **Subnet matching is prefix equality**, for one subject and every pattern. -/
structure MatchesSubnets (subject : Bytes) : Prop where
  /-- True exactly for a subnet the subject is in. -/
  prefixes : ∀ pattern, matchIpMask subject pattern = true
    ↔ ∃ net suffix p, pattern = net ++ 47 :: suffix ∧ 47 ∉ net
        ∧ DenotesPrefix (parseIp net) suffix p ∧ InSubnet (parseIp subject) (parseIp net) p
  /-- Two spellings of one prefix length give one answer. -/
  spellings : ∀ net suffix suffix' p, 47 ∉ net → DenotesPrefix (parseIp net) suffix p →
    DenotesPrefix (parseIp net) suffix' p →
    matchIpMask subject (net ++ 47 :: suffix) = matchIpMask subject (net ++ 47 :: suffix')
  /-- No byte outside of an address is read. -/
  reads : ∀ pattern, matchIpMaskReading subject pattern = some (matchIpMask subject pattern)

/-! ## Addresses as numbers -/

/-- An address is read without the blanks around it. -/
@[simp] theorem parseIp_trimBlanks (text : Bytes) : parseIp (trimBlanks text) = parseIp text := by
  have htrim : trimBlanks (trimBlanks text) = trimBlanks text := trimBy_trimBy text
  unfold parseIp
  rw [htrim]

/-- An address has sixteen bytes, used or not. -/
@[simp] theorem parseIp_length (text : Bytes) : (parseIp text).bytes.length = 16 := by
  unfold parseIp
  dsimp only
  cases h4 : parseIpv4 (trimBlanks text) with
  | some v4 =>
    have hfour := (parseIpv4_eq_some.mp h4).length
    simp [hfour]
  | none =>
    cases h6 : parseIpv6 (trimBlanks text) with
    | none => rfl
    | some v6 =>
      obtain ⟨-, hlen⟩ | ⟨head, hb, tail, tb, -, -, hle, -, rfl⟩ := parseIpv6_eq_some.mp h6
      · exact hlen
      · simp only [elided, List.length_append, List.length_replicate]
        omega

/-- Digits alone are no address. -/
theorem parseIp_of_isDigit {text : Bytes} (h : ∀ c ∈ trimBlanks text, Value.isDigit c = true) :
    parseIp text = {} := by
  have h4 : parseIpv4 (trimBlanks text) = none := by
    rw [Option.eq_none_iff_forall_ne_some]
    intro bytes hquad
    exact absurd (h 46 (parseIpv4_eq_some.mp hquad).mem_dot) (by decide)
  have h6 : parseIpv6 (trimBlanks text) = none := by
    rw [Option.eq_none_iff_forall_ne_some]
    exact parseIpv6_ne_of_forall fun c hc => Or.inl (h c hc)
  unfold parseIp
  dsimp only
  rw [h4, h6]

/-- No more bytes are used than there are. -/
theorem byteLen_le (a : IpAddr) : a.byteLen ≤ 16 := by
  unfold IpAddr.byteLen
  split <;> omega

/-- There are eight bits in each of them. -/
theorem widthBits_eq (a : IpAddr) : a.widthBits = 8 * a.byteLen := by
  unfold IpAddr.widthBits IpAddr.byteLen
  split <;> rfl

/-- How many are used is a matter of the family. -/
theorem byteLen_congr {a b : IpAddr} (h : a.family = b.family) : a.byteLen = b.byteLen := by
  unfold IpAddr.byteLen
  rw [h]

/-- Bytes are digits. -/
theorem forall_toNat_lt (l : List UInt8) : ∀ d ∈ l.map UInt8.toNat, d < 256 := by
  intro d hd
  obtain ⟨byte, -, rfl⟩ := List.mem_map.mp hd
  exact byte.toNat_lt

/-- They compare like them. -/
theorem compare_toNat (c d : UInt8) : compare c d = compare c.toNat d.toNat := by
  simp only [compare, compareOfLessAndEq, UInt8.lt_iff_toNat_lt, UInt8.toNat_inj]

/-- **`memcmp` compares as numbers** what is of one length. -/
theorem memcmp_eq_compare {a b : List UInt8} (h : a.length = b.length) :
    memcmp a b
      = compare (Radix.number 256 (a.map UInt8.toNat)) (Radix.number 256 (b.map UInt8.toNat)) := by
  induction a generalizing b with
  | nil =>
    obtain rfl := List.length_eq_zero_iff.mp h.symm
    rfl
  | cons c a ih =>
    cases b with
    | nil => cases h
    | cons d b =>
      have hlen : a.length = b.length := Nat.succ.inj h
      rw [memcmp, ih hlen, List.map_cons, List.map_cons,
        Radix.compare_number_cons (by omega) (by simpa using hlen) (forall_toNat_lt a)
          (forall_toNat_lt b), compare_toNat]

/-- Bytes of one length are known from their number. -/
theorem number_inj {a b : List UInt8} (h : a.length = b.length) :
    Radix.number 256 (a.map UInt8.toNat) = Radix.number 256 (b.map UInt8.toNat) ↔ a = b := by
  rw [Radix.number_inj (by omega) (by simpa using h) (forall_toNat_lt a) (forall_toNat_lt b)]
  exact (List.map_injective_iff.mpr fun _ _ => UInt8.toNat_inj.mp).eq_iff

/-- They are the same for `memcmp` exactly if they are. -/
theorem memcmp_eq_eq {a b : List UInt8} (h : a.length = b.length) :
    (memcmp a b == .eq) = decide (a = b) := by
  rw [memcmp_eq_compare h, Bool.eq_iff_iff, beq_iff_eq, compare_eq_iff_eq, number_inj h,
    decide_eq_true_iff]

/-! ## Prefixes -/

/-- A mask of ones in front of `j` zeros cuts a byte down to a quotient. -/
theorem and_mask {j : Nat} (hj : j ≤ 8) (byte : UInt8) :
    (byte &&& UInt8.ofNat (255 * 2 ^ j)).toNat = byte.toNat / 2 ^ j * 2 ^ j := by
  have hbyte : byte.toNat < 2 ^ 8 := byte.toNat_lt
  rw [UInt8.toNat_and, UInt8.toNat_ofNat']
  refine Nat.eq_of_testBit_eq fun i => ?_
  have hones : (255 : Nat).testBit (i - j) = decide (i - j < 8) := Nat.testBit_two_pow_sub_one 8 _
  rw [Nat.testBit_and, Nat.testBit_mod_two_pow, Nat.testBit_mul_two_pow, hones,
    Nat.testBit_mul_two_pow, Nat.testBit_div_two_pow]
  by_cases hij : j ≤ i
  · by_cases hi : i < 8
    · have hlt : i - j < 8 := by omega
      simp [hij, hi, hlt]
    · have hzero : byte.toNat.testBit i = false :=
        Nat.testBit_lt_two_pow (hbyte.trans_le (Nat.pow_le_pow_right (by omega) (by omega)))
      simp [hij, hi, hzero]
  · simp [hij]

/-- So bytes are the same under the mask if the quotients are. -/
theorem and_mask_beq {j : Nat} (hj : j ≤ 8) (c d : UInt8) :
    (c &&& UInt8.ofNat (255 * 2 ^ j) == d &&& UInt8.ofNat (255 * 2 ^ j)) = true
      ↔ c.toNat / 2 ^ j = d.toNat / 2 ^ j := by
  have hpos : 0 < 2 ^ j := Nat.two_pow_pos j
  rw [beq_iff_eq, ← UInt8.toNat_inj, and_mask hj, and_mask hj]
  exact Nat.mul_left_inj hpos.ne'

/-- The first bytes of a number are a quotient of it. -/
theorem number_take (l : List UInt8) (k : Nat) :
    Radix.number 256 ((l.take k).map UInt8.toNat)
      = Radix.number 256 (l.map UInt8.toNat) / 2 ^ (8 * (l.length - k)) := by
  have hbase : 2 ^ 8 = 256 := rfl
  rw [List.map_take, Radix.number_take (by omega) (forall_toNat_lt l), List.length_map, pow_mul,
    hbase]

/-- And so are the first bytes and the first bits of one more. -/
theorem number_take_div (l : List UInt8) {k j : Nat} (hk : k < l.length) (hj : j ≤ 8) :
    Radix.number 256 (l.map UInt8.toNat) / 2 ^ (8 * (l.length - (k + 1)) + j)
      = Radix.number 256 ((l.take k).map UInt8.toNat) * 2 ^ (8 - j)
        + (l.getD k 0).toNat / 2 ^ j := by
  have hbyte : 256 = 2 ^ (8 - j) * 2 ^ j := by
    rw [← pow_add, Nat.sub_add_cancel hj]
    rfl
  have hpos : 0 < 2 ^ j := Nat.two_pow_pos j
  have hgetD : l.getD k 0 = l[k] := (List.getElem_eq_getD 0).symm
  rw [pow_add, ← Nat.div_div_eq_div_mul, ← number_take, List.take_succ_eq_append_getElem hk,
    List.map_append, List.map_singleton, Radix.number_append, Radix.number_singleton,
    List.length_singleton, pow_one, hgetD]
  generalize Radix.number 256 ((l.take k).map UInt8.toNat) = front
  calc (front * 256 + (l[k]).toNat) / 2 ^ j
      = (2 ^ j * (front * 2 ^ (8 - j)) + (l[k]).toNat) / 2 ^ j := by
        conv_lhs => rw [hbyte]
        rw [← Nat.mul_assoc, Nat.mul_comm]
    _ = front * 2 ^ (8 - j) + (l[k]).toNat / 2 ^ j := Nat.mul_add_div hpos _ _

/-- A quotient and a remainder, each known from both. -/
theorem mul_add_inj {m x y r s : Nat} (hr : r < m) (hs : s < m) :
    x * m + r = y * m + s ↔ x = y ∧ r = s := by
  constructor
  · intro h
    have hpos : 0 < m := by omega
    have hdiv := congrArg (· / m) h
    rw [Nat.mul_comm, Nat.mul_add_div hpos, Nat.div_eq_of_lt hr, Nat.mul_comm, Nat.mul_add_div hpos,
      Nat.div_eq_of_lt hs, Nat.add_zero, Nat.add_zero] at hdiv
    subst hdiv
    exact ⟨rfl, Nat.add_left_cancel h⟩
  · rintro ⟨rfl, rfl⟩
    rfl

variable {subj net : IpAddr}

/-- **Comparing `len` bits is comparing quotients.** An address has the sixteen bytes of the
array, of which the family says how many count; the texts of bytes are cut down to those first.
Then the whole bytes are compared and what is left of the next one under a mask, which together
are the leading `len` bits, and these are the quotient by the weight of the bits behind them. -/
theorem prefixEq_iff (hsubj : subj.bytes.length = 16) (hnet : net.bytes.length = 16)
    (hfamily : subj.family = net.family) {len : Nat} (hlen : len ≤ net.widthBits) :
    prefixEq subj net len = true
      ↔ subj.value / 2 ^ (net.widthBits - len) = net.value / 2 ^ (net.widthBits - len) := by
  have hle := byteLen_le net
  rw [widthBits_eq] at hlen ⊢
  unfold IpAddr.value prefixEq
  rw [byteLen_congr hfamily]
  generalize net.byteLen = n at hle hlen
  dsimp only
  -- both texts of bytes are cut down to the address first
  have hfull : len / 8 ≤ n := by omega
  have htake : ∀ l : List UInt8, l.take (len / 8) = (l.take n).take (len / 8) := by
    intro l
    rw [List.take_take, Nat.min_eq_left hfull]
  have hs : (subj.bytes.take n).length = n := by
    rw [List.length_take, hsubj, Nat.min_eq_left hle]
  have ht : (net.bytes.take n).length = n := by
    rw [List.length_take, hnet, Nat.min_eq_left hle]
  have heq : ((subj.bytes.take n).take (len / 8)).length
      = ((net.bytes.take n).take (len / 8)).length := by
    simp only [List.length_take, hsubj, hnet]
  rw [Bool.and_eq_true, Bool.or_eq_true, htake subj.bytes, htake net.bytes, memcmp_eq_eq heq,
    decide_eq_true_iff, ← number_inj heq]
  by_cases hrem : len % 8 = 0
  · have hshift : 8 * n - len = 8 * (n - len / 8) := by omega
    rw [and_iff_left (Or.inl (beq_iff_eq.mpr hrem))]
    generalize subj.bytes.take n = s at hs
    generalize net.bytes.take n = t at ht
    rw [number_take, number_take, hs, ht, hshift]
  · have hlt : len / 8 < n := by omega
    have hgetD : ∀ l : List UInt8, l.getD (len / 8) 0 = (l.take n).getD (len / 8) 0 := by
      intro l
      rw [List.getD_eq_getElem?_getD, List.getD_eq_getElem?_getD, List.getElem?_take_of_lt hlt]
    have hshift : 8 * n - len = 8 * (n - (len / 8 + 1)) + (8 - len % 8) := by omega
    have hquot : ∀ c : UInt8, c.toNat / 2 ^ (8 - len % 8) < 2 ^ (8 - (8 - len % 8)) := by
      intro c
      rw [Nat.div_lt_iff_lt_mul (Nat.two_pow_pos _), ← pow_add,
        Nat.sub_add_cancel (Nat.sub_le 8 _)]
      exact c.toNat_lt
    rw [or_iff_right (fun h => hrem (beq_iff_eq.mp h)), and_mask_beq (Nat.sub_le 8 _), hshift,
      hgetD subj.bytes, hgetD net.bytes]
    generalize subj.bytes.take n = s at hs
    generalize net.bytes.take n = t at ht
    have hdiv := number_take_div s (hlt.trans_eq hs.symm) (Nat.sub_le 8 (len % 8))
    have hdiv' := number_take_div t (hlt.trans_eq ht.symm) (Nat.sub_le 8 (len % 8))
    rw [hs] at hdiv
    rw [ht] at hdiv'
    rw [hdiv, hdiv', mul_add_inj (hquot _) (hquot _)]

/-! ## Masks -/

/-- **Leading ones** are counted if nothing but zeros follows. From the front on: a one is
counted and the rest goes on, and at the first zero the rest has to be zeros; so the bits are so
many ones and then zeros, and there is no other count for them. -/
theorem leadingOnes_eq_some {bits : List Bool} {p : Nat} :
    leadingOnes bits = some p
      ↔ p ≤ bits.length
        ∧ bits = List.replicate p true ++ List.replicate (bits.length - p) false := by
  -- From the front on: a one is counted and the rest goes on, a zero asks for zeros only.
  induction bits generalizing p with
  | nil =>
    rw [leadingOnes, Option.some_inj, List.length_nil, Nat.le_zero]
    constructor
    · rintro rfl
      exact ⟨rfl, rfl⟩
    · exact fun h => h.1.symm
  | cons bit rest ih =>
    cases bit with
    | true =>
      rw [leadingOnes, Option.map_eq_some_iff]
      simp only [ih]
      constructor
      · rintro ⟨q, ⟨hle, hrest⟩, rfl⟩
        refine ⟨Nat.succ_le_succ hle, ?_⟩
        rw [List.length_cons, Nat.add_sub_add_right, List.replicate_succ]
        exact congrArg (true :: ·) hrest
      · rintro ⟨hle, hbits⟩
        cases p with
        | zero => cases hbits
        | succ p =>
          rw [List.length_cons, Nat.add_sub_add_right, List.replicate_succ] at hbits
          exact ⟨p, ⟨Nat.le_of_succ_le_succ hle, (List.cons.inj hbits).2⟩, rfl⟩
    | false =>
      rw [leadingOnes]
      constructor
      · intro h
        split at h
        · cases h
        · rename_i hnone
          cases h
          have hall : ∀ b ∈ rest, b = false := by
            intro b hb
            rw [← Bool.not_eq_true]
            exact fun hbit => hnone (List.any_eq_true.mpr ⟨b, hb, hbit⟩)
          exact ⟨Nat.zero_le _, congrArg (false :: ·) (List.eq_replicate_iff.mpr ⟨rfl, hall⟩)⟩
      · rintro ⟨hle, hbits⟩
        cases p with
        | succ p => cases hbits
        | zero =>
          have hrest : rest = List.replicate rest.length false := (List.cons.inj hbits).2
          rw [if_neg]
          rw [List.any_eq_true]
          rintro ⟨b, hb, hbit⟩
          rw [hrest] at hb
          obtain rfl := List.eq_of_mem_replicate hb
          cases hbit

/-- The bits of some bytes are the binary digits of their number. -/
theorem number_bitsOf (bytes : List UInt8) :
    Radix.number 2 ((bytes.flatMap bitsOf).map Bool.toNat)
      = Radix.number 256 (bytes.map UInt8.toNat) := by
  have hbits : (bytes.flatMap bitsOf).map Bool.toNat
      = (bytes.map UInt8.toNat).flatMap fun d =>
          (List.range 8).map fun i => (d.testBit (8 - 1 - i)).toNat := by
    rw [List.map_flatMap, List.flatMap_map]
    refine List.flatMap_congr fun byte _ => ?_
    rw [bitsOf, List.map_map]
    rfl
  rw [hbits, Radix.number_flatMap (k := 8)]
  · rfl
  · intro d _
    rw [List.length_map, List.length_range]
  · intro d hd
    rw [Radix.number_testBit]
    exact Nat.mod_eq_of_lt (forall_toNat_lt bytes d hd)

/-- **A mask is contiguous** if it is that number. -/
theorem leadingOnes_bitsOf {bytes : List UInt8} {p : Nat} :
    leadingOnes (bytes.flatMap bitsOf) = some p
      ↔ p ≤ 8 * bytes.length
        ∧ Radix.number 256 (bytes.map UInt8.toNat) = (2 ^ p - 1) * 2 ^ (8 * bytes.length - p) := by
  have hlen : (bytes.flatMap bitsOf).length = 8 * bytes.length := by
    have height : bytes.map (fun byte => (bitsOf byte).length) = bytes.map fun _ => 8 :=
      List.map_congr_left fun byte _ => by rw [bitsOf, List.length_map, List.length_range]
    rw [List.length_flatMap, height, List.map_const', List.sum_replicate_nat, Nat.mul_comm]
  have hlt : ∀ bits : List Bool, ∀ d ∈ bits.map Bool.toNat, d < 2 := by
    intro bits d hd
    obtain ⟨b, -, rfl⟩ := List.mem_map.mp hd
    exact b.toNat_lt
  rw [leadingOnes_eq_some, hlen]
  refine and_congr_right fun hp => ?_
  have hinj : Function.Injective (List.map Bool.toNat) :=
    List.map_injective_iff.mpr (by decide : Function.Injective Bool.toNat)
  have hwidth : (bytes.flatMap bitsOf).length
      = (List.replicate p true ++ List.replicate (8 * bytes.length - p) false).length := by
    rw [hlen, List.length_append, List.length_replicate, List.length_replicate,
      Nat.add_sub_cancel' hp]
  rw [← number_bitsOf, ← Radix.number_ones, ← hinj.eq_iff,
    ← Radix.number_inj (by omega) (by simpa using hwidth) (hlt _) (hlt _), List.map_append,
    List.map_replicate, List.map_replicate]
  rfl

/-! ## Suffixes -/

/-- **What the suffix of a pattern is read as** is what it denotes. -/
theorem prefixLength_eq_some (hvalid : net.valid = true) {suffix : Bytes} {p : Nat} :
    prefixLength net (trimBlanks suffix) = some p ↔ DenotesPrefix net suffix p := by
  unfold prefixLength DenotesPrefix
  dsimp only
  rw [parseIp_trimBlanks]
  -- A suffix that is an address is read as a mask; only one that is none is read as a decimal.
  split
  · rename_i hdotted
    rw [Bool.and_eq_true, beq_iff_eq] at hdotted
    obtain ⟨hdvalid, hfamily⟩ := hdotted
    have hlen : ((parseIp suffix).bytes.take (parseIp suffix).byteLen).length = net.byteLen := by
      rw [List.length_take, parseIp_length, Nat.min_eq_left (byteLen_le _), byteLen_congr hfamily]
    rw [leadingOnes_bitsOf, hlen, widthBits_eq]
    refine and_congr_right fun _ => ?_
    rw [or_iff_right, and_iff_right hfamily]
    · rfl
    · rintro ⟨-, hdigits, -⟩
      rw [parseIp_of_isDigit hdigits] at hdvalid
      cases hdvalid
  · rename_i hdotted
    rw [parseUint_eq_some, or_iff_left]
    · constructor
      · rintro ⟨hne, hdigits, hval, hle⟩
        exact ⟨hle, hne, hdigits, hval⟩
      · rintro ⟨hle, hne, hdigits, hval⟩
        exact ⟨hne, hdigits, hval, hle⟩
    · rintro ⟨hfamily, -⟩
      refine hdotted ?_
      rw [IpAddr.valid] at hvalid
      rw [IpAddr.valid, hfamily, hvalid]
      exact beq_self_eq_true _

/-- What the matcher does with a pattern that has a slash. -/
theorem matchIpMask_append {netText : Bytes} (hslash : 47 ∉ netText) (subject suffix : Bytes) :
    matchIpMask subject (netText ++ 47 :: suffix)
      = ((parseIp subject).valid && (parseIp netText).valid
          && (parseIp subject).family == (parseIp netText).family
          && (prefixLength (parseIp netText) (trimBlanks suffix)).any
              (prefixEq (parseIp subject) (parseIp netText))) := by
  have hdrop : (netText ++ 47 :: suffix).drop (netText.length + 1) = suffix := by
    rw [← List.singleton_append, ← List.append_assoc]
    exact List.drop_left' List.length_append
  unfold matchIpMask
  rw [find_append hslash]
  dsimp only
  rw [List.take_left, hdrop, parseIp_trimBlanks]
  generalize parseIp subject = subj
  generalize parseIp netText = net
  generalize prefixLength net (trimBlanks suffix) = len
  cases subj.valid <;> cases net.valid <;> cases hf : subj.family == net.family <;>
    cases len <;> simp_all

/-- **A subnet matches what is in it.** -/
theorem matchIpMask_append_iff {netText : Bytes} (hslash : 47 ∉ netText) (subject suffix : Bytes) :
    matchIpMask subject (netText ++ 47 :: suffix) = true
      ↔ ∃ p, DenotesPrefix (parseIp netText) suffix p
          ∧ InSubnet (parseIp subject) (parseIp netText) p := by
  rw [matchIpMask_append hslash, Bool.and_eq_true, Bool.and_eq_true, Bool.and_eq_true,
    Option.any_eq_true, beq_iff_eq]
  constructor
  · rintro ⟨⟨⟨hsubj, hnet⟩, hfamily⟩, p, hp, heq⟩
    have hdenotes := (prefixLength_eq_some hnet).mp hp
    refine ⟨p, hdenotes, hsubj, hnet, hfamily, ?_⟩
    exact (prefixEq_iff (parseIp_length _) (parseIp_length _) hfamily hdenotes.1).mp heq
  · rintro ⟨p, hdenotes, hsubj, hnet, hfamily, heq⟩
    refine ⟨⟨⟨hsubj, hnet⟩, hfamily⟩, p, (prefixLength_eq_some hnet).mpr hdenotes, ?_⟩
    exact (prefixEq_iff (parseIp_length _) (parseIp_length _) hfamily hdenotes.1).mpr heq

/-! ## Reads -/

/-- The bytes of an address can be read. -/
theorem bytesTo_eq_some {a : IpAddr} (ha : a.bytes.length = 16) {n : Nat} (hn : n ≤ a.byteLen) :
    a.bytesTo n = some (a.bytes.take n) := by
  induction n with
  | zero => rfl
  | succ n ih =>
    have hlt : n < a.bytes.length := by
      have := byteLen_le a
      omega
    have hbyte : a.byteAt n = some a.bytes[n] := by
      rw [IpAddr.byteAt, if_pos (Nat.lt_of_succ_le hn), List.getElem?_eq_getElem hlt]
    rw [IpAddr.bytesTo, ih (Nat.le_of_succ_le hn), hbyte, List.take_succ_eq_append_getElem hlt]
    rfl

/-- Comparing beginnings reads the bytes that are used. -/
theorem prefixEqReading_eq (hsubj : subj.bytes.length = 16) (hnet : net.bytes.length = 16)
    (hfamily : subj.family = net.family) {len : Nat} (hlen : len ≤ net.widthBits) :
    prefixEqReading subj net len = some (prefixEq subj net len) := by
  have hle := byteLen_le net
  have hbyteLen := byteLen_congr hfamily
  rw [widthBits_eq] at hlen
  unfold prefixEqReading prefixEq
  dsimp only
  rw [bytesTo_eq_some hsubj (by omega), bytesTo_eq_some hnet (by omega), Option.bind_eq_bind,
    Option.bind_some, Option.bind_some]
  by_cases hfront : memcmp (subj.bytes.take (len / 8)) (net.bytes.take (len / 8)) = .eq
  · rw [hfront, if_neg (by decide)]
    by_cases hrem : len % 8 = 0
    · rw [hrem]
      rfl
    · have hlt : len / 8 < net.byteLen := by omega
      have hbyte : ∀ a : IpAddr, a.bytes.length = 16 → a.byteLen = net.byteLen →
          a.byteAt (len / 8) = some (a.bytes.getD (len / 8) 0) := by
        intro a ha hwidth
        rw [IpAddr.byteAt, if_pos (hlt.trans_eq hwidth.symm), List.getElem?_eq_getElem (by omega),
          List.getElem_eq_getD 0]
      rw [if_neg (by simpa using hrem), hbyte subj hsubj hbyteLen, hbyte net hnet rfl]
      simp [hrem]
  · rw [if_pos (by simpa using hfront)]
    simp [hfront]

/-- So does reading a mask. -/
theorem prefixLengthReading_eq (net : IpAddr) (suffix : Bytes) :
    prefixLengthReading net suffix = some (prefixLength net suffix) := by
  unfold prefixLengthReading prefixLength
  dsimp only
  split
  · rw [bytesTo_eq_some (parseIp_length suffix) le_rfl]
    rfl
  · rfl

/-- **No byte outside of an address is read.** -/
theorem matchIpMaskReading_eq (subject pattern : Bytes) :
    matchIpMaskReading subject pattern = some (matchIpMask subject pattern) := by
  unfold matchIpMaskReading matchIpMask
  cases find pattern 47 0 with
  | none => rfl
  | some slash =>
    dsimp only
    generalize trimBlanks (pattern.take slash) = netText
    generalize pattern.drop (slash + 1) = suffix
    split
    · rfl
    · rename_i hsame
      simp only [Bool.or_eq_true, Bool.not_eq_true', not_or, bne_iff_ne, ne_eq, not_not,
        Bool.not_eq_false] at hsame
      obtain ⟨⟨hsubj, hnet⟩, hfamily⟩ := hsame
      rw [prefixLengthReading_eq, Option.bind_eq_bind, Option.bind_some]
      cases hlen : prefixLength (parseIp netText) (trimBlanks suffix) with
      | none => rfl
      | some len =>
        exact prefixEqReading_eq (parseIp_length _) (parseIp_length _) hfamily
          ((prefixLength_eq_some hnet).mp hlen).1

/-! ## The matcher -/

/-- **`match_ip_mask` matches subnets.** -/
theorem matchIpMask_matchesSubnets (subject : Bytes) : MatchesSubnets subject where
  prefixes := by
    intro pattern
    constructor
    · intro h
      obtain ⟨-, hnone⟩ | ⟨netText, suffix, rfl, hslash, -⟩ := find_cases pattern 47
      · unfold matchIpMask at h
        rw [hnone] at h
        cases h
      · obtain ⟨p, hp⟩ := (matchIpMask_append_iff hslash subject suffix).mp h
        exact ⟨netText, suffix, p, rfl, hslash, hp⟩
    · rintro ⟨netText, suffix, p, rfl, hslash, hp⟩
      exact (matchIpMask_append_iff hslash subject suffix).mpr ⟨p, hp⟩
  spellings := by
    intro netText suffix suffix' p hslash hsuffix hsuffix'
    rw [matchIpMask_append hslash, matchIpMask_append hslash]
    cases hnet : (parseIp netText).valid with
    | false => rw [Bool.and_false, Bool.false_and, Bool.false_and, Bool.false_and]
    | true =>
      rw [(prefixLength_eq_some hnet).mpr hsuffix, (prefixLength_eq_some hnet).mpr hsuffix']
  reads := matchIpMaskReading_eq subject

/-- A suffix for sixteen bits. -/
theorem denotesPrefix_sixteen {suffix : Bytes}
    (h : prefixLength (parseIp (txt "10.1.0.0")) (trimBlanks suffix) = some 16) :
    DenotesPrefix (parseIp (txt "10.1.0.0")) suffix 16 :=
  (prefixLength_eq_some (by decide)).mp h

/-- An address of `10.1.0.0/16`, which is `10.1.0.0/255.255.0.0`, too. -/
theorem matchIpMask_matchesSubnets_sixteen :
    matchIpMask (txt "10.1.2.3") (txt "10.1.0.0" ++ 47 :: txt "16") = true
      ∧ matchIpMask (txt "10.1.2.3") (txt "10.1.0.0" ++ 47 :: txt "16")
        = matchIpMask (txt "10.1.2.3") (txt "10.1.0.0" ++ 47 :: txt " 255.255.0.0") :=
  have h16 : DenotesPrefix _ (txt "16") 16 := denotesPrefix_sixteen (by decide)
  have hmask : DenotesPrefix _ (txt " 255.255.0.0") 16 := denotesPrefix_sixteen (by decide)
  ⟨((matchIpMask_matchesSubnets _).prefixes _).mpr
      ⟨txt "10.1.0.0", txt "16", 16, rfl, by decide, h16, by unfold InSubnet; decide⟩,
    (matchIpMask_matchesSubnets _).spellings _ _ _ 16 (by decide) h16 hmask⟩

end Matchers

end Hmr
