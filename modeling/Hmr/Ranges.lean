import Hmr.Subnets

/-!
# Ranges, subnets and single addresses

There are three ways to write a set of addresses down, and three pieces of code that
compare: whole addresses with `memcmp`, against two bounds with `memcmp` again, and the
first bits under a mask. All three are about one number, the value of the address. A range
is an interval of values, a subnet is an interval too – of the numbers with one quotient
(`Nat.div_eq_iff`) – and a subnet of all the bits is one number.

So a pattern of one kind can be written as one of another kind, and the matchers are to
agree on them. They do, for all texts (`Matchers.matchers_agree`): what a text is read as
is settled first, and from there on it is arithmetic. Where a text is no address, none of
the matchers matches, and where the families differ none does either.

The prefix lengths are read by a function of their own, which gives up on a number before
it gets too large; what it gives up on is no prefix length.
-/

namespace Hmr

namespace Matchers

variable {subj net lo hi : IpAddr}

/-- **The subject is between two addresses.** -/
def InRange (subj lo hi : IpAddr) : Prop :=
  subj.valid = true ∧ lo.family = subj.family ∧ hi.family = subj.family
    ∧ lo.value ≤ subj.value ∧ subj.value ≤ hi.value

/-- **The first and the last address of a subnet.** -/
def IsBlock (net : IpAddr) (p : Nat) (lo hi : IpAddr) : Prop :=
  lo.family = net.family ∧ hi.family = net.family
    ∧ lo.value = net.value / 2 ^ (net.widthBits - p) * 2 ^ (net.widthBits - p)
    ∧ hi.value = lo.value + (2 ^ (net.widthBits - p) - 1)

/-- **The three matchers agree**, for one subject. -/
structure MatchersAgree (subject : Bytes) : Prop where
  /-- A range is an interval. -/
  range : ∀ lo hi, 45 ∉ lo → (matchIpRange subject (lo ++ 45 :: hi) = true
    ↔ InRange (parseIp subject) (parseIp lo) (parseIp hi))
  /-- A subnet is the range from its first address to its last. -/
  block : ∀ net suffix lo hi p, 47 ∉ net → 45 ∉ lo → (parseIp net).valid = true →
    DenotesPrefix (parseIp net) suffix p → IsBlock (parseIp net) p (parseIp lo) (parseIp hi) →
    matchIpRange subject (lo ++ 45 :: hi) = matchIpMask subject (net ++ 47 :: suffix)
  /-- A range from an address to itself is the address. -/
  singleRange : ∀ net, 45 ∉ net →
    matchIpRange subject (net ++ 45 :: net) = matchIp subject net
  /-- A subnet of all the bits is its address. -/
  singleMask : ∀ net suffix, 47 ∉ net → (parseIp net).valid = true →
    DenotesPrefix (parseIp net) suffix (parseIp net).widthBits →
    matchIpMask subject (net ++ 47 :: suffix) = matchIp subject net

/-! ## Comparing addresses -/

/-- **`addr_cmp` compares addresses of one family as numbers.** -/
theorem addrCmp_eq_compare {a b : IpAddr} (ha : a.bytes.length = 16) (hb : b.bytes.length = 16)
    (hfamily : a.family = b.family) : addrCmp a b = compare a.value b.value := by
  have hlen : (a.bytes.take a.byteLen).length = (b.bytes.take a.byteLen).length := by
    rw [List.length_take, List.length_take, ha, hb]
  rw [addrCmp, memcmp_eq_compare hlen, IpAddr.value, IpAddr.value, byteLen_congr hfamily]

/-- Equality of addresses. -/
theorem matchIp_iff {subject pattern : Bytes} :
    matchIp subject pattern = true
      ↔ (parseIp subject).valid = true ∧ (parseIp pattern).family = (parseIp subject).family
        ∧ (parseIp subject).value = (parseIp pattern).value := by
  unfold matchIp
  dsimp only
  rw [Bool.and_eq_true, Bool.and_eq_true, Bool.and_eq_true, beq_iff_eq, beq_iff_eq]
  constructor
  · rintro ⟨⟨⟨hsubj, -⟩, hfamily⟩, hcmp⟩
    rw [addrCmp_eq_compare (parseIp_length _) (parseIp_length _) hfamily,
      compare_eq_iff_eq] at hcmp
    exact ⟨hsubj, hfamily.symm, hcmp⟩
  · rintro ⟨hsubj, hfamily, hval⟩
    refine ⟨⟨⟨hsubj, ?_⟩, hfamily.symm⟩, ?_⟩
    · rw [IpAddr.valid, hfamily]
      exact hsubj
    · rw [addrCmp_eq_compare (parseIp_length _) (parseIp_length _) hfamily.symm,
        compare_eq_iff_eq]
      exact hval

/-! ## Ranges -/

/-- **A range matches what is between its ends.** -/
theorem matchIpRange_append_iff {lo : Bytes} (hdash : 45 ∉ lo) (subject hi : Bytes) :
    matchIpRange subject (lo ++ 45 :: hi) = true
      ↔ InRange (parseIp subject) (parseIp lo) (parseIp hi) := by
  -- The first dash is the one between the ends.
  have hdrop : (lo ++ 45 :: hi).drop (lo.length + 1) = hi := by
    rw [← List.singleton_append, ← List.append_assoc]
    exact List.drop_left' List.length_append
  unfold matchIpRange InRange
  rw [find_append hdash]
  dsimp only
  rw [List.take_left, hdrop, parseIp_trimBlanks, parseIp_trimBlanks]
  simp only [Bool.and_eq_true, beq_iff_eq, bne_iff_ne]
  constructor
  · rintro ⟨⟨⟨⟨⟨⟨-, -⟩, hsubj⟩, hends⟩, hfamily⟩, hlo⟩, hhi⟩
    rw [addrCmp_eq_compare (parseIp_length _) (parseIp_length _) hfamily.symm,
      compare_ge_iff_ge] at hlo
    rw [addrCmp_eq_compare (parseIp_length _) (parseIp_length _) (hfamily.symm.trans hends),
      compare_le_iff_le] at hhi
    exact ⟨hsubj, hfamily, hends.symm.trans hfamily, hlo, hhi⟩
  · rintro ⟨hsubj, hlofamily, hhifamily, hlo, hhi⟩
    have hvalid : ∀ a : IpAddr, a.family = (parseIp subject).family → a.valid = true := by
      intro a ha
      rw [IpAddr.valid, ha]
      exact hsubj
    refine ⟨⟨⟨⟨⟨⟨hvalid _ hlofamily, hvalid _ hhifamily⟩, hsubj⟩,
      hlofamily.trans hhifamily.symm⟩, hlofamily⟩, ?_⟩, ?_⟩
    · rw [addrCmp_eq_compare (parseIp_length _) (parseIp_length _) hlofamily.symm,
        compare_ge_iff_ge]
      exact hlo
    · rw [addrCmp_eq_compare (parseIp_length _) (parseIp_length _) hhifamily.symm,
        compare_le_iff_le]
      exact hhi

/-! ## Blocks -/

/-- **A subnet is an interval.** -/
theorem inRange_iff_inSubnet {p : Nat} (hnet : net.valid = true) (hblock : IsBlock net p lo hi) :
    InRange subj lo hi ↔ InSubnet subj net p := by
  obtain ⟨hlo, hhi, hfirst, hlast⟩ := hblock
  have hpos : 0 < 2 ^ (net.widthBits - p) := Nat.two_pow_pos _
  unfold InRange InSubnet
  rw [hlast, hfirst, hlo, hhi, Nat.div_eq_iff hpos]
  constructor
  · rintro ⟨hsubj, hfamily, -, hle, hle'⟩
    exact ⟨hsubj, hnet, hfamily.symm, hle, by omega⟩
  · rintro ⟨hsubj, -, hfamily, hle, hle'⟩
    exact ⟨hsubj, hfamily.symm, hfamily.symm, hle, by omega⟩

/-- A subnet of which the prefix length is known. -/
theorem matchIpMask_iff_of_denotes {net suffix : Bytes} (hslash : 47 ∉ net)
    (hnet : (parseIp net).valid = true) {p : Nat} (hp : DenotesPrefix (parseIp net) suffix p)
    (subject : Bytes) :
    matchIpMask subject (net ++ 47 :: suffix) = true
      ↔ InSubnet (parseIp subject) (parseIp net) p := by
  rw [matchIpMask_append_iff hslash]
  constructor
  · rintro ⟨p', hp', hin⟩
    have hsame := (prefixLength_eq_some hnet).mpr hp'
    rw [(prefixLength_eq_some hnet).mpr hp] at hsame
    cases hsame
    exact hin
  · exact fun hin => ⟨p, hp, hin⟩

/-- **The three matchers describe the same sets of addresses.** -/
theorem matchers_agree (subject : Bytes) : MatchersAgree subject where
  range := fun lo hi hdash => matchIpRange_append_iff hdash subject hi
  block := by
    intro net suffix lo hi p hslash hdash hnet hp hblock
    rw [Bool.eq_iff_iff, matchIpRange_append_iff hdash, inRange_iff_inSubnet hnet hblock,
      matchIpMask_iff_of_denotes hslash hnet hp]
  singleRange := by
    intro net hdash
    -- An interval with one value in it is that value.
    rw [Bool.eq_iff_iff, matchIpRange_append_iff hdash, matchIp_iff, InRange]
    constructor
    · rintro ⟨hsubj, hfamily, -, hle, hge⟩
      exact ⟨hsubj, hfamily, le_antisymm hge hle⟩
    · rintro ⟨hsubj, hfamily, hval⟩
      exact ⟨hsubj, hfamily, hfamily, hval.ge, hval.le⟩
  singleMask := by
    intro net suffix hslash hnet hp
    rw [Bool.eq_iff_iff, matchIpMask_iff_of_denotes hslash hnet hp, matchIp_iff, InSubnet,
      Nat.sub_self, pow_zero, Nat.div_one, Nat.div_one, and_iff_right hnet,
      @eq_comm _ (parseIp subject).family]

/-- The sixteen bits of `10.1.0.0/16` are a range, and the thirty-two bits of an address are
the address. -/
theorem matchers_agree_sixteen :
    matchIpRange (txt "10.1.2.3") (txt "10.1.0.0" ++ 45 :: txt "10.1.255.255")
        = matchIpMask (txt "10.1.2.3") (txt "10.1.0.0" ++ 47 :: txt "16")
      ∧ matchIpMask (txt "10.1.2.3") (txt "10.1.2.3" ++ 47 :: txt "32")
        = matchIp (txt "10.1.2.3") (txt "10.1.2.3") :=
  ⟨(matchers_agree _).block _ _ _ _ 16 (by decide) (by decide) (by decide)
      (denotesPrefix_sixteen (by decide)) (by unfold IsBlock; decide),
    (matchers_agree _).singleMask _ _ (by decide) (by decide)
      ((prefixLength_eq_some (by decide)).mp (by decide))⟩

end Matchers

end Hmr
