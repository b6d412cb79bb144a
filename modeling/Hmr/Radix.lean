import Mathlib.Data.Nat.Digits.Lemmas
import Mathlib.Order.Compare

/-!
# Numbers written from the left

A number in some base, written with its highest digit first, as a list of digits. This is
the order of bytes in an address and of bits in a byte, and the other way round from
`Nat.ofDigits`.

What makes this order of the digits a good one is that the first digits are a quotient
(`Radix.number_take`), and that numbers of one length compare like their digits
(`Radix.compare_number_cons`), the first ones first. So two numbers agree in their first
digits exactly if their quotients are equal, and the digits can be compared from the front
on, with the first difference deciding.

Each digit can be written in a smaller base, of which the base is a power, without
changing the number (`Radix.number_flatMap`). In this way the bits of bytes are the bits
of a number.
-/

namespace Radix

/-- **The number written with these digits**, the highest one first. -/
def number (b : ℕ) (l : List ℕ) : ℕ := Nat.ofDigits b l.reverse

variable {b d e : ℕ} {l m : List ℕ}

/-- No digits are zero. -/
@[simp] theorem number_nil : number b [] = 0 := rfl

/-- The first digit is worth most. -/
@[simp] theorem number_cons : number b (d :: l) = d * b ^ l.length + number b l := by
  rw [number, Nat.ofDigits_reverse_cons, ← number]
  ring

/-- One digit is itself. -/
@[simp] theorem number_singleton : number b [d] = d := by
  rw [number_cons, List.length_nil, pow_zero, mul_one, number_nil, add_zero]

/-- **Digits in front are worth a power of the base each.** -/
@[simp] theorem number_append : number b (l ++ m) = number b l * b ^ m.length + number b m := by
  rw [number, List.reverse_append, Nat.ofDigits_append, List.length_reverse, ← number, ← number]
  ring

/-- **A number is below the power of the base that its length is.** -/
theorem number_lt (hb : 1 < b) (hl : ∀ d ∈ l, d < b) : number b l < b ^ l.length := by
  rw [number, ← List.length_reverse]
  exact Nat.ofDigits_lt_base_pow_length hb fun d hd => hl d (List.mem_reverse.mp hd)

/-- **The first digits are a quotient.** -/
theorem number_take (hb : 1 < b) (hl : ∀ d ∈ l, d < b) (k : ℕ) :
    number b (l.take k) = number b l / b ^ (l.length - k) := by
  have hrest : number b (l.drop k) < b ^ (l.length - k) := by
    rw [← List.length_drop]
    exact number_lt hb fun d hd => hl d (List.mem_of_mem_drop hd)
  have hsplit : number b l = number b (l.take k) * b ^ (l.length - k) + number b (l.drop k) := by
    rw [← List.length_drop, ← number_append, List.take_append_drop]
  have hpos : 0 < b ^ (l.length - k) := Nat.pow_pos (by omega)
  rw [hsplit, Nat.add_comm, Nat.add_mul_div_right _ _ hpos, Nat.div_eq_of_lt hrest, Nat.zero_add]

/-- **A number of some length determines its digits.** -/
theorem number_inj (hb : 1 < b) (hlen : l.length = m.length) (hl : ∀ d ∈ l, d < b)
    (hm : ∀ d ∈ m, d < b) : number b l = number b m ↔ l = m := by
  constructor
  · intro h
    refine List.reverse_injective (Nat.ofDigits_inj_of_len_eq hb (by simpa using hlen) ?_ ?_ h)
    · exact fun d hd => hl d (List.mem_reverse.mp hd)
    · exact fun d hd => hm d (List.mem_reverse.mp hd)
  · rintro rfl
    rfl

/-- **Numbers of one length compare like their digits**, the first ones first. -/
theorem compare_number_cons (hb : 1 < b) (hlen : l.length = m.length) (hl : ∀ d ∈ l, d < b)
    (hm : ∀ d ∈ m, d < b) :
    compare (number b (d :: l)) (number b (e :: m))
      = (compare d e).then (compare (number b l) (number b m)) := by
  have hl' := number_lt hb hl
  have hm' := number_lt hb hm
  rw [number_cons, number_cons, ← hlen]
  rw [← hlen] at hm'
  -- Where the first digits differ, the rest is below the power of the base that one of them
  -- makes up for.
  obtain h | rfl | h := lt_trichotomy d e
  · have hstep : (d + 1) * b ^ l.length ≤ e * b ^ l.length := Nat.mul_le_mul_right _ h
    rw [compare_lt_iff_lt.mpr h]
    refine compare_lt_iff_lt.mpr ?_
    rw [add_mul, one_mul] at hstep
    omega
  · rw [compare_eq_iff_eq.mpr rfl]
    show compare _ _ = compare _ _
    obtain h | h | h := lt_trichotomy (number b l) (number b m)
    · rw [compare_lt_iff_lt.mpr h, compare_lt_iff_lt.mpr (by omega)]
    · rw [h, compare_eq_iff_eq.mpr rfl, compare_eq_iff_eq.mpr rfl]
    · rw [compare_gt_iff_gt.mpr h, compare_gt_iff_gt.mpr (by omega)]
  · have hstep : (e + 1) * b ^ l.length ≤ d * b ^ l.length := Nat.mul_le_mul_right _ h
    rw [compare_gt_iff_gt.mpr h]
    refine compare_gt_iff_gt.mpr ?_
    rw [add_mul, one_mul] at hstep
    omega

/-- **A digit of a higher base is as many digits of a lower one.** -/
theorem number_flatMap {k : ℕ} {f : ℕ → List ℕ} (hlen : ∀ d ∈ l, (f d).length = k)
    (hf : ∀ d ∈ l, number b (f d) = d) : number b (l.flatMap f) = number (b ^ k) l := by
  induction l with
  | nil => rfl
  | cons d l ih =>
    rw [List.forall_mem_cons] at hlen hf
    have hwidth : (l.flatMap f).length = k * l.length := by
      rw [List.length_flatMap, List.map_congr_left hlen.2, List.map_const', List.sum_replicate_nat,
        Nat.mul_comm]
    rw [List.flatMap_cons, number_append, number_cons, hf.1, ih hlen.2 hf.2, hwidth, pow_mul]

/-- **Ones in front of zeros.** -/
theorem number_ones (p z : ℕ) :
    number 2 (List.replicate p 1 ++ List.replicate z 0) = (2 ^ p - 1) * 2 ^ z := by
  have hzeros : number 2 (List.replicate z 0) = 0 := by
    rw [number, List.reverse_replicate, Nat.ofDigits_replicate_zero]
  have hones : number 2 (List.replicate p 1) + 1 = 2 ^ p := by
    induction p with
    | zero => rfl
    | succ p ih =>
      rw [List.replicate_succ, number_cons, List.length_replicate, pow_succ]
      omega
  rw [number_append, hzeros, List.length_replicate, Nat.add_zero, ← hones, Nat.add_sub_cancel]

/-- **The bits of a number**, the highest of `n` first. -/
theorem number_testBit (x n : ℕ) :
    number 2 ((List.range n).map fun i => (x.testBit (n - 1 - i)).toNat) = x % 2 ^ n := by
  -- The highest bit is the first digit, and is cut off by the remainder.
  induction n with
  | zero => rw [pow_zero, Nat.mod_one, List.range_zero, List.map_nil, number_nil]
  | succ n ih =>
    have hrest : ∀ i, n + 1 - 1 - (i + 1) = n - 1 - i := by omega
    rw [List.range_succ_eq_map, List.map_cons, number_cons, List.map_map, List.length_map,
      List.length_range, Nat.mod_pow_succ, ← Nat.toNat_testBit, ← ih, Nat.add_comm, Nat.mul_comm]
    simp only [Function.comp_def, Nat.succ_eq_add_one, hrest]
    rfl

end Radix
