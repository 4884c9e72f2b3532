import Mathlib.Tactic.Ring
import ShardedQuery.Number.Binary64

/-!
# Rounding keeps the order

An integer beyond 53 bits is rounded when it becomes a double.  Rounding may make integers equal,
but never turns their order around.

* `Binary64.shiftRightToEven_mono`, `Binary64.magnitudeOfNat_mono` — rounding natural numbers.
* `Binary64.rank_ofInt_mono` — **integers in order have doubles in order**.
* `Binary64.rank_ofInt_eq_zero_iff`, `Binary64.rank_ofInt_ne` — only zero becomes a zero, and never
  minus zero.
* `Binary64.rank_injective`, `Binary64.rank_le_of_value_le` — the total order tells all doubles
  apart, and the numeric order differs from it at the two zeros only.
-/

namespace ShardedQuery.Binary64

/-! ### Natural numbers -/

theorem shiftRightToEven_cases (m shift : Nat) :
    (shiftRightToEven m shift = m / 2 ^ shift ∧
        (2 * (m % 2 ^ shift) < 2 ^ shift ∨
          2 * (m % 2 ^ shift) = 2 ^ shift ∧ m / 2 ^ shift % 2 = 0)) ∨
      (shiftRightToEven m shift = m / 2 ^ shift + 1 ∧
        (2 ^ shift < 2 * (m % 2 ^ shift) ∨
          2 * (m % 2 ^ shift) = 2 ^ shift ∧ m / 2 ^ shift % 2 = 1)) := by
  unfold shiftRightToEven
  simp only [Nat.one_shiftLeft, Bool.or_eq_true, Bool.and_eq_true, decide_eq_true_eq, beq_iff_eq]
  split
  · right
    omega
  · left
    omega

/-- A quotient that is rounded to the nearest integer grows with its numerator. -/
theorem shiftRightToEven_mono {m n : Nat} (h : m ≤ n) (shift : Nat) :
    shiftRightToEven m shift ≤ shiftRightToEven n shift := by
  have hm := Nat.div_add_mod m (2 ^ shift)
  have hn := Nat.div_add_mod n (2 ^ shift)
  have hdiv : m / 2 ^ shift ≤ n / 2 ^ shift := Nat.div_le_div_right h
  rcases Nat.lt_or_eq_of_le hdiv with hlt | heq
  · rcases shiftRightToEven_cases m shift with ⟨hm', -⟩ | ⟨hm', -⟩ <;>
      rcases shiftRightToEven_cases n shift with ⟨hn', -⟩ | ⟨hn', -⟩ <;> omega
  · -- the quotients are equal, so the remainders decide
    rw [heq] at hm
    rcases shiftRightToEven_cases m shift with ⟨hm', -⟩ | ⟨hm', hup⟩ <;>
      rcases shiftRightToEven_cases n shift with ⟨hn', hdown⟩ | ⟨hn', -⟩ <;> omega

/-- The leading 53 bits of a positive number, rounded, with zeros after a shorter one. -/
def significand (m : Nat) : Nat :=
  if m.log2 ≤ 52 then m <<< (52 - m.log2) else shiftRightToEven m (m.log2 - 52)

theorem magnitudeOfNat_eq {m : Nat} (h : m ≠ 0) :
    magnitudeOfNat m = (m.log2 + 1022) * leadingBit + significand m := by
  unfold magnitudeOfNat significand
  rw [if_neg h]

/-- The significand has its leading bit, and a carry brings it to the next power of two at most. -/
theorem significand_bounds {m : Nat} (h : m ≠ 0) :
    leadingBit ≤ significand m ∧ significand m ≤ 2 * leadingBit := by
  have hlow : 2 ^ m.log2 ≤ m := Nat.log2_self_le h
  have hhigh : m < 2 ^ (m.log2 + 1) := Nat.lt_log2_self
  have hlead : leadingBit = 2 ^ 52 := rfl
  unfold significand
  split
  · rename_i hshort
    have hsplit : 2 ^ 52 = 2 ^ m.log2 * 2 ^ (52 - m.log2) := by
      rw [← pow_add]
      congr 1
      omega
    rw [Nat.shiftLeft_eq, hlead, hsplit]
    constructor
    · exact Nat.mul_le_mul_right _ hlow
    · calc m * 2 ^ (52 - m.log2) ≤ 2 ^ (m.log2 + 1) * 2 ^ (52 - m.log2) :=
            Nat.mul_le_mul_right _ hhigh.le
        _ = 2 * (2 ^ m.log2 * 2 ^ (52 - m.log2)) := by ring
  · rename_i hlong
    have hsplit : 2 ^ m.log2 = 2 ^ 52 * 2 ^ (m.log2 - 52) := by
      rw [← pow_add]
      congr 1
      omega
    have hpos : 0 < 2 ^ (m.log2 - 52) := Nat.two_pow_pos _
    have hquotient : 2 ^ 52 ≤ m / 2 ^ (m.log2 - 52) := by
      rw [Nat.le_div_iff_mul_le hpos, ← hsplit]
      exact hlow
    have hquotient' : m / 2 ^ (m.log2 - 52) < 2 * 2 ^ 52 := by
      rw [Nat.div_lt_iff_lt_mul hpos, Nat.mul_assoc, ← hsplit, ← pow_succ']
      exact hhigh
    rw [hlead]
    rcases shiftRightToEven_cases m (m.log2 - 52) with ⟨hround, -⟩ | ⟨hround, -⟩ <;>
      rw [hround] <;> omega

theorem significand_mono {m n : Nat} (h : m ≤ n) (hlog : m.log2 = n.log2) :
    significand m ≤ significand n := by
  unfold significand
  rw [hlog]
  split
  · rw [Nat.shiftLeft_eq, Nat.shiftLeft_eq]
    exact Nat.mul_le_mul_right _ h
  · exact shiftRightToEven_mono h _

theorem magnitudeOfNat_pos {m : Nat} (h : m ≠ 0) : 0 < magnitudeOfNat m := by
  have hlead : 0 < leadingBit := by decide
  rw [magnitudeOfNat_eq h]
  have := (significand_bounds h).1
  omega

/-- **A larger natural number never has a smaller magnitude.** -/
theorem magnitudeOfNat_mono {m n : Nat} (h : m ≤ n) : magnitudeOfNat m ≤ magnitudeOfNat n := by
  by_cases hm : m = 0
  · rw [hm]
    exact Nat.zero_le _
  · have hn : n ≠ 0 := by omega
    rw [magnitudeOfNat_eq hm, magnitudeOfNat_eq hn]
    have hlog : m.log2 ≤ n.log2 := (Nat.le_log2 hn).mpr ((Nat.log2_self_le hm).trans h)
    rcases Nat.lt_or_eq_of_le hlog with hlt | heq
    · -- a carry of the smaller one reaches the next exponent at most
      have hcarry := (significand_bounds hm).2
      have hlead := (significand_bounds hn).1
      have hexponent : (m.log2 + 1022 + 1) * leadingBit ≤ (n.log2 + 1022) * leadingBit :=
        Nat.mul_le_mul_right leadingBit (by omega)
      rw [Nat.succ_mul] at hexponent
      omega
    · rw [heq]
      exact Nat.add_le_add_left (significand_mono h heq) _

/-! ### The parts of a double -/

theorem toNat_bits_ofMagnitude (negative : Bool) (m : Nat) :
    (ofMagnitude negative m).bits.toNat = (if negative then signBit else 0) + min m infinity := by
  have hmin : min m infinity ≤ infinity := Nat.min_le_right _ _
  unfold ofMagnitude
  rw [UInt64.toNat_ofNat']
  refine Nat.mod_eq_of_lt ?_
  cases negative <;> simp only [signBit, infinity] at hmin ⊢ <;> grind

theorem magnitude_ofMagnitude (negative : Bool) (m : Nat) :
    (ofMagnitude negative m).magnitude = min m infinity := by
  have hmin : min m infinity ≤ infinity := Nat.min_le_right _ _
  unfold magnitude
  rw [toNat_bits_ofMagnitude]
  have hsmall : min m infinity < signBit := Nat.lt_of_le_of_lt hmin (by decide)
  cases negative with
  | true => rw [if_pos rfl, Nat.add_mod_left, Nat.mod_eq_of_lt hsmall]
  | false => rw [if_neg Bool.false_ne_true, Nat.zero_add, Nat.mod_eq_of_lt hsmall]

theorem isNegative_ofMagnitude (negative : Bool) (m : Nat) :
    (ofMagnitude negative m).isNegative = negative := by
  have hmin : min m infinity ≤ infinity := Nat.min_le_right _ _
  have hsmall : min m infinity < signBit := Nat.lt_of_le_of_lt hmin (by decide)
  unfold isNegative
  rw [toNat_bits_ofMagnitude]
  cases negative with
  | true => simp
  | false =>
    rw [if_neg Bool.false_ne_true, Nat.zero_add]
    exact decide_eq_false (Nat.not_le.mpr hsmall)

/-! ### Integers -/

theorem rank_ofInt (n : Int) :
    (ofInt n).rank =
      if n < 0 then -((min (magnitudeOfNat n.natAbs) infinity : Nat) : Int) - 1
      else ((min (magnitudeOfNat n.natAbs) infinity : Nat) : Int) := by
  unfold rank ofInt
  rw [isNegative_ofMagnitude, magnitude_ofMagnitude]
  simp only [decide_eq_true_eq]

/-- **Rounding never turns the order of two integers around.** -/
theorem rank_ofInt_mono {m n : Int} (h : m ≤ n) : (ofInt m).rank ≤ (ofInt n).rank := by
  rw [rank_ofInt, rank_ofInt]
  by_cases hm : m < 0
  · by_cases hn : n < 0
    · have hmagnitude := magnitudeOfNat_mono (show n.natAbs ≤ m.natAbs by omega)
      rw [if_pos hm, if_pos hn]
      omega
    · rw [if_pos hm, if_neg hn]
      omega
  · have hn : ¬ n < 0 := by omega
    have hmagnitude := magnitudeOfNat_mono (show m.natAbs ≤ n.natAbs by omega)
    rw [if_neg hm, if_neg hn]
    omega

/-- Only zero becomes a zero. -/
theorem rank_ofInt_eq_zero_iff {n : Int} : (ofInt n).rank = 0 ↔ n = 0 := by
  constructor
  · intro h
    by_contra hne
    have hpos := magnitudeOfNat_pos (show n.natAbs ≠ 0 by omega)
    have hinfinity : 0 < infinity := by decide
    rw [rank_ofInt] at h
    split at h <;> omega
  · rintro rfl
    rfl

/-- No integer becomes minus zero. -/
theorem rank_ofInt_ne (n : Int) : (ofInt n).rank ≠ -1 := by
  rw [rank_ofInt]
  split
  · rename_i hneg
    have hpos := magnitudeOfNat_pos (show n.natAbs ≠ 0 by omega)
    have hinfinity : 0 < infinity := by decide
    omega
  · omega

/-! ### The two orders of doubles -/

/-- **The total order tells all doubles apart.** -/
theorem rank_injective {x y : Binary64} (h : x.rank = y.rank) : x = y := by
  have hx : x.bits.toNat < 2 ^ 64 := x.bits.toNat_lt
  have hy : y.bits.toNat < 2 ^ 64 := y.bits.toNat_lt
  have hsign : signBit = 2 ^ 63 := rfl
  have hbits : x.bits.toNat = y.bits.toNat := by
    simp only [rank, isNegative, magnitude, decide_eq_true_eq] at h
    rw [hsign] at h
    split at h <;> split at h <;> omega
  cases x
  cases y
  simpa [UInt64.toNat_inj] using hbits

/-- The numeric order agrees with the total one, but for the two zeros. -/
theorem rank_le_of_value_le {x y : Binary64} (h : x.value ≤ y.value) :
    x.rank ≤ y.rank ∨ x.rank = 0 ∧ y.rank = -1 := by
  unfold value at h
  unfold rank
  cases hx : x.isNegative <;> cases hy : y.isNegative <;>
    simp only [hx, hy, if_true, Bool.false_eq_true, if_false] at h ⊢ <;> omega

/-- The zeros are the only two numbers that are equal without being the same. -/
theorem value_eq_zero_iff {x : Binary64} : x.value = 0 ↔ x.rank = 0 ∨ x.rank = -1 := by
  unfold value rank
  cases x.isNegative <;> simp only [if_true, Bool.false_eq_true, if_false] <;> omega

theorem value_le_of_rank_le {x y : Binary64} (h : x.rank ≤ y.rank) : x.value ≤ y.value := by
  unfold rank at h
  unfold value
  cases hx : x.isNegative <;> cases hy : y.isNegative <;>
    simp only [hx, hy, if_true, Bool.false_eq_true, if_false] at h ⊢ <;> omega

end ShardedQuery.Binary64
