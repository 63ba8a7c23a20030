import Reckoner.Proofs.Numeral.Limit

namespace Reckoner
namespace Numeral

/-- The length that is reported of a product that is too long. -/
def reportedLength (limit : DigitLimit) (a b : Numeral) : Nat :=
  let shortest := a.digitCount + b.digitCount - 1
  if limit.count < shortest then shortest else decimalLength (a.value * b.value)

variable {limit : DigitLimit} {a b : Numeral}

theorem product_comm (ha : a.Normal) (hb : b.Normal) : product a b = product b a := by
  apply eq_of_value_eq (normal_product ha hb) (normal_product hb ha)
  rw [value_product, value_product, Nat.mul_comm]

theorem within_product (ha : a.Normal) (hb : b.Normal) :
    (product a b).within limit =
      if decimalLength (a.value * b.value) ≤ limit.count then .ok (product a b)
      else .error (.tooManyDigits (decimalLength (a.value * b.value)) limit.count) := by
  rw [within_eq (normal_product ha hb), value_product]

theorem mul_eq (ha : a.Normal) (hb : b.Normal) :
    a.mul b limit =
      if decimalLength (a.value * b.value) ≤ limit.count then .ok (product a b)
      else .error (.tooManyDigits (reportedLength limit a b) limit.count) := by
  unfold mul
  split
  · next zero =>
    simp only [Bool.or_eq_true, isZero_iff ha, isZero_iff hb] at zero
    have nothing : a.value * b.value = 0 := Nat.mul_eq_zero.mpr zero
    have same : product a b = Numeral.zero := by
      apply eq_of_value_eq (normal_product ha hb) normal_zero
      rw [value_product, nothing]
      rfl
    have short : decimalLength (a.value * b.value) ≤ limit.count := nothing ▸ limit.positive
    rw [if_pos short, same]
  · next nonzero =>
    simp only [Bool.or_eq_true, isZero_iff ha, isZero_iff hb, ← Nat.mul_eq_zero] at nonzero
    have least := shortest_le_decimalLength ha hb nonzero
    unfold reportedLength
    dsimp only
    split
    · next allowed =>
      rw [DigitLimit.allows_iff] at allowed
      rw [if_neg (Nat.not_lt_of_le allowed), within_product ha hb]
    · next beyond =>
      rw [DigitLimit.allows_iff] at beyond
      have long : ¬ decimalLength (a.value * b.value) ≤ limit.count := by omega
      rw [if_neg long, if_pos (Nat.lt_of_not_le beyond)]

theorem reportedLength_comm (limit : DigitLimit) (a b : Numeral) :
    reportedLength limit a b = reportedLength limit b a := by
  unfold reportedLength
  rw [Nat.add_comm, Nat.mul_comm]

theorem reportedLength_bounds (ha : a.Normal) (hb : b.Normal)
    (beyond : limit.count < decimalLength (a.value * b.value)) :
    limit.count < reportedLength limit a b ∧
      reportedLength limit a b ≤ decimalLength (a.value * b.value) := by
  -- a product that is too long is not zero, so its factors do not come to less than their lengths
  have nonzero : a.value * b.value ≠ 0 := by
    intro zero
    rw [zero] at beyond
    exact absurd limit.positive (Nat.not_lt_of_le (Nat.le_of_lt_succ beyond))
  have least := shortest_le_decimalLength ha hb nonzero
  unfold reportedLength
  dsimp only
  split
  · next long => exact ⟨long, least⟩
  · exact ⟨beyond, Nat.le_refl _⟩

/-- A product comes out exactly when it fits, and then it is the product; it is refused with the
length that its factors come to at least, where that is beyond the limit already, and with its
own length otherwise. Leaving out the comparison of the factors' lengths would let the same
products through, and the order of the factors does not matter. -/
theorem product_exact (ha : a.Normal) (hb : b.Normal) (limit : DigitLimit) :
    (∀ c, a.mul b limit = .ok c → c.Normal ∧ c.value = a.value * b.value) ∧
      ((∃ c, a.mul b limit = .ok c) ↔ decimalLength (a.value * b.value) ≤ limit.count) ∧
      (limit.count < decimalLength (a.value * b.value) →
        a.mul b limit = .error (.tooManyDigits (reportedLength limit a b) limit.count) ∧
          limit.count < reportedLength limit a b ∧
          reportedLength limit a b ≤ decimalLength (a.value * b.value)) ∧
      (∀ c, a.mul b limit = .ok c ↔ (product a b).within limit = .ok c) ∧
      a.mul b limit = b.mul a limit := by
  have swapped : a.mul b limit = b.mul a limit := by
    rw [mul_eq ha hb, mul_eq hb ha, product_comm ha hb, reportedLength_comm, Nat.mul_comm]
  refine ⟨?_, ?_, ?_, ?_, swapped⟩
  · intro c multiplied
    obtain ⟨normal, value, _⟩ := result_of_mul ha hb multiplied
    exact ⟨normal, value⟩
  · rw [mul_eq ha hb]
    split
    · next fits => exact ⟨fun _ => fits, fun _ => ⟨_, rfl⟩⟩
    · next beyond =>
      constructor
      · rintro ⟨c, impossible⟩
        cases impossible
      · exact fun fits => absurd fits beyond
  · intro beyond
    refine ⟨?_, reportedLength_bounds ha hb beyond⟩
    rw [mul_eq ha hb, if_neg (Nat.not_le_of_lt beyond)]
  · intro c
    rw [mul_eq ha hb, within_product ha hb]
    split
    · exact Iff.rfl
    · constructor
      · rintro ⟨⟩
      · rintro ⟨⟩

/-- 999 times 99 has one digit more than the lengths of its factors promise. -/
theorem product_exact_too_long :
    let a : Numeral := ⟨[9, 9, 9]⟩
    let b : Numeral := ⟨[9, 9]⟩
    let limit : DigitLimit := ⟨4, by decide⟩
    a.Normal ∧ b.Normal ∧ limit.count < decimalLength (a.value * b.value) ∧
      limit.count < reportedLength limit a b ∧ reportedLength limit a b ≤ decimalLength (a.value * b.value) ∧
      b.mul a limit = .error (.tooManyDigits 5 4) := by
  intro a b limit
  have ha : a.Normal := by decide
  have hb : b.Normal := by decide
  have beyond : limit.count < decimalLength (a.value * b.value) :=
    (lt_decimalLength_iff (by decide)).mpr (by decide)
  have forward : a.mul b limit = .error (.tooManyDigits 5 4) := by decide +kernel
  obtain ⟨_, _, refused, _, swapped⟩ := product_exact ha hb limit
  obtain ⟨_, above, most⟩ := refused beyond
  exact ⟨ha, hb, beyond, above, most, swapped.symm.trans forward⟩

end Numeral
end Reckoner
