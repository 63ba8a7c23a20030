import Reckoner.Proofs.Numeral.Notation

namespace Reckoner
namespace Numeral

variable {limit : DigitLimit} {a b c : Numeral}

theorem add_eq (ha : a.Normal) (hb : b.Normal) :
    a.add b limit =
      if decimalLength (a.value + b.value) ≤ limit.count then .ok (sum a b)
      else .error (.tooManyDigits (decimalLength (a.value + b.value)) limit.count) := by
  rw [add, within_eq (normal_sum ha hb), value_sum]

theorem difference_length_le (ha : a.Normal) (hb : b.Normal) (enough : b.value ≤ a.value) :
    (difference a b).digitCount ≤ a.digitCount := by
  apply digitCount_le_of_value_le (normal_difference ha hb enough) ha
  rw [value_difference ha hb enough]
  exact Nat.sub_le _ _

theorem difference_sum (ha : a.Normal) (hb : b.Normal) : difference (sum a b) b = a := by
  have enough : b.value ≤ (sum a b).value := by
    rw [value_sum]
    exact Nat.le_add_left _ _
  apply eq_of_value_eq (normal_difference (normal_sum ha hb) hb enough) ha
  rw [value_difference (normal_sum ha hb) hb enough, value_sum, Nat.add_sub_cancel]

theorem sub_of_add (ha : a.Normal) (hb : b.Normal) (added : a.add b limit = .ok c) : c.sub b = .ok a := by
  rw [add_eq ha hb] at added
  split at added
  · cases added
    have enough : b.value ≤ (sum a b).value := by
      rw [value_sum]
      exact Nat.le_add_left _ _
    rw [sub_eq (normal_sum ha hb) hb, if_pos enough, difference_sum ha hb]
  · cases added

/-- Numerals are added and taken from each other as the numbers that they stand for. A sum comes
out exactly when it fits, and the report of one that does not gives its length; a difference comes
out exactly when it is not negative, no longer than the first numeral, and otherwise the report
names both numbers. What has been added can be taken away again. -/
theorem addition_exact (ha : a.Normal) (hb : b.Normal) (limit : DigitLimit) :
    (decimalLength (a.value + b.value) ≤ limit.count →
      ∃ c, a.add b limit = .ok c ∧ c.Normal ∧ c.value = a.value + b.value) ∧
    (limit.count < decimalLength (a.value + b.value) →
      a.add b limit = .error (.tooManyDigits (decimalLength (a.value + b.value)) limit.count)) ∧
    (b.value ≤ a.value →
      ∃ c, a.sub b = .ok c ∧ c.Normal ∧ c.value = a.value - b.value ∧ c.digitCount ≤ a.digitCount) ∧
    (a.value < b.value →
      a.sub b = .error (.negative a.text b.text) ∧ a.text = a.value.repr ∧ b.text = b.value.repr) ∧
    ∀ c, a.add b limit = .ok c → c.sub b = .ok a := by
  refine ⟨?_, ?_, ?_, ?_, fun c added => sub_of_add ha hb added⟩
  · intro fits
    refine ⟨sum a b, ?_, normal_sum ha hb, value_sum a b⟩
    rw [add_eq ha hb, if_pos fits]
  · intro beyond
    rw [add_eq ha hb, if_neg (Nat.not_le_of_lt beyond)]
  · intro enough
    refine ⟨difference a b, ?_, normal_difference ha hb enough, value_difference ha hb enough,
      difference_length_le ha hb enough⟩
    rw [sub_eq ha hb, if_pos enough]
  · intro less
    refine ⟨?_, text_eq_repr ha, text_eq_repr hb⟩
    rw [sub_eq ha hb, if_neg (Nat.not_le_of_lt less)]

theorem addition_exact_carried :
    let a : Numeral := ⟨[1]⟩
    let b : Numeral := ⟨[9, 9, 9]⟩
    let limit : DigitLimit := ⟨4, by decide⟩
    a.Normal ∧ b.Normal ∧
      (∃ c, a.add b limit = .ok c ∧ c.Normal ∧ c.value = 1000) ∧
      a.add b ⟨3, by decide⟩ = .error (.tooManyDigits 4 3) ∧
      a.sub b = .error (.negative "1" "999") ∧
      (⟨[0, 0, 0, 1]⟩ : Numeral).sub b = .ok a := by
  intro a b limit
  have ha : a.Normal := by decide
  have hb : b.Normal := by decide
  have four : decimalLength (a.value + b.value) = 4 := by decide +kernel
  have added : a.add b limit = .ok ⟨[0, 0, 0, 1]⟩ := by decide +kernel
  obtain ⟨fits, _, _, negative, back⟩ := addition_exact ha hb limit
  have refused := (addition_exact ha hb ⟨3, by decide⟩).2.1
  rw [four] at refused
  exact ⟨ha, hb, fits (Nat.le_of_eq four), refused (by decide), (negative (by decide)).1, back _ added⟩

end Numeral
end Reckoner
