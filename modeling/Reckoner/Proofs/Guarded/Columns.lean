import Reckoner.Proofs.Guarded.Loops

namespace Reckoner.Guarded
open Numeral (weigh)

variable {a b n : Numeral}

/- Sums. -/

/-- `i` columns are written, with one left to carry at most, and come to `total`. -/
structure Carried (total i : Nat) (columns : Columns) : Prop where
  length : columns.1.length = i
  digits : ∀ d ∈ columns.1, d ≤ 9
  carry : columns.2 ≤ 1
  total : weigh columns.1 + 10 ^ i * columns.2 = total

theorem carried_nil : Carried 0 0 ([], 0) :=
  ⟨rfl, fun _ member => absurd member List.not_mem_nil, Nat.zero_le 1, rfl⟩

theorem Carried.column {total i c : Nat} {columns : Columns} (h : Carried total i columns)
    (small : c ≤ 18) : Carried (total + 10 ^ i * c) (i + 1)
      (columns.1 ++ [(c + columns.2) % 10], (c + columns.2) / 10) := by
  have carry := h.carry
  refine ⟨?_, ?_, ?_, ?_⟩
  · simp [h.length]
  · exact concat_le h.digits (by omega)
  · dsimp only
    omega
  · have column : 10 ^ i * ((c + columns.2) % 10) + 10 ^ (i + 1) * ((c + columns.2) / 10) =
        10 ^ i * c + 10 ^ i * columns.2 := by
      rw [Nat.pow_succ, Nat.mul_assoc, ← Nat.mul_add, Nat.mod_add_div, Nat.mul_add]
    have total := h.total
    dsimp only
    rw [weigh_concat, h.length]
    omega

theorem Carried.close {total i : Nat} {columns : Columns} (h : Carried total i columns) :
    (∀ d ∈ columns.close, d ≤ 9) ∧ weigh columns.close = total := by
  have total := h.total
  have carry := h.carry
  unfold Columns.close
  split
  · rw [weigh_concat, h.length]
    refine ⟨?_, total⟩
    exact concat_le h.digits (by omega)
  · next nothing =>
    have nothing : columns.2 = 0 := Decidable.of_not_not nothing
    rw [nothing] at total
    exact ⟨h.digits, total⟩

theorem Carried.sumColumn {i : Nat} {columns : Columns} (ha : a.Normal) (hb : b.Normal)
    (h : Carried (weigh (a.digits.take i) + weigh (b.digits.take i)) i columns) :
    ∃ later, sumColumn a b columns i = .ok later ∧
      Carried (weigh (a.digits.take (i + 1)) + weigh (b.digits.take (i + 1))) (i + 1) later := by
  have da := digitAt_le ha i
  have db := digitAt_le hb i
  have carry := h.carry
  have used : weigh (a.digits.take (i + 1)) + weigh (b.digits.take (i + 1)) =
      weigh (a.digits.take i) + weigh (b.digits.take i) + 10 ^ i * (digitAt a i + digitAt b i) := by
    unfold digitAt
    rw [weigh_take_succ, weigh_take_succ, Nat.mul_add]
    omega
  unfold Guarded.sumColumn
  rw [byte_ok (by omega), ok_bind, byte_ok (by omega), ok_bind, used]
  exact ⟨_, rfl, h.column (by omega)⟩

theorem sum_ok (ha : a.Normal) (hb : b.Normal) : sum a b = .ok (Numeral.sum a b) := by
  obtain ⟨columns, run, carried⟩ := foldlM_range (max a.digitCount b.digitCount) (f := sumColumn a b)
    (P := fun i columns => Carried (weigh (a.digits.take i) + weigh (b.digits.take i)) i columns)
    carried_nil fun _ _ kept => kept.sumColumn ha hb
  have wa : a.digits.take (max a.digitCount b.digitCount) = a.digits :=
    List.take_of_length_le (Nat.le_max_left ..)
  have wb : b.digits.take (max a.digitCount b.digitCount) = b.digits :=
    List.take_of_length_le (Nat.le_max_right ..)
  rw [wa, wb] at carried
  obtain ⟨digits, total⟩ := carried.close
  unfold sum
  rw [run, ok_bind]
  apply congrArg Except.ok
  exact eq_ofDigits digits (Numeral.normal_sum ha hb) (total.trans (Numeral.value_sum a b).symm)

theorem add_ok (ha : a.Normal) (hb : b.Normal) (limit : DigitLimit) :
    add a b limit = .ok (a.add b limit) := by
  unfold add
  rw [sum_ok ha hb]
  rfl

/- Differences. -/

structure Borrowed (a b : Numeral) (i : Nat) (columns : Columns) : Prop where
  length : columns.1.length = i
  digits : ∀ d ∈ columns.1, d ≤ 9
  borrow : columns.2 ≤ 1
  total : weigh columns.1 + weigh (b.digits.take i) = weigh (a.digits.take i) + 10 ^ i * columns.2

theorem Borrowed.column {i : Nat} {columns : Columns} (ha : a.Normal) (hb : b.Normal)
    (h : Borrowed a b i columns) :
    ∃ later, differenceColumn a b columns i = .ok later ∧ Borrowed a b (i + 1) later := by
  have da := digitAt_le ha i
  have db := digitAt_le hb i
  have borrow := h.borrow
  have total := h.total
  have upper : weigh (a.digits.take (i + 1)) = weigh (a.digits.take i) + 10 ^ i * digitAt a i :=
    weigh_take_succ a.digits i
  have lower : weigh (b.digits.take (i + 1)) = weigh (b.digits.take i) + 10 ^ i * digitAt b i :=
    weigh_take_succ b.digits i
  have ends {d later : Nat} (small : d ≤ 9) (flag : later ≤ 1)
      (value : d + digitAt b i + columns.2 = digitAt a i + 10 * later) :
      Borrowed a b (i + 1) (columns.1 ++ [d], later) := by
    refine ⟨?_, ?_, flag, ?_⟩
    · simp [h.length]
    · exact concat_le h.digits small
    · have column := congrArg (10 ^ i * ·) value
      simp only [Nat.mul_add] at column
      dsimp only
      rw [weigh_concat, h.length, upper, lower, Nat.pow_succ, Nat.mul_assoc]
      omega
  unfold differenceColumn
  rw [byte_ok (by omega), ok_bind, minus_ok (by omega), ok_bind, minus_ok (by omega), ok_bind]
  by_cases spare : 10 ≤ digitAt a i + 10 - digitAt b i - columns.2
  · rw [if_pos spare, minus_ok spare, ok_bind]
    exact ⟨_, rfl, ends (by omega) (Nat.zero_le 1) (by omega)⟩
  · rw [if_neg spare]
    exact ⟨_, rfl, ends (by omega) (Nat.le_refl 1) (by omega)⟩

theorem difference_ok (ha : a.Normal) (hb : b.Normal) (h : b.value ≤ a.value) :
    difference a b = .ok (Numeral.difference a b) := by
  have first : Borrowed a b 0 ([], 0) :=
    ⟨rfl, fun _ member => absurd member List.not_mem_nil, Nat.zero_le 1, rfl⟩
  obtain ⟨columns, run, borrowed⟩ := foldlM_range a.digitCount (f := differenceColumn a b) first
    fun _ _ kept => kept.column ha hb
  have shorter : b.digitCount ≤ a.digitCount := by
    apply Nat.le_of_not_lt
    intro longer
    have larger := Numeral.value_lt_of_digitCount_lt ha hb longer
    omega
  have total := borrowed.total
  have wa : a.digits.take a.digitCount = a.digits := List.take_length
  have wb : b.digits.take a.digitCount = b.digits := List.take_of_length_le shorter
  rw [wa, wb] at total
  change weigh columns.1 + b.value = a.value + 10 ^ a.digitCount * columns.2 at total
  -- a last borrow would be more than all columns together can hold
  have below := Numeral.weigh_lt borrowed.digits
  rw [borrowed.length] at below
  have returned : columns.2 = 0 := by
    rcases Nat.le_one_iff_eq_zero_or_eq_one.mp borrowed.borrow with zero | one
    · exact zero
    · rw [one] at total
      omega
  rw [returned] at total
  unfold difference
  rw [run, ok_bind, check_ok (by rw [returned]; rfl), ok_bind]
  apply congrArg Except.ok
  apply eq_ofDigits borrowed.digits (Numeral.normal_difference ha hb h)
  rw [Numeral.value_difference ha hb h]
  omega

theorem sub_ok (ha : a.Normal) (hb : b.Normal) : sub a b = .ok (a.sub b) := by
  unfold sub Numeral.sub
  split
  · rw [text_ok ha, text_ok hb]
    rfl
  · next more =>
    rw [Numeral.lt_iff ha hb] at more
    rw [difference_ok ha hb (Nat.le_of_not_lt more)]
    rfl

end Reckoner.Guarded
