import Mathlib.Algebra.Group.Nat.Defs
import Mathlib.Data.Nat.Log
import Reckoner.Numeral.Power
import Reckoner.Proofs.Numeral.Decimal

namespace Reckoner

/-- How many digits a number has in decimal; zero has one. -/
def decimalLength (n : Nat) : Nat := Nat.log 10 n + 1

theorem decimalLength_le_iff {n k : Nat} (positive : 0 < k) : decimalLength n ≤ k ↔ n < 10 ^ k := by
  unfold decimalLength
  by_cases zero : n = 0
  · subst zero
    have power : 0 < 10 ^ k := Nat.pow_pos (by decide)
    simp only [Nat.log_zero_right, power, iff_true]
    exact positive
  · exact Nat.log_lt_iff_lt_pow (by decide) zero

theorem lt_decimalLength_iff {n k : Nat} (nonzero : n ≠ 0) : k < decimalLength n ↔ 10 ^ k ≤ n := by
  unfold decimalLength
  rw [Nat.lt_succ_iff]
  exact Nat.le_log_iff_pow_le (by decide) nonzero

theorem decimalLength_mono {n m : Nat} (h : n ≤ m) : decimalLength n ≤ decimalLength m :=
  Nat.succ_le_succ (Nat.log_mono_right h)

namespace Numeral

theorem digits_cons {d : Nat} {ds : List Nat} :
    (∀ e ∈ d :: ds, e ≤ 9) ↔ d ≤ 9 ∧ ∀ e ∈ ds, e ≤ 9 := List.forall_mem_cons

theorem weigh_lt {ds : List Nat} (h : ∀ d ∈ ds, d ≤ 9) : weigh ds < 10 ^ ds.length := by
  induction ds with
  | nil => exact Nat.one_pos
  | cons d ds ih =>
    obtain ⟨head, rest⟩ := digits_cons.mp h
    have tail := ih rest
    have power : 10 ^ (d :: ds).length = 10 * 10 ^ ds.length := Nat.pow_succ'
    unfold weigh
    omega

theorem le_weigh {ds : List Nat} {d : Nat} (last : ds.getLast? = some d) (nonzero : d ≠ 0) :
    10 ^ (ds.length - 1) ≤ weigh ds := by
  induction ds with
  | nil => cases last
  | cons e ds ih =>
    cases ds with
    | nil =>
      have here : e = d := Option.some.inj last
      simp only [List.length_singleton, weigh]
      omega
    | cons f ds =>
      have above := ih (List.getLast?_cons_cons.symm.trans last)
      have power : 10 ^ ((e :: f :: ds).length - 1) = 10 * 10 ^ ((f :: ds).length - 1) := Nat.pow_succ'
      rw [weigh, power]
      omega

theorem eq_of_weigh_eq {as bs : List Nat} (same : as.length = bs.length) (ha : ∀ d ∈ as, d ≤ 9)
    (hb : ∀ d ∈ bs, d ≤ 9) (h : weigh as = weigh bs) : as = bs := by
  induction as generalizing bs with
  | nil => exact (List.length_eq_zero_iff.mp same.symm).symm
  | cons a as ih =>
    cases bs with
    | nil => cases same
    | cons b bs =>
      obtain ⟨low, rest⟩ := digits_cons.mp ha
      obtain ⟨low', rest'⟩ := digits_cons.mp hb
      unfold weigh at h
      have above := ih (Nat.succ.inj same) rest rest' (by omega)
      have first : a = b := by omega
      rw [first, above]

theorem compare_digit {a b x y : Nat} (ha : a ≤ 9) (hb : b ≤ 9) :
    compare (a + 10 * x) (b + 10 * y) = (compare x y).then (compare a b) := by
  rcases Nat.lt_trichotomy x y with less | same | more
  · have whole : a + 10 * x < b + 10 * y := by omega
    simp [Nat.compare_eq_lt.mpr less, Nat.compare_eq_lt.mpr whole]
  · subst same
    have high : compare x x = .eq := Nat.compare_eq_eq.mpr rfl
    simp only [high, Ordering.eq_then, Nat.compare_eq_ite_lt]
    have less : a + 10 * x < b + 10 * x ↔ a < b := by omega
    have more : b + 10 * x < a + 10 * x ↔ b < a := by omega
    simp only [less, more]
  · have whole : b + 10 * y < a + 10 * x := by omega
    simp [Nat.compare_eq_gt.mpr more, Nat.compare_eq_gt.mpr whole]

theorem compareDigits_eq {as bs : List Nat} (same : as.length = bs.length) (ha : ∀ d ∈ as, d ≤ 9)
    (hb : ∀ d ∈ bs, d ≤ 9) : compareDigits as bs = compare (weigh as) (weigh bs) := by
  induction as generalizing bs with
  | nil =>
    cases bs with
    | nil => rfl
    | cons b bs => cases same
  | cons a as ih =>
    cases bs with
    | nil => cases same
    | cons b bs =>
      obtain ⟨low, rest⟩ := digits_cons.mp ha
      obtain ⟨low', rest'⟩ := digits_cons.mp hb
      have above := ih (Nat.succ.inj same) rest rest'
      simp only [compareDigits, weigh, compare_digit low low', above]

variable {a b n : Numeral}

theorem Normal.digitCount_pos (h : n.Normal) : 0 < n.digitCount := List.length_pos_iff.mpr h.1

theorem Normal.value_lt (h : n.Normal) : n.value < 10 ^ n.digitCount := weigh_lt h.2.1

theorem Normal.le_value (h : n.Normal) (nonzero : n.value ≠ 0) :
    10 ^ (n.digitCount - 1) ≤ n.value := by
  obtain ⟨digits⟩ := n
  obtain ⟨nonempty, _, leading⟩ := h
  have last := List.getLast?_eq_some_getLast nonempty
  by_cases high : digits.getLast nonempty = 0
  · rw [high] at last
    have short : ¬ 1 < digits.length := fun several => leading several last
    match digits with
    | [] => exact absurd rfl nonempty
    | [d] => exact absurd (congrArg (· + 10 * 0) high) nonzero
    | d :: e :: ds => exact absurd (Nat.succ_lt_succ (Nat.succ_pos _)) short
  · exact le_weigh last high

theorem Normal.digitCount_eq (h : n.Normal) : n.digitCount = decimalLength n.value := by
  by_cases zero : n.value = 0
  · have same : n = Numeral.zero := (ofDigits_digits h).symm.trans (ofDigits_eq_zero zero)
    subst same
    rfl
  · have most := (decimalLength_le_iff h.digitCount_pos).mpr h.value_lt
    have least := (lt_decimalLength_iff zero).mpr (h.le_value zero)
    omega

theorem digitCount_le_of_value_le (ha : a.Normal) (hb : b.Normal) (h : a.value ≤ b.value) :
    a.digitCount ≤ b.digitCount := by
  rw [ha.digitCount_eq, hb.digitCount_eq]
  exact decimalLength_mono h

theorem value_lt_of_digitCount_lt (ha : a.Normal) (hb : b.Normal) (shorter : a.digitCount < b.digitCount) :
    a.value < b.value := by
  apply Nat.lt_of_not_le
  intro more
  have longer := digitCount_le_of_value_le hb ha more
  omega

theorem eq_of_value_eq (ha : a.Normal) (hb : b.Normal) (h : a.value = b.value) : a = b := by
  have lengths : a.digitCount = b.digitCount := by rw [ha.digitCount_eq, hb.digitCount_eq, h]
  have digits : a.digits = b.digits := eq_of_weigh_eq lengths ha.2.1 hb.2.1 h
  cases a
  cases b
  exact congrArg Numeral.mk digits

theorem order_eq (ha : a.Normal) (hb : b.Normal) : order a b = compare a.value b.value := by
  unfold order
  rcases Nat.lt_trichotomy a.digitCount b.digitCount with shorter | same | longer
  · have less := value_lt_of_digitCount_lt ha hb shorter
    simp [Nat.compare_eq_lt.mpr shorter, Nat.compare_eq_lt.mpr less]
  · have lengths : compare a.digitCount b.digitCount = .eq := Nat.compare_eq_eq.mpr same
    simp only [lengths, Ordering.eq_then]
    exact compareDigits_eq same ha.2.1 hb.2.1
  · have more := value_lt_of_digitCount_lt hb ha longer
    simp [Nat.compare_eq_gt.mpr longer, Nat.compare_eq_gt.mpr more]

theorem lt_iff (ha : a.Normal) (hb : b.Normal) : a.lt b = true ↔ a.value < b.value := by
  simp [lt, order_eq ha hb, Ordering.isLT_iff_eq_lt, Nat.compare_eq_lt]

theorem le_iff (ha : a.Normal) (hb : b.Normal) : a.le b = true ↔ a.value ≤ b.value := by
  simp [le, order_eq ha hb, Nat.isLE_compare]

instance (n : Numeral) : Decidable n.Normal :=
  inferInstanceAs (Decidable (n.digits ≠ [] ∧ (∀ d ∈ n.digits, d ≤ 9) ∧
    (1 < n.digits.length → n.digits.getLast? ≠ some 0)))

theorem normal_zero : zero.Normal := by decide

theorem normal_one : one.Normal := by decide

theorem digits_eq_iff (ha : a.Normal) (hb : b.Normal) : a.digits = b.digits ↔ a.value = b.value := by
  constructor
  · exact fun digits => congrArg weigh digits
  · exact fun value => congrArg Numeral.digits (eq_of_value_eq ha hb value)

theorem isZero_iff (h : n.Normal) : n.isZero = true ↔ n.value = 0 :=
  beq_iff_eq.trans (digits_eq_iff h normal_zero)

theorem isOne_iff (h : n.Normal) : n.isOne = true ↔ n.value = 1 :=
  beq_iff_eq.trans (digits_eq_iff h normal_one)

theorem isEven_iff (n : Numeral) : n.isEven = true ↔ n.value % 2 = 0 := by
  have split := weigh_head_tail n.digits
  unfold isEven value
  rw [beq_iff_eq]
  omega

end Numeral
end Reckoner
