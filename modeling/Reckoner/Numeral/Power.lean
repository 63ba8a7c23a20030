import Reckoner.Numeral.Sum
import Reckoner.Numeral.Quotient

namespace Reckoner
namespace Numeral

theorem ofDigits_eq_zero {ds : List Nat} (h : weigh ds = 0) : ofDigits ds = zero := by
  have zeros : trim ds = [] := by
    induction ds with
    | nil => rfl
    | cons d ds ih =>
      simp only [weigh] at h
      have tail := ih (by omega)
      have head : d = 0 := by omega
      simp only [trim, tail, head, if_pos]
  simp only [ofDigits, zeros, zero]

/-- The measure that halving lowers: the value, and then whether the numeral is
the one normal form of zero. -/
def halvings (n : Numeral) : Nat := if n.isZero then 0 else 2 * n.value + 1

theorem halvings_halved {n : Numeral} (nonzero : n.isZero = false) :
    n.halved.halvings < n.halvings := by
  simp only [halvings, nonzero]
  by_cases h : n.value = 0
  · have half : n.halved.isZero = true := by
      have v : weigh (halfDigits n.digits).1 = 0 := by
        have := weigh_halfDigits n.digits
        simp only [value] at h
        omega
      rw [halved, ofDigits_eq_zero v]
      decide
    simp [half]
  · have v := value_halved n
    simp only [Bool.false_eq_true, if_false]
    split <;> omega

def powBySquaring (base exponent : Numeral) (limit : DigitLimit) : Except NumberError Numeral :=
  if _ : exponent.isZero then .ok one
  else if exponent.isOne then .ok base
  else
    match mul base base limit with
    | .error e => .error e
    | .ok squared =>
      match powBySquaring squared exponent.halved limit with
      | .error e => .error e
      | .ok rest => if exponent.isEven then .ok rest else mul base rest limit
termination_by exponent.halvings
decreasing_by exact halvings_halved (Bool.eq_false_iff.mpr ‹_›)

/-- A first power, and any positive power of zero or one, is the base as it
stands. -/
def pow (base exponent : Numeral) (limit : DigitLimit) : Except NumberError Numeral :=
  if exponent.isZero then .ok one
  else if exponent.isOne || base.isZero || base.isOne then .ok base
  else powBySquaring base exponent limit

end Numeral
end Reckoner
