import Reckoner.Numeral.Difference

namespace Reckoner
namespace Numeral

/-- How often the divisor can be taken away, and what is left. The count of tries is
one more than a quotient digit needs, so it is the comparison that ends the loop. -/
def takeAway (divisor : Numeral) : Nat → Numeral → Nat × Numeral
  | 0, rest => (0, rest)
  | tries + 1, rest =>
    if divisor.le rest then
      let (count, left) := takeAway divisor tries (difference rest divisor)
      (count + 1, left)
    else (0, rest)

def divideDigit (divisor : Numeral) (d : Nat) (sofar : List Nat × Numeral) : List Nat × Numeral :=
  let (count, left) := takeAway divisor 10 (sofar.2.shiftIn [d])
  (count :: sofar.1, left)

def divRem (a b : Numeral) : Except NumberError (Numeral × Numeral) :=
  if b.isZero then .error (.divisionByZero a.text)
  else if a.lt b then .ok (zero, a)
  else
    let (quotient, rest) := a.digits.foldr (divideDigit b) ([], zero)
    .ok (ofDigits quotient, rest)

def floorDiv (a b : Numeral) : Except NumberError Numeral := (divRem a b).map Prod.fst

def rem (a b : Numeral) : Except NumberError Numeral := (divRem a b).map Prod.snd

def halfDigits : List Nat → List Nat × Nat
  | [] => ([], 0)
  | d :: ds =>
    let (halves, carry) := halfDigits ds
    ((carry * 10 + d) / 2 :: halves, (carry * 10 + d) % 2)

def halved (n : Numeral) : Numeral := ofDigits (halfDigits n.digits).1

theorem weigh_halfDigits (ds : List Nat) :
    weigh ds = 2 * weigh (halfDigits ds).1 + (halfDigits ds).2 ∧ (halfDigits ds).2 < 2 := by
  induction ds with
  | nil => exact ⟨rfl, by decide⟩
  | cons d ds ih => simp only [halfDigits, weigh]; omega

@[simp] theorem value_halved (n : Numeral) : n.halved.value = n.value / 2 := by
  have h := weigh_halfDigits n.digits
  simp only [value, halved, weigh_ofDigits]
  omega

end Numeral
end Reckoner
