import Reckoner.Numeral.Sum
import Reckoner.Numeral.Difference

namespace Reckoner
namespace Numeral

/-- Pairs of a digit and the next more significant one; an odd last digit is paired
with zero. -/
def pairs : List Nat → List (Nat × Nat)
  | [] => []
  | [d] => [(d, 0)]
  | d :: e :: ds => (d, e) :: pairs ds

def greatest (fits : Nat → Bool) : Nat → Nat
  | 0 => 0
  | d + 1 => if fits (d + 1) then d + 1 else greatest fits d

/-- What a next root digit `d` takes from the remainder when the digits found so far
come to half of `doubled`. -/
def trial (doubled : Numeral) (d : Nat) : Numeral := (doubled.shiftIn [d]).timesDigit d

def rootDigit (pair : Nat × Nat) (sofar : List Nat × Numeral) : List Nat × Numeral :=
  let rest := sofar.2.shiftIn [pair.1, pair.2]
  let doubled := ofDigits (row 2 sofar.1 [] 0)
  let d := greatest (fun d => (trial doubled d).le rest) 9
  (d :: sofar.1, difference rest (trial doubled d))

def sqrt (n : Numeral) : Numeral := ofDigits ((pairs n.digits).foldr rootDigit ([], zero)).1

end Numeral
end Reckoner
