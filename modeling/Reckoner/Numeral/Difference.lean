import Reckoner.Numeral.Limited

namespace Reckoner
namespace Numeral

/-- Meant for digit lists with `lower + borrow` at most `upper`; a column then
needs no more than the ten it was lent. -/
def lend : List Nat → List Nat → Nat → List Nat
  | [], _, _ => []
  | u :: us, lower, borrow =>
    let lent := u + 10 - lower.headD 0 - borrow
    if 10 ≤ lent then (lent - 10) :: lend us lower.tail 0
    else lent :: lend us lower.tail 1

def difference (a b : Numeral) : Numeral := ofDigits (lend a.digits b.digits 0)

def sub (a b : Numeral) : Except NumberError Numeral :=
  if a.lt b then .error (.negative a.text b.text) else .ok (difference a b)

end Numeral
end Reckoner
