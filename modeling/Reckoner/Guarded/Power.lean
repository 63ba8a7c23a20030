import Reckoner.Guarded.Quotient
import Reckoner.Numeral.Power

namespace Reckoner.Guarded

def isEven (n : Numeral) : Except Fault Bool := do
  let d ← fetch n.digits 0
  return d % 2 == 0

def powBySquaring (base exponent : Numeral) (limit : DigitLimit) :
    Except Fault (Except NumberError Numeral) :=
  if _ : exponent.isZero then .ok (.ok Numeral.one)
  else if exponent.isOne then .ok (.ok base)
  else
    match mul base base limit with
    | .error fault => .error fault
    | .ok (.error e) => .ok (.error e)
    | .ok (.ok squared) =>
      match _ : halved exponent with
      | .error fault => .error fault
      | .ok half =>
        match powBySquaring squared half limit with
        | .error fault => .error fault
        | .ok (.error e) => .ok (.error e)
        | .ok (.ok rest) => do
          if ← isEven exponent then return .ok rest
          mul base rest limit
termination_by exponent.halvings
decreasing_by
  obtain rfl := halved_eq ‹_›
  exact Numeral.halvings_halved (Bool.eq_false_iff.mpr ‹_›)

def pow (base exponent : Numeral) (limit : DigitLimit) : Except Fault (Except NumberError Numeral) := do
  if exponent.isZero then return .ok Numeral.one
  if exponent.isOne || base.isZero || base.isOne then return .ok base
  match ← powBySquaring base exponent limit with
  | .error e => return .error e
  | .ok result =>
    check (base.le result)
    return .ok result

end Reckoner.Guarded
