import Reckoner.Guarded.Columns
import Reckoner.Numeral.Root

namespace Reckoner.Guarded

def firstFit {α : Type} (otherwise : α) (test : Nat → Except Fault (Option α)) : Nat → Except Fault α
  | 0 => .ok otherwise
  | d + 1 => do
    match ← test d with
    | some found => return found
    | none => firstFit otherwise test d

def inPairs : List Nat → List (List Nat)
  | d :: e :: ds => [d, e] :: inPairs ds
  | _ => []

def doubleDigit (columns : Columns) (d : Nat) : Except Fault Columns := do
  let two ← byte (d * 2)
  let total ← byte (two + columns.2)
  return (columns.1 ++ [total % 10], total / 10)

def double (root : List Nat) : Except Fault Numeral := do
  let columns ← root.foldlM doubleDigit ([], 0)
  return Numeral.ofDigits columns.close

def leadingNumber : List (List Nat) → Except Fault Nat
  | [] => .ok 0
  | pair :: _ => do
    let high ← fetch pair 1
    let tens ← byte (high * 10)
    let low ← fetch pair 0
    byte (tens + low)

def seedDigit (leading : Nat) : Except Fault Nat :=
  firstFit 0 (fun d => do
    let square ← byte (d * d)
    return if square ≤ leading then some d else none) 10

def nextDigit (doubled rest : Numeral) : Except Fault (Nat × Numeral) :=
  firstFit (0, Numeral.zero) (fun d => do
    let trial ← timesDigit (doubled.shiftIn [d]) d
    return if trial.le rest then some (d, trial) else none) 10

def rootDigit (sofar : List Nat × Numeral) (pair : List Nat) : Except Fault (List Nat × Numeral) := do
  let rest := sofar.2.shiftIn pair
  let doubled ← double sofar.1
  let (d, trial) ← nextDigit doubled rest
  let rest ← difference rest trial
  return (d :: sofar.1, rest)

/-- The digits of the root, from all pairs of digits, the most significant pair first. -/
def rootDigits (pairs : List (List Nat)) : Except Fault (List Nat) := do
  let leading ← leadingNumber pairs
  let seed ← seedDigit leading
  let square ← byte (seed * seed)
  let left ← minus leading square
  let (root, _) ← pairs.tail.foldlM rootDigit ([seed], Numeral.ofDigits [left % 10, left / 10])
  return root

def isOwnRoot (n : Numeral) : Except Fault Bool := do
  if n.digitCount = 1 then
    let d ← fetch n.digits 0
    return decide (d < 2)
  return false

def sqrt (n : Numeral) : Except Fault Numeral := do
  if ← isOwnRoot n then return n
  let padded := if n.digitCount % 2 = 1 then n.digits ++ [0] else n.digits
  let root := Numeral.ofDigits (← rootDigits (inPairs padded).reverse)
  check ((← product root root).le n)
  let next ← sum root Numeral.one
  check (n.lt (← product next next))
  return root

end Reckoner.Guarded
