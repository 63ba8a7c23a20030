import Reckoner.Guarded.Basic
import Reckoner.Numeral.Difference
import Reckoner.Numeral.Sum

namespace Reckoner.Guarded

/-- The digits written so far, and the carry or the borrow. -/
abbrev Columns := List Nat × Nat

def Columns.close (columns : Columns) : List Nat :=
  if columns.2 ≠ 0 then columns.1 ++ [columns.2] else columns.1

def sumColumn (a b : Numeral) (columns : Columns) (i : Nat) : Except Fault Columns := do
  let both ← byte (digitAt a i + digitAt b i)
  let total ← byte (both + columns.2)
  return (columns.1 ++ [total % 10], total / 10)

def sum (a b : Numeral) : Except Fault Numeral := do
  let columns ← (List.range (max a.digitCount b.digitCount)).foldlM (sumColumn a b) ([], 0)
  return Numeral.ofDigits columns.close

def differenceColumn (a b : Numeral) (columns : Columns) (i : Nat) : Except Fault Columns := do
  let lent ← byte (digitAt a i + 10)
  let less ← minus lent (digitAt b i)
  let digit ← minus less columns.2
  if 10 ≤ digit then
    let digit ← minus digit 10
    return (columns.1 ++ [digit], 0)
  else return (columns.1 ++ [digit], 1)

/-- For numerals of which the second is not the larger: nothing stays borrowed. -/
def difference (a b : Numeral) : Except Fault Numeral := do
  let columns ← (List.range a.digitCount).foldlM (differenceColumn a b) ([], 0)
  check (columns.2 == 0)
  return Numeral.ofDigits columns.1

def cell (s j : Nat) (columns : Columns) (upper : Nat × Nat) : Except Fault Columns := do
  let (l, i) := upper
  let times ← word (l * s)
  let old ← fetch columns.1 (i + j)
  let both ← word (times + old)
  let total ← word (both + columns.2)
  let digit ← cut (total % 10)
  let written ← store columns.1 (i + j) digit
  return (written, total / 10)

def rowInto (long written : List Nat) (lower : Nat × Nat) : Except Fault (List Nat) := do
  let (s, j) := lower
  let columns ← long.zipIdx.foldlM (cell s j) (written, 0)
  let top ← cut columns.2
  store columns.1 (long.length + j) top

def productInto (long short : List Nat) : Except Fault (List Nat) :=
  short.zipIdx.foldlM (rowInto long) (List.replicate (long.length + short.length) 0)

/-- The longer factor gives the columns, the shorter one the rows. -/
def productDigits (as bs : List Nat) : Except Fault (List Nat) :=
  if bs.length ≤ as.length then productInto as bs else productInto bs as

def product (a b : Numeral) : Except Fault Numeral := do
  return Numeral.ofDigits (← productDigits a.digits b.digits)

def timesDigit (n : Numeral) (d : Nat) : Except Fault Numeral := do
  check (decide (d ≤ 9))
  if d = 0 then return Numeral.zero
  return Numeral.ofDigits (← productDigits n.digits [d])

def add (a b : Numeral) (limit : DigitLimit) : Except Fault (Except NumberError Numeral) := do
  return (← sum a b).within limit

def sub (a b : Numeral) : Except Fault (Except NumberError Numeral) := do
  if a.lt b then return .error (.negative (← text a) (← text b))
  return .ok (← difference a b)

def mul (a b : Numeral) (limit : DigitLimit) : Except Fault (Except NumberError Numeral) := do
  if a.isZero || b.isZero then return .ok Numeral.zero
  let shortest ← minus (a.digitCount + b.digitCount) 1
  if limit.allows shortest then return (← product a b).within limit
  return .error (.tooManyDigits shortest limit.count)

end Reckoner.Guarded
