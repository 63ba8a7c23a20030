import Reckoner.Guarded.Basic
import Reckoner.Numeral.Limited

namespace Reckoner.Guarded

def digitsOf (rest : Nat) : Except Fault (List Nat) := do
  let digit ← cut (rest % 10)
  if rest / 10 = 0 then return [digit]
  return digit :: (← digitsOf (rest / 10))
termination_by rest
decreasing_by omega

def ofNat (n : Nat) (limit : DigitLimit) : Except Fault (Except NumberError Numeral) := do
  return (Numeral.ofDigits (← digitsOf n)).within limit

def bytes (text : String) : List Nat := (text.toList.flatMap String.utf8EncodeChar).map UInt8.toNat

def isDigitByte (b : Nat) : Bool := decide ('0'.toNat ≤ b) && decide (b ≤ '9'.toNat)

def ofDecimal (text : String) (limit : DigitLimit) : Except Fault (Except NumberError Numeral) := do
  if (bytes text).isEmpty || !(bytes text).all isDigitByte then return .error (.malformed text)
  let digits ← (bytes text).reverse.mapM fun b => minus b '0'.toNat
  return (Numeral.ofDigits digits).within limit

def ofDigitList (ds : List Nat) (limit : DigitLimit) : Except Fault (Except NumberError Numeral) := do
  if ds.isEmpty || ds.any (fun d => decide (9 < d)) then
    return .error (.malformed (Numeral.listText ds))
  return (Numeral.ofDigits ds).within limit

def isLetterByte (b : Nat) : Bool :=
  (decide ('a'.toNat ≤ b) && decide (b ≤ 'z'.toNat)) || (decide ('A'.toNat ≤ b) && decide (b ≤ 'Z'.toNat))

def isValidName (name : String) : Bool := !(bytes name).isEmpty && (bytes name).all isLetterByte

end Reckoner.Guarded
