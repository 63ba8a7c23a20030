import Reckoner.Limits
import Reckoner.Numeral.Basic
import Reckoner.Text.Ascii

namespace Reckoner

inductive NumberError where
  | malformed (literal : String)
  | tooManyDigits (digits limit : Nat)
  | negative (minuend subtrahend : String)
  | divisionByZero (dividend : String)
  deriving DecidableEq

def NumberError.message : NumberError → String
  | .malformed literal => s!"Invalid numeric literal '{literal}'."
  | .tooManyDigits digits limit => s!"Result has {digits} digits, but at most {limit} are allowed."
  | .negative minuend subtrahend => s!"{minuend} - {subtrahend} would result in a negative number."
  | .divisionByZero dividend => s!"Division by zero: {dividend} / 0."

namespace Numeral

def within (n : Numeral) (limit : DigitLimit) : Except NumberError Numeral :=
  if limit.allows n.digitCount then .ok n else .error (.tooManyDigits n.digitCount limit.count)

def digitOf (c : Char) : Nat := c.toNat - '0'.toNat

/-- Reads decimal text of any length; only the ASCII digits count as digits. -/
def ofDecimal (text : String) (limit : DigitLimit) : Except NumberError Numeral :=
  let chars := text.toList
  if chars.isEmpty || !chars.all Text.isDigit then .error (.malformed text)
  else (ofDigits (chars.reverse.map digitOf)).within limit

def listText (ds : List Nat) : String := "[" ++ ", ".intercalate (ds.map fun d => d.repr) ++ "]"

def ofDigitList (ds : List Nat) (limit : DigitLimit) : Except NumberError Numeral :=
  if ds.isEmpty || ds.any (fun d => decide (9 < d)) then .error (.malformed (listText ds))
  else (ofDigits ds).within limit

def digitsOf (n : Nat) : List Nat :=
  if n < 10 then [n] else n % 10 :: digitsOf (n / 10)
termination_by n

def ofNat (n : Nat) (limit : DigitLimit) : Except NumberError Numeral :=
  (ofDigits (digitsOf n)).within limit

theorem weigh_digitsOf (n : Nat) : weigh (digitsOf n) = n := by
  induction n using digitsOf.induct with
  | case1 n h => rw [digitsOf, if_pos h]; rfl
  | case2 n h ih => rw [digitsOf, if_neg h, weigh, ih]; omega

end Numeral
end Reckoner
