import Reckoner.Numeral.Limited

namespace Reckoner
namespace Numeral

def addCarry : List Nat → Nat → List Nat
  | ds, 0 => ds
  | [], c + 1 => [c + 1]
  | d :: ds, c + 1 => (d + (c + 1)) % 10 :: addCarry ds ((d + (c + 1)) / 10)

/-- The digits of `d * upper + lower + carry`. -/
def row (d : Nat) : List Nat → List Nat → Nat → List Nat
  | [], lower, carry => addCarry lower carry
  | u :: us, lower, carry =>
    let total := d * u + lower.headD 0 + carry
    total % 10 :: row d us lower.tail (total / 10)

def sum (a b : Numeral) : Numeral := ofDigits (row 1 a.digits b.digits 0)

def timesDigit (n : Numeral) (d : Nat) : Numeral := ofDigits (row d n.digits [] 0)

def productDigits (long short : List Nat) : List Nat :=
  short.foldr (fun d written => row d long (0 :: written) 0) []

def product (a b : Numeral) : Numeral :=
  if b.digitCount ≤ a.digitCount then ofDigits (productDigits a.digits b.digits)
  else ofDigits (productDigits b.digits a.digits)

def add (a b : Numeral) (limit : DigitLimit) : Except NumberError Numeral :=
  (sum a b).within limit

/-- A product of nonzero factors has at least `length a + length b - 1` digits. -/
def mul (a b : Numeral) (limit : DigitLimit) : Except NumberError Numeral :=
  if a.isZero || b.isZero then .ok zero
  else
    let shortest := a.digitCount + b.digitCount - 1
    if limit.allows shortest then (product a b).within limit
    else .error (.tooManyDigits shortest limit.count)

theorem weigh_addCarry (ds : List Nat) (carry : Nat) :
    weigh (addCarry ds carry) = weigh ds + carry := by
  induction ds generalizing carry with
  | nil =>
    cases carry with
    | zero => rfl
    | succ c => simp only [addCarry, weigh]; omega
  | cons d ds ih =>
    cases carry with
    | zero => rfl
    | succ c => simp only [addCarry, weigh, ih]; omega

theorem weigh_head_tail (ds : List Nat) : weigh ds = ds.headD 0 + 10 * weigh ds.tail := by
  cases ds <;> rfl

theorem weigh_row (d : Nat) (upper lower : List Nat) (carry : Nat) :
    weigh (row d upper lower carry) = d * weigh upper + weigh lower + carry := by
  induction upper generalizing lower carry with
  | nil => simp only [row, weigh_addCarry, weigh, Nat.mul_zero, Nat.zero_add]
  | cons u us ih =>
    have step := weigh_head_tail lower
    have spread : d * (u + 10 * weigh us) = d * u + 10 * (d * weigh us) := by
      rw [Nat.mul_add, Nat.mul_left_comm]
    simp only [row, weigh, ih, spread]
    omega

theorem weigh_productDigits (long short : List Nat) :
    weigh (productDigits long short) = weigh long * weigh short := by
  induction short with
  | nil => rfl
  | cons d ds ih =>
    change weigh (row d long (0 :: productDigits long ds) 0) = _
    rw [weigh_row, weigh, ih, weigh, Nat.mul_add, Nat.mul_comm d, Nat.mul_left_comm]
    omega

@[simp] theorem value_sum (a b : Numeral) : (sum a b).value = a.value + b.value := by
  simp only [value, sum, weigh_ofDigits, weigh_row, Nat.one_mul, Nat.add_zero]

@[simp] theorem value_timesDigit (n : Numeral) (d : Nat) :
    (n.timesDigit d).value = d * n.value := by
  simp only [value, timesDigit, weigh_ofDigits, weigh_row, weigh, Nat.add_zero]

@[simp] theorem value_product (a b : Numeral) : (product a b).value = a.value * b.value := by
  unfold product
  split
  · simp only [value, weigh_ofDigits, weigh_productDigits]
  · simp only [value, weigh_ofDigits, weigh_productDigits, Nat.mul_comm]

end Numeral
end Reckoner
