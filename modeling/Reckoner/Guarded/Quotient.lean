import Reckoner.Guarded.Columns
import Reckoner.Numeral.Quotient

namespace Reckoner.Guarded

/-- Takes the divisor away as often as it fits and counts at place `i` of the quotient. A byte
that starts at zero can be counted up fewer times than there are tries. -/
def takeAway (divisor : Numeral) (i : Nat) : Nat → List Nat → Numeral → Except Fault (List Nat × Numeral)
  | 0, _, _ => .error .overflow
  | tries + 1, quotient, rest =>
    if divisor.le rest then do
      let digit ← fetch quotient i
      let raised ← byte (digit + 1)
      let quotient ← store quotient i raised
      let rest ← difference rest divisor
      takeAway divisor i tries quotient rest
    else .ok (quotient, rest)

def divideDigit (divisor : Numeral) (upper : Nat × Nat) (sofar : List Nat × Numeral) :
    Except Fault (List Nat × Numeral) :=
  takeAway divisor upper.2 UInt8.size sofar.1 (sofar.2.shiftIn [upper.1])

def divRem (a b : Numeral) : Except Fault (Except NumberError (Numeral × Numeral)) := do
  if b.isZero then return .error (.divisionByZero (← text a))
  if a.lt b then return .ok (Numeral.zero, a)
  let (quotient, rest) ←
    a.digits.zipIdx.foldrM (divideDigit b) (List.replicate a.digitCount 0, Numeral.zero)
  let quotient := Numeral.ofDigits quotient
  check (rest.lt b)
  let whole ← sum (← product quotient b) rest
  check (decide (whole = a))
  return .ok (quotient, rest)

def halveDigit (upper : Nat × Nat) (columns : Columns) : Except Fault Columns := do
  let tens ← byte (columns.2 * 10)
  let current ← byte (tens + upper.1)
  let halves ← store columns.1 upper.2 (current / 2)
  return (halves, current % 2)

def halved (n : Numeral) : Except Fault Numeral := do
  let columns ← n.digits.zipIdx.foldrM halveDigit (List.replicate n.digitCount 0, 0)
  return Numeral.ofDigits columns.1

/- What the halves are when nothing fails, for any digits: it is what ends a repeated halving. -/

theorem set_zeros (i d : Nat) (ds : List Nat) :
    (List.replicate (i + 1) 0 ++ ds).set i d = List.replicate i 0 ++ d :: ds := by
  simp [List.replicate_succ']

theorem halveDigit_eq {d i : Nat} {columns later : Columns} (h : halveDigit (d, i) columns = .ok later) :
    later = (columns.1.set i ((columns.2 * 10 + d) / 2), (columns.2 * 10 + d) % 2) := by
  obtain ⟨tens, first, h⟩ := exists_of_bind h
  obtain ⟨current, second, h⟩ := exists_of_bind h
  obtain ⟨halves, third, h⟩ := exists_of_bind h
  obtain rfl := eq_of_byte first
  obtain rfl := eq_of_byte second
  obtain rfl := eq_of_store third
  cases h
  rfl

theorem halveDigits_eq {ds : List Nat} {i : Nat} {columns : Columns}
    (h : (ds.zipIdx i).foldrM halveDigit (List.replicate (i + ds.length) 0, 0) = .ok columns) :
    columns = (List.replicate i 0 ++ (Numeral.halfDigits ds).1, (Numeral.halfDigits ds).2) := by
  induction ds generalizing i columns with
  | nil =>
    cases h
    simp [Numeral.halfDigits]
  | cons d ds ih =>
    rw [List.zipIdx_cons, List.foldrM_cons, List.length_cons, Nat.add_comm ds.length, ← Nat.add_assoc] at h
    obtain ⟨above, upper, h⟩ := exists_of_bind h
    obtain rfl := ih upper
    rw [halveDigit_eq h]
    simp only [set_zeros, Numeral.halfDigits]

theorem halved_eq {n half : Numeral} (h : halved n = .ok half) : half = n.halved := by
  obtain ⟨columns, run, h⟩ := exists_of_bind h
  have written := halveDigits_eq (i := 0) (by rw [Nat.zero_add]; exact run)
  cases h
  rw [written]
  rfl

end Reckoner.Guarded
