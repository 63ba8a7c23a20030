/-! Natural numbers written in decimal, least significant digit first. Nothing in
the type forbids a digit above nine or a superfluous leading zero: that a numeral
is in normal form is the predicate `Numeral.Normal`, and keeping it is a matter
for the operations. The order below is the numeric one on normal forms only. -/
namespace Reckoner

structure Numeral where
  digits : List Nat
  deriving DecidableEq

namespace Numeral

/-- The number that a digit list stands for, whatever its entries. -/
def weigh : List Nat → Nat
  | [] => 0
  | d :: ds => d + 10 * weigh ds

def value (n : Numeral) : Nat := weigh n.digits

def trim : List Nat → List Nat
  | [] => []
  | d :: ds =>
    match trim ds with
    | [] => if d = 0 then [] else [d]
    | t :: ts => d :: t :: ts

/-- The numeral with these digits, less its leading zeros; one digit stays. -/
def ofDigits (ds : List Nat) : Numeral :=
  match trim ds with
  | [] => ⟨[0]⟩
  | t :: ts => ⟨t :: ts⟩

def Normal (n : Numeral) : Prop :=
  n.digits ≠ [] ∧ (∀ d ∈ n.digits, d ≤ 9) ∧ (1 < n.digits.length → n.digits.getLast? ≠ some 0)

def zero : Numeral := ⟨[0]⟩
def one : Numeral := ⟨[1]⟩

def digitCount (n : Numeral) : Nat := n.digits.length

def isZero (n : Numeral) : Bool := n.digits == [0]
def isOne (n : Numeral) : Bool := n.digits == [1]
def isEven (n : Numeral) : Bool := n.digits.headD 0 % 2 == 0

def compareDigits : List Nat → List Nat → Ordering
  | a :: as, b :: bs => (compareDigits as bs).then (compare a b)
  | _, _ => .eq

def order (a b : Numeral) : Ordering :=
  (compare a.digitCount b.digitCount).then (compareDigits a.digits b.digits)

instance : Ord Numeral := ⟨order⟩

def le (a b : Numeral) : Bool := (order a b).isLE
def lt (a b : Numeral) : Bool := (order a b).isLT

def shiftIn (n : Numeral) (low : List Nat) : Numeral :=
  if n.isZero then ofDigits low else ofDigits (low ++ n.digits)

def digitChar (d : Nat) : Char := Char.ofNat ('0'.toNat + d)

def text (n : Numeral) : String := String.ofList (n.digits.reverse.map digitChar)

theorem weigh_trim (ds : List Nat) : weigh (trim ds) = weigh ds := by
  induction ds with
  | nil => rfl
  | cons d ds ih =>
    simp only [trim]
    split
    · next h =>
      rw [h] at ih
      split
      · next hd => subst hd; simp only [weigh, ← ih, Nat.mul_zero]
      · simp only [weigh, ← ih]
    · next t ts h => rw [h] at ih; simp only [weigh] at ih ⊢; rw [ih]

@[simp] theorem weigh_ofDigits (ds : List Nat) : weigh (ofDigits ds).digits = weigh ds := by
  rw [← weigh_trim ds, ofDigits]
  split
  · next h => simp only [h, weigh, Nat.mul_zero, Nat.add_zero]
  · next h => simp only [h]

end Numeral
end Reckoner
