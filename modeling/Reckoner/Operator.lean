namespace Reckoner

inductive Operator where
  | add
  | sub
  | mul
  | div
  | rem
  | pow
  deriving DecidableEq

namespace Operator

def symbol : Operator → String
  | .add => "+"
  | .sub => "-"
  | .mul => "*"
  | .div => "/"
  | .rem => "%"
  | .pow => "**"

def level : Operator → Nat
  | .add | .sub => 0
  | .mul | .div | .rem => 1
  | .pow => 2

end Operator
end Reckoner
