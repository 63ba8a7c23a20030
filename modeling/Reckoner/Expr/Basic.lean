import Reckoner.Numeral.Basic
import Reckoner.Operator

namespace Reckoner

inductive Expr where
  | literal (value : Numeral)
  | var (name : String)
  | root (operand : Expr)
  | binary (op : Operator) (left right : Expr)

namespace Expr

def literal? : Expr → Option Numeral
  | .literal n => some n
  | _ => none

def isLiteral (e : Expr) : Bool := e.literal?.isSome

/-- One step turns the node into a literal. -/
def isReducible : Expr → Bool
  | .literal _ => false
  | .var _ => true
  | .root e => e.isLiteral
  | .binary _ l r => l.isLiteral && r.isLiteral

def size : Expr → Nat
  | .literal _ | .var _ => 1
  | .root e => e.size + 1
  | .binary _ l r => l.size + r.size + 1

/-- The number of nodes that are still to be worked out. -/
def operations : Expr → Nat
  | .literal _ => 0
  | .var _ => 1
  | .root e => e.operations + 1
  | .binary _ l r => l.operations + r.operations + 1

def sameAll : List (Expr × Expr) → Bool
  | [] => true
  | (.literal a, .literal b) :: rest => decide (a = b) && sameAll rest
  | (.var x, .var y) :: rest => decide (x = y) && sameAll rest
  | (.root a, .root b) :: rest => sameAll ((a, b) :: rest)
  | (.binary p a b, .binary q c d) :: rest =>
    decide (p = q) && sameAll ((a, c) :: (b, d) :: rest)
  | _ :: _ => false
termination_by pairs => pairs.foldr (fun pair total => pair.1.size + total) 0
decreasing_by
  all_goals
    simp only [List.foldr_cons, size]
    omega

def same (a b : Expr) : Bool := sameAll [(a, b)]

theorem sameAll_cons (a b : Expr) (rest : List (Expr × Expr)) :
    sameAll ((a, b) :: rest) = true ↔ a = b ∧ sameAll rest = true := by
  induction a generalizing b rest with
  | literal n => cases b <;> simp [sameAll]
  | var x => cases b <;> simp [sameAll]
  | root a ih => cases b <;> simp [sameAll, ih]
  | binary p a c iha ihc => cases b <;> simp [sameAll, iha, ihc, and_assoc]

theorem same_iff (a b : Expr) : same a b = true ↔ a = b := by
  simp [same, sameAll_cons, sameAll]

instance : DecidableEq Expr := fun a b => decidable_of_iff _ (same_iff a b)

end Expr
end Reckoner
