import Reckoner.Bindings
import Reckoner.Expr.Layout
import Reckoner.Numeral.Power
import Reckoner.Numeral.Root

namespace Reckoner

inductive EvalError where
  | unknownVariable (name : String)
  | arithmetic (expression : String) (cause : NumberError)
  deriving DecidableEq

namespace EvalError

def message : EvalError → String
  | .unknownVariable name => s!"Error: Unknown variable '{name}'."
  | .arithmetic expression cause => s!"Error in {expression}: {cause.message}"

def numberError? : EvalError → Option NumberError
  | .arithmetic _ cause => some cause
  | _ => none

end EvalError

def Operator.apply (limit : DigitLimit) : Operator → Numeral → Numeral → Except NumberError Numeral
  | .add, a, b => a.add b limit
  | .sub, a, b => a.sub b
  | .mul, a, b => a.mul b limit
  | .div, a, b => a.floorDiv b
  | .rem, a, b => a.rem b
  | .pow, a, b => a.pow b limit

/-- What an evaluation may refer to: the values of variables, and the digit limit. -/
structure Scope where
  bindings : Bindings
  limit : DigitLimit

namespace Scope

def lookup (scope : Scope) (name : String) : Except EvalError Numeral :=
  match scope.bindings.find? name with
  | some n => .ok n
  | none => .error (.unknownVariable name)

def combine (scope : Scope) (op : Operator) (left right : Expr) (a b : Numeral) :
    Except EvalError Numeral :=
  match op.apply scope.limit a b with
  | .ok n => .ok n
  | .error cause => .error (.arithmetic (Expr.binary op left right).text cause)

inductive Pending where
  | root
  | left (op : Operator) (left right : Expr)
  | right (op : Operator) (left right : Expr) (value : Numeral)

inductive Focus where
  | enter (e : Expr)
  | leave (n : Numeral)

def Pending.weight : Pending → Nat
  | .root => 1
  | .left _ _ r => 3 * r.size + 2
  | .right .. => 1

def Focus.weight : Focus → Nat
  | .enter e => 3 * e.size
  | .leave _ => 0

def run (scope : Scope) : Focus → List Pending → Except EvalError Numeral
  | .leave n, [] => .ok n
  | .leave n, .root :: outer => scope.run (.leave n.sqrt) outer
  | .leave n, .left op l r :: outer => scope.run (.enter r) (.right op l r n :: outer)
  | .leave n, .right op l r a :: outer =>
    match scope.combine op l r a n with
    | .error e => .error e
    | .ok v => scope.run (.leave v) outer
  | .enter (.literal n), outer => scope.run (.leave n) outer
  | .enter (.var x), outer =>
    match scope.lookup x with
    | .error e => .error e
    | .ok v => scope.run (.leave v) outer
  | .enter (.root e), outer => scope.run (.enter e) (.root :: outer)
  | .enter (.binary op l r), outer => scope.run (.enter l) (.left op l r :: outer)
termination_by focus outer => focus.weight + outer.foldr (fun p total => p.weight + total) 0
decreasing_by
  all_goals
    simp only [List.foldr_cons, Focus.weight, Pending.weight, Expr.size]
    omega

def eval (scope : Scope) (e : Expr) : Except EvalError Numeral := scope.run (.enter e) []

theorem run_enter (scope : Scope) (e : Expr) (outer : List Pending) :
    scope.run (.enter e) outer = (scope.eval e).bind fun n => scope.run (.leave n) outer := by
  induction e generalizing outer with
  | literal n => simp only [eval, run, Except.bind]
  | var x => cases h : scope.lookup x <;> simp only [eval, run, h, Except.bind]
  | root e ih =>
    rw [eval, run, run, ih, ih [.root]]
    cases scope.eval e <;> simp only [run, Except.bind]
  | binary op l r ihl ihr =>
    rw [eval, run, run, ihl, ihl [.left op l r]]
    cases scope.eval l with
    | error x => rfl
    | ok a =>
      simp only [Except.bind, run]
      rw [ihr, ihr [.right op l r a]]
      cases scope.eval r with
      | error x => rfl
      | ok b =>
        simp only [Except.bind, run]
        cases scope.combine op l r a b <;> simp only

theorem eval_literal (scope : Scope) (n : Numeral) : scope.eval (.literal n) = .ok n := by
  simp only [eval, run]

theorem eval_var (scope : Scope) (x : String) : scope.eval (.var x) = scope.lookup x := by
  cases h : scope.lookup x <;> simp only [eval, run, h]

theorem eval_root (scope : Scope) (e : Expr) :
    scope.eval (.root e) = (scope.eval e).map Numeral.sqrt := by
  rw [eval, run, run_enter]
  cases scope.eval e <;> simp only [run, Except.bind, Except.map]

theorem eval_binary (scope : Scope) (op : Operator) (l r : Expr) :
    scope.eval (.binary op l r) =
      (scope.eval l).bind fun a => (scope.eval r).bind fun b => scope.combine op l r a b := by
  rw [eval, run, run_enter]
  cases scope.eval l with
  | error x => rfl
  | ok a =>
    simp only [Except.bind, run, run_enter]
    cases scope.eval r with
    | error x => rfl
    | ok b => cases h : scope.combine op l r a b <;> simp only [h]

end Scope
end Reckoner
