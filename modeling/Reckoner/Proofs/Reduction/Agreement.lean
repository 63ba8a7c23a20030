import Reckoner.Expr.Postfix
import Reckoner.Proofs.Reduction.Stages

namespace Reckoner

/-- How an outcome in one go goes with an outcome step by step. A failing operation is
the same node of the expression in both, with the same cause. -/
inductive Scope.Agree (scope : Scope) (e : Expr) :
    Except EvalError Numeral → Except EvalError Numeral → Prop where
  | value (n : Numeral) : Agree scope e (.ok n) (.ok n)
  | unknown (x : String) :
      Agree scope e (.error (.unknownVariable x)) (.error (.unknownVariable x))
  | arithmetic {op : Operator} {l r : Expr} {a b : Numeral} {cause : NumberError} :
      .binary op l r ∈ e.nodes → scope.eval l = .ok a → scope.eval r = .ok b →
      op.apply scope.limit a b = .error cause →
      Agree scope e (.error (.arithmetic (Expr.binary op l r).text cause))
        (.error (.arithmetic (Expr.binary op (.literal a) (.literal b)).text cause))

namespace Scope

theorem Agree.bind {scope : Scope} {part whole : Expr} {x y : Except EvalError Numeral}
    {f g : Numeral → Except EvalError Numeral} (h : scope.Agree part x y)
    (inside : ∀ node ∈ part.nodes, node ∈ whole.nodes)
    (next : ∀ n, x = .ok n → scope.Agree whole (f n) (g n)) :
    scope.Agree whole (x.bind f) (y.bind g) := by
  cases h with
  | value n => exact next n rfl
  | unknown x => exact .unknown x
  | arithmetic node left right failed => exact .arithmetic (inside _ node) left right failed

theorem agree_combine {scope : Scope} {l r : Expr} {a b : Numeral} (op : Operator)
    (left : scope.eval l = .ok a) (right : scope.eval r = .ok b) :
    scope.Agree (.binary op l r) (scope.combine op l r a b)
      (scope.combine op (.literal a) (.literal b) a b) := by
  rw [combine, combine]
  cases failed : op.apply scope.limit a b with
  | ok v => exact .value v
  | error cause =>
    exact .arithmetic (Expr.mem_nodes_self _) left right failed

theorem agree_stages (scope : Scope) (e : Expr) :
    scope.Agree e (scope.eval e) ((scope.stages e).map Prod.fst) := by
  induction e with
  | literal n =>
    rw [eval_literal, stages_literal]
    exact .value n
  | var x =>
    rw [eval_var, stages_var, lookup]
    cases scope.bindings.find? x with
    | none => exact .unknown x
    | some n => exact .value n
  | root e ih =>
    rw [eval_root, value_stages_root]
    exact ih.bind (fun _ => Expr.mem_nodes_operand) fun n _ => .value n.sqrt
  | binary op l r ihl ihr =>
    rw [eval_binary, value_stages_binary]
    apply ihl.bind fun _ => Expr.mem_nodes_left
    intro a left
    apply ihr.bind fun _ => Expr.mem_nodes_right
    intro b right
    exact agree_combine op left right

/-- The two evaluations agree on every expression, under all bindings and limits. -/
theorem workings_agree_eval (scope : Scope) (e : Expr) :
    scope.Agree e (scope.eval e) ((scope.workings e).map Prod.fst) := by
  rw [value_workings]
  exact scope.agree_stages e

end Scope
end Reckoner
