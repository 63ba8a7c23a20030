import Reckoner.Proofs.Reduction.Order

namespace Reckoner

namespace Scope
open Reckoner.Expr

/-- The passes over an expression make these trees, itself first, and end in this way. -/
inductive Run (scope : Scope) : Expr → List Expr → Except EvalError Numeral → Prop where
  | finished (n : Numeral) : Run scope (.literal n) [.literal n] (.ok n)
  | failed {e : Expr} {x : EvalError} :
      e.isLiteral = false → scope.pass e = .error x → Run scope e [e] (.error x)
  | step {e next : Expr} {later : List Expr} {outcome : Except EvalError Numeral} :
      e.isLiteral = false → scope.pass e = .ok next → Run scope next later outcome →
      Run scope e (e :: later) outcome

variable {scope : Scope} {e tree next : Expr} {trees : List Expr} {outcome : Except EvalError Numeral}

theorem operations_pass (unfinished : e.isLiteral = false) (h : scope.pass e = .ok next) :
    next.operations < e.operations := by
  obtain ⟨node, frames, found⟩ := exists_next unfinished
  rw [pass_redex found] at h
  cases worked : scope.eval node with
  | error x => rw [worked] at h; cases h
  | ok n =>
    rw [worked] at h
    cases h
    exact operations_next found n

theorem Run.begins (h : scope.Run e trees outcome) : ∃ later, trees = e :: later := by
  cases h with
  | finished n => exact ⟨_, rfl⟩
  | failed => exact ⟨_, rfl⟩
  | step => exact ⟨_, rfl⟩

theorem Run.stages (h : scope.Run e trees outcome) : scope.stages e = outcome.map fun v => (v, trees) := by
  induction h with
  | finished n => exact scope.stages_literal n
  | failed unfinished failed =>
    rw [stages_pass unfinished, failed]
    rfl
  | @step _ _ _ outcome unfinished passed _ ih =>
    rw [stages_pass unfinished, passed, Except.bind, ih]
    cases outcome <;> rfl

theorem Run.workings (h : scope.Run e trees outcome) :
    scope.workings e = outcome.map fun v => (v, trees.map Expr.text) := by
  unfold Scope.workings
  rw [h.stages]
  cases outcome <;> rfl

theorem exists_run (scope : Scope) (e : Expr) : ∃ trees outcome, scope.Run e trees outcome := by
  -- by what is left to be done, which every pass lessens
  induction left : e.operations using Nat.strongRecOn generalizing e with
  | _ k ih =>
  cases unfinished : e.isLiteral with
  | true =>
    obtain ⟨n, literal⟩ := Option.isSome_iff_exists.mp unfinished
    obtain rfl := eq_of_literal? literal
    exact ⟨_, _, .finished n⟩
  | false =>
    cases passed : scope.pass e with
    | error x => exact ⟨_, _, .failed unfinished passed⟩
    | ok next =>
      have fewer : next.operations < k := left ▸ operations_pass unfinished passed
      obtain ⟨trees, outcome, run⟩ := ih _ fewer next rfl
      exact ⟨_, _, .step unfinished passed run⟩

theorem Run.keeps {P : Expr → Prop} (h : scope.Run e trees outcome)
    (step : ∀ a b, P a → scope.pass a = .ok b → P b) (first : P e) : ∀ tree ∈ trees, P tree := by
  induction h with
  | finished n => exact List.forall_mem_singleton.mpr first
  | failed => exact List.forall_mem_singleton.mpr first
  | step _ passed _ ih => exact List.forall_mem_cons.mpr ⟨first, ih (step _ _ first passed)⟩

theorem Run.value_mem {v : Numeral} (h : scope.Run e trees (.ok v)) : Expr.literal v ∈ trees := by
  obtain ⟨before, rfl⟩ := scope.stages_eq_append h.stages
  exact List.mem_append_right _ List.mem_cons_self

theorem Run.drop {i : Nat} (h : scope.Run e trees outcome) (here : trees[i]? = some tree) :
    scope.Run tree (trees.drop i) outcome := by
  induction h generalizing i with
  | finished n =>
    cases i with
    | zero =>
      cases here
      exact .finished n
    | succ i => cases here
  | failed unfinished failed =>
    cases i with
    | zero =>
      cases here
      exact .failed unfinished failed
    | succ i => cases here
  | step unfinished passed rest ih =>
    cases i with
    | zero =>
      cases here
      exact .step unfinished passed rest
    | succ i => exact ih here

end Scope
end Reckoner
