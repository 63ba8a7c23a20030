import Reckoner.Proofs.Reduction.Resumption

namespace Reckoner

/-- Under bindings that fit the digit limit every literal fits it, in every tree of the run
of every source, whether the run fails later or not; and so does the value. -/
theorem calculate_keeps_limit (source : String) {b : Bindings} {settings : Settings}
    (values : b.Admitted settings.digitLimit) :
    (∀ e, Expr.parse source settings = .ok e →
      (∃ trees outcome, (Scope.mk b settings.digitLimit).Run e trees outcome ∧
        calculate source b settings =
          (outcome.map fun v => Answer.mk v (source :: trees.map Expr.text)).mapError .evaluation) ∧
      ∀ trees outcome, (Scope.mk b settings.digitLimit).Run e trees outcome →
        ∀ tree ∈ trees, ∀ n, Expr.literal n ∈ tree.nodes → n.digitCount ≤ settings.digitLimit.count) ∧
    ∀ answer, calculate source b settings = .ok answer →
      answer.value.digitCount ≤ settings.digitLimit.count := by
  let scope : Scope := ⟨b, settings.digitLimit⟩
  have bounded {e : Expr} {trees : List Expr} {outcome : Except EvalError Numeral}
      (read : Expr.parse source settings = .ok e) (run : scope.Run e trees outcome) :
      ∀ tree ∈ trees, ∀ n, Expr.literal n ∈ tree.nodes → n.Admitted settings.digitLimit := by
    intro tree member
    have written : ∀ tree ∈ trees, tree.Writable scope.limit :=
      run.keeps (fun _ _ kept passed => Scope.writable_pass values kept passed) (Expr.writable_of_parse read)
    exact (written tree member).literals
  constructor
  · intro e read
    obtain ⟨trees, outcome, run⟩ := scope.exists_run e
    refine ⟨⟨trees, outcome, run, calculate_of_run read run⟩, ?_⟩
    intro trees outcome run tree member n literal
    exact (bounded read run tree member n literal).2
  · intro answer done
    obtain ⟨e, trees, read, run, _⟩ := calculate_eq_ok_iff.mp done
    exact (bounded read run _ run.value_mem _ List.mem_cons_self).2

theorem calculate_keeps_limit_zero_divisor :
    let b : Bindings := ⟨[("x", ⟨[0]⟩)]⟩
    let settings : Settings := ⟨⟨3, by decide⟩, 256, by decide⟩
    let e : Expr := .binary .sub (.literal ⟨[0, 0, 1]⟩) (.binary .div (.literal ⟨[1]⟩) (.var "x"))
    b.Admitted settings.digitLimit ∧ Expr.parse "100 - 1 / x" settings = .ok e ∧
    calculate "100 - 1 / x" b settings =
      .error (.evaluation (.arithmetic "(1 / 0)" (.divisionByZero "1"))) ∧
    ∃ trees, (Scope.mk b settings.digitLimit).Run e trees
        (.error (.arithmetic "(1 / 0)" (.divisionByZero "1"))) ∧
      ∀ tree ∈ trees, ∀ n, Expr.literal n ∈ tree.nodes → n.digitCount ≤ 3 := by
  intro b settings e
  have bound : Bindings.bind [("x", "0")] settings.digitLimit = .ok b := rfl
  have values : b.Admitted settings.digitLimit := Bindings.admitted_of_bind bound
  have read : Expr.parse "100 - 1 / x" settings = .ok e := by decide +kernel
  have failed : calculate "100 - 1 / x" b settings =
      .error (.evaluation (.arithmetic "(1 / 0)" (.divisionByZero "1"))) := by decide +kernel
  obtain ⟨⟨trees, outcome, run, reported⟩, within⟩ := (calculate_keeps_limit "100 - 1 / x" values).1 e read
  rw [failed] at reported
  cases outcome with
  | ok v => cases reported
  | error x =>
    cases reported
    exact ⟨values, read, failed, trees, run, within trees _ run⟩

end Reckoner
