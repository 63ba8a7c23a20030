import Reckoner.Calculation
import Reckoner.Proofs.Evaluation.Meaning
import Reckoner.Proofs.Reading.RoundTrip
import Reckoner.Proofs.Reduction.Run

namespace Reckoner

namespace Expr

variable {limit : DigitLimit}

theorem Writable.literals {e : Expr} (h : e.Writable limit) (n : Numeral) (member : .literal n ∈ e.nodes) :
    n.Admitted limit :=
  writable_literal.mp (h.of_mem_nodes member)

theorem writable_plug {f : Frame} {a : Expr} (h : (f.plug a).Writable limit) :
    a.Writable limit ∧ ∀ b : Expr, b.Writable limit → (f.plug b).Writable limit := by
  cases f with
  | root => exact ⟨writable_root.mp h, fun b => writable_root.mpr⟩
  | left op r =>
    obtain ⟨part, rest⟩ := writable_binary.mp h
    exact ⟨part, fun b new => writable_binary.mpr ⟨new, rest⟩⟩
  | right op n =>
    obtain ⟨rest, part⟩ := writable_binary.mp h
    exact ⟨part, fun b new => writable_binary.mpr ⟨rest, new⟩⟩

theorem writable_plugAll {frames : List Frame} {a : Expr} (h : (plugAll frames a).Writable limit) :
    a.Writable limit ∧ ∀ b : Expr, b.Writable limit → (plugAll frames b).Writable limit := by
  induction frames generalizing a with
  | nil => exact ⟨h, fun b new => new⟩
  | cons f frames ih =>
    obtain ⟨inner, outer⟩ := ih h
    obtain ⟨part, around⟩ := writable_plug inner
    exact ⟨part, fun b new => outer _ (around b new)⟩

end Expr

namespace Scope
open Reckoner.Expr

variable {scope : Scope}

theorem admitted_of_eval {e : Expr} {n : Numeral} (writable : e.Writable scope.limit)
    (values : scope.bindings.Admitted scope.limit) (h : scope.eval e = .ok n) : n.Admitted scope.limit := by
  have judged := judged_eval e ⟨writable.literals, values⟩
  rw [h] at judged
  cases judged with
  | value admitted _ => exact admitted

theorem writable_step {e node : Expr} {frames : List Frame} {n : Numeral}
    (writable : e.Writable scope.limit) (values : scope.bindings.Admitted scope.limit)
    (found : e.next = .redex node frames) (h : scope.eval node = .ok n) :
    (plugAll frames (.literal n)).Writable scope.limit := by
  have whole : plugAll frames node = e := plugAll_locate found
  obtain ⟨part, around⟩ := writable_plugAll (whole ▸ writable)
  exact around _ (writable_literal.mpr (admitted_of_eval part values h))

theorem writable_pass {e next : Expr} (values : scope.bindings.Admitted scope.limit)
    (writable : e.Writable scope.limit) (h : scope.pass e = .ok next) : next.Writable scope.limit := by
  cases found : e.next with
  | finished n =>
    have same : scope.pass e = .ok e := by simp [pass, Pass.run, found]
    rw [same] at h
    exact Except.ok.inj h ▸ writable
  | redex node frames =>
    rw [pass_redex found] at h
    cases worked : scope.eval node with
    | error x => rw [worked] at h; cases h
    | ok n =>
      rw [worked] at h
      cases h
      exact writable_step writable values found worked

end Scope

theorem calculate_of_run {source : String} {b : Bindings} {settings : Settings} {e : Expr}
    {trees : List Expr} {outcome : Except EvalError Numeral} (read : Expr.parse source settings = .ok e)
    (run : (Scope.mk b settings.digitLimit).Run e trees outcome) :
    calculate source b settings =
      (outcome.map fun v => Answer.mk v (source :: trees.map Expr.text)).mapError .evaluation := by
  simp only [calculate, read, run.workings]
  cases outcome <;> rfl

theorem calculate_eq_ok_iff {source : String} {b : Bindings} {settings : Settings} {answer : Answer} :
    calculate source b settings = .ok answer ↔
      ∃ e trees, Expr.parse source settings = .ok e ∧
        (Scope.mk b settings.digitLimit).Run e trees (.ok answer.value) ∧
        answer.lines = source :: trees.map Expr.text := by
  constructor
  · intro done
    cases read : Expr.parse source settings with
    | error x => simp [calculate, read] at done
    | ok e =>
      obtain ⟨trees, outcome, run⟩ := (Scope.mk b settings.digitLimit).exists_run e
      rw [calculate_of_run read run] at done
      cases outcome with
      | error x => cases done
      | ok v =>
        cases done
        exact ⟨e, trees, rfl, run, rfl⟩
  · rintro ⟨e, trees, read, run, lines⟩
    obtain ⟨value, _⟩ := answer
    subst lines
    exact calculate_of_run read run

theorem calculate_text {e tree : Expr} {b : Bindings} {settings : Settings} {value : Numeral}
    {trees : List Expr} {i : Nat} (run : (Scope.mk b settings.digitLimit).Run e trees (.ok value))
    (values : b.Admitted settings.digitLimit) (writable : e.Writable settings.digitLimit)
    (here : trees[i]? = some tree) (room : 1 + tree.height ≤ settings.maxDepth) :
    calculate tree.text b settings = .ok ⟨value, tree.text :: (trees.drop i).map Expr.text⟩ := by
  have fits : tree.Writable settings.digitLimit :=
    run.keeps (fun _ _ kept passed => Scope.writable_pass values kept passed) writable tree
      (List.mem_of_getElem? here)
  have read := Expr.parse_text_of_room fits room
  exact calculate_eq_ok_iff.mpr ⟨tree, _, read, run.drop here, rfl⟩

/-- The lines of an answer are the source and the texts of all stages. Read under settings
that have room for its tree, such a text gives the same value and the lines from there on. -/
theorem calculate_resumes {source : String} {b : Bindings} {settings : Settings} {answer : Answer}
    (values : b.Admitted settings.digitLimit) (done : calculate source b settings = .ok answer) :
    ∃ e trees, Expr.parse source settings = .ok e ∧
      (Scope.mk b settings.digitLimit).stages e = .ok (answer.value, trees) ∧
      answer.lines = source :: trees.map Expr.text ∧
      answer.lines[0]? = some source ∧ answer.lines[1]? = some e.text ∧
      answer.lines.getLast? = some answer.value.text ∧
      ∀ i line, answer.lines[i + 1]? = some line →
        ∃ tree, trees[i]? = some tree ∧ tree.text = line ∧
          ∀ later : Settings, later.digitLimit = settings.digitLimit → 1 + tree.height ≤ later.maxDepth →
            calculate line b later = .ok ⟨answer.value, line :: answer.lines.drop (i + 1)⟩ := by
  obtain ⟨e, trees, read, run, lines⟩ := calculate_eq_ok_iff.mp done
  have writable : e.Writable settings.digitLimit := Expr.writable_of_parse read
  obtain ⟨later, begins⟩ := run.begins
  obtain ⟨before, last⟩ := Scope.stages_eq_append _ run.stages
  refine ⟨e, trees, read, run.stages, lines, ?_, ?_, ?_, ?_⟩
  · simp [lines]
  · simp [lines, begins]
  · rw [lines, last, List.map_append, ← List.cons_append, List.map_singleton, List.getLast?_concat,
      Expr.text_literal]
  · intro i line shown
    simp only [lines, List.getElem?_cons_succ, List.getElem?_map] at shown
    obtain ⟨tree, here, text⟩ := Option.map_eq_some_iff.mp shown
    refine ⟨tree, here, text, ?_⟩
    intro later same room
    subst text
    rw [lines, List.drop_succ_cons, ← List.map_drop]
    rw [← same] at run values writable
    exact calculate_text run values writable here room

theorem calculate_resumes_root_sum :
    let b : Bindings := ⟨[("x", ⟨[9]⟩)]⟩
    let answer : Answer := ⟨⟨[4]⟩, ["sqrt x + 1", "(sqrt x + 1)", "(sqrt 9 + 1)", "(3 + 1)", "4"]⟩
    b.Admitted .standard ∧ calculate "sqrt x + 1" b .standard = .ok answer ∧
    ∃ tree : Expr, tree.text = "(sqrt 9 + 1)" ∧
      ∀ later : Settings, later.digitLimit = .standard → 1 + tree.height ≤ later.maxDepth →
        calculate "(sqrt 9 + 1)" b later =
          .ok ⟨⟨[4]⟩, ["(sqrt 9 + 1)", "(sqrt 9 + 1)", "(3 + 1)", "4"]⟩ := by
  intro b answer
  have bound : Bindings.bind [("x", "9")] .standard = .ok b := rfl
  have values : b.Admitted .standard := Bindings.admitted_of_bind bound
  have done : calculate "sqrt x + 1" b .standard = .ok answer := by decide +kernel
  obtain ⟨_, _, _, _, _, _, _, _, lines⟩ := calculate_resumes values done
  obtain ⟨tree, _, text, again⟩ := lines 1 "(sqrt 9 + 1)" rfl
  exact ⟨values, done, tree, text, again⟩

end Reckoner
