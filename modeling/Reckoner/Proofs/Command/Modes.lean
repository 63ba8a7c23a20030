import Reckoner.Command.Run
import Reckoner.Proofs.Reduction.Agreement
import Reckoner.Proofs.Reduction.Resumption

/-! The two modes of a run. Asked for the result alone, a run writes the last line of what
it writes in full; and where one mode fails the other fails in the same stage, for the same
reason. The stages are tried in one order in both: digit limit, depth limit, bindings,
reading, evaluation. -/
namespace Reckoner

def Text.lastLine (s : String) : String :=
  String.ofList (s.toList.reverse.takeWhile (· ≠ '\n')).reverse

theorem Text.lastLine_append (before : String) {last : String} (single : '\n' ∉ last.toList) :
    Text.lastLine (before ++ "\n" ++ last) = last := by
  have reversed : (before ++ "\n" ++ last).toList.reverse =
      last.toList.reverse ++ '\n' :: before.toList.reverse := by
    simp
  have kept : ∀ c ∈ last.toList.reverse, decide (c ≠ '\n') = true := by
    intro c member
    apply decide_eq_true
    rintro rfl
    exact single (List.mem_reverse.mp member)
  unfold Text.lastLine
  rw [reversed, List.takeWhile_append_of_pos kept]
  simp

theorem Numeral.digitChar_ne_newline (d : Nat) : Numeral.digitChar d ≠ '\n' := by
  -- its code is at least that of `0`, or there is no such character and it is zero
  have code (n : Nat) : (Char.ofNat n).toNat = n ∨ (Char.ofNat n).toNat = 0 := by
    unfold Char.ofNat
    by_cases valid : n.isValidChar
    · rw [dif_pos valid]
      exact .inl rfl
    · rw [dif_neg valid]
      exact .inr rfl
  intro same
  have zero : '0'.toNat = 48 := rfl
  have newline : (Numeral.digitChar d).toNat = 10 := congrArg Char.toNat same
  rcases code ('0'.toNat + d) with valid | invalid
  · have := valid.symm.trans newline
    omega
  · cases invalid.symm.trans newline

theorem Numeral.newline_not_mem_text (n : Numeral) : '\n' ∉ n.text.toList := by
  intro member
  rw [Numeral.toList_text] at member
  obtain ⟨d, _, same⟩ := List.mem_map.mp member
  exact Numeral.digitChar_ne_newline d same

theorem Answer.lastLine_text {source : String} {b : Bindings} {settings : Settings} {answer : Answer}
    (done : calculate source b settings = .ok answer) : Text.lastLine answer.text = answer.value.text := by
  obtain ⟨e, trees, _, run, lines⟩ := calculate_eq_ok_iff.mp done
  obtain ⟨before, last⟩ := Scope.stages_eq_append _ run.stages
  have shown : answer.lines = (source :: before.map Expr.text) ++ [answer.value.text] := by
    rw [lines, last, List.map_append, List.map_singleton, Expr.text_literal, List.cons_append]
  unfold Answer.text
  rw [shown, String.intercalate_append_of_ne_nil (List.cons_ne_nil _ _) (List.cons_ne_nil _ _),
    String.intercalate_singleton]
  exact Text.lastLine_append _ answer.value.newline_not_mem_text

namespace Command.Arguments

structure Asks (args : Arguments) (settings : Settings) : Prop where
  digits : args.maxDigits ≠ some 0
  depth : args.maxDepth ≠ some 0
  digitLimit : settings.digitLimit.count = args.maxDigits.getD Settings.standard.digitLimit.count
  maxDepth : settings.maxDepth = args.maxDepth.getD Settings.standard.maxDepth

/-- The first stages of a run have come out well: there are settings, bindings, and an
expression to be evaluated. -/
structure Reaches (args : Arguments) (source : String) (settings : Settings) (b : Bindings)
    (e : Expr) : Prop where
  asks : args.Asks settings
  bound : Bindings.bind args.bindings settings.digitLimit = .ok b
  read : Expr.parse source settings = .ok e

/-- How a run for the result alone and a run in full go together. Each case names the stage
that decides, and says that the ones before it have come out well. -/
inductive Paired (args : Arguments) (source : String) :
    Except Failure String → Except Failure String → Prop where
  | digitLimit : args.maxDigits = some 0 →
      Paired args source (.error (.setting .zeroDigitLimit)) (.error (.setting .zeroDigitLimit))
  | maxDepth : args.maxDigits ≠ some 0 → args.maxDepth = some 0 →
      Paired args source (.error (.setting .zeroMaxDepth)) (.error (.setting .zeroMaxDepth))
  | binding {settings : Settings} {x : BindError} : args.Asks settings →
      Bindings.bind args.bindings settings.digitLimit = .error x →
      Paired args source (.error (.binding x)) (.error (.binding x))
  | parsing {settings : Settings} {b : Bindings} {x : ParseError} : args.Asks settings →
      Bindings.bind args.bindings settings.digitLimit = .ok b → Expr.parse source settings = .error x →
      Paired args source (.error (.parsing x)) (.error (.parsing x))
  | evaluation {settings : Settings} {b : Bindings} {e : Expr} {x y : EvalError} :
      args.Reaches source settings b e → (Scope.mk b settings.digitLimit).Agree e (.error x) (.error y) →
      Paired args source (.error (.evaluation x)) (.error (.evaluation y))
  | value {settings : Settings} {b : Bindings} {e : Expr} {v : Numeral} {full : String} :
      args.Reaches source settings b e → (Scope.mk b settings.digitLimit).eval e = .ok v →
      Text.lastLine full = v.text → Paired args source (.ok v.text) (.ok full)

theorem settings_cases (args : Arguments) :
    (args.maxDigits = some 0 ∧ args.settings = .error .zeroDigitLimit) ∨
    (args.maxDigits ≠ some 0 ∧ args.maxDepth = some 0 ∧ args.settings = .error .zeroMaxDepth) ∨
    ∃ s, args.settings = .ok s ∧ args.Asks s := by
  obtain ⟨⟨fromFile, resultOnly, bindings, maxDigits, maxDepth⟩, contents⟩ := args
  rcases maxDigits with _ | _ | digits
  case some.zero => exact .inl ⟨rfl, rfl⟩
  all_goals
    refine .inr ?_
    rcases maxDepth with _ | _ | depth
    case some.zero => exact .inl ⟨by simp, rfl, rfl⟩
    all_goals exact .inr ⟨_, rfl, by simp, by simp, rfl, rfl⟩

theorem paired_evaluation {args : Arguments} {source : String} {settings : Settings} {b : Bindings}
    {e : Expr} (reaches : args.Reaches source settings b e) :
    Paired args source (resultText source b settings) ((calculate source b settings).map Answer.text) := by
  let scope : Scope := ⟨b, settings.digitLimit⟩
  have agree := scope.agree_stages e
  have alone : resultText source b settings =
      ((scope.eval e).map Numeral.text).mapError .evaluation := by
    simp only [resultText, reaches.read]
    cases scope.eval e <;> rfl
  have whole : calculate source b settings =
      ((scope.stages e).map fun pair => ⟨pair.1, source :: pair.2.map Expr.text⟩).mapError .evaluation := by
    simp only [calculate, reaches.read, Scope.workings]
    cases scope.stages e <;> rfl
  cases staged : scope.stages e with
  | error y =>
    rw [staged] at agree whole
    cases evaluated : scope.eval e with
    | error x =>
      rw [evaluated] at agree alone
      rw [alone, whole]
      exact .evaluation reaches agree
    | ok v =>
      rw [evaluated] at agree
      cases agree
  | ok pair =>
    obtain ⟨v, trees⟩ := pair
    rw [staged] at agree whole
    have evaluated : scope.eval e = .ok v := by
      generalize scope.eval e = outcome at agree
      cases agree
      rfl
    have last := Answer.lastLine_text whole
    rw [evaluated] at alone
    rw [alone, whole]
    exact .value reaches evaluated last

theorem answer_eq (args : Arguments) (source : String) (mode : Bool) :
    { args with resultOnly := mode }.answer source =
      (args.settings.mapError .setting).bind fun settings =>
        ((Bindings.bind args.bindings settings.digitLimit).mapError .binding).bind fun b =>
          if mode then resultText source b settings
          else (calculate source b settings).map Answer.text := by
  have alike : ({ args with resultOnly := mode } : Arguments).settings = args.settings := rfl
  unfold answer
  rw [alike]
  cases args.settings with
  | error x => rfl
  | ok settings =>
    dsimp only [Except.mapError, Except.bind]
    cases Bindings.bind args.bindings settings.digitLimit <;> rfl

/-- For all arguments and every source the two modes end alike: with the last line of the
full output, or in the same stage with the same failure. Only the text of a failing operation
may differ, which is shown as it was written or as it stood when it was worked out. -/
theorem answer_modes (args : Arguments) (source : String) :
    Paired args source ({ args with resultOnly := true }.answer source)
      ({ args with resultOnly := false }.answer source) := by
  simp only [answer_eq, if_true, Bool.false_eq_true, if_false]
  rcases settings_cases args with ⟨zero, failed⟩ | ⟨digits, zero, failed⟩ | ⟨settings, made, asks⟩
  · rw [failed]
    exact .digitLimit zero
  · rw [failed]
    exact .maxDepth digits zero
  · rw [made]
    dsimp only [Except.mapError, Except.bind]
    cases bound : Bindings.bind args.bindings settings.digitLimit with
    | error x => exact .binding asks bound
    | ok b =>
      dsimp only
      cases read : Expr.parse source settings with
      | error x =>
        simp only [resultText, calculate, read]
        exact .parsing asks bound read
      | ok e => exact paired_evaluation ⟨asks, bound, read⟩

end Command.Arguments
end Reckoner
