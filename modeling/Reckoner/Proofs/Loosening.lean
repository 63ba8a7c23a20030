import Reckoner.Calculation
import Reckoner.Proofs.Numeral.Limit
import Reckoner.Proofs.Reading.Failure
import Reckoner.Proofs.Reading.Source
import Reckoner.Proofs.Reduction.Stages

/-! The same work under looser limits. A limit can only cut the work short: whatever is done
under tight limits is done in the same way under looser ones, step for step, until a limit
is met. So an answer stays what it is when limits are raised, and so does every failure that
is not itself a limit. -/
namespace Reckoner

/- The failures that are limits. -/

def NumberError.IsLimit : NumberError → Prop
  | .tooManyDigits _ _ => True
  | .malformed _ | .negative _ _ | .divisionByZero _ => False

def ParseError.IsLimit : ParseError → Prop
  | .nestingTooDeep _ _ => True
  | .invalidLiteral _ cause => cause.IsLimit
  | _ => False

def EvalError.IsLimit : EvalError → Prop
  | .arithmetic _ cause => cause.IsLimit
  | .unknownVariable _ => False

def Failure.IsLimit : Failure → Prop
  | .parsing e => e.IsLimit
  | .evaluation e => e.IsLimit
  | .setting _ | .binding _ => False

/-- An outcome under tight limits beside the one under looser limits: they are the same, or
the first was cut short. -/
inductive Curtailed {ε α : Type} (limit : ε → Prop) : Except ε α → Except ε α → Prop where
  | same (x : Except ε α) : Curtailed limit x x
  | cut {e : ε} (x : Except ε α) : limit e → Curtailed limit (.error e) x

namespace Curtailed

variable {ε ζ α β : Type} {limit : ε → Prop} {x y : Except ε α}

theorem bind {f g : α → Except ε β} (h : Curtailed limit x y) (next : ∀ a, Curtailed limit (f a) (g a)) :
    Curtailed limit (x.bind f) (y.bind g) := by
  cases h with
  | same =>
    cases x with
    | error e => exact .same _
    | ok a => exact next a
  | cut _ reached => exact .cut _ reached

theorem map (f : α → β) (h : Curtailed limit x y) : Curtailed limit (x.map f) (y.map f) := by
  cases h with
  | same => exact .same _
  | cut _ reached => exact .cut _ reached

theorem mapError {limit' : ζ → Prop} (f : ε → ζ) (kept : ∀ e, limit e → limit' (f e))
    (h : Curtailed limit x y) : Curtailed limit' (x.mapError f) (y.mapError f) := by
  cases h with
  | same => exact .same _
  | cut _ reached => exact .cut _ (kept _ reached)

theorem ok {a : α} (h : Curtailed limit (.ok a) y) : y = .ok a := by
  cases h
  rfl

theorem of_error {e : ε} (h : Curtailed limit (.error e) y) : y = .error e ∨ limit e := by
  cases h with
  | same => exact .inl rfl
  | cut _ reached => exact .inr reached

theorem error {e : ε} (h : Curtailed limit x (.error e)) : ∃ e', x = .error e' ∧ (e' = e ∨ limit e') := by
  cases h with
  | same => exact ⟨e, rfl, .inl rfl⟩
  | cut _ reached => exact ⟨_, rfl, .inr reached⟩

end Curtailed

theorem Numeral.powBySquaring_halved {limit : DigitLimit} {base exponent : Numeral}
    (several : exponent.isZero = false) (more : exponent.isOne = false) :
    powBySquaring base exponent limit = (mul base base limit).bind fun squared =>
      (powBySquaring squared exponent.halved limit).bind fun rest =>
        if exponent.isEven then .ok rest else mul base rest limit := by
  rw [powBySquaring]
  simp only [several, more]
  cases mul base base limit with
  | error e => rfl
  | ok squared =>
    dsimp only [Except.bind]
    cases powBySquaring squared exponent.halved limit <;> rfl

section

variable {tight loose : DigitLimit} (looser : tight.count ≤ loose.count)

include looser

theorem DigitLimit.allows_of_allows {digits : Nat} (h : tight.allows digits = true) :
    loose.allows digits = true :=
  (loose.allows_iff _).mpr (Nat.le_trans ((tight.allows_iff _).mp h) looser)

namespace Numeral

theorem curtailed_within (n : Numeral) :
    Curtailed NumberError.IsLimit (n.within tight) (n.within loose) := by
  unfold within
  split
  · next fits =>
    rw [if_pos (DigitLimit.allows_of_allows looser fits)]
    exact .same _
  · exact .cut _ trivial

theorem curtailed_ofDecimal (text : String) :
    Curtailed NumberError.IsLimit (ofDecimal text tight) (ofDecimal text loose) := by
  unfold ofDecimal
  dsimp only
  split
  · exact .same _
  · exact curtailed_within looser _

theorem curtailed_mul (a b : Numeral) :
    Curtailed NumberError.IsLimit (a.mul b tight) (a.mul b loose) := by
  unfold mul
  split
  · exact .same _
  · dsimp only
    split
    · next fits =>
      rw [if_pos (DigitLimit.allows_of_allows looser fits)]
      exact curtailed_within looser _
    · exact .cut _ trivial

theorem curtailed_powBySquaring (base exponent : Numeral) :
    Curtailed NumberError.IsLimit (powBySquaring base exponent tight)
      (powBySquaring base exponent loose) := by
  -- by the halvings of the exponent, which are the same under both limits
  induction left : exponent.halvings using Nat.strongRecOn generalizing base exponent with
  | _ k ih =>
  cases zero : exponent.isZero with
  | true =>
    unfold powBySquaring
    rw [dif_pos zero, dif_pos zero]
    exact .same _
  | false =>
    cases one : exponent.isOne with
    | true =>
      unfold powBySquaring
      simp only [zero, one]
      exact .same _
    | false =>
      have fewer : exponent.halved.halvings < k := left ▸ halvings_halved zero
      rw [powBySquaring_halved zero one, powBySquaring_halved zero one]
      apply (curtailed_mul looser base base).bind
      intro squared
      apply (ih _ fewer squared exponent.halved rfl).bind
      intro rest
      split
      · exact .same _
      · exact curtailed_mul looser base rest

theorem curtailed_pow (base exponent : Numeral) :
    Curtailed NumberError.IsLimit (base.pow exponent tight) (base.pow exponent loose) := by
  unfold pow
  split
  · exact .same _
  · split
    · exact .same _
    · exact curtailed_powBySquaring looser base exponent

end Numeral

theorem Operator.curtailed_apply (op : Operator) (a b : Numeral) :
    Curtailed NumberError.IsLimit (op.apply tight a b) (op.apply loose a b) := by
  cases op with
  | add => exact Numeral.curtailed_within looser _
  | mul => exact Numeral.curtailed_mul looser a b
  | pow => exact Numeral.curtailed_pow looser a b
  | sub | div | rem => exact .same _

namespace Scope
open Reckoner.Expr

variable (b : Bindings)

theorem curtailed_combine (op : Operator) (l r : Expr) (m n : Numeral) :
    Curtailed EvalError.IsLimit ((Scope.mk b tight).combine op l r m n)
      ((Scope.mk b loose).combine op l r m n) := by
  have raised (limit : DigitLimit) : (Scope.mk b limit).combine op l r m n =
      (op.apply limit m n).mapError (.arithmetic (Expr.binary op l r).text) := by
    unfold combine
    cases op.apply limit m n <;> rfl
  rw [raised, raised]
  exact (op.curtailed_apply looser m n).mapError _ fun _ reached => reached

theorem curtailed_eval (e : Expr) :
    Curtailed EvalError.IsLimit ((Scope.mk b tight).eval e) ((Scope.mk b loose).eval e) := by
  induction e with
  | literal n =>
    rw [eval_literal, eval_literal]
    exact .same _
  | var x =>
    rw [eval_var, eval_var]
    exact .same _
  | root e ih =>
    rw [eval_root, eval_root]
    exact ih.map Numeral.sqrt
  | binary op l r ihl ihr =>
    rw [eval_binary, eval_binary]
    exact ihl.bind fun m => ihr.bind fun n => curtailed_combine looser b op l r m n

theorem curtailed_stages (e : Expr) :
    Curtailed EvalError.IsLimit ((Scope.mk b tight).stages e) ((Scope.mk b loose).stages e) := by
  -- by what is left to be done; which node comes next does not depend on the limits
  induction left : e.operations using Nat.strongRecOn generalizing e with
  | _ k ih =>
  cases found : e.next with
  | finished n =>
    rw [stages_finished _ found, stages_finished _ found]
    exact .same _
  | redex node frames =>
    rw [stages_redex _ found, stages_redex _ found]
    apply (curtailed_eval looser b node).bind
    intro n
    have fewer : (plugAll frames (.literal n)).operations < k := left ▸ operations_next found n
    exact (ih _ fewer _ rfl).map _

theorem curtailed_workings (e : Expr) :
    Curtailed EvalError.IsLimit ((Scope.mk b tight).workings e) ((Scope.mk b loose).workings e) :=
  (curtailed_stages looser b e).map _

end Scope

theorem Derives.loosen {goal : Goal} {ts rest : List Token} {e : Expr} {levels : Nat}
    (h : Derives tight goal ts e rest levels) : Derives loose goal ts e rest levels := by
  induction h with
  | number kind value =>
    have same := Numeral.curtailed_ofDecimal looser
    exact .number kind (value ▸ same _).ok
  | name kind => exact .name kind
  | group opens _ closes ih => exact .group opens ih closes
  | root kind _ ih => exact .root kind ih
  | expression _ _ ihl ihr => exact .expression ihl ihr
  | finished ends => exact .finished ends
  | weaker next weak => exact .weaker next weak
  | extend kind level _ follows _ iho ihc => exact .extend kind level iho follows ihc
  | climb kind level _ follows _ _ iho ihr ihc => exact .climb kind level iho follows ihr ihc

end

namespace ReadRules

structure Looser (tight loose : ReadRules) : Prop where
  digits : tight.limit.count ≤ loose.limit.count
  depth : tight.maxDepth ≤ loose.maxDepth
  finish : tight.finish = loose.finish

variable {tight loose : ReadRules}

theorem Looser.peek (h : tight.Looser loose) (ts : List Token) : tight.peek ts = loose.peek ts := by
  cases ts with
  | nil => exact h.finish
  | cons t ts => rfl

theorem Looser.read (h : tight.Looser loose) {goal : Goal} {depth : Nat} {ts rest : List Token} {e : Expr}
    (done : tight.read goal depth ts = ⟨.ok e, rest⟩) : loose.read goal depth ts = ⟨.ok e, rest⟩ := by
  obtain ⟨levels, derived⟩ := tight.derives_of_read goal depth ts done
  rcases tight.read_of_derives derived depth with ⟨room, _⟩ | ⟨_, offset, after, failed⟩
  · rcases loose.read_of_derives (derived.loosen h.digits) depth with ⟨_, done'⟩ | ⟨deep, _⟩
    · exact done'
    · have deeper := h.depth
      omega
  · rw [failed] at done
    cases done

theorem Looser.fails (h : tight.Looser loose) {goal : Goal} {depth : Nat} {ts stop : List Token}
    {e : ParseError} (failure : Fails tight goal depth ts e stop) :
    e.IsLimit ∨ Fails loose goal depth ts e stop := by
  have deeper {depth : Nat} (below : depth < tight.maxDepth) : depth < loose.maxDepth :=
    Nat.lt_of_lt_of_le below h.depth
  induction failure with
  | noOperand stuck =>
    rw [h.peek] at stuck ⊢
    exact .inr (.noOperand stuck)
  | @literal depth t ts cause kind refused =>
    have same := Numeral.curtailed_ofDecimal h.digits t.text
    rw [refused] at same
    rcases same.of_error with loosened | reached
    · exact .inr (.literal kind loosened)
    · exact .inl reached
  | group opens _ ih => exact ih.imp_right (.group opens)
  | unclosed opens inside other => exact .inr (.unclosed opens (h.read inside) (h.peek _ ▸ other))
  | root kind below _ ih => exact ih.imp_right (.root kind (deeper below))
  | deepRoot => exact .inl trivial
  | deepExpression => exact .inl trivial
  | first below _ ih => exact ih.imp_right (.first (deeper below))
  | later below operand _ ih => exact ih.imp_right (.later (deeper below) (h.read operand))
  | noOperator refused => exact .inr (.noOperator refused)
  | operand kind level _ ih => exact ih.imp_right (.operand kind level)
  | extend kind level operand plain _ ih => exact ih.imp_right (.extend kind level (h.read operand) plain)
  | deepClimb => exact .inl trivial
  | climb kind level operand follows below _ ih =>
    exact ih.imp_right (.climb kind level (h.read operand) follows (deeper below))
  | behind kind level operand follows below climb _ ih =>
    exact ih.imp_right (.behind kind level (h.read operand) follows (deeper below) (h.read climb))

end ReadRules

theorem Expr.curtailed_parse (source : String) {tight loose : Settings}
    (digits : tight.digitLimit.count ≤ loose.digitLimit.count) (depth : tight.maxDepth ≤ loose.maxDepth) :
    Curtailed ParseError.IsLimit (parse source tight) (parse source loose) := by
  cases blank : Text.allBlank source with
  | true =>
    simp only [parse, parseOr, blank]
    exact .same _
  | false =>
    cases scanned : Token.tokenize source with
    | error e =>
      simp only [parse, parseOr, blank, scanned]
      exact .same _
    | ok tokens =>
      obtain ⟨body, stop, rfl, _⟩ := Token.tokenize_split scanned
      have looser : (tight.rules stop).Looser (loose.rules stop) := ⟨digits, depth, rfl⟩
      rw [parse_of_tokens blank scanned, parse_of_tokens blank scanned]
      cases read : (tight.rules stop).read .expression 0 body with
      | mk outcome rest =>
        cases outcome with
        | ok e =>
          rw [looser.read read]
          simp only [looser.peek]
          exact .same _
        | error e =>
          obtain ⟨_, failure⟩ := (tight.rules stop).fails_of_read .expression 0 body read
          rcases looser.fails failure with reached | failure
          · exact .cut _ reached
          · have failed := ReadRules.read_of_fails failure
            generalize (loose.rules stop).read .expression 0 body = reading at failed ⊢
            obtain ⟨outcome, after⟩ := reading
            obtain rfl : outcome = .error e := failed
            exact .same _

theorem curtailed_calculate (source : String) (b : Bindings) {tight loose : Settings}
    (digits : tight.digitLimit.count ≤ loose.digitLimit.count) (depth : tight.maxDepth ≤ loose.maxDepth) :
    Curtailed Failure.IsLimit (calculate source b tight) (calculate source b loose) := by
  have stages (settings : Settings) : calculate source b settings =
      ((Expr.parse source settings).mapError .parsing).bind fun e =>
        (((Scope.mk b settings.digitLimit).workings e).mapError .evaluation).map fun (value, lines) =>
          ⟨value, source :: lines⟩ := by
    unfold calculate
    cases Expr.parse source settings with
    | error x => rfl
    | ok e =>
      dsimp only [Except.mapError, Except.bind]
      cases (Scope.mk b settings.digitLimit).workings e <;> rfl
  rw [stages, stages]
  have parsed : Curtailed Failure.IsLimit ((Expr.parse source tight).mapError .parsing)
      ((Expr.parse source loose).mapError .parsing) :=
    (Expr.curtailed_parse source digits depth).mapError _ fun _ reached => reached
  apply parsed.bind
  intro e
  have worked : Curtailed Failure.IsLimit
      (((Scope.mk b tight.digitLimit).workings e).mapError .evaluation)
      (((Scope.mk b loose.digitLimit).workings e).mapError .evaluation) :=
    (Scope.curtailed_workings digits b e).mapError _ fun _ reached => reached
  exact worked.map _

/-- An answer stays the same, value and lines, when limits are raised. A failure under the
looser limits is a failure under the tighter ones, the same one or a limit. -/
theorem calculate_loosened (source : String) (b : Bindings) {tight loose : Settings}
    (digits : tight.digitLimit.count ≤ loose.digitLimit.count) (depth : tight.maxDepth ≤ loose.maxDepth) :
    (∀ answer, calculate source b tight = .ok answer → calculate source b loose = .ok answer) ∧
    ∀ x, calculate source b loose = .error x →
      ∃ y, calculate source b tight = .error y ∧ (y = x ∨ y.IsLimit) := by
  have curtailed := curtailed_calculate source b digits depth
  constructor
  · intro answer done
    rw [done] at curtailed
    exact curtailed.ok
  · intro x failed
    rw [failed] at curtailed
    exact curtailed.error

/-- Two digits are enough for `7 * 9 - 8`. They are not for `9 - 12 * 9`, which is negative
where three are allowed. -/
theorem calculate_loosened_difference :
    let tight : Settings := ⟨⟨2, by decide⟩, 4, by decide⟩
    let loose : Settings := ⟨⟨3, by decide⟩, 9, by decide⟩
    let answer : Answer := ⟨⟨[5, 5]⟩, ["7 * 9 - 8", "((7 * 9) - 8)", "(63 - 8)", "55"]⟩
    let negative : Failure := .evaluation (.arithmetic "(9 - 108)" (.negative "9" "108"))
    (tight.digitLimit.count ≤ loose.digitLimit.count ∧ tight.maxDepth ≤ loose.maxDepth) ∧
    (calculate "7 * 9 - 8" .empty tight = .ok answer ∧ calculate "7 * 9 - 8" .empty loose = .ok answer) ∧
    calculate "9 - 12 * 9" .empty loose = .error negative ∧
    ∃ y, calculate "9 - 12 * 9" .empty tight = .error y ∧ (y = negative ∨ y.IsLimit) := by
  intro tight loose answer negative
  have digits : tight.digitLimit.count ≤ loose.digitLimit.count := by decide
  have depth : tight.maxDepth ≤ loose.maxDepth := by decide
  have done : calculate "7 * 9 - 8" .empty tight = .ok answer := by decide +kernel
  have failed : calculate "9 - 12 * 9" .empty loose = .error negative := by decide +kernel
  exact ⟨⟨digits, depth⟩, ⟨done, (calculate_loosened _ _ digits depth).1 answer done⟩,
    failed, (calculate_loosened _ _ digits depth).2 negative failed⟩

end Reckoner
