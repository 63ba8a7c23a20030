import Reckoner.Proofs.Reading.Derivation

namespace Reckoner

def TokenKind.beginsOperand : TokenKind → Bool
  | .number | .name | .root | .opening => true
  | .operator _ | .closing | .finish => false

/-- `Fails rules goal depth ts e stop`: reading the goal at this depth from `ts` fails with
`e`, and `stop` is what was still to come at that place. A chain without a tighter operator
behind its next operand fails where it cannot go on after that operand. -/
inductive Fails (rules : ReadRules) : Goal → Nat → List Token → ParseError → List Token → Prop where
  | noOperand {depth : Nat} {ts : List Token} :
      (rules.peek ts).kind.beginsOperand = false →
      Fails rules .operand depth ts (rules.peek ts).unexpected ts
  | literal {depth : Nat} {t : Token} {ts : List Token} {cause : NumberError} :
      t.kind = .number → Numeral.ofDecimal t.text rules.limit = .error cause →
      Fails rules .operand depth (t :: ts) (.invalidLiteral t.start cause) (t :: ts)
  | group {depth : Nat} {t : Token} {ts stop : List Token} {e : ParseError} :
      t.kind = .opening → Fails rules .expression depth ts e stop →
      Fails rules .operand depth (t :: ts) e stop
  | unclosed {depth : Nat} {t : Token} {ts rest : List Token} {inner : Expr} :
      t.kind = .opening → rules.read .expression depth ts = ⟨.ok inner, rest⟩ →
      (rules.peek rest).kind ≠ .closing →
      Fails rules .operand depth (t :: ts) (.unmatchedParen t.start) rest
  | root {depth : Nat} {t : Token} {ts stop : List Token} {e : ParseError} :
      t.kind = .root → depth < rules.maxDepth → Fails rules .operand (depth + 1) ts e stop →
      Fails rules .operand depth (t :: ts) e stop
  | deepRoot {depth : Nat} {t : Token} {ts : List Token} :
      t.kind = .root → rules.maxDepth ≤ depth →
      Fails rules .operand depth (t :: ts) (rules.tooDeep t.start) (t :: ts)
  | deepExpression {depth : Nat} {ts : List Token} :
      rules.maxDepth ≤ depth →
      Fails rules .expression depth ts (rules.tooDeep (rules.peek ts).start) ts
  | first {depth : Nat} {ts stop : List Token} {e : ParseError} :
      depth < rules.maxDepth → Fails rules .operand (depth + 1) ts e stop →
      Fails rules .expression depth ts e stop
  | later {depth : Nat} {ts mid stop : List Token} {left : Expr} {e : ParseError} :
      depth < rules.maxDepth → rules.read .operand (depth + 1) ts = ⟨.ok left, mid⟩ →
      Fails rules (.chain left 0) (depth + 1) mid e stop → Fails rules .expression depth ts e stop
  | noOperator {depth floor : Nat} {left : Expr} {ts : List Token} {e : ParseError} :
      nextOperator ts = .error e → Fails rules (.chain left floor) depth ts e ts
  | operand {depth floor : Nat} {left : Expr} {t : Token} {ts stop : List Token} {op : Operator}
      {e : ParseError} :
      t.kind = .operator op → floor ≤ op.level → Fails rules .operand depth ts e stop →
      Fails rules (.chain left floor) depth (t :: ts) e stop
  | extend {depth floor : Nat} {left right : Expr} {t : Token} {ts mid stop : List Token}
      {op : Operator} {e : ParseError} :
      t.kind = .operator op → floor ≤ op.level → rules.read .operand depth ts = ⟨.ok right, mid⟩ →
      tighterFollows op mid ≠ .ok true →
      Fails rules (.chain (.binary op left right) floor) depth mid e stop →
      Fails rules (.chain left floor) depth (t :: ts) e stop
  | deepClimb {depth floor : Nat} {left right : Expr} {t : Token} {ts mid : List Token}
      {op : Operator} :
      t.kind = .operator op → floor ≤ op.level → rules.read .operand depth ts = ⟨.ok right, mid⟩ →
      tighterFollows op mid = .ok true → rules.maxDepth ≤ depth →
      Fails rules (.chain left floor) depth (t :: ts) (rules.tooDeep (rules.peek mid).start) mid
  | climb {depth floor : Nat} {left right : Expr} {t : Token} {ts mid stop : List Token}
      {op : Operator} {e : ParseError} :
      t.kind = .operator op → floor ≤ op.level → rules.read .operand depth ts = ⟨.ok right, mid⟩ →
      tighterFollows op mid = .ok true → depth < rules.maxDepth →
      Fails rules (.chain right (floor + 1)) (depth + 1) mid e stop →
      Fails rules (.chain left floor) depth (t :: ts) e stop
  | behind {depth floor : Nat} {left right operand : Expr} {t : Token}
      {ts mid after stop : List Token} {op : Operator} {e : ParseError} :
      t.kind = .operator op → floor ≤ op.level → rules.read .operand depth ts = ⟨.ok right, mid⟩ →
      tighterFollows op mid = .ok true → depth < rules.maxDepth →
      rules.read (.chain right (floor + 1)) (depth + 1) mid = ⟨.ok operand, after⟩ →
      Fails rules (.chain (.binary op left operand) floor) depth after e stop →
      Fails rules (.chain left floor) depth (t :: ts) e stop

theorem nextOperator_of_beginsOperand {t : Token} {ts : List Token} (begins : t.kind.beginsOperand = true) :
    nextOperator (t :: ts) = .error t.unexpected := by
  rw [nextOperator]
  cases kind : t.kind with
  | number | name | root | opening => rfl
  | operator op => rw [kind] at begins; cases begins
  | closing => rw [kind] at begins; cases begins
  | finish => rw [kind] at begins; cases begins

theorem nextOperator_eq_error {ts : List Token} {e : ParseError} (h : nextOperator ts = .error e) :
    ∃ t us, ts = t :: us ∧ t.kind.beginsOperand = true ∧ e = t.unexpected := by
  cases ts with
  | nil => cases h
  | cons t us =>
    refine ⟨t, us, rfl, ?_⟩
    rw [nextOperator] at h
    cases kind : t.kind with
    | number | name | root | opening =>
      rw [kind] at h
      cases h
      exact ⟨rfl, rfl⟩
    | operator op => rw [kind] at h; cases h
    | closing => rw [kind] at h; cases h
    | finish => rw [kind] at h; cases h

theorem tighterFollows_eq_error {op : Operator} {ts : List Token} {e : ParseError}
    (h : tighterFollows op ts = .error e) : nextOperator ts = .error e := by
  unfold tighterFollows at h
  cases next : nextOperator ts with
  | error x => rw [next] at h; cases h; rfl
  | ok found => rw [next] at h; cases h

namespace ReadRules

def FailureBelow (rules : ReadRules) (bound : Nat) : Prop :=
  ∀ (goal : Goal) (depth : Nat) (ts : List Token) (e : ParseError) (rest : List Token),
    3 * ts.length + goal.rank < bound → rules.read goal depth ts = ⟨.error e, rest⟩ →
    ∃ stop, Fails rules goal depth ts e stop

section

variable {rules : ReadRules} {depth : Nat} {t : Token} {ts rest : List Token} {e : ParseError}

theorem fails_of_expression (failure : rules.FailureBelow (3 * ts.length + 2))
    (h : rules.read .expression depth ts = ⟨.error e, rest⟩) :
    ∃ stop, Fails rules .expression depth ts e stop := by
  rw [read_expression] at h
  split at h
  · next below =>
    split at h
    · next operand =>
      cases h
      obtain ⟨_, inner⟩ := failure .operand _ ts _ _ (by simp only [Goal.rank]; omega) operand
      exact ⟨_, .first below inner⟩
    · next left mid operand =>
      have shorter := (suffix_of_read operand).length_le
      obtain ⟨_, chain⟩ := failure (.chain left 0) _ mid _ _ (by simp only [Goal.rank]; omega) h
      exact ⟨_, .later below operand chain⟩
  · next deep =>
    cases h
    exact ⟨_, .deepExpression (Nat.le_of_not_lt deep)⟩

theorem fails_of_operand (failure : rules.FailureBelow (3 * (t :: ts).length))
    (h : rules.read .operand depth (t :: ts) = ⟨.error e, rest⟩) :
    ∃ stop, Fails rules .operand depth (t :: ts) e stop := by
  rw [List.length_cons] at failure
  rw [read_operand_cons] at h
  have stuck (begins : t.kind.beginsOperand = false) :
      Fails rules .operand depth (t :: ts) t.unexpected (t :: ts) := .noOperand begins
  cases kind : t.kind with
  | number =>
    simp only [kind] at h
    split at h
    · cases h
    · next refused => cases h; exact ⟨_, .literal kind refused⟩
  | name => simp only [kind] at h; cases h
  | opening =>
    simp only [kind] at h
    split at h
    · next inside =>
      cases h
      obtain ⟨_, inner⟩ := failure .expression _ ts _ _ (by simp only [Goal.rank]; omega) inside
      exact ⟨_, .group kind inner⟩
    · next inside =>
      cases h
      have finish : (rules.peek []).kind ≠ .closing := by
        rw [peek, rules.finish_kind]
        decide
      exact ⟨_, .unclosed kind inside finish⟩
    · next inside =>
      split at h
      · cases h
      · next other => cases h; exact ⟨_, .unclosed kind inside other⟩
  | root =>
    simp only [kind] at h
    split at h
    · next below =>
      split at h
      · next operand =>
        cases h
        obtain ⟨_, inner⟩ := failure .operand _ ts _ _ (by simp only [Goal.rank]; omega) operand
        exact ⟨_, .root kind below inner⟩
      · cases h
    · next deep => cases h; exact ⟨_, .deepRoot kind (Nat.le_of_not_lt deep)⟩
  | operator op => simp only [kind] at h; cases h; exact ⟨_, stuck (by rw [kind]; rfl)⟩
  | closing => simp only [kind] at h; cases h; exact ⟨_, stuck (by rw [kind]; rfl)⟩
  | finish => simp only [kind] at h; cases h; exact ⟨_, stuck (by rw [kind]; rfl)⟩

theorem fails_of_chain {left : Expr} {floor : Nat} (failure : rules.FailureBelow (3 * (t :: ts).length))
    (h : rules.read (.chain left floor) depth (t :: ts) = ⟨.error e, rest⟩) :
    ∃ stop, Fails rules (.chain left floor) depth (t :: ts) e stop := by
  rw [List.length_cons] at failure
  rw [read_chain_cons] at h
  split at h
  · next op kind =>
    split at h
    · cases h
    · next strong =>
      have level := Nat.le_of_not_lt strong
      split at h
      · next operand =>
        cases h
        obtain ⟨_, inner⟩ := failure .operand _ ts _ _ (by simp only [Goal.rank]; omega) operand
        exact ⟨_, .operand kind level inner⟩
      · next right mid operand =>
        have shorter := (suffix_of_read operand).length_le
        split at h
        · next follows =>
          cases h
          have plain : tighterFollows op rest ≠ .ok true := fun tight => by rw [follows] at tight; cases tight
          exact ⟨_, .extend kind level operand plain (.noOperator (tighterFollows_eq_error follows))⟩
        · next follows =>
          have plain : tighterFollows op mid ≠ .ok true := fun tight => by rw [follows] at tight; cases tight
          obtain ⟨_, chain⟩ := failure (.chain _ floor) _ mid _ _ (by simp only [Goal.rank]; omega) h
          exact ⟨_, .extend kind level operand plain chain⟩
        · next follows =>
          split at h
          · next below =>
            split at h
            · next climbing =>
              cases h
              obtain ⟨_, climb⟩ :=
                failure (.chain right (floor + 1)) _ mid _ _ (by simp only [Goal.rank]; omega) climbing
              exact ⟨_, .climb kind level operand follows below climb⟩
            · next operand' after climbing =>
              have shorter' := (suffix_of_read climbing).length_le
              obtain ⟨_, chain⟩ := failure (.chain _ floor) _ after _ _ (by simp only [Goal.rank]; omega) h
              exact ⟨_, .behind kind level operand follows below climbing chain⟩
          · next deep =>
            cases h
            exact ⟨_, .deepClimb kind level operand follows (Nat.le_of_not_lt deep)⟩
  · cases h
  · cases h
  · next noOperator noClosing noFinish =>
    cases h
    have begins : t.kind.beginsOperand = true := by
      cases kind : t.kind with
      | number | name | root | opening => rfl
      | operator op => exact absurd kind (noOperator op)
      | closing => exact absurd kind noClosing
      | finish => exact absurd kind noFinish
    exact ⟨_, .noOperator (nextOperator_of_beginsOperand begins)⟩

end

theorem fails_of_read (rules : ReadRules) (goal : Goal) (depth : Nat) (ts : List Token)
    {e : ParseError} {rest : List Token} (h : rules.read goal depth ts = ⟨.error e, rest⟩) :
    ∃ stop, Fails rules goal depth ts e stop := by
  induction goal, depth, ts using Goal.reading_induction generalizing e rest with
  | expression depth ts below => exact fails_of_expression (fun _ _ _ _ _ under => below _ _ _ under) h
  | operand_nil depth =>
    rw [read_operand_nil] at h
    cases h
    exact ⟨_, .noOperand (by rw [peek, rules.finish_kind]; rfl)⟩
  | operand_cons depth t ts below => exact fails_of_operand (fun _ _ _ _ _ under => below _ _ _ under) h
  | chain_nil left floor depth => rw [read_chain_nil] at h; cases h
  | chain_cons left floor depth t ts below =>
    exact fails_of_chain (fun _ _ _ _ _ under => below _ _ _ under) h

theorem read_chain_of_error (rules : ReadRules) (left : Expr) (floor depth : Nat) {ts : List Token}
    {e : ParseError} (refused : nextOperator ts = .error e) :
    rules.read (.chain left floor) depth ts = ⟨.error e, ts⟩ := by
  obtain ⟨t, us, rfl, begins, rfl⟩ := nextOperator_eq_error refused
  rw [read_chain_cons]
  cases kind : t.kind with
  | number | name | root | opening => rfl
  | operator op => rw [kind] at begins; cases begins
  | closing => rw [kind] at begins; cases begins
  | finish => rw [kind] at begins; cases begins

theorem read_of_fails {rules : ReadRules} {goal : Goal} {depth : Nat} {ts stop : List Token}
    {e : ParseError} (h : Fails rules goal depth ts e stop) :
    (rules.read goal depth ts).outcome = .error e := by
  have split (r : Reading) (x : ParseError) (failed : r.outcome = .error x) : ∃ rest, r = ⟨.error x, rest⟩ :=
    ⟨r.rest, failed ▸ rfl⟩
  induction h with
  | @noOperand depth ts stuck =>
    cases ts with
    | nil => rw [read_operand_nil]; rfl
    | cons t ts =>
      have here : t.kind.beginsOperand = false := stuck
      rw [read_operand_cons]
      cases kind : t.kind with
      | number | name | root | opening => rw [kind] at here; cases here
      | operator op => rfl
      | closing => rfl
      | finish => rfl
  | literal kind refused => simp only [read_operand_cons, kind, refused]
  | group kind _ ih =>
    obtain ⟨_, inside⟩ := split _ _ ih
    simp only [read_operand_cons, kind, inside]
  | @unclosed _ t ts rest inner kind inside other =>
    cases rest with
    | nil => simp only [read_operand_cons, kind, inside]
    | cons c rest =>
      have unlike : c.kind ≠ .closing := other
      simp only [read_operand_cons, kind, inside, if_neg unlike]
  | root kind below _ ih =>
    obtain ⟨_, operand⟩ := split _ _ ih
    simp only [read_operand_cons, kind, if_pos below, operand]
  | deepRoot kind deep => simp only [read_operand_cons, kind, if_neg (Nat.not_lt_of_le deep)]
  | deepExpression deep => simp only [read_expression, if_neg (Nat.not_lt_of_le deep)]
  | first below _ ih =>
    obtain ⟨_, operand⟩ := split _ _ ih
    simp only [read_expression, if_pos below, operand]
  | later below operand _ ih => simp only [read_expression, if_pos below, operand, ih]
  | noOperator refused => rw [read_chain_of_error _ _ _ _ refused]
  | operand kind level _ ih =>
    obtain ⟨_, operand⟩ := split _ _ ih
    simp only [read_chain_cons, kind, if_neg (Nat.not_lt_of_le level), operand]
  | @extend _ _ _ _ _ _ mid _ op _ kind level operand plain fails ih =>
    simp only [read_chain_cons, kind, if_neg (Nat.not_lt_of_le level), operand]
    cases follows : tighterFollows op mid with
    | error x =>
      rw [read_chain_of_error _ _ _ _ (tighterFollows_eq_error follows)] at ih
      exact ih
    | ok tight =>
      cases tight with
      | false => exact ih
      | true => exact absurd follows plain
  | deepClimb kind level operand follows deep =>
    simp only [read_chain_cons, kind, if_neg (Nat.not_lt_of_le level), operand, follows,
      if_neg (Nat.not_lt_of_le deep)]
  | climb kind level operand follows below _ ih =>
    obtain ⟨_, climb⟩ := split _ _ ih
    simp only [read_chain_cons, kind, if_neg (Nat.not_lt_of_le level), operand, follows, if_pos below, climb]
  | behind kind level operand follows below climb _ ih =>
    simp only [read_chain_cons, kind, if_neg (Nat.not_lt_of_le level), operand, follows, if_pos below,
      climb, ih]

end ReadRules
end Reckoner
