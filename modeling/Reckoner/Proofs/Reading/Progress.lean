import Reckoner.Proofs.Reading.Failure
import Reckoner.Proofs.Reading.Grammar

namespace Reckoner

def Sentence (s : List TokenKind) : Prop := ∃ p, Forms .expression p ∧ s = p ++ [.finish]

def Begins (s : List TokenKind) : Prop := ∃ more, Sentence (s ++ more)

/-- The kinds lead from the first phrase into the second, which is still to come. -/
inductive Leads : Phrase → List TokenKind → Phrase → Prop where
  | here (p : Phrase) : Leads p [] p
  | group {s : List TokenKind} {q : Phrase} :
      Leads .expression s q → Leads .operand (.opening :: s) q
  | root {s : List TokenKind} {q : Phrase} : Leads .operand s q → Leads .operand (.root :: s) q
  | first {s : List TokenKind} {q : Phrase} : Leads .operand s q → Leads .expression s q
  | later {s t : List TokenKind} {q : Phrase} :
      Forms .operand s → Leads .tail t q → Leads .expression (s ++ t) q
  | operand {op : Operator} {s : List TokenKind} {q : Phrase} :
      Leads .operand s q → Leads .tail (.operator op :: s) q
  | link {op : Operator} {s t : List TokenKind} {q : Phrase} :
      Forms .operand s → Leads .tail t q → Leads .tail (.operator op :: s ++ t) q

/-- How far a sentence has come: an operand is awaited or one is complete, with so many
parentheses open, or its end has been reached. -/
inductive Progress where
  | awaiting (opened : Nat)
  | complete (opened : Nat)
  | ended

namespace Progress

def step : Progress → TokenKind → Option Progress
  | .awaiting k, .number | .awaiting k, .name => some (.complete k)
  | .awaiting k, .root => some (.awaiting k)
  | .awaiting k, .opening => some (.awaiting (k + 1))
  | .complete k, .operator _ => some (.awaiting k)
  | .complete (k + 1), .closing => some (.complete k)
  | .complete 0, .finish => some .ended
  | _, _ => none

def walk : Progress → List TokenKind → Option Progress
  | progress, [] => some progress
  | progress, kind :: kinds => (progress.step kind).bind fun next => next.walk kinds

theorem walk_append (progress : Progress) (s t : List TokenKind) :
    progress.walk (s ++ t) = (progress.walk s).bind fun next => next.walk t := by
  induction s generalizing progress with
  | nil => rfl
  | cons kind s ih =>
    rw [List.cons_append, walk, walk]
    cases progress.step kind with
    | none => rfl
    | some next => exact ih next

end Progress

namespace Phrase

def entry : Phrase → Nat → Progress
  | .operand, k | .expression, k => .awaiting k
  | .tail, k => .complete k

end Phrase

theorem Forms.walk {p : Phrase} {s : List TokenKind} (h : Forms p s) (k : Nat) :
    (p.entry k).walk s = some (.complete k) := by
  induction h generalizing k with
  | number => rfl
  | name => rfl
  | @group s _ ih =>
    have inside : (Progress.awaiting (k + 1)).walk s = some (.complete (k + 1)) := ih (k + 1)
    simp [Phrase.entry, Progress.walk, Progress.step, Progress.walk_append, inside]
  | @root s _ ih => exact ih k
  | last => rfl
  | @link op s t _ _ ihs iht =>
    have operand : (Progress.awaiting k).walk s = some (.complete k) := ihs k
    have tail : (Progress.complete k).walk t = some (.complete k) := iht k
    simp [Phrase.entry, Progress.walk, Progress.step, Progress.walk_append, operand, tail]
  | @expression s t _ _ ihs iht =>
    have operand : (Progress.awaiting k).walk s = some (.complete k) := ihs k
    have tail : (Progress.complete k).walk t = some (.complete k) := iht k
    simp [Phrase.entry, Progress.walk_append, operand, tail]

theorem Sentence.walk {s : List TokenKind} (h : Sentence s) : (Progress.awaiting 0).walk s = some .ended := by
  obtain ⟨p, forms, rfl⟩ := h
  have expression : (Progress.awaiting 0).walk p = some (.complete 0) := forms.walk 0
  simp [Progress.walk_append, expression, Progress.walk, Progress.step]

theorem not_begins_of_walk {s : List TokenKind} {kind : TokenKind} {progress : Progress}
    (reached : (Progress.awaiting 0).walk s = some progress) (stuck : progress.step kind = none) :
    ¬ Begins (s ++ [kind]) := by
  rintro ⟨more, sentence⟩
  have whole := sentence.walk
  rw [Progress.walk_append, Progress.walk_append, reached] at whole
  simp [Progress.walk, stuck] at whole

namespace Leads

variable {p q : Phrase} {s t : List TokenKind}

theorem completes (h : Leads p s q) : ∃ more, Forms p (s ++ more) := by
  induction h with
  | here p =>
    cases p with
    | operand => exact ⟨[.number], .number⟩
    | tail => exact ⟨[], .last⟩
    | expression => exact ⟨[.number], .expression (s := [.number]) .number .last⟩
  | group _ ih =>
    obtain ⟨more, inside⟩ := ih
    exact ⟨more ++ [.closing], by simpa using Forms.group inside⟩
  | root _ ih =>
    obtain ⟨more, operand⟩ := ih
    exact ⟨more, .root operand⟩
  | first _ ih =>
    obtain ⟨more, operand⟩ := ih
    exact ⟨more, by simpa using Forms.expression operand .last⟩
  | later operand _ ih =>
    obtain ⟨more, tail⟩ := ih
    exact ⟨more, by simpa using Forms.expression operand tail⟩
  | @operand op s q _ ih =>
    obtain ⟨more, operand⟩ := ih
    have whole : Forms .tail (.operator op :: (s ++ more) ++ []) := .link operand .last
    exact ⟨more, by simpa using whole⟩
  | @link op s t q operand _ ih =>
    obtain ⟨more, tail⟩ := ih
    have whole : Forms .tail (.operator op :: s ++ (t ++ more)) := .link operand tail
    exact ⟨more, by simpa using whole⟩

theorem begins (h : Leads .expression s q) : Begins s := by
  obtain ⟨more, forms⟩ := h.completes
  exact ⟨more ++ [.finish], s ++ more, forms, by simp⟩

theorem walk (h : Leads p s q) (k : Nat) : ∃ j, (p.entry k).walk s = some (q.entry j) := by
  induction h generalizing k with
  | here p => exact ⟨k, rfl⟩
  | group _ ih => exact ih (k + 1)
  | root _ ih => exact ih k
  | first _ ih => exact ih k
  | @later s t q operand _ ih =>
    obtain ⟨j, tail⟩ := ih k
    have operand : (Progress.awaiting k).walk s = some (.complete k) := operand.walk k
    refine ⟨j, ?_⟩
    simp only [Phrase.entry, Progress.walk_append, operand]
    exact tail
  | operand _ ih => exact ih k
  | @link op s t q operand _ ih =>
    obtain ⟨j, tail⟩ := ih k
    have operand : (Progress.awaiting k).walk s = some (.complete k) := operand.walk k
    refine ⟨j, ?_⟩
    simp only [Phrase.entry, List.cons_append, Progress.walk, Progress.step, Option.bind_some,
      Progress.walk_append, operand]
    exact tail

theorem tail_append (first : Forms .tail s) (h : Leads .tail t q) : Leads .tail (s ++ t) q := by
  induction first using Forms.tail_induction with
  | last => exact h
  | link op a b operand _ ih =>
    have joined : Leads .tail (.operator op :: a ++ (b ++ t)) q := .link operand ih
    rwa [← List.append_assoc] at joined

theorem link_tokens {t : Token} {operand used : List Token} {op : Operator} (kind : t.kind = .operator op)
    (forms : Forms .operand (operand.map Token.kind)) (h : Leads .tail (used.map Token.kind) q) :
    Leads .tail ((t :: operand ++ used).map Token.kind) q := by
  rw [List.map_append, List.map_cons, kind]
  exact .link forms h

theorem of_expression (h : Forms .expression s) : Leads .expression s .tail := by
  cases h with
  | @expression a b operand tail =>
    have all : Leads .tail (b ++ []) .tail := tail_append tail (.here .tail)
    rw [List.append_nil] at all
    exact .later operand all

end Leads

theorem spells_of_read {rules : ReadRules} {goal : Goal} {depth : Nat} {ts rest : List Token} {e : Expr}
    (h : rules.read goal depth ts = ⟨.ok e, rest⟩) :
    ∃ used, ts = used ++ rest ∧ Spells rules.limit goal used e := by
  obtain ⟨levels, derived⟩ := rules.derives_of_read goal depth ts h
  exact spells_of_derives derived

theorem forms_of_read {rules : ReadRules} {goal : Goal} {depth : Nat} {ts rest : List Token} {e : Expr}
    (h : rules.read goal depth ts = ⟨.ok e, rest⟩) :
    ∃ used, ts = used ++ rest ∧ Forms goal.phrase (used.map Token.kind) := by
  obtain ⟨used, parts, spells⟩ := spells_of_read h
  exact ⟨used, parts, spells.forms⟩

def Phrase.Refuses (q : Phrase) (kind : TokenKind) : Prop := ∀ k, (q.entry k).step kind = none

theorem refuses_operand {kind : TokenKind} (stuck : kind.beginsOperand = false) :
    Phrase.operand.Refuses kind := by
  intro k
  cases kind with
  | number | name | root | opening => cases stuck
  | operator op => rfl
  | closing => rfl
  | finish => rfl

theorem refuses_tail {kind : TokenKind} (begins : kind.beginsOperand = true) : Phrase.tail.Refuses kind := by
  intro k
  cases kind with
  | number | name | root | opening => cases k <;> rfl
  | operator op => cases begins
  | closing => cases begins
  | finish => cases begins

/-- A failed reading was led to the place where it stopped; a token that it found unexpected
there is refused by the phrase to come. -/
theorem Fails.leads {rules : ReadRules} {goal : Goal} {depth : Nat} {ts stop : List Token}
    {e : ParseError} (h : Fails rules goal depth ts e stop) :
    ∃ used q, ts = used ++ stop ∧ Leads goal.phrase (used.map Token.kind) q ∧
      ∀ text offset, e = .unexpectedToken text offset →
        e = (rules.peek stop).unexpected ∧ q.Refuses (rules.peek stop).kind := by
  induction h with
  | @noOperand depth ts stuck =>
    exact ⟨[], .operand, rfl, .here _, fun _ _ _ => ⟨rfl, refuses_operand stuck⟩⟩
  | literal => exact ⟨[], .operand, rfl, .here _, fun _ _ other => by cases other⟩
  | @group depth t ts stop e opens _ ih =>
    obtain ⟨used, q, rfl, leads, refused⟩ := ih
    refine ⟨t :: used, q, rfl, ?_, refused⟩
    rw [List.map_cons, opens]
    exact .group leads
  | @unclosed depth t ts rest inner opens inside _ =>
    obtain ⟨used, rfl, forms⟩ := forms_of_read inside
    refine ⟨t :: used, .tail, rfl, ?_, fun _ _ other => by cases other⟩
    rw [List.map_cons, opens]
    exact .group (.of_expression forms)
  | @root depth t ts stop e kind _ _ ih =>
    obtain ⟨used, q, rfl, leads, refused⟩ := ih
    refine ⟨t :: used, q, rfl, ?_, refused⟩
    rw [List.map_cons, kind]
    exact .root leads
  | deepRoot => exact ⟨[], .operand, rfl, .here _, fun _ _ other => by cases other⟩
  | deepExpression => exact ⟨[], .expression, rfl, .here _, fun _ _ other => by cases other⟩
  | first _ _ ih =>
    obtain ⟨used, q, rfl, leads, refused⟩ := ih
    exact ⟨used, q, rfl, .first leads, refused⟩
  | later _ operand _ ih =>
    obtain ⟨before, rfl, forms⟩ := forms_of_read operand
    obtain ⟨used, q, rfl, leads, refused⟩ := ih
    refine ⟨before ++ used, q, by simp, ?_, refused⟩
    rw [List.map_append]
    exact .later forms leads
  | @noOperator _ _ _ ts e refused =>
    obtain ⟨t, us, rfl, begins, same⟩ := nextOperator_eq_error refused
    exact ⟨[], .tail, rfl, .here _, fun _ _ _ => ⟨same, refuses_tail begins⟩⟩
  | @operand _ _ _ t ts stop op e kind _ _ ih =>
    obtain ⟨used, q, rfl, leads, refused⟩ := ih
    refine ⟨t :: used, q, rfl, ?_, refused⟩
    rw [List.map_cons, kind]
    exact .operand leads
  | @extend _ _ _ _ t ts mid stop op e kind _ operand _ _ ih =>
    obtain ⟨before, rfl, forms⟩ := forms_of_read operand
    obtain ⟨used, q, rfl, leads, refused⟩ := ih
    exact ⟨t :: before ++ used, q, by simp, .link_tokens kind forms leads, refused⟩
  | @deepClimb _ _ _ _ t ts mid op kind _ operand =>
    obtain ⟨before, rfl, forms⟩ := forms_of_read operand
    have leads : Leads .tail ((t :: before ++ []).map Token.kind) .tail :=
      .link_tokens kind forms (.here .tail)
    exact ⟨t :: before ++ [], .tail, by simp, leads, fun _ _ other => by cases other⟩
  | @climb _ _ _ _ t ts mid stop op e kind _ operand _ _ _ ih =>
    obtain ⟨before, rfl, forms⟩ := forms_of_read operand
    obtain ⟨used, q, rfl, leads, refused⟩ := ih
    exact ⟨t :: before ++ used, q, by simp, .link_tokens kind forms leads, refused⟩
  | @behind _ _ _ _ _ t ts mid after stop op e kind _ operand _ _ climb _ ih =>
    obtain ⟨before, rfl, forms⟩ := forms_of_read operand
    obtain ⟨between, rfl, climbed⟩ := forms_of_read climb
    obtain ⟨used, q, rfl, leads, refused⟩ := ih
    have inner : Leads .tail ((between ++ used).map Token.kind) q := by
      rw [List.map_append]
      exact .tail_append climbed leads
    exact ⟨t :: before ++ (between ++ used), q, by simp, .link_tokens kind forms inner, refused⟩

end Reckoner
