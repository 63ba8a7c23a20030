import Reckoner.Expr.Basic
import Reckoner.Limits
import Reckoner.Token.Basic

/-! Reading expressions from tokens:

    expression := operand (operator operand)*
    operand := number | name | "(" expression ")" | "sqrt" operand

A chain is climbed by binding strength. After each operator and its right operand, a
run of tighter operators goes to the right operand first; the floor of that climb is
one above the floor of the chain it leaves, and not the level of the operator just
read, so a climb takes in operators of that operator's own level once it has begun:
`8 / 2 ** 1 / 2` is `8 / ((2 ** 1) / 2)`. Operators of one level otherwise group to
the left, `**` included. One climb for each operator is enough: it stops only before
an operator that is no tighter.

An expression, the operand of a root and a climb each go one level deeper. What is
left of the tokens is always a tail of what was given, also after an error. -/
namespace Reckoner

structure ReadRules where
  limit : DigitLimit
  maxDepth : Nat
  finish : Token
  finish_kind : finish.kind = .finish

structure Reading where
  outcome : Except ParseError Expr
  rest : List Token

inductive Goal where
  | operand
  | chain (left : Expr) (floor : Nat)
  | expression

def Goal.rank : Goal → Nat
  | .operand => 0
  | .chain _ _ => 1
  | .expression => 2

/-- A chain may go on with an operator; it ends at `)` and at the end of the input. -/
def nextOperator : List Token → Except ParseError (Option Operator)
  | [] => .ok none
  | t :: _ =>
    match t.kind with
    | .operator op => .ok (some op)
    | .closing | .finish => .ok none
    | _ => .error t.unexpected

def tighterFollows (op : Operator) (ts : List Token) : Except ParseError Bool :=
  (nextOperator ts).map fun
    | some next => decide (op.level < next.level)
    | none => false

namespace ReadRules

def peek (rules : ReadRules) : List Token → Token
  | [] => rules.finish
  | t :: _ => t

def tooDeep (rules : ReadRules) (offset : Nat) : ParseError := .nestingTooDeep rules.maxDepth offset

abbrev Tail (ts : List Token) := { r : Reading // r.rest <:+ ts }

@[inline] def fail {ts rest : List Token} (tail : rest <:+ ts) (e : ParseError) : Tail ts :=
  ⟨⟨.error e, rest⟩, tail⟩

@[inline] def done {ts rest : List Token} (tail : rest <:+ ts) (e : Expr) : Tail ts :=
  ⟨⟨.ok e, rest⟩, tail⟩

@[inline] def widen {ts us : List Token} (tail : ts <:+ us) (r : Tail ts) : Tail us :=
  ⟨r.val, r.property.trans tail⟩

def readTail (rules : ReadRules) (goal : Goal) (depth : Nat) (ts : List Token) : Tail ts :=
  match goal, ts with
  | .expression, ts =>
    if depth < rules.maxDepth then
      match rules.readTail .operand (depth + 1) ts with
      | ⟨⟨.error e, _⟩, tail⟩ => fail tail e
      | ⟨⟨.ok left, _⟩, tail⟩ => widen tail (rules.readTail (.chain left 0) (depth + 1) _)
    else fail List.suffix_rfl (rules.tooDeep (rules.peek ts).start)
  | .operand, [] => fail List.suffix_rfl rules.finish.unexpected
  | .operand, t :: ts =>
    match t.kind with
    | .number =>
      match Numeral.ofDecimal t.text rules.limit with
      | .ok n => done (List.suffix_cons t ts) (.literal n)
      | .error cause => fail (List.suffix_cons t ts) (.invalidLiteral t.start cause)
    | .name => done (List.suffix_cons t ts) (.var t.text)
    | .opening =>
      match rules.readTail .expression depth ts with
      | ⟨⟨.error e, _⟩, tail⟩ => fail (tail.trans (List.suffix_cons t ts)) e
      | ⟨⟨.ok _, []⟩, tail⟩ => fail (tail.trans (List.suffix_cons t ts)) (.unmatchedParen t.start)
      | ⟨⟨.ok e, c :: rest⟩, tail⟩ =>
        let tail := ((List.suffix_cons c rest).trans tail).trans (List.suffix_cons t ts)
        if c.kind = .closing then done tail e else fail tail (.unmatchedParen t.start)
    | .root =>
      if depth < rules.maxDepth then
        match rules.readTail .operand (depth + 1) ts with
        | ⟨⟨.error e, _⟩, tail⟩ => fail (tail.trans (List.suffix_cons t ts)) e
        | ⟨⟨.ok e, _⟩, tail⟩ => done (tail.trans (List.suffix_cons t ts)) (.root e)
      else fail (List.suffix_cons t ts) (rules.tooDeep t.start)
    | _ => fail (List.suffix_cons t ts) t.unexpected
  | .chain left _, [] => done List.suffix_rfl left
  | .chain left floor, t :: ts =>
    match t.kind with
    | .operator op =>
      if op.level < floor then done List.suffix_rfl left
      else
        match rules.readTail .operand depth ts with
        | ⟨⟨.error e, _⟩, tail⟩ => fail (tail.trans (List.suffix_cons t ts)) e
        | ⟨⟨.ok right, rest⟩, tail⟩ =>
          match tighterFollows op rest with
          | .error e => fail (tail.trans (List.suffix_cons t ts)) e
          | .ok false =>
            widen (tail.trans (List.suffix_cons t ts))
              (rules.readTail (.chain (.binary op left right) floor) depth rest)
          | .ok true =>
            if depth < rules.maxDepth then
              match rules.readTail (.chain right (floor + 1)) (depth + 1) rest with
              | ⟨⟨.error e, _⟩, more⟩ => fail ((more.trans tail).trans (List.suffix_cons t ts)) e
              | ⟨⟨.ok right, rest⟩, more⟩ =>
                widen ((more.trans tail).trans (List.suffix_cons t ts))
                  (rules.readTail (.chain (.binary op left right) floor) depth rest)
            else
              fail (tail.trans (List.suffix_cons t ts)) (rules.tooDeep (rules.peek rest).start)
    | .closing | .finish => done List.suffix_rfl left
    | _ => fail List.suffix_rfl t.unexpected
termination_by 3 * ts.length + goal.rank
decreasing_by
  · simp only [Goal.rank]; omega
  · have := tail.length_le
    simp only [Goal.rank] at this ⊢; omega
  · simp only [Goal.rank, List.length_cons]; omega
  · simp only [Goal.rank, List.length_cons]; omega
  · simp only [Goal.rank, List.length_cons]; omega
  · have := tail.length_le
    simp only [Goal.rank, List.length_cons] at this ⊢; omega
  · have := tail.length_le
    simp only [Goal.rank, List.length_cons] at this ⊢; omega
  · have := tail.length_le
    have := more.length_le
    simp only [Goal.rank, List.length_cons] at *; omega

/-- Reads one goal at a depth: the outcome, and the tokens not consumed. -/
def read (rules : ReadRules) (goal : Goal) (depth : Nat) (ts : List Token) : Reading :=
  (rules.readTail goal depth ts).val

/- What a reading comes to, case by case, without the tails it is bounded by. -/

theorem read_expression (rules : ReadRules) (depth : Nat) (ts : List Token) :
    rules.read .expression depth ts =
      if depth < rules.maxDepth then
        match rules.read .operand (depth + 1) ts with
        | ⟨.error e, rest⟩ => ⟨.error e, rest⟩
        | ⟨.ok left, rest⟩ => rules.read (.chain left 0) (depth + 1) rest
      else ⟨.error (rules.tooDeep (rules.peek ts).start), ts⟩ := by
  simp only [read]
  conv => lhs; rw [readTail]
  split
  · cases h : rules.readTail .operand (depth + 1) ts with
    | mk r tail => obtain ⟨_ | _, rest⟩ := r <;> rfl
  · rfl

theorem read_operand_nil (rules : ReadRules) (depth : Nat) :
    rules.read .operand depth [] = ⟨.error rules.finish.unexpected, []⟩ := by
  simp only [read]
  rw [readTail]
  rfl

theorem read_operand_cons (rules : ReadRules) (depth : Nat) (t : Token) (ts : List Token) :
    rules.read .operand depth (t :: ts) =
      match t.kind with
      | .number =>
        match Numeral.ofDecimal t.text rules.limit with
        | .ok n => ⟨.ok (.literal n), ts⟩
        | .error cause => ⟨.error (.invalidLiteral t.start cause), ts⟩
      | .name => ⟨.ok (.var t.text), ts⟩
      | .opening =>
        match rules.read .expression depth ts with
        | ⟨.error e, rest⟩ => ⟨.error e, rest⟩
        | ⟨.ok _, []⟩ => ⟨.error (.unmatchedParen t.start), []⟩
        | ⟨.ok e, c :: rest⟩ =>
          if c.kind = .closing then ⟨.ok e, rest⟩ else ⟨.error (.unmatchedParen t.start), rest⟩
      | .root =>
        if depth < rules.maxDepth then
          match rules.read .operand (depth + 1) ts with
          | ⟨.error e, rest⟩ => ⟨.error e, rest⟩
          | ⟨.ok e, rest⟩ => ⟨.ok (.root e), rest⟩
        else ⟨.error (rules.tooDeep t.start), ts⟩
      | _ => ⟨.error t.unexpected, ts⟩ := by
  simp only [read]
  conv => lhs; rw [readTail]
  cases t.kind with
  | number => cases Numeral.ofDecimal t.text rules.limit <;> rfl
  | opening =>
    cases rules.readTail .expression depth ts with
    | mk r tail =>
      obtain ⟨_ | _, _ | ⟨c, rest⟩⟩ := r
      all_goals try rfl
      dsimp only
      split <;> rfl
  | root =>
    dsimp only
    split
    · cases rules.readTail .operand (depth + 1) ts with
      | mk r tail => obtain ⟨_ | _, rest⟩ := r <;> rfl
    · rfl
  | _ => rfl

theorem read_chain_nil (rules : ReadRules) (left : Expr) (floor depth : Nat) :
    rules.read (.chain left floor) depth [] = ⟨.ok left, []⟩ := by
  simp only [read]
  rw [readTail]
  rfl

theorem read_chain_cons (rules : ReadRules) (left : Expr) (floor depth : Nat) (t : Token)
    (ts : List Token) :
    rules.read (.chain left floor) depth (t :: ts) =
      match t.kind with
      | .operator op =>
        if op.level < floor then ⟨.ok left, t :: ts⟩
        else
          match rules.read .operand depth ts with
          | ⟨.error e, rest⟩ => ⟨.error e, rest⟩
          | ⟨.ok right, rest⟩ =>
            match tighterFollows op rest with
            | .error e => ⟨.error e, rest⟩
            | .ok false => rules.read (.chain (.binary op left right) floor) depth rest
            | .ok true =>
              if depth < rules.maxDepth then
                match rules.read (.chain right (floor + 1)) (depth + 1) rest with
                | ⟨.error e, rest⟩ => ⟨.error e, rest⟩
                | ⟨.ok right, rest⟩ => rules.read (.chain (.binary op left right) floor) depth rest
              else ⟨.error (rules.tooDeep (rules.peek rest).start), rest⟩
      | .closing | .finish => ⟨.ok left, t :: ts⟩
      | _ => ⟨.error t.unexpected, t :: ts⟩ := by
  simp only [read]
  conv => lhs; rw [readTail]
  cases t.kind with
  | operator op =>
    dsimp only
    split
    · rfl
    · cases rules.readTail .operand depth ts with
      | mk r tail =>
        obtain ⟨e | right, rest⟩ := r
        · rfl
        · dsimp only
          cases tighterFollows op rest with
          | error e => rfl
          | ok b =>
            cases b with
            | false => rfl
            | true =>
              dsimp only
              split
              · cases rules.readTail (.chain right (floor + 1)) (depth + 1) rest with
                | mk r more => obtain ⟨_ | _, rest⟩ := r <;> rfl
              · rfl
  | _ => rfl

end ReadRules
end Reckoner
