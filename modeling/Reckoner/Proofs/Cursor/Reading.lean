import Mathlib.Logic.Relation
import Reckoner.Cursor
import Reckoner.Proofs.Reading.Derivation
import Reckoner.Proofs.Reading.Grouping

/-! Reading step by step comes to what reading goal by goal comes to. A run is put together
from parts, each of which takes the frames on top of those it was begun on and leaves those
as they are. The run of a goal is built along the recursion of the reader; the loop of a
climb ends after one round, because a chain stops only before an operator below its floor. -/
namespace Reckoner

theorem Derives.stops {limit : DigitLimit} {goal : Goal} {ts rest : List Token} {e left : Expr}
    {levels floor : Nat} (h : Derives limit goal ts e rest levels) (chain : goal = .chain left floor) :
    nextOperator rest = .ok none ∨ ∃ op, nextOperator rest = .ok (some op) ∧ op.level < floor := by
  induction h generalizing left floor with
  | finished ends =>
    left
    exact ends
  | weaker next weak =>
    cases chain
    exact .inr ⟨_, next, weak⟩
  | extend _ _ _ _ _ _ ihc =>
    cases chain
    exact ihc rfl
  | climb _ _ _ _ _ _ _ _ ihc =>
    cases chain
    exact ihc rfl
  | _ => cases chain

theorem nextOperator_peek (rules : ReadRules) (ts : List Token) :
    nextOperator [rules.peek ts] = nextOperator ts := by
  cases ts with
  | nil => simp only [ReadRules.peek, nextOperator, rules.finish_kind]
  | cons t ts => rfl

namespace Cursor

def State.Reaches : State → State → Prop := Relation.ReflTransGen fun s t => s.step = some t

/-- What the cursor has before it is what the stream has. -/
structure Shows (c : Cursor) (s : Stream) : Prop where
  source : c.source = s.source
  maxDepth : c.maxDepth = s.rules.maxDepth
  limit : c.limit = s.rules.limit
  depth : c.depth = s.depth
  tokens : c.tokens.drop c.position = s.tokens

variable {c d : Cursor} {s : Stream}

theorem Shows.peek (h : c.Shows s) : c.peek = some s.peek := by
  have first : c.peek = (c.tokens.drop c.position).head? := List.head?_drop.symm
  rw [first, h.tokens]
  unfold Stream.tokens Stream.peek
  cases s.pending <;> rfl

theorem Shows.advance (h : c.Shows s) : c.advance.Shows s.eat.2 := by
  have tokens := h.tokens
  have length := congrArg List.length tokens
  rw [List.length_drop] at length
  obtain ⟨source, rules, depth, pending⟩ := s
  unfold Stream.tokens at *
  rw [List.length_append, List.length_singleton] at length
  unfold Cursor.advance
  cases pending with
  | nil =>
    rw [if_neg (by simp only [List.length_nil] at length; omega)]
    exact h
  | cons t ts =>
    rw [if_pos (by simp only [List.length_cons] at length; omega)]
    refine ⟨h.source, h.maxDepth, h.limit, h.depth, ?_⟩
    dsimp only
    rw [← List.tail_drop, tokens]
    rfl

theorem Shows.eat (h : c.Shows s) : c.eat = some (s.peek, c.advance) :=
  congrArg (Option.map fun t => (t, c.advance)) h.peek

theorem Shows.deeper (h : c.Shows s) : c.deeper.Shows { s with depth := s.depth + 1 } :=
  ⟨h.source, h.maxDepth, h.limit, congrArg (· + 1) h.depth, h.tokens⟩

theorem Shows.shallower {source : String} {rules : ReadRules} {depth : Nat} {ts : List Token}
    (h : c.Shows ⟨source, rules, depth + 1, ts⟩) :
    ∃ d, c.shallower = some d ∧ d.Shows ⟨source, rules, depth, ts⟩ := by
  have inner : c.depth = depth + 1 := h.depth
  have positive : 0 < c.depth := inner ▸ Nat.succ_pos depth
  refine ⟨_, if_pos positive, h.source, h.maxDepth, h.limit, ?_, h.tokens⟩
  exact congrArg (· - 1) inner

namespace State

/-- The task, with `inner` on top of whatever frames there are, comes back with `r`; what
there was before is left as it was. -/
def Comes (c : Cursor) (task : Task) (inner : List Frame) (r : Except ParseError Expr) (s : Stream) : Prop :=
  ∀ frames answers, ∃ d, Reaches ⟨c, task, inner ++ frames, answers⟩ ⟨d, .back r, frames, answers⟩ ∧ d.Shows s

section

variable {c c' : Cursor} {task task' : Task} {inner : List Frame} {r r' : Except ParseError Expr}
  {s s' : Stream}

theorem comes_done (h : c.Shows s) : Comes c (.back r) [] r s := fun _ _ => ⟨c, .refl, h⟩

theorem comes_step (later : List Frame)
    (h : ∀ frames answers,
      step ⟨c, task, inner ++ frames, answers⟩ = some ⟨c', task', later ++ frames, answers⟩)
    (rest : Comes c' task' later r s) : Comes c task inner r s := by
  intro frames answers
  obtain ⟨d, run, shows⟩ := rest frames answers
  exact ⟨d, .head (h frames answers) run, shows⟩

theorem comes_then (first : Comes c task [] r' s')
    (rest : ∀ d : Cursor, d.Shows s' → Comes d (.back r') inner r s) : Comes c task inner r s := by
  intro frames answers
  obtain ⟨d, run, shows⟩ := first (inner ++ frames) answers
  obtain ⟨e, run', shows'⟩ := rest d shows frames answers
  exact ⟨e, run.trans run', shows'⟩

end

section

variable {source : String} {rules : ReadRules} {depth floor : Nat} {ts mid : List Token} {t : Token}
  {c : Cursor} {left right : Expr} {op : Operator}

theorem comes_leave {r r' : Except ParseError Expr} {s : Stream} (later : List Frame)
    (h : c.Shows ⟨source, rules, depth + 1, ts⟩)
    (rest : ∀ d : Cursor, d.Shows ⟨source, rules, depth, ts⟩ → Comes d (.back r') later r s) :
    Comes c (.back r') (.leave :: later) r s := by
  obtain ⟨d, left, shows⟩ := h.shallower
  exact comes_step later (fun frames answers => congrArg (Option.map _) left) (rest d shows)

def Reads (source : String) (rules : ReadRules) (goal : Goal) (depth : Nat) (ts : List Token) : Prop :=
  ∀ c : Cursor, c.Shows ⟨source, rules, depth, ts⟩ →
    Comes c (.call goal) [] (rules.read goal depth ts).outcome
      ⟨source, rules, depth, (rules.read goal depth ts).rest⟩

def ReadsBelow (source : String) (rules : ReadRules) (bound : Nat) : Prop :=
  ∀ goal depth ts, 3 * ts.length + goal.rank < bound → Reads source rules goal depth ts

theorem enter_room {offset : Nat} {task task' : Task} {inner frames : List Frame} {answers : List Answer}
    (h : c.Shows ⟨source, rules, depth, ts⟩) (room : depth < rules.maxDepth) :
    enter ⟨c, task, frames, answers⟩ offset task' inner =
      ⟨c.deeper, task', inner ++ .leave :: frames, answers⟩ := by
  have fits : c.depth < c.maxDepth := by rwa [h.depth, h.maxDepth]
  exact if_pos fits

theorem enter_full {offset : Nat} {task task' : Task} {inner frames : List Frame} {answers : List Answer}
    (h : c.Shows ⟨source, rules, depth, ts⟩) (full : ¬ depth < rules.maxDepth) :
    enter ⟨c, task, frames, answers⟩ offset task' inner =
      ⟨c, .back (.error (rules.tooDeep offset)), frames, answers⟩ := by
  have exceeds : ¬ c.depth < c.maxDepth := by rwa [h.depth, h.maxDepth]
  unfold enter
  rw [if_neg exceeds]
  simp only [turn, ReadRules.tooDeep, h.maxDepth]

theorem comes_enter (outer : List Frame) {inner : List Frame} {offset : Nat}
    {task task' outerTask : Task} {c' : Cursor} {r : Except ParseError Expr} {s : Stream}
    (h : c.Shows ⟨source, rules, depth, ts⟩)
    (stepped : ∀ frames answers, step ⟨c', outerTask, frames, answers⟩ =
      some (enter ⟨c, task, outer ++ frames, answers⟩ offset task' inner))
    (within : depth < rules.maxDepth → Comes c.deeper task' (inner ++ .leave :: outer) r s)
    (refused : ¬ depth < rules.maxDepth →
      Comes c (.back (.error (rules.tooDeep offset))) outer r s) : Comes c' outerTask [] r s := by
  by_cases room : depth < rules.maxDepth
  · apply comes_step (inner ++ .leave :: outer) _ (within room)
    intro frames answers
    rw [List.nil_append, stepped, enter_room h room, List.append_assoc, List.cons_append]
  · apply comes_step outer _ (refused room)
    intro frames answers
    rw [List.nil_append, stepped, enter_full h room]

theorem reads_expression (below : ReadsBelow source rules (3 * ts.length + 2)) :
    Reads source rules .expression depth ts := by
  intro c shows
  have stepped (frames : List Frame) (answers : List Answer) :
      step ⟨c, .call .expression, frames, answers⟩ =
        some (enter ⟨c, .call .expression, frames, answers⟩ (rules.peek ts).start (.call .operand)
          [.operators]) :=
    congrArg (Option.map _) shows.peek
  rw [ReadRules.read_expression]
  apply comes_enter [] shows stepped
  · intro room
    rw [if_pos room]
    have first := below .operand (depth + 1) ts (by simp only [Goal.rank]; omega) c.deeper shows.deeper
    apply comes_then first
    intro d shows'
    cases operand : rules.read .operand (depth + 1) ts with
    | mk outcome mid =>
      have shorter := (ReadRules.suffix_of_read operand).length_le
      rw [operand] at shows'
      cases outcome with
      | error e =>
        exact comes_step [.leave] (fun _ _ => rfl) (comes_leave [] shows' fun _ => comes_done)
      | ok left =>
        have chain := below (.chain left 0) (depth + 1) mid (by simp only [Goal.rank]; omega) d shows'
        apply comes_step [.leave] (fun _ _ => rfl)
        exact comes_then chain fun e shows => comes_leave [] shows fun _ => comes_done
  · intro full
    rw [if_neg full]
    exact comes_done shows

theorem reads_operand_nil : Reads source rules .operand depth [] := by
  intro c shows
  have stepped (frames : List Frame) (answers : List Answer) :
      step ⟨c, .call .operand, frames, answers⟩ =
        some ⟨c.advance, .back (.error rules.finish.unexpected), frames, answers⟩ := by
    have kind : operandFrom ⟨c.advance, .call .operand, frames, answers⟩ rules.finish =
        ⟨c.advance, .back (.error rules.finish.unexpected), frames, answers⟩ := by
      simp only [operandFrom, rules.finish_kind, turn]
    exact (congrArg (Option.map _) shows.eat).trans (congrArg some kind)
  rw [ReadRules.read_operand_nil]
  exact comes_step [] stepped (comes_done shows.advance)

theorem comes_close {rest : List Token} {offset : Nat} {e : Expr}
    (shows : c.Shows ⟨source, rules, depth, rest⟩) :
    Comes c (.back (.ok e)) [.close offset]
      (if (rules.peek rest).kind = .closing then .ok e else .error (.unmatchedParen offset))
      ⟨source, rules, depth, rest.tail⟩ :=
  comes_step [] (fun _ _ => congrArg (Option.map _) shows.eat) (comes_done shows.advance)

theorem reads_operand_cons (below : ReadsBelow source rules (3 * (t :: ts).length)) :
    Reads source rules .operand depth (t :: ts) := by
  intro c shows
  have taken : c.advance.Shows ⟨source, rules, depth, ts⟩ := shows.advance
  have stepped (frames : List Frame) (answers : List Answer) :
      step ⟨c, .call .operand, frames, answers⟩ =
        some (operandFrom ⟨c.advance, .call .operand, frames, answers⟩ t) :=
    congrArg (Option.map _) shows.eat
  rw [List.length_cons] at below
  rw [ReadRules.read_operand_cons]
  unfold operandFrom at stepped
  cases kind : t.kind with
  | number =>
    have limit : c.advance.limit = rules.limit := taken.limit
    simp only [kind, limit] at stepped ⊢
    cases value : Numeral.ofDecimal t.text rules.limit with
    | ok n =>
      simp only [value] at stepped
      exact comes_step [] stepped (comes_done taken)
    | error cause =>
      simp only [value] at stepped
      exact comes_step [] stepped (comes_done taken)
  | name =>
    simp only [kind] at stepped
    exact comes_step [] stepped (comes_done taken)
  | opening =>
    simp only [kind] at stepped
    apply comes_step [.close t.start] stepped
    have inside := below .expression depth ts (by simp only [Goal.rank]; omega) _ taken
    apply comes_then inside
    intro d shows
    dsimp only
    cases expression : rules.read .expression depth ts with
    | mk outcome rest =>
      rw [expression] at shows
      cases outcome with
      | error e => exact comes_step [] (fun _ _ => rfl) (comes_done shows)
      | ok e =>
        have closed : Comes d (.back (.ok e)) [.close t.start] _ _ := comes_close shows
        cases rest with
        | nil =>
          rw [ReadRules.peek, rules.finish_kind] at closed
          exact closed
        | cons c rest =>
          rw [ReadRules.peek] at closed
          dsimp only
          split
          · next closing =>
            rw [if_pos closing] at closed
            exact closed
          · next other =>
            rw [if_neg other] at closed
            exact closed
  | root =>
    simp only [kind] at stepped
    apply comes_enter [.root] taken stepped
    · intro room
      simp only [if_pos room]
      have inside := below .operand (depth + 1) ts (by simp only [Goal.rank]; omega) _ taken.deeper
      apply comes_then inside
      intro d shows
      apply comes_leave [.root] shows
      intro d shows
      cases operand : rules.read .operand (depth + 1) ts with
      | mk outcome rest =>
        rw [operand] at shows
        cases outcome with
        | error e => exact comes_step [] (fun _ _ => rfl) (comes_done shows)
        | ok e => exact comes_step [] (fun _ _ => rfl) (comes_done shows)
    · intro full
      simp only [if_neg full]
      exact comes_step [] (fun _ _ => rfl) (comes_done taken)
  | _ =>
    simp only [kind] at stepped
    exact comes_step [] stepped (comes_done taken)

theorem climb_eq {task : Task} {frames : List Frame} {answers : List Answer}
    (shows : c.Shows ⟨source, rules, depth, mid⟩) (level : floor ≤ op.level) :
    climb ⟨c, task, frames, answers⟩ op left right floor = some
      (match tighterFollows op mid with
      | .error e => ⟨c, .back (.error e), frames, answers⟩
      | .ok false => ⟨c, .call (.chain (.binary op left right) floor), frames, answers⟩
      | .ok true =>
        enter ⟨c, task, .right op left floor :: frames, answers⟩ (rules.peek mid).start
          (.call (.chain right (floor + 1))) []) := by
  have here : c.peek = some (rules.peek mid) := shows.peek
  have small : floor + 1 < UInt8.size := by
    have most := op.level_le
    have size : UInt8.size = 256 := rfl
    omega
  unfold climb tighterFollows
  simp only [here, Option.bind_some, nextOperator_peek, if_pos small]
  cases nextOperator mid with
  | error e => rfl
  | ok found =>
    cases found with
    | none => rfl
    | some next =>
      by_cases tight : op.level < next.level
      · simp only [if_pos tight, Except.map, decide_eq_true tight]
        rfl
      · simp only [if_neg tight, Except.map, decide_eq_false tight]
        rfl

theorem not_tighter_of_chain {e : Expr} {rest : List Token} (level : floor ≤ op.level)
    (h : rules.read (.chain left (floor + 1)) depth ts = ⟨.ok e, rest⟩) :
    tighterFollows op rest = .ok false := by
  obtain ⟨_, derived⟩ := ReadRules.derives_of_read rules _ _ _ h
  unfold tighterFollows
  rcases derived.stops rfl with ends | ⟨other, next, below⟩
  · rw [ends]
    rfl
  · have weak : ¬ op.level < other.level := by omega
    rw [next]
    exact congrArg Except.ok (decide_eq_false weak)

theorem comes_climb (below : ReadsBelow source rules (3 * mid.length + 2)) (level : floor ≤ op.level)
    (shows : c.Shows ⟨source, rules, depth, mid⟩) {reading : Reading}
    (h : reading = match tighterFollows op mid with
      | .error e => ⟨.error e, mid⟩
      | .ok false => rules.read (.chain (.binary op left right) floor) depth mid
      | .ok true =>
        if depth < rules.maxDepth then
          match rules.read (.chain right (floor + 1)) (depth + 1) mid with
          | ⟨.error e, rest⟩ => ⟨.error e, rest⟩
          | ⟨.ok right, rest⟩ => rules.read (.chain (.binary op left right) floor) depth rest
        else ⟨.error (rules.tooDeep (rules.peek mid).start), mid⟩) :
    Comes c (.climb op left right floor) [] reading.outcome ⟨source, rules, depth, reading.rest⟩ := by
  -- the loop is gone through once at most: behind the chain of a climb no tighter operator is left
  have stepped (frames : List Frame) (answers : List Answer) :
      step ⟨c, .climb op left right floor, frames, answers⟩ = _ := climb_eq shows level
  subst h
  cases follows : tighterFollows op mid with
  | error e =>
    simp only [follows] at stepped
    exact comes_step [] stepped (comes_done shows)
  | ok tighter =>
    cases tighter with
    | false =>
      simp only [follows] at stepped
      have chain := below (.chain (.binary op left right) floor) depth mid (by simp only [Goal.rank]; omega)
      exact comes_step [] stepped (chain c shows)
    | true =>
      simp only [follows] at stepped
      apply comes_enter [.right op left floor] shows stepped
      · intro room
        simp only [if_pos room]
        have tighter := below (.chain right (floor + 1)) (depth + 1) mid (by simp only [Goal.rank]; omega)
        apply comes_then (tighter c.deeper shows.deeper)
        intro d shows
        apply comes_leave [.right op left floor] shows
        intro d shows
        cases climbing : rules.read (.chain right (floor + 1)) (depth + 1) mid with
        | mk outcome rest =>
          have shorter := (ReadRules.suffix_of_read climbing).length_le
          rw [climbing] at shows
          cases outcome with
          | error e => exact comes_step [] (fun _ _ => rfl) (comes_done shows)
          | ok operand =>
            have beyond (frames : List Frame) (answers : List Answer) :
                step ⟨d, .climb op left operand floor, frames, answers⟩ = _ := climb_eq shows level
            simp only [not_tighter_of_chain level climbing] at beyond
            have chain := below (.chain (.binary op left operand) floor) depth rest
              (by simp only [Goal.rank]; omega)
            apply comes_step [] (fun _ _ => rfl)
            exact comes_step [] beyond (chain d shows)
      · intro full
        simp only [if_neg full]
        exact comes_step [] (fun _ _ => rfl) (comes_done shows)

theorem chain_eq {task : Task} {frames : List Frame} {answers : List Answer}
    (shows : c.Shows ⟨source, rules, depth, ts⟩) :
    chain ⟨c, task, frames, answers⟩ left floor = some
      (match nextOperator ts with
      | .error e => ⟨c, .back (.error e), frames, answers⟩
      | .ok none => ⟨c, .back (.ok left), frames, answers⟩
      | .ok (some op) =>
        if floor ≤ op.level then ⟨c.advance, .call .operand, .right op left floor :: frames, answers⟩
        else ⟨c, .back (.ok left), frames, answers⟩) := by
  have here : c.peek = some (rules.peek ts) := shows.peek
  unfold chain
  simp only [here, shows.eat, Option.bind_some, Option.map_some, nextOperator_peek]
  cases nextOperator ts with
  | error e => rfl
  | ok found =>
    cases found with
    | none => rfl
    | some op =>
      dsimp only
      split <;> rfl

theorem reads_chain_nil : Reads source rules (.chain left floor) depth [] := by
  intro c shows
  rw [ReadRules.read_chain_nil]
  exact comes_step [] (fun _ _ => chain_eq shows) (comes_done shows)

theorem reads_chain_cons (below : ReadsBelow source rules (3 * (t :: ts).length)) :
    Reads source rules (.chain left floor) depth (t :: ts) := by
  intro c shows
  have taken : c.advance.Shows ⟨source, rules, depth, ts⟩ := shows.advance
  have stepped (frames : List Frame) (answers : List Answer) :
      step ⟨c, .call (.chain left floor), frames, answers⟩ = _ := chain_eq shows
  rw [List.length_cons] at below
  rw [ReadRules.read_chain_cons]
  unfold nextOperator at stepped
  cases kind : t.kind with
  | operator op =>
    simp only [kind] at stepped
    by_cases level : floor ≤ op.level
    · simp only [if_pos level] at stepped
      simp only [if_neg (Nat.not_lt_of_le level)]
      apply comes_step [.right op left floor] stepped
      apply comes_then (below .operand depth ts (by simp only [Goal.rank]; omega) c.advance taken)
      intro d shows
      cases operand : rules.read .operand depth ts with
      | mk outcome mid =>
        have shorter := (ReadRules.suffix_of_read operand).length_le
        rw [operand] at shows
        cases outcome with
        | error e => exact comes_step [] (fun _ _ => rfl) (comes_done shows)
        | ok right =>
          have smaller : ReadsBelow source rules (3 * mid.length + 2) :=
            fun goal depth us under => below goal depth us (by omega)
          apply comes_step [] (fun _ _ => rfl)
          exact comes_climb smaller level shows rfl
    · simp only [if_neg level] at stepped
      simp only [if_pos (Nat.lt_of_not_le level)]
      exact comes_step [] stepped (comes_done shows)
  | _ =>
    simp only [kind] at stepped
    exact comes_step [] stepped (comes_done shows)

end

theorem reads (source : String) (rules : ReadRules) (goal : Goal) (depth : Nat) (ts : List Token) :
    Reads source rules goal depth ts := by
  induction goal, depth, ts using Goal.reading_induction with
  | expression depth ts below => exact reads_expression below
  | operand_nil depth => exact reads_operand_nil
  | operand_cons depth t ts below => exact reads_operand_cons below
  | chain_nil left floor depth => exact reads_chain_nil
  | chain_cons left floor depth t ts below => exact reads_chain_cons below

/-- Whatever goal is begun on a cursor that shows a stream comes back with what the stream
answers, and the cursor then shows the stream that is left. -/
theorem comes_read {c : Cursor} {s : Stream} (shows : c.Shows s) (goal : Goal) :
    Comes c (.call goal) [] (s.read goal).1 (s.read goal).2 :=
  reads s.source s.rules goal s.depth s.pending c shows

end State
end Cursor
end Reckoner
