import Reckoner.Proofs.Cursor.Reading

/-! Stepping over what is called. Frames that lie beneath those a step is about have no part in
it, so a run of a task by itself is also a run on whatever frames wait for it. A step over goes
from a state to the first one after it on the same frames; there is at most one such state. -/
namespace Reckoner
namespace Cursor
namespace State

def beneath (s : State) (outer : List Frame) : State := { s with frames := s.frames ++ outer }

/-- What the state has begun is done, and it is the first state back on the same frames. -/
def StepsOver (s t : State) : Prop :=
  ∃ first, s.step = some first ∧
    Relation.ReflTransGen (fun a b => s.frames.length < a.frames.length ∧ a.step = some b) first t ∧
    t.frames = s.frames

section

variable {s t u : State} {outer : List Frame}

theorem enter_beneath (s : State) (offset : Nat) (task : Task) (inner outer : List Frame) :
    (s.beneath outer).enter offset task inner = (s.enter offset task inner).beneath outer := by
  unfold enter beneath
  dsimp only
  split
  · simp
  · rfl

theorem operandFrom_beneath (s : State) (t : Token) (outer : List Frame) :
    (s.beneath outer).operandFrom t = (s.operandFrom t).beneath outer := by
  unfold operandFrom
  cases t.kind with
  | number =>
    have limit : (s.beneath outer).cursor.limit = s.cursor.limit := rfl
    simp only [limit]
    cases Numeral.ofDecimal t.text s.cursor.limit <;> rfl
  | root => exact enter_beneath (s.push .root) t.start (.call .operand) [] outer
  | _ => rfl

theorem chain_beneath (s : State) (left : Expr) (floor : Nat) (outer : List Frame) :
    (s.beneath outer).chain left floor = (s.chain left floor).map (·.beneath outer) := by
  unfold chain
  have same : (s.beneath outer).cursor = s.cursor := rfl
  rw [same]
  cases s.cursor.peek with
  | none => rfl
  | some t =>
    simp only [Option.bind_some]
    split
    · rfl
    · rfl
    · split
      · cases s.cursor.eat <;> rfl
      · rfl

theorem climb_beneath (s : State) (op : Operator) (left right : Expr) (floor : Nat) (outer : List Frame) :
    (s.beneath outer).climb op left right floor = (s.climb op left right floor).map (·.beneath outer) := by
  unfold climb
  have same : (s.beneath outer).cursor = s.cursor := rfl
  rw [same]
  cases s.cursor.peek with
  | none => rfl
  | some t =>
    simp only [Option.bind_some]
    split
    · rfl
    · rfl
    · split
      · split
        · exact congrArg some (enter_beneath (s.push (.right op left floor)) _ _ [] outer)
        · rfl
      · rfl

theorem leave_beneath (s : State) (outer : List Frame) :
    (s.beneath outer).leave = s.leave.map (·.beneath outer) := by
  unfold leave
  have same : (s.beneath outer).cursor = s.cursor := rfl
  rw [same]
  cases s.cursor.shallower <;> rfl

theorem close_beneath (s : State) (offset : Nat) (e : Expr) (outer : List Frame) :
    (s.beneath outer).close offset e = (s.close offset e).map (·.beneath outer) := by
  unfold close
  have same : (s.beneath outer).cursor = s.cursor := rfl
  rw [same]
  cases s.cursor.eat <;> rfl

theorem back_beneath (c : Cursor) (task : Task) (frame : Frame) (frames : List Frame) (answers : List Answer)
    (outcome : Except ParseError Expr) (outer : List Frame) :
    (beneath ⟨c, task, frame :: frames, answers⟩ outer).back outcome =
      (back ⟨c, task, frame :: frames, answers⟩ outcome).map (·.beneath outer) := by
  cases frame with
  | leave => exact leave_beneath ⟨c, task, frames, answers⟩ outer
  | close offset =>
    cases outcome with
    | error e => rfl
    | ok e => exact close_beneath ⟨c, task, frames, answers⟩ offset e outer
  | _ => cases outcome <;> rfl

theorem ended_beneath (c : Cursor) (task : Task) (frame : Frame) (frames : List Frame) (answers : List Answer)
    (outer : List Frame) :
    (beneath ⟨c, task, frame :: frames, answers⟩ outer).ended =
      (ended ⟨c, task, frame :: frames, answers⟩).map (·.beneath outer) := by
  cases frame with
  | leave => exact leave_beneath ⟨c, task, frames, answers⟩ outer
  | _ => rfl

theorem step_beneath (h : s.step = some t) (outer : List Frame) :
    (s.beneath outer).step = some (t.beneath outer) := by
  have commutes : (s.beneath outer).step = s.step.map (·.beneath outer) := by
    obtain ⟨c, task, frames, answers⟩ := s
    cases task with
    | script script =>
      cases script with
      | done =>
        cases frames with
        | nil => cases h
        | cons frame frames => exact ended_beneath c (.script .done) frame frames answers outer
      | peek next =>
        simp only [step, beneath]
        cases c.peek <;> rfl
      | eat next =>
        simp only [step, beneath]
        cases c.eat <;> rfl
      | read goal next => rfl
      | nested offset inner next =>
        exact congrArg some (enter_beneath ⟨c, _, .resume next :: frames, answers⟩ offset (.script inner) [] outer)
    | call goal =>
      cases goal with
      | operand =>
        simp only [step, operand, beneath]
        cases c.eat with
        | none => rfl
        | some eaten => exact congrArg some (operandFrom_beneath ⟨eaten.2, .call .operand, frames, answers⟩ eaten.1 outer)
      | chain left floor => exact chain_beneath ⟨c, .call (.chain left floor), frames, answers⟩ left floor outer
      | expression =>
        simp only [step, beneath]
        cases c.peek with
        | none => rfl
        | some t =>
          exact congrArg some (enter_beneath ⟨c, .call .expression, frames, answers⟩ t.start (.call .operand) [.operators] outer)
    | climb op left right floor =>
      exact climb_beneath ⟨c, .climb op left right floor, frames, answers⟩ op left right floor outer
    | back outcome =>
      cases frames with
      | nil => cases h
      | cons frame frames => exact back_beneath c (.back outcome) frame frames answers outcome outer
  rw [commutes, h]
  rfl

theorem StepsOver.reaches (h : s.StepsOver t) : Reaches s t := by
  obtain ⟨first, begun, inside, -⟩ := h
  have run : Reaches first t := by
    induction inside with
    | refl => exact .refl
    | tail _ next ih => exact ih.tail next.2
  exact .head begun run

theorem StepsOver.unique (h : s.StepsOver t) (h' : s.StepsOver u) : t = u := by
  obtain ⟨first, begun, inside, back⟩ := h
  obtain ⟨first', begun', inside', back'⟩ := h'
  obtain rfl := Option.some.inj (begun.symm.trans begun')
  -- neither of the two is deeper, so neither lies on the way to the other one
  have stuck {a b : State} (same : a.frames = s.frames)
      (run : Relation.ReflTransGen (fun a b => s.frames.length < a.frames.length ∧ a.step = some b) a b) : a = b := by
    rcases Relation.ReflTransGen.cases_head run with same | ⟨_, ⟨deeper, _⟩, _⟩
    · exact same
    · rw [same] at deeper
      exact absurd deeper (Nat.lt_irrefl _)
  have single : Relator.RightUnique fun a b : State => s.frames.length < a.frames.length ∧ a.step = some b :=
    fun _ _ _ one other => Option.some.inj (one.2.symm.trans other.2)
  rcases Relation.ReflTransGen.total_of_right_unique single inside inside' with run | run
  · exact stuck back run
  · exact (stuck back' run).symm

theorem stepsOver_step (h : s.step = some t) (same : t.frames = s.frames) : s.StepsOver t :=
  ⟨t, h, .refl, same⟩

theorem Reaches.deeper {n : Nat} (h : Reaches s t) (outer : List Frame) (more : n < outer.length) :
    Relation.ReflTransGen (fun a b => n < a.frames.length ∧ a.step = some b) (s.beneath outer) (t.beneath outer) := by
  induction h with
  | refl => exact .refl
  | @tail a b _ stepped ih =>
    have above : n < (a.beneath outer).frames.length := by
      simp only [beneath, List.length_append]
      omega
    exact ih.tail ⟨above, step_beneath stepped outer⟩

theorem Comes.across {c : Cursor} {task : Task} {inner : List Frame} {r : Except ParseError Expr}
    {stream : Stream} {frame : Frame} {answers : List Answer} (h : Comes c task inner r stream)
    (begun : s.step = some ⟨c, task, inner ++ frame :: s.frames, answers⟩) :
    ∃ d, d.Shows stream ∧
      ∀ t, step ⟨d, .back r, frame :: s.frames, answers⟩ = some t → t.frames = s.frames → s.StepsOver t := by
  obtain ⟨d, run, shows⟩ := h [] answers
  have inside := run.deeper (frame :: s.frames) (Nat.lt_succ_self s.frames.length)
  have below : inner ++ [] ++ frame :: s.frames = inner ++ frame :: s.frames := by simp
  simp only [beneath, below] at inside
  exact ⟨d, shows, fun t back same => ⟨_, begun, inside.tail ⟨Nat.lt_succ_self _, back⟩, same⟩⟩

end
end State
end Cursor
end Reckoner
