import Reckoner.Proofs.Cursor.Run

namespace Reckoner
namespace Cursor

/-- The climbs that stand directly on each other, from the top on. -/
def climbs : List Frame → Nat
  | .leave :: .right _ _ _ :: outer => climbs outer + 1
  | _ => 0

def Frame.Above : Frame → List Frame → Prop
  | .leave, .right _ _ floor :: _ => floor ≤ 1
  | .operators, outer => climbs outer = 0
  | .right _ _ floor, outer => climbs outer ≤ floor
  | _, _ => True

def Stacked : List Frame → Prop
  | [] => True
  | frame :: outer => frame.Above outer ∧ Stacked outer

def Task.Above : Task → List Frame → Prop
  | .call .expression, frames => climbs (.leave :: frames) = 0
  | .call (.chain _ floor), frames => climbs frames ≤ floor
  | .climb _ _ _ floor, frames => climbs frames ≤ floor
  | _, _ => True

theorem Stacked.suffix {frames outer : List Frame} (h : Stacked frames) (suffix : outer <:+ frames) :
    Stacked outer := by
  induction frames with
  | nil => rwa [List.suffix_nil.mp suffix]
  | cons frame frames ih =>
    rcases List.suffix_cons_iff.mp suffix with rfl | inside
    · exact h
    · exact ih h.2 inside

theorem Stacked.climbs_le {frames : List Frame} (h : Stacked frames) : climbs frames ≤ 2 := by
  unfold climbs
  split
  · next outer =>
    obtain ⟨floor, right, _⟩ := h
    exact Nat.succ_le_succ (Nat.le_trans right floor)
  · exact Nat.zero_le 2

namespace State

structure Stands (s : State) : Prop where
  task : s.task.Above s.frames
  frames : Stacked s.frames

theorem stands_start (source : String) (tokens : List Token) (settings : Settings) (script : Script) :
    (start source tokens settings script).Stands :=
  ⟨trivial, trivial⟩

section

variable {c : Cursor} {task : Task} {frames : List Frame} {answers : List Answer} {s t : State}

theorem stands_enter {offset : Nat} {inner : List Frame} (outer : Stacked s.frames)
    (body : task.Above (inner ++ .leave :: s.frames)) (within : Stacked (inner ++ .leave :: s.frames)) :
    (s.enter offset task inner).Stands := by
  unfold enter
  split
  · exact ⟨body, within⟩
  · exact ⟨trivial, outer⟩

theorem stands_operandFrom (outer : Stacked frames) (token : Token) :
    (operandFrom ⟨c, task, frames, answers⟩ token).Stands := by
  unfold operandFrom
  split
  · split
    · exact ⟨trivial, outer⟩
    · exact ⟨trivial, outer⟩
  · exact ⟨trivial, outer⟩
  · exact ⟨rfl, trivial, outer⟩
  · exact stands_enter ⟨trivial, outer⟩ trivial ⟨trivial, trivial, outer⟩
  · exact ⟨trivial, outer⟩

theorem stands_chain {left : Expr} {floor : Nat} (below : climbs frames ≤ floor) (outer : Stacked frames)
    (h : chain ⟨c, task, frames, answers⟩ left floor = some t) : t.Stands := by
  obtain ⟨token, _, h⟩ := Option.bind_eq_some_iff.mp h
  split at h
  · cases h
    exact ⟨trivial, outer⟩
  · cases h
    exact ⟨trivial, outer⟩
  · split at h
    · obtain ⟨_, _, rfl⟩ := Option.map_eq_some_iff.mp h
      exact ⟨trivial, below, outer⟩
    · cases h
      exact ⟨trivial, outer⟩

theorem stands_climb {op : Operator} {left right : Expr} {floor : Nat} (level : floor ≤ op.level)
    (below : climbs frames ≤ floor) (outer : Stacked frames)
    (h : climb ⟨c, task, frames, answers⟩ op left right floor = some t) : t.Stands := by
  -- the floor of a climb that begins is below the level of its operator, and that one below the
  -- level of the next
  obtain ⟨token, _, h⟩ := Option.bind_eq_some_iff.mp h
  split at h
  · cases h
    exact ⟨trivial, outer⟩
  · cases h
    exact ⟨below, outer⟩
  · next next _ =>
    split at h
    · next tighter =>
      split at h
      · cases h
        have small : floor ≤ 1 := by
          have most := next.level_le
          omega
        have within : Stacked (.right op left floor :: frames) := ⟨below, outer⟩
        exact stands_enter within (Nat.succ_le_succ below) ⟨small, within⟩
      · cases h
    · cases h
      exact ⟨below, outer⟩

theorem stands_leave (above : task.Above frames) (outer : Stacked frames)
    (h : leave ⟨c, task, frames, answers⟩ = some t) : t.Stands := by
  obtain ⟨_, _, rfl⟩ := Option.map_eq_some_iff.mp h
  exact ⟨above, outer⟩

theorem stands_back {outcome : Except ParseError Expr} (stacked : Stacked frames)
    (h : back ⟨c, .back outcome, frames, answers⟩ outcome = some t) : t.Stands := by
  cases frames with
  | nil => cases h
  | cons frame frames =>
    obtain ⟨above, outer⟩ := stacked
    have leave : leave ⟨c, .back outcome, frames, answers⟩ = some t → t.Stands :=
      stands_leave trivial outer
    cases outcome with
    | error e =>
      cases frame with
      | leave => exact leave h
      | _ =>
        cases h
        exact ⟨trivial, outer⟩
    | ok e =>
      cases frame with
      | leave => exact leave h
      | close offset =>
        obtain ⟨_, _, rfl⟩ := Option.map_eq_some_iff.mp h
        exact ⟨trivial, outer⟩
      | operators =>
        cases h
        exact ⟨Nat.le_of_eq above, outer⟩
      | right op left floor =>
        cases h
        exact ⟨above, outer⟩
      | _ =>
        cases h
        exact ⟨trivial, outer⟩

theorem stands_ended (stacked : Stacked frames) (h : ended ⟨c, .script .done, frames, answers⟩ = some t) :
    t.Stands := by
  cases frames with
  | nil => cases h
  | cons frame frames =>
    cases frame with
    | leave =>
      have done : Task.Above (.script .done) frames := trivial
      exact stands_leave done stacked.2 h
    | resume next =>
      cases h
      exact ⟨trivial, stacked.2⟩
    | _ => cases h

theorem Stands.step (h : s.Stands) (sound : s.Sound) (stepped : s.step = some t) : t.Stands := by
  obtain ⟨c, task, frames, answers⟩ := s
  obtain ⟨above, stacked⟩ := h
  cases task with
  | script script =>
    cases script with
    | done => exact stands_ended stacked stepped
    | peek next =>
      obtain ⟨_, _, rfl⟩ := Option.map_eq_some_iff.mp stepped
      exact ⟨trivial, stacked⟩
    | eat next =>
      obtain ⟨_, _, rfl⟩ := Option.map_eq_some_iff.mp stepped
      exact ⟨trivial, stacked⟩
    | read goal next =>
      cases stepped
      cases goal with
      | operand => exact ⟨trivial, trivial, stacked⟩
      | chain left floor => exact ⟨Nat.zero_le _, trivial, stacked⟩
      | expression => exact ⟨rfl, trivial, stacked⟩
    | nested offset inner next =>
      cases stepped
      exact stands_enter ⟨trivial, stacked⟩ trivial ⟨trivial, trivial, stacked⟩
  | call goal =>
    cases goal with
    | operand =>
      obtain ⟨⟨token, after⟩, _, rfl⟩ := Option.map_eq_some_iff.mp stepped
      exact stands_operandFrom stacked token
    | chain left floor => exact stands_chain above stacked stepped
    | expression =>
      obtain ⟨token, _, rfl⟩ := Option.map_eq_some_iff.mp stepped
      have free : Frame.leave.Above frames := by
        cases frames with
        | nil => trivial
        | cons frame frames =>
          cases frame with
          | right => cases above
          | _ => trivial
      exact stands_enter stacked trivial ⟨above, free, stacked⟩
  | climb op left right floor => exact stands_climb sound.fits.1 above stacked stepped
  | back outcome => exact stands_back stacked stepped

theorem Stands.run (h : s.Stands) (sound : s.Sound) (run : Reaches s t) : t.Stands := by
  induction run with
  | refl => exact h
  | tail before stepped ih => exact ih.step (sound.run before).1 stepped

/-- Wherever they stand, no more than two climbs stand directly on each other. -/
theorem climbs_le_two (source : String) (tokens : List Token) (settings : Settings) (script : Script)
    (run : Reaches (start source tokens settings script) s) {outer : List Frame} (suffix : outer <:+ s.frames) :
    climbs outer ≤ 2 :=
  (((stands_start source tokens settings script).run (sound_start source tokens settings script)
    run).frames.suffix suffix).climbs_le

end
end State
end Cursor
end Reckoner
