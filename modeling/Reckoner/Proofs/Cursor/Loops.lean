import Reckoner.Proofs.Cursor.Climbs
import Reckoner.Proofs.Cursor.StepsOver
import Reckoner.Proofs.Reading.Progress

namespace Reckoner
namespace Cursor

variable {c : Cursor}

def Offers (c : Cursor) (op : Operator) : Prop := ∃ t, c.peek = some t ∧ t.kind = .operator op

section

variable {source : String} {rules : ReadRules} {depth : Nat} {ts rest : List Token} {op : Operator}

theorem offers_of_next (shows : c.Shows ⟨source, rules, depth, ts⟩) (next : nextOperator ts = .ok (some op)) :
    c.Offers op := by
  obtain ⟨t, rest, rfl, kind⟩ := nextOperator_eq_some next
  exact ⟨t, shows.peek, kind⟩

theorem Offers.next (h : c.Offers op) (shows : c.Shows ⟨source, rules, depth, ts⟩) :
    nextOperator ts = .ok (some op) := by
  obtain ⟨t, here, kind⟩ := h
  have same : t = rules.peek ts := Option.some.inj (here.symm.trans shows.peek)
  rw [same] at kind
  rw [← nextOperator_peek rules ts]
  simp only [nextOperator, kind]

theorem Shows.position {s : Stream} (h : c.Shows s) :
    c.position + s.pending.length + 1 = c.tokens.length := by
  have length := congrArg List.length h.tokens
  simp only [Stream.tokens, List.length_drop, List.length_append, List.length_singleton] at length
  omega

theorem shorter_of_operand {e : Expr} (h : rules.read .operand depth ts = ⟨.ok e, rest⟩) :
    rest.length < ts.length := by
  obtain ⟨used, rfl, forms⟩ := forms_of_read h
  cases used with
  | nil => cases forms
  | cons t used =>
    simp only [List.length_append, List.length_cons]
    omega

end

namespace State

/-- The inner loop is gone through once more: the operator that comes next is tighter. -/
def Begins (s : State) : Prop :=
  ∃ op left right floor next,
    s.task = .climb op left right floor ∧ s.cursor.Offers next ∧ op.level < next.level

def Refused (s t : State) : Prop :=
  s.cursor.maxDepth ≤ s.cursor.depth ∧
    ∃ offset, t.task = .back (.error (.nestingTooDeep s.cursor.maxDepth offset))

def ClimbBegun (s : State) (op : Operator) (left right : Expr) (floor : Nat) (t : State) : Prop :=
  t.task = .call (.chain right (floor + 1)) ∧ t.frames = .leave :: .right op left floor :: s.frames ∧
    ∃ u, t.step = some u ∧ u.task = .call .operand ∧ u.cursor.position = s.cursor.position + 1

/-- A round of the chain that `s` is about has read its right operand, and its inner loop has
been gone through so many times since. -/
inductive Round (s : State) : Nat → State → Prop where
  | operand {t : State} {op : Operator} {left right : Expr} {floor : Nat} :
      s.task = .call (.chain left floor) → s.StepsOver t → t.task = .climb op left right floor → Round s 0 t
  | climb {n : Nat} {t u : State} {op : Operator} {left right : Expr} {floor : Nat} :
      Round s n t → t.StepsOver u → u.task = .climb op left right floor → Round s (n + 1) u

section

variable {s t u : State} {op : Operator} {left right : Expr} {floor n : Nat}

theorem StepsOver.sound (across : s.StepsOver t) (h : s.Sound) : t.Sound ∧ s.cursor.Follows t.cursor :=
  h.run across.reaches

theorem reaches_of_stepsOver (run : Relation.ReflTransGen StepsOver s t) : Reaches s t := by
  induction run with
  | refl => exact .refl
  | tail _ across ih => exact ih.trans across.reaches

theorem exists_stepsOver_chain (h : s.Sound) (task : s.task = .call (.chain left floor)) :
    ∃ t, s.StepsOver t ∧
      ((∃ outcome, t.task = .back outcome) ∨
        ∃ op right, s.cursor.Offers op ∧ t.task = .climb op left right floor ∧
          s.cursor.position + 2 ≤ t.cursor.position) := by
  obtain ⟨c, _, frames, answers⟩ := s
  subst task
  obtain ⟨⟨source, rules, depth, ts⟩, shows⟩ := h.cursor.shows
  have stepped : step ⟨c, .call (.chain left floor), frames, answers⟩ = _ := chain_eq shows
  cases next : nextOperator ts with
  | error e =>
    simp only [next] at stepped
    exact ⟨_, stepsOver_step stepped rfl, .inl ⟨_, rfl⟩⟩
  | ok found =>
    cases found with
    | none =>
      simp only [next] at stepped
      exact ⟨_, stepsOver_step stepped rfl, .inl ⟨_, rfl⟩⟩
    | some op =>
      simp only [next] at stepped
      by_cases strong : floor ≤ op.level
      · rw [if_pos strong] at stepped
        obtain ⟨token, after, rfl, kind⟩ := nextOperator_eq_some next
        have taken : c.advance.Shows ⟨source, rules, depth, after⟩ := shows.advance
        obtain ⟨d, shown, across⟩ := (comes_read taken .operand).across stepped
        cases operand : rules.read .operand depth after with
        | mk outcome rest =>
          simp only [Stream.read, operand] at shown across
          cases outcome with
          | error e => exact ⟨_, across _ rfl rfl, .inl ⟨_, rfl⟩⟩
          | ok right =>
            have step := across ⟨d, .climb op left right floor, frames, answers⟩ rfl rfl
            have follows := (step.sound h).2.tokens
            refine ⟨_, step, .inr ⟨op, right, offers_of_next shows next, rfl, ?_⟩⟩
            have shorter := shorter_of_operand operand
            have before := shows.position
            have behind := shown.position
            dsimp only at follows before behind ⊢
            rw [follows] at behind
            simp only [List.length_cons] at before
            omega
      · rw [if_neg strong] at stepped
        exact ⟨_, stepsOver_step stepped rfl, .inl ⟨_, rfl⟩⟩

theorem begins_iff {source : String} {rules : ReadRules} {depth : Nat} {ts : List Token}
    {frames : List Frame} {answers : List Answer} (shows : c.Shows ⟨source, rules, depth, ts⟩) :
    Begins ⟨c, .climb op left right floor, frames, answers⟩ ↔ tighterFollows op ts = .ok true := by
  rw [tighterFollows_eq_true_iff]
  constructor
  · rintro ⟨_, _, _, _, next, task, offers, above⟩
    cases task
    exact ⟨next, offers.next shows, above⟩
  · rintro ⟨next, ahead, above⟩
    exact ⟨op, left, right, floor, next, rfl, offers_of_next shows ahead, above⟩

theorem not_begins_of_weak {source : String} {rules : ReadRules} {depth : Nat} {ts : List Token}
    {frames : List Frame} {answers : List Answer} (shows : c.Shows ⟨source, rules, depth, ts⟩)
    (weak : tighterFollows op ts = .ok false) :
    ¬ Begins ⟨c, .climb op left right floor, frames, answers⟩ := by
  intro begins
  cases ((begins_iff shows).mp begins).symm.trans weak

theorem exists_stepsOver_climb (h : s.Sound) (task : s.task = .climb op left right floor) :
    ∃ t, s.StepsOver t ∧
      ((∃ outcome, t.task = .back outcome) ∨
        (¬ s.Begins ∧ t = s.turn (.call (.chain (.binary op left right) floor))) ∨
        ∃ operand, s.Begins ∧ t.task = .climb op left operand floor ∧ ¬ t.Begins) := by
  obtain ⟨c, _, frames, answers⟩ := s
  subst task
  obtain ⟨⟨source, rules, depth, mid⟩, shows⟩ := h.cursor.shows
  have level : floor ≤ op.level := h.fits.1
  have stepped : step ⟨c, .climb op left right floor, frames, answers⟩ = _ := climb_eq shows level
  cases follows : tighterFollows op mid with
  | error e =>
    simp only [follows] at stepped
    exact ⟨_, stepsOver_step stepped rfl, .inl ⟨_, rfl⟩⟩
  | ok tighter =>
    cases tighter with
    | false =>
      simp only [follows] at stepped
      exact ⟨_, stepsOver_step stepped rfl, .inr (.inl ⟨not_begins_of_weak shows follows, rfl⟩)⟩
    | true =>
      simp only [follows] at stepped
      by_cases room : depth < rules.maxDepth
      · rw [enter_room shows room] at stepped
        have tighter := comes_read shows.deeper (.chain right (floor + 1))
        cases climbing : rules.read (.chain right (floor + 1)) (depth + 1) mid with
        | mk outcome rest =>
          simp only [Stream.read, climbing] at tighter
          have nested : Comes c.deeper (.call (.chain right (floor + 1))) [.leave] outcome
              ⟨source, rules, depth, rest⟩ :=
            comes_then tighter fun d shows => comes_leave [] shows fun _ => comes_done
          obtain ⟨d, shown, across⟩ := nested.across stepped
          cases outcome with
          | error e => exact ⟨_, across _ rfl rfl, .inl ⟨_, rfl⟩⟩
          | ok operand =>
            have again := not_tighter_of_chain level climbing
            exact ⟨_, across _ rfl rfl, .inr (.inr ⟨operand, (begins_iff shows).mpr follows, rfl,
              not_begins_of_weak shown again⟩)⟩
      · rw [enter_full shows room] at stepped
        have refused : Comes c (.back (.error (rules.tooDeep (rules.peek mid).start))) [] _ _ := comes_done shows
        obtain ⟨d, _, across⟩ := refused.across stepped
        exact ⟨_, across _ rfl rfl, .inl ⟨_, rfl⟩⟩

theorem climb_begins (h : s.Sound) (task : s.task = .climb op left right floor) (begins : s.Begins) :
    floor ≤ 1 ∧ ∃ t, s.step = some t ∧ (s.Refused t ∨ s.ClimbBegun op left right floor t) := by
  obtain ⟨c, _, frames, answers⟩ := s
  subst task
  obtain ⟨_, _, _, _, next, task, offers, above⟩ := begins
  cases task
  obtain ⟨⟨source, rules, depth, mid⟩, shows⟩ := h.cursor.shows
  have level : floor ≤ op.level := h.fits.1
  have reached := offers.next shows
  have follows : tighterFollows op mid = .ok true := tighterFollows_eq_true_iff.mpr ⟨next, reached, above⟩
  have stepped : step ⟨c, .climb op left right floor, frames, answers⟩ = _ := climb_eq shows level
  simp only [follows] at stepped
  constructor
  · have most := next.level_le
    omega
  · refine ⟨_, stepped, ?_⟩
    by_cases room : depth < rules.maxDepth
    · right
      rw [enter_room shows room]
      refine ⟨rfl, rfl, ?_⟩
      have strong : floor + 1 ≤ next.level := by omega
      have eats : step ⟨c.deeper, .call (.chain right (floor + 1)), .leave :: .right op left floor :: frames,
          answers⟩ = _ := chain_eq shows.deeper
      simp only [reached, if_pos strong] at eats
      obtain ⟨token, after, rfl, _⟩ := nextOperator_eq_some reached
      have before := shows.position
      have taken : c.deeper.advance.Shows _ := shows.deeper.advance
      have behind := taken.position
      have same := (Cursor.follows_advance c.deeper).tokens
      refine ⟨_, eats, rfl, ?_⟩
      rw [same] at behind
      simp only [Stream.eat, List.tail_cons, List.length_cons, Cursor.deeper] at before behind ⊢
      omega
    · left
      have most : c.maxDepth = rules.maxDepth := shows.maxDepth
      have full : c.maxDepth ≤ c.depth := by
        rw [most, shows.depth]
        exact Nat.le_of_not_lt room
      rw [enter_full shows room]
      refine ⟨full, (rules.peek mid).start, ?_⟩
      simp only [ReadRules.tooDeep, most]

theorem Round.task (round : Round s n t) : ∃ op left right floor, t.task = .climb op left right floor := by
  cases round with
  | operand _ _ task => exact ⟨_, _, _, _, task⟩
  | climb _ _ task => exact ⟨_, _, _, _, task⟩

theorem Round.progress (round : Round s n t) (h : s.Sound) :
    t.Sound ∧ n ≤ 1 ∧ (t.Begins → n = 0) ∧ (∃ op, s.cursor.Offers op) ∧
      s.cursor.position + 2 ≤ t.cursor.position := by
  -- behind a climb the loop does not begin again, so where it begins it has not been gone through
  induction round with
  | operand task across climb =>
    obtain ⟨_, found, ends⟩ := exists_stepsOver_chain h task
    obtain rfl := across.unique found
    rcases ends with ⟨outcome, back⟩ | ⟨op, _, offers, _, position⟩
    · cases back.symm.trans climb
    · exact ⟨(across.sound h).1, Nat.zero_le 1, fun _ => rfl, ⟨op, offers⟩, position⟩
  | @climb n t u op left right floor round across climb ih =>
    obtain ⟨sound, _, first, offers, position⟩ := ih
    have behind := Nat.le_trans position (across.sound sound).2.position
    obtain ⟨op, left, right, floor, task⟩ := round.task
    obtain ⟨_, found, ends⟩ := exists_stepsOver_climb sound task
    obtain rfl := across.unique found
    rcases ends with ⟨outcome, back⟩ | ⟨_, rfl⟩ | ⟨_, begins, _, stops⟩
    · cases back.symm.trans climb
    · cases climb
    · have still : n = 0 := first begins
      exact ⟨(across.sound sound).1, by omega, fun again => absurd again stops, offers, behind⟩

def Completes (s u : State) : Prop :=
  ∃ n t left floor, Round s n t ∧ t.StepsOver u ∧ u.task = .call (.chain left floor)

theorem Completes.progress (h : s.Sound) (complete : s.Completes u) :
    (∃ op, s.cursor.Offers op) ∧ s.cursor.position + 2 ≤ u.cursor.position := by
  obtain ⟨n, t, _, _, round, across, _⟩ := complete
  obtain ⟨sound, _, _, offers, position⟩ := round.progress h
  exact ⟨offers, Nat.le_trans position (across.sound sound).2.position⟩

/-- Where the chain comes to: its outcome, or a next round. -/
def RoundEnds (s t : State) : Prop :=
  ∃ u, Relation.ReflTransGen StepsOver t u ∧
    ((∃ outcome, u.task = .back outcome) ∨ ∃ left floor, u.task = .call (.chain left floor) ∧ s.Completes u)

theorem Round.ends_of_not_begins (round : Round s n t) (h : s.Sound) (stops : ¬ t.Begins) : s.RoundEnds t := by
  obtain ⟨op, left, right, floor, task⟩ := round.task
  obtain ⟨u, across, ends⟩ := exists_stepsOver_climb (round.progress h).1 task
  refine ⟨u, .single across, ?_⟩
  rcases ends with back | ⟨_, rfl⟩ | ⟨_, begins, _⟩
  · exact .inl back
  · exact .inr ⟨_, _, rfl, n, t, _, _, round, across, rfl⟩
  · exact absurd begins stops

theorem Round.ends (round : Round s n t) (h : s.Sound) : s.RoundEnds t := by
  by_cases begins : t.Begins
  · obtain ⟨op, left, right, floor, task⟩ := round.task
    obtain ⟨u, across, ends⟩ := exists_stepsOver_climb (round.progress h).1 task
    rcases ends with back | ⟨stops, _⟩ | ⟨operand, _, task', stops⟩
    · exact ⟨u, .single across, .inl back⟩
    · exact absurd begins stops
    · obtain ⟨v, run, ends⟩ := (round.climb across task').ends_of_not_begins h stops
      exact ⟨v, .head across run, ends⟩
  · exact round.ends_of_not_begins h begins

theorem chain_ends (h : s.Sound) (task : s.task = .call (.chain left floor)) :
    ∃ t outcome, Relation.ReflTransGen StepsOver s t ∧ t.task = .back outcome := by
  -- by the tokens before the cursor, of which each round leaves fewer
  induction ahead : s.cursor.tokens.length - s.cursor.position using Nat.strong_induction_on
    generalizing s left floor with
  | _ _ ih =>
    obtain ⟨t, across, ends⟩ := exists_stepsOver_chain h task
    rcases ends with ⟨outcome, back⟩ | ⟨_, _, _, climb, _⟩
    · exact ⟨t, outcome, .single across, back⟩
    · have round : Round s 0 t := .operand task across climb
      obtain ⟨u, run, ⟨outcome, back⟩ | ⟨left', floor', next, complete⟩⟩ := round.ends h
      · exact ⟨u, outcome, .head across run, back⟩
      · have progress := (complete.progress h).2
        obtain ⟨sound, follows⟩ := h.run (across.reaches.trans (reaches_of_stepsOver run))
        have inside := sound.cursor.inside
        rw [follows.tokens] at inside
        obtain ⟨v, outcome, later, back⟩ := ih _ (by rw [← ahead, follows.tokens]; omega) sound next rfl
        exact ⟨v, outcome, .head across (run.trans later), back⟩

end

/-- Whatever tokens there are and whatever operations are run on them, every chain that is
begun, on any left operand and with any floor, comes to an outcome. A round that it completes
has taken the operator that came next and one more token at least. Its inner loop is gone
through once at most. A climb begins with a floor of one or less, to which one more is added,
and its first step takes the operator that comes next, unless there is no room for it. No more
than two climbs stand directly on each other. -/
theorem chain_progress (source : String) (tokens : List Token) (settings : Settings) (script : Script)
    {s : State} (run : Reaches (start source tokens settings script) s) :
    (∀ left floor, s.task = .call (.chain left floor) →
      ∃ t outcome, Relation.ReflTransGen StepsOver s t ∧ t.task = .back outcome) ∧
    (∀ t, s.Completes t → (∃ op, s.cursor.Offers op) ∧ s.cursor.position + 2 ≤ t.cursor.position) ∧
    (∀ n t, Round s n t → n ≤ 1 ∧ (t.Begins → n = 0)) ∧
    (∀ op left right floor, s.task = .climb op left right floor → s.Begins →
      floor ≤ 1 ∧ ∃ t, s.step = some t ∧ (s.Refused t ∨ s.ClimbBegun op left right floor t)) ∧
    ∀ outer, outer <:+ s.frames → climbs outer ≤ 2 := by
  have sound := ((sound_start source tokens settings script).run run).1
  refine ⟨fun _ _ => chain_ends sound, fun _ => Completes.progress sound, ?_, ?_, ?_⟩
  · intro n t round
    obtain ⟨_, once, first, _⟩ := round.progress sound
    exact ⟨once, first⟩
  · intro op left right floor task begins
    exact climb_begins sound task begins
  · intro outer suffix
    exact climbs_le_two source tokens settings script run suffix

theorem chain_progress_two_climbs :
    let tokens : List Token := [⟨.operator .add, 0, 1, "+"⟩, ⟨.name, 1, 2, "b"⟩, ⟨.operator .mul, 2, 3, "*"⟩,
      ⟨.name, 3, 4, "c"⟩, ⟨.operator .pow, 4, 6, "**"⟩, ⟨.name, 6, 7, "d"⟩]
    let script : Script := .read (.chain (.var "a") 0) .done
    ∃ s, Reaches (start "+b*c**d" tokens .standard script) s ∧ climbs s.frames = 2 ∧
      (∃ t outcome, Relation.ReflTransGen StepsOver s t ∧ t.task = .back outcome) ∧
      ∀ outer, outer <:+ s.frames → climbs outer ≤ 2 := by
  intro tokens script
  let cursor (position depth : Nat) : Cursor := { Cursor.start "+b*c**d" tokens .standard with position, depth }
  let sum : List Frame := [.right .add (.var "a") 0, .resume .done]
  let product : List Frame := .right .mul (.var "b") 1 :: .leave :: sum
  let s : State := ⟨cursor 4 2, .call (.chain (.var "c") 2), .leave :: product, []⟩
  have run : Reaches (start "+b*c**d" tokens .standard script) s :=
    .head (b := ⟨cursor 0 0, .call (.chain (.var "a") 0), [.resume .done], []⟩) rfl <|
    .head (b := ⟨cursor 1 0, .call .operand, sum, []⟩) rfl <|
    .head (b := ⟨cursor 2 0, .back (.ok (.var "b")), sum, []⟩) rfl <|
    .head (b := ⟨cursor 2 0, .climb .add (.var "a") (.var "b") 0, [.resume .done], []⟩) rfl <|
    .head (b := ⟨cursor 2 1, .call (.chain (.var "b") 1), .leave :: sum, []⟩) rfl <|
    .head (b := ⟨cursor 3 1, .call .operand, product, []⟩) rfl <|
    .head (b := ⟨cursor 4 1, .back (.ok (.var "c")), product, []⟩) rfl <|
    .head (b := ⟨cursor 4 1, .climb .mul (.var "b") (.var "c") 1, .leave :: sum, []⟩) rfl <|
    .head (b := s) rfl .refl
  obtain ⟨ends, _, _, _, below⟩ := chain_progress "+b*c**d" tokens .standard script run
  exact ⟨s, run, rfl, ends (.var "c") 2 rfl, below⟩

end State
end Cursor
end Reckoner
