import Reckoner.Cursor
import Reckoner.Proofs.Reading.Grouping

namespace Reckoner

namespace Cursor

/-- The same stream, read as far or further. -/
structure Follows (c d : Cursor) : Prop where
  source : d.source = c.source
  tokens : d.tokens = c.tokens
  maxDepth : d.maxDepth = c.maxDepth
  limit : d.limit = c.limit
  position : c.position ≤ d.position

structure Sound (c : Cursor) : Prop where
  closed : c.tokens.getLast?.map Token.kind = some .finish
  inside : c.position < c.tokens.length
  depth : c.depth ≤ c.maxDepth

variable {c d e : Cursor}

theorem Follows.refl (c : Cursor) : c.Follows c := ⟨rfl, rfl, rfl, rfl, Nat.le_refl _⟩

theorem Follows.trans (h : c.Follows d) (h' : d.Follows e) : c.Follows e where
  source := h'.source.trans h.source
  tokens := h'.tokens.trans h.tokens
  maxDepth := h'.maxDepth.trans h.maxDepth
  limit := h'.limit.trans h.limit
  position := Nat.le_trans h.position h'.position

theorem sound_start (source : String) (tokens : List Token) (settings : Settings) :
    (start source tokens settings).Sound := by
  have closed : (start source tokens settings).tokens.getLast?.map Token.kind = some .finish := by
    unfold start
    dsimp only
    split
    · next ends => exact ends
    · simp [Token.finishAt]
  refine ⟨closed, ?_, Nat.zero_le _⟩
  apply List.length_pos_iff.mpr
  intro empty
  rw [empty] at closed
  cases closed

theorem Sound.peek (h : c.Sound) : ∃ t, c.peek = some t := ⟨_, List.getElem?_eq_getElem h.inside⟩

theorem Sound.eat (h : c.Sound) : ∃ t, c.eat = some (t, c.advance) := by
  obtain ⟨t, here⟩ := h.peek
  exact ⟨t, congrArg (Option.map fun t => (t, c.advance)) here⟩

theorem depth_advance (c : Cursor) : c.advance.depth = c.depth := by
  unfold advance
  split <;> rfl

theorem follows_advance (c : Cursor) : c.Follows c.advance := by
  unfold advance
  split
  · exact ⟨rfl, rfl, rfl, rfl, Nat.le_succ _⟩
  · exact .refl c

theorem Sound.advance (h : c.Sound) : c.advance.Sound := by
  unfold Cursor.advance
  split
  · next more => exact ⟨h.closed, more, h.depth⟩
  · exact h

theorem Sound.deeper (h : c.Sound) (room : c.depth < c.maxDepth) : c.deeper.Sound :=
  ⟨h.closed, h.inside, room⟩

theorem follows_deeper (c : Cursor) : c.Follows c.deeper := ⟨rfl, rfl, rfl, rfl, Nat.le_refl _⟩

theorem Sound.shallower (h : c.Sound) (inner : 0 < c.depth) :
    ∃ d, c.shallower = some d ∧ c.Follows d ∧ d.Sound ∧ d.depth + 1 = c.depth := by
  have depth := h.depth
  refine ⟨_, if_pos inner, ⟨rfl, rfl, rfl, rfl, Nat.le_refl _⟩, ⟨h.closed, h.inside, ?_⟩, ?_⟩
  · dsimp only
    omega
  · dsimp only
    omega

def openLevels : List Frame → Nat
  | [] => 0
  | .leave :: frames => openLevels frames + 1
  | _ :: frames => openLevels frames

/-- `Takes true` frames can take an expression, `Takes false` frames the end of a script. -/
inductive Takes : Bool → List Frame → Prop where
  | nothing : Takes false []
  | leave {expression : Bool} {frames : List Frame} :
      Takes expression frames → Takes expression (.leave :: frames)
  | resume {expression : Bool} {next : Script} {frames : List Frame} :
      Takes false frames → Takes expression (.resume next :: frames)
  | operators {frames : List Frame} : Takes true frames → Takes true (.operators :: frames)
  | close {offset : Nat} {frames : List Frame} : Takes true frames → Takes true (.close offset :: frames)
  | root {frames : List Frame} : Takes true frames → Takes true (.root :: frames)
  | right {op : Operator} {left : Expr} {floor : Nat} {frames : List Frame} :
      floor ≤ op.level → Takes true frames → Takes true (.right op left floor :: frames)

def Task.Fits : Task → List Frame → Prop
  | .script _, frames => Takes false frames
  | .call _, frames => Takes true frames
  | .climb op _ _ floor, frames => floor ≤ op.level ∧ Takes true frames
  | .back _, frames => Takes true frames

namespace State

structure Sound (s : State) : Prop where
  cursor : s.cursor.Sound
  depth : s.cursor.depth = openLevels s.frames
  fits : s.task.Fits s.frames

theorem sound_start (source : String) (tokens : List Token) (settings : Settings) (script : Script) :
    (start source tokens settings script).Sound :=
  ⟨Cursor.sound_start source tokens settings, rfl, .nothing⟩

/-- There is a next state: the same stream, read as far or further, and sound. -/
def Goes (c : Cursor) (next : Option State) : Prop :=
  ∃ s, next = some s ∧ c.Follows s.cursor ∧ s.Sound

section

variable {c : Cursor} {s : State} {frames : List Frame} {answers : List Answer}

theorem goes_some (follows : c.Follows s.cursor) (sound : s.Sound) : Goes c (some s) :=
  ⟨s, rfl, follows, sound⟩

theorem goes_enter {offset : Nat} {task : Task} {inner : List Frame} (follows : c.Follows s.cursor)
    (cursor : s.cursor.Sound) (depth : s.cursor.depth = openLevels s.frames) (outer : Takes true s.frames)
    (body : task.Fits (inner ++ .leave :: s.frames))
    (levels : openLevels (inner ++ .leave :: s.frames) = openLevels s.frames + 1) :
    Goes c (some (s.enter offset task inner)) := by
  unfold enter
  split
  · next room =>
    have deeper : s.cursor.deeper.depth = openLevels (inner ++ .leave :: s.frames) := by
      rw [levels, ← depth]
      rfl
    exact goes_some (follows.trans (Cursor.follows_deeper _)) ⟨cursor.deeper room, deeper, body⟩
  · exact goes_some follows ⟨cursor, depth, outer⟩

theorem goes_leave {task : Task} (cursor : c.Sound) (depth : c.depth = openLevels frames + 1)
    (fits : task.Fits frames) : Goes c (leave ⟨c, task, frames, answers⟩) := by
  obtain ⟨d, left, follows, sound, one⟩ := cursor.shallower (by omega)
  refine ⟨⟨d, task, frames, answers⟩, congrArg (Option.map _) left, follows, sound, ?_, fits⟩
  dsimp only
  omega

theorem goes_operand (cursor : c.Sound) (depth : c.depth = openLevels frames) (takes : Takes true frames)
    {task : Task} : Goes c (operand ⟨c, task, frames, answers⟩) := by
  obtain ⟨t, eaten⟩ := cursor.eat
  have follows := Cursor.follows_advance c
  have sound := cursor.advance
  rw [← Cursor.depth_advance] at depth
  unfold operand operandFrom
  simp only [eaten, Option.map_some]
  split
  · split
    · exact goes_some follows ⟨sound, depth, takes⟩
    · exact goes_some follows ⟨sound, depth, takes⟩
  · exact goes_some follows ⟨sound, depth, takes⟩
  · exact goes_some follows ⟨sound, depth, .close takes⟩
  · exact goes_enter follows sound depth (.root takes) (.leave (.root takes)) rfl
  · exact goes_some follows ⟨sound, depth, takes⟩

theorem goes_chain (cursor : c.Sound) (depth : c.depth = openLevels frames) (takes : Takes true frames)
    {task : Task} (left : Expr) (floor : Nat) : Goes c (chain ⟨c, task, frames, answers⟩ left floor) := by
  obtain ⟨t, here⟩ := cursor.peek
  obtain ⟨_, eaten⟩ := cursor.eat
  unfold chain
  simp only [here, Option.bind_some]
  split
  · exact goes_some (.refl c) ⟨cursor, depth, takes⟩
  · exact goes_some (.refl c) ⟨cursor, depth, takes⟩
  · next op _ =>
    split
    · next level =>
      simp only [eaten, Option.map_some]
      rw [← Cursor.depth_advance] at depth
      exact goes_some (Cursor.follows_advance c) ⟨cursor.advance, depth, .right level takes⟩
    · exact goes_some (.refl c) ⟨cursor, depth, takes⟩

theorem goes_climb (cursor : c.Sound) (depth : c.depth = openLevels frames) (takes : Takes true frames)
    {task : Task} {op : Operator} {floor : Nat} (level : floor ≤ op.level) (left right : Expr) :
    Goes c (climb ⟨c, task, frames, answers⟩ op left right floor) := by
  -- a climb that begins has a floor below some level, so one more is far from overflowing
  obtain ⟨t, here⟩ := cursor.peek
  have small : floor + 1 < UInt8.size := by
    have most := op.level_le
    have size : UInt8.size = 256 := rfl
    omega
  unfold climb
  simp only [here, Option.bind_some, if_pos small]
  split
  · exact goes_some (.refl c) ⟨cursor, depth, takes⟩
  · exact goes_some (.refl c) ⟨cursor, depth, takes⟩
  · split
    · exact goes_enter (.refl c) cursor depth (.right level takes) (.leave (.right level takes)) rfl
    · exact goes_some (.refl c) ⟨cursor, depth, takes⟩

theorem goes_close (cursor : c.Sound) (depth : c.depth = openLevels frames) (takes : Takes true frames)
    {task : Task} (offset : Nat) (e : Expr) : Goes c (close ⟨c, task, frames, answers⟩ offset e) := by
  obtain ⟨t, eaten⟩ := cursor.eat
  rw [← Cursor.depth_advance] at depth
  unfold close
  simp only [eaten, Option.map_some]
  exact goes_some (Cursor.follows_advance c) ⟨cursor.advance, depth, takes⟩

theorem goes_back (cursor : c.Sound) (depth : c.depth = openLevels frames) (takes : Takes true frames)
    (outcome : Except ParseError Expr) : Goes c (back ⟨c, .back outcome, frames, answers⟩ outcome) := by
  cases takes with
  | leave takes => exact goes_leave cursor depth takes
  | resume takes => exact goes_some (.refl c) ⟨cursor, depth, takes⟩
  | operators takes =>
    cases outcome with
    | error e => exact goes_some (.refl c) ⟨cursor, depth, takes⟩
    | ok left => exact goes_some (.refl c) ⟨cursor, depth, takes⟩
  | @close offset frames takes =>
    have depth : c.depth = openLevels frames := depth
    cases outcome with
    | error e => exact goes_some (.refl c) ⟨cursor, depth, takes⟩
    | ok e => exact goes_close cursor depth takes offset e
  | root takes =>
    cases outcome with
    | error e => exact goes_some (.refl c) ⟨cursor, depth, takes⟩
    | ok e => exact goes_some (.refl c) ⟨cursor, depth, takes⟩
  | right level takes =>
    cases outcome with
    | error e => exact goes_some (.refl c) ⟨cursor, depth, takes⟩
    | ok e => exact goes_some (.refl c) ⟨cursor, depth, level, takes⟩

theorem goes_ended (cursor : c.Sound) (depth : c.depth = openLevels frames) (takes : Takes false frames) :
    frames = [] ∨ Goes c (ended ⟨c, .script .done, frames, answers⟩) := by
  cases takes with
  | nothing => exact .inl rfl
  | leave takes => exact .inr (goes_leave cursor depth takes)
  | resume takes => exact .inr (goes_some (.refl c) ⟨cursor, depth, takes⟩)

end

/-- One step: a state with nothing left to do, or a next one that is sound as well. -/
theorem Sound.goes {s : State} (h : s.Sound) : s.Finished ∨ Goes s.cursor s.step := by
  obtain ⟨c, task, frames, answers⟩ := s
  obtain ⟨cursor, depth, fits⟩ := h
  cases task with
  | script script =>
    cases script with
    | done =>
      rcases goes_ended cursor depth fits with nothing | goes
      · exact .inl ⟨rfl, nothing⟩
      · exact .inr goes
    | peek next =>
      right
      obtain ⟨t, here⟩ := cursor.peek
      simp only [step, here, Option.map_some]
      exact goes_some (.refl c) ⟨cursor, depth, fits⟩
    | eat next =>
      right
      obtain ⟨t, eaten⟩ := cursor.eat
      have same : c.advance.depth = openLevels frames := c.depth_advance.trans depth
      simp only [step, eaten, Option.map_some]
      exact goes_some (Cursor.follows_advance c) ⟨cursor.advance, same, fits⟩
    | read goal next => exact .inr (goes_some (.refl c) ⟨cursor, depth, .resume fits⟩)
    | nested offset inner next =>
      exact .inr (goes_enter (.refl c) cursor depth (.resume fits) (.leave (.resume fits)) rfl)
  | call goal =>
    right
    cases goal with
    | operand => exact goes_operand cursor depth fits
    | chain left floor => exact goes_chain cursor depth fits left floor
    | expression =>
      obtain ⟨t, here⟩ := cursor.peek
      simp only [step, here, Option.map_some]
      exact goes_enter (.refl c) cursor depth fits (.operators (.leave fits)) rfl
  | climb op left right floor => exact .inr (goes_climb cursor depth fits.2 fits.1 left right)
  | back outcome => exact .inr (goes_back cursor depth fits outcome)

end State
end Cursor
end Reckoner
