import Reckoner.Proofs.Cursor.Reading
import Reckoner.Proofs.Cursor.Sound

namespace Reckoner

theorem Stream.closed_append (source : String) (tokens : List Token) (settings : Settings) :
    (Cursor.start source tokens settings).tokens =
      (closed source tokens).1 ++ [(closed source tokens).2.val] := by
  unfold closed Cursor.start
  cases last : tokens.getLast? with
  | none =>
    rw [if_neg (by simp)]
  | some t =>
    obtain ⟨front, rfl⟩ := List.getLast?_eq_some_iff.mp last
    simp only [Option.map_some, Option.some.injEq, List.dropLast_concat]
    split <;> rfl

namespace Cursor

theorem shows_start (source : String) (tokens : List Token) (settings : Settings) :
    (start source tokens settings).Shows (Stream.start source tokens settings) :=
  ⟨rfl, rfl, rfl, rfl, Stream.closed_append source tokens settings⟩

theorem Sound.shows {c : Cursor} (h : c.Sound) : ∃ s, c.Shows s := by
  obtain ⟨source, tokens, position, depth, maxDepth, limit⟩ := c
  have inside := h.inside
  obtain ⟨t, last, kind⟩ := Option.map_eq_some_iff.mp h.closed
  obtain ⟨front, rfl⟩ := List.getLast?_eq_some_iff.mp last
  rw [List.length_append, List.length_singleton] at inside
  refine ⟨⟨source, ⟨limit, maxDepth, t, kind⟩, depth, front.drop position⟩, rfl, rfl, rfl, rfl, ?_⟩
  exact List.drop_append_of_le_length (Nat.le_of_lt_succ inside)

namespace Script

variable {offset : Nat} {inner next : Script} {s : Stream}

theorem perform_refused (full : ¬ s.depth < s.rules.maxDepth) :
    (nested offset inner next).perform s =
      (.outcome (.error (s.rules.tooDeep offset)) :: (next.perform s).1, (next.perform s).2) := by
  have refused : s.nested offset (fun s => inner.perform s) =
      (.error (s.rules.tooDeep offset), s) := if_neg full
  rw [perform, refused]

theorem perform_nested (room : s.depth < s.rules.maxDepth)
    (kept : ∀ s : Stream, (inner.perform s).2 = { s with pending := (inner.perform s).2.pending }) :
    let inside := inner.perform { s with depth := s.depth + 1 }
    let after := next.perform { s with pending := inside.2.pending }
    (nested offset inner next).perform s = (inside.1 ++ after.1, after.2) := by
  intro inside after
  have behind : { inside.2 with depth := inside.2.depth - 1 } = { s with pending := inside.2.pending } := by
    dsimp only [inside]
    rw [kept]
    rfl
  have nested : s.nested offset (fun s => inner.perform s) =
      (.ok inside.1, { s with pending := inside.2.pending }) := by
    unfold Stream.nested
    rw [if_pos room, ← behind]
  rw [perform, nested]

theorem perform_keeps (script : Script) (s : Stream) :
    (script.perform s).2 = { s with pending := (script.perform s).2.pending } := by
  induction script generalizing s with
  | done => rfl
  | peek next ih => exact ih s
  | eat next ih => exact ih s.eat.2
  | read goal next ih => exact ih (s.read goal).2
  | nested offset inner next ihi ihn =>
    by_cases room : s.depth < s.rules.maxDepth
    · rw [perform_nested room ihi]
      exact ihn { s with pending := (inner.perform { s with depth := s.depth + 1 }).2.pending }
    · rw [perform_refused room]
      exact ihn s

end Script

namespace State

theorem Finished.step {s : State} (h : s.Finished) : s.step = none := by
  obtain ⟨cursor, task, frames, answers⟩ := s
  obtain ⟨done, nothing⟩ : task = .script .done ∧ frames = [] := h
  rw [done, nothing]
  rfl

theorem Sound.run {s t : State} (h : s.Sound) (run : Reaches s t) : t.Sound ∧ s.cursor.Follows t.cursor := by
  induction run with
  | refl => exact ⟨h, .refl _⟩
  | tail _ stepped ih =>
    obtain ⟨sound, follows⟩ := ih
    rcases sound.goes with finished | ⟨u, next, follows', sound'⟩
    · rw [finished.step] at stepped
      cases stepped
    · rw [next] at stepped
      cases stepped
      exact ⟨sound', follows.trans follows'⟩

theorem reaches_done {c : Cursor} {s : Stream} (shows : c.Shows s) (script : Script) (frames : List Frame)
    (answers : List Answer) :
    ∃ d, Reaches ⟨c, .script script, frames, answers⟩
        ⟨d, .script .done, frames, answers ++ (script.perform s).1⟩ ∧
      d.Shows (script.perform s).2 := by
  induction script generalizing c s frames answers with
  | done =>
    refine ⟨c, ?_, shows⟩
    rw [Script.perform, List.append_nil]
    exact .refl
  | peek next ih =>
    obtain ⟨d, run, left⟩ := ih shows frames (answers ++ [.token s.peek])
    rw [List.append_assoc] at run
    exact ⟨d, .head (congrArg (Option.map _) shows.peek) run, left⟩
  | eat next ih =>
    obtain ⟨d, run, left⟩ := ih shows.advance frames (answers ++ [.token s.peek])
    rw [List.append_assoc] at run
    exact ⟨d, .head (congrArg (Option.map _) shows.eat) run, left⟩
  | read goal next ih =>
    obtain ⟨d, back, read⟩ := comes_read shows goal (.resume next :: frames) answers
    obtain ⟨e, run, left⟩ := ih read frames (answers ++ [.outcome (s.read goal).1])
    rw [List.append_assoc] at run
    exact ⟨e, .head rfl (back.trans (.head rfl run)), left⟩
  | nested offset inner next ihi ihn =>
    by_cases room : s.depth < s.rules.maxDepth
    · obtain ⟨d, within, inside⟩ := ihi shows.deeper (.leave :: .resume next :: frames) answers
      rw [Script.perform_keeps] at inside
      obtain ⟨e, left, behind⟩ := inside.shallower
      obtain ⟨f, run, after⟩ := ihn behind frames
        (answers ++ (inner.perform { s with depth := s.depth + 1 }).1)
      rw [Script.perform_nested room inner.perform_keeps]
      rw [List.append_assoc] at run
      refine ⟨f, ?_, after⟩
      refine .head (congrArg some (enter_room shows room)) (within.trans ?_)
      exact .head (congrArg (Option.map _) left) (.head rfl run)
    · obtain ⟨d, run, after⟩ := ihn shows frames (answers ++ [.outcome (.error (s.rules.tooDeep offset))])
      rw [Script.perform_refused room]
      rw [List.append_assoc] at run
      refine ⟨d, ?_, after⟩
      exact .head (congrArg some (enter_full shows room)) (.head rfl run)

/-- An operation is over when its script has ended or its outcome has come back. -/
def Over (s : State) : Prop :=
  match s.task with
  | .script .done | .back _ => True
  | _ => False

theorem Sound.concludes {s : State} (h : s.Sound) : ∃ t, Reaches s t ∧ t.Over ∧ t.frames = s.frames := by
  obtain ⟨c, task, frames, answers⟩ := s
  obtain ⟨stream, shows⟩ := h.cursor.shows
  cases task with
  | script script =>
    obtain ⟨d, run, _⟩ := reaches_done shows script frames answers
    exact ⟨_, run, trivial, rfl⟩
  | call goal =>
    obtain ⟨d, run, _⟩ := comes_read shows goal frames answers
    exact ⟨_, run, trivial, rfl⟩
  | climb op left right floor =>
    have below : ReadsBelow stream.source stream.rules (3 * stream.pending.length + 2) :=
      fun goal depth ts _ => reads _ _ goal depth ts
    obtain ⟨d, run, _⟩ := comes_climb below h.fits.1 shows rfl frames answers
    exact ⟨_, run, trivial, rfl⟩
  | back outcome => exact ⟨_, .refl, trivial, rfl⟩

/-- Whatever operations are run on whatever tokens, with success or not. In every state on
the way the tokens end with the end of the input, the place is inside them, so that the end
is not passed, and the depth is the number of open nestings and no more than its maximum.
Source, tokens and limits are those of the start, and a next step goes no way back. The
operation at hand, at whatever level, comes to its end, and whenever the frames are those it
was begun on, so is the depth. The last state has answered what the stream answers, and shows
what is left of it. -/
theorem script_runs (source : String) (tokens : List Token) (settings : Settings) (script : Script) :
    (∀ s, Reaches (start source tokens settings script) s →
      s.Sound ∧ (Cursor.start source tokens settings).Follows s.cursor ∧
        (s.Finished ∨ ∃ t, s.step = some t ∧ s.cursor.Follows t.cursor) ∧
        (∃ t, Reaches s t ∧ t.Over ∧ t.frames = s.frames) ∧
        ∀ t, Reaches s t → t.frames = s.frames → t.cursor.depth = s.cursor.depth) ∧
    ∃ last, Reaches (start source tokens settings script) last ∧ last.Finished ∧
      last.answers = (script.perform (Stream.start source tokens settings)).1 ∧
      last.cursor.Shows (script.perform (Stream.start source tokens settings)).2 := by
  constructor
  · intro s run
    obtain ⟨sound, follows⟩ := (sound_start source tokens settings script).run run
    refine ⟨sound, follows, ?_, sound.concludes, ?_⟩
    · rcases sound.goes with finished | ⟨t, next, follows', _⟩
      · exact .inl finished
      · exact .inr ⟨t, next, follows'⟩
    · intro t later frames
      rw [(sound.run later).1.depth, sound.depth, frames]
  · obtain ⟨c, run, shows⟩ := reaches_done (shows_start source tokens settings) script [] []
    exact ⟨_, run, ⟨rfl, rfl⟩, rfl, shows⟩

theorem script_runs_missing_operand :
    let tokens : List Token := [⟨.opening, 0, 1, "("⟩, ⟨.finish, 1, 1, ""⟩, ⟨.number, 1, 2, "7"⟩]
    let script : Script := .nested 0 (.read .operand .done) (.eat .done)
    ∃ last, Reaches (start "(7" tokens .standard script) last ∧ last.Finished ∧ last.cursor.depth = 0 ∧
      last.answers = [.outcome (.error (.unexpectedToken "end of input" 1)), .token ⟨.number, 1, 2, "7"⟩] := by
  intro tokens script
  obtain ⟨every, last, run, finished, answers, _⟩ := script_runs "(7" tokens .standard script
  have depth := (every last run).1.depth
  rw [finished.2] at depth
  refine ⟨last, run, finished, depth, answers.trans ?_⟩
  let rules : ReadRules := ⟨.standard, 256, Token.finishAt 2, rfl⟩
  have failed : rules.read .operand 1 tokens = ⟨.error (.unexpectedToken "end of input" 1), tokens.drop 2⟩ := by
    simp only [tokens, ReadRules.read_operand_cons, ReadRules.read_expression]
    rfl
  have begun : Stream.start "(7" tokens .standard = ⟨"(7", rules, 0, tokens⟩ := rfl
  have outcome : (Stream.read ⟨"(7", rules, 1, tokens⟩ .operand) =
      (.error (.unexpectedToken "end of input" 1), ⟨"(7", rules, 1, tokens.drop 2⟩) := by
    simp only [Stream.read, failed]
  rw [begun]
  simp only [script, Script.perform, Stream.nested, outcome]
  rfl

end State
end Cursor
end Reckoner
