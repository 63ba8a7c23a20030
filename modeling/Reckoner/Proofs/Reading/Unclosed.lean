import Reckoner.Proofs.Reading.Progress

/-! Parentheses that are open at the end of the input. Whole phrases leave the open ones as
they were, so a reading that misses a closing parenthesis misses the one of the innermost
open parenthesis. With as many closing ones behind the tokens as are open, the reading goes
through under the same limits. -/
namespace Reckoner

/-- The open parentheses behind some tokens, the innermost first, when `outer` were open before. -/
def Token.stillOpen (outer : List Token) : List Token → List Token
  | [] => outer
  | t :: ts =>
    match t.kind with
    | .opening => stillOpen (t :: outer) ts
    | .closing => stillOpen outer.tail ts
    | _ => stillOpen outer ts

namespace Token

theorem stillOpen_append (outer ts us : List Token) :
    stillOpen outer (ts ++ us) = stillOpen (stillOpen outer ts) us := by
  induction ts generalizing outer with
  | nil => rfl
  | cons t ts ih =>
    rw [List.cons_append, stillOpen, stillOpen]
    split
    · exact ih _
    · exact ih _
    · exact ih _

end Token

open Token (stillOpen stillOpen_append)

theorem Forms.stillOpen {p : Phrase} {kinds : List TokenKind} (h : Forms p kinds) {ts : List Token}
    (shape : ts.map Token.kind = kinds) (outer : List Token) : stillOpen outer ts = outer := by
  induction h generalizing ts outer with
  | number =>
    obtain ⟨t, rfl, kind⟩ := List.map_eq_singleton_iff.mp shape
    simp [Token.stillOpen, kind]
  | name =>
    obtain ⟨t, rfl, kind⟩ := List.map_eq_singleton_iff.mp shape
    simp [Token.stillOpen, kind]
  | group _ ih =>
    obtain ⟨before, last, rfl, front, closing⟩ := List.map_eq_append_iff.mp shape
    obtain ⟨t, inner, rfl, opens, inside⟩ := List.map_eq_cons_iff.mp front
    obtain ⟨c, rfl, closes⟩ := List.map_eq_singleton_iff.mp closing
    simp [Token.stillOpen, opens, closes, stillOpen_append, ih inside]
  | root _ ih =>
    obtain ⟨t, inner, rfl, kind, inside⟩ := List.map_eq_cons_iff.mp shape
    simp [Token.stillOpen, kind, ih inside]
  | last =>
    obtain rfl := List.map_eq_nil_iff.mp shape
    rfl
  | link _ _ ihs iht =>
    obtain ⟨before, after, rfl, front, back⟩ := List.map_eq_append_iff.mp shape
    obtain ⟨t, inner, rfl, kind, inside⟩ := List.map_eq_cons_iff.mp front
    simp [Token.stillOpen, kind, stillOpen_append, ihs inside, iht back]
  | expression _ _ ihs iht =>
    obtain ⟨before, after, rfl, front, back⟩ := List.map_eq_append_iff.mp shape
    simp [stillOpen_append, ihs front, iht back]

theorem nextOperator_append {ts more : List Token} (stop : nextOperator more = .ok none) :
    nextOperator (ts ++ more) = nextOperator ts := by
  cases ts with
  | nil => exact stop
  | cons t ts => rfl

theorem tighterFollows_append {op : Operator} {ts more : List Token} (stop : nextOperator more = .ok none) :
    tighterFollows op (ts ++ more) = tighterFollows op ts := by
  rw [tighterFollows, tighterFollows, nextOperator_append stop]

theorem tighterFollows_none {op : Operator} {ts : List Token} (stop : nextOperator ts = .ok none) :
    tighterFollows op ts = .ok false := by
  rw [tighterFollows, stop]
  rfl

theorem Derives.append {limit : DigitLimit} {goal : Goal} {ts rest more : List Token} {e : Expr}
    {levels : Nat} (h : Derives limit goal ts e rest levels) (stop : nextOperator more = .ok none) :
    Derives limit goal (ts ++ more) e (rest ++ more) levels := by
  induction h with
  | number kind value => exact .number kind value
  | name kind => exact .name kind
  | group opens _ closes ih => exact .group opens ih closes
  | root kind _ ih => exact .root kind ih
  | expression _ _ ihl ihr => exact .expression ihl ihr
  | finished ends => exact .finished ((nextOperator_append stop).trans ends)
  | weaker next weak => exact .weaker ((nextOperator_append stop).trans next) weak
  | extend kind level _ follows _ iho ihc =>
    exact .extend kind level iho ((tighterFollows_append stop).trans follows) ihc
  | climb kind level _ follows _ _ iho ihr ihc =>
    exact .climb kind level iho ((tighterFollows_append stop).trans follows) ihr ihc

theorem ReadRules.derives_within {rules : ReadRules} {goal : Goal} {depth : Nat} {ts rest : List Token}
    {e : Expr} (h : rules.read goal depth ts = ⟨.ok e, rest⟩) :
    ∃ levels, Derives rules.limit goal ts e rest levels ∧ levels ≤ rules.maxDepth - depth := by
  obtain ⟨levels, derived⟩ := rules.derives_of_read goal depth ts h
  refine ⟨levels, derived, ?_⟩
  rcases rules.read_of_derives derived depth with ⟨room, _⟩ | ⟨_, offset, after, failed⟩
  · exact room
  · rw [h] at failed
    cases failed

def Goal.EndsBefore : Goal → List Token → Prop
  | .operand, _ => True
  | .chain _ floor, rest => floor = 0 → nextOperator rest = .ok none
  | .expression, rest => nextOperator rest = .ok none

theorem Derives.endsBefore {limit : DigitLimit} {goal : Goal} {ts rest : List Token} {e : Expr}
    {levels : Nat} (h : Derives limit goal ts e rest levels) : goal.EndsBefore rest := by
  induction h with
  | number => trivial
  | name => trivial
  | group => trivial
  | root => trivial
  | expression _ _ _ ihr => exact ihr rfl
  | finished ends => exact fun _ => ends
  | weaker _ weak =>
    rintro rfl
    exact absurd weak (Nat.not_lt_zero _)
  | extend _ _ _ _ _ _ ihc => exact ihc
  | climb _ _ _ _ _ _ _ _ ihc => exact ihc

/-- Closing parentheses, one for each of the opened ones. -/
def Closes (opened closers : List Token) : Prop :=
  closers.length = opened.length ∧ ∀ c ∈ closers, c.kind = .closing

theorem Closes.ends {t : Token} {opened closers : List Token} (h : Closes (t :: opened) closers)
    (x : List Token) : nextOperator (closers ++ x) = .ok none := by
  obtain ⟨size, closing⟩ := h
  cases closers with
  | nil => cases size
  | cons c closers => simp [nextOperator, closing c List.mem_cons_self]

/-- With the closing parentheses of the opened ones behind `ts`, the goal is read at this depth,
before whatever ends an expression. -/
def Closable (rules : ReadRules) (goal : Goal) (depth : Nat) (ts opened : List Token) : Prop :=
  ∀ closers x, Closes opened closers → nextOperator x = .ok none →
    ∃ e levels, Derives rules.limit goal (ts ++ (closers ++ x)) e x levels ∧ levels ≤ rules.maxDepth - depth

namespace Closable

variable {rules : ReadRules} {depth floor : Nat} {t u : Token} {ts mid after opened : List Token}
  {left right climbed inner : Expr} {op : Operator}

theorem unclosed (kind : t.kind = .opening) (inside : rules.read .expression depth ts = ⟨.ok inner, []⟩) :
    Closable rules .operand depth (t :: ts) [t] := by
  rintro closers x ⟨size, closing⟩ stop
  obtain ⟨c, rfl⟩ := List.length_eq_one_iff.mp size
  have closes := closing c List.mem_cons_self
  obtain ⟨levels, derived, room⟩ := ReadRules.derives_within inside
  have before : Derives rules.limit .expression (ts ++ c :: x) inner (c :: x) levels :=
    derived.append (by simp [nextOperator, closes])
  exact ⟨inner, levels, .group kind before closes, room⟩

theorem group (kind : t.kind = .opening) (h : Closable rules .expression depth ts opened) :
    Closable rules .operand depth (t :: ts) (opened ++ [t]) := by
  rintro closers x ⟨size, closing⟩ stop
  rw [List.length_append] at size
  obtain ⟨inner, c, rfl⟩ : ∃ inner c, closers = inner ++ [c] := by
    refine ⟨closers.dropLast, closers.getLast ?_, (List.dropLast_concat_getLast _).symm⟩
    rintro rfl
    cases size
  have closes := closing c (by simp)
  have fewer : Closes opened inner := by
    refine ⟨by simpa using size, fun d member => closing d (List.mem_append_left _ member)⟩
  obtain ⟨e, levels, derived, room⟩ := h inner (c :: x) fewer (by simp [nextOperator, closes])
  exact ⟨e, levels, by simpa using Derives.group kind derived closes, room⟩

theorem root (kind : t.kind = .root) (below : depth < rules.maxDepth)
    (h : Closable rules .operand (depth + 1) ts opened) : Closable rules .operand depth (t :: ts) opened := by
  intro closers x closes stop
  obtain ⟨e, levels, derived, room⟩ := h closers x closes stop
  exact ⟨_, _, .root kind derived, by omega⟩

theorem first (below : depth < rules.maxDepth) (h : Closable rules .operand (depth + 1) ts opened) :
    Closable rules .expression depth ts opened := by
  intro closers x closes stop
  obtain ⟨e, levels, derived, room⟩ := h closers x closes stop
  exact ⟨_, _, .expression derived (.finished stop), by omega⟩

theorem operand (kind : t.kind = .operator op) (level : floor ≤ op.level)
    (h : Closable rules .operand depth ts opened) :
    Closable rules (.chain left floor) depth (t :: ts) opened := by
  intro closers x closes stop
  obtain ⟨e, levels, derived, room⟩ := h closers x closes stop
  exact ⟨_, _, .extend kind level derived (tighterFollows_none stop) (.finished stop), by omega⟩

theorem later (below : depth < rules.maxDepth) (first : rules.read .operand (depth + 1) ts = ⟨.ok left, mid⟩)
    (h : Closable rules (.chain left 0) (depth + 1) mid (u :: opened)) :
    Closable rules .expression depth ts (u :: opened) := by
  intro closers x closes stop
  obtain ⟨_, before, room⟩ := ReadRules.derives_within first
  obtain ⟨e, levels, derived, room'⟩ := h closers x closes stop
  exact ⟨_, _, .expression (before.append (closes.ends x)) (by simpa using derived), by omega⟩

section

variable (kind : t.kind = .operator op) (level : floor ≤ op.level)
  (first : rules.read .operand depth ts = ⟨.ok right, mid⟩)

include kind level first

theorem extend (follows : tighterFollows op mid = .ok false)
    (h : Closable rules (.chain (.binary op left right) floor) depth mid (u :: opened)) :
    Closable rules (.chain left floor) depth (t :: ts) (u :: opened) := by
  intro closers x closes stop
  obtain ⟨_, before, room⟩ := ReadRules.derives_within first
  obtain ⟨e, levels, derived, room'⟩ := h closers x closes stop
  have plain := (tighterFollows_append (closes.ends x)).trans follows
  exact ⟨_, _, .extend kind level (before.append (closes.ends x)) plain derived, by omega⟩

variable (follows : tighterFollows op mid = .ok true) (below : depth < rules.maxDepth)

include follows below

theorem climb (h : Closable rules (.chain right (floor + 1)) (depth + 1) mid (u :: opened)) :
    Closable rules (.chain left floor) depth (t :: ts) (u :: opened) := by
  intro closers x closes stop
  obtain ⟨_, before, room⟩ := ReadRules.derives_within first
  obtain ⟨e, levels, derived, room'⟩ := h closers x closes stop
  have tight := (tighterFollows_append (closes.ends x)).trans follows
  exact ⟨_, _, .climb kind level (before.append (closes.ends x)) tight derived (.finished stop), by omega⟩

theorem behind (between : rules.read (.chain right (floor + 1)) (depth + 1) mid = ⟨.ok climbed, after⟩)
    (h : Closable rules (.chain (.binary op left climbed) floor) depth after (u :: opened)) :
    Closable rules (.chain left floor) depth (t :: ts) (u :: opened) := by
  intro closers x closes stop
  obtain ⟨_, before, room⟩ := ReadRules.derives_within first
  obtain ⟨_, inner, room'⟩ := ReadRules.derives_within between
  obtain ⟨e, levels, derived, room''⟩ := h closers x closes stop
  have tight := (tighterFollows_append (closes.ends x)).trans follows
  exact ⟨_, _, .climb kind level (before.append (closes.ends x)) tight (inner.append (closes.ends x)) derived,
    by omega⟩

end

end Closable

/-- A missing parenthesis is that of the innermost open one, and nothing else is missing. -/
theorem Fails.closable {rules : ReadRules} {goal : Goal} {depth offset : Nat} {ts stop : List Token}
    (h : Fails rules goal depth ts (.unmatchedParen offset) stop) (each : ∀ t ∈ ts, t.kind ≠ .finish) :
    stop = [] ∧ ∃ t opened, t.kind = .opening ∧ t.start = offset ∧
      (∀ outer, stillOpen outer ts = t :: opened ++ outer) ∧ Closable rules goal depth ts (t :: opened) := by
  generalize missing : ParseError.unmatchedParen offset = e at h
  induction h with
  | noOperand => cases missing
  | literal => cases missing
  | deepRoot => cases missing
  | deepExpression => cases missing
  | deepClimb => cases missing
  | noOperator refused =>
    obtain ⟨_, _, _, _, rfl⟩ := nextOperator_eq_error refused
    cases missing
  | @unclosed depth t ts rest inner opens inside other =>
    cases missing
    obtain ⟨used, rfl, forms⟩ := forms_of_read inside
    obtain ⟨_, derived, _⟩ := ReadRules.derives_within inside
    have ends : nextOperator rest = .ok none := derived.endsBefore
    obtain rfl : rest = [] := by
      cases rest with
      | nil => rfl
      | cons c rest =>
        rcases nextOperator_eq_none ends with closing | finish
        · exact absurd closing other
        · exact absurd finish (each c (by simp))
    refine ⟨rfl, t, [], opens, rfl, fun outer => ?_, .unclosed opens inside⟩
    simp [Token.stillOpen, opens, forms.stillOpen rfl]
  | @group depth t ts stop e opens _ ih =>
    obtain ⟨rfl, u, opened, kind, start, inside, closable⟩ := ih (List.forall_mem_cons.mp each).2 missing
    refine ⟨rfl, u, opened ++ [t], kind, start, fun outer => ?_, closable.group opens⟩
    simp [Token.stillOpen, opens, inside]
  | @root depth t ts stop e sign below _ ih =>
    obtain ⟨rfl, u, opened, kind, start, inside, closable⟩ := ih (List.forall_mem_cons.mp each).2 missing
    refine ⟨rfl, u, opened, kind, start, fun outer => ?_, closable.root sign below⟩
    simp [Token.stillOpen, sign, inside]
  | first below _ ih =>
    obtain ⟨rfl, u, opened, kind, start, inside, closable⟩ := ih each missing
    exact ⟨rfl, u, opened, kind, start, inside, closable.first below⟩
  | later below operand _ ih =>
    obtain ⟨used, rfl, forms⟩ := forms_of_read operand
    obtain ⟨rfl, u, opened, kind, start, inside, closable⟩ :=
      ih (List.forall_mem_append.mp each).2 missing
    refine ⟨rfl, u, opened, kind, start, fun outer => ?_, closable.later below operand⟩
    simp [stillOpen_append, forms.stillOpen rfl, inside]
  | @operand depth floor left t ts stop op e sign level _ ih =>
    obtain ⟨rfl, u, opened, kind, start, inside, closable⟩ := ih (List.forall_mem_cons.mp each).2 missing
    refine ⟨rfl, u, opened, kind, start, fun outer => ?_, closable.operand sign level⟩
    simp [Token.stillOpen, sign, inside]
  | @extend depth floor left right t ts mid stop op e sign level operand plain fails ih =>
    obtain ⟨used, rfl, forms⟩ := forms_of_read operand
    obtain ⟨rfl, u, opened, kind, start, inside, closable⟩ :=
      ih (List.forall_mem_append.mp (List.forall_mem_cons.mp each).2).2 missing
    have follows : tighterFollows op mid = .ok false := by
      cases next : tighterFollows op mid with
      | ok tight =>
        cases tight with
        | false => rfl
        | true => exact absurd next plain
      | error x =>
        -- the chain would fail at once, and not by a parenthesis
        have refused := tighterFollows_eq_error next
        obtain ⟨_, _, _, _, rfl⟩ := nextOperator_eq_error refused
        have failed := ReadRules.read_of_fails fails
        rw [ReadRules.read_chain_of_error _ _ _ _ refused, ← missing] at failed
        cases failed
    refine ⟨rfl, u, opened, kind, start, fun outer => ?_, closable.extend sign level operand follows⟩
    simp [Token.stillOpen, sign, stillOpen_append, forms.stillOpen rfl, inside]
  | @climb depth floor left right t ts mid stop op e sign level operand follows below _ ih =>
    obtain ⟨used, rfl, forms⟩ := forms_of_read operand
    obtain ⟨rfl, u, opened, kind, start, inside, closable⟩ :=
      ih (List.forall_mem_append.mp (List.forall_mem_cons.mp each).2).2 missing
    refine ⟨rfl, u, opened, kind, start, fun outer => ?_, closable.climb sign level operand follows below⟩
    simp [Token.stillOpen, sign, stillOpen_append, forms.stillOpen rfl, inside]
  | @behind depth floor left right _ t ts mid after stop op e sign level operand follows below climb _ ih =>
    obtain ⟨used, rfl, forms⟩ := forms_of_read operand
    obtain ⟨between, rfl, climbed⟩ := forms_of_read climb
    have rest := (List.forall_mem_append.mp (List.forall_mem_cons.mp each).2).2
    obtain ⟨rfl, u, opened, kind, start, inside, closable⟩ := ih (List.forall_mem_append.mp rest).2 missing
    refine ⟨rfl, u, opened, kind, start, fun outer => ?_,
      closable.behind sign level operand follows below climb⟩
    simp [Token.stillOpen, sign, stillOpen_append, forms.stillOpen rfl, climbed.stillOpen rfl, inside]

end Reckoner
