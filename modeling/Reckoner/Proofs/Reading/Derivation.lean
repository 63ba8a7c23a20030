import Reckoner.Expr.Read

/-! Successful readings as derivations. A derivation says which tokens make which
expression, and how many levels of nesting that takes; it knows neither the depth at
which it is read nor the greatest depth allowed. A reading succeeds exactly when there
is a derivation and room for its levels. Where only the room is missing, the reading
fails by its depth and in no other way. -/
namespace Reckoner

/-- `Derives limit goal ts e rest levels`: from `ts` the goal comes to `e`, with `rest`
left over, and goes `levels` levels deeper than where it begins. -/
inductive Derives (limit : DigitLimit) : Goal → List Token → Expr → List Token → Nat → Prop where
  | number {t : Token} {ts : List Token} {n : Numeral} :
      t.kind = .number → Numeral.ofDecimal t.text limit = .ok n →
      Derives limit .operand (t :: ts) (.literal n) ts 0
  | name {t : Token} {ts : List Token} :
      t.kind = .name → Derives limit .operand (t :: ts) (.var t.text) ts 0
  | group {t c : Token} {ts rest : List Token} {e : Expr} {levels : Nat} :
      t.kind = .opening → Derives limit .expression ts e (c :: rest) levels →
      c.kind = .closing → Derives limit .operand (t :: ts) e rest levels
  | root {t : Token} {ts rest : List Token} {e : Expr} {levels : Nat} :
      t.kind = .root → Derives limit .operand ts e rest levels →
      Derives limit .operand (t :: ts) (.root e) rest (levels + 1)
  | expression {ts mid rest : List Token} {left e : Expr} {levels chained : Nat} :
      Derives limit .operand ts left mid levels →
      Derives limit (.chain left 0) mid e rest chained →
      Derives limit .expression ts e rest (max levels chained + 1)
  | finished {ts : List Token} {left : Expr} {floor : Nat} :
      nextOperator ts = .ok none → Derives limit (.chain left floor) ts left ts 0
  | weaker {ts : List Token} {left : Expr} {floor : Nat} {op : Operator} :
      nextOperator ts = .ok (some op) → op.level < floor →
      Derives limit (.chain left floor) ts left ts 0
  | extend {t : Token} {ts mid rest : List Token} {left right e : Expr} {op : Operator}
      {floor levels chained : Nat} :
      t.kind = .operator op → floor ≤ op.level → Derives limit .operand ts right mid levels →
      tighterFollows op mid = .ok false →
      Derives limit (.chain (.binary op left right) floor) mid e rest chained →
      Derives limit (.chain left floor) (t :: ts) e rest (max levels chained)
  | climb {t : Token} {ts mid after rest : List Token} {left right operand e : Expr}
      {op : Operator} {floor levels climbed chained : Nat} :
      t.kind = .operator op → floor ≤ op.level → Derives limit .operand ts right mid levels →
      tighterFollows op mid = .ok true →
      Derives limit (.chain right (floor + 1)) mid operand after climbed →
      Derives limit (.chain (.binary op left operand) floor) after e rest chained →
      Derives limit (.chain left floor) (t :: ts) e rest (max levels (max (climbed + 1) chained))

theorem nextOperator_eq_some {ts : List Token} {op : Operator} (h : nextOperator ts = .ok (some op)) :
    ∃ t us, ts = t :: us ∧ t.kind = .operator op := by
  cases ts with
  | nil => cases h
  | cons t us =>
    rw [nextOperator] at h
    split at h
    · next kind => cases h; exact ⟨t, us, rfl, kind⟩
    · cases h
    · cases h
    · cases h

theorem nextOperator_eq_none {t : Token} {ts : List Token} (h : nextOperator (t :: ts) = .ok none) :
    t.kind = .closing ∨ t.kind = .finish := by
  rw [nextOperator] at h
  split at h
  · cases h
  · next kind => exact .inl kind
  · next kind => exact .inr kind
  · cases h

theorem tighterFollows_eq_true_iff {op : Operator} {ts : List Token} :
    tighterFollows op ts = .ok true ↔ ∃ next, nextOperator ts = .ok (some next) ∧ op.level < next.level := by
  unfold tighterFollows
  constructor
  · intro h
    cases ahead : nextOperator ts with
    | error e =>
      rw [ahead] at h
      cases h
    | ok found =>
      rw [ahead] at h
      cases found with
      | none => cases h
      | some next => exact ⟨next, rfl, of_decide_eq_true (Except.ok.inj h)⟩
  · rintro ⟨next, found, tighter⟩
    rw [found]
    exact congrArg Except.ok (decide_eq_true tighter)

namespace Goal

def Below (P : Goal → Nat → List Token → Prop) (bound : Nat) : Prop :=
  ∀ (goal : Goal) (depth : Nat) (ts : List Token), 3 * ts.length + goal.rank < bound → P goal depth ts

/-- Induction along the recursion of the reader. -/
theorem reading_induction {P : Goal → Nat → List Token → Prop}
    (expression : ∀ depth ts, Below P (3 * ts.length + 2) → P .expression depth ts)
    (operand_nil : ∀ depth, P .operand depth [])
    (operand_cons : ∀ depth t ts, Below P (3 * (t :: ts).length) → P .operand depth (t :: ts))
    (chain_nil : ∀ left floor depth, P (.chain left floor) depth [])
    (chain_cons : ∀ left floor depth t ts, Below P (3 * (t :: ts).length) →
      P (.chain left floor) depth (t :: ts))
    (goal : Goal) (depth : Nat) (ts : List Token) : P goal depth ts := by
  induction size : 3 * ts.length + goal.rank using Nat.strongRecOn generalizing goal depth ts with
  | _ size ih =>
  subst size
  have below (bound : Nat) (least : bound ≤ 3 * ts.length + goal.rank) : Below P bound :=
    fun goal depth us under => ih _ (Nat.lt_of_lt_of_le under least) goal depth us rfl
  cases goal with
  | expression => exact expression depth ts (below _ (Nat.le_refl _))
  | operand =>
    cases ts with
    | nil => exact operand_nil depth
    | cons t ts => exact operand_cons depth t ts (below _ (Nat.le_refl _))
  | chain left floor =>
    cases ts with
    | nil => exact chain_nil left floor depth
    | cons t ts => exact chain_cons left floor depth t ts (below _ (Nat.le_add_right _ _))

end Goal

def Reading.TooDeep (r : Reading) (maxDepth : Nat) : Prop :=
  ∃ offset rest, r = ⟨.error (.nestingTooDeep maxDepth offset), rest⟩

namespace ReadRules

theorem read_suffix (rules : ReadRules) (goal : Goal) (depth : Nat) (ts : List Token) :
    (rules.read goal depth ts).rest <:+ ts :=
  (rules.readTail goal depth ts).property

theorem suffix_of_read {rules : ReadRules} {goal : Goal} {depth : Nat} {ts rest : List Token}
    {outcome : Except ParseError Expr} (h : rules.read goal depth ts = ⟨outcome, rest⟩) :
    rest <:+ ts := by
  have tail := rules.read_suffix goal depth ts
  rw [h] at tail
  exact tail

def SoundBelow (rules : ReadRules) (bound : Nat) : Prop :=
  ∀ (goal : Goal) (depth : Nat) (ts : List Token) (e : Expr) (rest : List Token),
    3 * ts.length + goal.rank < bound → rules.read goal depth ts = ⟨.ok e, rest⟩ →
    ∃ levels, Derives rules.limit goal ts e rest levels

section

variable {rules : ReadRules} {depth : Nat} {t : Token} {ts rest : List Token} {e : Expr}

theorem derives_of_expression (sound : rules.SoundBelow (3 * ts.length + 2))
    (h : rules.read .expression depth ts = ⟨.ok e, rest⟩) :
    ∃ levels, Derives rules.limit .expression ts e rest levels := by
  rw [read_expression] at h
  split at h
  · split at h
    · cases h
    · next left mid operand =>
      have shorter := (suffix_of_read operand).length_le
      obtain ⟨_, first⟩ := sound .operand _ ts _ _ (by simp only [Goal.rank]; omega) operand
      obtain ⟨_, chain⟩ := sound (.chain left 0) _ mid _ _ (by simp only [Goal.rank]; omega) h
      exact ⟨_, .expression first chain⟩
  · cases h

theorem derives_of_operand (sound : rules.SoundBelow (3 * (t :: ts).length))
    (h : rules.read .operand depth (t :: ts) = ⟨.ok e, rest⟩) :
    ∃ levels, Derives rules.limit .operand (t :: ts) e rest levels := by
  rw [List.length_cons] at sound
  rw [read_operand_cons] at h
  split at h
  · next kind =>
    split at h
    · next value => cases h; exact ⟨_, .number kind value⟩
    · cases h
  · next kind => cases h; exact ⟨_, .name kind⟩
  · next kind =>
    split at h
    · cases h
    · cases h
    · next e c after inside =>
      split at h
      · next closing =>
        cases h
        obtain ⟨_, inner⟩ := sound .expression _ ts _ _ (by simp only [Goal.rank]; omega) inside
        exact ⟨_, .group kind inner closing⟩
      · cases h
  · next kind =>
    split at h
    · split at h
      · cases h
      · next e after operand =>
        cases h
        obtain ⟨_, inner⟩ := sound .operand _ ts _ _ (by simp only [Goal.rank]; omega) operand
        exact ⟨_, .root kind inner⟩
    · cases h
  · cases h

theorem derives_of_chain {left : Expr} {floor : Nat} (sound : rules.SoundBelow (3 * (t :: ts).length))
    (h : rules.read (.chain left floor) depth (t :: ts) = ⟨.ok e, rest⟩) :
    ∃ levels, Derives rules.limit (.chain left floor) (t :: ts) e rest levels := by
  rw [List.length_cons] at sound
  rw [read_chain_cons] at h
  split at h
  · next op kind =>
    split at h
    · next weak =>
      cases h
      exact ⟨_, .weaker (by rw [nextOperator, kind]) weak⟩
    · next strong =>
      have level := Nat.le_of_not_lt strong
      split at h
      · cases h
      · next right mid operand =>
        have shorter := (suffix_of_read operand).length_le
        obtain ⟨_, first⟩ := sound .operand _ ts _ _ (by simp only [Goal.rank]; omega) operand
        split at h
        · cases h
        · next follows =>
          obtain ⟨_, chain⟩ := sound (.chain _ floor) _ mid _ _ (by simp only [Goal.rank]; omega) h
          exact ⟨_, .extend kind level first follows chain⟩
        · next follows =>
          split at h
          · split at h
            · cases h
            · next operand' after climbing =>
              have shorter' := (suffix_of_read climbing).length_le
              obtain ⟨_, climb⟩ :=
                sound (.chain right (floor + 1)) _ mid _ _ (by simp only [Goal.rank]; omega) climbing
              obtain ⟨_, chain⟩ := sound (.chain _ floor) _ after _ _ (by simp only [Goal.rank]; omega) h
              exact ⟨_, .climb kind level first follows climb chain⟩
          · cases h
  · next kind => cases h; exact ⟨_, .finished (by rw [nextOperator, kind])⟩
  · next kind => cases h; exact ⟨_, .finished (by rw [nextOperator, kind])⟩
  · cases h

end

theorem derives_of_read (rules : ReadRules) (goal : Goal) (depth : Nat) (ts : List Token)
    {e : Expr} {rest : List Token} (h : rules.read goal depth ts = ⟨.ok e, rest⟩) :
    ∃ levels, Derives rules.limit goal ts e rest levels := by
  induction goal, depth, ts using Goal.reading_induction generalizing e rest with
  | expression depth ts below => exact derives_of_expression (fun _ _ _ _ _ under => below _ _ _ under) h
  | operand_nil depth => rw [read_operand_nil] at h; cases h
  | operand_cons depth t ts below => exact derives_of_operand (fun _ _ _ _ _ under => below _ _ _ under) h
  | chain_nil left floor depth =>
    rw [read_chain_nil] at h
    cases h
    exact ⟨_, .finished rfl⟩
  | chain_cons left floor depth t ts below =>
    exact derives_of_chain (fun _ _ _ _ _ under => below _ _ _ under) h

theorem read_chain_finished (rules : ReadRules) (left : Expr) (floor depth : Nat) {ts : List Token}
    (ends : nextOperator ts = .ok none) : rules.read (.chain left floor) depth ts = ⟨.ok left, ts⟩ := by
  cases ts with
  | nil => exact rules.read_chain_nil left floor depth
  | cons t ts => rcases nextOperator_eq_none ends with kind | kind <;> rw [read_chain_cons, kind]

theorem read_chain_weaker (rules : ReadRules) (left : Expr) {floor : Nat} (depth : Nat)
    {ts : List Token} {op : Operator} (next : nextOperator ts = .ok (some op))
    (weak : op.level < floor) : rules.read (.chain left floor) depth ts = ⟨.ok left, ts⟩ := by
  obtain ⟨t, us, rfl, kind⟩ := nextOperator_eq_some next
  simp only [read_chain_cons, kind, if_pos weak]

/-- A goal is read where there is room for its levels, and fails by its depth where not. -/
def Settles (rules : ReadRules) (goal : Goal) (depth : Nat) (ts : List Token) (e : Expr)
    (rest : List Token) (levels : Nat) : Prop :=
  (levels ≤ rules.maxDepth - depth ∧ rules.read goal depth ts = ⟨.ok e, rest⟩) ∨
    (rules.maxDepth - depth < levels ∧ (rules.read goal depth ts).TooDeep rules.maxDepth)

section

variable {rules : ReadRules} {depth : Nat} {t c : Token} {ts mid after rest : List Token}
  {left right operand e : Expr} {op : Operator} {floor levels climbed chained : Nat}

theorem settles_group (kind : t.kind = .opening)
    (inner : rules.Settles .expression depth ts e (c :: rest) levels) (closing : c.kind = .closing) :
    rules.Settles .operand depth (t :: ts) e rest levels := by
  rcases inner with ⟨room, inside⟩ | ⟨deep, offset, after, inside⟩
  · left
    refine ⟨room, ?_⟩
    simp only [read_operand_cons, kind, inside, closing, if_pos]
  · right
    refine ⟨deep, offset, after, ?_⟩
    simp only [read_operand_cons, kind, inside]

theorem settles_root (kind : t.kind = .root)
    (inner : rules.Settles .operand (depth + 1) ts e rest levels) :
    rules.Settles .operand depth (t :: ts) (.root e) rest (levels + 1) := by
  by_cases below : depth < rules.maxDepth
  · rcases inner with ⟨room, inside⟩ | ⟨deep, offset, after, inside⟩
    · left
      refine ⟨by omega, ?_⟩
      simp only [read_operand_cons, kind, if_pos below, inside]
    · right
      refine ⟨by omega, offset, after, ?_⟩
      simp only [read_operand_cons, kind, if_pos below, inside]
  · right
    refine ⟨by omega, t.start, ts, ?_⟩
    simp only [read_operand_cons, kind, if_neg below, tooDeep]

theorem settles_expression (first : rules.Settles .operand (depth + 1) ts left mid levels)
    (chain : rules.Settles (.chain left 0) (depth + 1) mid e rest chained) :
    rules.Settles .expression depth ts e rest (max levels chained + 1) := by
  by_cases below : depth < rules.maxDepth
  · rcases first with ⟨room, first⟩ | ⟨deep, offset, after, first⟩
    · rcases chain with ⟨room', chain⟩ | ⟨deep, offset, after, chain⟩
      · left
        refine ⟨by omega, ?_⟩
        simp only [read_expression, if_pos below, first, chain]
      · right
        refine ⟨by omega, offset, after, ?_⟩
        simp only [read_expression, if_pos below, first, chain]
    · right
      refine ⟨by omega, offset, after, ?_⟩
      simp only [read_expression, if_pos below, first]
  · right
    refine ⟨by omega, (rules.peek ts).start, ts, ?_⟩
    simp only [read_expression, if_neg below, tooDeep]

theorem settles_extend (kind : t.kind = .operator op) (level : floor ≤ op.level)
    (first : rules.Settles .operand depth ts right mid levels)
    (follows : tighterFollows op mid = .ok false)
    (chain : rules.Settles (.chain (.binary op left right) floor) depth mid e rest chained) :
    rules.Settles (.chain left floor) depth (t :: ts) e rest (max levels chained) := by
  have strong := Nat.not_lt_of_le level
  rcases first with ⟨room, first⟩ | ⟨deep, offset, after, first⟩
  · rcases chain with ⟨room', chain⟩ | ⟨deep, offset, after, chain⟩
    · left
      refine ⟨by omega, ?_⟩
      simp only [read_chain_cons, kind, if_neg strong, first, follows, chain]
    · right
      refine ⟨by omega, offset, after, ?_⟩
      simp only [read_chain_cons, kind, if_neg strong, first, follows, chain]
  · right
    refine ⟨by omega, offset, after, ?_⟩
    simp only [read_chain_cons, kind, if_neg strong, first]

theorem settles_climb (kind : t.kind = .operator op) (level : floor ≤ op.level)
    (first : rules.Settles .operand depth ts right mid levels)
    (follows : tighterFollows op mid = .ok true)
    (climb : rules.Settles (.chain right (floor + 1)) (depth + 1) mid operand after climbed)
    (chain : rules.Settles (.chain (.binary op left operand) floor) depth after e rest chained) :
    rules.Settles (.chain left floor) depth (t :: ts) e rest
      (max levels (max (climbed + 1) chained)) := by
  have strong := Nat.not_lt_of_le level
  rcases first with ⟨room, first⟩ | ⟨deep, offset, behind, first⟩
  · by_cases below : depth < rules.maxDepth
    · rcases climb with ⟨room', climb⟩ | ⟨deep, offset, behind, climb⟩
      · rcases chain with ⟨room'', chain⟩ | ⟨deep, offset, behind, chain⟩
        · left
          refine ⟨by omega, ?_⟩
          simp only [read_chain_cons, kind, if_neg strong, first, follows, if_pos below, climb, chain]
        · right
          refine ⟨by omega, offset, behind, ?_⟩
          simp only [read_chain_cons, kind, if_neg strong, first, follows, if_pos below, climb, chain]
      · right
        refine ⟨by omega, offset, behind, ?_⟩
        simp only [read_chain_cons, kind, if_neg strong, first, follows, if_pos below, climb]
    · right
      refine ⟨by omega, (rules.peek mid).start, mid, ?_⟩
      simp only [read_chain_cons, kind, if_neg strong, first, follows, if_neg below, tooDeep]
  · right
    refine ⟨by omega, offset, behind, ?_⟩
    simp only [read_chain_cons, kind, if_neg strong, first]

end

theorem read_of_derives (rules : ReadRules) {goal : Goal} {ts rest : List Token} {e : Expr}
    {levels : Nat} (h : Derives rules.limit goal ts e rest levels) (depth : Nat) :
    rules.Settles goal depth ts e rest levels := by
  induction h generalizing depth with
  | number kind value =>
    left
    simp only [read_operand_cons, kind, value, Nat.zero_le, and_self]
  | name kind =>
    left
    simp only [read_operand_cons, kind, Nat.zero_le, and_self]
  | group kind _ closing ih => exact settles_group kind (ih depth) closing
  | root kind _ ih => exact settles_root kind (ih (depth + 1))
  | expression _ _ ihl ihr => exact settles_expression (ihl (depth + 1)) (ihr (depth + 1))
  | finished ends => exact .inl ⟨Nat.zero_le _, rules.read_chain_finished _ _ depth ends⟩
  | weaker next weak => exact .inl ⟨Nat.zero_le _, rules.read_chain_weaker _ depth next weak⟩
  | extend kind level _ follows _ iho ihc =>
    exact settles_extend kind level (iho depth) follows (ihc depth)
  | climb kind level _ follows _ _ iho ihr ihc =>
    exact settles_climb kind level (iho depth) follows (ihr (depth + 1)) (ihc depth)

end ReadRules

theorem Derives.unique {limit : DigitLimit} {goal : Goal} {ts rest rest' : List Token} {e e' : Expr}
    {levels levels' : Nat} (h : Derives limit goal ts e rest levels) (h' : Derives limit goal ts e' rest' levels') :
    e = e' ∧ rest = rest' ∧ levels = levels' := by
  have same {a b : Nat} {e e' : Expr} {rest rest' : List Token} (h : Derives limit goal ts e rest a)
      (h' : Derives limit goal ts e' rest' b) : e = e' ∧ rest = rest' ∧ b ≤ a := by
    -- with just enough room for the one, there is room for the other
    let rules : ReadRules := ⟨limit, a, Token.finishAt 0, rfl⟩
    rcases rules.read_of_derives h 0 with ⟨_, read⟩ | ⟨deep, _⟩
    · rcases rules.read_of_derives h' 0 with ⟨room, read'⟩ | ⟨_, _, _, failed⟩
      · cases read.symm.trans read'
        exact ⟨rfl, rfl, room⟩
      · cases read.symm.trans failed
    · exact absurd deep (Nat.lt_irrefl a)
  obtain ⟨tree, left, le⟩ := same h h'
  exact ⟨tree, left, Nat.le_antisymm (same h' h).2.2 le⟩

end Reckoner
