import Reckoner.Proofs.Reading.Grammar
import Reckoner.Proofs.Reduction.Settling
import Reckoner.Proofs.Token.Lexing

namespace Reckoner

/-- The turns of a way down: all of its branches that are not to the left. -/
def Place.turns (p : Place) : Nat := p.countP (· ≠ .left)

theorem Place.turns_left (p : Place) : turns (.left :: p) = turns p :=
  List.countP_cons_of_neg (by decide)

theorem Place.turns_off {b : Branch} (h : b ≠ .left) (p : Place) : turns (b :: p) = turns p + 1 :=
  List.countP_cons_of_pos (decide_eq_true h)

namespace Expr

def turns : Expr → Nat
  | .literal _ => 0
  | .var _ => 0
  | .root e => e.turns + 1
  | .binary _ l r => max l.turns (r.turns + 1)

theorem turns_le {e node : Expr} {p : Place} (h : e.at? p = some node) : p.turns ≤ e.turns := by
  induction p generalizing e with
  | nil => exact Nat.zero_le _
  | cons b p ih =>
    cases e with
    | literal n => cases b <;> cases h
    | var x => cases b <;> cases h
    | root e =>
      cases b with
      | operand =>
        rw [Place.turns_off (by decide)]
        exact Nat.succ_le_succ (ih h)
      | _ => cases h
    | binary op l r =>
      cases b with
      | operand => cases h
      | left =>
        rw [Place.turns_left]
        exact Nat.le_trans (ih h) (Nat.le_max_left _ _)
      | right =>
        rw [Place.turns_off (by decide)]
        exact Nat.le_trans (Nat.succ_le_succ (ih h)) (Nat.le_max_right _ _)

end Expr

/-- The turns that so many levels pay for. A chain has those of its left operand as well, and
its right operands, one turn off, may be no deeper than the chain itself. -/
def Goal.turns : Goal → Nat → Nat
  | .operand, levels => levels
  | .expression, levels => levels
  | .chain left _, levels => max left.turns (levels + 1)

theorem Derives.turns_le {limit : DigitLimit} {goal : Goal} {ts rest : List Token} {e : Expr}
    {levels : Nat} (h : Derives limit goal ts e rest levels) : e.turns ≤ goal.turns levels := by
  induction h with
  | number => exact Nat.le_refl 0
  | name => exact Nat.le_refl 0
  | group _ _ _ ih => exact ih
  | root _ _ ih => exact Nat.succ_le_succ ih
  | expression _ _ first chain =>
    simp only [Goal.turns] at *
    omega
  | finished => exact Nat.le_max_left _ _
  | weaker => exact Nat.le_max_left _ _
  | extend _ _ _ _ _ first chain =>
    simp only [Goal.turns, Expr.turns] at *
    omega
  | climb _ _ _ _ _ _ first climb chain =>
    simp only [Goal.turns, Expr.turns] at *
    omega

namespace Expr

theorem turns_le_of_parse {source : String} {settings : Settings} {e : Expr}
    (h : parse source settings = .ok e) : e.turns ≤ settings.maxDepth := by
  obtain ⟨nonblank, _, _⟩ := scanned_of_parse h
  obtain ⟨body, stop, levels, scanned, _, derived⟩ := derives_of_parse h
  have enough : e.turns ≤ levels := derived.turns_le
  rcases Nat.lt_or_ge settings.maxDepth levels with deep | room
  · obtain ⟨offset, failed⟩ := parse_tooDeep nonblank scanned derived deep
    cases h.symm.trans failed
  · exact Nat.le_trans enough room

def sums (x : String) : Nat → Expr
  | 0 => .var x
  | k + 1 => .binary .add (sums x k) (.var x)

theorem at?_sums (x : String) (k : Nat) : (sums x k).at? (List.replicate k .left) = some (.var x) := by
  induction k with
  | zero => rfl
  | succ k ih => exact ih

end Expr

def plusses : Nat → List Char
  | 0 => []
  | k + 1 => [' ', '+', ' ', 'x'] ++ plusses k

theorem Token.apart_plusses (k : Nat) : Apart (plusses k) := by
  cases k with
  | zero => exact apart_nil
  | succ k => exact apart_space _

theorem Token.piece_x {rest : List Char} (apart : Apart rest) : Piece .name "x" rest :=
  piece_name (by decide) (by decide) (by decide) apart

theorem derives_plusses (limit : DigitLimit) (offset j k : Nat) :
    ∃ body next, Token.Lexes offset (plusses k) [] body next ∧ tighterFollows .add body = .ok false ∧
      Derives limit (.chain (Expr.sums "x" j) 0) body (Expr.sums "x" (j + k)) [] 0 := by
  induction k generalizing offset j with
  | zero => exact ⟨[], offset, .nil offset [], rfl, .finished rfl⟩
  | succ k ih =>
    let fromWord := "x".toList ++ plusses k
    let fromSign := "+".toList ++ ([' '] ++ fromWord)
    have gap := Token.Lexes.space offset (fromSign ++ [])
    obtain ⟨t, o₁, plus, _, sign⟩ := Token.piece_operator .add (fromWord ++ []) (offset + ' '.utf8Size)
    have gap' := Token.Lexes.space o₁ (fromWord ++ [])
    have apart : Token.Apart (plusses k ++ []) := (List.append_nil (plusses k)).symm ▸ Token.apart_plusses k
    obtain ⟨u, o₂, name, text, word⟩ := Token.piece_x apart (o₁ + ' '.utf8Size)
    obtain ⟨body, next, lexes, follows, chain⟩ := ih o₂ (j + 1)
    have operand : Derives limit .operand (u :: body) (.var "x") body 0 := text ▸ .name name
    have longer : j + (k + 1) = j + 1 + k := by omega
    refine ⟨t :: u :: body, next, gap.append (sign.append (gap'.append (word.append lexes))), ?_, ?_⟩
    · simp only [tighterFollows, nextOperator, plus]
      rfl
    · rw [longer]
      exact .extend plus (Nat.zero_le _) operand follows chain

namespace Expr

theorem parse_sums (settings : Settings) (k : Nat) :
    parse (String.ofList ('x' :: plusses k)) settings = .ok (sums "x" k) := by
  have apart : Token.Apart (plusses k ++ []) := (List.append_nil (plusses k)).symm ▸ Token.apart_plusses k
  obtain ⟨t, o₁, name, text, word⟩ := Token.piece_x apart 0
  obtain ⟨body, stop, lexes, _, chain⟩ := derives_plusses settings.digitLimit o₁ 0 k
  have chars : (String.ofList ('x' :: plusses k)).toList = "x".toList ++ plusses k := String.toList_ofList
  have nonblank : Text.allBlank (String.ofList ('x' :: plusses k)) = false := by
    have first : 'x' ∈ (String.ofList ('x' :: plusses k)).toList := by simp
    exact Text.allBlank_of_mem first (by decide)
  have scanned : Token.tokenize (String.ofList ('x' :: plusses k)) = .ok (t :: body ++ [Token.finishAt stop]) := by
    rw [Token.tokenize, chars]
    exact (word.append lexes).tokens
  have first : Derives settings.digitLimit .operand (t :: body) (.var "x") body 0 := text ▸ .name name
  rw [Nat.zero_add] at chain
  exact parse_of_derives nonblank scanned (.expression first chain) settings.maxDepth_positive

/-- Whatever is read, no way down from its top has more turns to a right operand or to the
operand of a root than the greatest depth. Turns to the left are not counted: with any
settings trees are read that go to the left as often as one likes. -/
theorem turns_le_maxDepth (settings : Settings) :
    (∀ (source : String) (e node : Expr) (p : Place),
      parse source settings = .ok e → e.at? p = some node → p.countP (· ≠ .left) ≤ settings.maxDepth) ∧
    ∀ k, ∃ source e x, parse source settings = .ok e ∧ e.at? (List.replicate k .left) = some (.var x) := by
  constructor
  · intro source e node p read way
    have within : p.turns ≤ e.turns := turns_le way
    exact Nat.le_trans within (turns_le_of_parse read)
  · intro k
    exact ⟨_, sums "x" k, "x", parse_sums settings k, at?_sums "x" k⟩

theorem turns_le_maxDepth_tight :
    let settings : Settings := ⟨.standard, 3, by decide⟩
    let e : Expr := .binary .sub (.literal ⟨[1]⟩) (.binary .sub (.literal ⟨[2]⟩) (.root (.var "x")))
    parse "1-(2-sqrt x)" settings = .ok e ∧ e.at? [.right, .right, .operand] = some (.var "x") ∧
      List.countP (· ≠ Branch.left) [.right, .right, .operand] = 3 ∧ 3 ≤ settings.maxDepth := by
  intro settings e
  have read : parse "1-(2-sqrt x)" settings = .ok e := by decide +kernel
  have bound := (turns_le_maxDepth settings).1 "1-(2-sqrt x)" e (.var "x") [.right, .right, .operand] read rfl
  exact ⟨read, rfl, by decide, bound⟩

end Expr
end Reckoner
