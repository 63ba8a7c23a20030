import Reckoner.Evaluation
import Reckoner.Expr.Postfix

namespace Reckoner

inductive Branch where
  | operand
  | left
  | right
  deriving DecidableEq

abbrev Place := List Branch

namespace Expr

def at? : Expr → Place → Option Expr
  | e, [] => some e
  | .root e, .operand :: p => e.at? p
  | .binary _ l _, .left :: p => l.at? p
  | .binary _ _ r, .right :: p => r.at? p
  | _, _ => none

/-- The nodes that are to be worked out, in postfix order. -/
def openNodes (e : Expr) : List Expr := e.nodes.filter fun node => !node.isLiteral

def openPlaces : Expr → List Place
  | .literal _ => []
  | .var _ => [[]]
  | .root e => e.openPlaces.map (.operand :: ·) ++ [[]]
  | .binary _ l r => l.openPlaces.map (.left :: ·) ++ r.openPlaces.map (.right :: ·) ++ [[]]

@[simp] theorem openNodes_literal (n : Numeral) : (Expr.literal n).openNodes = [] := rfl

@[simp] theorem openNodes_var (x : String) : (Expr.var x).openNodes = [.var x] := rfl

@[simp] theorem openNodes_root (e : Expr) : (Expr.root e).openNodes = e.openNodes ++ [.root e] :=
  List.filter_append ..

@[simp] theorem openNodes_binary (op : Operator) (l r : Expr) :
    (Expr.binary op l r).openNodes = l.openNodes ++ r.openNodes ++ [.binary op l r] := by
  simp [openNodes, nodes, isLiteral, literal?]

theorem map_at?_openPlaces (e : Expr) : e.openPlaces.map e.at? = e.openNodes.map some := by
  induction e with
  | literal n => rfl
  | var x => rfl
  | root e ih =>
    simp only [openPlaces, openNodes_root, List.map_append, List.map_map, ← ih]
    rfl
  | binary op l r ihl ihr =>
    simp only [openPlaces, openNodes_binary, List.map_append, List.map_map, ← ihl, ← ihr]
    rfl

@[simp] theorem length_openNodes (e : Expr) : e.openNodes.length = e.operations := by
  induction e with
  | literal n => rfl
  | var x => rfl
  | root e ih => simp [operations, ih]
  | binary op l r ihl ihr => simp [operations, ihl, ihr, Nat.add_assoc]

@[simp] theorem length_openPlaces (e : Expr) : e.openPlaces.length = e.operations := by
  have lengths := congrArg List.length (map_at?_openPlaces e)
  simpa using lengths

theorem nodup_below {places : List Place} (b : Branch) (h : places.Nodup) :
    (places.map (b :: ·)).Nodup :=
  List.pairwise_map.mpr (h.imp fun other same => other (List.cons.inj same).2)

theorem nodup_openPlaces (e : Expr) : e.openPlaces.Nodup := by
  have top : ([[]] : List Place).Nodup := List.pairwise_singleton _ []
  induction e with
  | literal n => exact List.nodup_nil
  | var x => exact top
  | root e ih =>
    apply List.nodup_append.mpr ⟨nodup_below .operand ih, top, _⟩
    simp
  | binary op l r ihl ihr =>
    have operands : (l.openPlaces.map (.left :: ·) ++ r.openPlaces.map (.right :: ·)).Nodup := by
      apply List.nodup_append.mpr ⟨nodup_below .left ihl, nodup_below .right ihr, _⟩
      simp
    apply List.nodup_append.mpr ⟨operands, top, _⟩
    simp +contextual [or_imp, forall_and]

end Expr

namespace Scope
open Reckoner.Expr

def literalOf (scope : Scope) (e : Expr) : Expr :=
  match scope.eval e with
  | .ok n => .literal n
  | .error _ => e

def settle (scope : Scope) : Expr → (Place → Bool) → Expr
  | .literal n, _ => .literal n
  | .var x, done => if done [] then scope.literalOf (.var x) else .var x
  | .root e, done =>
    if done [] then scope.literalOf (.root e)
    else .root (scope.settle e fun p => done (.operand :: p))
  | .binary op l r, done =>
    if done [] then scope.literalOf (.binary op l r)
    else .binary op (scope.settle l fun p => done (.left :: p)) (scope.settle r fun p => done (.right :: p))

/-- The expression when the first `k` of its nodes have been worked out. -/
def stage (scope : Scope) (e : Expr) (k : Nat) : Expr :=
  scope.settle e fun p => decide (p ∈ e.openPlaces.take k)

variable (scope : Scope)

theorem settle_nothing (e : Expr) : scope.settle e (fun _ => false) = e := by
  induction e with
  | literal n => rfl
  | var x => rfl
  | root e ih => simp [settle, ih]
  | binary op l r ihl ihr => simp [settle, ihl, ihr]

@[simp] theorem stage_zero (e : Expr) : scope.stage e 0 = e := by
  simp [stage, settle_nothing]

@[simp] theorem literalOf_literal (n : Numeral) : scope.literalOf (.literal n) = .literal n := by
  unfold literalOf
  rw [eval_literal]

theorem stage_all {e : Expr} {k : Nat} (all : e.operations ≤ k) : scope.stage e k = scope.literalOf e := by
  have every : e.openPlaces.take k = e.openPlaces := List.take_of_length_le (by simpa using all)
  unfold stage
  rw [every]
  cases e with
  | literal n => simp [settle]
  | var x => rfl
  | root e => simp [settle, openPlaces]
  | binary op l r => simp [settle, openPlaces]

theorem stage_root {e : Expr} {k : Nat} (inside : k ≤ e.operations) :
    scope.stage (.root e) k = .root (scope.stage e k) := by
  have first : (Expr.root e).openPlaces.take k = (e.openPlaces.take k).map (.operand :: ·) := by
    have room : k ≤ (e.openPlaces.map (Branch.operand :: ·)).length := by simpa using inside
    rw [openPlaces, List.take_append_of_le_length room, List.map_take]
  unfold stage
  rw [first]
  generalize e.openPlaces.take k = done
  simp [settle]

theorem stage_left {op : Operator} {l r : Expr} {k : Nat} (inside : k ≤ l.operations) :
    scope.stage (.binary op l r) k = .binary op (scope.stage l k) r := by
  have first : (Expr.binary op l r).openPlaces.take k = (l.openPlaces.take k).map (.left :: ·) := by
    have room : k ≤ (l.openPlaces.map (Branch.left :: ·)).length := by simpa using inside
    rw [openPlaces, List.append_assoc, List.take_append_of_le_length room, List.map_take]
  unfold stage
  rw [first]
  generalize l.openPlaces.take k = done
  simp [settle, settle_nothing]

theorem stage_right {op : Operator} {l r : Expr} {k : Nat} (inside : k ≤ r.operations) :
    scope.stage (.binary op l r) (l.operations + k) =
      .binary op (scope.literalOf l) (scope.stage r k) := by
  have first : (Expr.binary op l r).openPlaces.take (l.operations + k) =
      l.openPlaces.map (.left :: ·) ++ (r.openPlaces.take k).map (.right :: ·) := by
    have length : (l.openPlaces.map (Branch.left :: ·)).length = l.operations := by simp
    have room : k ≤ (r.openPlaces.map (Branch.right :: ·)).length := by simpa using inside
    rw [openPlaces, List.append_assoc, ← length, List.take_length_add_append, List.take_append_of_le_length room,
      List.map_take]
  have left : scope.settle l (fun p => decide (p ∈ l.openPlaces)) = scope.literalOf l := by
    have all := scope.stage_all (Nat.le_of_eq l.length_openPlaces.symm)
    unfold stage at all
    rwa [List.take_length] at all
  unfold stage
  rw [first]
  generalize r.openPlaces.take k = done
  simp [settle, left]

theorem isLiteral_stage {e : Expr} {k : Nat} (before : k < e.operations) :
    (scope.stage e k).isLiteral = false := by
  cases e with
  | literal n => cases before
  | var x =>
    obtain rfl : k = 0 := Nat.lt_one_iff.mp before
    simp [isLiteral, literal?]
  | root e =>
    rw [stage_root scope (Nat.le_of_lt_succ before)]
    rfl
  | binary op l r =>
    by_cases left : k ≤ l.operations
    · rw [stage_left scope left]
      rfl
    · obtain ⟨i, rfl⟩ := Nat.exists_eq_add_of_le (Nat.le_of_not_le left)
      rw [stage_right scope (Nat.le_of_add_le_add_left (Nat.le_of_lt_succ before))]
      rfl

end Scope
end Reckoner
