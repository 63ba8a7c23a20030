import Reckoner.Proofs.Reduction.Settling
import Reckoner.Proofs.Reduction.Stages

/-! The order of the working. Pass after pass the nodes of an expression are worked out in
postfix order, one each time, until the value is left or a node cannot be worked out. -/
namespace Reckoner

namespace Expr

theorem openNodes_concat {e : Expr} (h : e.isLiteral = false) : ∃ operands, e.openNodes = operands ++ [e] := by
  cases e with
  | literal n => cases h
  | var x => exact ⟨[], openNodes_var x⟩
  | root e => exact ⟨_, openNodes_root e⟩
  | binary op l r => exact ⟨_, openNodes_binary op l r⟩

theorem self_mem_openNodes {e : Expr} (h : e.isLiteral = false) : e ∈ e.openNodes := by
  obtain ⟨operands, last⟩ := openNodes_concat h
  exact last ▸ List.mem_append_right operands (List.mem_singleton_self e)

theorem getElem?_openNodes_last {e node : Expr} {k : Nat} (last : k + 1 = e.operations)
    (here : e.openNodes[k]? = some node) : node = e := by
  have compound : e.isLiteral = false := by
    cases e with
    | literal n => cases last
    | var x => rfl
    | root e => rfl
    | binary op l r => rfl
  obtain ⟨operands, split⟩ := openNodes_concat compound
  have length := e.length_openNodes
  have position : k = operands.length := by
    simp only [split, List.length_append, List.length_singleton] at length
    omega
  simpa [split, position] using here.symm

theorem next_reducible {e : Expr} (h : e.isReducible = true) : e.next = .redex e [] := by
  cases e with
  | literal n => cases h
  | var x => rfl
  | root e =>
    have operand : e.isLiteral = true := h
    rw [next, locate, if_pos operand]
  | binary op l r =>
    obtain ⟨left, right⟩ := Bool.and_eq_true_iff.mp h
    obtain ⟨a, found⟩ := Option.isSome_iff_exists.mp left
    rw [next, locate, found]
    exact if_pos right

theorem exists_next {e : Expr} (h : e.isLiteral = false) : ∃ node frames, e.next = .redex node frames := by
  cases found : e.next with
  | redex node frames => exact ⟨node, frames, rfl⟩
  | finished n =>
    have literal := eq_literal_of_locate found
    subst literal
    cases h

end Expr

namespace Scope
open Reckoner.Expr

def pass (scope : Scope) (e : Expr) : Except EvalError Expr := ((Pass.mk scope false).run e).1

def passes (scope : Scope) : Nat → Expr → Except EvalError Expr
  | 0, e => .ok e
  | k + 1, e => (scope.passes k e).bind scope.pass

/-- A node as it stands when its operands have been worked out. -/
def readied (scope : Scope) : Expr → Expr
  | .root e => .root (scope.literalOf e)
  | .binary op l r => .binary op (scope.literalOf l) (scope.literalOf r)
  | e => e

/-- A node whose own lookup or operation fails, and how a pass reports that. -/
inductive Breaks (scope : Scope) : Expr → EvalError → Prop where
  | lookup {x : String} : scope.bindings.find? x = none → Breaks scope (.var x) (.unknownVariable x)
  | operation {op : Operator} {l r : Expr} {a b : Numeral} {cause : NumberError} :
      scope.eval l = .ok a → scope.eval r = .ok b → op.apply scope.limit a b = .error cause →
      Breaks scope (.binary op l r) (.arithmetic (Expr.binary op (.literal a) (.literal b)).text cause)

def Worked (scope : Scope) (nodes : List Expr) : Prop := ∀ node ∈ nodes, ∃ n, scope.eval node = .ok n

variable {scope : Scope}

theorem worked_nil : scope.Worked [] := fun _ member => absurd member List.not_mem_nil

theorem worked_append {xs ys : List Expr} : scope.Worked (xs ++ ys) ↔ scope.Worked xs ∧ scope.Worked ys :=
  List.forall_mem_append

theorem worked_singleton {node : Expr} : scope.Worked [node] ↔ ∃ n, scope.eval node = .ok n :=
  List.forall_mem_singleton

theorem pass_redex {e node : Expr} {frames : List Frame} (h : e.next = .redex node frames) :
    scope.pass e = (scope.eval node).map fun n => plugAll frames (.literal n) := by
  unfold pass Pass.run
  simp only [h, Bool.false_eq_true, if_false]
  cases scope.eval node <;> rfl

theorem pass_plug (f : Frame) {e : Expr} (h : e.isLiteral = false) :
    scope.pass (f.plug e) = (scope.pass e).map f.plug := by
  obtain ⟨node, frames, found⟩ := exists_next h
  have around := next_plug f found
  simp only [pass_redex found, pass_redex around, plugAll_concat]
  cases scope.eval node <;> rfl

theorem pass_part (f : Frame) {e next : Expr} {x : Except EvalError Numeral} (h : e.isLiteral = false)
    (inside : scope.pass e = x.map fun _ => next) :
    scope.pass (f.plug e) = x.map fun _ => f.plug next := by
  rw [pass_plug f h, inside]
  cases x <;> rfl

theorem stages_pass {e : Expr} (h : e.isLiteral = false) :
    scope.stages e = (scope.pass e).bind fun e' =>
      (scope.stages e').map fun (v, later) => (v, e :: later) := by
  obtain ⟨node, frames, found⟩ := exists_next h
  rw [stages_redex scope found, pass_redex found]
  cases scope.eval node <;> rfl

theorem literalOf_ok {e : Expr} {n : Numeral} (h : scope.eval e = .ok n) : scope.literalOf e = .literal n := by
  simp [literalOf, h]

theorem eval_root_eq_ok_iff {e : Expr} {n : Numeral} :
    scope.eval (.root e) = .ok n ↔ ∃ a, scope.eval e = .ok a ∧ a.sqrt = n := by
  rw [eval_root]
  cases scope.eval e <;> simp [Except.map]

theorem eval_binary_eq_ok_iff {op : Operator} {l r : Expr} {n : Numeral} :
    scope.eval (.binary op l r) = .ok n ↔
      ∃ a b, scope.eval l = .ok a ∧ scope.eval r = .ok b ∧ op.apply scope.limit a b = .ok n := by
  rw [eval_binary]
  cases scope.eval l with
  | error x => simp [Except.bind]
  | ok a =>
    cases scope.eval r with
    | error x => simp [Except.bind]
    | ok b =>
      unfold combine
      cases applied : op.apply scope.limit a b <;> simp [Except.bind, applied]

@[simp] theorem eval_literalOf (e : Expr) : scope.eval (scope.literalOf e) = scope.eval e := by
  unfold literalOf
  cases worked : scope.eval e with
  | ok n => exact scope.eval_literal n
  | error x => exact worked

theorem eval_readied_eq_ok_iff {node : Expr} {n : Numeral} :
    scope.eval (scope.readied node) = .ok n ↔ scope.eval node = .ok n := by
  cases node with
  | literal m => rfl
  | var x => rfl
  | root e =>
    simp [readied, eval_root_eq_ok_iff]
  | binary op l r =>
    simp [readied, eval_binary_eq_ok_iff]

theorem Breaks.eval_readied {node : Expr} {y : EvalError} (h : scope.Breaks node y) :
    scope.eval (scope.readied node) = .error y := by
  cases h with
  | lookup unbound => simp [readied, eval_var, Scope.lookup, unbound]
  | operation left right failed =>
    simp [readied, literalOf_ok left, literalOf_ok right, eval_binary, eval_literal, Except.bind, combine, failed]

theorem not_breaks_of_eval {node : Expr} {n : Numeral} {y : EvalError} (h : scope.eval node = .ok n) :
    ¬ scope.Breaks node y := by
  intro breaks
  have failed := breaks.eval_readied
  have worked := eval_readied_eq_ok_iff.mpr h
  simp [worked] at failed

theorem worked_openNodes {e : Expr} {n : Numeral} (h : scope.eval e = .ok n) : scope.Worked e.openNodes := by
  induction e generalizing n with
  | literal v => exact worked_nil
  | var x => exact worked_singleton.mpr ⟨n, h⟩
  | root e ih =>
    obtain ⟨a, operand, _⟩ := eval_root_eq_ok_iff.mp h
    simp only [openNodes_root, worked_append, worked_singleton]
    exact ⟨ih operand, n, h⟩
  | binary op l r ihl ihr =>
    obtain ⟨a, b, left, right, _⟩ := eval_binary_eq_ok_iff.mp h
    simp only [openNodes_binary, worked_append, worked_singleton]
    exact ⟨⟨ihl left, ihr right⟩, n, h⟩

theorem eval_of_worked {e : Expr} (h : scope.Worked e.openNodes) : ∃ n, scope.eval e = .ok n := by
  cases e with
  | literal n => exact ⟨n, scope.eval_literal n⟩
  | var x => exact h _ (self_mem_openNodes rfl)
  | root e => exact h _ (self_mem_openNodes rfl)
  | binary op l r => exact h _ (self_mem_openNodes rfl)

/-- The first open node that fails by itself; those before it come to values. -/
def FirstBreak (scope : Scope) (e : Expr) (before : List Expr) (node : Expr) (y : EvalError) : Prop :=
  (∃ after, e.openNodes = before ++ node :: after) ∧
  scope.Worked before ∧ scope.Breaks node y

theorem FirstBreak.part {e part node : Expr} {before : List Expr} {y : EvalError}
    (h : scope.FirstBreak part before node y) {front back : List Expr}
    (split : e.openNodes = front ++ part.openNodes ++ back)
    (fine : scope.Worked front) : scope.FirstBreak e (front ++ before) node y := by
  obtain ⟨⟨after, here⟩, worked, breaks⟩ := h
  refine ⟨⟨after ++ back, ?_⟩, worked_append.mpr ⟨fine, worked⟩, breaks⟩
  simp [split, here]

theorem exists_firstBreak {e : Expr} {x : EvalError} (h : scope.eval e = .error x) :
    ∃ before node y, scope.FirstBreak e before node y := by
  induction e generalizing x with
  | literal n => simp [eval_literal] at h
  | var name =>
    cases found : scope.bindings.find? name with
    | some n => simp [eval_var, Scope.lookup, found] at h
    | none => exact ⟨[], _, _, ⟨[], rfl⟩, worked_nil, .lookup found⟩
  | root e ih =>
    cases operand : scope.eval e with
    | ok a => simp [eval_root, operand, Except.map] at h
    | error z =>
      have split : (Expr.root e).openNodes = [] ++ e.openNodes ++ [.root e] := openNodes_root e
      obtain ⟨before, node, y, first⟩ := ih operand
      exact ⟨_, node, y, first.part split worked_nil⟩
  | binary op l r ihl ihr =>
    cases left : scope.eval l with
    | error z =>
      have split : (Expr.binary op l r).openNodes =
          [] ++ l.openNodes ++ (r.openNodes ++ [.binary op l r]) := by simp [openNodes_binary]
      obtain ⟨before, node, y, first⟩ := ihl left
      exact ⟨_, node, y, first.part split worked_nil⟩
    | ok a =>
      cases right : scope.eval r with
      | error z =>
        obtain ⟨before, node, y, first⟩ := ihr right
        exact ⟨_, node, y, first.part (openNodes_binary op l r) (worked_openNodes left)⟩
      | ok b =>
        cases applied : op.apply scope.limit a b with
        | ok v =>
          have value := eval_binary_eq_ok_iff.mpr ⟨a, b, left, right, applied⟩
          simp [value] at h
        | error cause =>
          have operands := worked_append.mpr ⟨worked_openNodes left, worked_openNodes right⟩
          exact ⟨_, _, _, ⟨[], openNodes_binary op l r⟩, operands, .operation left right applied⟩

theorem pass_reducible {e : Expr} (h : e.isReducible = true) :
    scope.pass e = (scope.eval e).map .literal :=
  pass_redex (next_reducible h)

theorem stage_before_last {e : Expr} {k : Nat} (last : k + 1 = e.operations) :
    scope.stage e k = scope.readied e := by
  cases e with
  | literal n => cases last
  | var x =>
    obtain rfl : k = 0 := Nat.succ.inj last
    exact scope.stage_zero _
  | root e =>
    obtain rfl : k = e.operations := Nat.succ.inj last
    simp [stage_root, stage_all, readied]
  | binary op l r =>
    obtain rfl : k = l.operations + r.operations := Nat.succ.inj last
    simp [stage_right, stage_all, readied]

theorem isReducible_readied {e : Expr} {k : Nat} (last : k + 1 = e.operations)
    (worked : scope.Worked (e.openNodes.take k)) :
    (scope.readied e).isReducible = true := by
  cases e with
  | literal n => cases last
  | var x => rfl
  | root e =>
    obtain rfl : k = e.operations := Nat.succ.inj last
    rw [openNodes_root, ← length_openNodes, List.take_left] at worked
    obtain ⟨a, operand⟩ := eval_of_worked worked
    simp [readied, isReducible, literalOf_ok operand, isLiteral, literal?]
  | binary op l r =>
    obtain rfl : k = l.operations + r.operations := Nat.succ.inj last
    rw [openNodes_binary, ← length_openNodes, ← length_openNodes, ← List.length_append,
      List.take_left, worked_append] at worked
    obtain ⟨a, left⟩ := eval_of_worked worked.1
    obtain ⟨b, right⟩ := eval_of_worked worked.2
    simp [readied, isReducible, literalOf_ok left, literalOf_ok right, isLiteral, literal?]

theorem pass_last {e : Expr} {k : Nat} (last : k + 1 = e.operations)
    (worked : scope.Worked (e.openNodes.take k)) :
    scope.pass (scope.stage e k) = (scope.eval (scope.readied e)).map fun _ => scope.stage e (k + 1) := by
  have ready := isReducible_readied last worked
  rw [stage_before_last last, stage_all scope (Nat.le_of_eq last.symm), pass_reducible ready]
  cases value : scope.eval (scope.readied e) with
  | error x => rfl
  | ok v =>
    have literal := literalOf_ok (eval_readied_eq_ok_iff.mp value)
    exact congrArg Except.ok literal.symm

/-- One pass. When the first `k` nodes have been worked out it works out the next one. -/
theorem pass_stage {e node : Expr} {k : Nat} (here : e.openNodes[k]? = some node)
    (worked : scope.Worked (e.openNodes.take k)) :
    scope.pass (scope.stage e k) =
      (scope.eval (scope.readied node)).map fun _ => scope.stage e (k + 1) := by
  have before : k < e.operations := e.length_openNodes ▸ (List.getElem?_eq_some_iff.mp here).1
  induction e generalizing k with
  | literal n => cases before
  | var x =>
    have last : k + 1 = (Expr.var x).operations := Nat.le_antisymm before (Nat.succ_le_succ (Nat.zero_le k))
    rw [getElem?_openNodes_last last here]
    exact pass_last last worked
  | root e ih =>
    by_cases last : k + 1 = (Expr.root e).operations
    · rw [getElem?_openNodes_last last here]
      exact pass_last last worked
    -- the next node is in the operand
    have total : (Expr.root e).operations = e.operations + 1 := rfl
    have inside : k < e.operations := by omega
    have within : k < e.openNodes.length := e.length_openNodes ▸ inside
    simp only [openNodes_root, List.getElem?_append_left within] at here
    simp only [openNodes_root, List.take_append_of_le_length (Nat.le_of_lt within)] at worked
    simp only [stage_root scope (Nat.le_of_lt inside), stage_root scope inside]
    exact pass_part .root (isLiteral_stage scope inside) (ih here worked inside)
  | binary op l r ihl ihr =>
    by_cases last : k + 1 = (Expr.binary op l r).operations
    · rw [getElem?_openNodes_last last here]
      exact pass_last last worked
    simp only [openNodes_binary, List.append_assoc] at here worked
    by_cases inside : k < l.operations
    · have within : k < l.openNodes.length := l.length_openNodes ▸ inside
      simp only [List.getElem?_append_left within] at here
      simp only [List.take_append_of_le_length (Nat.le_of_lt within)] at worked
      simp only [stage_left scope (Nat.le_of_lt inside), stage_left scope inside]
      exact pass_part (.left op r) (isLiteral_stage scope inside) (ihl here worked inside)
    -- the left operand has come to its value and the next node is in the right one
    obtain ⟨i, rfl⟩ := Nat.exists_eq_add_of_le (Nat.le_of_not_lt inside)
    have total : (Expr.binary op l r).operations = l.operations + r.operations + 1 := rfl
    have inside : i < r.operations := by omega
    have within : i < r.openNodes.length := r.length_openNodes ▸ inside
    rw [← length_openNodes, List.getElem?_append_right (Nat.le_add_right _ _), Nat.add_sub_cancel_left,
      List.getElem?_append_left within] at here
    rw [← length_openNodes, List.take_length_add_append,
      List.take_append_of_le_length (Nat.le_of_lt within), worked_append] at worked
    obtain ⟨a, left⟩ := eval_of_worked worked.1
    simp only [Nat.add_assoc, stage_right scope (Nat.le_of_lt inside), stage_right scope inside,
      literalOf_ok left]
    exact pass_part (.right op a) (isLiteral_stage scope inside) (ihr here worked.2 inside)

theorem worked_before {e : Expr} {j k : Nat} (le : j ≤ k) (worked : scope.Worked (e.openNodes.take k)) :
    scope.Worked (e.openNodes.take j) :=
  fun m member => worked m (List.take_subset_take_left _ le member)

theorem pass_worked {e : Expr} {k : Nat} (room : k < e.operations)
    (worked : scope.Worked (e.openNodes.take (k + 1))) :
    scope.pass (scope.stage e k) = .ok (scope.stage e (k + 1)) := by
  have within : k < e.openNodes.length := e.length_openNodes ▸ room
  have here := List.getElem?_eq_getElem within
  rw [List.take_succ_eq_append_getElem within, worked_append, worked_singleton] at worked
  obtain ⟨before, n, value⟩ := worked
  rw [pass_stage here before, eval_readied_eq_ok_iff.mpr value]
  rfl

theorem passes_stage {e : Expr} {k : Nat} (room : k ≤ e.operations)
    (worked : scope.Worked (e.openNodes.take k)) :
    scope.passes k e = .ok (scope.stage e k) := by
  induction k with
  | zero => exact congrArg Except.ok (scope.stage_zero e).symm
  | succ k ih =>
    unfold passes
    rw [ih (Nat.le_of_succ_le room) (worked_before (Nat.le_succ k) worked)]
    exact pass_worked room worked

theorem stages_stage {e : Expr} {k : Nat} (room : k ≤ e.operations)
    (worked : scope.Worked (e.openNodes.take k)) :
    scope.stages e = (scope.stages (scope.stage e k)).map fun (v, later) =>
      (v, (List.range k).map (scope.stage e) ++ later) := by
  induction k with
  | zero =>
    rw [stage_zero]
    cases scope.stages e <;> rfl
  | succ k ih =>
    rw [ih (Nat.le_of_succ_le room) (worked_before (Nat.le_succ k) worked),
      stages_pass (isLiteral_stage scope room), pass_worked room worked]
    change ((scope.stages (scope.stage e (k + 1))).map _).map _ = _
    cases scope.stages (scope.stage e (k + 1)) with
    | error x => rfl
    | ok pair => simp [Except.map, List.range_succ]

/-- The working of an expression with a value: one pass for every open node, and the text
of one stage for every pass and for the beginning. -/
structure Completes (scope : Scope) (e : Expr) (v : Numeral) : Prop where
  worked : scope.Worked e.openNodes
  passes : ∀ k ≤ e.openNodes.length, scope.passes k e = .ok (scope.stage e k)
  unfinished : ∀ k < e.openNodes.length, (scope.stage e k).isLiteral = false
  last : scope.stage e e.openNodes.length = .literal v
  lines : scope.workings e =
    .ok (v, (List.range (e.openNodes.length + 1)).map fun k => (scope.stage e k).text)
  lastLine : (scope.stage e e.openNodes.length).text = v.text

structure Stops (scope : Scope) (e : Expr) (before : List Expr) (node : Expr) (y : EvalError) : Prop where
  first : scope.FirstBreak e before node y
  earlier : ∀ m ∈ before, ¬ ∃ z, scope.Breaks m z
  passes : ∀ k ≤ before.length, scope.passes k e = .ok (scope.stage e k)
  unfinished : ∀ k ≤ before.length, (scope.stage e k).isLiteral = false
  failed : scope.passes (before.length + 1) e = .error y
  noLines : scope.workings e = .error y

theorem completes_of_eval {e : Expr} {v : Numeral} (h : scope.eval e = .ok v) : scope.Completes e v := by
  have worked := worked_openNodes h
  have part (k : Nat) : scope.Worked (e.openNodes.take k) :=
    fun m member => worked m (List.mem_of_mem_take member)
  have last : scope.stage e e.openNodes.length = .literal v := by
    rw [length_openNodes, stage_all scope (Nat.le_refl _)]
    exact literalOf_ok h
  have length := e.length_openNodes
  refine ⟨worked, ?_, ?_, last, ?_, ?_⟩
  · exact fun k room => passes_stage (length ▸ room) (part k)
  · exact fun k before => isLiteral_stage scope (length ▸ before)
  · have all := stages_stage (Nat.le_of_eq length) (part e.openNodes.length)
    rw [last, stages_literal] at all
    unfold workings
    rw [all, List.range_succ, List.map_append, List.map_singleton, last]
    simp [Except.map]
  · exact (congrArg Expr.text last).trans (text_literal v)

theorem FirstBreak.stops {e node : Expr} {before : List Expr} {y : EvalError}
    (h : scope.FirstBreak e before node y) : scope.Stops e before node y := by
  have first := h
  obtain ⟨⟨after, split⟩, worked, breaks⟩ := h
  have worked' : scope.Worked (e.openNodes.take before.length) := by
    simpa [split] using worked
  have here : e.openNodes[before.length]? = some node := by
    simp [split]
  have room : before.length < e.operations := by
    simp [← length_openNodes, split]
  have reached := passes_stage (Nat.le_of_lt room) worked'
  have failed : scope.pass (scope.stage e before.length) = .error y := by
    simp [pass_stage here worked', breaks.eval_readied, Except.map]
  refine ⟨first, ?_, ?_, ?_, ?_, ?_⟩
  · rintro m member ⟨z, own⟩
    obtain ⟨n, value⟩ := worked m member
    exact not_breaks_of_eval value own
  · intro k most
    exact passes_stage (Nat.le_trans most (Nat.le_of_lt room)) (worked_before most worked')
  · exact fun k most => isLiteral_stage scope (Nat.lt_of_le_of_lt most room)
  · simp [Scope.passes, reached, Except.bind, failed]
  · unfold workings
    rw [stages_stage (Nat.le_of_lt room) worked', stages_pass (isLiteral_stage scope room), failed]
    rfl

/-- Step by step the open nodes of an expression are worked out in postfix order, one in
each pass, until the value is left or a node fails by itself. -/
theorem workings_in_postfix_order (scope : Scope) (e : Expr) :
    (e.openPlaces.Nodup ∧ e.openPlaces.map e.at? = e.openNodes.map some) ∧
    (∀ v, scope.eval e = .ok v → scope.Completes e v) ∧
    (∀ x, scope.eval e = .error x → ∃ before node y, scope.Stops e before node y) := by
  refine ⟨⟨e.nodup_openPlaces, e.map_at?_openPlaces⟩, fun v h => completes_of_eval h, ?_⟩
  intro x h
  obtain ⟨before, node, y, first⟩ := exists_firstBreak h
  exact ⟨before, node, y, first.stops⟩

theorem workings_in_postfix_order_sum_quotient :
    let five : Scope := ⟨⟨[("x", ⟨[5]⟩)]⟩, .standard⟩
    let zero : Scope := ⟨⟨[("x", ⟨[0]⟩)]⟩, .standard⟩
    let sum : Expr := .binary .add (.var "x") (.root (.literal ⟨[9]⟩))
    let quotient : Expr := .binary .div (.literal ⟨[2]⟩) (.var "x")
    (five.eval sum = .ok ⟨[8]⟩ ∧ five.Completes sum ⟨[8]⟩) ∧
    (zero.eval (.binary .add (.literal ⟨[1]⟩) quotient) =
        .error (.arithmetic "(2 / x)" (.divisionByZero "2")) ∧
      ∃ before node y, zero.Stops (.binary .add (.literal ⟨[1]⟩) quotient) before node y) := by
  intro five zero sum quotient
  have root : five.eval (.root (.literal ⟨[9]⟩)) = .ok ⟨[3]⟩ := by
    rw [eval_root, eval_literal]
    rfl
  have value : five.eval sum = .ok ⟨[8]⟩ :=
    eval_binary_eq_ok_iff.mpr ⟨⟨[5]⟩, ⟨[3]⟩, five.eval_var "x", root, rfl⟩
  have written : quotient.text = "(2 / x)" := by decide +kernel
  have divided : zero.eval quotient = .error (.arithmetic "(2 / x)" (.divisionByZero "2")) := by
    rw [← written, eval_binary, eval_literal, eval_var]
    rfl
  have failure : zero.eval (.binary .add (.literal ⟨[1]⟩) quotient) =
      .error (.arithmetic "(2 / x)" (.divisionByZero "2")) := by
    rw [eval_binary, eval_literal, divided]
    rfl
  exact ⟨⟨value, (workings_in_postfix_order five sum).2.1 _ value⟩,
    failure, (workings_in_postfix_order zero _).2.2 _ failure⟩

end Scope
end Reckoner
