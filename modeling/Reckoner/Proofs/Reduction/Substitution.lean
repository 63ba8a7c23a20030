import Mathlib.Control.Monad.Basic
import Reckoner.Proofs.Reduction.Leftmost
import Reckoner.Proofs.Reduction.Run

/-! Values put for variables before the working instead of in the course of it. A pass that
looks a variable up leaves the same expression once the values are put in; any other pass does
the same on both sides. So the two runs end alike, a failure included, and the run of the
expression with its values is that of the expression as it was written, less the trees that a
lookup has made. -/
namespace Reckoner

namespace Expr

/-- The expression with values for the variables that have one. -/
def substitute (b : Bindings) : Expr → Expr
  | .literal n => .literal n
  | .var x =>
    match b.find? x with
    | some n => .literal n
    | none => .var x
  | .root e => .root (e.substitute b)
  | .binary op l r => .binary op (l.substitute b) (r.substitute b)

def looksUp (e : Expr) : Bool :=
  match e.next with
  | .redex (.var _) _ => true
  | _ => false

/-- The first tree of a run, and all that were not made by looking a variable up. -/
def withoutLookups (trees : List Expr) : List Expr :=
  trees.take 1 ++ (trees.zip trees.tail).filterMap fun (before, after) =>
    if before.looksUp then none else some after

end Expr

def Frame.substitute (b : Bindings) : Frame → Frame
  | .root => .root
  | .left op r => .left op (r.substitute b)
  | .right op a => .right op a

def Bindings.Covers (b : Bindings) (e : Expr) : Prop := ∀ x, Expr.var x ∈ e.nodes → ∃ n, b.find? x = some n

namespace Expr

variable {b : Bindings} {e node : Expr} {frames outer : List Frame}

theorem substitute_plugAll (b : Bindings) (frames : List Frame) (e : Expr) :
    (plugAll frames e).substitute b = plugAll (frames.map (Frame.substitute b)) (e.substitute b) := by
  induction frames generalizing e with
  | nil => rfl
  | cons f frames ih =>
    have inner : (f.plug e).substitute b = (f.substitute b).plug (e.substitute b) := by
      cases f <;> rfl
    change (plugAll frames (f.plug e)).substitute b = _
    rw [ih, inner]
    rfl

theorem var_not_mem_substitute (covers : b.Covers e) (x : String) : .var x ∉ (e.substitute b).nodes := by
  induction e with
  | literal n => simp [substitute, nodes]
  | var y =>
    obtain ⟨n, found⟩ := covers y List.mem_cons_self
    simp [substitute, found, nodes]
  | root e ih =>
    have inside := ih fun y member => covers y (mem_nodes_operand member)
    simp [substitute, nodes, inside]
  | binary op l r ihl ihr =>
    have left := ihl fun y member => covers y (mem_nodes_left member)
    have right := ihr fun y member => covers y (mem_nodes_right member)
    simp [substitute, nodes, left, right]

theorem isLiteral_substitute (h : e.locate outer = .redex node frames)
    (waits : (node.substitute b).isLiteral = false) : (e.substitute b).isLiteral = false := by
  cases e with
  | literal n => cases h
  | var x =>
    cases h
    exact waits
  | root e => rfl
  | binary op l r => rfl

theorem locate_substitute (h : e.locate outer = .redex node frames)
    (waits : (node.substitute b).isLiteral = false) :
    (e.substitute b).locate (outer.map (Frame.substitute b)) =
      .redex (node.substitute b) (frames.map (Frame.substitute b)) := by
  induction e generalizing outer with
  | literal n => cases h
  | var x =>
    cases h
    unfold substitute at waits ⊢
    split
    · next found => simp [found, isLiteral, literal?] at waits
    · rfl
  | root e ih =>
    rw [locate] at h
    split at h
    · next literal =>
      cases h
      obtain ⟨n, found⟩ := Option.isSome_iff_exists.mp literal
      rw [eq_of_literal? found]
      rfl
    · have inside := isLiteral_substitute h waits
      rw [substitute, locate, inside]
      exact ih h
  | binary op l r ihl ihr =>
    rw [locate] at h
    split at h
    · have inside := isLiteral_substitute h waits
      rw [substitute, locate, literal?_eq_none inside]
      exact ihl h
    · next a found =>
      rw [eq_of_literal? found]
      split at h
      · next literal =>
        cases h
        obtain ⟨c, right⟩ := Option.isSome_iff_exists.mp literal
        rw [eq_of_literal? found, eq_of_literal? right]
        rfl
      · have inside := isLiteral_substitute h waits
        rw [substitute, substitute, locate, literal?, inside]
        exact ihr h

theorem isReducible_of_next (h : e.next = .redex node frames) : node.isReducible = true := by
  obtain ⟨_, _, _, found⟩ := exists_found (isLiteral_of_next h)
  have next := found.next
  rw [h] at next
  cases next
  exact found.leftmost.reducible

theorem looksUp_iff : e.looksUp = true ↔ ∃ x frames, e.next = .redex (.var x) frames := by
  unfold looksUp
  split
  · next x frames found => exact iff_of_true rfl ⟨x, frames, found⟩
  · next other => exact iff_of_false Bool.false_ne_true fun ⟨x, frames, found⟩ => other x frames found

theorem withoutLookups_step (e next : Expr) (later : List Expr) :
    withoutLookups (e :: next :: later) =
      if e.looksUp then e :: (withoutLookups (next :: later)).tail else e :: withoutLookups (next :: later) := by
  unfold withoutLookups
  split
  · next lookup => simp [lookup]
  · next other => simp [other]

end Expr

namespace Scope
open Reckoner.Expr

variable {b : Bindings} {limit : DigitLimit} {e : Expr}

theorem eval_substitute {node : Expr} (reducible : node.isReducible = true) :
    (Scope.mk .empty limit).eval (node.substitute b) = (Scope.mk b limit).eval node := by
  cases node with
  | literal n => cases reducible
  | var x =>
    unfold Expr.substitute
    rw [eval_var, lookup]
    cases b.find? x with
    | some n => exact eval_literal _ n
    | none => exact eval_var _ x
  | root e =>
    obtain ⟨n, operand⟩ := Option.isSome_iff_exists.mp reducible
    rw [eq_of_literal? operand, Expr.substitute, Expr.substitute, eval_root, eval_root, eval_literal, eval_literal]
  | binary op l r =>
    obtain ⟨left, right⟩ := Bool.and_eq_true_iff.mp reducible
    obtain ⟨a, left⟩ := Option.isSome_iff_exists.mp left
    obtain ⟨c, right⟩ := Option.isSome_iff_exists.mp right
    rw [eq_of_literal? left, eq_of_literal? right]
    simp only [Expr.substitute, eval_binary, eval_literal]
    rfl

/-- A lookup that succeeds: nothing is done on the other side. -/
theorem substitute_pass_lookup {next : Expr} (lookup : e.looksUp = true)
    (h : (Scope.mk b limit).pass e = .ok next) : next.substitute b = e.substitute b := by
  obtain ⟨x, frames, found⟩ := looksUp_iff.mp lookup
  rw [pass_redex found, eval_var, Scope.lookup] at h
  cases value : b.find? x with
  | none => simp [value, Except.map] at h
  | some n =>
    simp only [value] at h
    cases h
    have whole : plugAll frames (.var x) = e := plugAll_locate found
    rw [← whole, substitute_plugAll, substitute_plugAll]
    simp [Expr.substitute, value]

theorem waits_of_next {node : Expr} {frames : List Frame} (found : e.next = .redex node frames)
    (waits : e.looksUp = false ∨ ∃ x, (Scope.mk b limit).pass e = .error x) :
    (node.substitute b).isLiteral = false := by
  have reducible := isReducible_of_next found
  cases node with
  | literal n => cases reducible
  | root e => rfl
  | binary op l r => rfl
  | var x =>
    cases value : b.find? x with
    | none => simp [Expr.substitute, value, isLiteral, literal?]
    | some n =>
      -- this would be a lookup, and it would succeed
      rcases waits with other | ⟨y, failed⟩
      · rw [looksUp_iff.mpr ⟨x, frames, found⟩] at other
        cases other
      · rw [pass_redex found, eval_var, lookup, value] at failed
        cases failed

/-- Any other pass, and one that fails: both sides do the same. -/
theorem pass_substitute (waits : e.looksUp = false ∨ ∃ x, (Scope.mk b limit).pass e = .error x)
    (unfinished : e.isLiteral = false) :
    (e.substitute b).isLiteral = false ∧
      (Scope.mk .empty limit).pass (e.substitute b) = ((Scope.mk b limit).pass e).map (Expr.substitute b) := by
  obtain ⟨node, frames, found⟩ := exists_next unfinished
  have stays := waits_of_next found waits
  refine ⟨isLiteral_substitute found stays, ?_⟩
  have next : (e.substitute b).next = _ := locate_substitute found stays
  rw [pass_redex next, pass_redex found, eval_substitute (isReducible_of_next found)]
  cases (Scope.mk b limit).eval node with
  | error x => rfl
  | ok n => exact congrArg Except.ok (substitute_plugAll b frames (.literal n)).symm

theorem Run.substitute {trees : List Expr} {outcome : Except EvalError Numeral}
    (h : (Scope.mk b limit).Run e trees outcome) :
    (Scope.mk .empty limit).Run (e.substitute b) ((withoutLookups trees).map (Expr.substitute b)) outcome := by
  induction h with
  | finished n => exact .finished n
  | failed unfinished failed =>
    obtain ⟨stays, same⟩ := pass_substitute (.inr ⟨_, failed⟩) unfinished
    rw [failed] at same
    exact .failed stays same
  | @step e next later outcome unfinished passed run ih =>
    obtain ⟨later, rfl⟩ := run.begins
    rw [withoutLookups_step]
    cases lookup : e.looksUp with
    | true =>
      have same := substitute_pass_lookup lookup passed
      have first : withoutLookups (next :: later) = next :: (withoutLookups (next :: later)).tail := rfl
      rw [first, List.map_cons, same] at ih
      exact ih
    | false =>
      obtain ⟨stays, same⟩ := pass_substitute (.inl lookup) unfinished
      rw [passed] at same
      exact .step stays same ih

theorem stages_congr {b b' : Bindings} (same : ∀ x, Expr.var x ∈ e.nodes → b'.find? x = b.find? x) :
    (Scope.mk b' limit).stages e = (Scope.mk b limit).stages e := by
  induction e with
  | literal n => rw [stages_literal, stages_literal]
  | var x => rw [stages_var, stages_var, lookup, lookup, same x List.mem_cons_self]
  | root e ih =>
    have inside := ih fun x member => same x (mem_nodes_operand member)
    rw [stages_root, stages_root, inside]
  | binary op l r ihl ihr =>
    have left := ihl fun x member => same x (mem_nodes_left member)
    have right := ihr fun x member => same x (mem_nodes_right member)
    rw [stages_binary, stages_binary, left, right]
    rfl

/-- Where every variable has a value, the expression with its values in place of its variables
has none left, and its working ends as that of the expression as it was written: with the same
value or with the same report. Its lines are those of the trees of that working, less the ones
that a lookup has made, with the values put in. What is bound besides the variables does not
matter. -/
theorem workings_substitute (b : Bindings) (limit : DigitLimit) (e : Expr) (covers : b.Covers e) :
    (∀ x, .var x ∉ (e.substitute b).nodes) ∧
    (∃ trees outcome, (Scope.mk b limit).Run e trees outcome ∧
      (Scope.mk b limit).workings e = outcome.map (fun v => (v, trees.map Expr.text)) ∧
      (Scope.mk .empty limit).workings (e.substitute b) =
        outcome.map fun v => (v, (withoutLookups trees).map fun tree => (tree.substitute b).text)) ∧
    (∀ b' : Bindings, (∀ x, .var x ∈ e.nodes → b'.find? x = b.find? x) →
      (Scope.mk b' limit).workings e = (Scope.mk b limit).workings e) := by
  refine ⟨var_not_mem_substitute covers, ?_, ?_⟩
  · obtain ⟨trees, outcome, run⟩ := (Scope.mk b limit).exists_run e
    refine ⟨trees, outcome, run, run.workings, ?_⟩
    rw [run.substitute.workings, List.map_map]
    rfl
  · intro b' same
    unfold Scope.workings
    rw [stages_congr same]

theorem workings_substitute_product :
    let b : Bindings := ⟨[("x", ⟨[2]⟩), ("y", ⟨[3]⟩)]⟩
    let before : Scope := ⟨.empty, .standard⟩
    let during : Scope := ⟨b, .standard⟩
    let product : Expr := .binary .mul (.var "x") (.binary .add (.literal ⟨[1]⟩) (.var "y"))
    let difference : Expr := .binary .sub (.var "x") (.var "y")
    b.Covers product ∧ (∀ x, .var x ∉ (product.substitute b).nodes) ∧
    during.workings product =
      .ok (⟨[8]⟩, ["(x * (1 + y))", "(2 * (1 + y))", "(2 * (1 + 3))", "(2 * 4)", "8"]) ∧
    before.workings (product.substitute b) = .ok (⟨[8]⟩, ["(2 * (1 + 3))", "(2 * 4)", "8"]) ∧
    (∃ trees, during.Run product trees (.ok ⟨[8]⟩) ∧
      before.workings (product.substitute b) =
        .ok (⟨[8]⟩, (withoutLookups trees).map fun tree => (tree.substitute b).text)) ∧
    b.Covers difference ∧
    during.workings difference = .error (.arithmetic "(2 - 3)" (.negative "2" "3")) ∧
    before.workings (difference.substitute b) = .error (.arithmetic "(2 - 3)" (.negative "2" "3")) := by
  intro b before during product difference
  have bound (x : String) (named : x = "x" ∨ x = "y") : ∃ n, b.find? x = some n := by
    rcases named with rfl | rfl
    · exact ⟨⟨[2]⟩, by decide⟩
    · exact ⟨⟨[3]⟩, by decide⟩
  have covers : b.Covers product := fun x member => bound x (by simpa [product, nodes] using member)
  have covers' : b.Covers difference := fun x member => bound x (by simpa [difference, nodes] using member)
  have worked : during.workings product =
      .ok (⟨[8]⟩, ["(x * (1 + y))", "(2 * (1 + y))", "(2 * (1 + 3))", "(2 * 4)", "8"]) := by decide +kernel
  have worked' : before.workings (product.substitute b) = .ok (⟨[8]⟩, ["(2 * (1 + 3))", "(2 * 4)", "8"]) := by
    decide +kernel
  have failed : during.workings difference = .error (.arithmetic "(2 - 3)" (.negative "2" "3")) := by
    decide +kernel
  obtain ⟨closed, ⟨trees, outcome, run, lines, lines'⟩, _⟩ := workings_substitute b .standard product covers
  obtain ⟨_, ⟨_, outcome', _, report, report'⟩, _⟩ := workings_substitute b .standard difference covers'
  rw [worked] at lines
  cases outcome with
  | error x => cases lines
  | ok v =>
    obtain ⟨rfl, _⟩ := Prod.mk.inj (Except.ok.inj lines)
    rw [failed] at report
    cases outcome' with
    | ok v => cases report
    | error x =>
      cases report
      exact ⟨covers, closed, worked, worked', ⟨trees, run, lines'⟩, covers', failed, report'⟩

end Scope
end Reckoner
