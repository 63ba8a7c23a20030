import Reckoner.Evaluation

/-! Working an expression out one node at a time. The next node to be worked out is the
leftmost one whose operands are literals; it is found together with the frames that
stand around it, and the literal it comes to is put back into those frames. Whatever
stands to the left of that node is already a literal. -/
namespace Reckoner

inductive Frame where
  | root
  | left (op : Operator) (right : Expr)
  | right (op : Operator) (left : Numeral)

namespace Frame

def plug : Frame → Expr → Expr
  | .root, e => .root e
  | .left op r, e => .binary op e r
  | .right op a, e => .binary op (.literal a) e

def operations : Frame → Nat
  | .root => 1
  | .left _ r => r.operations + 1
  | .right _ _ => 1

end Frame

def plugAll (frames : List Frame) (e : Expr) : Expr := frames.foldl (fun e f => f.plug e) e

inductive Next where
  | finished (n : Numeral)
  | redex (node : Expr) (frames : List Frame)

namespace Expr

def locate : Expr → List Frame → Next
  | .literal n, _ => .finished n
  | .var x, frames => .redex (.var x) frames
  | .root e, frames =>
    if e.isLiteral then .redex (.root e) frames else locate e (.root :: frames)
  | .binary op l r, frames =>
    match l.literal? with
    | none => locate l (.left op r :: frames)
    | some a =>
      if r.isLiteral then .redex (.binary op l r) frames else locate r (.right op a :: frames)

def next (e : Expr) : Next := e.locate []

theorem eq_of_literal? {e : Expr} {n : Numeral} (h : e.literal? = some n) : e = .literal n := by
  cases e with
  | literal m => exact congrArg Expr.literal (Option.some.inj h)
  | var _ => cases h
  | root _ => cases h
  | binary _ _ _ => cases h

theorem plugAll_locate {e node : Expr} {outer frames : List Frame}
    (h : e.locate outer = .redex node frames) : plugAll frames node = plugAll outer e := by
  induction e generalizing outer with
  | literal n => cases h
  | var x => cases h; rfl
  | root e ih =>
    rw [locate] at h
    split at h
    · cases h; rfl
    · exact ih h
  | binary op l r ihl ihr =>
    rw [locate] at h
    split at h
    · exact ihl h
    · next a ha =>
      split at h
      · cases h; rfl
      · rw [ihr h, eq_of_literal? ha]; rfl

theorem operations_redex {e node : Expr} {outer frames : List Frame}
    (h : e.locate outer = .redex node frames) : 0 < node.operations := by
  induction e generalizing outer with
  | literal n => cases h
  | var x => cases h; exact Nat.one_pos
  | root e ih =>
    rw [locate] at h
    split at h
    · cases h; exact Nat.succ_pos _
    · exact ih h
  | binary op l r ihl ihr =>
    rw [locate] at h
    split at h
    · exact ihl h
    · split at h
      · cases h; exact Nat.succ_pos _
      · exact ihr h

theorem operations_plugAll (frames : List Frame) (e : Expr) :
    (plugAll frames e).operations =
      e.operations + frames.foldr (fun f total => f.operations + total) 0 := by
  induction frames generalizing e with
  | nil => rfl
  | cons f frames ih =>
    change (plugAll frames (f.plug e)).operations = _
    rw [ih]
    cases f <;> simp only [Frame.plug, operations, Frame.operations, List.foldr_cons] <;>
      omega

theorem operations_next {e node : Expr} {frames : List Frame} (h : e.next = .redex node frames)
    (n : Numeral) : (plugAll frames (.literal n)).operations < e.operations := by
  have whole := congrArg operations (plugAll_locate h)
  have inner := operations_redex h
  rw [operations_plugAll] at whole ⊢
  simp only [plugAll, List.foldl_nil, operations] at whole ⊢
  omega

end Expr

/-- A pass works out one node and then lets everything through unchanged; a pass that
failed is as good as new. -/
structure Pass where
  scope : Scope
  spent : Bool := false

namespace Pass

def run (pass : Pass) (e : Expr) : Except EvalError Expr × Pass :=
  if pass.spent then (.ok e, pass)
  else
    match e.next with
    | .finished _ => (.ok e, pass)
    | .redex node frames =>
      match pass.scope.eval node with
      | .error x => (.error x, pass)
      | .ok n => (.ok (plugAll frames (.literal n)), { pass with spent := true })

/-- The same pass as a walk over the whole expression. The mark is carried along, so that the
walk also goes through what lies behind the node it has worked out, and copies it. -/
def walk (pass : Pass) (e : Expr) : Except EvalError Expr × Pass :=
  if pass.spent then (.ok e, pass)
  else if e.isReducible then
    match pass.scope.eval e with
    | .error x => (.error x, pass)
    | .ok n => (.ok (.literal n), { pass with spent := true })
  else
    match e with
    | .literal _ | .var _ => (.ok e, pass)
    | .root e =>
      match pass.walk e with
      | (.error x, pass) => (.error x, pass)
      | (.ok e, pass) => (.ok (.root e), pass)
    | .binary op l r =>
      match pass.walk l with
      | (.error x, pass) => (.error x, pass)
      | (.ok l, pass) =>
        match pass.walk r with
        | (.error x, pass) => (.error x, pass)
        | (.ok r, pass) => (.ok (.binary op l r), pass)

end Pass

namespace Scope

/-- The value of an expression and all the stages on the way to it, from the
expression itself to its value. -/
def stages (scope : Scope) (e : Expr) : Except EvalError (Numeral × List Expr) :=
  match _found : e.next with
  | .finished n => .ok (n, [e])
  | .redex node frames =>
    match scope.eval node with
    | .error x => .error x
    | .ok n =>
      match scope.stages (plugAll frames (.literal n)) with
      | .error x => .error x
      | .ok (value, later) => .ok (value, e :: later)
termination_by e.operations
decreasing_by exact Expr.operations_next _found n

def workings (scope : Scope) (e : Expr) : Except EvalError (Numeral × List String) :=
  (scope.stages e).map fun (value, stages) => (value, stages.map Expr.text)

end Scope
end Reckoner
