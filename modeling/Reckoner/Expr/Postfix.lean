import Reckoner.Expr.Basic

namespace Reckoner

inductive PostfixItem where
  | literal (value : Numeral)
  | var (name : String)
  | root
  | binary (op : Operator)
  deriving DecidableEq

namespace Expr

def item : Expr → PostfixItem
  | .literal n => .literal n
  | .var x => .var x
  | .root _ => .root
  | .binary op _ _ => .binary op

/-- All subexpressions in postfix order, the expression itself last. -/
def nodes : Expr → List Expr
  | .literal n => [.literal n]
  | .var x => [.var x]
  | .root e => e.nodes ++ [.root e]
  | .binary op l r => l.nodes ++ r.nodes ++ [.binary op l r]

section

variable {e l r node : Expr} {op : Operator}

theorem mem_nodes_self (e : Expr) : e ∈ e.nodes := by cases e <;> simp [nodes]

theorem mem_nodes_root : node ∈ (Expr.root e).nodes ↔ node ∈ e.nodes ∨ node = .root e := by simp [nodes]

theorem mem_nodes_binary :
    node ∈ (Expr.binary op l r).nodes ↔ node ∈ l.nodes ∨ node ∈ r.nodes ∨ node = .binary op l r := by
  simp [nodes]

theorem mem_nodes_operand (h : node ∈ e.nodes) : node ∈ (Expr.root e).nodes := mem_nodes_root.mpr (.inl h)

theorem mem_nodes_left (h : node ∈ l.nodes) : node ∈ (Expr.binary op l r).nodes := mem_nodes_binary.mpr (.inl h)

theorem mem_nodes_right (h : node ∈ r.nodes) : node ∈ (Expr.binary op l r).nodes :=
  mem_nodes_binary.mpr (.inr (.inl h))

end

def collectNodes : List Expr → List Expr → List Expr
  | [], found => found
  | .literal n :: rest, found => collectNodes rest (.literal n :: found)
  | .var x :: rest, found => collectNodes rest (.var x :: found)
  | .root e :: rest, found => collectNodes (e :: rest) (.root e :: found)
  | .binary op l r :: rest, found => collectNodes (r :: l :: rest) (.binary op l r :: found)
termination_by work => work.foldr (fun e total => e.size + total) 0
decreasing_by
  all_goals
    simp only [List.foldr_cons, size]
    omega

def postfixItems (e : Expr) : List PostfixItem := (collectNodes [e] []).map item

theorem collectNodes_cons (e : Expr) (rest found : List Expr) :
    collectNodes (e :: rest) found = collectNodes rest (e.nodes ++ found) := by
  induction e generalizing rest found with
  | literal n => simp only [collectNodes, nodes, List.cons_append, List.nil_append]
  | var x => simp only [collectNodes, nodes, List.cons_append, List.nil_append]
  | root e ih => simp only [collectNodes, ih, nodes, List.append_assoc, List.cons_append, List.nil_append]
  | binary op l r ihl ihr =>
    simp only [collectNodes, ihl, ihr, nodes, List.append_assoc, List.cons_append, List.nil_append]

theorem postfixItems_eq (e : Expr) : e.postfixItems = e.nodes.map item := by
  simp only [postfixItems, collectNodes_cons, collectNodes, List.append_nil]

def push : List Expr → PostfixItem → Option (List Expr)
  | stack, .literal n => some (.literal n :: stack)
  | stack, .var x => some (.var x :: stack)
  | e :: stack, .root => some (.root e :: stack)
  | r :: l :: stack, .binary op => some (.binary op l r :: stack)
  | _, _ => none

def ofPostfix (items : List PostfixItem) : Option Expr :=
  match items.foldlM push [] with
  | some [e] => some e
  | _ => none

theorem foldlM_push_items (e : Expr) (rest : List PostfixItem) (stack : List Expr) :
    (e.nodes.map item ++ rest).foldlM push stack = rest.foldlM push (e :: stack) := by
  induction e generalizing rest stack with
  | literal n => rfl
  | var x => rfl
  | root e ih =>
    simp only [nodes, List.map_append, List.append_assoc, ih, List.map_cons, List.map_nil,
      List.cons_append, List.nil_append, List.foldlM_cons, item, push]
    rfl
  | binary op l r ihl ihr =>
    simp only [nodes, List.map_append, List.append_assoc, ihl, ihr, List.map_cons, List.map_nil,
      List.cons_append, List.nil_append, List.foldlM_cons, item, push]
    rfl

theorem ofPostfix_postfixItems (e : Expr) : ofPostfix e.postfixItems = some e := by
  have h := foldlM_push_items e [] []
  rw [List.append_nil] at h
  rw [ofPostfix, postfixItems_eq, h]
  rfl

end Expr
end Reckoner
