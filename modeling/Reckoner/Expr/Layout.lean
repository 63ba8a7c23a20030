import Reckoner.Expr.Basic
import Reckoner.Numeral.Limited

namespace Reckoner

structure Layout where
  literal : Numeral → String
  var : String → String
  beforeRoot : String
  afterRoot : String
  beforeLeft : String
  between : Operator → String
  afterRight : String

namespace Layout

def render (layout : Layout) : Expr → String
  | .literal n => layout.literal n
  | .var x => layout.var x
  | .root e => layout.beforeRoot ++ layout.render e ++ layout.afterRoot
  | .binary op l r =>
    layout.beforeLeft ++ layout.render l ++ layout.between op ++ layout.render r ++ layout.afterRight

inductive Piece where
  | text (s : String)
  | part (e : Expr)

def Piece.weight : Piece → Nat
  | .text _ => 1
  | .part e => 4 * e.size

def writePieces (layout : Layout) : List Piece → String → String
  | [], written => written
  | .text s :: rest, written => layout.writePieces rest (written ++ s)
  | .part (.literal n) :: rest, written => layout.writePieces rest (written ++ layout.literal n)
  | .part (.var x) :: rest, written => layout.writePieces rest (written ++ layout.var x)
  | .part (.root e) :: rest, written =>
    layout.writePieces (.part e :: .text layout.afterRoot :: rest) (written ++ layout.beforeRoot)
  | .part (.binary op l r) :: rest, written =>
    layout.writePieces
      (.part l :: .text (layout.between op) :: .part r :: .text layout.afterRight :: rest)
      (written ++ layout.beforeLeft)
termination_by pieces => pieces.foldr (fun piece total => piece.weight + total) 0
decreasing_by
  all_goals
    simp only [List.foldr_cons, Piece.weight, Expr.size]
    omega

def write (layout : Layout) (e : Expr) : String := layout.writePieces [.part e] ""

theorem writePieces_part (layout : Layout) (e : Expr) (rest : List Piece) (written : String) :
    layout.writePieces (.part e :: rest) written =
      layout.writePieces rest (written ++ layout.render e) := by
  induction e generalizing rest written with
  | literal n => simp only [writePieces, render]
  | var x => simp only [writePieces, render]
  | root e ih => simp only [writePieces, ih, render, String.append_assoc]
  | binary op l r ihl ihr => simp only [writePieces, ihl, ihr, render, String.append_assoc]

theorem write_eq_render (layout : Layout) (e : Expr) : layout.write e = layout.render e := by
  simp only [write, writePieces_part, writePieces, String.empty_append]

def plain : Layout where
  literal := Numeral.text
  var := id
  beforeRoot := "sqrt "
  afterRoot := ""
  beforeLeft := "("
  between op := " " ++ op.symbol ++ " "
  afterRight := ")"

def operatorLabel : Operator → String
  | .add => "Add"
  | .sub => "Sub"
  | .mul => "Mul"
  | .div => "Div"
  | .rem => "Rem"
  | .pow => "Pow"

def numeralOutline (n : Numeral) : String :=
  "BigInt \x7b digits: " ++ Numeral.listText n.digits ++ " \x7d"

def outline : Layout where
  literal n := "Numeric \x7b value: " ++ numeralOutline n ++ " \x7d"
  var x := "Variable \x7b name: \"" ++ x ++ "\" \x7d"
  beforeRoot := "Unary \x7b op: Sqrt, operand: "
  afterRoot := " \x7d"
  beforeLeft := "Binary \x7b left: "
  between op := ", op: " ++ operatorLabel op ++ ", right: "
  afterRight := " \x7d"

end Layout

namespace Expr

def text (e : Expr) : String := Layout.plain.write e
def outline (e : Expr) : String := Layout.outline.write e

theorem text_literal (n : Numeral) : (Expr.literal n).text = n.text := by
  simp only [text, Layout.write_eq_render, Layout.render, Layout.plain]

theorem text_var (x : String) : (Expr.var x).text = x := by
  simp only [text, Layout.write_eq_render, Layout.render, Layout.plain, id]

theorem text_root (e : Expr) : (Expr.root e).text = "sqrt " ++ e.text := by
  simp only [text, Layout.write_eq_render, Layout.render, Layout.plain, String.append_empty]

theorem text_binary (op : Operator) (l r : Expr) :
    (Expr.binary op l r).text = "(" ++ l.text ++ (" " ++ op.symbol ++ " ") ++ r.text ++ ")" := by
  simp only [text, Layout.write_eq_render, Layout.render, Layout.plain]

end Expr
end Reckoner
