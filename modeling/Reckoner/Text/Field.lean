namespace Reckoner.Text

inductive Alignment where
  | left
  | right
  | centre
  deriving DecidableEq

def Alignment.leading (spare : Nat) : Alignment → Nat
  | .left => 0
  | .right => spare
  | .centre => spare / 2

def field (s : String) (alignment : Alignment) (width : Nat) (precision : Option Nat) : String :=
  let shown := match precision with
    | none => s.toList
    | some p => s.toList.take p
  let spare := width - shown.length
  let before := alignment.leading spare
  String.ofList (List.replicate before ' ' ++ shown ++ List.replicate (spare - before) ' ')

end Reckoner.Text
