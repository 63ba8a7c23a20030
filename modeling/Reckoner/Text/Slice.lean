namespace Reckoner.Text

def byteLength (cs : List Char) : Nat := cs.foldr (fun c total => c.utf8Size + total) 0

def splitAtByte (n : Nat) : List Char → Option (List Char × List Char)
  | [] => if n = 0 then some ([], []) else none
  | c :: cs =>
    if n = 0 then some ([], c :: cs)
    else if c.utf8Size ≤ n then
      (splitAtByte (n - c.utf8Size) cs).map fun (before, after) => (c :: before, after)
    else none

def slice? (source : String) (start stop : Nat) : Option String :=
  if start ≤ stop then do
    let (_, after) ← splitAtByte start source.toList
    let (piece, _) ← splitAtByte (stop - start) after
    return String.ofList piece
  else none

def slice (source : String) (start stop : Nat) : String := (slice? source start stop).getD ""

end Reckoner.Text
