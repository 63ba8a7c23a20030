import Reckoner.Token.Basic

/-! Splitting a source text into tokens. Six blank ASCII characters may stand between
tokens; a run of digits is a number, a run of letters is a name unless it spells
the keyword, and two stars together are one operator. Every token is as long as it
can be. -/
namespace Reckoner
namespace Token

def keyword : List Char := ['s', 'q', 'r', 't']

def leading (c : Char) (cs : List Char) : Option (TokenKind × List Char) :=
  if Text.isDigit c then some (.number, cs.takeWhile Text.isDigit)
  else if Text.isLetter c then
    let word := cs.takeWhile Text.isLetter
    some (if c :: word = keyword then .root else .name, word)
  else if c = '*' then
    match cs with
    | '*' :: _ => some (.operator .pow, ['*'])
    | _ => some (.operator .mul, [])
  else if c = '+' then some (.operator .add, [])
  else if c = '-' then some (.operator .sub, [])
  else if c = '/' then some (.operator .div, [])
  else if c = '%' then some (.operator .rem, [])
  else if c = '(' then some (.opening, [])
  else if c = ')' then some (.closing, [])
  else none

/-- Scans from a byte offset on; `found` holds the tokens so far, the last one first. -/
def scan (offset : Nat) : List Char → List Token → Except ParseError (List Token)
  | [], found => .ok (finishAt offset :: found).reverse
  | c :: cs, found =>
    if Text.isGap c then scan (offset + c.utf8Size) cs found
    else
      match leading c cs with
      | none => .error (.unknownToken c.toString offset)
      | some (kind, more) =>
        let stop := offset + Text.byteLength (c :: more)
        scan stop (cs.drop more.length) (⟨kind, offset, stop, String.ofList (c :: more)⟩ :: found)
termination_by cs => cs.length
decreasing_by
  · simp only [List.length_cons]; omega
  · simp only [List.length_cons, List.length_drop]; omega

def tokenize (source : String) : Except ParseError (List Token) := scan 0 source.toList []

end Token
end Reckoner
