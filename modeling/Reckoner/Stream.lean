import Reckoner.Expr.Read
import Reckoner.Text.Blank
import Reckoner.Token.Scan

/-! A stream of tokens under limits, with the depth reached so far. Its last token is
always the end of the input, which can be looked at and never passed. Each step
gives the stream as it then stands, whether or not the step failed. -/
namespace Reckoner

structure Stream where
  source : String
  rules : ReadRules
  depth : Nat
  pending : List Token

namespace Stream

/-- Parts a token list into its closing end token and the tokens before it; a list
without one is closed at the end of the source. -/
def closed (source : String) (tokens : List Token) :
    List Token × { t : Token // t.kind = .finish } :=
  let added := (tokens, ⟨Token.finishAt source.utf8ByteSize, rfl⟩)
  match tokens.getLast? with
  | none => added
  | some t => if h : t.kind = .finish then (tokens.dropLast, ⟨t, h⟩) else added

def start (source : String) (tokens : List Token) (settings : Settings) : Stream :=
  let (pending, finish) := closed source tokens
  { source, pending, depth := 0
    rules := ⟨settings.digitLimit, settings.maxDepth, finish.val, finish.property⟩ }

def tokens (s : Stream) : List Token := s.pending ++ [s.rules.finish]

def peek (s : Stream) : Token := s.rules.peek s.pending

def eat (s : Stream) : Token × Stream := (s.peek, { s with pending := s.pending.tail })

def nested {α : Type} (s : Stream) (offset : Nat) (body : Stream → α × Stream) :
    Except ParseError α × Stream :=
  if s.depth < s.rules.maxDepth then
    let (result, after) := body { s with depth := s.depth + 1 }
    (.ok result, { after with depth := after.depth - 1 })
  else (.error (s.rules.tooDeep offset), s)

def read (s : Stream) (goal : Goal) : Except ParseError Expr × Stream :=
  let reading := s.rules.read goal s.depth s.pending
  (reading.outcome, { s with pending := reading.rest })

def expression (s : Stream) : Except ParseError Expr × Stream := s.read .expression

def operand (s : Stream) : Except ParseError Expr × Stream := s.read .operand

def chain (s : Stream) (left : Expr) (floor : Nat) : Except ParseError Expr × Stream :=
  s.read (.chain left floor)

end Stream

/-- Reads a whole source text, with an answer for a token that is left over and is neither
the end of the input nor a closing parenthesis. -/
def Expr.parseOr (leftover : Token → Except ParseError Expr) (source : String) (settings : Settings) :
    Except ParseError Expr :=
  if Text.allBlank source then .error .emptyExpression
  else
    match Token.tokenize source with
    | .error e => .error e
    | .ok tokens =>
      match (Stream.start source tokens settings).expression with
      | (.error e, _) => .error e
      | (.ok e, after) =>
        match after.peek.kind with
        | .finish => .ok e
        | .closing => .error (.unmatchedParen after.peek.start)
        | _ => leftover after.peek

def Expr.parse (source : String) (settings : Settings) : Except ParseError Expr :=
  parseOr (fun t => .error t.unexpected) source settings

end Reckoner
