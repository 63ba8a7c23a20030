import Reckoner.Operator
import Reckoner.ParseError
import Reckoner.Text.Slice

namespace Reckoner

inductive TokenKind where
  | number
  | operator (op : Operator)
  | root
  | name
  | opening
  | closing
  | finish
  deriving DecidableEq

def TokenKind.operator? : TokenKind → Option Operator
  | .operator op => some op
  | _ => none

structure Token where
  kind : TokenKind
  start : Nat
  stop : Nat
  text : String
  deriving DecidableEq

namespace Token

def placed (source : String) (kind : TokenKind) (start stop : Nat) : Token :=
  ⟨kind, start, stop, Text.slice source start stop⟩

def finishAt (offset : Nat) : Token := ⟨.finish, offset, offset, ""⟩

def description (t : Token) : String :=
  if t.kind = .finish then "end of input" else "'" ++ t.text ++ "'"

def unexpected (t : Token) : ParseError := .unexpectedToken t.description t.start

end Token
end Reckoner
