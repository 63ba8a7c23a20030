import Reckoner.Numeral.Limited

namespace Reckoner

inductive ParseError where
  | emptyExpression
  | unknownToken (token : String) (offset : Nat)
  | unexpectedToken (token : String) (offset : Nat)
  | unmatchedParen (offset : Nat)
  | invalidLiteral (offset : Nat) (cause : NumberError)
  | nestingTooDeep (limit offset : Nat)
  deriving DecidableEq

namespace ParseError

def message : ParseError → String
  | .emptyExpression => "Error: The expression is empty."
  | .unknownToken token offset => s!"Error at offset {offset}: Unknown token: {token}."
  | .unexpectedToken token offset => s!"Error at offset {offset}: Unexpected token: {token}."
  | .unmatchedParen offset => s!"Error at offset {offset}: Unmatched parenthesis."
  | .invalidLiteral offset cause => s!"Error at offset {offset}: {cause.message}"
  | .nestingTooDeep limit offset =>
    s!"Error at offset {offset}: Expression is nested deeper than {limit} levels."

def numberError? : ParseError → Option NumberError
  | .invalidLiteral _ cause => some cause
  | _ => none

end ParseError
end Reckoner
