import Reckoner.Reduction
import Reckoner.Stream

namespace Reckoner

inductive Failure where
  | setting (e : SettingError)
  | binding (e : BindError)
  | parsing (e : ParseError)
  | evaluation (e : EvalError)
  deriving DecidableEq

namespace Failure

def message : Failure → String
  | .setting e => e.message
  | .binding e => e.message
  | .parsing e => e.message
  | .evaluation e => e.message

def numberError? : Failure → Option NumberError
  | .setting _ => none
  | .binding e => e.numberError?
  | .parsing e => e.numberError?
  | .evaluation e => e.numberError?

end Failure

structure Answer where
  value : Numeral
  lines : List String
  deriving DecidableEq

def Answer.text (answer : Answer) : String := "\n".intercalate answer.lines

/-- The first line is the source as it was given; the working follows. -/
def calculate (source : String) (bindings : Bindings) (settings : Settings) :
    Except Failure Answer :=
  match Expr.parse source settings with
  | .error e => .error (.parsing e)
  | .ok expr =>
    match (Scope.mk bindings settings.digitLimit).workings expr with
    | .error e => .error (.evaluation e)
    | .ok (value, lines) => .ok ⟨value, source :: lines⟩

end Reckoner
