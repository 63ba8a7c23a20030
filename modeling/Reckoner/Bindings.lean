import Reckoner.Numeral.Limited

namespace Reckoner

inductive BindError where
  | invalidName (name : String)
  | invalidValue (name : String) (cause : NumberError)
  | duplicateName (name : String)
  deriving DecidableEq

namespace BindError

def message : BindError → String
  | .invalidName name =>
    s!"Invalid variable name '{name}': only letters a-z and A-Z are allowed."
  | .invalidValue name cause => s!"Invalid value for variable '{name}': {cause.message}"
  | .duplicateName name => s!"Variable '{name}' is bound more than once."

def numberError? : BindError → Option NumberError
  | .invalidValue _ cause => some cause
  | _ => none

end BindError

structure Bindings where
  entries : List (String × Numeral)
  deriving DecidableEq

namespace Bindings

def empty : Bindings := ⟨[]⟩

def find? (b : Bindings) (name : String) : Option Numeral := b.entries.lookup name

def isValidName (name : String) : Bool :=
  !name.toList.isEmpty && name.toList.all Text.isLetter

def insertEntry (name : String) (value : Numeral) :
    List (String × Numeral) → Option (List (String × Numeral))
  | [] => some [(name, value)]
  | (x, v) :: rest =>
    if name = x then none
    else if name < x then some ((name, value) :: (x, v) :: rest)
    else (insertEntry name value rest).map ((x, v) :: ·)

/-- A bad name is reported before a bad value, and that before a second binding. -/
def extend (limit : DigitLimit) (b : Bindings) (pair : String × String) :
    Except BindError Bindings :=
  let (name, text) := pair
  if isValidName name then
    match Numeral.ofDecimal text limit with
    | .error cause => .error (.invalidValue name cause)
    | .ok value =>
      match insertEntry name value b.entries with
      | none => .error (.duplicateName name)
      | some entries => .ok ⟨entries⟩
  else .error (.invalidName name)

def bind (pairs : List (String × String)) (limit : DigitLimit) : Except BindError Bindings :=
  pairs.foldlM (extend limit) empty

end Bindings
end Reckoner
