import Reckoner.Calculation
import Reckoner.Command.Arguments

namespace Reckoner.Command

inductive ReadFault where
  | system (code : Nat) (reason : String)
  | notText
  deriving DecidableEq

namespace ReadFault

def message : ReadFault → String
  | .system code reason => s!"{reason} (os error {code})"
  | .notText => "stream did not contain valid UTF-8"

def notFound : ReadFault := .system 2 "No such file or directory"
def notDirectory : ReadFault := .system 20 "Not a directory"
def isDirectory : ReadFault := .system 21 "Is a directory"
def nameTooLong : ReadFault := .system 36 "File name too long"

end ReadFault

structure Outcome where
  exitCode : Nat
  output : String
  complaint : String
  deriving DecidableEq

namespace Outcome

def success (output : String) : Outcome := ⟨0, output ++ "\n", ""⟩
def failure (complaint : String) : Outcome := ⟨1, "", complaint ++ "\n"⟩

end Outcome

namespace Arguments

def settings (args : Arguments) : Except SettingError Settings := do
  let settings ← match args.maxDigits with
    | none => pure Settings.standard
    | some n => Settings.standard.withDigitLimit n
  match args.maxDepth with
  | none => pure settings
  | some n => settings.withMaxDepth n

def resultText (source : String) (bindings : Bindings) (settings : Settings) :
    Except Failure String :=
  match Expr.parse source settings with
  | .error e => .error (.parsing e)
  | .ok expr =>
    match (Scope.mk bindings settings.digitLimit).eval expr with
    | .error e => .error (.evaluation e)
    | .ok value => .ok value.text

def answer (args : Arguments) (source : String) : Except Failure String :=
  match args.settings with
  | .error e => .error (.setting e)
  | .ok settings =>
    match Bindings.bind args.bindings settings.digitLimit with
    | .error e => .error (.binding e)
    | .ok bindings =>
      if args.resultOnly then resultText source bindings settings
      else (calculate source bindings settings).map Answer.text

def finish (args : Arguments) (source : String) : Outcome :=
  match args.answer source with
  | .ok output => .success output
  | .error e => .failure e.message

def finishFile (args : Arguments) (bytes : Except ReadFault ByteArray) : Outcome :=
  let fault (e : ReadFault) : Outcome :=
    .failure s!"Failed to read the input file '{args.contents}': {e.message}"
  match bytes with
  | .error e => fault e
  | .ok bytes =>
    match String.fromUTF8? bytes with
    | none => fault .notText
    | some text => args.finish (Text.trimmed text)

end Arguments
end Reckoner.Command
