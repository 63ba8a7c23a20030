import Reckoner.Text.Ascii
import Reckoner.Text.Blank

/-! The arguments of the command line. A switch is written with one dash and its letter
or with two dashes and its name; letters may share a dash, and a value follows
directly, after `=`, or as the next argument, where it may not look like a switch.
Two dashes alone end the switches. Bindings may be given many times, everything else
once, and exactly one argument is no switch: the expression, or the file it is in. The
rules are those of the library that reads the arguments, and nothing is claimed of them:
what is proved of the command begins with the request they come to. -/
namespace Reckoner.Command

inductive Switch where
  | file
  | binding
  | maxDigits
  | maxDepth
  | resultOnly
  deriving DecidableEq

namespace Switch

def ofLetter? : Char → Option Switch
  | 'f' => some .file
  | 'v' => some .binding
  | 'r' => some .resultOnly
  | _ => none

def ofName? : String → Option Switch
  | "file" => some .file
  | "var" => some .binding
  | "max-digits" => some .maxDigits
  | "max-depth" => some .maxDepth
  | "result-only" => some .resultOnly
  | _ => none

def takesValue : Switch → Bool
  | .file | .resultOnly => false
  | .binding | .maxDigits | .maxDepth => true

end Switch

structure Choices where
  fromFile : Bool := false
  resultOnly : Bool := false
  bindings : List (String × String) := []
  maxDigits : Option Nat := none
  maxDepth : Option Nat := none
  deriving DecidableEq

structure Draft extends Choices where
  contents : Option String := none
  deriving DecidableEq

structure Arguments extends Choices where
  contents : String
  deriving DecidableEq

def splitAtEquals (cs : List Char) : Option (List Char × List Char) :=
  match cs.dropWhile (· ≠ '=') with
  | [] => none
  | _ :: value => some (cs.takeWhile (· ≠ '='), value)

/-- `NAME=VALUE`, blanks around both parts ignored. -/
def readBinding (s : String) : Option (String × String) :=
  (splitAtEquals s.toList).map fun (name, value) =>
    (Text.trimmed (String.ofList name), Text.trimmed (String.ofList value))

def largestCount : Nat := UInt64.size - 1

/-- A count in decimal digits, of any length, with or without a plus sign. -/
def readCount (s : String) : Option Nat :=
  let digits := match s.toList with
    | '+' :: ds => ds
    | ds => ds
  if digits.isEmpty || !digits.all Text.isDigit then none
  else
    let n := digits.foldl (fun n d => 10 * n + (d.toNat - '0'.toNat)) 0
    if n ≤ largestCount then some n else none

namespace Draft

def turnOn (draft : Draft) : Switch → Option Draft
  | .file => if draft.fromFile then none else some { draft with fromFile := true }
  | .resultOnly => if draft.resultOnly then none else some { draft with resultOnly := true }
  | .binding | .maxDigits | .maxDepth => none

def assign (draft : Draft) (value : String) : Switch → Option Draft
  | .binding =>
    (readBinding value).map fun pair => { draft with bindings := draft.bindings ++ [pair] }
  | .maxDigits =>
    if draft.maxDigits.isSome then none
    else (readCount value).map fun n => { draft with maxDigits := some n }
  | .maxDepth =>
    if draft.maxDepth.isSome then none
    else (readCount value).map fun n => { draft with maxDepth := some n }
  | .file | .resultOnly => none

def place (draft : Draft) (contents : String) : Option Draft :=
  if draft.contents.isSome then none else some { draft with contents := some contents }

/-- What stands behind a single dash; a switch that still waits for its value comes
first. -/
def letters (draft : Draft) : List Char → Option (Option Switch × Draft)
  | [] => some (none, draft)
  | c :: cs =>
    match Switch.ofLetter? c with
    | none => none
    | some switch =>
      if switch.takesValue then
        match cs with
        | [] => some (some switch, draft)
        | '=' :: value => (draft.assign (String.ofList value) switch).map (none, ·)
        | value => (draft.assign (String.ofList value) switch).map (none, ·)
      else
        match draft.turnOn switch with
        | none => none
        | some draft => draft.letters cs

def name (draft : Draft) (cs : List Char) : Option (Option Switch × Draft) :=
  match splitAtEquals cs with
  | some (long, value) =>
    match Switch.ofName? (String.ofList long) with
    | none => none
    | some switch => (draft.assign (String.ofList value) switch).map (none, ·)
  | none =>
    match Switch.ofName? (String.ofList cs) with
    | none => none
    | some switch =>
      if switch.takesValue then some (some switch, draft)
      else (draft.turnOn switch).map (none, ·)

def read (awaiting : Option Switch) (draft : Draft) : List String → Option Draft
  | [] => if awaiting.isSome then none else some draft
  | arg :: rest =>
    match awaiting, arg.toList with
    | some _, '-' :: _ :: _ => none
    | some switch, _ =>
      match draft.assign arg switch with
      | none => none
      | some draft => read none draft rest
    | none, ['-', '-'] => rest.foldlM place draft
    | none, '-' :: '-' :: cs =>
      match draft.name cs with
      | none => none
      | some (awaiting, draft) => read awaiting draft rest
    | none, '-' :: c :: cs =>
      match draft.letters (c :: cs) with
      | none => none
      | some (awaiting, draft) => read awaiting draft rest
    | none, _ =>
      match draft.place arg with
      | none => none
      | some draft => read none draft rest

end Draft

def Arguments.read? (args : List String) : Option Arguments :=
  match Draft.read none {} args with
  | none => none
  | some draft => draft.contents.map fun contents => { draft.toChoices with contents }

end Reckoner.Command
