import Reckoner.Command.Run

namespace Reckoner.Command

/-- Some failures carry their code as a negative number of 32 bits. -/
def systemFault (code : UInt32) (reason : String) : ReadFault :=
  match min code.toNat (0 - code).toNat with
  | 2 => .notFound
  | 13 => .system 13 "Permission denied"
  | 20 => .notDirectory
  | 21 => .isDirectory
  | 36 => .nameTooLong
  | n => .system n reason

def readFaultOf : IO.Error → ReadFault
  | .noFileOrDirectory .. => .notFound
  | .inappropriateType _ code reason | .permissionDenied _ code reason
  | .invalidArgument _ code reason | .resourceExhausted _ code reason
  | .otherError code reason => systemFault code reason
  | e => .system 5 e.toString

def readBytes (path : String) : IO (Except ReadFault ByteArray) := do
  try
    return .ok (← IO.FS.readBinFile path)
  catch e =>
    return .error (readFaultOf e)

def usage : String :=
  "usage: [-f] [-r] [-v NAME=VALUE]... [--max-digits N] [--max-depth N] EXPRESSION"

end Reckoner.Command

open Reckoner.Command

def main (args : List String) : IO UInt32 := do
  match Arguments.read? args with
  | none =>
    IO.eprintln usage
    return 2
  | some arguments =>
    let outcome ←
      if arguments.fromFile then
        pure (arguments.finishFile (← readBytes arguments.contents))
      else
        pure (arguments.finish arguments.contents)
    IO.print outcome.output
    IO.eprint outcome.complaint
    return outcome.exitCode.toUInt32
