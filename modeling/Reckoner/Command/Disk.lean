import Reckoner.Command.Run

/-! The files a run can see. A path is walked part by part, from the top if it starts
with a slash and from the working folder if not, and the first part that cannot be
followed is the fault. Parts are only looked for in folders, and only up to the
faulty one: what comes after a missing folder is never measured. The rules for paths
are the operating system's; they serve to run the command on given files, and nothing is
claimed of them. -/
namespace Reckoner.Command

abbrev Place := List String

structure Disk where
  files : List (Place × ByteArray)
  workingFolder : Place

namespace Disk

def longestPath : Nat := 4095
def longestName : Nat := 255

def bytes? (disk : Disk) (place : Place) : Option ByteArray :=
  disk.files.lookup place

/-- The folders are the working folder and all that lie above it or above a file. -/
def isFolder (disk : Disk) (place : Place) : Bool :=
  place.isPrefixOf disk.workingFolder ||
    disk.files.any fun file => place.isPrefixOf file.1.dropLast

/-- One part further. An empty part, like a dot, stays where it is; the top is above
itself. -/
def step (disk : Disk) (place : Place) (part : String) : Except ReadFault Place :=
  if !disk.isFolder place then .error .notDirectory
  else if part == "" || part == "." then .ok place
  else if part == ".." then .ok place.dropLast
  else if longestName < part.utf8ByteSize then .error .nameTooLong
  else
    let next := place ++ [part]
    if disk.isFolder next || (disk.bytes? next).isSome then .ok next
    else .error .notFound

def walk (disk : Disk) (place : Place) : List String → Except ReadFault Place
  | [] => .ok place
  | part :: parts =>
    match disk.step place part with
    | .error e => .error e
    | .ok next => disk.walk next parts

def start (disk : Disk) (path : String) : Place :=
  if path.startsWith "/" then [] else disk.workingFolder

/-- A path is measured as a whole before its parts are. -/
def read (disk : Disk) (path : String) : Except ReadFault ByteArray :=
  if path == "" then .error .notFound
  else if longestPath < path.utf8ByteSize then .error .nameTooLong
  else
    match disk.walk (disk.start path) (path.splitOn "/") with
    | .error e => .error e
    | .ok place =>
      match disk.bytes? place with
      | some bytes => .ok bytes
      | none => .error .isDirectory

end Disk

def Arguments.run (args : Arguments) (disk : Disk) : Outcome :=
  if args.fromFile then args.finishFile (disk.read args.contents)
  else args.finish args.contents

end Reckoner.Command
