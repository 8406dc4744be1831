import Spool.HostError
import Spool.Path

/-!
# The disk

The files that can be read. A path is followed step by step, and every step is made from a directory that
is there, so a missing directory is not mended by a step out of it.
-/

namespace Spool

structure Disk where
  files : List (Path.Place × ByteArray) := []
  /-- Directories beside the root, the working directory and those around it. -/
  directories : List Path.Place := []
  deriving Inhabited

namespace Disk

/-- Puts a file where a path leads, in directories that are made on the way. -/
def addFile (d : Disk) (path : String) (bytes : ByteArray) : Disk :=
  { files := (Path.target path, bytes) :: d.files
    directories := Path.passed (Path.start path) (Path.steps path) ++ d.directories }

/-- Makes the directory that a path leads to and those on the way. -/
def addDirectory (d : Disk) (path : String) : Disk :=
  { d with
    directories := Path.target path :: Path.passed (Path.start path) (Path.steps path) ++ d.directories }

def ofList (files : List (String × ByteArray)) : Disk :=
  files.foldr (fun (path, bytes) d => d.addFile path bytes) {}

def fileAt? (d : Disk) (place : Path.Place) : Option ByteArray :=
  (d.files.find? fun f => f.1 = place).map Prod.snd

def hasDirectory (d : Disk) (place : Path.Place) : Bool :=
  place = ["/"] || place.all (· = "..") || d.directories.elem place

/-- Why a place cannot be gone on from, if so. -/
def obstacle? (d : Disk) (place : Path.Place) : Option FileError :=
  if d.hasDirectory place then none
  else if (d.fileAt? place).isSome then some .notDirectory
  else some .notFound

/-- The most bytes that a name has. -/
def maxName : Nat := 255

/-- Paths have fewer bytes than this. -/
def maxPath : Nat := 4096

/-- Follows steps from a place. -/
def follow (d : Disk) : Path.Place → List String → Except FileError Path.Place
  | place, [] => .ok place
  | place, part :: rest =>
    match d.obstacle? place with
    | some e => .error e
    | none =>
      if part.utf8ByteSize > maxName then .error .nameTooLong else d.follow (Path.step place part) rest

/-- The place that a path leads to. -/
def locate (d : Disk) (path : String) : Except FileError Path.Place :=
  if path.toList.elem '\x00' then .error .zeroInPath
  else if path = "" then .error .notFound
  else if path.utf8ByteSize ≥ maxPath then .error .nameTooLong
  else d.follow (Path.start path) (Path.steps path)

/-- The bytes of the file that a path leads to. -/
def bytes (d : Disk) (path : String) : Except FileError ByteArray := do
  let place ← d.locate path
  match d.fileAt? place with
  | some content => return content
  | none => throw (if d.hasDirectory place then .isDirectory else .notFound)

def isFile (d : Disk) (path : String) : Bool := (d.bytes path).isOk

def read (d : Disk) (path : String) : Except FileError String := do
  match String.fromUTF8? (← d.bytes path) with
  | some text => return text
  | none => throw .notText

end Disk

end Spool
