import Spool.CommandLine

/-!
# The program

Reads the files that the command line asks for, directly or through the modules they load, and prints the
answer.
-/

namespace Spool.CommandLine

/-- Adds what a path leads to, if anything; gives the text of a file that has one. The system's number for
an attempt to read a directory is 21. -/
def readInto (disk : Disk) (path : String) : IO (Disk × Option String) := do
  try
    let bytes ← IO.FS.readBinFile path
    return (disk.addFile path bytes, String.fromUTF8? bytes)
  catch e =>
    match e with
    | .inappropriateType _ 21 _ => return (disk.addDirectory path, none)
    | _ => return (disk, none)

/-- Reads files and all that they may load, as many as there is fuel for. Of a path without a text the way
there is looked at too. -/
def gather (searchPath : List String) : (fuel : Nat) → (seen : List String) → List String → Disk → IO Disk
  | 0, _, _, disk => return disk
  | _, _, [], disk => return disk
  | fuel + 1, seen, path :: rest, disk => do
    if seen.contains path then gather searchPath fuel seen rest disk
    else
      let (disk, source) ← readInto disk path
      let more := match source with
        | some text => neededBy searchPath text
        | none => (Path.shorter? path).toList
      gather searchPath fuel (path :: seen) (rest ++ more) disk

/-- More steps than any program will take. -/
def enough : Nat := 1000000000000000000

end Spool.CommandLine

open Spool CommandLine in
def main (args : List String) : IO UInt32 := do
  let disk ← match parse args with
    | some o =>
      let file := o.file.getD ""
      gather (searchPath o file) enough [] [file] {}
    | none => pure {}
  let some answer := run enough disk args
    | return 2
  IO.print answer.out
  IO.eprint answer.err
  return answer.code.toUInt32
