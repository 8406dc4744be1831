import Spool.Tape.Listing
import Spool.World.Main

/-!
# The command line

Options and what they ask for: to run a file as the main process, or to list its tape. The files are given
as a disk, and the answer is an exit code with the texts for the two outputs.
-/

namespace Spool.CommandLine

/-! ## Options -/

structure Options where
  file : Option String := none
  paths : List String := []
  maxObjects : Option Nat := none
  poolWorkers : Option Nat := none
  dump : Bool := false
  verbose : Bool := false
  deriving DecidableEq, Repr, Inhabited

namespace Options

/-- There is one file, and its name is not empty. -/
def setFile (o : Options) (file : String) : Option Options :=
  if o.file.isSome || file = "" then none else some { o with file := some file }

/-- A number below two to the sixty-fourth, perhaps with a plus sign. -/
def readCount? (s : String) : Option Nat :=
  let digits := match s.toList with
    | '+' :: rest => rest
    | all => all
  if digits.isEmpty || !digits.all Char.isDigit then none
  else
    let n := digits.foldl (fun n c => 10 * n + (c.toNat - '0'.toNat)) 0
    if n < 18446744073709551616 then some n else none

/-- The directories add up; every other option is given once. -/
def setValue (o : Options) (name value : String) : Option Options :=
  match name with
  | "--path" => if value = "" then none else some { o with paths := o.paths ++ [value] }
  | "--max-objects" =>
    if o.maxObjects.isSome then none else (readCount? value).map fun n => { o with maxObjects := some n }
  | "--pool-workers" =>
    if o.poolWorkers.isSome then none else (readCount? value).map fun n => { o with poolWorkers := some n }
  | _ => none

def setFlag (o : Options) (name : String) : Option Options :=
  match name with
  | "--dump" => if o.dump then none else some { o with dump := true }
  | "--verbose" => if o.verbose then none else some { o with verbose := true }
  | "-v" => if o.verbose then none else some { o with verbose := true }
  | _ => none

end Options

def takesValue (name : String) : Bool := ["--path", "--max-objects", "--pool-workers"].contains name

/-- A dash alone is no option. -/
def isOption (arg : String) : Bool := arg.startsWith "-" && arg ≠ "-"

/-- Splits an option from the value after its equals sign. -/
def splitValue (arg : String) : String × Option String :=
  match arg.splitOn "=" with
  | [] => (arg, none)
  | [_] => (arg, none)
  | name :: rest => (name, some (String.intercalate "=" rest))

/-- Reads arguments; nothing if they are not used as they should be. After two dashes everything is a file
name. -/
def parseFrom (o : Options) : List String → Option Options
  | [] => some o
  | arg :: rest =>
    if arg = "--" then rest.foldlM Options.setFile o
    else if !isOption arg then (o.setFile arg).bind fun o => parseFrom o rest
    else
      match splitValue arg with
      | (name, some value) => (o.setValue name value).bind fun o => parseFrom o rest
      | (name, none) =>
        if takesValue name then
          match rest with
          | value :: rest => if isOption value then none else (o.setValue name value).bind fun o => parseFrom o rest
          | [] => none
        else (o.setFlag name).bind fun o => parseFrom o rest

def parse (args : List String) : Option Options :=
  (parseFrom {} args).bind fun o => if o.file.isSome then some o else none

/-! ## Answers -/

structure Answer where
  code : UInt8 := 0
  out : String := ""
  err : String := ""
  deriving DecidableEq, Repr, Inhabited

/-- A failure with one line of text. -/
def failure (code : UInt8) (line : String) : Answer := { code, err := line ++ "\n" }

/-- The code of a host error, or that of a panic. -/
def codeOf (e : HostError) (code : UInt8) : UInt8 := if e = .overflow then 101 else code

def usage : Answer := { code := 2, err := "usage error" }

/-! ## Listing a file -/

def flagsText (f : Flags) : String :=
  let names := f.names.map String.toUpper
  "FunctionFlags(" ++ (if names.isEmpty then "0x0" else String.intercalate " | " names) ++ ")"

def functionLine (f : FunctionDef) : String :=
  let owner := match f.owner with
    | some c => c ++ "."
    | none => ""
  s!"func {owner}{f.name} @{f.start} {flagsText f.flags}\n"

def classLine (c : ClassDef) : String := s!"class {c.name} {c.start}..{c.stop}\n"

def moduleListing (name : String) (m : CompiledModule) : String :=
  s!"== {name} ==\n" ++ m.tape.listing ++ String.join (m.functions.toList.map functionLine)
    ++ String.join (m.classes.toList.map classLine)

def list (disk : Disk) (file : String) : Answer :=
  match disk.read file with
  | .error e => failure 1 s!"Error reading file '{file}': {e.text}"
  | .ok source =>
    let name := (Path.stem? file).getD "main"
    match assemble name file source with
    | .ok m => { out := moduleListing name m }
    | .error e => failure (codeOf e 1) e.text

/-! ## Running a file -/

/-- Modules are looked for in the given directories and then beside the file. -/
def searchPath (o : Options) (file : String) : List String := o.paths ++ (Path.parent? file).toList

/-- A failed program has code one, and one that ends with an integer has its low byte. -/
def exitCode (s : World.ExitStatus) : UInt8 :=
  if s.failed then 1
  else
    match s.value.int? with
    | some n => n.toUInt64.toUInt8
    | none => 0

/-- Runs a module that has been loaded; nothing if the fuel does not last, or if some process never ends. -/
def runModule (fuel : Nat) (name : String) (w : World) : Option Answer :=
  match (World.startMain name).run w with
  | (.error e, _) => some (failure 2 s!"Error running {name}: {e.text}")
  | (.ok id, w) =>
    ((w.run fuel).filter World.isOver).map fun w =>
      { code := exitCode (w.exitStatus id), out := w.host.out, err := w.host.err }

def execute (fuel : Nat) (disk : Disk) (o : Options) (file : String) : Option Answer :=
  let request : MachineRequest :=
    { heap := { maxObjects := o.maxObjects }
      pool := { maxWorkers := o.poolWorkers }
      library := { disk, searchPath := searchPath o file } }
  match World.create request with
  | .error e => some (failure 2 s!"Error starting vm: {e.text}")
  | .ok w =>
    match (World.loadFile file).run w with
    | (.error e, _) => some (failure (codeOf e 2) s!"Error loading {file}: {e.text}")
    | (.ok _, w) => runModule fuel ((Path.stem? file).getD "") w

/-- Does what the arguments ask for; nothing if that never ends. -/
def run (fuel : Nat) (disk : Disk) (args : List String) : Option Answer :=
  match parse args with
  | none => some usage
  | some o =>
    let file := o.file.getD ""
    if o.dump then some (list disk file) else execute fuel disk o file

/-! ## Files that a program may need -/

/-- The modules that a source text loads. -/
def loadedNames (source : String) : List String :=
  match assemble "" "" source with
  | .ok m => m.tape.instructions.toList.filterMap fun i => if i.op = .loadModule then i.operand.name? else none
  | .error _ => []

/-- The files that are looked for when a source text is run. -/
def neededBy (searchPath : List String) (source : String) : List String :=
  (loadedNames source).flatMap fun name => Library.candidates { searchPath } name

end Spool.CommandLine
