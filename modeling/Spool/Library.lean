import Spool.Disk
import Spool.Registry.Builtins
import Spool.Registry.Register
import Spool.Tape.Assembler

/-!
# Finding modules

Modules are found by name: those that are registered already first, then files on the search path, which
are assembled and registered.
-/

namespace Spool

structure Library where
  disk : Disk := {}
  searchPath : List String := []
  deriving Inhabited

namespace Library

/-- Registers a compiled module beside the builtins. -/
def register (m : CompiledModule) : Registry.Entry ModuleId :=
  Registry.register m (some .builtins) .object

def readSource (l : Library) (path : String) : Except HostError String :=
  (l.disk.read path).mapError HostError.file

/-- Assembles and registers one file as a module of the given name. -/
def registerFile (l : Library) (name path : String) : Registry.Entry ModuleId := do
  let source ← ExceptT.mk (pure (l.readSource path))
  let m ← ExceptT.mk (pure (assemble name path source))
  register m

/-- Where a module may be, in the order of the search path. -/
def candidates (l : Library) (name : String) : List String :=
  l.searchPath.map fun directory => Path.join directory (name ++ ".rasm")

/-- The first file on the search path for a module. -/
def fileFor? (l : Library) (name : String) : Option String := (l.candidates name).find? l.disk.isFile

def resolve (l : Library) (name : String) : Registry.Entry ModuleId := do
  match (← get).moduleNamed? name with
  | some m => return m
  | none =>
    match l.fileFor? name with
    | some path => l.registerFile name path
    | none => throw (.moduleNotFound name)

/-- Loads a file as the module that its name says. -/
def loadFile (l : Library) (path : String) : Registry.Entry ModuleId := do
  match Path.stem? path with
  | some name => l.registerFile name path
  | none => throw (.moduleNotFound path)

end Library

end Spool
