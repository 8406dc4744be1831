import Spool.Fault
import Spool.Tape.AssemblyError

/-!
# Host errors

What can go wrong before a program runs: reading, assembling, checking and registering its modules,
and setting up the machine.
-/

namespace Spool

/-- Why settings are refused. -/
inductive SettingsError where
  | noObjects
  | thresholdAboveLimit
  | noWorkers
  deriving DecidableEq, Repr

def SettingsError.text : SettingsError → String
  | noObjects => "max_object_count must be positive"
  | thresholdAboveLimit => "initial_threshold exceeds max_object_count"
  | noWorkers => "max_pool_workers must be positive"

/-- Why a file cannot be read as text. -/
inductive FileError where
  | notFound
  /-- The path leads on from a file. -/
  | notDirectory
  | isDirectory
  | nameTooLong
  | zeroInPath
  | notText
  deriving DecidableEq, Repr

def FileError.text : FileError → String
  | notFound => "No such file or directory (os error 2)"
  | notDirectory => "Not a directory (os error 20)"
  | isDirectory => "Is a directory (os error 21)"
  | nameTooLong => "File name too long (os error 36)"
  | zeroInPath => "file name contained an unexpected NUL byte"
  | notText => "stream did not contain valid UTF-8"

inductive HostError where
  | moduleNotFound (name : String)
  | duplicateModule (name : String)
  | unknownSuperclass (className superName : String)
  | inheritanceCycle (className : String)
  | malformedTape (position : Nat) (op reason : String)
  | malformedModule (reason : String)
  | assembly (file : String) (line : Nat) (cause : AssemblyError)
  | settings (cause : SettingsError)
  | file (cause : FileError)
  /-- No answer: a sum did not fit in a word, and the program stops with a panic. -/
  | overflow
  deriving DecidableEq, Repr

namespace HostError

def text : HostError → String
  | moduleNotFound name => s!"module `{name}` not found"
  | duplicateModule name => s!"module `{name}` is already registered"
  | unknownSuperclass className superName =>
    s!"class `{className}` names unknown superclass `{superName}`"
  | inheritanceCycle className => s!"class `{className}` would inherit from itself"
  | malformedTape position op reason => s!"malformed tape at {position} ({op}): {reason}"
  | malformedModule reason => s!"malformed module: {reason}"
  | assembly path line cause => s!"{path}:{line}: {cause.text}"
  | settings cause => s!"invalid settings: {cause.text}"
  | file cause => s!"io error: {cause.text}"
  | overflow => "attempt to add with overflow"

/-- How a running program sees a host error. -/
def toFault : HostError → Fault
  | moduleNotFound name => .moduleNotFound name
  | e => .message e.text

end HostError

end Spool
