import Spool.Op
import Spool.Value

/-!
# Faults

What can go wrong while a program runs. A fault reaches the program as an error object whose message
is the text given here.
-/

namespace Spool

inductive Fault where
  | message (text : String)
  | type (expected actual : String)
  | operands (op : Op) (lhs rhs : String)
  | index (index : Int64) (length : Nat)
  | divisionByZero
  | unknownName (name : String)
  | noMember (target member : String)
  | notCallable (kind : String)
  | missingArgument (position : Nat)
  | stackUnderflow
  | contextUnderflow
  | notAnError (kind : String)
  | moduleNotFound (name : String)
  | outOfMemory (live limit : Nat)
  /-- The object of a handle has been reclaimed. -/
  | stale
  | remoteGone
  | inheritance (text : String)
  | malformed (position : Nat) (reason : String)
  /-- An error object that exists already. -/
  | raised (error : Handle)

namespace Fault

def text : Fault → String
  | message text => text
  | type expected actual => s!"type error: expected {expected}, got {actual}"
  | operands op lhs rhs => s!"unsupported operand types for {op.name}: {lhs} and {rhs}"
  | index i length => s!"index {i.toInt} out of bounds for length {length}"
  | divisionByZero => "division by zero"
  | unknownName name => s!"unknown identifier `{name}`"
  | noMember target member => s!"`{target}` has no member `{member}`"
  | notCallable kind => s!"`{kind}` is not callable"
  | missingArgument position => s!"missing argument {position}"
  | stackUnderflow => "stack underflow"
  | contextUnderflow => "no enclosing block to leave"
  | notAnError kind => s!"can only raise Error objects, got {kind}"
  | moduleNotFound name => s!"module `{name}` not found"
  | outOfMemory live limit =>
    s!"out of memory: {live} live objects after collection exceeds the limit of {limit}"
  | stale => "stale object reference"
  | remoteGone => "remote object no longer exists"
  | inheritance text => text
  | malformed position reason => s!"malformed instruction at {position}: {reason}"
  | raised _ => "raised error object"

end Fault

/-- An action on a state that may end in a fault; what it did before the fault stays done. -/
abbrev Act (σ : Type) := ExceptT Fault (StateM σ)

end Spool
