import Spool.Bindings
import Spool.Id
import Spool.Value

/-!
# Contexts

One activation of a function, of a module's top level, or of a block. Contexts are looked up through the
ones that enclose them lexically.
-/

namespace Spool

inductive ContextKind where
  /-- Top level of a module, whose variables are members of the module object. -/
  | moduleRoot
  | function
  | block
  deriving DecidableEq, Repr, Inhabited

structure Context where
  task : TaskId
  kind : ContextKind
  /-- The context around this one: of the block, or closed over by the function. -/
  previous : Option ContextId := none
  receiver : Value := .none
  module : ModuleId
  function : Option FunctionId := none
  /-- The position of the next instruction. -/
  cursor : Nat
  locals : Bindings String Value := {}
  /-- An error that has to be handled before the next instruction. -/
  error : Option Handle := none
  /-- Where an error is handled. -/
  handler : Option Nat := none
  /-- A closure or a reflection object refers to this context. -/
  pinned : Bool := false
  deriving Inhabited

/-- Everything a context keeps alive. -/
def Context.values (c : Context) : List Value :=
  c.receiver :: c.locals.values ++ c.error.toList.map Value.object

end Spool
