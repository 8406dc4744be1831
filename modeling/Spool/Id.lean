/-!
# Identities

Numbers that name the entries of the machine's tables. Each table hands them out densely from zero, but
processes count from one.
-/

namespace Spool

structure ClassId where
  index : Nat
  deriving DecidableEq, Repr, Inhabited

structure FunctionId where
  index : Nat
  deriving DecidableEq, Repr, Inhabited

structure ModuleId where
  index : Nat
  deriving DecidableEq, Repr, Inhabited

structure TaskId where
  index : Nat
  deriving DecidableEq, Repr, Inhabited

structure ContextId where
  index : Nat
  deriving DecidableEq, Repr, Inhabited

structure ProcessId where
  number : Nat
  deriving DecidableEq, Repr, Inhabited

end Spool
