/-!
# Native functions

The functions that the machine itself provides. Those of `Native` run inline in the calling task, those
of `Background` on the background pool.
-/

namespace Spool

inductive Native where
  | print
  | println
  | errorln
  | str
  | len
  | setSuper
  | remote
  | currentTask
  | currentContext
  /-- The length of the receiver. -/
  | ownLen
  | concat
  | arrayPush
  | arrayPop
  | errorNew
  | futureIsComplete
  | futureGet
  | taskId
  | taskState
  | contextModule
  | contextFunction
  | processNew
  | processStart
  | processNumber
  /-- A tuple of receiver and argument. -/
  | pair
  /-- A remote handle whose process does not exist. -/
  | lost
  /-- Collects garbage at once. -/
  | collect
  deriving DecidableEq, Repr, Inhabited

inductive Background where
  | sleep
  | remoteGet
  /-- A new text in angle brackets. -/
  | wrap
  | echo
  | fail
  /-- Breaks down instead of returning. -/
  | crash
  deriving DecidableEq, Repr, Inhabited

end Spool
