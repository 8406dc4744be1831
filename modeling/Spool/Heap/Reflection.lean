import Spool.Heap.Write
import Spool.Registry.Builtins

/-!
# Reflection objects

Classes, modules and functions are values too. Each heap has at most one object for each of them, made
when it is first asked for.
-/

namespace Spool

namespace Reflected

/-- The class of reflection objects of this kind. -/
def metaclass : Reflected → ClassId
  | ofClass _ => .metaclass
  | ofModule _ => .module
  | ofFunction _ => .function

def payload : Reflected → Payload
  | ofClass c => .ofClass c
  | ofModule m => .ofModule m
  | ofFunction f => .ofFunction f

end Reflected

namespace Heap

/-- The object that stands for something in this heap. -/
def reflect (key : Reflected) : Act Heap Handle := do
  match (← getThe Heap).reflection? key with
  | some r => return r
  | none =>
    let r ← create key.metaclass .none
    putPayload r key.payload
    setReflection key r
    return r

end Heap

end Spool
