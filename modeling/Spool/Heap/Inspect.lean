import Spool.Heap.Basic
import Spool.Registry.Builtins
import Spool.Scalar.Arithmetic

/-!
# Looking at values

Classes, texts and equality of values, as a running program sees them. Nothing here changes the heap.
-/

namespace Spool

/-- The class of a scalar. -/
def Scalar.ofClass : Scalar → ClassId
  | int _ => .int
  | float _ => .float
  | char _ => .char

namespace Heap

/-- The text of a String object. -/
def text? (h : Heap) : Value → Option String
  | .object r => (h.object? r).bind Object.text?
  | _ => none

/-- None has no class, and neither has a dead handle. -/
def classOf? (h : Heap) : Value → Option ClassId
  | .none => none
  | .scalar s => some s.ofClass
  | .object r => (h.object? r).map Object.ofClass

def typeName (h : Heap) (reg : Registry) (v : Value) : String :=
  match h.classOf? v with
  | some c => reg.className c
  | none => "none"

def isInstance (h : Heap) (reg : Registry) (v : Value) (c : ClassId) : Bool :=
  (h.classOf? v).any fun own => reg.inherits own c

/-- Scalars are equal by value, Strings by content, all else by identity. -/
def sameValue (h : Heap) : Value → Value → Bool
  | .none, .none => true
  | .scalar a, .scalar b => a.same b
  | .object a, .object b =>
    a = b ||
      match h.text? (.object a), h.text? (.object b) with
      | some s, some t => s = t
      | _, _ => false
  | _, _ => false

/-! ## The text of a value -/

/-- The items of an array or tuple, between its brackets. -/
def sequence? (h : Heap) : Value → Option (String × List Value × String)
  | .object r =>
    match (h.object? r).map Object.payload with
    | some (.array items) => some ("[", items.toList, "]")
    | some (.tuple items) => some ("(", items.toList, ")")
    | _ => none
  | _ => none

/-- An error is shown with its message, any other object by its class. -/
def plainText (h : Heap) (reg : Registry) (o : Object) : String :=
  let name := reg.className o.ofClass
  if reg.inherits o.ofClass .error then
    name ++ ": " ++ (((o.member? "message").bind h.text?).getD "")
  else "<" ++ name ++ ">"

def objectText (h : Heap) (reg : Registry) (o : Object) : String :=
  match o.payload with
  | .text s => s
  | .ofClass c => "<class " ++ reg.className c ++ ">"
  | .ofModule m => "<module " ++ (reg.moduleAt m).name ++ ">"
  | .ofFunction f => "<function " ++ (reg.functionAt f).name ++ ">"
  | .bound b => "<function " ++ (reg.functionAt b.function).name ++ ">"
  | _ => h.plainText reg o

/-- The text of a value that is no array or tuple. -/
def leafText (h : Heap) (reg : Registry) : Value → String
  | .none => "none"
  | .scalar s => s.text
  | .object r =>
    match h.object? r with
    | some o => h.objectText reg o
    | none => "<stale>"

/-- Arrays and tuples are entered as deep as there are levels left. -/
def displayWithin (h : Heap) (reg : Registry) : (levels : Nat) → Value → String
  | levels, v =>
    match h.sequence? v, levels with
    | none, _ => h.leafText reg v
    | some _, 0 => "..."
    | some (opening, items, closing), levels + 1 =>
      opening ++ String.intercalate ", " (items.map (h.displayWithin reg levels)) ++ closing

/-- The text that is printed for a value. -/
def display (h : Heap) (reg : Registry) (v : Value) : String := h.displayWithin reg 8 v

end Heap

end Spool
