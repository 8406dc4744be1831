import Spool.Heap.Reflection

/-!
# Copying between heaps

A copier carries values from one heap into another. Each source object is copied once, so what is shared
stays shared and cycles stay cycles. Classes, modules and functions become the reflection objects of the
target; futures, tasks and contexts mean nothing there and arrive as none; a function reference loses the
context it closes over.
-/

namespace Spool

structure Copier where
  target : Heap
  /-- The registry's payload for new objects of a class. -/
  registry : Registry
  /-- By slot of the source, the object of the target that the source object became. -/
  forward : Array (Option Handle)
  /-- Objects that exist in the target and still lack their content. -/
  unfilled : List (Handle × Handle) := []
  deriving Inhabited

namespace Copier

def new (source target : Heap) (registry : Registry) : Copier :=
  { target, registry, forward := Array.replicate source.slots.size none }

/-- How many source objects have got an object in the target. -/
def copied (c : Copier) : Nat := (c.forward.toList.filter Option.isSome).length

/-- Acts on the target heap. -/
def onTarget {α : Type} (act : Act Heap α) : Act Copier α := fun c =>
  let (result, target) := act c.target
  (result, { c with target })

def remember (source target : Handle) : Act Copier Unit :=
  modify fun c => { c with forward := c.forward.setIfInBounds source.index (some target) }

/-- A fresh object for a source object, to be filled later. -/
def place (source : Handle) (o : Object) : Act Copier Handle := do
  let seed := (← get).registry.seed o.ofClass
  let target ← onTarget (Heap.create o.ofClass seed)
  modify fun c => { c with unfilled := (source, target) :: c.unfilled }
  return target

def mapHandle (source : Heap) (r : Handle) : Act Copier Value := do
  match source.object? r with
  | none => throw .stale
  | some o =>
    match ((← get).forward[r.index]?).join with
    | some target => return .object target
    | none =>
      let target ← match o.payload with
        | .ofClass c => some <$> onTarget (Heap.reflect (.ofClass c))
        | .ofModule m => some <$> onTarget (Heap.reflect (.ofModule m))
        | .ofFunction f => some <$> onTarget (Heap.reflect (.ofFunction f))
        | .future _ => pure none
        | .task _ => pure none
        | .context _ => pure none
        | _ => some <$> place r o
      match target with
      | some target =>
        remember r target
        return .object target
      | none => return .none

def mapValue (source : Heap) : Value → Act Copier Value
  | .object r => mapHandle source r
  | v => pure v

def mapPayload (source : Heap) : Payload → Act Copier Payload
  | .array items => .array <$> items.mapM (mapValue source)
  | .tuple items => .tuple <$> items.mapM (mapValue source)
  | .bound b => do
    let receiver ← mapValue source b.receiver
    return .bound { function := b.function, receiver }
  | p => pure p

/-- Gives a fresh object the members and the payload of its source. -/
def fill (source : Heap) (origin target : Handle) : Act Copier Unit := do
  match source.object? origin with
  | none => throw .stale
  | some o =>
    for (name, value) in o.members.entries do
      let value ← mapValue source value
      onTarget (Heap.setMember target name value)
    let payload ← mapPayload source o.payload
    onTarget (discard <| Heap.replacePayload target payload)

/-- Fills objects, the one placed last first. No source object is placed twice, so there is fuel for all. -/
def fillAll (source : Heap) : (fuel : Nat) → Act Copier Unit
  | 0 => pure ()
  | fuel + 1 => do
    match (← get).unfilled with
    | [] => return
    | (origin, target) :: rest =>
      modify fun c => { c with unfilled := rest }
      fill source origin target
      fillAll source fuel

/-- Copies a value with all that it reaches. -/
def copy (source : Heap) (v : Value) : Act Copier Value := do
  let result ← mapValue source v
  fillAll source (source.slots.size + 1)
  return result

end Copier

end Spool
