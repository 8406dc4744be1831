import Spool.Heap.Write

/-!
# Garbage collection

A collection traces the objects that can be reached from the roots and reclaims all others, whatever edges
are recorded between those. Survivors lose the edges that came from reclaimed parents.
-/

namespace Spool

/-- Gives what keeps objects alive from outside the heap, and may keep account of what it has given. -/
structure RootProvider where
  State : Type
  start : State
  roots : StateM State (List Value)
  /-- What is kept alive through an object. -/
  behind : External → StateM State (List Value)

/-- What a collection reports. -/
structure Reclaimed where
  count : Nat := 0
  /-- The objects for which the delete hook of their class has been called. -/
  deleted : Array (Handle × Object) := #[]
  deriving Inhabited

namespace Heap

/-! ## Tracing -/

/-- The next handle of a live object without a mark, and what then remains of the worklist. -/
def nextUnmarked? (h : Heap) (marks : Array Bool) : List Handle → Option (Handle × Object × List Handle)
  | [] => none
  | r :: rest =>
    match h.object? r with
    | some o => if marks.getD r.index false then h.nextUnmarked? marks rest else some (r, o, rest)
    | none => h.nextUnmarked? marks rest

/-- What an object keeps alive outside the heap. -/
def outside (provider : RootProvider) (o : Object) : StateM provider.State (List Value) :=
  match o.payload.external? with
  | some x => provider.behind x
  | none => return []

/-- Marks objects until the worklist holds nothing new; what has been found last is looked at first. Every
step marks an object, so there are at most as many as there is fuel for. -/
def traceFrom (h : Heap) (provider : RootProvider) :
    (fuel : Nat) → provider.State → Array Bool → List Handle → Array Bool
  | 0, _, marks, _ => marks
  | fuel + 1, state, marks, worklist =>
    match h.nextUnmarked? marks worklist with
    | none => marks
    | some (r, o, rest) =>
      let (found, state) := outside provider o state
      h.traceFrom provider fuel state (marks.setIfInBounds r.index true)
        ((o.edges ++ Value.handles found).reverse ++ rest)

def rootHandles (h : Heap) : List Handle := h.handles.filter h.isRooted

/-- Which slots hold an object that can be reached. -/
def trace (h : Heap) (provider : RootProvider) : Array Bool :=
  let (values, state) := provider.roots provider.start
  h.traceFrom provider (h.slots.size + 1) state (Array.replicate h.slots.size false)
    (h.rootHandles ++ Value.handles values).reverse

/-! ## Sweeping -/

/-- Forgets all edges from one parent. -/
def dropParent (h : Heap) (parent child : Handle) : Heap :=
  h.modifyEntry child fun e => { e with parents := e.parents.erase parent }

/-- Empties a slot, whose generation moves on. -/
def vacate (h : Heap) (r : Handle) : Heap :=
  { h with
    slots := h.slots.modify r.index fun slot =>
      { generation := (slot.generation + 1) % 4294967296, entry := none }
    free := r.index :: h.free
    live := h.live - 1 }

/-- Empties the slot of an object and drops the object's edges. -/
def reclaim (h : Heap) (r : Handle) (o : Object) : Heap :=
  o.edges.foldl (fun h child => h.dropParent r child) (h.vacate r)

/-- The live objects without a mark, in the order of their slots. -/
def unmarked (h : Heap) (marks : Array Bool) : List (Handle × Object) :=
  h.handles.filterMap fun r =>
    if marks.getD r.index false then none else (h.object? r).map fun o => (r, o)

/-- The class of the object has a delete hook. -/
def hasDeleteHook (registry : Registry) (o : Object) : Bool := (registry.classAt o.ofClass).hooks.onDelete

/-- Reclaims objects one after another. The delete hook of its class, if there is one, is called with each. -/
def sweep (registry : Registry) (h : Heap) (dead : List (Handle × Object)) : Array (Handle × Object) × Heap :=
  dead.foldl
    (fun (deleted, h) (r, o) =>
      (if hasDeleteHook registry o then deleted.push (r, o) else deleted, h.reclaim r o))
    (#[], h)

/-- Back to half the limit when few objects are live, else halfway from the live count to the limit. Past
the limit a quarter of it is granted, so that a handler of the error can run. -/
def settledThreshold (limit live : Nat) : Nat :=
  if live < limit / 2 then limit / 2
  else if live ≤ limit then max ((live + limit) / 2) (live + 1)
  else live + max (limit / 4) 1

def finishCollection (h : Heap) (reclaimed : Nat) : Heap :=
  { h with
    pending := []
    stats := { h.stats with
      collections := h.stats.collections + 1
      reclaimed := h.stats.reclaimed + reclaimed }
    threshold := settledThreshold h.settings.maxObjects h.live }

/-- Traces from the roots and reclaims the rest. -/
def collect (h : Heap) (registry : Registry) (provider : RootProvider) : Reclaimed × Heap :=
  let dead := h.unmarked (h.trace provider)
  let (deleted, h) := h.sweep registry dead
  ({ count := dead.length, deleted }, h.finishCollection dead.length)

def shouldCollect (h : Heap) : Bool := h.live ≥ h.threshold

/-- The fault to raise if a collection has left too many objects. -/
def overLimit? (h : Heap) : Option Fault :=
  if h.live > h.settings.maxObjects then some (.outOfMemory h.live h.settings.maxObjects) else none

end Heap

end Spool
