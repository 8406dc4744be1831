import Spool.Heap.Basic

/-!
# Writing to the heap

Every write that stores or drops an object also adds or drops the edge that records it. A write to a dead
handle, or of one, fails before it changes anything.
-/

namespace Spool.Heap

/-- The entry of a live object. -/
def entry (r : Handle) : Act Heap Entry := do
  match (← get).lookup? r with
  | some e => return e
  | none => throw .stale

def requireLive (r : Handle) : Act Heap Unit := do
  unless (← get).isLive r do throw .stale

/-- A value that is about to be stored must not be a dead handle. -/
def requireStorable : Value → Act Heap Unit
  | .object r => requireLive r
  | _ => pure ()

/-! ## Edges -/

/-- The object is no candidate any more. -/
def keep (h : Heap) (r : Handle) : Heap := { h with pending := h.pending.filter (· ≠ r) }

/-- The object becomes a candidate. -/
def nominate (h : Heap) (r : Handle) : Heap := { h with pending := h.pending.insert r }

/-- Takes note of a count that has grown. -/
def noteCount (h : Heap) (n : Nat) : Heap := { h with overflown := h.overflown || n ≥ countLimit }

def incEdge (parent child : Handle) : Act Heap Unit := do
  let e ← entry child
  modify fun h =>
    let h := h.modifyEntry child fun e => { e with parents := e.parents.add parent }
    (h.keep child).noteCount (e.parents.count parent + 1)

/-- Drops one edge, if it is recorded. A child that is left without edges and roots becomes a candidate. -/
def decEdge (parent child : Handle) : Act Heap Unit := do
  let e ← entry child
  match e.parents.drop? parent with
  | none => return
  | some parents =>
    modify fun h =>
      let h := h.modifyEntry child fun e => { e with parents }
      if { e with parents }.isLost then
        { h.nominate child with stats := { h.stats with candidates := h.stats.candidates + 1 } }
      else h

/-- Adds the edge for a value that has been stored. -/
def link (parent : Handle) : Value → Act Heap Unit
  | .object child => incEdge parent child
  | _ => pure ()

/-- Drops the edge for a value that is no longer stored. -/
def unlink (parent : Handle) : Value → Act Heap Unit
  | .object child => decEdge parent child
  | _ => pure ()

/-! ## Members -/

def modifyObject (h : Heap) (r : Handle) (f : Object → Object) : Heap :=
  h.modifyEntry r fun e => { e with object := f e.object }

/-- Edges change only if another object takes the place of the old one. -/
def relink (parent : Handle) (old new : Value) : Act Heap Unit := do
  unless old.sameObject new do
    unlink parent old
    link parent new

def setMember (parent : Handle) (name : String) (value : Value) : Act Heap Unit := do
  requireStorable value
  let old := (← entry parent).object.member? name
  modify fun h => h.modifyObject parent fun o => { o with members := o.members.insert name value }
  relink parent (old.getD .none) value

def removeMember (parent : Handle) (name : String) : Act Heap (Option Value) := do
  let old := (← entry parent).object.member? name
  modify fun h => h.modifyObject parent fun o => { o with members := o.members.erase name }
  unlink parent (old.getD .none)
  return old

/-! ## Payloads -/

def setPayload (h : Heap) (r : Handle) (payload : Payload) : Heap :=
  h.modifyObject r fun o => { o with payload }

/-- Swaps the payload and moves the edges it carries; gives back the old one. -/
def replacePayload (r : Handle) (payload : Payload) : Act Heap Payload := do
  for child in payload.edges do
    requireLive child
  let old := (← entry r).object.payload
  modify fun h => h.setPayload r payload
  for child in payload.edges do
    incEdge r child
  for child in old.edges do
    decEdge r child
  return old

/-- Sets the payload when the old one is of no interest. -/
def putPayload (r : Handle) (payload : Payload) : Act Heap Unit := do
  if payload.carriesValues || (← entry r).object.payload.carriesValues then
    discard <| replacePayload r payload
  else
    modify fun h => h.setPayload r payload

def pushItem (value : Value) : Payload → Payload
  | .array items => .array (items.push value)
  | p => p

def popItem : Payload → Payload
  | .array items => .array items.pop
  | p => p

@[noinline] def arraySize? (o : Object) : Option Nat := o.array?.map Array.size

/-- The last item of an array, if it has one. -/
@[noinline] def lastItem? (o : Object) : Option (Option Value) := o.array?.map Array.back?

def arrayPush (r : Handle) (value : Value) : Act Heap Nat := do
  requireStorable value
  match arraySize? (← entry r).object with
  | none => throw (notA r "Array")
  | some size =>
    modify fun h => h.modifyObject r fun o => { o with payload := pushItem value o.payload }
    link r value
    return size + 1

def arrayPop (r : Handle) : Act Heap (Option Value) := do
  match lastItem? (← entry r).object with
  | none => throw (notA r "Array")
  | some last =>
    modify fun h => h.modifyObject r fun o => { o with payload := popItem o.payload }
    unlink r (last.getD .none)
    return last

/-- Replaces one item of an array or tuple. -/
def storeItem (index : Nat) (value : Value) : Payload → Payload
  | .array items => .array (items.setIfInBounds index value)
  | .tuple items => .tuple (items.setIfInBounds index value)
  | p => p

def slotSet (r : Handle) (index : Int64) (value : Value) : Act Heap Unit := do
  requireStorable value
  let old ← ExceptT.mk (return (← getThe Heap).slotGet r index)
  modify fun h => h.modifyObject r fun o =>
    { o with payload := storeItem index.toNatClampNeg value o.payload }
  relink r old value

/-! ## New objects -/

def create (c : ClassId) (payload : Payload) : Act Heap Handle :=
  modifyGet fun h => h.allocate c payload

/-- A new object that gets a payload in place of the one its class gives. -/
def createWith (c : ClassId) (seed payload : Payload) : Act Heap Handle := do
  let r ← create c seed
  discard <| replacePayload r payload
  return r

/-! ## Roots -/

def root (r : Handle) : Act Heap Unit := do
  let e ← entry r
  modify fun h =>
    let h := h.modifyEntry r fun e => { e with roots := e.roots + 1 }
    (h.keep r).noteCount (e.roots + 1)

/-- Drops one root. An object that is left without edges and roots becomes a candidate. -/
def unroot (r : Handle) : Act Heap Unit := do
  let e ← entry r
  modify fun h =>
    let h := h.modifyEntry r fun e => { e with roots := e.roots - 1 }
    if { e with roots := e.roots - 1 }.isLost then h.nominate r else h

/-- Makes an object the reflection of something; it stays rooted as long as it is that. -/
def setReflection (key : Reflected) (r : Handle) : Act Heap Unit := do
  root r
  let previous := (← getThe Heap).reflection? key
  modify fun h => { h with reflections := h.reflections.insert key r }
  match previous with
  | some previous => unroot previous
  | none => return

end Spool.Heap
