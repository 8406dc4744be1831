import Spool.Heap.Object
import Spool.HostError

/-!
# The heap

The objects of one process, in slots that are used again after their object has been reclaimed. With each
object the heap records who holds it: in how many slots each parent, and how many roots. An object that
has lost its last holder is a candidate until the next collection decides.
-/

namespace Spool

/-! ## Settings -/

/-- How many objects may stay live, and at how many the first collection runs. -/
structure HeapSettings where
  maxObjects : Nat := 1000000
  threshold : Nat := 500000
  deriving DecidableEq, Repr, Inhabited

/-- Settings as a client asks for them. Without a threshold of its own a limit brings half of itself. -/
structure HeapRequest where
  maxObjects : Option Nat := none
  threshold : Option Nat := none
  deriving DecidableEq, Repr, Inhabited

namespace HeapRequest

def settings (r : HeapRequest) : Except HostError HeapSettings :=
  let base : HeapSettings :=
    match r.maxObjects with
    | some limit => { maxObjects := limit, threshold := limit / 2 }
    | none => {}
  let chosen := { base with threshold := r.threshold.getD base.threshold }
  if chosen.maxObjects = 0 then .error (.settings .noObjects)
  else if chosen.threshold > chosen.maxObjects then .error (.settings .thresholdAboveLimit)
  else .ok chosen

end HeapRequest

/-! ## Who holds an object -/

/-- The parents that hold an object, each with the number of its slots that do. -/
abbrev Parents := Bindings Handle Nat

namespace Parents

def count (ps : Parents) (parent : Handle) : Nat := (ps.get? parent).getD 0

/-- One slot more. -/
def add (ps : Parents) (parent : Handle) : Parents := ps.insert parent (ps.count parent + 1)

/-- One slot less; nothing if no slot of the parent is recorded. -/
def drop? (ps : Parents) (parent : Handle) : Option Parents :=
  (ps.get? parent).map fun n => if n > 1 then ps.insert parent (n - 1) else ps.erase parent

def total (ps : Parents) : Nat := ps.values.foldr (· + ·) 0

end Parents

/-- Edges and roots are counted with 32 bits. -/
def countLimit : Nat := 4294967296

structure Entry where
  object : Object
  parents : Parents := {}
  roots : Nat := 0
  deriving Inhabited

/-- No edge and no root holds the object. -/
def Entry.isLost (e : Entry) : Bool := e.parents.isEmpty && e.roots = 0

structure Slot where
  generation : Nat := 0
  entry : Option Entry := none
  deriving Inhabited

structure HeapStats where
  allocated : Nat := 0
  reclaimed : Nat := 0
  collections : Nat := 0
  /-- How often an object without roots lost its last edge. -/
  candidates : Nat := 0
  deriving DecidableEq, Repr, Inhabited

/-- What a reflection object stands for. -/
inductive Reflected where
  | ofClass (c : ClassId)
  | ofModule (m : ModuleId)
  | ofFunction (f : FunctionId)
  deriving DecidableEq, Repr

structure Heap where
  slots : Array Slot := #[]
  /-- Empty slots, the one to be used next first. -/
  free : List Nat := []
  live : Nat := 0
  /-- A collection is due when this many objects are live. -/
  threshold : Nat
  settings : HeapSettings
  /-- Candidates: objects that have lost their last edge or root since the last collection. -/
  pending : List Handle := []
  reflections : Bindings Reflected Handle := {}
  stats : HeapStats := {}
  /-- A count has passed its limit. The program stops there with a panic, so nothing ever works with such a heap. -/
  overflown : Bool := false
  deriving Inhabited

namespace Heap

def new (settings : HeapSettings) : Heap := { settings, threshold := settings.threshold }

/-! ## Reading -/

def lookup? (h : Heap) (r : Handle) : Option Entry :=
  match h.slots[r.index]? with
  | some slot => if slot.generation = r.generation then slot.entry else none
  | none => none

def isLive (h : Heap) (r : Handle) : Bool := (h.lookup? r).isSome

def object? (h : Heap) (r : Handle) : Option Object := (h.lookup? r).map Entry.object

def fetch (h : Heap) (r : Handle) : Except Fault Object :=
  match h.object? r with
  | some o => .ok o
  | none => .error .stale

def classOf (h : Heap) (r : Handle) : Except Fault ClassId := (h.fetch r).map Object.ofClass

def member (h : Heap) (r : Handle) (name : String) : Except Fault (Option Value) :=
  (h.fetch r).map fun o => o.member? name

def isRooted (h : Heap) (r : Handle) : Bool :=
  match h.lookup? r with
  | some e => e.roots > 0
  | none => false

def edgeCount (h : Heap) (parent child : Handle) : Except Fault Nat :=
  match h.lookup? child with
  | some e => .ok (e.parents.count parent)
  | none => .error .stale

def incoming (h : Heap) (r : Handle) : Except Fault Nat :=
  match h.lookup? r with
  | some e => .ok e.parents.total
  | none => .error .stale

def reflection? (h : Heap) (key : Reflected) : Option Handle := h.reflections.get? key

def candidates (h : Heap) : Nat := h.pending.length

/-- The handles of the live objects, in the order of their slots. -/
def handles (h : Heap) : List Handle :=
  h.slots.toList.zipIdx.filterMap fun (slot, index) =>
    slot.entry.map fun _ => ⟨index, slot.generation⟩

/-- The item at a signed index of an array or tuple. -/
def itemAt (items : Array Value) (index : Int64) : Except Fault Value :=
  match if index < 0 then none else items[index.toNatClampNeg]? with
  | some v => .ok v
  | none => .error (.index index items.size)

/-- The message names the slot of the object. -/
def notA (r : Handle) (expected : String) : Fault := .type expected s!"object {r.index}"

def slotGet (h : Heap) (r : Handle) (index : Int64) : Except Fault Value := do
  match (← h.fetch r).payload with
  | .array items => itemAt items index
  | .tuple items => itemAt items index
  | _ => throw (notA r "Array or Tuple")

/-! ## Allocating -/

/-- Changes the entry of a live object. -/
def modifyEntry (h : Heap) (r : Handle) (f : Entry → Entry) : Heap :=
  { h with
    slots := h.slots.modify r.index fun slot =>
      if slot.generation = r.generation then { slot with entry := slot.entry.map f } else slot }

/-- A new object without members, in the slot freed last if there is one. -/
def allocate (h : Heap) (c : ClassId) (payload : Payload) : Handle × Heap :=
  let entry : Entry := { object := { ofClass := c, payload } }
  let h := { h with live := h.live + 1, stats := { h.stats with allocated := h.stats.allocated + 1 } }
  match h.free with
  | index :: free =>
    let generation := (h.slots.getD index default).generation
    (⟨index, generation⟩,
      { h with free, slots := h.slots.modify index fun slot => { slot with entry := some entry } })
  | [] => (⟨h.slots.size, 0⟩, { h with slots := h.slots.push { entry := some entry } })

end Heap

end Spool
