import Std.Data.HashMap
import Spool.Heap.Basic

/-!
# Auditing the edges

Finds out afresh which objects hold which, and compares that with the recorded edges. Each comparison uses up
what has been found about one live object, so that what is left over is about dead ones.
-/

namespace Spool

inductive Audit where
  | consistent
  /-- The edges recorded with some object are not those that its holders have. -/
  | mismatch
  /-- Some object holds a dead handle. -/
  | dangling
  /-- Some object holds another in too many slots to count them, and the audit panics. -/
  | overflow
  deriving DecidableEq, Repr

/-- The same counts, in whatever order. -/
def Parents.same (ps qs : Parents) : Bool :=
  ps.size = qs.size && ps.entries.all fun (parent, n) => qs.get? parent = some n

/-- The parents that have been found for each handle. -/
abbrev Tally := Std.HashMap Handle Parents

namespace Heap

/-- All pairs of a live parent and a handle it holds, one per slot. -/
def heldPairs (h : Heap) : List (Handle × Handle) :=
  h.handles.flatMap fun parent =>
    match h.object? parent with
    | some o => o.edges.map fun child => (parent, child)
    | none => []

/-- Counts pairs; nothing if a count does not fit. -/
def tallyFrom : List (Handle × Handle) → Tally → Option Tally
  | [], found => some found
  | (parent, child) :: rest, found =>
    let parents := (found.getD child {}).add parent
    if parents.count parent ≥ countLimit then none else tallyFrom rest (found.insert child parents)

/-- Compares what has been found with what is recorded, for some live objects. -/
def compareFrom (h : Heap) : List Handle → Tally → Audit
  | [], found => if found.isEmpty then .consistent else .dangling
  | r :: rest, found =>
    match h.lookup? r with
    | some e =>
      if (found.getD r {}).same e.parents then h.compareFrom rest (found.erase r) else .mismatch
    | none => h.compareFrom rest found

def audit (h : Heap) : Audit :=
  match tallyFrom h.heldPairs {} with
  | some found => h.compareFrom h.handles found
  | none => .overflow

end Heap

end Spool
