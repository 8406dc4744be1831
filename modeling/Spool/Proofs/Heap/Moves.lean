import Mathlib.Logic.Relation
import Spool.Proofs.Heap.Calls
import Spool.Proofs.Heap.Payloads

/-!
# What operations do to a heap

Between two collections everything that is done to a heap is made of a few moves: an object is made or changed, an edge or a
root comes or goes, something else becomes a reflection. A collection takes one object after another and then closes the
books. So what is true of a new heap, and stays true with each move and with each object that is taken, is true of every heap.
-/

namespace Spool.Heap

variable {h h' h₀ : Heap} {r x : Handle} {α : Type}

/-- One move. What fails leaves the heap as it is. -/
inductive Move (h : Heap) : Heap → Prop where
  | create (c : ClassId) (payload : Payload) : Move h (h.allocate c payload).2
  | object (r : Handle) (f : Object → Object) : Move h (h.modifyObject r f)
  | incEdge (parent child : Handle) : Move h (incEdge parent child h).2
  | decEdge (parent child : Handle) : Move h (decEdge parent child h).2
  | root (r : Handle) : Move h (root r h).2
  | unroot (r : Handle) : Move h (unroot r h).2
  | reflections (reflections : Bindings Reflected Handle) : Move h { h with reflections }

abbrev Moves : Heap → Heap → Prop := Relation.ReflTransGen Move

/-! ## Operations in moves -/

theorem moves_incEdge (parent child : Handle) : Preserves (Moves h₀) (incEdge parent child) :=
  fun _ h => h.tail (.incEdge parent child)

theorem moves_decEdge (parent child : Handle) : Preserves (Moves h₀) (decEdge parent child) :=
  fun _ h => h.tail (.decEdge parent child)

theorem moves_root (r : Handle) : Preserves (Moves h₀) (root r) := fun _ h => h.tail (.root r)

theorem moves_unroot (r : Handle) : Preserves (Moves h₀) (unroot r) := fun _ h => h.tail (.unroot r)

theorem moves_create (c : ClassId) (payload : Payload) : Preserves (Moves h₀) (create c payload) :=
  fun _ h => h.tail (.create c payload)

theorem moves_object (r : Handle) (f : Object → Object) :
    Preserves (Moves h₀) (modify fun h => h.modifyObject r f : Act Heap Unit) :=
  preserves_modify fun _ h => h.tail (.object r f)

theorem moves_link (parent : Handle) (v : Value) : Preserves (Moves h₀) (link parent v) := by
  cases v with
  | object child => exact moves_incEdge parent child
  | none => exact preserves_pure _
  | scalar s => exact preserves_pure _

theorem moves_unlink (parent : Handle) (v : Value) : Preserves (Moves h₀) (unlink parent v) := by
  cases v with
  | object child => exact moves_decEdge parent child
  | none => exact preserves_pure _
  | scalar s => exact preserves_pure _

theorem moves_relink (parent : Handle) (old new : Value) : Preserves (Moves h₀) (relink parent old new) := by
  unfold relink
  split
  · exact preserves_pure _
  · exact preserves_bind (moves_unlink parent old) fun _ => moves_link parent new

theorem moves_setMember (r : Handle) (name : String) (v : Value) : Preserves (Moves h₀) (setMember r name v) :=
  preserves_bind (preserves_requireStorable v) fun _ => preserves_bind (preserves_entry r) fun _ =>
    preserves_bind (moves_object r _) fun _ => moves_relink r _ v

theorem moves_removeMember (r : Handle) (name : String) : Preserves (Moves h₀) (removeMember r name) :=
  preserves_bind (preserves_entry r) fun _ => preserves_bind (moves_object r _) fun _ =>
    preserves_bind (moves_unlink r _) fun _ => preserves_pure _

theorem moves_replacePayload (r : Handle) (payload : Payload) : Preserves (Moves h₀) (replacePayload r payload) :=
  preserves_bind (preserves_handles preserves_requireLive _) fun _ => preserves_bind (preserves_entry r) fun _ =>
    preserves_bind (moves_object r _) fun _ => preserves_bind (preserves_handles (moves_incEdge r) _) fun _ =>
      preserves_bind (preserves_handles (moves_decEdge r) _) fun _ => preserves_pure _

theorem moves_putPayload (r : Handle) (payload : Payload) : Preserves (Moves h₀) (putPayload r payload) := by
  unfold putPayload
  refine preserves_bind (preserves_entry r) fun e => ?_
  split
  · exact preserves_discard (moves_replacePayload r payload)
  · exact moves_object r _

theorem moves_arrayPush (r : Handle) (v : Value) : Preserves (Moves h₀) (arrayPush r v) := by
  unfold arrayPush
  refine preserves_bind (preserves_requireStorable v) fun _ => preserves_bind (preserves_entry r) fun e => ?_
  split
  · exact preserves_throw _
  · exact preserves_bind (moves_object r _) fun _ => preserves_bind (moves_link r v) fun _ => preserves_pure _

theorem moves_arrayPop (r : Handle) : Preserves (Moves h₀) (arrayPop r) := by
  unfold arrayPop
  refine preserves_bind (preserves_entry r) fun e => ?_
  split
  · exact preserves_throw _
  · exact preserves_bind (moves_object r _) fun _ => preserves_bind (moves_unlink r _) fun _ => preserves_pure _

theorem moves_slotSet (r : Handle) (index : Int64) (v : Value) : Preserves (Moves h₀) (slotSet r index v) :=
  preserves_bind (preserves_requireStorable v) fun _ => preserves_bind (fun _ h => h) fun old =>
    preserves_bind (moves_object r _) fun _ => moves_relink r old v

theorem moves_createWith (c : ClassId) (seed payload : Payload) : Preserves (Moves h₀) (createWith c seed payload) :=
  preserves_bind (moves_create c seed) fun r => preserves_bind (preserves_discard (moves_replacePayload r payload)) fun _ =>
    preserves_pure _

theorem moves_setReflection (key : Reflected) (r : Handle) : Preserves (Moves h₀) (setReflection key r) := by
  unfold setReflection
  refine preserves_bind (moves_root r) fun _ => preserves_get fun h _ =>
    preserves_bind (preserves_modify fun _ h => h.tail (.reflections _)) fun _ => ?_
  split
  · exact moves_unroot _
  · exact preserves_pure _

/-- A call of one of the operations of the heap, or of those that count edges. -/
inductive Operation where
  | call (call : Call)
  | incEdge (parent child : Handle)
  | decEdge (parent child : Handle)

namespace Operation

/-- The heap that an operation leaves behind, also one that fails. -/
def after : Operation → Heap → Heap
  | call c, h => c.after h
  | incEdge parent child, h => (Heap.incEdge parent child h).2
  | decEdge parent child, h => (Heap.decEdge parent child h).2

def collects : Operation → Bool
  | call (.collect ..) => true
  | _ => false

theorem moves_after {op : Operation} (hop : op.collects = false) (h : Heap) : h.Moves (op.after h) := by
  have hperform : ∀ {act : Act Heap Unit}, (∀ h₀, Preserves (Moves h₀) act) → h.Moves (act h).2 := fun hact =>
    hact h h .refl
  cases op with
  | incEdge parent child => exact .single (.incEdge parent child)
  | decEdge parent child => exact .single (.decEdge parent child)
  | call c =>
      cases c with
      | collect registry provider => cases hop
      | allocate c seed => exact hperform fun _ => preserves_discard (moves_create c _)
      | newString c text => exact hperform fun _ => preserves_discard (moves_create c _)
      | newArray c seed items => exact hperform fun _ => preserves_discard (moves_createWith c _ _)
      | newTuple c seed items => exact hperform fun _ => preserves_discard (moves_createWith c _ _)
      | setMember r name v => exact hperform fun _ => moves_setMember r name v
      | removeMember r name => exact hperform fun _ => preserves_discard (moves_removeMember r name)
      | replacePayload r payload => exact hperform fun _ => preserves_discard (moves_replacePayload r payload)
      | putPayload r payload => exact hperform fun _ => moves_putPayload r payload
      | arrayPush r v => exact hperform fun _ => preserves_discard (moves_arrayPush r v)
      | arrayPop r => exact hperform fun _ => preserves_discard (moves_arrayPop r)
      | slotSet r index v => exact hperform fun _ => moves_slotSet r index v
      | root r => exact hperform fun _ => moves_root r
      | unroot r => exact hperform fun _ => moves_unroot r
      | setReflection key r => exact hperform fun _ => moves_setReflection key r

end Operation

/-- The heap after a number of operations. -/
def operate (h : Heap) (ops : List Operation) : Heap := ops.foldl (fun h op => op.after h) h

theorem operate_append (h : Heap) (xs ys : List Operation) : h.operate (xs ++ ys) = (h.operate xs).operate ys :=
  List.foldl_append

theorem moves_operate {ops : List Operation} (hops : ∀ op ∈ ops, op.collects = false) (h : Heap) :
    h.Moves (h.operate ops) := by
  induction ops generalizing h with
  | nil => exact .refl
  | cons op rest ih =>
      exact (Operation.moves_after (hops op List.mem_cons_self) h).trans (ih (fun x hx => hops x (List.mem_cons_of_mem _ hx)) _)

end Spool.Heap
