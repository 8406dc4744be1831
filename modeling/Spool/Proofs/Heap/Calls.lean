import Spool.Proofs.Heap.Collect
import Spool.Proofs.Heap.Roots

/-!
# The edge graph of any run

A heap is used through its operations only, in any order and with any arguments, stale handles among them.
Each of them keeps the heap sound, whether it succeeds or not, and so the graph is right in every heap there can
ever be.
-/

namespace Spool

theorem Payload.edges_none : Payload.none.edges = [] := rfl

namespace Heap

/-- What a class gives to its new objects: a payload without objects. -/
def Blank := { seed : Payload // seed.edges = [] }

/-- A call of one of the operations of the heap. -/
inductive Call where
  | allocate (c : ClassId) (seed : Blank)
  | newString (c : ClassId) (text : String)
  | newArray (c : ClassId) (seed : Blank) (items : Array Value)
  | newTuple (c : ClassId) (seed : Blank) (items : Array Value)
  | setMember (r : Handle) (name : String) (v : Value)
  | removeMember (r : Handle) (name : String)
  | replacePayload (r : Handle) (payload : Payload)
  | putPayload (r : Handle) (payload : Payload)
  | arrayPush (r : Handle) (v : Value)
  | arrayPop (r : Handle)
  | slotSet (r : Handle) (index : Int64) (v : Value)
  | root (r : Handle)
  | unroot (r : Handle)
  | setReflection (key : Reflected) (r : Handle)
  | collect (registry : Registry) (provider : RootProvider)

namespace Call

def perform : Call → Act Heap Unit
  | allocate c seed => discard (Heap.create c seed.1)
  | newString c text => discard (Heap.create c (.text text))
  | newArray c seed items => discard (Heap.createWith c seed.1 (.array items))
  | newTuple c seed items => discard (Heap.createWith c seed.1 (.tuple items))
  | setMember r name v => Heap.setMember r name v
  | removeMember r name => discard (Heap.removeMember r name)
  | replacePayload r payload => discard (Heap.replacePayload r payload)
  | putPayload r payload => Heap.putPayload r payload
  | arrayPush r v => discard (Heap.arrayPush r v)
  | arrayPop r => discard (Heap.arrayPop r)
  | slotSet r index v => Heap.slotSet r index v
  | root r => Heap.root r
  | unroot r => Heap.unroot r
  | setReflection key r => Heap.setReflection key r
  | collect registry provider => modify fun h => (h.collect registry provider).2

/-- The heap that a call leaves behind, also one that fails. -/
def after (call : Call) (h : Heap) : Heap := (call.perform h).2

end Call

/-- The heap after a number of calls. -/
def run (h : Heap) (calls : List Call) : Heap := calls.foldl (fun h call => call.after h) h

/-! ## One call -/

theorem Sound.new (settings : HeapSettings) : (Heap.new settings).Sound := by
  have hnone : ∀ r, (Heap.new settings).lookup? r = none := fun r => by simp [lookup?, Heap.new]
  refine ⟨edgeGraph_of_recorded fun p c => by simp [recorded, held, object?, hnone], ⟨List.nodup_nil, ?_, ?_⟩⟩
  · intro index hi
    simp [Heap.new] at hi
  · intro r o ho
    simp [object?, hnone] at ho

theorem Sound.collect {h : Heap} (hs : h.Sound) (registry : Registry) (provider : RootProvider) :
    (h.collect registry provider).2.Sound :=
  have hc := collected_collect hs.edges registry provider
  ⟨hc.edges, hc.orderly hs.orderly⟩

theorem Sound.after {h : Heap} (hs : h.Sound) (call : Call) : (call.after h).Sound := by
  refine Act.wp.state ?_
  cases call with
  | allocate c seed =>
      simp only [Call.perform, Act.wp_discard]
      exact Act.wp_mono (wp_create hs c seed.2) (fun _ _ h => h.2.sound) (fun _ _ => False.elim)
  | newString c text =>
      simp only [Call.perform, Act.wp_discard]
      exact Act.wp_mono (wp_create hs c rfl) (fun _ _ h => h.2.sound) (fun _ _ => False.elim)
  | newArray c seed items =>
      simp only [Call.perform, Act.wp_discard]
      exact Act.wp_mono (wp_createWith hs c seed.2 _) (fun _ _ h => h.2.sound) (fun _ _ h => h.1)
  | newTuple c seed items =>
      simp only [Call.perform, Act.wp_discard]
      exact Act.wp_mono (wp_createWith hs c seed.2 _) (fun _ _ h => h.2.sound) (fun _ _ h => h.1)
  | setMember r name v =>
      refine Act.wp_mono (wp_setMember hs r name v) (fun _ _ hdone => ?_) (fun _ _ h => h.1 ▸ hs)
      obtain ⟨_, _, _, hw⟩ := hdone
      exact hw.sound
  | removeMember r name =>
      simp only [Call.perform, Act.wp_discard]
      refine Act.wp_mono (wp_removeMember hs r name) (fun _ _ hdone => ?_) (fun _ _ h => h.1 ▸ hs)
      obtain ⟨_, _, _, hw⟩ := hdone
      exact hw.sound
  | replacePayload r payload =>
      simp only [Call.perform, Act.wp_discard]
      refine Act.wp_mono (wp_replacePayload hs r payload) (fun _ _ hdone => ?_) (fun _ _ h => h.1 ▸ hs)
      obtain ⟨_, _, _, _, hw⟩ := hdone
      exact hw.sound
  | putPayload r payload =>
      refine Act.wp_mono (wp_putPayload hs r payload) (fun _ _ hdone => ?_) (fun _ _ h => h.1 ▸ hs)
      obtain ⟨_, _, _, hw⟩ := hdone
      exact hw.sound
  | arrayPush r v =>
      simp only [Call.perform, Act.wp_discard]
      refine Act.wp_mono (wp_arrayPush hs r v) (fun _ _ hdone => ?_) (fun _ _ h => h.1 ▸ hs)
      obtain ⟨_, _, _, _, _, _, hw⟩ := hdone
      exact hw.sound
  | arrayPop r =>
      simp only [Call.perform, Act.wp_discard]
      refine Act.wp_mono (wp_arrayPop hs r) (fun _ _ hdone => ?_) (fun _ _ h => h.1 ▸ hs)
      obtain ⟨_, _, _, _, _, hw⟩ := hdone
      exact hw.sound
  | slotSet r index v =>
      refine Act.wp_mono (wp_slotSet hs r index v) (fun _ _ hdone => ?_) (fun _ _ h => h.1 ▸ hs)
      obtain ⟨_, _, _, _, _, _, hw⟩ := hdone
      exact hw.sound
  | root r => exact Act.wp_mono (wp_root hs r) (fun _ _ h => h.2.sound) (fun _ _ h => h.1 ▸ hs)
  | unroot r => exact Act.wp_mono (wp_unroot hs r) (fun _ _ h => h.2.sound) (fun _ _ h => h.1 ▸ hs)
  | setReflection key r => exact sound_setReflection hs key r
  | collect registry provider => exact hs.collect registry provider

/-! ## Many calls -/

theorem Sound.run {h : Heap} (hs : h.Sound) (calls : List Call) : (h.run calls).Sound := by
  induction calls generalizing h with
  | nil => exact hs
  | cons call rest ih => exact ih (hs.after call)

/-- Whatever has been done with a heap, an edge is recorded for each slot that holds an object and for nothing
else, and no slot holds a dead handle. -/
theorem edgeGraph_run (settings : HeapSettings) (calls : List Call) :
    ((Heap.new settings).run calls).EdgeGraph :=
  ((Sound.new settings).run calls).edges

end Heap

end Spool
