import Spool.Proofs.Heap.Payloads

/-!
# The futures in a heap

A future that does not know its result refers to a task. Whatever is done to a heap, the tasks that its futures refer
to are those they referred to before, and the task of a future that is written.
-/

namespace Spool

/-- A future with this payload, if it does not know its result, refers to a task of this kind. -/
def Payload.Awaits (T : TaskId → Prop) (p : Payload) : Prop := ∀ t, p.external? = some (.task t) → T t

theorem Payload.awaits_of_isLoose {T : TaskId → Prop} (p : Payload) (hp : p.isLoose) : p.Awaits T := by
  intro t ht
  cases p with
  | bound b => cases hc : b.capture <;> simp [Payload.external?, hc] at ht
  | future cell => cases hp
  | _ => cases ht

theorem Object.payload_of_future? {o : Object} {cell : FutureCell} (h : o.future? = some cell) :
    o.payload = .future cell := by
  unfold future? at h
  split at h
  · cases h
    assumption
  · cases h

namespace Heap

variable {h h' : Heap} {T : TaskId → Prop} {α : Type}

/-- The futures without a result refer to tasks of this kind only. -/
def Knows (T : TaskId → Prop) (h : Heap) : Prop :=
  ∀ r o t, h.object? r = some o → o.payload.external? = some (.task t) → T t

theorem knows_iff : h.Knows T ↔ h.Each (Payload.Awaits T) :=
  ⟨fun hk r o ho t hx => hk r o t ho hx, fun hk r o t ho hx => hk r o ho t hx⟩

theorem knows_of_each {act : Act Heap α} (ha : Preserves (Each (Payload.Awaits T)) act) : Preserves (Knows T) act :=
  fun _ hk => knows_iff.2 (ha _ (knows_iff.1 hk))

theorem Knows.mono {T' : TaskId → Prop} (hk : h.Knows T) (hT : ∀ t, T t → T' t) : h.Knows T' :=
  fun r o t ho hx => hT t (hk r o t ho hx)

theorem Knows.extend {X : External → Prop} (hk : h.Knows T) (hg : h.Extends X h') (hX : ∀ t, X (.task t) → T t) :
    h'.Knows T := by
  intro r o t ho hx
  rcases hg.external r o _ ho hx with hnew | ⟨o', ho', hx'⟩
  · exact hX t hnew
  · exact hk r o' t ho' hx'

theorem knows_new (settings : HeapSettings) : (Heap.new settings).Knows T := knows_iff.2 (each_new settings)

theorem Knows.allocate (hk : h.Knows T) (c : ClassId) {payload : Payload}
    (hp : ∀ t, payload.external? = some (.task t) → T t) : (h.allocate c payload).2.Knows T :=
  knows_iff.2 ((knows_iff.1 hk).allocate c hp)

theorem Knows.collect (hk : h.Knows T) (registry : Registry) (provider : RootProvider) :
    (h.collect registry provider).2.Knows T :=
  knows_iff.2 ((knows_iff.1 hk).collect registry provider)

theorem knows_setMember (r : Handle) (name : String) (v : Value) : Preserves (Knows T) (setMember r name v) :=
  knows_of_each (each_setMember r name v)

theorem knows_replacePayload (r : Handle) {payload : Payload} (hp : ∀ t, payload.external? = some (.task t) → T t) :
    Preserves (Knows T) (replacePayload r payload) :=
  knows_of_each (each_replacePayload r hp)

theorem knows_putPayload (r : Handle) {payload : Payload} (hp : ∀ t, payload.external? = some (.task t) → T t) :
    Preserves (Knows T) (putPayload r payload) :=
  knows_of_each (each_putPayload r hp)

theorem knows_arrayPush (r : Handle) (v : Value) : Preserves (Knows T) (arrayPush r v) :=
  knows_of_each (each_arrayPush Payload.awaits_of_isLoose r v)

theorem knows_arrayPop (r : Handle) : Preserves (Knows T) (arrayPop r) :=
  knows_of_each (each_arrayPop Payload.awaits_of_isLoose r)

theorem knows_slotSet (r : Handle) (i : Int64) (v : Value) : Preserves (Knows T) (slotSet r i v) :=
  knows_of_each (each_slotSet Payload.awaits_of_isLoose r i v)

theorem knows_createWith (c : ClassId) {seed payload : Payload} (hs : seed.external? = none)
    (hp : payload.external? = none) : Preserves (Knows T) (createWith c seed payload) :=
  knows_of_each (each_createWith c (fun t h => by simp [hs] at h) (fun t h => by simp [hp] at h))

theorem knows_root (r : Handle) : Preserves (Knows T) (root r) := knows_of_each (each_root r)

theorem knows_unroot (r : Handle) : Preserves (Knows T) (unroot r) := knows_of_each (each_unroot r)

theorem knows_reflect (key : Reflected) : Preserves (Knows T) (reflect key) :=
  knows_of_each (each_reflect Payload.awaits_of_isLoose key)

end Heap

end Spool
