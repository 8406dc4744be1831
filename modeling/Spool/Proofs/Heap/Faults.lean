import Spool.Proofs.Heap.Copy

/-!
# Actions that fail over dead handles only

Rooting, writing members and copying have one way to fail: a handle that is dead. Where all handles are live they do
not fail at all.
-/

namespace Spool

namespace Act

variable {σ α β : Type}

/-- Whatever state it begins in, the action fails over a dead handle or not at all. -/
def StaleOnly (act : Act σ α) : Prop := ∀ s, act.wp s (fun _ _ => True) fun e _ => e = .stale

theorem staleOnly_pure (a : α) : (pure a : Act σ α).StaleOnly := fun _ => trivial

theorem staleOnly_throw : (throw .stale : Act σ α).StaleOnly := fun _ => rfl

theorem staleOnly_get : (get : Act σ σ).StaleOnly := fun _ => trivial

theorem staleOnly_modify (f : σ → σ) : (modify f : Act σ PUnit).StaleOnly := fun _ => trivial

theorem StaleOnly.bind {act : Act σ α} {k : α → Act σ β} (ha : act.StaleOnly) (hk : ∀ a, (k a).StaleOnly) :
    (act >>= k).StaleOnly := by
  intro s
  rw [wp_bind]
  exact wp_mono (ha s) (fun a s' _ => hk a s') fun _ _ h => h

theorem StaleOnly.map {act : Act σ α} (ha : act.StaleOnly) (f : α → β) : (f <$> act).StaleOnly := by
  intro s
  rw [wp_map]
  exact ha s

theorem StaleOnly.discard {act : Act σ α} (ha : act.StaleOnly) : (discard act).StaleOnly := by
  intro s
  rw [wp_discard]
  exact ha s

theorem staleOnly_mapM {f : α → Act σ β} (hf : ∀ a, (f a).StaleOnly) (xs : List α) : (xs.mapM f).StaleOnly := by
  induction xs with
  | nil => exact staleOnly_pure _
  | cons a rest ih =>
      rw [List.mapM_cons]
      exact (hf a).bind fun _ => ih.bind fun _ => staleOnly_pure _

theorem staleOnly_forIn {f : α → PUnit → Act σ (ForInStep PUnit)} (hf : ∀ a b, (f a b).StaleOnly) (xs : List α)
    (b : PUnit) : (forIn xs b f).StaleOnly := by
  induction xs generalizing b with
  | nil => exact staleOnly_pure _
  | cons a rest ih =>
      rw [List.forIn_cons]
      refine (hf a b).bind fun step => ?_
      cases step with
      | done b => exact staleOnly_pure b
      | yield b => exact ih b

end Act

open Act

namespace Heap

theorem staleOnly_entry (r : Handle) : (entry r).StaleOnly := by
  refine staleOnly_get.bind fun h => ?_
  split
  · exact staleOnly_pure _
  · exact staleOnly_throw

theorem staleOnly_requireLive (r : Handle) : (requireLive r).StaleOnly := by
  refine staleOnly_get.bind fun h => ?_
  split
  · exact staleOnly_pure _
  · exact staleOnly_throw

theorem staleOnly_requireStorable (v : Value) : (requireStorable v).StaleOnly := by
  cases v with
  | object r => exact staleOnly_requireLive r
  | none => exact staleOnly_pure _
  | scalar s => exact staleOnly_pure _

theorem staleOnly_incEdge (parent child : Handle) : (incEdge parent child).StaleOnly :=
  (staleOnly_entry child).bind fun _ => staleOnly_modify _

theorem staleOnly_decEdge (parent child : Handle) : (decEdge parent child).StaleOnly := by
  refine (staleOnly_entry child).bind fun e => ?_
  split
  · exact staleOnly_pure _
  · exact staleOnly_modify _

theorem staleOnly_link (parent : Handle) (v : Value) : (link parent v).StaleOnly := by
  cases v with
  | object r => exact staleOnly_incEdge parent r
  | none => exact staleOnly_pure _
  | scalar s => exact staleOnly_pure _

theorem staleOnly_unlink (parent : Handle) (v : Value) : (unlink parent v).StaleOnly := by
  cases v with
  | object r => exact staleOnly_decEdge parent r
  | none => exact staleOnly_pure _
  | scalar s => exact staleOnly_pure _

theorem staleOnly_relink (parent : Handle) (old new : Value) : (relink parent old new).StaleOnly := by
  unfold relink
  split
  · exact staleOnly_pure _
  · exact (staleOnly_unlink parent old).bind fun _ => staleOnly_link parent new

theorem staleOnly_setMember (r : Handle) (name : String) (v : Value) : (setMember r name v).StaleOnly :=
  (staleOnly_requireStorable v).bind fun _ => (staleOnly_entry r).bind fun _ =>
    (staleOnly_modify _).bind fun _ => staleOnly_relink r _ v

theorem staleOnly_each {f : Handle → Act Heap PUnit} (hf : ∀ r, (f r).StaleOnly) (rs : List Handle) :
    (forIn rs PUnit.unit fun r _ => do f r; pure (ForInStep.yield PUnit.unit)).StaleOnly :=
  staleOnly_forIn (fun r _ => (hf r).bind fun _ => staleOnly_pure _) rs _

theorem staleOnly_replacePayload (r : Handle) (payload : Payload) : (replacePayload r payload).StaleOnly :=
  (staleOnly_each staleOnly_requireLive _).bind fun _ => (staleOnly_entry r).bind fun _ =>
    (staleOnly_modify _).bind fun _ => (staleOnly_each (staleOnly_incEdge r) _).bind fun _ =>
      (staleOnly_each (staleOnly_decEdge r) _).bind fun _ => staleOnly_pure _

theorem staleOnly_putPayload (r : Handle) (payload : Payload) : (putPayload r payload).StaleOnly := by
  refine (staleOnly_entry r).bind fun e => ?_
  split
  · exact (staleOnly_replacePayload r payload).discard
  · exact staleOnly_modify _

theorem staleOnly_root (r : Handle) : (root r).StaleOnly :=
  (staleOnly_entry r).bind fun _ => staleOnly_modify _

theorem staleOnly_setReflection (key : Reflected) (r : Handle) : (setReflection key r).StaleOnly := by
  refine (staleOnly_root r).bind fun _ => staleOnly_get.bind fun h => (staleOnly_modify _).bind fun _ => ?_
  split
  · exact (staleOnly_entry _).bind fun _ => staleOnly_modify _
  · exact staleOnly_pure _

theorem staleOnly_create (c : ClassId) (payload : Payload) : (create c payload).StaleOnly := fun _ => trivial

theorem staleOnly_reflect (key : Reflected) : (reflect key).StaleOnly := by
  refine staleOnly_get.bind fun h => ?_
  split
  · exact staleOnly_pure _
  · exact (staleOnly_create _ _).bind fun r => (staleOnly_putPayload r _).bind fun _ =>
      (staleOnly_setReflection key r).bind fun _ => staleOnly_pure _

end Heap

namespace Copier

variable {α : Type} (source : Heap)

theorem staleOnly_onTarget {act : Act Heap α} (ha : act.StaleOnly) : (onTarget act).StaleOnly := by
  intro c
  have := ha c.target
  unfold Act.wp onTarget at *
  rcases h : act c.target with ⟨_ | _, _⟩
  · simpa [h] using this
  · trivial

theorem staleOnly_place (r : Handle) (o : Object) : (place r o).StaleOnly :=
  staleOnly_get.bind fun _ => (staleOnly_onTarget (Heap.staleOnly_create _ _)).bind fun _ =>
    (staleOnly_modify _).bind fun _ => staleOnly_pure _

theorem staleOnly_lodge (r : Handle) (o : Object) : (lodge r o).StaleOnly := by
  unfold lodge
  split
  · exact (staleOnly_onTarget (Heap.staleOnly_reflect _)).map some
  · exact staleOnly_pure _
  · exact (staleOnly_place r _).map some

theorem staleOnly_mapHandle (r : Handle) : (mapHandle source r).StaleOnly := by
  cases ho : source.object? r with
  | none =>
      unfold mapHandle
      rw [ho]
      exact staleOnly_throw
  | some o =>
      rw [mapHandle_eq ho]
      refine staleOnly_get.bind fun c => ?_
      split
      · exact staleOnly_pure _
      · refine (staleOnly_lodge r o).bind fun target => ?_
        cases target with
        | some target => exact (staleOnly_modify _).bind fun _ => staleOnly_pure _
        | none => exact staleOnly_pure _

theorem staleOnly_mapValue (v : Value) : (mapValue source v).StaleOnly := by
  cases v with
  | object r => exact staleOnly_mapHandle source r
  | none => exact staleOnly_pure _
  | scalar s => exact staleOnly_pure _

theorem staleOnly_mapPayload (payload : Payload) : (mapPayload source payload).StaleOnly := by
  cases payload with
  | array items =>
      simp only [mapPayload, Array.mapM_eq_mapM_toList]
      exact ((staleOnly_mapM (staleOnly_mapValue source) _).map _).map _
  | tuple items =>
      simp only [mapPayload, Array.mapM_eq_mapM_toList]
      exact ((staleOnly_mapM (staleOnly_mapValue source) _).map _).map _
  | bound b => exact (staleOnly_mapValue source _).bind fun _ => staleOnly_pure _
  | _ => exact staleOnly_pure _

theorem staleOnly_fill (origin target : Handle) : (fill source origin target).StaleOnly := by
  unfold fill
  split
  · exact staleOnly_throw
  · refine (staleOnly_forIn (fun e _ => ?_) _ _).bind fun _ => ?_
    · exact (staleOnly_mapValue source _).bind fun _ =>
        (staleOnly_onTarget (Heap.staleOnly_setMember _ _ _)).bind fun _ => staleOnly_pure _
    · exact (staleOnly_mapPayload source _).bind fun _ =>
        staleOnly_onTarget (Heap.staleOnly_replacePayload _ _).discard

theorem staleOnly_fillAll (fuel : Nat) : (fillAll source fuel).StaleOnly := by
  induction fuel with
  | zero => exact staleOnly_pure _
  | succ fuel ih =>
      refine staleOnly_get.bind fun c => ?_
      split
      · exact staleOnly_pure _
      · exact (staleOnly_modify _).bind fun _ => (staleOnly_fill source _ _).bind fun _ => ih

theorem staleOnly_copy (v : Value) : (copy source v).StaleOnly :=
  (staleOnly_mapValue source v).bind fun _ => (staleOnly_fillAll source _).bind fun _ => staleOnly_pure _

end Copier

end Spool
