import Spool.Proofs.Heap.Collect
import Spool.Proofs.Heap.Copy
import Spool.Proofs.Registry.Calm

/-!
# The payloads in a heap

Few payloads are tied to something outside the heap: those of futures and tasks to a task, those of function
references and contexts to a context. What is true of all payloads that have no such tie stays true of the payloads in a
heap, whatever is done to the heap, as long as it is true of each payload that is written.
-/

namespace Spool

/-- The payload is tied to no task and to no context. -/
def Payload.isLoose : Payload → Bool
  | bound b => b.capture.isNone
  | future _ => false
  | task _ => false
  | context _ => false
  | _ => true

theorem Payload.isLoose_reflected (key : Reflected) : key.payload.isLoose := by
  cases key <;> rfl

theorem Registry.isLoose_seed (registry : Registry) (c : ClassId) : (registry.seed c).isLoose := by
  unfold Registry.seed
  split
  · rename_i s _
    cases s <;> rfl
  · rfl

namespace Heap

variable {h h' : Heap} {Q : Payload → Prop}

/-- It is true of the payload of every object. -/
def Each (Q : Payload → Prop) (h : Heap) : Prop := ∀ r o, h.object? r = some o → Q o.payload

theorem Each.of_sub (hk : h.Each Q) (hs : ∀ r o, h'.object? r = some o → h.object? r = some o) : h'.Each Q :=
  fun r o ho => hk r o (hs r o ho)

theorem each_new (settings : HeapSettings) : (Heap.new settings).Each Q := by
  intro r o ho
  simp [object?, lookup?, Heap.new] at ho

/-! ## Entries -/

theorem Each.modifyEntry (hk : h.Each Q) (r : Handle) {f : Entry → Entry}
    (hf : ∀ e, Q e.object.payload → Q (f e).object.payload) : (h.modifyEntry r f).Each Q := by
  intro x o ho
  obtain ⟨e, he, rfl⟩ := lookup?_of_object? ho
  rw [lookup?_modifyEntry] at he
  split at he
  · obtain ⟨old, hold, rfl⟩ := Option.map_eq_some_iff.1 he
    exact hf old (hk x _ (object?_of_lookup? hold))
  · exact hk x _ (object?_of_lookup? he)

/-- The object stays as it is. -/
theorem Each.modifyEntry_frame (hk : h.Each Q) (r : Handle) {f : Entry → Entry}
    (hf : ∀ e, (f e).object = e.object) : (h.modifyEntry r f).Each Q :=
  hk.modifyEntry r fun e hq => (hf e).symm ▸ hq

/-- A handle leads to an old object or to the new one. -/
theorem object?_of_allocate {c : ClassId} {payload : Payload} {r : Handle} {o : Object}
    (ho : (h.allocate c payload).2.object? r = some o) : h.object? r = some o ∨ o = { ofClass := c, payload } := by
  obtain ⟨e, he, rfl⟩ := lookup?_of_object? ho
  rw [lookup?_eq_some] at he
  have hold : h.slots[r.index]? = some ⟨r.generation, some e⟩ → h.object? r = some e.object := fun hs =>
    object?_of_lookup? (lookup?_eq_some.2 hs)
  unfold Heap.allocate at he
  dsimp only at he
  split at he
  · simp only [Array.getElem?_modify] at he
    split at he
    · obtain ⟨slot, _, hslot⟩ := Option.map_eq_some_iff.1 he
      exact .inr (congrArg Entry.object (Option.some.inj (Slot.mk.inj hslot).2).symm)
    · exact .inl (hold he)
  · simp only [Array.getElem?_push] at he
    split at he
    · exact .inr (congrArg Entry.object (Option.some.inj (Slot.mk.inj (Option.some.inj he)).2).symm)
    · exact .inl (hold he)

theorem Each.allocate (hk : h.Each Q) (c : ClassId) {payload : Payload} (hp : Q payload) :
    (h.allocate c payload).2.Each Q := by
  intro r o ho
  rcases object?_of_allocate ho with hold | rfl
  · exact hk r o hold
  · exact hp

/-! ## Writing -/

theorem preserves_requireLive {P : Heap → Prop} (r : Handle) : Preserves P (requireLive r) := by
  unfold requireLive
  refine preserves_get fun h _ => ?_
  split
  · exact preserves_pure _
  · exact preserves_throw _

theorem preserves_requireStorable {P : Heap → Prop} (v : Value) : Preserves P (requireStorable v) := by
  cases v with
  | object r => exact preserves_requireLive r
  | none => exact preserves_pure _
  | scalar s => exact preserves_pure _

theorem preserves_entry {P : Heap → Prop} (r : Handle) : Preserves P (entry r) := by
  unfold entry
  refine preserves_get fun h _ => ?_
  split
  · exact preserves_pure _
  · exact preserves_throw _

theorem preserves_handles {P : Heap → Prop} {f : Handle → Act Heap PUnit} (hf : ∀ r, Preserves P (f r)) (rs : List Handle) :
    Preserves P (forIn rs PUnit.unit fun r _ => do f r; pure (ForInStep.yield PUnit.unit)) :=
  preserves_forIn (fun r _ => preserves_bind (hf r) fun _ => preserves_pure _) rs _

/-- Only objects have a say in it, not edges, roots, candidates and statistics. -/
structure Aloof (P : Heap → Prop) : Prop where
  entry : ∀ {h} r f, (∀ e : Entry, (f e).object = e.object) → P h → P (h.modifyEntry r f)
  books : ∀ {h} stats pending overflown, P h → P { h with stats, pending, overflown }

namespace Aloof

variable {P P' : Heap → Prop}

theorem and (hP : Aloof P) (hP' : Aloof P') : Aloof fun h => P h ∧ P' h :=
  ⟨fun r f hf hk => ⟨hP.entry r f hf hk.1, hP'.entry r f hf hk.2⟩,
    fun s c o hk => ⟨hP.books s c o hk.1, hP'.books s c o hk.2⟩⟩

section
variable (hP : Aloof P)
include hP

theorem incEdge (parent child : Handle) : Preserves P (incEdge parent child) := by
  unfold Heap.incEdge
  refine preserves_bind (preserves_entry child) fun e => preserves_modify fun h hk => ?_
  have hm := hP.entry child (fun e => { e with parents := e.parents.add parent }) (fun _ => rfl) hk
  have hnoted := hP.books h.stats (h.keep child).pending (h.noteCount (e.parents.count parent + 1)).overflown hm
  exact hnoted

theorem decEdge (parent child : Handle) : Preserves P (decEdge parent child) := by
  unfold Heap.decEdge
  refine preserves_bind (preserves_entry child) fun e => ?_
  split
  · exact preserves_pure _
  · rename_i parents _
    refine preserves_modify fun h hk => ?_
    have hm := hP.entry child (fun e => { e with parents }) (fun _ => rfl) hk
    dsimp only
    split
    · have hlost := hP.books { h.stats with candidates := h.stats.candidates + 1 } (h.nominate child).pending h.overflown hm
      exact hlost
    · exact hm

theorem link (parent : Handle) (v : Value) : Preserves P (link parent v) := by
  cases v with
  | object r => exact hP.incEdge parent r
  | none => exact preserves_pure _
  | scalar s => exact preserves_pure _

theorem unlink (parent : Handle) (v : Value) : Preserves P (unlink parent v) := by
  cases v with
  | object r => exact hP.decEdge parent r
  | none => exact preserves_pure _
  | scalar s => exact preserves_pure _

theorem relink (parent : Handle) (old new : Value) : Preserves P (relink parent old new) := by
  unfold Heap.relink
  split
  · exact preserves_pure _
  · exact preserves_bind (hP.unlink parent old) fun _ => hP.link parent new

theorem setMember (r : Handle) (name : String) (v : Value)
    (hset : ∀ h, P h → P (h.modifyObject r fun o => { o with members := o.members.insert name v })) :
    Preserves P (setMember r name v) := by
  unfold Heap.setMember
  refine preserves_bind (preserves_requireStorable v) fun _ => preserves_bind (preserves_entry r) fun e => ?_
  exact preserves_bind (preserves_modify hset) fun _ => hP.relink r _ v

theorem replacePayload (r : Handle) {payload : Payload} (hset : ∀ h, P h → P (h.setPayload r payload)) :
    Preserves P (replacePayload r payload) := by
  unfold Heap.replacePayload
  refine preserves_bind (preserves_handles preserves_requireLive _) fun _ => preserves_bind (preserves_entry r) fun e => ?_
  refine preserves_bind (preserves_modify hset) fun _ => ?_
  refine preserves_bind (preserves_handles (hP.incEdge r) _) fun _ => ?_
  exact preserves_bind (preserves_handles (hP.decEdge r) _) fun _ => preserves_pure _

theorem putPayload (r : Handle) {payload : Payload} (hset : ∀ h, P h → P (h.setPayload r payload)) :
    Preserves P (putPayload r payload) := by
  unfold Heap.putPayload
  refine preserves_bind (preserves_entry r) fun e => ?_
  split
  · exact preserves_discard (hP.replacePayload r hset)
  · exact preserves_modify hset

theorem root (r : Handle) : Preserves P (root r) := by
  unfold Heap.root
  refine preserves_bind (preserves_entry r) fun e => preserves_modify fun h hk => ?_
  have hm := hP.entry r (fun e => { e with roots := e.roots + 1 }) (fun _ => rfl) hk
  have hnoted := hP.books h.stats (h.keep r).pending (h.noteCount (e.roots + 1)).overflown hm
  exact hnoted

theorem unroot (r : Handle) : Preserves P (unroot r) := by
  unfold Heap.unroot
  refine preserves_bind (preserves_entry r) fun e => preserves_modify fun h hk => ?_
  have hm := hP.entry r (fun e => { e with roots := e.roots - 1 }) (fun _ => rfl) hk
  dsimp only
  split
  · have hlost := hP.books h.stats (h.nominate r).pending h.overflown hm
    exact hlost
  · exact hm

theorem setReflection (key : Reflected) (r : Handle)
    (hset : ∀ h, P h → P { h with reflections := h.reflections.insert key r }) : Preserves P (setReflection key r) := by
  unfold Heap.setReflection
  refine preserves_bind (hP.root r) fun _ => preserves_get fun h _ => preserves_bind (preserves_modify hset) fun _ => ?_
  split
  · exact hP.unroot _
  · exact preserves_pure _

end

end Aloof

/-- Edges, members, candidates and statistics have no say in it. -/
structure Impervious (P : Heap → Prop) : Prop where
  modifyEntry : ∀ h r f, (∀ e : Entry, (f e).object.payload = e.object.payload) → P h → P (h.modifyEntry r f)
  books : ∀ h stats pending overflown, P h → P { h with stats, pending, overflown }

namespace Impervious

variable {P : Heap → Prop} (hP : Impervious P)
include hP

theorem aloof : Aloof P :=
  ⟨fun r f hf hk => hP.modifyEntry _ r f (fun e => by rw [hf]) hk, fun s c o hk => hP.books _ s c o hk⟩

theorem setMember (r : Handle) (name : String) (v : Value) : Preserves P (setMember r name v) :=
  hP.aloof.setMember r name v fun h hk => hP.modifyEntry h r _ (fun _ => rfl) hk

theorem replacePayload (r : Handle) {payload : Payload} (hset : ∀ h, P h → P (h.setPayload r payload)) :
    Preserves P (replacePayload r payload) :=
  hP.aloof.replacePayload r hset

end Impervious

theorem impervious_each : Impervious (Each Q) :=
  ⟨fun _ r _ hf hk => hk.modifyEntry r fun e hq => (hf e).symm ▸ hq, fun _ _ _ _ hk => hk⟩

theorem each_setMember (r : Handle) (name : String) (v : Value) : Preserves (Each Q) (setMember r name v) :=
  impervious_each.setMember r name v

theorem Each.setPayload (hk : h.Each Q) (r : Handle) {payload : Payload} (hp : Q payload) :
    (h.setPayload r payload).Each Q :=
  hk.modifyEntry r fun _ _ => hp

theorem each_replacePayload (r : Handle) {payload : Payload} (hp : Q payload) :
    Preserves (Each Q) (replacePayload r payload) :=
  impervious_each.replacePayload r fun _ hk => hk.setPayload r hp

theorem each_putPayload (r : Handle) {payload : Payload} (hp : Q payload) :
    Preserves (Each Q) (putPayload r payload) :=
  impervious_each.aloof.putPayload r fun _ hk => hk.setPayload r hp

/-! ## New objects and roots -/

theorem each_create (c : ClassId) {payload : Payload} (hp : Q payload) : Preserves (Each Q) (create c payload) :=
  fun _ hk => hk.allocate c hp

theorem each_createWith (c : ClassId) {seed payload : Payload} (hs : Q seed) (hp : Q payload) :
    Preserves (Each Q) (createWith c seed payload) := by
  unfold createWith
  refine preserves_bind (each_create c hs) fun r => ?_
  exact preserves_bind (preserves_discard (each_replacePayload r hp)) fun _ => preserves_pure _

theorem each_root (r : Handle) : Preserves (Each Q) (root r) := impervious_each.aloof.root r

theorem each_unroot (r : Handle) : Preserves (Each Q) (unroot r) := impervious_each.aloof.unroot r

theorem each_setReflection (key : Reflected) (r : Handle) : Preserves (Each Q) (setReflection key r) :=
  impervious_each.aloof.setReflection key r fun _ hk => hk

/-! ## Collecting garbage -/

theorem object?_of_vacate {r x : Handle} {o : Object} (ho : (h.vacate r).object? x = some o) : h.object? x = some o := by
  obtain ⟨e, he, rfl⟩ := lookup?_of_object? ho
  rw [lookup?_eq_some] at he
  simp only [Heap.vacate, Array.getElem?_modify] at he
  split at he
  · obtain ⟨slot, _, hslot⟩ := Option.map_eq_some_iff.1 he
    cases (Slot.mk.inj hslot).2
  · exact object?_of_lookup? (lookup?_eq_some.2 he)

/-- A collection makes no objects and changes none. -/
theorem object?_of_collect {registry : Registry} {provider : RootProvider} {r : Handle} {o : Object}
    (ho : (h.collect registry provider).2.object? r = some o) : h.object? r = some o := by
  obtain ⟨h', hkept, hdone⟩ := collect_induction (P := fun _ h' => h'.object? r = some o → h.object? r = some o) id
    (fun {_ h₁ x d} _ hkept ho => hkept (by
      rw [reclaim, (alike_dropParents x d.edges (h₁.vacate x)).object?] at ho
      exact object?_of_vacate ho)) registry provider
  rw [hdone, object?_finishCollection] at ho
  exact hkept ho

theorem Each.collect (hk : h.Each Q) (registry : Registry) (provider : RootProvider) :
    (h.collect registry provider).2.Each Q :=
  hk.of_sub fun _ _ => object?_of_collect

section
variable (hQ : ∀ p : Payload, p.isLoose → Q p)
include hQ

/-! ## Items -/

theorem each_arrayPush (r : Handle) (v : Value) : Preserves (Each Q) (arrayPush r v) := by
  have hpush : ∀ p, Q p → Q (pushItem v p) := by
    intro p hp
    cases p with
    | array items => exact hQ _ rfl
    | _ => exact hp
  unfold arrayPush
  refine preserves_bind (preserves_requireStorable v) fun _ => preserves_bind (preserves_entry r) fun e => ?_
  split
  · exact preserves_throw _
  · exact preserves_bind (preserves_modify fun h hk => hk.modifyEntry r fun e hq => hpush _ hq) fun _ =>
      preserves_bind (impervious_each.aloof.link r v) fun _ => preserves_pure _

theorem each_arrayPop (r : Handle) : Preserves (Each Q) (arrayPop r) := by
  have hpop : ∀ p, Q p → Q (popItem p) := by
    intro p hp
    cases p with
    | array items => exact hQ _ rfl
    | _ => exact hp
  unfold arrayPop
  refine preserves_bind (preserves_entry r) fun e => ?_
  split
  · exact preserves_throw _
  · exact preserves_bind (preserves_modify fun h hk => hk.modifyEntry r fun e hq => hpop _ hq) fun _ =>
      preserves_bind (impervious_each.aloof.unlink r _) fun _ => preserves_pure _

theorem each_slotSet (r : Handle) (i : Int64) (v : Value) : Preserves (Each Q) (slotSet r i v) := by
  have hstore : ∀ p, Q p → Q (storeItem i.toNatClampNeg v p) := by
    intro p hp
    cases p with
    | array items => exact hQ _ rfl
    | tuple items => exact hQ _ rfl
    | _ => exact hp
  unfold slotSet
  refine preserves_bind (preserves_requireStorable v) fun _ => preserves_bind (fun _ h => h) fun old => ?_
  exact preserves_bind (preserves_modify fun h hk => hk.modifyEntry r fun e hq => hstore _ hq) fun _ => impervious_each.aloof.relink r _ v

theorem each_reflect (key : Reflected) : Preserves (Each Q) (reflect key) := by
  unfold reflect
  refine preserves_get fun h _ => ?_
  split
  · exact preserves_pure _
  · refine preserves_bind (each_create _ (hQ _ rfl)) fun r => ?_
    refine preserves_bind (each_putPayload r (hQ _ (Payload.isLoose_reflected key))) fun _ => ?_
    exact preserves_bind (each_setReflection key r) fun _ => preserves_pure _

end

end Heap

/-! ## Copying -/

namespace Copier

variable {Q : Payload → Prop} {source : Heap} {α β : Type}

/-- It is true of the payloads in the target, and what has yet to be filled means something there. -/
structure Each (Q : Payload → Prop) (source : Heap) (c : Copier) : Prop where
  target : c.target.Each Q
  unfilled : ∀ x ∈ c.unfilled, ∀ o, source.object? x.1 = some o → o.payload.fate ≠ .dropped

theorem each_start (source : Heap) {target : Heap} (ht : target.Each Q) (registry : Registry) :
    (Copier.new source target registry).Each Q source :=
  ⟨ht, by simp [Copier.new]⟩

theorem each_onTarget {act : Act Heap α} (ha : Preserves (Heap.Each Q) act) :
    Preserves (Each Q source) (onTarget act) :=
  fun c hc => ⟨ha c.target hc.target, hc.unfilled⟩

theorem each_remember (r t : Handle) : Preserves (Each Q source) (remember r t) :=
  preserves_modify fun _ hc => ⟨hc.target, hc.unfilled⟩

theorem each_mapM {f : α → Act Copier β} (hf : ∀ a, Preserves (Each Q source) (f a)) (xs : List α) :
    Preserves (Each Q source) (xs.mapM f) := by
  induction xs with
  | nil => exact preserves_pure _
  | cons a rest ih =>
      rw [List.mapM_cons]
      exact preserves_bind (hf a) fun _ => preserves_bind ih fun _ => preserves_pure _

section
variable (hQ : ∀ p : Payload, p.isLoose → Q p)
include hQ

theorem each_place {r : Handle} {o : Object} (ho : source.object? r = some o) (hfate : o.payload.fate ≠ .dropped) :
    Preserves (Each Q source) (place r o) := by
  unfold place
  refine preserves_get fun c _ => preserves_bind (each_onTarget (Heap.each_create _ (hQ _ ?_))) fun t => ?_
  · exact c.registry.isLoose_seed _
  · refine preserves_bind (preserves_modify fun c hc => ⟨hc.target, ?_⟩) fun _ => preserves_pure _
    intro x hx o' ho'
    rcases List.mem_cons.1 hx with rfl | hx
    · cases ho.symm.trans ho'
      exact hfate
    · exact hc.unfilled x hx o' ho'

theorem each_mapHandle (r : Handle) : Preserves (Each Q source) (mapHandle source r) := by
  cases ho : source.object? r with
  | none =>
      unfold mapHandle
      rw [ho]
      exact preserves_throw _
  | some o =>
      have hlodge : Preserves (Each Q source) (lodge r o) := by
        unfold lodge
        cases hfate : o.payload.fate with
        | reflected key => exact preserves_map (each_onTarget (Heap.each_reflect hQ key))
        | dropped => exact preserves_pure _
        | copied => exact preserves_map (each_place hQ ho (by simp [hfate]))
      rw [mapHandle_eq ho]
      refine preserves_get fun c _ => ?_
      split
      · exact preserves_pure _
      · refine preserves_bind hlodge fun target => ?_
        cases target with
        | some target => exact preserves_bind (each_remember r target) fun _ => preserves_pure _
        | none => exact preserves_pure _

theorem each_mapValue (v : Value) : Preserves (Each Q source) (mapValue source v) := by
  cases v with
  | object r => exact each_mapHandle hQ r
  | none => exact preserves_pure _
  | scalar s => exact preserves_pure _

/-- What becomes of a payload that means something elsewhere has no ties. -/
theorem each_fillPayload (t : Handle) {p : Payload} (hp : p.fate ≠ .dropped) : Preserves (Each Q source) (do
    let payload ← mapPayload source p
    onTarget (discard <| Heap.replacePayload t payload)) := by
  have hwrite : ∀ payload : Payload, payload.isLoose →
      Preserves (Each Q source) (onTarget (discard <| Heap.replacePayload t payload)) := fun payload hl =>
    each_onTarget (preserves_discard (Heap.each_replacePayload t (hQ payload hl)))
  have hitems : ∀ (items : Array Value) (f : Array Value → Payload), (∀ items, (f items).isLoose) →
      Preserves (Each Q source) (do
        let payload ← f <$> items.mapM (mapValue source)
        onTarget (discard <| Heap.replacePayload t payload)) := by
    intro items f hf
    simp only [Array.mapM_eq_mapM_toList, bind_map_left]
    exact preserves_bind (each_mapM (each_mapValue hQ) _) fun _ => hwrite _ (hf _)
  cases p with
  | array items => exact hitems items .array fun _ => rfl
  | tuple items => exact hitems items .tuple fun _ => rfl
  | bound b =>
      simp only [mapPayload, bind_assoc, pure_bind]
      exact preserves_bind (each_mapValue hQ b.receiver) fun _ => hwrite _ rfl
  | future cell => exact absurd rfl hp
  | task t => exact absurd rfl hp
  | context c => exact absurd rfl hp
  | _ =>
      simp only [mapPayload, pure_bind]
      exact hwrite _ rfl

theorem each_fill {r : Handle} (t : Handle) (hr : ∀ o, source.object? r = some o → o.payload.fate ≠ .dropped) :
    Preserves (Each Q source) (fill source r t) := by
  unfold fill
  split
  · exact preserves_throw _
  · rename_i o ho
    refine preserves_bind (preserves_forIn (fun e _ => ?_) _ _) fun _ => each_fillPayload hQ t (hr o ho)
    refine preserves_bind (each_mapValue hQ _) fun v => ?_
    exact preserves_bind (each_onTarget (Heap.each_setMember t _ v)) fun _ => preserves_pure _

theorem each_fillAll (fuel : Nat) : Preserves (Each Q source) (fillAll source fuel) := by
  induction fuel with
  | zero => exact preserves_pure _
  | succ fuel ih =>
      intro c hc
      rw [fillAll_succ]
      cases hu : c.unfilled with
      | nil => exact hc
      | cons x rest =>
          have hrest : ({ c with unfilled := rest } : Copier).Each Q source :=
            ⟨hc.target, fun y hy => hc.unfilled y (by simp [hu, hy])⟩
          exact preserves_bind (each_fill hQ x.2 (hc.unfilled x (by simp [hu]))) (fun _ => ih) _ hrest

theorem each_copy (v : Value) : Preserves (Each Q source) (copy source v) :=
  preserves_bind (each_mapValue hQ v) fun _ => preserves_bind (each_fillAll hQ _) fun _ => preserves_pure _

end

end Copier

end Spool
