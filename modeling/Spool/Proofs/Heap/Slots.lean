import Spool.Proofs.Heap.Moves

/-!
# What slots go through

Of a slot only two things matter to its handles: its generation, and whether it holds an object. Writes leave both alone.
A new object goes to the slot that has been freed last, or to one more at the end; an object that is reclaimed frees its
slot, whose generation moves on.
-/

namespace Spool

/-- The generation of a slot, and whether it holds an object. -/
def Slot.shape (slot : Slot) : Nat × Bool := (slot.generation, slot.entry.isSome)

namespace Heap

variable {h h' : Heap} {r : Handle} {i : Nat}

def shapes (h : Heap) : Array (Nat × Bool) := h.slots.map Slot.shape

@[simp] theorem size_shapes (h : Heap) : h.shapes.size = h.slots.size := Array.size_map

theorem vacant_iff : h.Vacant i ↔ ∃ generation, h.shapes[i]? = some (generation, false) := by
  simp only [Vacant, shapes, Array.getElem?_map, Option.map_eq_some_iff]
  constructor
  · rintro ⟨g, hs⟩
    exact ⟨g, _, hs, rfl⟩
  · rintro ⟨g, ⟨g', entry⟩, hs, heq⟩
    obtain rfl : entry = none := by simpa using (Prod.mk.inj heq).2
    exact ⟨g', hs⟩

theorem isLive_iff_shape : h.isLive r ↔ h.shapes[r.index]? = some (r.generation, true) := by
  simp only [isLive, Option.isSome_iff_exists, lookup?_eq_some, shapes, Array.getElem?_map, Option.map_eq_some_iff]
  constructor
  · rintro ⟨e, hs⟩
    exact ⟨_, hs, rfl⟩
  · rintro ⟨⟨g, entry⟩, hs, heq⟩
    obtain ⟨rfl, hsome⟩ := Prod.mk.inj heq
    obtain ⟨e, rfl⟩ := Option.isSome_iff_exists.1 hsome
    exact ⟨e, hs⟩

theorem countP_slots (h : Heap) : h.slots.countP (fun slot => slot.entry.isSome) = h.shapes.countP Prod.snd := by
  rw [shapes, Array.countP_map]
  rfl

/-- No object comes or goes. -/
structure Still (h h' : Heap) : Prop where
  shapes : h'.shapes = h.shapes
  free : h'.free = h.free
  live : h'.live = h.live
  allocated : h'.stats.allocated = h.stats.allocated
  reclaimed : h'.stats.reclaimed = h.stats.reclaimed

theorem Still.refl (h : Heap) : h.Still h := ⟨rfl, rfl, rfl, rfl, rfl⟩

theorem Still.trans {h₁ h₂ h₃ : Heap} (h : h₁.Still h₂) (h' : h₂.Still h₃) : h₁.Still h₃ :=
  ⟨h'.shapes.trans h.shapes, h'.free.trans h.free, h'.live.trans h.live, h'.allocated.trans h.allocated,
    h'.reclaimed.trans h.reclaimed⟩

theorem Still.isLive (hs : h.Still h') (x : Handle) : h'.isLive x = h.isLive x := by
  rw [Bool.eq_iff_iff, isLive_iff_shape, isLive_iff_shape, hs.shapes]

theorem Still.valid (hs : h.Still h') {v : Value} (hv : h.Valid v) : h'.Valid v := fun x hx => (hs.isLive x).trans (hv x hx)

theorem still_modifyEntry (h : Heap) (r : Handle) (f : Entry → Entry) : h.Still (h.modifyEntry r f) := by
  refine ⟨Array.ext_getElem? fun i => ?_, rfl, rfl, rfl, rfl⟩
  simp only [Heap.shapes, modifyEntry, Array.getElem?_map, Array.getElem?_modify]
  split
  · cases h.slots[i]? with
    | none => rfl
    | some slot =>
        simp only [Option.map_some, Slot.shape]
        split
        · simp
        · rfl
  · rfl

theorem still_incEdge (h : Heap) (parent child : Handle) : h.Still (incEdge parent child h).2 := by
  refine Act.wp.state (P := h.Still) ?_
  simp only [incEdge, Act.wp_bind, wp_entry, Act.wp_modify]
  cases h.lookup? child with
  | none => exact .refl h
  | some e => exact (still_modifyEntry h child _).trans ⟨rfl, rfl, rfl, rfl, rfl⟩

theorem still_decEdge (h : Heap) (parent child : Handle) : h.Still (decEdge parent child h).2 := by
  refine Act.wp.state (P := h.Still) ?_
  simp only [decEdge, Act.wp_bind, wp_entry]
  cases h.lookup? child with
  | none => exact .refl h
  | some e =>
      dsimp only
      cases e.parents.drop? parent with
      | none => exact .refl h
      | some parents =>
          simp only [Act.wp_modify]
          have hstill := still_modifyEntry h child
          split
          · exact (hstill _).trans ⟨rfl, rfl, rfl, rfl, rfl⟩
          · exact hstill _

theorem still_root (h : Heap) (r : Handle) : h.Still (root r h).2 := by
  refine Act.wp.state (P := h.Still) ?_
  simp only [root, Act.wp_bind, wp_entry, Act.wp_modify]
  cases h.lookup? r with
  | none => exact .refl h
  | some e => exact (still_modifyEntry h r _).trans ⟨rfl, rfl, rfl, rfl, rfl⟩

theorem still_unroot (h : Heap) (r : Handle) : h.Still (unroot r h).2 := by
  refine Act.wp.state (P := h.Still) ?_
  simp only [unroot, Act.wp_bind, wp_entry, Act.wp_modify]
  cases h.lookup? r with
  | none => exact .refl h
  | some e =>
      have hstill := still_modifyEntry h r
      dsimp only
      split
      · exact (hstill _).trans ⟨rfl, rfl, rfl, rfl, rfl⟩
      · exact hstill _

/-- Objects come in one way only. -/
theorem Move.still (hm : h.Move h') : h.Still h' ∨ ∃ c payload, h' = (h.allocate c payload).2 := by
  cases hm with
  | create c payload => exact .inr ⟨c, payload, rfl⟩
  | object r f => exact .inl (still_modifyEntry h r _)
  | incEdge parent child => exact .inl (still_incEdge h parent child)
  | decEdge parent child => exact .inl (still_decEdge h parent child)
  | root r => exact .inl (still_root h r)
  | unroot r => exact .inl (still_unroot h r)
  | reflections _ => exact .inl ⟨rfl, rfl, rfl, rfl, rfl⟩

/-! ## New objects -/

/-- The slot at the head of the free list takes the object, or a new one does. -/
inductive Lodges (h : Heap) (r : Handle) (h' : Heap) : Prop where
  | again (rest : List Nat) : h.free = r.index :: rest → h'.free = rest →
      h.shapes[r.index]? = some (r.generation, false) →
      h'.shapes = h.shapes.setIfInBounds r.index (r.generation, true) → Lodges h r h'
  | anew : h.free = [] → h'.free = [] → r = ⟨h.slots.size, 0⟩ → h'.shapes = h.shapes.push (0, true) → Lodges h r h'

theorem lodges_allocate (hv : ∀ i ∈ h.free, h.Vacant i) (c : ClassId) (payload : Payload) :
    h.Lodges (h.allocate c payload).1 (h.allocate c payload).2 := by
  unfold allocate
  cases hf : h.free with
  | nil => exact .anew hf rfl rfl (by simp [shapes, Slot.shape])
  | cons index rest =>
      obtain ⟨generation, hs⟩ := hv index (by rw [hf]; exact List.mem_cons_self)
      have hget : (h.slots.getD index default).generation = generation := by
        simp [Array.getD_eq_getD_getElem?, hs]
      have hlt : index < h.slots.size := (Array.getElem?_eq_some_iff.1 hs).1
      refine .again rest hf rfl ?_ (Array.ext_getElem? fun i => ?_)
      · simp [shapes, Slot.shape, hs]
      · simp only [shapes, Array.getElem?_map, Array.getElem?_modify, Array.getElem?_setIfInBounds, hget, Array.size_map]
        split
        · rename_i hi
          subst hi
          rw [hs]
          rfl
        · rfl

theorem counts_allocate (h : Heap) (c : ClassId) (payload : Payload) :
    (h.allocate c payload).2.live = h.live + 1 ∧ (h.allocate c payload).2.stats.allocated = h.stats.allocated + 1 ∧
      (h.allocate c payload).2.stats.reclaimed = h.stats.reclaimed := by
  unfold allocate
  cases h.free <;> exact ⟨rfl, rfl, rfl⟩

/-! ## Reclaimed objects -/

theorem still_dropParents (r : Handle) (children : List Handle) (h : Heap) :
    h.Still (children.foldl (fun h child => h.dropParent r child) h) := by
  induction children generalizing h with
  | nil => exact .refl h
  | cons child rest ih => exact (still_modifyEntry h child _).trans (ih _)

theorem still_reclaim (h : Heap) (r : Handle) (o : Object) : (h.vacate r).Still (h.reclaim r o) :=
  still_dropParents r o.edges (h.vacate r)

theorem shapes_vacate (hr : h.isLive r) :
    (h.vacate r).shapes = h.shapes.setIfInBounds r.index ((r.generation + 1) % 4294967296, false) := by
  have hlt := index_lt_of_isLive hr
  rw [isLive_iff_shape] at hr
  refine Array.ext_getElem? fun i => ?_
  simp only [shapes, vacate, Array.getElem?_map, Array.getElem?_modify, Array.getElem?_setIfInBounds, Array.size_map] at hr ⊢
  split
  · rename_i hi
    subst hi
    obtain ⟨slot, hs, heq⟩ := Option.map_eq_some_iff.1 hr
    simp only [hs, ← (Prod.mk.inj heq).1]
    rfl
  · rfl

theorem shapes_reclaim (hr : h.isLive r) (o : Object) :
    (h.reclaim r o).shapes = h.shapes.setIfInBounds r.index ((r.generation + 1) % 4294967296, false) :=
  (still_reclaim h r o).shapes.trans (shapes_vacate hr)

theorem shapes_finishCollection (h : Heap) (n : Nat) : (h.finishCollection n).shapes = h.shapes := rfl

theorem shapes_new (settings : HeapSettings) : (Heap.new settings).shapes = #[] := by
  simp [shapes, Heap.new]

/-! ## How many objects there are -/

theorem countP_shapes_of_free {g : Nat} (g' : Nat) (hi : h.shapes[i]? = some (g, false)) :
    (h.shapes.setIfInBounds i (g', true)).countP Prod.snd = h.shapes.countP Prod.snd + 1 := by
  obtain ⟨hlt, hget⟩ := Array.getElem?_eq_some_iff.1 hi
  rw [Array.setIfInBounds_def, dif_pos hlt, Array.countP_set, hget]
  simp

theorem countP_shapes_of_taken {g : Nat} (g' : Nat) (hi : h.shapes[i]? = some (g, true)) :
    (h.shapes.setIfInBounds i (g', false)).countP Prod.snd + 1 = h.shapes.countP Prod.snd := by
  obtain ⟨hlt, hget⟩ := Array.getElem?_eq_some_iff.1 hi
  have hpos : 0 < h.shapes.countP Prod.snd :=
    Array.countP_pos_iff.2 ⟨_, Array.getElem_mem hlt, by rw [hget]⟩
  rw [Array.setIfInBounds_def, dif_pos hlt, Array.countP_set, hget]
  simp only [if_true, Bool.false_eq_true, if_false]
  omega

end Heap

end Spool
