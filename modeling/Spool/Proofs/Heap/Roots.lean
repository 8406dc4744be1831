import Spool.Heap.Reflection
import Spool.Proofs.Heap.Writes

/-!
# Roots and reflections keep the edge graph

Rooting an object changes a count and nothing else. A reflection object is made once; from then on it is
rooted and found again.
-/

namespace Spool

theorem Reflected.values_payload (key : Reflected) : key.payload.values = [] := by
  cases key <;> rfl

namespace Heap

/-- The second heap shows the objects of the first, with other root counts. -/
structure Recounted (h : Heap) (count : Handle → Nat) (h' : Heap) : Prop where
  sound : h'.Sound
  object? : ∀ x, h'.object? x = h.object? x
  rootCount : ∀ x, h'.rootCount x = count x
  reflections : h'.reflections = h.reflections

theorem Recounted.isLive {h h' : Heap} {count : Handle → Nat} (hc : h.Recounted count h') (x : Handle) :
    h'.isLive x = h.isLive x := by
  rw [Bool.eq_iff_iff, isLive_iff, isLive_iff, hc.object? x]

/-- A change of an entry that touches neither the object nor the recorded edges. -/
theorem Sound.recounted {h : Heap} (hs : h.Sound) {r : Handle} {e : Entry} (he : h.lookup? r = some e)
    {f : Entry → Entry} (ho : ∀ e, (f e).object = e.object) (hp : ∀ e, (f e).parents = e.parents) :
    h.Recounted (fun x => if x = r then (f e).roots else h.rootCount x) (h.modifyEntry r f) where
  sound := by
    refine ⟨edgeGraph_of_recorded fun p c => ?_, hs.orderly.free_nodup,
      fun index hi => (hs.orderly.free_vacant index hi).modifyEntry r f,
      fun hx => hs.orderly.distinct ((object?_modifyEntry ho _).symm.trans hx)⟩
    have hr : (h.modifyEntry r f).recorded p c = h.recorded p c := by
      rw [recorded_modifyEntry]
      split <;> simp [recorded, hp]
    rw [hr, hs.edges.recorded_eq]
    simp [held, object?_modifyEntry ho]
  object? := object?_modifyEntry ho
  rootCount x := by
    simp only [Heap.rootCount, lookup?_modifyEntry]
    split
    · rename_i hx
      simp [hx, he]
    · rfl
  reflections := rfl

/-- What is kept beside the slots does not count. -/
theorem Sound.congr {h h' : Heap} (hs : h.Sound) (hslots : h'.slots = h.slots) (hfree : h'.free = h.free) : h'.Sound := by
  refine ⟨Pending.edgeGraph (Pending.congr hslots (hs.edges.pending default)), hfree ▸ hs.orderly.free_nodup,
    fun index hi => ?_, fun {r o} hx => hs.orderly.distinct (r := r) ?_⟩
  · simpa [Vacant, hslots] using hs.orderly.free_vacant index (hfree ▸ hi)
  · simpa [Heap.object?, lookup?_congr hslots] using hx

theorem Recounted.congr {h h₁ h₂ : Heap} {count : Handle → Nat} (hc : h.Recounted count h₁) (hslots : h₂.slots = h₁.slots)
    (hfree : h₂.free = h₁.free) (hreflections : h₂.reflections = h₁.reflections) : h.Recounted count h₂ where
  sound := hc.sound.congr hslots hfree
  object? x := by rw [← hc.object? x, Heap.object?, Heap.object?, lookup?_congr hslots]
  rootCount x := by rw [← hc.rootCount x, Heap.rootCount, Heap.rootCount, lookup?_congr hslots]
  reflections := hreflections.trans hc.reflections

theorem wp_root {h : Heap} (hs : h.Sound) (r : Handle) :
    (root r).wp h
      (fun _ h' => h.isLive r ∧ h.Recounted (fun x => if x = r then h.rootCount x + 1 else h.rootCount x) h')
      (h.Refused (h.isLive r)) := by
  simp only [root, Act.wp_bind, wp_entry, Act.wp_modify]
  cases he : h.lookup? r with
  | none => exact ⟨rfl, rfl, by simp [isLive, he]⟩
  | some e =>
      have hc := hs.recounted he (f := fun e => { e with roots := e.roots + 1 }) (fun _ => rfl) (fun _ => rfl)
      refine ⟨by simp [isLive, he], Recounted.congr ⟨hc.sound, hc.object?, fun x => ?_, hc.reflections⟩ rfl rfl rfl⟩
      rw [hc.rootCount]
      split
      · rename_i hx
        simp [hx, rootCount_of_lookup? he]
      · rfl

theorem wp_unroot {h : Heap} (hs : h.Sound) (r : Handle) :
    (unroot r).wp h
      (fun _ h' => h.isLive r ∧ h.Recounted (fun x => if x = r then h.rootCount x - 1 else h.rootCount x) h')
      (h.Refused (h.isLive r)) := by
  simp only [unroot, Act.wp_bind, wp_entry, Act.wp_modify]
  cases he : h.lookup? r with
  | none => exact ⟨rfl, rfl, by simp [isLive, he]⟩
  | some e =>
      have hc := hs.recounted he (f := fun e => { e with roots := e.roots - 1 }) (fun _ => rfl) (fun _ => rfl)
      have hdone : h.Recounted (fun x => if x = r then h.rootCount x - 1 else h.rootCount x)
          (h.modifyEntry r fun e => { e with roots := e.roots - 1 }) := by
        refine ⟨hc.sound, hc.object?, fun x => ?_, hc.reflections⟩
        rw [hc.rootCount]
        split
        · rename_i hx
          simp [hx, rootCount_of_lookup? he]
        · rfl
      refine ⟨by simp [isLive, he], ?_⟩
      split
      · exact hdone.congr rfl rfl rfl
      · exact hdone

/-! ## Reflections -/

theorem Sound.setReflections {h : Heap} (hs : h.Sound) (reflections : Bindings Reflected Handle) :
    ({ h with reflections } : Heap).Sound :=
  hs.congr rfl rfl

/-- The graph is kept even if the object that was the reflection before is dead by now. -/
theorem sound_setReflection {h : Heap} (hs : h.Sound) (key : Reflected) (r : Handle) :
    (setReflection key r).wp h (fun _ h' => h'.Sound) (fun _ h' => h'.Sound) := by
  simp only [setReflection, Act.wp_bind]
  refine Act.wp_mono (wp_root hs r) (fun _ h₁ hdone => ?_) (fun _ h' hfault => hfault.1 ▸ hs)
  obtain ⟨_, hc⟩ := hdone
  simp only [Act.wp_getThe, Act.wp_modify]
  have hs₁ := hc.sound.setReflections (h₁.reflections.insert key r)
  split
  · rename_i previous _
    exact Act.wp_mono (wp_unroot hs₁ previous) (fun _ _ h => h.2.sound) (fun _ _ h => h.1 ▸ hs₁)
  · exact hs₁

/-- A reflection object is there already, or it is made and rooted. -/
structure Reflects (h : Heap) (key : Reflected) (r : Handle) (h' : Heap) : Prop where
  sound : h'.Sound
  fresh : h.object? r = none
  object? : ∀ x, h'.object? x
    = if x = r then some { ofClass := key.metaclass, payload := key.payload } else h.object? x
  rootCount : ∀ x, h'.rootCount x = if x = r then 1 else h.rootCount x
  reflections : h'.reflections = h.reflections.insert key r

theorem wp_reflect {h : Heap} (hs : h.Sound) (key : Reflected) :
    (reflect key).wp h
      (fun r h' => (h.reflection? key = some r ∧ h' = h) ∨ (h.reflection? key = none ∧ h.Reflects key r h'))
      (fun _ _ => False) := by
  simp only [reflect, Act.wp_bind, Act.wp_getThe]
  cases hk : h.reflection? key with
  | some r => exact .inl ⟨rfl, rfl⟩
  | none =>
      simp only [Act.wp_bind]
      refine Act.wp_mono (wp_create hs key.metaclass rfl) (fun r h₁ hdone => ?_) (fun _ _ => False.elim)
      obtain ⟨hfresh, hw₁⟩ := hdone
      refine Act.wp_mono (wp_putPayload hw₁.sound r key.payload) (fun _ h₂ hdone => ?_) (fun e _ he => ?_)
      · obtain ⟨_, o, ho, hw₂⟩ := hdone
        rw [hw₁.puts.self] at ho
        cases ho
        have hp := hw₁.puts.trans hw₂.puts
        simp only [setReflection, Act.wp_bind]
        refine Act.wp_mono (wp_root hw₂.sound r) (fun _ h₃ hdone => ?_) (fun e _ he => ?_)
        · obtain ⟨_, hc⟩ := hdone
          have hnone : h₃.reflection? key = none := by
            rw [← hk]
            simp only [reflection?, hc.reflections, hp.reflections]
          simp only [Act.wp_getThe, hnone, Act.wp_modify, Act.wp_pure]
          refine .inr ⟨trivial, hc.sound.setReflections _, hfresh, fun x => ?_, fun x => ?_, ?_⟩
          · exact (hc.object? x).trans (hp.object? x)
          · refine (hc.rootCount x).trans ?_
            split
            · rename_i hx
              simp [hx, hp.rootCount, rootCount_eq_zero hfresh]
            · exact hp.rootCount x
          · simp [hc.reflections, hp.reflections]
        · exact he.2.2 (isLive_of_object? hp.self)
      · refine he.2.2 ⟨isLive_of_object? hw₁.puts.self, ?_⟩
        simp [key.values_payload]

end Heap

end Spool
