import Spool.Proofs.Heap.Roots

/-!
# Heaps that lose nothing

Between two collections a heap loses nothing: what is live stays live, and what an object keeps alive outside the
heap changes only for the object that is written to. Roots are set and dropped by their owners, so most operations of
the heap give a root to new reflections and leave all others as they are.
-/

namespace Spool.Heap

variable {h h' h₁ h₂ : Heap} {X : External → Prop}

/-- Nothing has been lost. The objects that keep something new alive outside the heap keep what `X` allows. -/
structure Extends (X : External → Prop) (h h' : Heap) : Prop where
  sound : h'.Sound
  isLive : ∀ r, h.isLive r → h'.isLive r
  external : ∀ r o' x, h'.object? r = some o' → o'.payload.external? = some x →
    X x ∨ ∃ o, h.object? r = some o ∧ o.payload.external? = some x
  keys : h.reflections.Distinct → h'.reflections.Distinct

/-- Nothing has been lost, and the reflections that have come have brought their roots along, and no others. -/
structure Gains (X : External → Prop) (h h' : Heap) : Prop extends h.Extends X h' where
  roots : ∀ r, h'.reflections.values.count r + h.rootCount r = h.reflections.values.count r + h'.rootCount r

/-- Nothing outside the heap is kept alive. -/
def Nowhere (_ : External) : Prop := False

theorem Extends.refl (hs : h.Sound) : h.Extends X h :=
  ⟨hs, fun _ => id, fun _ o _ ho hx => .inr ⟨o, ho, hx⟩, id⟩

theorem Gains.of_eq (hs : h.Sound) (he : h' = h) : h.Gains X h' := by
  subst he
  exact ⟨.refl hs, fun _ => rfl⟩

theorem Gains.refl (hs : h.Sound) : h.Gains X h := .of_eq hs rfl

theorem Extends.trans (h : h₁.Extends X h₂) {h₃ : Heap} (h' : h₂.Extends X h₃) : h₁.Extends X h₃ where
  sound := h'.sound
  isLive r hr := h'.isLive r (h.isLive r hr)
  external r o x ho hx := by
    rcases h'.external r o x ho hx with hX | ⟨o₂, ho₂, hx₂⟩
    · exact .inl hX
    · exact h.external r o₂ x ho₂ hx₂
  keys hk := h'.keys (h.keys hk)

theorem Gains.trans (h : h₁.Gains X h₂) {h₃ : Heap} (h' : h₂.Gains X h₃) : h₁.Gains X h₃ :=
  ⟨h.toExtends.trans h'.toExtends, fun r => by
    have := h.roots r
    have := h'.roots r
    omega⟩

theorem Extends.valid (hg : h.Extends X h') {v : Value} (hv : h.Valid v) : h'.Valid v :=
  fun r hr => hg.isLive r (hv r hr)

theorem Recounted.extend {count : Handle → Nat} (hc : h.Recounted count h') : h.Extends X h' where
  sound := hc.sound
  isLive r hr := by
    rw [hc.isLive]
    exact hr
  external r o x ho hx := .inr ⟨o, hc.object? r ▸ ho, hx⟩
  keys hk := hc.reflections ▸ hk

/-- Each reflection object has a root of its own. -/
def Mirrored (h : Heap) : Prop := ∀ r, h.reflections.values.count r ≤ h.rootCount r

theorem Mirrored.rooted (hm : h.Mirrored) {key : Reflected} {r : Handle} (hr : h.reflection? key = some r) :
    0 < h.rootCount r :=
  Nat.lt_of_lt_of_le (List.count_pos_iff.2 (Bindings.mem_values_of_get? hr)) (hm r)

theorem Mirrored.isLive (hm : h.Mirrored) {key : Reflected} {r : Handle} (hr : h.reflection? key = some r) :
    h.isLive r := isLive_of_rootCount (hm.rooted hr)

theorem Mirrored.gains (hm : h.Mirrored) (hg : h.Gains X h') : h'.Mirrored := by
  intro r
  have := hg.roots r
  have := hm r
  omega

/-! ## Writes -/

theorem Written.gains {r : Handle} {o' : Object} (hw : h.Written r o' h')
    (hx : ∀ x, o'.payload.external? = some x →
      X x ∨ ∃ o, h.object? r = some o ∧ o.payload.external? = some x) : h.Gains X h' where
  sound := hw.sound
  isLive _ := hw.puts.isLive
  external x o y ho hy := by
    rw [hw.puts.object?] at ho
    split at ho
    · rename_i hxr
      cases ho
      exact hxr ▸ hx y hy
    · exact .inr ⟨o, ho, hy⟩
  keys hk := hw.puts.reflections ▸ hk
  roots x := by
    rw [hw.puts.reflections, hw.puts.rootCount]

/-- An action that loses nothing and never meets a dead handle. -/
def Safe {α : Type} (X : External → Prop) (act : Act Heap α) (h : Heap) (P : α → Heap → Prop) : Prop :=
  act.wp h (fun a h' => h.Gains X h' ∧ P a h') (fun e h' => h.Gains X h' ∧ e ≠ .stale)

theorem Safe.bind {α β : Type} {act : Act Heap α} {k : α → Act Heap β} {P : α → Heap → Prop} {Q : β → Heap → Prop}
    (ha : Safe X act h P) (hk : ∀ a h', h.Gains X h' → P a h' → Safe X (k a) h' Q) : Safe X (act >>= k) h Q := by
  unfold Safe
  rw [Act.wp_bind]
  refine Act.wp_mono ha (fun a h₁ hdone => ?_) (fun _ _ => id)
  obtain ⟨hg, hp⟩ := hdone
  exact Act.wp_mono (hk a h₁ hg hp) (fun _ _ h => ⟨hg.trans h.1, h.2⟩) (fun _ _ h => ⟨hg.trans h.1, h.2⟩)

theorem safe_create (hs : h.Sound) (c : ClassId) {payload : Payload} (he : payload.edges = [])
    (hx : payload.external? = none) : Safe X (create c payload) h fun r h' => h'.isLive r := by
  refine Act.wp_mono (wp_create hs c he) (fun r h' hdone => ?_) (fun _ _ => False.elim)
  obtain ⟨_, hw⟩ := hdone
  exact ⟨hw.gains (by simp [hx]), isLive_of_object? hw.puts.self⟩

theorem safe_createWith (hs : h.Sound) (c : ClassId) {seed payload : Payload} (he : seed.edges = [])
    (hv : ∀ v ∈ payload.values, h.Valid v) (hx : payload.external? = none) :
    Safe X (createWith c seed payload) h fun r h' => h'.isLive r := by
  refine Act.wp_mono (wp_createWith hs c he payload) (fun r h' hdone => ?_) (fun _ _ he => absurd hv he.2.2)
  obtain ⟨_, hw⟩ := hdone
  exact ⟨hw.gains (by simp [hx]), isLive_of_object? hw.puts.self⟩

theorem safe_setMember (hs : h.Sound) {r : Handle} (hr : h.isLive r) (name : String) {v : Value} (hv : h.Valid v) :
    Safe X (setMember r name v) h fun _ _ => True := by
  refine Act.wp_mono (wp_setMember hs r name v) (fun _ h' hdone => ?_) (fun _ _ he => absurd ⟨hr, hv⟩ he.2.2)
  obtain ⟨_, o, ho, hw⟩ := hdone
  exact ⟨hw.gains fun x hx => .inr ⟨o, ho, hx⟩, trivial⟩

theorem safe_putPayload (hs : h.Sound) {r : Handle} (hr : h.isLive r) {payload : Payload}
    (hv : ∀ v ∈ payload.values, h.Valid v) (hx : ∀ x, payload.external? = some x → X x) :
    Safe X (putPayload r payload) h fun _ _ => True := by
  refine Act.wp_mono (wp_putPayload hs r payload) (fun _ h' hdone => ?_) (fun _ _ he => absurd ⟨hr, hv⟩ he.2.2)
  obtain ⟨_, o, ho, hw⟩ := hdone
  exact ⟨hw.gains fun x hxx => .inl (hx x hxx), trivial⟩

theorem safe_replacePayload (hs : h.Sound) {r : Handle} (hr : h.isLive r) {payload : Payload}
    (hv : ∀ v ∈ payload.values, h.Valid v) (hx : ∀ x, payload.external? = some x → X x) :
    Safe X (replacePayload r payload) h fun _ _ => True := by
  refine Act.wp_mono (wp_replacePayload hs r payload) (fun _ h' hdone => ?_)
    (fun _ _ he => absurd ⟨hr, hv⟩ he.2.2)
  obtain ⟨_, o, ho, _, hw⟩ := hdone
  exact ⟨hw.gains fun x hxx => .inl (hx x hxx), trivial⟩

theorem safe_arrayPush (hs : h.Sound) {r : Handle} (hr : h.isLive r) {v : Value} (hv : h.Valid v) :
    Safe X (arrayPush r v) h fun _ _ => True := by
  refine Act.wp_mono (wp_arrayPush hs r v) (fun _ h' hdone => ?_) (fun e h' he => ?_)
  · obtain ⟨_, o, items, ho, _, _, hw⟩ := hdone
    exact ⟨hw.gains (by simp [Payload.external?]), trivial⟩
  · exact ⟨.of_eq hs he.1, fun hst => he.2 hst ⟨hr, hv⟩⟩

theorem safe_arrayPop (hs : h.Sound) {r : Handle} (hr : h.isLive r) :
    Safe X (arrayPop r) h fun old h' => ∀ v ∈ old, h'.Valid v := by
  refine Act.wp_mono (wp_arrayPop hs r) (fun old h' hdone => ?_) (fun e h' he => ?_)
  · obtain ⟨o, items, ho, hp, hold, hw⟩ := hdone
    have hg : h.Gains X h' := hw.gains (by simp [Payload.external?])
    refine ⟨hg, fun v hv => hg.valid (valid_of_mem_values hs.edges ho ?_)⟩
    rw [hold] at hv
    refine List.mem_append_right _ ?_
    simpa [hp, Payload.values] using Array.mem_of_back? hv
  · exact ⟨.of_eq hs he.1, fun hst => he.2 hst hr⟩

theorem safe_slotSet (hs : h.Sound) {r : Handle} (hr : h.isLive r) (index : Int64) {v : Value} (hv : h.Valid v) :
    Safe X (slotSet r index v) h fun _ _ => True := by
  refine Act.wp_mono (wp_slotSet hs r index v) (fun _ h' hdone => ?_) (fun e h' he => ?_)
  · obtain ⟨_, o, items, ho, hp, _, hw⟩ := hdone
    refine ⟨hw.gains fun x hx => .inr ⟨o, ho, ?_⟩, trivial⟩
    rcases hp with hp | hp
    · simp [hp, storeItem, Payload.external?] at hx
    · simp [hp, storeItem, Payload.external?] at hx
  · exact ⟨.of_eq hs he.1, fun hst => he.2 hst ⟨hr, hv⟩⟩

/-! ## Reflections -/

theorem count_values_insert {b : Bindings Reflected Handle} {key : Reflected} {r : Handle} (hk : b.get? key = none)
    (x : Handle) : (b.insert key r).values.count x = b.values.count x + if x = r then 1 else 0 := by
  have := (b.values_insert_perm key r).count_eq x
  simp only [hk, Option.toList_none, List.nil_append, List.count_cons] at this
  rw [this]
  by_cases hx : x = r
  · simp [hx]
  · simp [hx, Ne.symm hx]

theorem Reflects.gains {key : Reflected} {r : Handle} (hr : h.Reflects key r h') (hk : h.reflection? key = none) :
    h.Gains X h' where
  sound := hr.sound
  isLive x hx := by
    rw [isLive_iff] at hx ⊢
    rw [hr.object?]
    split
    · exact ⟨_, rfl⟩
    · exact hx
  external x o y ho hy := by
    rw [hr.object?] at ho
    split at ho
    · cases ho
      cases key <;> simp [Reflected.payload, Payload.external?] at hy
    · exact .inr ⟨o, ho, hy⟩
  keys hd := hr.reflections ▸ hd.insert key r
  roots x := by
    rw [hr.reflections, hr.rootCount, count_values_insert hk]
    by_cases hx : x = r
    · subst hx
      simp [rootCount_eq_zero hr.fresh]
    · simp [hx]

theorem safe_reflect (hs : h.Sound) (hm : h.Mirrored) (key : Reflected) :
    Safe X (reflect key) h fun r h' => h'.isLive r := by
  refine Act.wp_mono (wp_reflect hs key) (fun r h' hr => ?_) (fun _ _ => False.elim)
  rcases hr with ⟨hr, rfl⟩ | ⟨hk, hr⟩
  · exact ⟨.refl hs, hm.isLive hr⟩
  · exact ⟨hr.gains hk, isLive_of_object? (o := { ofClass := key.metaclass, payload := key.payload }) (by simp [hr.object?])⟩

end Spool.Heap
