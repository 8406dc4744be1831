import Spool.Proofs.Heap.Faults
import Spool.Proofs.Heap.Payloads
import Spool.Proofs.Machine.Errors
import Spool.Proofs.Machine.View

/-!
# What an error costs

An error takes an object for itself, one for its message and one for its trace, and four for each line of the trace.
-/

/-!
## How many objects are live

Only a new object adds to the live ones, and only a collection moves the mark at which the next one is due. A write to
live objects cannot fail, so what an action adds is known beforehand.
-/

namespace Spool.Heap

variable {h h' h₁ h₂ : Heap} {α β : Type} {P : α → Heap → Prop} {n k : Nat}

/-- As many objects are live, and the next collection is due at this mark. -/
structure Stocked (live threshold : Nat) (settings : HeapSettings) (h : Heap) : Prop where
  live : h.live = live
  threshold : h.threshold = threshold
  settings : h.settings = settings

theorem impervious_stocked {live threshold : Nat} {settings : HeapSettings} : Impervious (Stocked live threshold settings) :=
  ⟨fun _ _ _ _ h => ⟨h.live, h.threshold, h.settings⟩, fun _ _ _ _ h => ⟨h.live, h.threshold, h.settings⟩⟩

/-- There are `n` more live objects, and nothing has been lost. -/
structure Adds (n : Nat) (h h' : Heap) : Prop extends Stocked (h.live + n) h.threshold h.settings h' where
  sound : h'.Sound
  isLive : ∀ r, h.isLive r → h'.isLive r

theorem Adds.refl (hs : h.Sound) : h.Adds 0 h := ⟨⟨rfl, rfl, rfl⟩, hs, fun _ hr => hr⟩

theorem Adds.trans (hn : h.Adds n h₁) (hk : h₁.Adds k h₂) : h.Adds (n + k) h₂ where
  live := by rw [hk.live, hn.live, Nat.add_assoc]
  threshold := hk.threshold.trans hn.threshold
  settings := hk.settings.trans hn.settings
  sound := hk.sound
  isLive r hr := hk.isLive r (hn.isLive r hr)

theorem Adds.valid (ha : h.Adds n h') {v : Value} (hv : h.Valid v) : h'.Valid v := fun r hr => ha.isLive r (hv r hr)

/-- An action that cannot fail and adds `n` objects. -/
def Makes (n : Nat) (act : Act Heap α) (h : Heap) (P : α → Heap → Prop) : Prop :=
  act.wp h (fun a h' => h.Adds n h' ∧ P a h') fun _ _ => False

theorem Makes.bind {act : Act Heap α} {next : α → Act Heap β} {Q : β → Heap → Prop} (ha : Makes n act h P)
    (hk : ∀ a h', h.Adds n h' → P a h' → Makes k (next a) h' Q) : Makes (n + k) (act >>= next) h Q := by
  unfold Makes
  rw [Act.wp_bind]
  refine Act.wp_mono ha (fun a h₁ hdone => ?_) (fun _ _ => id)
  exact Act.wp_mono (hk a h₁ hdone.1 hdone.2) (fun _ _ hq => ⟨hdone.1.trans hq.1, hq.2⟩) (fun _ _ => id)

/-- An action that meets no dead handle, and could not fail for another reason. -/
theorem Safe.makes {X : External → Prop} {act : Act Heap α} (ha : Safe X act h P) (hstale : act.StaleOnly)
    (hstock : Stocked (h.live + n) h.threshold h.settings (act h).2) : Makes n act h P := by
  have hfail := hstale h
  unfold Safe Act.wp at ha
  unfold Act.wp at hfail
  unfold Makes Act.wp
  rcases hact : act h with ⟨e | a, h'⟩
  · rw [hact] at ha hfail
    exact ha.2 hfail
  · rw [hact] at ha hstock
    exact ⟨⟨hstock, ha.1.sound, ha.1.isLive⟩, ha.2⟩

theorem makes_setMember (hs : h.Sound) {r : Handle} (hr : h.isLive r) (name : String) {v : Value} (hv : h.Valid v) :
    Makes 0 (setMember r name v) h fun _ _ => True :=
  (safe_setMember (X := Nowhere) hs hr name hv).makes (staleOnly_setMember r name v)
    (impervious_stocked.setMember r name v h ⟨rfl, rfl, rfl⟩)

theorem stocked_allocate (h : Heap) (c : ClassId) (payload : Payload) :
    Stocked (h.live + 1) h.threshold h.settings (h.allocate c payload).2 := by
  unfold Heap.allocate
  dsimp only
  split <;> exact ⟨rfl, rfl, rfl⟩

theorem makes_create (hs : h.Sound) (c : ClassId) {payload : Payload} (he : payload.edges = [])
    (hx : payload.external? = none) : Makes 1 (create c payload) h fun r h' => h'.isLive r := by
  have hsafe := safe_create (X := Nowhere) hs c he hx
  exact ⟨⟨stocked_allocate h c payload, hsafe.1.sound, hsafe.1.isLive⟩, hsafe.2⟩

theorem makes_createWith (hs : h.Sound) (c : ClassId) {seed payload : Payload} (he : seed.edges = [])
    (hv : ∀ v ∈ payload.values, h.Valid v) (hx : payload.external? = none) :
    Makes 1 (createWith c seed payload) h fun r h' => h'.isLive r := by
  have hstale : (createWith c seed payload).StaleOnly :=
    (staleOnly_create c seed).bind fun r => (staleOnly_replacePayload r payload).discard.bind fun _ => Act.staleOnly_pure r
  refine (safe_createWith (X := Nowhere) hs c he hv hx).makes hstale ?_
  have hfill : ∀ r, Preserves (Stocked (h.live + 1) h.threshold h.settings) (do
      discard <| replacePayload r payload
      return r) := fun r =>
    preserves_bind (preserves_discard (impervious_stocked.replacePayload r fun _ hk => ⟨hk.live, hk.threshold, hk.settings⟩))
      fun _ => preserves_pure r
  exact hfill _ _ (stocked_allocate h c seed)

/-! ## Collecting garbage -/

theorem settings_reclaim (h : Heap) (r : Handle) (o : Object) : (h.reclaim r o).settings = h.settings := by
  have hdrop : ∀ (children : List Handle) (h : Heap), (children.foldl (fun h child => h.dropParent r child) h).settings
      = h.settings := by
    intro children
    induction children with
    | nil => exact fun _ => rfl
    | cons child rest ih => exact fun h => ih (h.dropParent r child)
  exact hdrop o.edges (h.vacate r)

/-- After a collection the mark depends on what it has left. -/
theorem settled_collect (h : Heap) (registry : Registry) (provider : RootProvider) :
    (h.collect registry provider).2.settings = h.settings ∧
      (h.collect registry provider).2.threshold =
        settledThreshold h.settings.maxObjects (h.collect registry provider).2.live := by
  obtain ⟨h', hswept, hdone⟩ := collect_induction (P := fun _ h' => h'.settings = h.settings) rfl
    (fun {_ h₁ r o} _ hs => (settings_reclaim h₁ r o).trans hs) registry provider
  rw [hdone]
  refine ⟨hswept, ?_⟩
  change settledThreshold h'.settings.maxObjects _ = _
  rw [hswept]
  rfl

end Spool.Heap

/-! ## The cost of an action -/

namespace Spool.Machine

open Heap

variable {m m₁ m₂ m' : Machine} {α β : Type} {P : α → Heap → Prop} {n k : Nat}

/-- There are `n` more live objects. Nothing else has changed. -/
structure Burdened (n : Nat) (m m' : Machine) : Prop where
  adds : m.process.heap.Adds n m'.process.heap
  rest : m' = { m with process := { m.process with heap := m'.process.heap } }

theorem Burdened.refl (hs : m.process.heap.Sound) : m.Burdened 0 m := ⟨.refl hs, rfl⟩

theorem Burdened.trans (h : m.Burdened n m₁) (h' : m₁.Burdened k m₂) : m.Burdened (n + k) m₂ := by
  refine ⟨h.adds.trans h'.adds, ?_⟩
  rw [h'.rest, h.rest]

/-- An action that cannot fail, and costs `n` objects. -/
def Costs (n : Nat) (act : Act Machine α) (m : Machine) (P : α → Heap → Prop) : Prop :=
  act.wp m (fun a m' => m.Burdened n m' ∧ P a m'.process.heap) fun _ _ => False

theorem Costs.bind {act : Act Machine α} {next : α → Act Machine β} {Q : β → Heap → Prop} (ha : Costs n act m P)
    (hk : ∀ a m', m.Burdened n m' → P a m'.process.heap → Costs k (next a) m' Q) : Costs (n + k) (act >>= next) m Q := by
  unfold Costs
  rw [Act.wp_bind]
  refine Act.wp_mono ha (fun a m₁ hdone => ?_) (fun _ _ => id)
  exact Act.wp_mono (hk a m₁ hdone.1 hdone.2) (fun _ _ hq => ⟨hdone.1.trans hq.1, hq.2⟩) (fun _ _ => id)

theorem Costs.map {act : Act Machine α} {f : α → β} {Q : β → Heap → Prop} (ha : Costs n act m P)
    (hq : ∀ a h, P a h → Q (f a) h) : Costs n (f <$> act) m Q := by
  unfold Costs
  rw [Act.wp_map]
  exact Act.wp_mono ha (fun a m' hdone => ⟨hdone.1, hq a _ hdone.2⟩) (fun _ _ => id)

theorem costs_pure (hs : m.process.heap.Sound) {a : α} (hp : P a m.process.heap) :
    Costs 0 (pure a : Act Machine α) m P := ⟨.refl hs, hp⟩

theorem costs_onHeap {act : Act Heap α} (ha : Makes n act m.process.heap P) : Costs n (onHeap act) m P := by
  have heq : onHeap act m = ((act m.process.heap).1, { m with process := { m.process with heap := (act m.process.heap).2 } }) :=
    rfl
  unfold Makes Act.wp at ha
  unfold Costs Act.wp
  rw [heq]
  rcases hact : act m.process.heap with ⟨e | a, h'⟩
  · rw [hact] at ha
    exact ha
  · rw [hact] at ha
    exact ⟨⟨ha.1, rfl⟩, ha.2⟩

/-- A trace does not depend on the heap. -/
theorem stackTrace_heap (m : Machine) (heap : Heap) :
    ({ m with process := { m.process with heap } } : Machine).stackTrace = m.stackTrace := by
  have hancestry : ({ m.process with heap } : Process).ancestry m.task = m.process.ancestry m.task := by
    rw [← Process.ancestry_roster, ← Process.ancestry_roster]
    rfl
  unfold stackTrace
  rw [hancestry]
  rfl

theorem Burdened.stackTrace (h : m.Burdened n m') : m'.stackTrace = m.stackTrace := by
  rw [h.rest]
  exact stackTrace_heap m _

/-! ## New objects -/

theorem costs_newObject (hs : m.process.heap.Sound) (c : ClassId) :
    Costs 1 (liftM (newObject c) : Act Machine Handle) m fun r h => h.isLive r := by
  have hnew : Costs 1 (onHeap (Heap.create c (m.host.registry.seed c))) m fun r h => h.isLive r :=
    costs_onHeap (makes_create hs c (Copier.edges_seed _ c) (Copier.external?_seed _ c))
  exact hnew

theorem costs_newText (hs : m.process.heap.Sound) (s : String) :
    Costs 1 (liftM (newText s) : Act Machine Value) m fun v h => h.Valid v := by
  have hnew : Costs 1 (onHeap (Heap.create .string (.text s))) m fun r h => h.isLive r :=
    costs_onHeap (makes_create hs .string rfl rfl)
  exact hnew.map fun r h hr => valid_object hr

theorem costs_newArray (hs : m.process.heap.Sound) {items : List Value} (hv : ∀ v ∈ items, m.process.heap.Valid v) :
    Costs 1 (newArray items) m fun v h => h.Valid v := by
  refine (costs_onHeap (makes_createWith hs .array rfl ?_ rfl)).map fun r h hr => valid_object hr
  simpa [Payload.values] using hv

theorem costs_mapM {f : α → Act Machine Value}
    (hf : ∀ a m, m.process.heap.Sound → Costs k (f a) m fun v h => h.Valid v) (xs : List α) : ∀ m : Machine,
    m.process.heap.Sound → Costs (k * xs.length) (xs.mapM f) m fun vs h => ∀ v ∈ vs, h.Valid v := by
  induction xs with
  | nil => exact fun m hs => costs_pure hs fun v hv => by cases hv
  | cons a rest ih =>
      intro m hs
      rw [List.mapM_cons, List.length_cons, Nat.mul_succ, Nat.add_comm]
      refine (hf a m hs).bind fun v m₁ hm₁ hv => ?_
      refine (ih m₁ hm₁.adds.sound).bind (k := 0) fun vs m₂ hm₂ hvs => costs_pure hm₂.adds.sound fun w hw => ?_
      rcases List.mem_cons.1 hw with rfl | hw
      · exact hm₂.adds.valid hv
      · exact hvs w hw

/-! ## Errors -/

/-- An object for the line and one for each of its three texts. -/
theorem costs_newTraceLine (hs : m.process.heap.Sound) (line : TraceLine) :
    Costs 4 (newTraceLine line) m fun v h => h.Valid v := by
  unfold newTraceLine
  refine (costs_newObject hs .stackLine).bind (k := 3) fun r m₁ h₁ hr => ?_
  refine (costs_newText h₁.adds.sound line.module).bind (k := 2) fun module m₂ h₂ hmodule => ?_
  refine (costs_newText h₂.adds.sound line.function).bind (k := 1) fun function m₃ h₃ hfunction => ?_
  refine (costs_newText h₃.adds.sound line.text).bind (k := 0) fun text m₄ h₄ htext => ?_
  have hr₄ := h₄.adds.isLive r (h₃.adds.isLive r (h₂.adds.isLive r hr))
  have hwrites : Makes 0 (do
      Heap.setMember r "module" module
      Heap.setMember r "function" function
      Heap.setMember r "line" (.ofNat line.place.line.toNat)
      Heap.setMember r "col" (.ofNat line.place.column.toNat)
      Heap.setMember r "text" text) m₄.process.heap fun _ h => h.isLive r := by
    have hmodule₄ := h₄.adds.valid (h₃.adds.valid hmodule)
    refine (makes_setMember h₄.adds.sound hr₄ _ hmodule₄).bind (k := 0) fun _ _ a₁ _ => ?_
    have hfunction₅ := a₁.valid (h₄.adds.valid hfunction)
    refine (makes_setMember a₁.sound (a₁.isLive r hr₄) _ hfunction₅).bind (k := 0) fun _ _ a₂ _ => ?_
    have a₂ := a₁.trans a₂
    refine (makes_setMember a₂.sound (a₂.isLive r hr₄) _ valid_scalar).bind (k := 0) fun _ _ a₃ _ => ?_
    have a₃ := a₂.trans a₃
    refine (makes_setMember a₃.sound (a₃.isLive r hr₄) _ valid_scalar).bind (k := 0) fun _ _ a₄ _ => ?_
    have a₄ := a₃.trans a₄
    exact Act.wp_mono (makes_setMember a₄.sound (a₄.isLive r hr₄) _ (a₄.valid htext))
      (fun _ _ h => ⟨h.1, h.1.isLive r (a₄.isLive r hr₄)⟩) fun _ _ => id
  exact (costs_onHeap hwrites).bind (k := 0) fun _ m₅ h₅ hr₅ => costs_pure h₅.adds.sound (valid_object hr₅)

theorem costs_newTrace (hs : m.process.heap.Sound) :
    Costs (4 * m.stackTrace.length + 1) newTrace m fun v h => h.Valid v := by
  have hlines : Costs (4 * m.stackTrace.length + 1) (m.stackTrace.mapM newTraceLine >>= newArray) m fun v h => h.Valid v :=
    (costs_mapM (fun line m hs => costs_newTraceLine hs line) m.stackTrace m hs).bind fun vs m₁ h₁ hvs =>
      costs_newArray h₁.adds.sound hvs
  exact hlines

theorem costs_initError (hs : m.process.heap.Sound) {r : Handle} (hr : m.process.heap.isLive r) {message : Value}
    (hv : m.process.heap.Valid message) :
    Costs (4 * m.stackTrace.length + 1) (initError r message) m fun _ _ => True := by
  unfold initError
  refine (costs_newTrace hs).bind (k := 0) fun trace m₁ h₁ htrace => costs_onHeap ?_
  have hr₁ := h₁.adds.isLive r hr
  refine (makes_setMember h₁.adds.sound hr₁ _ (h₁.adds.valid hv)).bind (k := 0) fun _ _ a₁ _ => ?_
  exact makes_setMember a₁.sound (a₁.isLive r hr₁) _ (a₁.valid htrace)

/-- Whether it fails or not. -/
theorem Costs.state {act : Act Machine α} (ha : Costs n act m P) : m.Burdened n (act m).2 :=
  Act.wp.state (P := m.Burdened n) (Act.wp_mono ha (fun _ _ h => h.1) fun _ _ => False.elim)

theorem burdened_newError (hs : m.process.heap.Sound) (message : String) :
    m.Burdened (4 * m.stackTrace.length + 3) (newError message m).2 := by
  obtain ⟨h₁, hr⟩ : m.Burdened 1 (newObject .error m).2 ∧ _ := costs_newObject hs .error
  obtain ⟨h₂, htext⟩ : (newObject .error m).2.Burdened 1 (newText message (newObject .error m).2).2 ∧ _ :=
    costs_newText h₁.adds.sound message
  have h₃ := (costs_initError h₂.adds.sound (h₂.adds.isLive _ hr) htext).state
  have hall := (h₁.trans h₂).trans h₃
  rw [(h₁.trans h₂).stackTrace] at hall
  exact Eq.subst (motive := fun n => m.Burdened n (newError message m).2) (by omega) hall

end Spool.Machine
