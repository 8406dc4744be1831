import Spool.Proofs.Heap.Faults
import Spool.Proofs.Machine.Spawn
import Spool.Proofs.Machine.View

/-!
# Calls as others see them

A call either leaves the view of the machine alone, or makes one of the moves a running task can make. A fault over a
dead handle is left out: no task of a machine that is going meets one.
-/

namespace Spool.Machine

variable {m m₁ m₂ m₃ : Machine} {α β : Type} {stops : α → Prop} {stops' : β → Prop}

/-- An action that may park the running task, and does so if its result says so. -/
def Moves (stops : α → Prop) (act : Act Machine α) (m : Machine) : Prop :=
  act.wp m (fun a m' => (¬ stops a → m.Stirs m') ∧ (stops a → m.Parks m')) fun e m' => e ≠ .stale → m.Stirs m'

/-! ## Putting actions together -/

theorem moves_pure {a : α} (ha : ¬ stops a) : Moves stops (pure a) m :=
  ⟨fun _ => (Steady.refl m).stirs, fun h => absurd h ha⟩

theorem moves_throw (e : Fault) : Moves stops (throw e) m := fun _ => (Steady.refl m).stirs

theorem moves_get {k : Machine → Act Machine α} (hk : Moves stops (k m) m) : Moves stops (get >>= k) m := by
  unfold Moves
  rw [Act.wp_bind]
  exact hk

/-- An action that nobody notices, and then another one. -/
theorem moves_after {act : Act Machine β} {k : β → Act Machine α} (ha : Preserves m.Steady act)
    (hk : ∀ b m', m.Steady m' → Moves stops (k b) m') : Moves stops (act >>= k) m := by
  unfold Moves
  rw [Act.wp_bind]
  refine Act.wp_mono (Act.wp_of_preserves ha (.refl m)) (fun b m₁ h₁ => ?_) fun _ _ h _ => h.stirs
  refine Act.wp_mono (hk b m₁ h₁) (fun a m₂ h₂ => ?_) fun _ _ h he => h₁.trans_stirs (h he)
  exact ⟨fun ha => h₁.trans_stirs (h₂.1 ha), fun ha => h₁.trans_parks (h₂.2 ha)⟩

/-- An action, and then another one that nobody notices. -/
theorem Moves.then {act : Act Machine β} {k : β → Act Machine α} (hun : ¬ m.current.state.isFinished)
    (ha : Moves stops' act m)
    (hk : ∀ b m', ¬ m'.current.state.isFinished → (k b).wp m' (fun a m'' => m'.Steady m'' ∧ (stops a ↔ stops' b))
      fun _ m'' => m'.Steady m'' ∧ ¬ stops' b) : Moves stops (act >>= k) m := by
  unfold Moves
  rw [Act.wp_bind]
  refine Act.wp_mono ha (fun b m₁ h₁ => ?_) fun _ _ h => h
  have hun₁ : ¬ m₁.current.state.isFinished := by
    by_cases hb : stops' b
    · exact (h₁.2 hb).unfinished hun
    · exact (h₁.1 hb).unfinished hun
  refine Act.wp_mono (hk b m₁ hun₁) (fun a m₂ h₂ => ?_) fun _ m₂ h₂ _ => (h₁.1 h₂.2).trans_steady h₂.1
  rw [h₂.2]
  exact ⟨fun hb => (h₁.1 hb).trans_steady h₂.1, fun hb => (h₁.2 hb).trans_steady h₂.1⟩

theorem moves_of_steady {act : Act Machine α} (ha : Preserves m.Steady act) : Moves (fun _ => False) act m :=
  Act.wp_mono (Act.wp_of_preserves ha (.refl m)) (fun _ _ h => ⟨fun _ => h.stirs, False.elim⟩) fun _ _ h _ => h.stirs

/-! ## Single changes -/

theorem view_newCarrier (m : Machine) : (newCarrier m).1 = m.view.roster.next ∧
    (newCarrier m).2.view = { m.view with roster := m.view.roster.carry m.task } := by
  constructor
  · exact (Process.next_roster m.process).symm
  · have hrow := Process.roster_newCarrier m.process m.task
    simp only [view]
    rw [← hrow]
    rfl

theorem view_submit (call : BackgroundCall) (m : Machine) : (submit call m).2.view = { m.view with
    roster := { m.view.roster with inFlight := m.view.roster.inFlight + 1 }
    pool := m.view.pool.submit call } := rfl

theorem view_await (y : TaskId) (delivery : Delivery) (reason : WaitReason) (m : Machine) :
    (await y delivery reason m).2.view = { m.view with roster := m.view.roster.await m.task y delivery reason } := by
  have hadd := Process.roster_modifyTask (p := m.process) (t := y) (f := (·.addDependent m.task delivery))
    (g := (·.addDependent m.task delivery)) fun _ _ => rfl
  have hpark := Process.roster_park (m.process.modifyTask y (·.addDependent m.task delivery)) m.task reason
  simp only [view, Roster.await, ← hadd, ← hpark]
  rfl

theorem view_enqueue (t : TaskId) (m : Machine) :
    (enqueue t m).2.view = { m.view with roster := m.view.roster.enqueue t } := by
  have hq := Process.roster_enqueue m.process t
  simp only [view]
  rw [← hq]
  rfl

theorem view_startCall (b : BoundFunction) (start : Nat) (argument : Value) (m : Machine) :
    (startCall b start argument m).1 = m.view.roster.next ∧
    (startCall b start argument m).2.view
      = { m.view with roster := m.view.roster.start { parent := some m.task } } ∧
    (startCall b start argument m).2.process.heap = m.process.heap := by
  have hrun : startCall b start argument m = (⟨m.process.tasks.size⟩, { m with
      process := (m.process.startCall m.host.registry b start argument (some m.task)).2.enqueue ⟨m.process.tasks.size⟩ }) :=
    rfl
  have hroster : (m.process.startCall m.host.registry b start argument (some m.task)).2.roster
      = m.process.roster.add { parent := some m.task } := Process.roster_startTask _ _ _ _
  have hframe : ∃ tasks contexts free, (m.process.startCall m.host.registry b start argument (some m.task)).2
      = { m.process with tasks := tasks, contexts := contexts, freeContexts := free } := Process.startTask_frame _ _ _ _
  rw [hrun]
  generalize (m.process.startCall m.host.registry b start argument (some m.task)).2 = p at hroster hframe
  obtain ⟨tasks, contexts, free, rfl⟩ := hframe
  refine ⟨(Process.next_roster m.process).symm, ?_, rfl⟩
  have hq := Process.roster_enqueue
    { m.process with tasks := tasks, contexts := contexts, freeContexts := free } ⟨m.process.tasks.size⟩
  rw [hroster, ← Process.next_roster] at hq
  simp only [view, Roster.start, ← hq]
  rw [Process.next_roster]
  rfl

/-- Nothing has changed but that there may be another future of a task. -/
structure Heralds (x : TaskId) (m m' : Machine) : Prop where
  view : m'.view = m.view
  futures : ∀ T, T x → m.process.heap.Knows T → m'.process.heap.Knows T
  async : m.host.registry.HasAsync → m'.host.registry.HasAsync

theorem Steady.heralds (h : m.Steady m₁) (x : TaskId) : Heralds x m m₁ := ⟨h.view, fun T _ => h.futures T, h.async⟩

theorem Heralds.trans {x : TaskId} (h : Heralds x m₁ m₂) (h' : Heralds x m₂ m₃) : Heralds x m₁ m₃ :=
  ⟨h'.view.trans h.view, fun T hx hk => h'.futures T hx (h.futures T hx hk), fun ha => h'.async (h.async ha)⟩

theorem heralds_newFuture (x : TaskId) : Preserves (Heralds x m) (newFuture x) := by
  refine preserves_bind (fun s hs => hs.trans (Steady.heralds ?_ x)) fun _ => ?_
  · exact (Steady.refl s).process rfl (Process.roster_modifyTask_frame fun _ _ => rfl) rfl
  · refine preserves_bind (fun s hs => hs.trans ((steady_newObject .future s (.refl s)).heralds x)) fun r => ?_
    refine preserves_bind (fun s hs => hs.trans ⟨rfl, fun T hx hk => ?_, fun ha => ha⟩) fun _ => preserves_pure _
    refine Heap.knows_putPayload r (fun t ht => ?_) _ hk
    cases ht
    exact hx

/-- A task has been made, and then a future of it. -/
theorem moves_future {x : TaskId} (hx : m.view.Stirs m₁.host.registry.HasAsync [x] m₁.view)
    (hfut : ∀ T, m.process.heap.Knows T → m₁.process.heap.Knows T)
    (hasync : m.host.registry.HasAsync → m₁.host.registry.HasAsync) :
    (newFuture x).wp m₁ (fun _ m' => m.Stirs m') fun e m' => e ≠ .stale → m.Stirs m' := by
  have hstirs : ∀ m', Heralds x m₁ m' → m.Stirs m' := by
    intro m' h
    refine ⟨⟨[x], ?_, fun T hk hn => h.futures T (hn x List.mem_cons_self) (hfut T hk)⟩, fun ha => h.async (hasync ha)⟩
    rw [h.view]
    exact hx.mono h.async
  exact Act.wp_mono (Act.wp_of_preserves (heralds_newFuture x) ⟨rfl, fun _ _ h => h, fun h => h⟩) (fun _ m' h => hstirs m' h)
    fun _ m' h _ => hstirs m' h

/-! ## Background functions -/

theorem steady_hold (v : Value) : Preserves m.Steady (hold v) := by
  cases v with
  | object r => exact preserves_bind (steady_onHeap fun _ => Heap.knows_root r) fun _ => preserves_pure _
  | none => exact preserves_pure _
  | scalar s => exact preserves_pure _

theorem staleOnly_onHeap {act : Act Heap α} (ha : act.StaleOnly) : (onHeap act).StaleOnly := by
  intro m
  have := ha m.process.heap
  unfold Act.wp onHeap at *
  rcases h : act m.process.heap with ⟨_ | _, _⟩
  · simpa [h] using this
  · trivial

theorem staleOnly_hold (v : Value) : (hold v).StaleOnly := by
  cases v with
  | object r => exact (staleOnly_onHeap (Heap.staleOnly_root r)).bind fun _ => Act.staleOnly_pure _
  | none => exact Act.staleOnly_pure _
  | scalar s => exact Act.staleOnly_pure _

/-- A root for a value, or a fault that is left out. -/
theorem wp_hold_steady (v : Value) (m : Machine) :
    (hold v).wp m (fun _ m' => m.Steady m') fun e _ => e = .stale := by
  have h₁ := Act.wp_of_preserves (steady_hold v) (.refl m)
  have h₂ := staleOnly_hold v m
  unfold Act.wp at *
  rcases h : hold v m with ⟨_ | _, _⟩
  · simpa [h] using h₂
  · simpa [h] using h₁

theorem moves_launchBackground (async : Bool) (body : Background) (receiver argument : Value) (delivery : Delivery) :
    Moves (· = .parked) (launchBackground async body receiver argument delivery) m := by
  obtain ⟨hnext, hcarry⟩ := view_newCarrier m
  unfold launchBackground Moves
  simp only [Act.wp_bind, Act.wp_lift]
  refine Act.wp_mono (wp_hold_steady receiver _) (fun first m₁ h₁ => ?_) fun _ _ h he => absurd h he
  refine Act.wp_mono (wp_hold_steady argument m₁) (fun second m₂ h₂ => ?_) fun _ _ h he => absurd h he
  simp only [Act.wp_get]
  have h₁₂ := h₁.trans h₂
  let call : BackgroundCall :=
    { process := m₂.process.id, carrier := (newCarrier m).1, body, receiver, argument, held := first ++ second }
  have hid : call.process = m.view.id := h₁₂.id
  have hview : (submit call m₂).2.view
      = { m.view with roster := m.view.roster.launch m.task, pool := m.view.pool.submit call } := by
    rw [view_submit, h₁₂.view, hcarry]
    rfl
  have hfut : ∀ T, m.process.heap.Knows T → (submit call m₂).2.process.heap.Knows T := fun T hk => h₁₂.futures T hk
  have hasync : m.host.registry.HasAsync → (submit call m₂).2.host.registry.HasAsync := fun ha => h₁₂.async ha
  split
  · simp only [Act.wp_bind, Act.wp_pure]
    have hstirs : m.view.Stirs (submit call m₂).2.host.registry.HasAsync [(newCarrier m).1] (submit call m₂).2.view := by
      rw [hview, hnext]
      exact .background call hid hnext
    exact Act.wp_mono (moves_future hstirs hfut hasync) (fun _ _ h => ⟨fun _ => h, fun h => by cases h⟩) fun _ _ h => h
  · refine ⟨fun h => absurd rfl h, fun _ => ⟨?_, hfut, hasync⟩⟩
    have htask : (submit call m₂).2.task = m.task := h₁₂.task
    change m.view.Parks _ (await (newCarrier m).1 delivery .onFuture (submit call m₂).2).2.view
    rw [view_await, hview, htask, hnext]
    exact .background call delivery hid hnext

/-! ## New processes -/

theorem staleOnly_pack (source : Heap) (receiver argument : Value) (object : Handle) :
    (pack source receiver argument object).StaleOnly := by
  refine (Copier.staleOnly_copy source receiver).bind fun _ => (Copier.staleOnly_copy source argument).bind fun _ => ?_
  refine Act.StaleOnly.bind (fun c => ?_) fun o => Act.StaleOnly.bind (Act.staleOnly_mapM (fun e => ?_) _) fun _ =>
    Act.staleOnly_pure _
  · rw [Act.wp_mk]
    unfold Heap.fetch
    cases source.object? object with
    | none => rfl
    | some o => trivial
  · exact (Copier.staleOnly_copy source _).bind fun _ => Act.staleOnly_pure _

theorem staleOnly_unpackModule (module : ModuleId) (globals : List (String × Value)) :
    (unpackModule module globals).StaleOnly := by
  refine (Heap.staleOnly_reflect _).bind fun r => Act.StaleOnly.bind (Act.staleOnly_forIn (fun e _ => ?_) _ _) fun _ =>
    Act.staleOnly_pure _
  exact (Heap.staleOnly_setMember r _ _).bind fun _ => Act.staleOnly_pure _

theorem staleOnly_furnish (source : Heap) (registry : Registry) (module : ModuleId) (receiver argument : Value)
    (object : Handle) : (furnish source registry module receiver argument object).StaleOnly := by
  intro heap
  have hpack := staleOnly_pack source receiver argument object (Copier.new source heap registry)
  unfold Act.wp furnish at *
  rcases hp : pack source receiver argument object (Copier.new source heap registry) with ⟨e | b, c⟩
  · simpa [hp] using hpack
  · have hunpack := staleOnly_unpackModule module b.globals c.target
    unfold Act.wp at hunpack
    rcases hu : unpackModule module b.globals c.target with ⟨_ | _, h⟩
    · simpa [hp, hu, Except.map] using hunpack
    · simp [hp, hu, Except.map]

theorem roster_launch {child : Process} (ht : child.tasks = #[]) (hq : child.queue = {}) (hw : child.waiting = [])
    (hc : child.completions = []) (ho : child.outgoing = [])
    (hm : ∀ m t, child.modules.get? m ≠ some (.initializing t)) (registry : Registry) (function : FunctionId)
    (start : Nat) (baggage : Baggage) (link : RemoteLink) :
    (launch child registry function start baggage link).roster.Fledgling link := by
  let made : Process := { child with modules := child.modules.insert (registry.functionAt function).module .ready }
  let started := (made.startCall registry { function, receiver := baggage.receiver } start baggage.argument none).2
  have hstarted : started.roster = made.roster.add { parent := none } := Process.roster_startTask _ _ _ _
  have hlinked := Process.roster_modifyTask (p := started) (t := ⟨made.tasks.size⟩)
    (f := fun t => { t with remote := some link }) (g := fun s => { s with remote := some link }) fun _ _ => rfl
  have hroster : (launch child registry function start baggage link).roster
      = (started.modifyTask ⟨made.tasks.size⟩ fun t => { t with remote := some link }).roster.enqueue
        ⟨made.tasks.size⟩ := by
    rw [← Process.roster_enqueue]
    rfl
  rw [hlinked, hstarted] at hroster
  have hrows : made.roster.tasks = #[] := by simp [made, Process.roster, ht]
  have hsize : made.tasks.size = 0 := by simp [made, ht]
  rw [hroster]
  constructor
  case tasks => simp [Roster.enqueue, Roster.update, Roster.add, hrows, hsize]
  case queue => simp [Roster.enqueue, Roster.update, Roster.add, made, Process.roster, hq, ht, Fifo.toList]
  case waiting => simpa [Roster.enqueue, Roster.update, Roster.add, made, Process.roster] using hw
  case completions => simp [Roster.enqueue, Roster.update, Roster.add, made, Process.roster, hc]
  case outgoing => simpa [Roster.enqueue, Roster.update, Roster.add, made, Process.roster] using ho
  case ready =>
    intro m t
    simp only [Roster.enqueue, Roster.update, Roster.add, made, Process.roster, Bindings.get?_insert]
    split
    · simp
    · exact hm m t

theorem steady_entryPoint (callee : Value) : Preserves m.Steady (entryPoint callee) := by
  refine preserves_bind (steady_expectObject callee _) fun r => preserves_bind (steady_fetch r) fun o => ?_
  split
  · exact preserves_pure _
  · exact preserves_pure _
  · exact preserves_get fun _ _ => preserves_throw _

theorem moves_spawn (callee argument : Value) : Moves (fun _ => False) (spawn callee argument) m := by
  unfold spawn
  refine moves_after (steady_entryPoint callee) fun b m₁ _ => moves_get ?_
  dsimp only
  split
  · rename_i start _
    refine moves_after (steady_moduleObject _) fun object m₂ _ => ?_
    unfold Moves
    simp only [Act.wp_bind, Act.wp_modifyGet, Act.wp_lift, Act.wp_get]
    have hfurnish := staleOnly_furnish m₂.process.heap m₁.host.registry
      (m₁.host.registry.functionAt b.function).module b.receiver argument object m₂.host.newProcess.1.heap
    have hsource : ({ m₂ with host := m₂.host.newProcess.2 } : Machine).newCarrier.2.process.heap = m₂.process.heap := rfl
    rw [hsource]
    unfold Act.wp at hfurnish
    rcases hx : furnish m₂.process.heap m₁.host.registry (m₁.host.registry.functionAt b.function).module b.receiver
      argument object m₂.host.newProcess.1.heap with ⟨e | baggage, heap⟩
    · rw [hx] at hfurnish
      simp only [Act.wp_bind, Act.wp_lift]
      exact fun he => absurd hfurnish he
    · simp only [Act.wp_bind, Act.wp_lift]
      have hchild := @roster_launch { m₂.host.newProcess.1 with heap } rfl rfl rfl rfl rfl
        (Process.modules_seeded ⟨m₂.host.born + 1⟩ m₂.host.heapSettings) m₁.host.registry b.function start baggage
        ⟨m₂.process.id, ⟨m₂.process.tasks.size⟩⟩
      refine Act.wp_mono (moves_future (m := m₂) ?_ (fun _ hk => hk) fun ha => ha)
        (fun _ _ h => ⟨fun _ => h, False.elim⟩) fun _ _ h => h
      change m₂.view.Stirs m₂.host.registry.HasAsync [⟨m₂.process.tasks.size⟩] { m₂.view with
        roster := (m₂.process.newCarrier m₂.task).2.roster
        born := m₂.view.born + 1
        nursery := m₂.view.nursery ++ [launch { m₂.host.newProcess.1 with heap } m₁.host.registry b.function start baggage
          ⟨m₂.process.id, ⟨m₂.process.tasks.size⟩⟩] }
      rw [Process.roster_newCarrier, ← Process.next_roster] at *
      exact .spawn _ hchild
  · exact moves_throw _

theorem moves_processStart (hun : ¬ m.current.state.isFinished) (receiver argument : Value) :
    Moves (fun _ => False) (processStart receiver argument) m := by
  have hstart : ∀ (r : Handle) (o : Object) (m : Machine), ¬ m.current.state.isFinished →
      Moves (fun _ => False) (launchEntry r o argument) m := by
    intro r o m hun
    unfold launchEntry
    split
    · exact moves_throw _
    · refine (moves_spawn _ argument).then hun fun x m₁ _ => ?_
      have hput : Preserves m₁.Steady (do onHeap (Heap.putPayload r (.process (some x.1))); pure x.2) :=
        preserves_bind (steady_onHeap fun _ => Heap.knows_putPayload r (by simp [Payload.external?])) fun _ =>
          preserves_pure _
      exact Act.wp_mono (Act.wp_of_preserves hput (.refl m₁)) (fun _ _ h => ⟨h, Iff.rfl⟩) fun _ _ h => ⟨h, id⟩
  unfold processStart
  refine moves_after (steady_expectObject receiver _) fun r m₁ h₁ => moves_after (steady_fetch r) fun o m₂ h₂ => ?_
  have hun₂ := h₂.unfinished (h₁.unfinished hun)
  dsimp only
  split
  · exact moves_after (preserves_throw _) fun _ m₃ h₃ => hstart r o m₃ (h₃.unfinished hun₂)
  · exact hstart r o m₂ hun₂

/-! ## Calling -/

theorem moves_runNative (hun : ¬ m.current.state.isFinished) (receiver argument : Value) (body : Native) :
    Moves (fun _ => False) (runNative receiver argument body) m := by
  by_cases hb : body = .processStart
  · subst hb
    exact moves_processStart hun receiver argument
  · exact moves_of_steady (steady_runNative receiver argument hb)

/-- A value in place of what a native function returns. -/
theorem Moves.value (hun : ¬ m.current.state.isFinished) {act : Act Machine α} (ha : Moves (fun _ => False) act m)
    (f : α → Value) : Moves (· = Reply.parked) (do return Reply.value (f (← act))) m :=
  ha.then hun fun _ m₁ _ => ⟨.refl m₁, by simp⟩

theorem functionAt_async {registry : Registry} {f : FunctionId} {start : Nat}
    (hkind : (registry.functionAt f).kind = .user start) (hf : (registry.functionAt f).flags.async = true) :
    registry.HasAsync := by
  refine ⟨registry.functionAt f, ?_, ⟨start, hkind⟩, hf⟩
  unfold Registry.functionAt at hf ⊢
  rw [Array.getD_eq_getD_getElem?] at hf ⊢
  cases h : registry.functions[f.index]? with
  | none =>
      rw [h] at hf
      cases hf
  | some function => exact Array.mem_of_getElem? h

theorem moves_invoke (hun : ¬ m.current.state.isFinished) (b : BoundFunction) (argument : Value) (delivery : Delivery) :
    Moves (· = .parked) (invoke b argument delivery) m := by
  unfold invoke
  refine moves_get ?_
  dsimp only
  split
  · exact (moves_runNative hun b.receiver argument _).value hun id
  · exact moves_launchBackground _ _ _ _ delivery
  · rename_i start hkind
    obtain ⟨hnext, hview, hheap⟩ := view_startCall b start argument m
    unfold Moves
    simp only [Act.wp_bind, Act.wp_lift]
    split
    · rename_i hf
      simp only [Act.wp_bind, Act.wp_pure]
      have hasync : (startCall b start argument m).2.host.registry.HasAsync := functionAt_async hkind hf
      refine Act.wp_mono (moves_future (m := m) ?_ (fun T hk => hheap ▸ hk) fun _ => hasync)
        (fun _ _ h => ⟨fun _ => h, fun h => by cases h⟩) fun _ _ h => h
      rw [hview, hnext]
      exact .call hasync
    · refine ⟨fun h => absurd rfl h, fun _ => ⟨?_, fun T hk => ?_, fun ha => ha⟩⟩
      · change m.view.Parks _ (await _ delivery .onCall (startCall b start argument m).2).2.view
        have htask : (startCall b start argument m).2.task = m.task := rfl
        rw [view_await, hview, htask, hnext]
        exact .call delivery
      · change (startCall b start argument m).2.process.heap.Knows T
        rw [hheap]
        exact hk

theorem moves_construct (hun : ¬ m.current.state.isFinished) (c : ClassId) (argument : Value) :
    Moves (· = Reply.parked) (construct c argument) m := by
  unfold construct
  refine moves_after (steady_instantiate c) fun r m₁ h₁ => moves_get ?_
  have hun₁ := h₁.unfinished hun
  dsimp only
  split
  · exact moves_pure (by simp)
  · rename_i function _
    split
    · rename_i body _
      have hnative := moves_runNative hun₁ (.object r) argument body
      have hdiscard : Moves (fun _ => False) (discard (runNative (.object r) argument body)) m₁ := by
        unfold Moves
        rw [Act.wp_discard]
        exact hnative
      exact hdiscard.then hun₁ fun _ m₂ _ => ⟨.refl m₂, by simp⟩
    · exact moves_throw _
    · rename_i start _
      obtain ⟨hnext, hview, hheap⟩ := view_startCall { function, receiver := .object r } start argument m₁
      have hhost : (startCall { function, receiver := .object r } start argument m₁).2.host = m₁.host := rfl
      unfold Moves
      simp only [Act.wp_bind, Act.wp_lift]
      generalize startCall { function, receiver := .object r } start argument m₁ = started at hnext hview hheap hhost
      have hnew : started.2.view.Unfinished := by
        rw [hview]
        exact View.unfinished_add (r := m₁.view.roster) (.inl rfl) (unfinished_view.2 hun₁)
      have hset := steady_setRegister (unfinished_view.1 hnew) (.object r) started.2 (.refl _)
      refine ⟨fun h => absurd rfl h, fun _ => ⟨?_, fun T hk => hset.futures T (hheap ▸ hk), fun ha => hset.async (hhost ▸ ha)⟩⟩
      rw [view_await, hset.view, hset.task, hview, hnext]
      have htask : started.2.task = m₁.task := congrArg View.task hview
      rw [htask]
      exact .call .keep

theorem moves_call (hun : ¬ m.current.state.isFinished) (callee argument : Value) (delivery : Delivery) :
    Moves (· = Reply.parked) (call callee argument delivery) m := by
  unfold call
  split
  · refine moves_after (steady_fetch _) fun o m₁ h₁ => ?_
    have hun₁ := h₁.unfinished hun
    split
    · exact moves_construct hun₁ _ argument
    · exact moves_invoke hun₁ _ argument delivery
    · exact moves_invoke hun₁ _ argument delivery
    · exact moves_get (moves_throw _)
  · exact moves_get (moves_throw _)

/-! ## Waiting -/

theorem wp_fetch (r : Handle) {Q : Object → Machine → Prop} {E : Fault → Machine → Prop}
    (ho : ∀ o, m.process.heap.object? r = some o → Q o m) (he : E .stale m) : (fetch r).wp m Q E := by
  have hrun : fetch r m = (m.process.heap.fetch r, m) := rfl
  unfold Act.wp
  rw [hrun, Heap.fetch]
  cases h : m.process.heap.object? r with
  | none => exact he
  | some o => exact ho o h

/-- A future without an outcome is one of an unfinished task, and is left as it is. -/
theorem wp_futureOutcome {r : Handle} {o : Object} {cell : FutureCell} (ho : m.process.heap.object? r = some o)
    (hcell : o.future? = some cell) : (futureOutcome r).wp m
      (fun outcome m' => m.Steady m' ∧ (outcome = none → m' = m ∧ (∀ T, m.process.heap.Knows T → T cell.task) ∧
        ¬ (m.process.taskAt cell.task).state.isFinished))
      fun _ m' => m.Steady m' := by
  have hpay := Object.payload_of_future? hcell
  unfold futureOutcome
  rw [Act.wp_bind]
  refine wp_fetch r (fun o' ho' => ?_) (.refl m)
  cases ho.symm.trans ho'
  simp only [hcell, Act.wp_bind, Act.wp_get]
  split
  · exact ⟨.refl m, fun h => by cases h⟩
  · rename_i hmem
    split
    · simp only [Act.wp_bind, Act.wp_pure]
      exact Act.wp_mono (Act.wp_of_preserves (steady_memoize r cell.task _) (.refl m)) (fun _ _ h => ⟨h, fun h => by cases h⟩)
        fun _ _ h => h
    · rename_i hun
      refine ⟨.refl m, fun _ => ⟨rfl, fun T hk => hk r o cell.task ho ?_, hun⟩⟩
      simp [hpay, Payload.external?, hmem]

theorem moves_wait (v : Value) : Moves (· = Reply.parked) (wait v) m := by
  unfold wait
  split
  · rename_i r
    unfold Moves
    rw [Act.wp_bind]
    refine wp_fetch r (fun o ho => ?_) fun h => absurd rfl h
    split
    · exact moves_pure (by simp)
    · rename_i cell hcell
      rw [Act.wp_bind]
      refine Act.wp_mono (wp_futureOutcome ho hcell) (fun outcome m₁ h₁ => ?_) fun _ _ h _ => h.stirs
      obtain ⟨hs, hnone⟩ := h₁
      split
      · obtain ⟨rfl, hknown, hun⟩ := hnone rfl
        refine ⟨fun h => absurd rfl h, fun _ => ⟨?_, fun _ hk => hk, fun ha => ha⟩⟩
        change m₁.view.Parks _ (await cell.task .result .onFuture m₁).2.view
        rw [view_await]
        refine .wait cell.task hknown ?_
        change ¬ (m₁.process.roster.standingAt cell.task).state.isFinished
        rw [Process.standingAt_roster]
        exact hun
      · exact ⟨fun _ => hs.stirs, fun h => by cases h⟩
      · exact fun _ => hs.stirs
      · exact fun _ => hs.stirs
  · exact moves_pure (by simp)

/-! ## Loading modules -/

theorem view_startModule (module : ModuleId) (m : Machine) :
    ({ m with process := (m.process.startModule module (some m.task)).2 } : Machine).view = { m.view with
      roster := (m.view.roster.add { parent := some m.task, initializes := some module }).setModule module
        (.initializing m.view.roster.next) } := by
  have hroster := Process.roster_startModule m.process module (some m.task)
  obtain ⟨tasks, contexts, free, modules, heq⟩ := Process.startModule_frame m.process module (some m.task)
  simp only [view, hroster]
  rw [heq]

theorem moves_loadModule (hun : ¬ m.current.state.isFinished) (name : String) :
    Moves (· = Reply.parked) (loadModule name) m := by
  unfold loadModule
  refine moves_get (moves_after (steady_onRegistry (Registry.preserves_resolve Registry.lasting_hasAsync _ name))
    fun module m₁ h₁ => ?_)
  refine moves_after (steady_moduleObject module) fun object m₂ h₂ => moves_get ?_
  split
  · exact moves_throw _
  · refine moves_get (moves_after (steady_moduleObject _) fun importer m₃ h₃ => ?_)
    refine moves_after (steady_setMember importer name _) fun _ m₄ h₄ => moves_get ?_
    have hun₄ := h₄.unfinished (h₃.unfinished (h₂.unfinished (h₁.unfinished hun)))
    split
    · exact moves_pure (by simp)
    · rename_i y hmod
      split
      · exact moves_pure (by simp)
      · rename_i hanc
        refine moves_after (steady_lift (steady_setRegister hun₄ _)) fun _ m₅ h₅ => ?_
        refine ⟨fun h => absurd rfl h, fun _ => ⟨?_, fun _ hk => hk, fun ha => ha⟩⟩
        change m₅.view.Parks _ (await y .keep .onCall m₅).2.view
        rw [view_await]
        have hview := h₅.view
        have htask := h₅.task
        refine .join module y ?_ ?_
        · rw [hview]
          exact hmod
        · rw [hview]
          change y ∉ m₄.process.roster.ancestry m₄.task
          rw [Process.ancestry_roster]
          simpa using hanc
    · rename_i hmod
      unfold Moves
      simp only [Act.wp_bind, Act.wp_lift]
      have hstart := view_startModule module m₄
      obtain ⟨tasks, contexts, free, modules, heq⟩ := Process.startModule_frame m₄.process module (some m₄.task)
      have hheap : (m₄.process.startModule module (some m₄.task)).2.heap = m₄.process.heap := by rw [heq]
      have hfst : (m₄.process.startModule module (some m₄.task)).1 = m₄.view.roster.next :=
        (Process.next_roster m₄.process).symm
      have hnew : ({ m₄ with process := (m₄.process.startModule module (some m₄.task)).2 } : Machine).view.Unfinished := by
        rw [hstart]
        exact View.unfinished_add (r := m₄.view.roster) (.inl rfl) (unfinished_view.2 hun₄)
      have hset := steady_setRegister (unfinished_view.1 hnew) (.object object)
        { m₄ with process := (m₄.process.startModule module (some m₄.task)).2 } (.refl _)
      refine ⟨fun h => absurd rfl h, fun _ => ⟨?_, fun T hk => hset.futures T (hheap ▸ hk), fun ha => hset.async ha⟩⟩
      change m₄.view.Parks _ (await (m₄.process.startModule module (some m₄.task)).1 .keep .onCall
        (enqueue (m₄.process.startModule module (some m₄.task)).1 (setRegister (.object object)
          { m₄ with process := (m₄.process.startModule module (some m₄.task)).2 }).2).2).2.view
      generalize (setRegister (.object object)
          { m₄ with process := (m₄.process.startModule module (some m₄.task)).2 }).2 = m₅ at hset
      have htask : (enqueue m₄.view.roster.next m₅).2.task = m₄.task := hset.task
      rw [view_await, hfst, htask, view_enqueue, hset.view, hstart]
      exact .load module hmod

end Spool.Machine
