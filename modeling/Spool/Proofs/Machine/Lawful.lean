import Spool.Proofs.Machine.Call
import Spool.Proofs.Machine.Glances
import Spool.Proofs.Machine.Moves
import Spool.Proofs.Process.Laws

/-!
# Machines that keep to the law

Whatever a task does keeps to the laws of its process: instructions reach the heap through names, calls, natives, errors
and futures only, and the heap of a new process is filled by copies. An instruction that would write the member `value`
of a guarded object is left out.
-/

namespace Spool.Machine

variable {G : ProcessId → Handle → Prop} {K : Process → Prop} {id : ProcessId} {m m' : Machine} {g : Outlook} {t : TaskId}
  {α β : Type}

/-- The process keeps to its law, and so do those that it has made. -/
structure Lawful (K : Process → Prop) (id : ProcessId) (m : Machine) : Prop where
  id : m.process.id = id
  seeded : m.host.registry.Seeded
  law : K m.process
  bare : m.process.Bare
  nursery : ∀ child ∈ m.host.nursery, K child ∧ child.Bare

/-- A task runs that has not come to its end. -/
structure Busy (K : Process → Prop) (id : ProcessId) (m : Machine) : Prop extends Lawful K id m where
  running : m.task.index < m.process.tasks.size
  unfinished : ¬ m.current.state.isFinished

/-! ## Parts of the machine -/

section
variable (hL : Process.Law G K)
include hL

theorem Lawful.heap (hm : m.Lawful K id) {act : Act Heap α}
    (ha : ∀ K', Heap.Law (G id) K' → K' m.process.heap → K' (act m.process.heap).2) : (onHeap act m).2.Lawful K id := by
  have hG : G m.process.id = G id := congrArg G hm.id
  exact ⟨hm.id, hm.seeded, ha _ (hG ▸ hL.heap m.process) hm.law, Process.bare_of_contexts hm.bare rfl, hm.nursery⟩

theorem Lawful.process (hm : m.Lawful K id) {p : Process} (hheeds : m.process.Heeds p) (hheap : p.heap = m.process.heap)
    (hbare : p.Bare) : ({ m with process := p } : Machine).Lawful K id :=
  ⟨hheeds.id.trans hm.id, hm.seeded, hL.heeds hheeds hheap hm.law, hbare, hm.nursery⟩

/-- The process has changed, but not its heap, and the running task has not come to its end. -/
theorem Busy.process (hm : m.Busy K id) {p : Process} (hheeds : m.process.Heeds p) (hheap : p.heap = m.process.heap)
    (hbare : p.Bare) (hsize : m.process.tasks.size ≤ p.tasks.size) (hun : ¬ (p.taskAt m.task).state.isFinished) :
    ({ m with process := p } : Machine).Busy K id :=
  ⟨hm.toLawful.process hL hheeds hheap hbare, Nat.lt_of_lt_of_le hm.running hsize, hun⟩

/-- Tasks and heap are the same. -/
theorem Busy.contexts (hm : m.Busy K id) {p : Process} (hid : p.id = m.process.id) (ht : p.tasks = m.process.tasks)
    (hheap : p.heap = m.process.heap) (hbare : p.Bare) : ({ m with process := p } : Machine).Busy K id := by
  refine hm.process hL (Process.heeds_of_eq hid ht) hheap hbare (Nat.le_of_eq (congrArg Array.size ht.symm)) ?_
  rw [Process.taskAt, ht]
  exact hm.unfinished

/-- A task has changed, but not how far it is. -/
theorem Busy.modifyTask (hm : m.Busy K id) (x : TaskId) {f : Task → Task}
    (hf : ∀ task, (f task).state = task.state ∧ (f task).register = task.register) :
    ({ m with process := m.process.modifyTask x f } : Machine).Busy K id := by
  refine hm.process hL (Process.heeds_modifyTask _ x hf) rfl (Process.bare_of_contexts hm.bare rfl)
    (Nat.le_of_eq (Array.size_modify ..).symm) ?_
  rw [Process.taskAt_modifyTask]
  split
  · rw [(hf _).1]
    exact hm.unfinished
  · exact hm.unfinished

/-- What the running task does with itself as long as it has not come to its end. -/
theorem Busy.modifyCurrent (hm : m.Busy K id) {f : Task → Task}
    (hf : ∀ task, ¬ task.state.isFinished → ¬ (f task).state.isFinished) : (modifyCurrent f m).2.Busy K id := by
  refine hm.process hL (Process.heeds_modifyTask_of_unfinished hm.unfinished f) rfl (Process.bare_of_contexts hm.bare rfl)
    (Nat.le_of_eq (Array.size_modify ..).symm) ?_
  rw [Process.taskAt_modifyTask]
  split
  · exact hf _ hm.unfinished
  · exact hm.unfinished

theorem Busy.modifyContext (hm : m.Busy K id) (c : ContextId) {f : Context → Context}
    (hf : (m.process.contextAt c).Bare → (f (m.process.contextAt c)).Bare) :
    ({ m with process := m.process.modifyContext c f } : Machine).Busy K id :=
  hm.contexts hL rfl rfl rfl (hm.bare.modifyContext c hf)

theorem glance_busy : Glance (G id) (Busy K id) where
  seeded hm := hm.seeded
  heap ha hm := ⟨hm.toLawful.heap hL ha, hm.running, hm.unfinished⟩
  pin {m} c hm := by
    obtain ⟨contexts, heq⟩ : ∃ contexts, m.process.pin c = { m.process with contexts := contexts } :=
      Process.pinFrom_eq _ c m.process
    have hbare := hm.bare.pin c
    rw [heq] at hbare ⊢
    exact hm.contexts hL rfl rfl rfl hbare

theorem busy_push (v : Value) (hm : m.Busy K id) : (push v m).2.Busy K id :=
  hm.modifyCurrent hL (f := fun t => { t with stack := v :: t.stack }) fun _ h => h

theorem busy_setRegister (v : Value) (hm : m.Busy K id) : (setRegister v m).2.Busy K id :=
  hm.modifyCurrent hL (f := fun t => { t with register := v }) fun _ h => h

theorem busy_pop : Preserves (Busy K id) pop := by
  unfold pop
  refine preserves_get fun s _ => ?_
  split
  · refine preserves_bind (Glance.lift fun m hm => ?_) fun _ => preserves_pure _
    exact hm.modifyCurrent hL (f := fun t => { t with stack := _ }) fun _ h => h
  · exact preserves_throw _

theorem busy_popMany (count : Nat) : Preserves (Busy K id) (popMany count) := by
  have hdrop : Preserves (Busy K id) (modifyCurrent fun t => { t with stack := t.stack.drop count } : Act Machine Unit) :=
    Glance.lift fun m hm => hm.modifyCurrent hL (f := fun t => { t with stack := t.stack.drop count }) fun _ h => h
  unfold popMany
  refine preserves_get fun s _ => ?_
  dsimp only
  split
  · exact preserves_bind (preserves_throw _) fun _ => preserves_bind hdrop fun _ => preserves_pure _
  · exact preserves_bind hdrop fun _ => preserves_pure _

omit hL in
theorem busy_modifyHost {f : Host → Host} (hf : ∀ h : Host, (f h).registry = h.registry ∧ (f h).nursery = h.nursery) :
    Preserves (Busy K id) (modifyHost f : Act Machine Unit) :=
  Glance.lift fun m hm => ⟨⟨hm.id, (hf m.host).1.symm ▸ hm.seeded, hm.law, hm.bare, fun child hc =>
    hm.nursery child ((hf m.host).2 ▸ hc)⟩, hm.running, hm.unfinished⟩

theorem Busy.collectGarbage (hm : m.Busy K id) (hgo : m.Going g (some t)) : (collectGarbage m).2.Busy K id :=
  ⟨⟨hm.id, hm.seeded, hL.collect m.host.registry hgo.sound hgo.mirrored hm.law, Process.bare_of_contexts hm.bare rfl,
    hm.nursery⟩, hm.running, hm.unfinished⟩

/-! ## Futures -/

theorem busy_newFuture (t : TaskId) : Preserves (Busy K id) (newFuture t) :=
  preserves_bind (Glance.lift fun _ hm => hm.modifyTask hL t fun _ => ⟨rfl, rfl⟩) fun _ =>
    (glance_busy hL).newHolder rfl rfl

theorem busy_futureOutcome (r : Handle) : Preserves (Busy K id) (futureOutcome r) := by
  intro m hm
  have hkeep : (futureOutcome r).wp m (fun _ => Busy K id) fun _ => Busy K id := by
    unfold futureOutcome
    rw [Act.wp_bind]
    refine wp_fetch r (fun o ho => ?_) hm
    split
    · exact hm
    · rename_i cell hcell
      have hp := Object.payload_of_future? hcell
      simp only [Act.wp_bind, Act.wp_get]
      split
      · exact hm
      · split
        · rename_i hunread hfin
          have hread : (memoize r cell.task (m.process.taskAt cell.task).register m).2.Busy K id :=
            ⟨⟨hm.id, hm.seeded, hL.read ho hp hunread hfin hm.law, Process.bare_of_contexts hm.bare rfl, hm.nursery⟩,
              hm.running, hm.unfinished⟩
          rw [Act.wp_bind]
          exact .of_state hread
        · exact hm
  exact hkeep.state

/-! ## Native functions -/

omit hL in
theorem busy_setSuper (argument : Value) : Preserves (Busy K id) (setSuper argument) := by
  unfold setSuper
  refine preserves_bind (Glance.expectObject _ _) fun r => preserves_bind (Glance.fetch r) fun o => ?_
  split
  · refine preserves_bind (Glance.expectClass _) fun c => preserves_bind (Glance.expectClass _) fun d => ?_
    intro m hm
    change Busy K id (reparent c d m).2
    rw [reparent_eq]
    cases h : m.host.registry.rebase c d with
    | error e => exact hm
    | ok registry => exact ⟨⟨hm.id, hm.seeded.rebase h, hm.law, hm.bare, hm.nursery⟩, hm.running, hm.unfinished⟩
  · exact preserves_get fun _ _ => preserves_throw _

theorem busy_futureGet (receiver : Value) : Preserves (Busy K id) (futureGet receiver) := by
  unfold futureGet
  refine preserves_bind (Glance.expectObject _ _) fun r => preserves_bind (busy_futureOutcome hL r) fun o => ?_
  split
  · exact preserves_pure _
  · exact preserves_throw _

/-! ## New processes -/

omit hL in
theorem unread_seeded (x : ProcessId) (settings : HeapSettings) (r : Handle) :
    (Process.seeded x settings).heap.Unread r := by
  have hnone : ((Heap.new settings).allocate .process (.process (some x))).2.Unread r := fun o ho => by
    rcases Heap.object?_of_allocate ho with hold | rfl
    · simp [Heap.object?, Heap.lookup?, Heap.new] at hold
    · exact Payload.not_memoized_of_isOrdinary rfl
  exact (Heap.aloof_at r fun o => ¬ o.payload.Memoized).entry _ (fun e => { e with roots := 1 }) (fun _ => rfl) hnone

omit hL in
/-- What is put into the heap of a new process, in which no future has been read. -/
theorem law_furnish {U : Handle → Prop} {P : Heap → Prop} (hP : Heap.Law U P) {source heap : Heap} {registry : Registry}
    (hs : source.Fitting) (hr : registry.Seeded) (hk : P heap) (hd : heap.Orderly) (hp : heap.Present)
    (hu : ∀ r, heap.Unread r) (module : ModuleId) (receiver argument : Value) (object : Handle) :
    P (furnish source registry module receiver argument object heap).2 := by
  let law : Heap → Prop := fun h => P h ∧ ∀ r, True → h.Unread r
  have hlaw : Heap.Law U law := hP.and (Heap.law_unread fun _ => True)
  have hstart : (Copier.new source heap registry).Lawful law source [] := .start ⟨hk, fun r _ => hu r⟩ hd hp hr
  have hcopy : ∀ v, Preserves (Copier.Lawful law source []) (Copier.copy source v) := Copier.lawful_copy hlaw hs
  have hpack : Preserves (Copier.Lawful law source []) (pack source receiver argument object) := by
    refine preserves_bind (hcopy receiver) fun _ => preserves_bind (hcopy argument) fun _ => ?_
    refine preserves_bind (preserves_mk _) fun o => preserves_bind (preserves_mapM (fun b => ?_) _) fun _ => preserves_pure _
    exact preserves_bind (hcopy b.2) fun _ => preserves_pure _
  have hunpack : ∀ globals, Preserves law (unpackModule module globals) := by
    intro globals
    refine preserves_bind (fun _ hk => hlaw.reflect _ hk) fun r => preserves_bind (preserves_forIn (fun b _ => ?_) _ _)
      fun _ => preserves_pure _
    exact preserves_bind (fun _ hk => hlaw.setMember_of_unread (hk.2 r trivial) hk _ _) fun _ => preserves_pure _
  have hpacked := hpack _ hstart
  rcases hx : pack source receiver argument object (Copier.new source heap registry) with ⟨e | baggage, copier⟩
  · rw [hx] at hpacked
    simp only [furnish, hx]
    exact hpacked.law.1
  · rw [hx] at hpacked
    simp only [furnish, hx]
    exact (hunpack _ _ hpacked.law).1

theorem law_launch {child : Process} (hk : K child) (hb : child.Bare) (registry : Registry) (function : FunctionId)
    (start : Nat) (baggage : Baggage) (link : RemoteLink) :
    K (launch child registry function start baggage link) ∧ (launch child registry function start baggage link).Bare := by
  let ready : Process := { child with modules := child.modules.insert (registry.functionAt function).module .ready }
  have hready : child.Heeds ready := Process.heeds_of_eq rfl rfl
  have hstart := Process.heeds_startCall ready registry { function, receiver := baggage.receiver } start baggage.argument none
  have hlink := Process.heeds_modifyTask (ready.startCall registry { function, receiver := baggage.receiver } start
    baggage.argument none).2 ⟨child.tasks.size⟩ (f := fun t => { t with remote := some link }) fun _ => ⟨rfl, rfl⟩
  have hheap := Process.heap_startCall ready registry { function, receiver := baggage.receiver } start baggage.argument none
  refine ⟨hL.heeds (hready.trans (hstart.trans (hlink.trans (Process.heeds_of_eq rfl rfl)))) hheap hk, ?_⟩
  have hbare := Process.Bare.startCall (p := ready) (Process.bare_of_contexts hb rfl) registry
    { function, receiver := baggage.receiver } start baggage.argument none
  exact Process.bare_of_contexts hbare rfl

omit hL in
theorem busy_entryPoint (callee : Value) : Preserves (Busy K id) (entryPoint callee) := by
  refine preserves_bind (Glance.expectObject _ _) fun r => preserves_bind (Glance.fetch r) fun o => ?_
  split
  · exact preserves_pure _
  · exact preserves_pure _
  · exact preserves_get fun _ _ => preserves_throw _

theorem busy_newCarrier (hm : m.Busy K id) : (newCarrier m).2.Busy K id := by
  have hat := Process.taskAt_newCarrier hm.running m.task
  refine hm.process hL (p := (m.process.newCarrier m.task).2) (Process.heeds_newCarrier m.process m.task) rfl
    (hm.bare.newCarrier m.task) ?_ (hat ▸ hm.unfinished)
  simp [Process.newCarrier, Process.newTask, Process.park]

/-- A process that has just been made. -/
structure Fresh (K : Process → Prop) (child : Process) : Prop where
  law : K child
  empty : child.contexts = #[]
  orderly : child.heap.Orderly
  present : child.heap.Present
  unread : ∀ r, child.heap.Unread r

theorem fresh_newProcess (h : Host) : Fresh K h.newProcess.1 :=
  ⟨hL.seeded _ _, rfl, (Process.extends_seeded _ _).1.sound.orderly, fun _ _ => (Process.mirrored_seeded _ _).isLive,
    unread_seeded _ _⟩

theorem Fresh.furnish {child : Process} (hc : Fresh K child) {source : Heap} {registry : Registry} (hs : source.Fitting)
    (hr : registry.Seeded) (module : ModuleId) (receiver argument : Value) (object : Handle) :
    K { child with heap := (furnish source registry module receiver argument object child.heap).2 } :=
  law_furnish (P := fun h => K { child with heap := h }) (hL.heap child) hs hr hc.law hc.orderly hc.present hc.unread
    _ _ _ _

omit hL in
theorem busy_adopt {child : Process} (hk : K child) (hb : child.Bare) :
    Preserves (Busy K id) (modifyHost fun h => { h with nursery := h.nursery ++ [child] } : Act Machine Unit) := by
  refine Glance.lift fun m hm => ⟨⟨hm.id, hm.seeded, hm.law, hm.bare, fun x hx => ?_⟩, hm.running, hm.unfinished⟩
  rcases List.mem_append.1 hx with hx | hx
  · exact hm.nursery x hx
  · cases List.mem_singleton.1 hx
    exact ⟨hk, hb⟩

theorem busy_spawn (callee argument : Value) : Preserves (Busy K id) (spawn callee argument) := by
  intro m hm
  have hkeep : (spawn callee argument).wp m (fun _ => Busy K id) fun _ => Busy K id := by
    unfold spawn
    rw [Act.wp_bind]
    refine Act.wp_mono (Act.wp_of_preserves (busy_entryPoint callee) hm) (fun b m₁ hm₁ => ?_) fun _ _ h => h
    rw [Act.wp_bind, Act.wp_get]
    dsimp only
    split
    · rw [Act.wp_bind]
      refine Act.wp_mono (Act.wp_of_preserves ((glance_busy hL).moduleObject _) hm₁) (fun object m₂ hm₂ => ?_) fun _ _ h => h
      have hborn : ({ m₂ with host := m₂.host.newProcess.2 } : Machine).Busy K id :=
        ⟨⟨hm₂.id, hm₂.seeded, hm₂.law, hm₂.bare, hm₂.nursery⟩, hm₂.running, hm₂.unfinished⟩
      have hcarried := busy_newCarrier hL hborn
      have hfresh := fresh_newProcess hL m₂.host
      have hfurnished := hfresh.furnish hL (hL.fitting hcarried.law) hm₁.seeded
        (m₁.host.registry.functionAt b.function).module b.receiver argument object
      simp only [Act.wp_bind, Act.wp_modifyGet, Act.wp_lift, Act.wp_get]
      generalize ({ m₂ with host := m₂.host.newProcess.2 } : Machine).newCarrier = x at *
      have hbare : ∀ heap : Heap, ({ m₂.host.newProcess.1 with heap } : Process).Bare := fun _ => Process.bare_of_empty hfresh.empty
      generalize m₂.host.newProcess.1 = child at *
      rcases hf : furnish x.2.process.heap m₁.host.registry (m₁.host.registry.functionAt b.function).module b.receiver
        argument object child.heap with ⟨e | baggage, heap⟩
      all_goals rw [hf] at hfurnished
      · exact Act.wp_of_preserves (preserves_bind (busy_adopt hfurnished (hbare heap)) fun _ => preserves_throw e) hcarried
      · obtain ⟨hk, hb⟩ := law_launch hL hfurnished (hbare heap) m₁.host.registry b.function _ baggage
          ⟨x.2.process.id, x.1⟩
        exact Act.wp_of_preserves (preserves_bind (busy_adopt hk hb) fun _ =>
          preserves_bind (busy_newFuture hL _) fun _ => preserves_pure _) hcarried
    · exact hm₁
  exact hkeep.state

theorem busy_processStart (receiver argument : Value) : Preserves (Busy K id) (processStart receiver argument) := by
  have hstart : ∀ (r : Handle) (o : Object), Preserves (Busy K id) (launchEntry r o argument) := by
    intro r o
    unfold launchEntry
    split
    · exact preserves_throw _
    · refine preserves_bind (busy_spawn hL _ argument) fun x => preserves_bind ?_ fun _ => preserves_pure _
      exact (glance_busy hL).onHeap fun _ hK _ hk =>
        hK.putPayload (Heap.admits_of_takes (fun _ _ => .fits ⟨by simp [Payload.home?], by simp⟩ rfl) (by simp)) hk
  unfold processStart
  refine preserves_bind (Glance.expectObject _ _) fun r => preserves_bind (Glance.fetch r) fun o => ?_
  dsimp only
  split
  · exact preserves_bind (preserves_throw _) fun _ => hstart r o
  · exact hstart r o

theorem busy_runNative (receiver argument : Value) {body : Native} (hbody : body ≠ .collect) :
    Preserves (Busy K id) (runNative receiver argument body) := by
  have hG : Glance (G id) (Busy K id) := glance_busy hL
  cases body with
  | print => exact preserves_get fun _ _ => preserves_bind (busy_modifyHost fun _ => ⟨rfl, rfl⟩) fun _ => preserves_pure _
  | println => exact preserves_get fun _ _ => preserves_bind (busy_modifyHost fun _ => ⟨rfl, rfl⟩) fun _ => preserves_pure _
  | errorln => exact preserves_get fun _ _ => preserves_bind (busy_modifyHost fun _ => ⟨rfl, rfl⟩) fun _ => preserves_pure _
  | str => exact hG.asText argument
  | len => exact Glance.length argument
  | setSuper => exact busy_setSuper argument
  | remote => exact preserves_get fun _ _ => hG.newRemote _ argument
  | currentTask => exact preserves_get fun _ _ => hG.newHolder rfl rfl
  | currentContext =>
      refine preserves_get fun m _ => ?_
      split
      · exact preserves_bind (Glance.lift fun _ hm => hG.pin _ hm) fun _ => hG.newHolder rfl rfl
      · exact preserves_pure _
  | ownLen => exact Glance.length receiver
  | concat => exact hG.concat receiver argument
  | arrayPush =>
      exact preserves_bind (Glance.expectObject _ _) fun r =>
        preserves_bind (hG.onHeap fun _ hK => hK.arrayPush r argument) fun _ => preserves_pure _
  | arrayPop =>
      refine preserves_bind (Glance.expectObject _ _) fun r => preserves_bind (hG.onHeap fun _ hK => hK.arrayPop r) fun v => ?_
      split
      · exact preserves_pure _
      · exact preserves_throw _
  | errorNew => exact hG.errorNew receiver argument
  | futureIsComplete =>
      exact preserves_bind (Glance.expectObject _ _) fun r => preserves_bind (busy_futureOutcome hL r) fun _ => preserves_pure _
  | futureGet => exact busy_futureGet hL receiver
  | taskId =>
      refine preserves_bind (Glance.receiverPayload _ _) fun x => ?_
      split
      · exact preserves_pure _
      · exact preserves_pure _
  | taskState =>
      refine preserves_bind (Glance.receiverPayload _ _) fun x => ?_
      split
      · exact hG.taskState _
      · exact preserves_pure _
  | contextModule =>
      refine preserves_bind (Glance.receiverPayload _ _) fun x => ?_
      split
      · exact preserves_get fun _ _ => hG.reflect _
      · exact preserves_pure _
  | contextFunction =>
      refine preserves_bind (Glance.receiverPayload _ _) fun x => ?_
      split
      · exact hG.contextFunction _
      · exact preserves_pure _
  | processNew =>
      exact preserves_bind (Glance.expectObject _ _) fun r =>
        preserves_bind (hG.setMember r (by decide) argument) fun _ => preserves_pure _
  | processStart => exact busy_processStart hL receiver argument
  | processNumber =>
      refine preserves_bind (Glance.receiverPayload _ _) fun x => ?_
      split
      · exact preserves_pure _
      · exact preserves_pure _
  | pair => exact hG.newTuple _
  | lost => exact hG.newRemote _ argument
  | collect => exact absurd rfl hbody

theorem Busy.runNative (hm : m.Busy K id) (hgo : m.Going g (some t)) (receiver argument : Value) (body : Native) :
    (Machine.runNative receiver argument body m).2.Busy K id := by
  by_cases hbody : body = .collect
  · subst hbody
    exact hm.collectGarbage hL hgo
  · exact busy_runNative hL receiver argument hbody m hm

/-! ## Calls -/

theorem busy_park (reason : WaitReason) (hm : m.Busy K id) : (park reason m).2.Busy K id := by
  have hparked := hm.modifyCurrent hL (f := (·.park reason)) fun _ _ => by simp [Task.park, TaskState.isFinished]
  exact hparked.contexts hL (p := m.process.park m.task reason) rfl rfl rfl (Process.bare_of_contexts hm.bare rfl)

theorem busy_await (t : TaskId) (delivery : Delivery) (reason : WaitReason) (hm : m.Busy K id) :
    (await t delivery reason m).2.Busy K id :=
  busy_park hL reason (hm.modifyTask hL t fun _ => ⟨rfl, rfl⟩)

theorem busy_enqueue (t : TaskId) (hm : m.Busy K id) : (enqueue t m).2.Busy K id :=
  hm.contexts hL rfl rfl rfl (Process.bare_of_contexts hm.bare rfl)

theorem busy_startCall (b : BoundFunction) (start : Nat) (argument : Value) (hm : m.Busy K id) :
    (startCall b start argument m).2.Busy K id := by
  have hat := Process.taskAt_startCall hm.running m.host.registry b start argument (some m.task)
  have hsize : m.process.tasks.size ≤ (m.process.startCall m.host.registry b start argument (some m.task)).2.tasks.size :=
    size_startCall m.process _ b start argument _ ▸ Nat.le_succ _
  exact busy_enqueue hL _ (hm.process hL (Process.heeds_startCall _ _ b start argument (some m.task))
    (Process.heap_startCall _ _ b start argument _) (hm.bare.startCall _ b start argument (some m.task)) hsize
    (hat ▸ hm.unfinished))

theorem busy_hold (v : Value) : Preserves (Busy K id) (hold v) := by
  cases v with
  | none => exact preserves_pure _
  | scalar s => exact preserves_pure _
  | object r => exact preserves_bind ((glance_busy hL).onHeap fun _ hK => hK.root r) fun _ => preserves_pure _

theorem busy_submit (call : BackgroundCall) (hm : m.Busy K id) : (submit call m).2.Busy K id :=
  busy_modifyHost (f := fun h => { h with pool := h.pool.submit call }) (fun _ => ⟨rfl, rfl⟩) _
    (hm.contexts hL (p := { m.process with inFlight := m.process.inFlight + 1 }) rfl rfl rfl
      (Process.bare_of_contexts hm.bare rfl))

theorem busy_launchBackground (async : Bool) (body : Background) (receiver argument : Value) (delivery : Delivery) :
    Preserves (Busy K id) (launchBackground async body receiver argument delivery) := by
  unfold launchBackground
  refine preserves_bind (Glance.lift fun _ => busy_newCarrier hL) fun carrier => ?_
  refine preserves_bind (busy_hold hL receiver) fun first => preserves_bind (busy_hold hL argument) fun second => ?_
  refine preserves_get fun m _ => preserves_bind (Glance.lift fun _ => busy_submit hL _) fun _ => ?_
  split
  · exact preserves_bind (busy_newFuture hL carrier) fun _ => preserves_pure _
  · exact Glance.lift fun _ => busy_await hL carrier delivery _

theorem Busy.invoke (hm : m.Busy K id) (hgo : m.Going g (some t)) (b : BoundFunction) (argument : Value)
    (delivery : Delivery) : (Machine.invoke b argument delivery m).2.Busy K id := by
  have hkeep : (Machine.invoke b argument delivery).wp m (fun _ => Busy K id) fun _ => Busy K id := by
    unfold Machine.invoke
    rw [Act.wp_bind, Act.wp_get]
    dsimp only
    split
    · exact .of_state (holds_bind (hm.runNative hL hgo _ argument _) fun _ => preserves_pure _)
    · exact Act.wp_of_preserves (busy_launchBackground hL _ _ _ argument delivery) hm
    · refine .of_state (holds_bind (busy_startCall hL b _ argument hm) fun t => ?_)
      split
      · exact preserves_bind (busy_newFuture hL t) fun _ => preserves_pure _
      · exact Glance.lift fun _ => busy_await hL t delivery _
  exact hkeep.state

omit hL in
/-- What an action keeps when it comes after one that keeps the machine going. -/
theorem Busy.after {act : Act Machine α} {k : α → Act Machine β} {cur : Option TaskId} {P : α → Machine → Prop}
    (hm : m.Busy K id) (ha : Preserves (Busy K id) act) (hgo : Keeps g cur act m P)
    (hk : ∀ a m', m'.Busy K id → m'.Going g cur → m.Grows m' → P a m' → (k a m').2.Busy K id) :
    ((act >>= k) m).2.Busy K id := by
  have hboth : (act >>= k).wp m (fun _ => Busy K id) fun _ => Busy K id := by
    rw [Act.wp_bind]
    refine Act.wp_mono (Act.wp_and hgo (Act.wp_of_preserves ha hm)) (fun a m' h => ?_) fun _ _ h => h.2
    exact .of_state (hk a m' h.2 h.1.1 h.1.2.1 h.1.2.2)
  exact hboth.state

/-- No constructor collects garbage. -/
theorem Busy.construct (hm : m.Busy K id) (hgo : m.Going g (some t)) (c : ClassId) (argument : Value) :
    (Machine.construct c argument m).2.Busy K id := by
  unfold Machine.construct
  refine hm.after ((glance_busy hL).instantiate c) (keeps_instantiate hgo c) fun r m₁ hm₁ hgo₁ _ _ => ?_
  refine Act.wp.state ?_
  rw [Act.wp_bind, Act.wp_get]
  dsimp only
  split
  · exact hm₁
  · rename_i function hfind
    split
    · rename_i body hkind
      have hbody : body ≠ .collect := by
        rintro rfl
        exact hgo₁.inv.serves.calm.findMethod? hfind hkind
      exact Act.wp_of_preserves (preserves_bind (preserves_discard (busy_runNative hL _ argument hbody)) fun _ =>
        preserves_pure _) hm₁
    · exact hm₁
    · refine Act.wp_of_preserves (preserves_bind (Glance.lift fun _ => busy_startCall hL _ _ argument) fun t => ?_) hm₁
      exact preserves_bind (Glance.lift fun _ => busy_setRegister hL _) fun _ => Glance.lift fun _ => busy_await hL t .keep _

theorem Busy.call (hm : m.Busy K id) (hgo : m.Going g (some t)) (callee argument : Value)
    (delivery : Delivery) : (Machine.call callee argument delivery m).2.Busy K id := by
  unfold Machine.call
  split
  · rename_i r
    refine Act.wp.state ?_
    rw [Act.wp_bind]
    refine wp_fetch r (fun o ho => ?_) hm
    split
    · exact .of_state (hm.construct hL hgo _ argument)
    · exact .of_state (hm.invoke hL hgo _ argument delivery)
    · exact .of_state (hm.invoke hL hgo _ argument delivery)
    · exact Act.wp_of_preserves (preserves_get fun _ _ => preserves_throw _) hm
  · exact preserves_get (fun _ _ => preserves_throw _) m hm

theorem busy_wait (v : Value) : Preserves (Busy K id) (wait v) := by
  unfold wait
  split
  · refine preserves_bind (Glance.fetch _) fun o => ?_
    split
    · exact preserves_pure _
    · refine preserves_bind (busy_futureOutcome hL _) fun x => ?_
      split
      · exact Glance.lift fun _ => busy_await hL _ _ _
      · exact preserves_pure _
      · exact preserves_throw _
      · exact preserves_throw _
  · exact preserves_pure _

end

end Spool.Machine
