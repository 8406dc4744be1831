import Spool.Proofs.Machine.Sturdy
import Spool.Proofs.World.Stranded

/-!
# Contexts in every world

In every world that can come about, and at every moment of a round, the contexts of a process are in order and on their
tapes. So a context that is used again is one that nothing leads to, and an instruction that is done is one of a tape that
has been checked.
-/

namespace Spool

/-! ## Background calls -/

namespace Errand

variable {Q : Payload → Prop} {α : Type}

/-- Every payload of the heap has `Q`. -/
def Each (Q : Payload → Prop) (e : Errand) : Prop := e.heap.Each Q

theorem each_onHeap {act : Act Heap α} (ha : Preserves (Heap.Each Q) act) : Preserves (Each Q) (onHeap act) :=
  fun e he => ha e.heap he

theorem each_look (f : Errand → Except Fault α) : Preserves (Each Q) (ExceptT.mk do return f (← get)) := fun _ he => he

theorem each_hold (v : Value) : Preserves (Each Q) (hold v) := by
  cases v with
  | none => exact preserves_pure _
  | scalar s => exact preserves_pure _
  | object r =>
      refine preserves_bind (each_onHeap (Heap.each_root r)) fun _ => preserves_bind ?_ fun _ => preserves_pure _
      exact fun _ he => he

theorem each_textArgument (v : Value) : Preserves (Each Q) (textArgument v) := by
  cases v with
  | none => exact preserves_throw _
  | scalar s => exact preserves_throw _
  | object r =>
      refine preserves_bind (each_look _) fun o => ?_
      split
      · exact preserves_pure _
      · exact preserves_throw _

theorem each_remoteTarget (v : Value) : Preserves (Each Q) (remoteTarget v) := by
  cases v with
  | none => exact preserves_throw _
  | scalar s => exact preserves_throw _
  | object r =>
      refine preserves_bind (each_look _) fun o => ?_
      split
      · exact preserves_pure _
      · exact preserves_throw _

section
variable (hQ : ∀ p : Payload, p.isLoose → Q p)
include hQ

theorem each_carry (registry : Registry) (source : Heap) (v : Value) : Preserves (Each Q) (carry registry source v) := by
  refine each_onHeap fun h hh => ?_
  exact (Copier.each_copy hQ v _ (Copier.each_start source hh registry)).target

theorem each_remoteGet (w : World) (own : ProcessId) (receiver argument : Value) :
    Preserves (Each Q) (remoteGet w own receiver argument) := by
  refine preserves_bind (each_textArgument argument) fun name => preserves_bind (each_remoteTarget receiver) fun target => ?_
  split
  · exact preserves_bind (each_look _) fun v => each_hold v
  · split
    · exact preserves_throw _
    · refine preserves_bind (preserves_mk _) fun v => preserves_bind (each_carry hQ _ _ v) fun v => each_hold v

/-- What a background call makes refers to no context. -/
theorem each_run (w : World) (call : BackgroundCall) : Preserves (Each Q) (run w call) := by
  unfold run
  split
  · exact preserves_mk _
  · exact each_remoteGet hQ w _ _ _
  · refine preserves_bind (each_textArgument _) fun s => ?_
    exact preserves_bind (each_onHeap (Heap.each_create .string (hQ _ rfl))) fun r => each_hold _
  · exact preserves_pure _
  · exact preserves_throw _
  · exact preserves_throw _

end

end Errand

/-! ## Processes in order -/

namespace Process

variable {p : Process} {r : Registry}

/-- The objects refer to no other contexts than before. -/
theorem Firm.heap (hp : p.Firm r) {h : Heap} (hh : h.Each fun x => ∀ c, x.context? = some c → p.heap.Cites c) :
    ({ p with heap := h } : Process).Firm r :=
  ⟨hp.arena.heap fun _ hc => .inl (hh.cites hc), hp.onTape.stands (stands_of_eq rfl rfl)⟩

theorem loose_cites (h : Heap) (x : Payload) (hx : x.isLoose) : ∀ c, x.context? = some c → h.Cites c := by
  intro c hc
  rw [Payload.context?_of_isLoose hx] at hc
  cases hc

theorem firm_main (r : Registry) (id : ProcessId) (settings : HeapSettings) (module : ModuleId) :
    (Process.main id settings module).Firm r := by
  have hseed : (seeded id settings).Arena [] := arena_of_empty rfl rfl rfl (unbound_seeded id settings).not_cites
  have htape : (seeded id settings).OnTape r := onTape_of_empty rfl rfl
  have hstart : ((seeded id settings).startModule module none).2.Firm r :=
    ⟨hseed.startModule module none, htape.startModule hseed module none⟩
  exact hstart.congr rfl rfl rfl rfl

end Process

namespace World

variable {w w' : World} {p q : Process} {m : Machine} {id : ProcessId} {s : Stage}

structure Firm (w : World) : Prop where
  checked : w.host.registry.Checked
  processes : ∀ p ∈ w.processes.items, p.Firm w.host.registry

theorem Firm.machine (hw : w.Firm) (hinv : w.Inv) (hp : p.Firm w.host.registry) (t : TaskId) :
    ({ host := w.host, process := p, task := t } : Machine).Sturdy w.host.registry := by
  refine ⟨.refl _, hw.checked, hp, ?_⟩
  change ∀ child ∈ w.host.nursery, _
  simp [hinv.settled]

theorem Firm.settle (hw : w.Firm) (hp : w.processes.get? id = some p) (hm : m.Sturdy w.host.registry) :
    (w.settle id m).Firm := by
  refine ⟨hm.checked, fun q hq => ?_⟩
  obtain ⟨i, hi⟩ := Array.mem_iff_getElem?.1 hq
  rcases processes_settle hp m hi with ⟨_, rfl⟩ | ⟨_, hold⟩ | ⟨_, _, hchild⟩
  · exact hm.firm
  · exact (hw.processes q (Array.mem_of_getElem? hold)).longer hm.longer
  · exact hm.nursery q (List.mem_of_getElem? hchild)

theorem Firm.put (hw : w.Firm) (hp : w.processes.get? id = some p) (hq : q.Firm w.host.registry) :
    ({ w with processes := w.processes.set id q } : World).Firm := by
  refine ⟨hw.checked, fun x hx => ?_⟩
  obtain ⟨i, hi⟩ := Array.mem_iff_getElem?.1 hx
  change (w.processes.set id q).items[i]? = some x at hi
  rw [Processes.getElem?_set hp] at hi
  split at hi
  · cases hi
    exact hq
  · exact hw.processes x (Array.mem_of_getElem? hi)

theorem Round.sturdy (hw : w.Firm) (hinv : w.Inv) (hp : p ∈ w.processes.items) (hm : Round w p s m) :
    m.Sturdy w.host.registry := by
  induction hm with
  | settle _ =>
      have hawake : (awaken p).Firm w.host.registry := by
        unfold awaken
        split
        · exact (hw.processes p hp).congr rfl rfl rfl rfl
        · exact hw.processes p hp
      exact Machine.sturdy_settleAll (hw.machine hinv hawake ⟨0⟩)
  | @begin m t queue _ _ ih =>
      have hfirm : ({ m.process with queue } : Process).Firm m.host.registry := ih.firm.congr rfl rfl rfl rfl
      have hbegin := (ih.process hfirm).turn t
      exact Machine.sturdy_paces hbegin (Machine.paces_resume hbegin)
  | advance _ ih => exact Machine.sturdy_paces ih (Machine.paces_advance ih)
  | conclude _ ih => exact Machine.sturdy_conclude ih
  | tidy _ ih => exact ih.does (Machine.does_tidy _)
  | collect _ _ ih => exact ih.does (Machine.does_collectGarbage _)

/-! ## Events -/

theorem Firm.tick (hw : w.Firm) (hinv : w.Inv) {fuel : Nat} (h : w.tick fuel id = some w') : w'.Firm := by
  unfold World.tick at h
  split at h
  · cases h
    exact hw
  · rename_i p hp
    split at h
    · rename_i hc
      rw [Option.map_eq_some_iff] at h
      obtain ⟨m, hrun, rfl⟩ := h
      obtain ⟨m', hround, heq⟩ := Round.tick hinv (hinv.get? hp).1 hc hrun
      have hm' := hround.sturdy hw hinv (hinv.get? hp).1
      refine hw.settle hp ?_
      rw [heq]
      exact hm'.process (hm'.firm.congr rfl rfl rfl rfl)
    · cases h
      exact hw

theorem firm_sent (hp : p.Firm w.host.registry) (v : Value) : (sent p v).Firm w.host.registry := by
  have hunroot : ∀ r, ({ p with heap := (Heap.unroot r p.heap).2 } : Process).Firm w.host.registry := fun r =>
    hp.heap (Heap.each_unroot r _ p.heap.each_cites)
  unfold sent
  cases v with
  | none => exact hp.congr rfl rfl rfl rfl
  | scalar s => exact hp.congr rfl rfl rfl rfl
  | object r => exact (hunroot r).congr rfl rfl rfl rfl

theorem Firm.copied (hw : w.Firm) (hinv : w.Inv) (hq : q ∈ w.processes.items) {source : Heap} {v : Value}
    {copied : Except Fault Value} {copier : Copier}
    (hcopy : Copier.copy source v (Copier.new source q.heap w.host.registry) = (copied, copier)) (t : TaskId) :
    ({ host := w.host, process := { q with heap := copier.target }, task := t } : Machine).Sturdy w.host.registry := by
  have heach := Copier.each_copy (Process.loose_cites q.heap) v _
    (Copier.each_start source q.heap.each_cites w.host.registry)
  rw [hcopy] at heach
  exact hw.machine hinv ((hw.processes q hq).heap heach.target) t

theorem Firm.received (hw : w.Firm) (hinv : w.Inv) (hq : q ∈ w.processes.items) (p : Process) (out : Outgoing) :
    (w.received p q out).Sturdy w.host.registry := by
  rcases hcopy : Copier.copy p.heap (p.taskAt out.task).register (Copier.new p.heap q.heap w.host.registry) with
    ⟨copied, copier⟩
  rw [received_eq hcopy]
  exact Machine.sturdy_endCarrier (hw.copied hinv hq hcopy _) _ _

theorem Firm.deliver (hw : w.Firm) (hinv : w.Inv) (id : ProcessId) : (w.deliver id).Firm := by
  rcases hinv.deliver_cases id with h | ⟨p, q, out, rfl, hd⟩
  · rw [deliver_eq_self h]
    exact hw
  · obtain ⟨_, hnursery⟩ := hinv.received hd
    have hsending : (w.sending p out).Firm :=
      hw.put hd.sender (firm_sent (hw.processes p (hinv.get? hd.sender).1) _)
    have hinv₁ := hinv.sending hd
    have hm := hsending.received hinv₁ (hinv₁.get? hd.get?_sending).1 p out
    rw [hd.deliver_eq, ← settle_eq (m := { (w.sending p out).received p q out with
      process := { ((w.sending p out).received p q out).process with poked := true } }) hnursery]
    exact hsending.settle hd.get?_sending (hm.process (hm.firm.congr rfl rfl rfl rfl))

theorem Firm.complete (hw : w.Firm) (hinv : w.Inv) (alarm : Alarm) : (w.complete alarm).Firm := by
  unfold World.complete
  split
  · rename_i call hrunning
    have hcall : call ∈ w.host.pool.jobs := (Pool.jobs_finish hrunning).mem_iff.1 List.mem_cons_self
    let w₁ : World := { w with clock := max w.clock alarm.due, alarms := w.alarms.erase alarm }
    have hw₁ : w₁.Firm := ⟨hw.checked, hw.processes⟩
    obtain ⟨p, hp⟩ := (hinv.calls call hcall).get?
    rcases hrun : Errand.run w₁ call { heap := p.heap, held := call.held } with ⟨result, e⟩
    have heach := Errand.each_run (Process.loose_cites p.heap) w₁ call { heap := p.heap, held := call.held }
      p.heap.each_cites
    rw [hrun] at heach
    have hback : ({ p with
        heap := e.heap
        completions := p.completions ++ [{ task := call.carrier, result, held := e.held }] } : Process).Firm
          w.host.registry := ((hw.processes p (hinv.get? hp).1).heap heach).congr rfl rfl rfl rfl
    have hput := hw₁.put hp hback
    dsimp only
    rw [performCall_eq (w := w₁) hp hrun]
    exact ⟨hput.checked, hput.processes⟩
  · exact hw

theorem Firm.engage (hw : w.Firm) (worker : WorkerId) : (w.engage worker).Firm := by
  unfold World.engage
  split
  · exact hw
  · dsimp only
    split
    · exact ⟨hw.checked, hw.processes⟩
    · exact ⟨hw.checked, hw.processes⟩

theorem Firm.step (hw : w.Firm) (hinv : w.Inv) {fuel : Nat} {e : Event} (h : w.step fuel e = some w') : w'.Firm := by
  cases e with
  | tick id => exact hw.tick hinv h
  | deliver id =>
      cases h
      exact hw.deliver hinv id
  | engage worker =>
      cases h
      exact hw.engage worker
  | complete alarm =>
      cases h
      exact hw.complete hinv alarm

/-! ## What is done from outside -/

theorem Firm.registry (hw : w.Firm) {registry : Registry} (hr : w.host.registry.Leads registry) :
    ({ w with host := { w.host with registry } } : World).Firm :=
  ⟨hr.checked hw.checked, fun p hp => (hw.processes p hp).longer hr.longer⟩

theorem firm_onRegistry {α : Type} {act : Registry.Entry α} (ha : ∀ P, Registry.Lasting P → Preserves P act) :
    Preserves Firm (onRegistry act) :=
  fun w hw => hw.registry (Registry.leads_of_lasting ha w.host.registry)

theorem firm_startMain (name : String) : Preserves Firm (startMain name) := by
  unfold startMain
  refine preserves_get fun w _ => ?_
  refine preserves_bind (firm_onRegistry fun P hP => Registry.preserves_resolve hP w.host.library name) fun module w hw => ?_
  refine ⟨hw.checked, fun p hp => ?_⟩
  rcases Array.mem_push.1 hp with hp | rfl
  · exact hw.processes p hp
  · exact Process.firm_main _ ⟨w.host.born + 1⟩ w.host.heapSettings module

theorem Firm.handled (hw : w.Firm) (hinv : w.Inv) (h : Handled w w') : w'.Firm := by
  cases h with
  | addHostModule => exact hw.registry (Registry.leads_addHostModule _)
  | register m => exact firm_onRegistry (fun P hP => Registry.preserves_register hP m _ _) w hw
  | loadFile path =>
      have hload : Preserves Firm (World.loadFile path) := preserves_get fun w' _ =>
        firm_onRegistry fun P hP => Registry.preserves_loadFile hP w'.host.library path
      exact hload w hw
  | startMain name => exact firm_startMain name w hw
  | collect id =>
      cases hp : w.processes.get? id with
      | none =>
          have hset : ∀ q, w.processes.set id q = w.processes := fun q => Processes.set_of_get?_eq_none hp q
          simp only [World.collect, hset]
          exact hw
      | some p =>
          have hfetch : w.processes.fetch id = p := Processes.fetch_of_get? hp
          simp only [World.collect, hfetch]
          exact hw.put hp ((hw.processes p (hinv.get? hp).1).heap (p.heap.each_cites.collect _ _))

theorem firm_create {r : MachineRequest} (h : create r = .ok w) : w.Firm := by
  obtain ⟨_, _, rfl⟩ := eq_of_create h
  exact ⟨Registry.checked_initial, by simp⟩

theorem Arises.firm (hw : w.Arises) : w.Firm := by
  induction hw with
  | create h => exact firm_create h
  | addHostModule hw ih => exact ih.handled hw.inv .addHostModule
  | register m hw ih => exact ih.handled hw.inv (.register m)
  | loadFile path hw ih => exact ih.handled hw.inv (.loadFile path)
  | startMain name hw ih => exact ih.handled hw.inv (.startMain name)
  | step hw h ih => exact ih.step hw.inv h
  | collect id hw ih => exact ih.handled hw.inv (.collect id)

/-! ## Modules stay -/

theorem Arises.longer_step (hw : w.Arises) (h : w.step fuel e = some w') : w.host.registry.Longer w'.host.registry := by
  have hinv := hw.inv
  cases e with
  | tick z =>
      rcases tick_cases h with ⟨rfl, _⟩ | ⟨p, m, hp, hcan, hrun, rfl⟩
      · exact .refl _
      · obtain ⟨m', hround, heq⟩ := Round.tick hinv (hinv.get? hp).1 hcan hrun
        have hsturdy := hround.sturdy hw.firm hinv (hinv.get? hp).1
        change w.host.registry.Longer m.host.registry
        rw [heq]
        exact hsturdy.longer
  | deliver z =>
      cases h
      rcases hinv.deliver_cases z with h | ⟨p, q, out, rfl, hd⟩
      · rw [deliver_eq_self h]
        exact .refl _
      · have hsending : (w.sending p out).Firm :=
          hw.firm.put hd.sender (firm_sent (hw.firm.processes p (hinv.get? hd.sender).1) _)
        have hinv₁ := hinv.sending hd
        rw [hd.deliver_eq]
        exact (hsending.received hinv₁ (hinv₁.get? hd.get?_sending).1 p out).longer
  | engage worker =>
      cases h
      unfold World.engage
      split
      · exact .refl _
      · dsimp only
        split <;> exact .refl _
  | complete alarm =>
      cases h
      unfold World.complete
      split
      · exact .refl _
      · exact .refl _

theorem Handled.longer (h : Handled w w') : w.host.registry.Longer w'.host.registry := by
  have hlasts : ∀ {α : Type} {act : Registry.Entry α}, (∀ P, Registry.Lasting P → Preserves P act) →
      Preserves (fun w' => w.host.registry.Longer w'.host.registry) (onRegistry act) := fun ha w' hr =>
    hr.trans (Registry.leads_of_lasting ha w'.host.registry).longer
  have hself : w.host.registry.Longer w.host.registry := .refl _
  cases h with
  | addHostModule => exact (Registry.leads_addHostModule _).longer
  | register m => exact hlasts (fun P hP => Registry.preserves_register hP m _ _) w hself
  | loadFile path =>
      have hload : Preserves (fun w' : World => w.host.registry.Longer w'.host.registry) (World.loadFile path) :=
        preserves_get fun w' _ => hlasts fun P hP => Registry.preserves_loadFile hP w'.host.library path
      exact hload w hself
  | startMain name =>
      have hstart : Preserves (fun w' : World => w.host.registry.Longer w'.host.registry) (World.startMain name) := by
        unfold World.startMain
        refine preserves_get fun w' _ => ?_
        exact preserves_bind (hlasts fun P hP => Registry.preserves_resolve hP w'.host.library name) fun module w' hw' => hw'
      exact hstart w hself
  | collect z => exact .refl _

end World

/-! ## What is used again -/

/-- A name may still be looked up in the context, or it is kept from being used again. -/
inductive Process.InUse (p : Process) : ContextId → Prop where
  | frame {t : TaskId} {task : Task} {c d : ContextId} : p.tasks[t.index]? = some task → ¬ task.state.isFinished →
      c ∈ task.contexts → p.Encloses c d → InUse p d
  | pinned {c : ContextId} : (p.contextAt c).pinned → InUse p c
  | captured {r : Handle} {o : Object} {b : BoundFunction} {c d : ContextId} : p.heap.object? r = some o →
      o.payload = .bound b → b.capture = some c → p.Encloses c d → InUse p d
  | reflected {r : Handle} {o : Object} {c d : ContextId} : p.heap.object? r = some o → o.payload = .context c →
      p.Encloses c d → InUse p d

/-- What is used again is used once, by nobody else; a new context takes the place of none that is in use. -/
structure Process.Recycles (p : Process) : Prop where
  nodup : p.freeContexts.Nodup
  unused : ∀ c ∈ p.freeContexts, ¬ p.InUse c
  spared : ∀ x c, p.InUse c → (p.newContext x).2.contextAt c = p.contextAt c

namespace Process

variable {p : Process} {c : ContextId}

/-- What is in use is on a stack or pinned. -/
theorem Arena.of_inUse (hp : p.Arena []) (hc : p.InUse c) : c ∈ p.stacked ∨ (p.contextAt c).pinned := by
  cases hc with
  | frame ht _ hmem hd => exact hp.encloses (mem_stacked (Array.mem_of_getElem? ht) hmem) hd
  | pinned h => exact .inr h
  | captured ho hb hcap hd =>
      refine .inr (hp.encloses_pinned (hp.cited _ ⟨_, _, ho, ?_⟩) hd)
      rw [hb]
      exact hcap
  | reflected ho hb hd =>
      refine .inr (hp.encloses_pinned (hp.cited _ ⟨_, _, ho, ?_⟩) hd)
      rw [hb]
      rfl

theorem Arena.recycles (hp : p.Arena []) : p.Recycles := by
  refine ⟨(List.nodup_append.1 hp.nodup).2.1.of_append_right, fun c hc hused => ?_, fun x c hused => ?_⟩
  · rcases hp.of_inUse hused with h | h
    · exact hp.not_stacked hc h
    · exact hp.unpinned c hc h
  · -- the place of a new context is past the end or on the list, and nothing in use is there
    apply contextAt_newContext
    rintro rfl
    have hnew : (p.newContext x).1 ∈ p.freeContexts ∨ p.contexts.size ≤ (p.newContext x).1.index := by
      unfold Process.newContext
      cases p.freeContexts with
      | nil => exact .inr (Nat.le_refl _)
      | cons first rest => exact .inl List.mem_cons_self
    rcases hp.of_inUse hused with h | h
    · rcases hnew with hfree | hsize
      · exact hp.not_stacked hfree h
      · exact Nat.not_lt.2 hsize (hp.inside _ (List.mem_append_right [] (List.mem_append_left _ h)))
    · rcases hnew with hfree | hsize
      · exact hp.unpinned _ hfree h
      · simp [contextAt, hsize, default, instInhabitedContext.default] at h

end Process

namespace World

variable {w : World} {p : Process} {m : Machine}

/-- In every world that can come about, at every moment of a round of one of its processes, and at every step of an
instruction, a context that is to be used again is used by nobody: it is on no stack of an unfinished task, not pinned, not
closed over, not reflected, and around none of these. -/
theorem reused_contexts_unreachable (hw : w.Arises) :
    (∀ p ∈ w.processes.items, p.Recycles) ∧
    ∀ p ∈ w.processes.items, ∀ s m, Round w p s m → m.process.Recycles ∧ ∀ m', m.Travels m' → m'.process.Recycles := by
  refine ⟨fun p hp => (hw.firm.processes p hp).arena.recycles, fun p hp s m hm => ?_⟩
  have hsturdy := hm.sturdy hw.firm hw.inv hp
  exact ⟨hsturdy.firm.arena.recycles, fun m' h => (Machine.sturdy_travels hsturdy h).firm.arena.recycles⟩

theorem arises_returned : returned.Arises := arises_called.step (Option.some_get _).symm

/-- The context of a call that has returned. -/
theorem reused_contexts_unreachable_returned : returned.Arises ∧ ∃ p ∈ returned.processes.items,
    p.freeContexts = [⟨1⟩] ∧ p.InUse ⟨0⟩ ∧ ¬ p.InUse ⟨1⟩ := by
  have hlist : (returned.processes.items[0]?.map fun p => (p.freeContexts, p.tasks[0]?.map fun t => (t.state, t.contexts)))
      = some ([⟨1⟩], some (.running, [⟨0⟩])) := by decide +kernel
  obtain ⟨p, hp, hrow⟩ := Option.map_eq_some_iff.1 hlist
  obtain ⟨hfree, htask⟩ := Prod.mk.inj hrow
  obtain ⟨task, ht, hrow⟩ := Option.map_eq_some_iff.1 htask
  obtain ⟨hstate, hcs⟩ := Prod.mk.inj hrow
  have hmem := Array.mem_of_getElem? hp
  refine ⟨arises_returned, p, hmem, hfree, ?_, ?_⟩
  · exact .frame (t := ⟨0⟩) ht (by simp [hstate, TaskState.isFinished]) (by simp [hcs]) (.self _)
  · exact ((reused_contexts_unreachable arises_returned).1 p hmem).unused ⟨1⟩ (by simp [hfree])

end World

/-! ## Checked code -/

/-- The functions of a registry start on their tapes, and the contexts of tasks that are not finished stand on theirs. -/
structure Registry.Covers (r : Registry) (p : Process) : Prop where
  starts : ∀ f ∈ r.functions, ∀ start, f.kind = .user start → start < (r.moduleAt f.module).tape.size
  contexts : ∀ task ∈ p.tasks, ¬ task.state.isFinished → ∀ c ∈ task.contexts,
    (p.contextAt c).Within (r.moduleAt (p.contextAt c).module).tape.size

theorem Process.Firm.covers {p : Process} {r : Registry} (hp : p.Firm r) (hr : r.Checked) : r.Covers p :=
  ⟨hr.starts, fun _ _ _ c _ => hp.onTape.within c⟩

namespace World

variable {w : World}

/-- Nothing gets into a machine without a check. So in every world that can come about, and at every moment of a round, all
positions are on the tapes, and the instruction that is due never turns out to be malformed. -/
theorem checked_code_never_malformed (hw : w.Arises) :
    (∀ p ∈ w.processes.items, w.host.registry.Covers p) ∧
    ∀ p ∈ w.processes.items, ∀ s m, Round w p s m → m.host.registry.Covers m.process ∧
      (s = .running → ∀ n top i, m.Due n top i → ∀ position reason,
        (Machine.step top (m.process.contextAt top).cursor i n).1 ≠ .error (.malformed position reason)) := by
  refine ⟨fun p hp => (hw.firm.processes p hp).covers hw.firm.checked, fun p hp s m hm => ?_⟩
  have hsturdy := hm.sturdy hw.firm hw.inv hp
  refine ⟨hsturdy.firm.covers hsturdy.checked, fun _ n top i hdue position reason herror => ?_⟩
  exact (Act.wp.error (Machine.wp_step_due hsturdy hdue) herror).2 rfl

/-- The entry task waits, and the function it has called is about to begin. -/
theorem checked_code_never_malformed_called : called.Arises ∧ ∃ p ∈ called.processes.items,
    (∃ task ∈ p.tasks, ¬ task.state.isFinished ∧ task.contexts = [⟨1⟩]) ∧ called.host.registry.Covers p := by
  have hrow : (called.processes.items[0]?.map fun p => p.tasks[1]?.map fun t => (t.state, t.contexts))
      = some (some (.new, [⟨1⟩])) := by decide +kernel
  obtain ⟨p, hp, htask⟩ := Option.map_eq_some_iff.1 hrow
  obtain ⟨task, ht, hrow⟩ := Option.map_eq_some_iff.1 htask
  obtain ⟨hstate, hcs⟩ := Prod.mk.inj hrow
  have hmem := Array.mem_of_getElem? hp
  refine ⟨arises_called, p, hmem, ⟨task, Array.mem_of_getElem? ht, ?_, hcs⟩, ?_⟩
  · simp [hstate, TaskState.isFinished]
  · exact (checked_code_never_malformed arises_called).1 p hmem

end World

end Spool
