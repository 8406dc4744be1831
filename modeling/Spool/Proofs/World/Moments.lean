import Spool.Proofs.Machine.Rooted
import Spool.Proofs.World.CallStack
import Spool.Proofs.World.Returns

/-!
# Moments of a turn

What is known of a main process by itself between two instructions of the task that has its turn.
-/

namespace Spool

theorem Process.rooted_main (id : ProcessId) (settings : HeapSettings) (module : ModuleId) (async : Prop) :
    (main id settings module).Rooted async := by
  have ha : (seeded id settings).Arena [] := arena_of_empty rfl rfl rfl (unbound_seeded id settings).not_cites
  let started := ((seeded id settings).startTask none .none fun task =>
    { task, kind := .moduleRoot, module, cursor := 0 }).2
  obtain ⟨c, _, hrow, _⟩ := ha.started none .none (fun task => { task, kind := .moduleRoot, module, cursor := 0 }) rfl
  have hrow : started.taskAt ⟨0⟩ = { contexts := [c] } := hrow
  have hsize : (main id settings module).tasks.size = 1 := Machine.size_startModule (seeded id settings) module none
  have hentry : (main id settings module).taskAt ⟨0⟩ = { contexts := [c], initializes := some module } := by
    have hat := taskAt_modifyTask started ⟨0⟩ (fun task => { task with initializes := some module }) ⟨0⟩
    rw [if_pos ⟨rfl, index_lt_of_top? (congrArg Task.top? hrow)⟩, hrow] at hat
    exact hat
  have honly : ∀ t : TaskId, t.index < (main id settings module).tasks.size → t = ⟨0⟩ := by
    rintro ⟨t⟩ ht
    rw [hsize] at ht
    exact congrArg TaskId.mk (Nat.lt_one_iff.1 ht)
  refine ⟨rfl, fun t ht _ => honly t ht, fun _ t hexposed => ?_⟩
  have ht := honly t (index_lt_of_taskAt (P := fun task => task.observed = true) hexposed.1 Bool.false_ne_true)
  rw [ht, hentry] at hexposed
  cases hexposed.1

namespace World

variable {w w' : World} {id : ProcessId} {t : TaskId} {m m' m₀ : Machine} {p : Process}

theorem Since.rooted (h : Since (Sequential id) id w) : w.Holds id (Process.Rooted False) := by
  have hboth := h.invariant (J := fun p => p.Stacks ∧ p.Rooted False)
    (fun settings module => ⟨Process.stacks_main id settings module, Process.rooted_main id settings module False⟩)
    (fun p p' hu hj => ?_) (fun p hj => Process.unlinked_of_plain hj.1.plain) (fun w hw => hw.alone)
    fun h hp hj hrun hq => ?_
  · obtain ⟨p, hp, _, hrooted⟩ := hboth
    exact ⟨p, hp, hrooted⟩
  · obtain ⟨heap, rfl⟩ := hu.collected
    exact ⟨hu.stacks hj.1, hj.2.congr rfl rfl⟩
  · obtain ⟨hw, ho⟩ := h.orderly
    refine ⟨(stacks_round hw ho h.holds.alone hp hj.1 hrun hq).1, ?_⟩
    have hmem := (hw.get? hp).1
    have hsturdy := h.arises.firm.machine hw (firm_awaken (h.arises.firm.processes _ hmem)) ⟨0⟩
    have hawake : (awaken _).Rooted False := hj.2.congr (awaken_frame _).1 (by unfold awaken; split <;> rfl)
    exact (Machine.rooted_tick hsturdy (hawake.mono False.elim) hrun).mono hq.direct

/-- A moment between two instructions of the task that has its turn. -/
inductive Amid (w : World) (id : ProcessId) (t : TaskId) (m : Machine) : Prop where
  | mk {m₀ : Machine} : w.Opens id t m₀ → (Machine.resume m₀).2.Runs m → Amid w id t m

theorem Opens.amid (h : w.Opens id t m₀) : w.Amid id t (Machine.resume m₀).2 := .mk h .refl

theorem Amid.running (h : w.Amid id t m) : ∃ p, w.processes.get? id = some p ∧ Round w p .running m := by
  obtain ⟨hopen, hruns⟩ := h
  obtain ⟨_, p, hp, _, hround⟩ := hopen.round
  exact ⟨p, hp, hround.runs hruns⟩

theorem Amid.sturdy (h : w.Amid id t m) (hw : w.Arises) : m.Sturdy w.host.registry := by
  obtain ⟨p, hp, hround⟩ := h.running
  exact hround.sturdy hw.firm hw.inv (hw.inv.get? hp).1

theorem Amid.task_eq (h : w.Amid id t m) (hw : w.Arises) : m.task = t := by
  obtain ⟨hopen, hruns⟩ := h
  have hsturdy := hopen.sturdy hw
  have hresume := Machine.paces_resume hsturdy
  rw [Machine.task_paces (hruns.paces (Machine.sturdy_paces hsturdy hresume)), Machine.task_paces hresume, hopen.round.1]

theorem Amid.going (h : w.Amid id t m) (hw : w.Arises) :
    ∃ p, w.processes.get? id = some p ∧ m.Going (w.outlook p) (some t) := by
  obtain ⟨p, hp, hround⟩ := h.running
  exact ⟨p, hp, h.task_eq hw ▸ hround.good hw.inv (hw.inv.get? hp).1⟩

/-- A round that a task stops in comes to its end. -/
theorem Amid.exists_step (h : w.Amid id t m) (hw : w.Inv) (hstop : Machine.advance m = (false, m')) :
    ∃ fuel w', w.step fuel (.tick id) = some w' := by
  obtain ⟨hopen, hruns⟩ := h
  obtain ⟨fuel, hrun⟩ := Machine.exists_runFrom hruns hstop
  cases hopen with | @mk p queue hp hcan hq => ?_
  have hgo := (Machine.inv_settleAll (hw.awaken (hw.get? hp).1 ⟨0⟩)).begin hq
  have htick : ∃ m₁, Machine.tick fuel { host := w.host, process := awaken p, task := ⟨0⟩ } = some m₁ := by
    have hnext : Machine.runNext fuel (w.settled p) = ((Machine.run fuel { w.settled p with
        process := { (w.settled p).process with queue }, task := t }).map fun m => (Machine.conclude m).2).map
          fun m => (true, m) := by
      simp only [Machine.runNext, hq]
      rfl
    have hturn : Machine.run fuel { w.settled p with process := { (w.settled p).process with queue }, task := t }
        = some m' := (hgo.run_eq fuel).trans hrun
    rw [tick_settled, hnext, hturn]
    exact ⟨_, rfl⟩
  obtain ⟨m₁, htick⟩ := htick
  refine ⟨fuel, w.settle id m₁, ?_⟩
  change World.tick fuel id w = _
  simp only [World.tick, hp, hcan, if_true, htick]
  rfl

section
variable (hw : w.Inv) (ho : w.Orderly [])
include hw ho

theorem Amid.tidy (ham : w.Amid id t m) : ∃ p rest, w.processes.get? id = some p ∧ m.Tidy rest (some m.task) ∧
    p.roster.Abides m.process.roster := by
  obtain ⟨hopen, hruns⟩ := ham
  obtain ⟨p, rest, hp, htaken, habides⟩ := hopen.tidy hw ho
  obtain ⟨g, hgo⟩ := hopen.going hw
  obtain ⟨hresumed, hp₁⟩ := Machine.tidy_wake (Machine.becomes_resume hgo) htaken hgo.unfinished
  obtain ⟨hrun, hp₂⟩ := Machine.tidy_stirs (hruns.stirs (Machine.kept_resume hgo).1).1 hresumed
  exact ⟨p, rest, hp, hrun, habides.trans (hp₁.trans hp₂).upholds.toAbides⟩

/-- Whoever is finished at a moment of a turn has been so at its beginning. -/
theorem Opens.abides (hopen : w.Opens id t m₀) (hruns : (Machine.resume m₀).2.Runs m) :
    m₀.process.roster.Abides m.process.roster ∧
      ∀ y, (m.process.taskAt y).state.isFinished → (m₀.process.taskAt y).state.isFinished := by
  obtain ⟨p, rest, hp, htaken, _⟩ := hopen.tidy hw ho
  obtain ⟨g, hgo⟩ := hopen.going hw
  have hwake := Machine.becomes_resume hgo
  have hstirs := (hruns.stirs (Machine.kept_resume hgo).1).1
  obtain ⟨hresumed, hp₁⟩ := Machine.tidy_wake hwake htaken hgo.unfinished
  obtain ⟨_, hp₂⟩ := Machine.tidy_stirs hstirs hresumed
  refine ⟨(hp₁.trans hp₂).upholds.toAbides, fun y hfin => ?_⟩
  by_contra hun
  have hawake : ¬ ((Machine.resume m₀).2.view.roster.standingAt y).state.isFinished := by
    rw [hwake.view]
    refine Roster.standingAt_update (P := fun s => ¬ s.state.isFinished) ?_ fun _ _ => by
      simp [Standing.wake, TaskState.isFinished]
    change ¬ (m₀.process.roster.standingAt y).state.isFinished
    rw [Process.standingAt_roster]
    exact hun
  have hstays := Machine.unfinishedAt_stirs hstirs hawake
  change ¬ (m.process.roster.standingAt y).state.isFinished at hstays
  rw [Process.standingAt_roster] at hstays
  exact hstays hfin

end

/-- There is nothing to settle. -/
theorem settled_eq (hp : p.completions = []) : w.settled p = { host := w.host, process := awaken p, task := ⟨0⟩ } :=
  Machine.settleAll_of_nil ((awaken_frame p).2.2.2.1.trans hp)

theorem awaken_eq (p : Process) : ∃ poked, awaken p = { p with poked } := by
  unfold awaken
  split
  · exact ⟨false, rfl⟩
  · exact ⟨p.poked, rfl⟩

/-- The task that has its turn has been the first one in the queue. -/
theorem Opens.dequeued (hopen : w.Opens id t m₀) (h : Since (Sequential id) id w) : ∃ p queue,
    w.processes.get? id = some p ∧ p.roster.queue = t :: queue ∧ m₀.process.roster = { p.roster with queue } ∧
      m₀.process.heap = p.heap := by
  cases hopen with | @mk p queue hp hcan hq => ?_
  obtain ⟨poked, hawake⟩ := awaken_eq p
  rw [settled_eq (h.holds.alone.completions p hp), hawake] at hq ⊢
  exact ⟨p, queue.toList, hp, Fifo.toList_of_pop? hq, rfl, rfl⟩

section
variable (h : Since (Sequential id) id w) (ham : w.Amid id t m)
include h ham

/-- The task that has its turn has been able to run. -/
theorem Amid.ready : ∃ p, w.processes.get? id = some p ∧ p.Stacks ∧ t.index < p.tasks.size ∧
    ¬ (p.taskAt t).state.isFinished := by
  obtain ⟨hopen, _⟩ := ham
  obtain ⟨p, queue, hp, hqueue, _⟩ := hopen.dequeued h
  obtain ⟨p', hp', hs⟩ := h.stacks
  cases hp.symm.trans hp'
  obtain ⟨⟨s, hs₁, hruns⟩, _⟩ := hs.plain.ordered.queued t (by simp [hqueue])
  have hlt := Roster.index_lt_of_at? hs₁
  rw [Process.size_roster] at hlt
  refine ⟨p, hp, hs, hlt, ?_⟩
  rw [state_of_at? hs₁]
  rcases hruns with h | h <;> simp [h, TaskState.isFinished]

/-- Those that have led to a task are older. -/
theorem Amid.older {y u : TaskId} (hy : y.index ≤ t.index) (hu : m.process.ParentOf y u) : u.index < y.index := by
  obtain ⟨p, _, hp, _, habides⟩ := ham.tidy h.orderly.1 h.orderly.2
  obtain ⟨p', hp', hs, hlt, _⟩ := ham.ready h
  cases hp.symm.trans hp'
  -- the tasks up to the one that runs were there at the beginning of the round
  have hlater := Process.later_of_abides habides (Nat.lt_of_le_of_lt hy hlt)
  apply hs.plain.parent_lt
  rw [p.parentOf_roster]
  exact hlater.parent.symm.trans hu

/-- The roster at the beginning of a turn, with what the task has called since and does not wait for. Where there is
nothing to be called so, there are no futures. -/
theorem Amid.calls (ha : m.view.Alone) : ∃ p queue, w.processes.get? id = some p ∧ p.roster.queue = t :: queue ∧
    Relation.ReflTransGen (Roster.Calls m.host.registry.HasAsync t)
      (({ p.roster with queue } : Roster).update t Standing.wake) m.process.roster ∧
    (¬ m.host.registry.HasAsync → m.process.heap.Knows fun _ => False) := by
  obtain ⟨hw, ho⟩ := h.orderly
  cases ham with | @mk m₁ hopen hruns => ?_
  obtain ⟨g, hgo⟩ := hopen.going hw
  obtain ⟨_, _, _, htaken, _⟩ := hopen.tidy hw ho
  have hwake := Machine.becomes_resume hgo
  obtain ⟨hresumed, _⟩ := Machine.tidy_wake hwake htaken hgo.unfinished
  obtain ⟨_, hcalls, hdirect⟩ := Machine.plain_stirs (hruns.stirs (Machine.kept_resume hgo).1).1 hresumed ha
  obtain ⟨p, queue, hp, hqueue, hroster, hheap⟩ := hopen.dequeued h
  obtain ⟨p', hp', hs⟩ := h.stacks
  cases hp.symm.trans hp'
  have htask : (Machine.resume m₁).2.task = m₁.task := congrArg Machine.View.task hwake.view
  have hrow : (Machine.resume m₁).2.view.roster = m₁.process.roster.update m₁.task Standing.wake :=
    congrArg Machine.View.roster hwake.view
  rw [hrow, htask, hopen.round.1, hroster] at hcalls
  refine ⟨p, queue, hp, hqueue, hcalls, fun hasync => (hdirect ⟨?_, hasync⟩).1⟩
  apply hwake.futures
  rw [hheap]
  exact hs.futureless

theorem Amid.rooted : m.Rooted := by
  have hw := h.arises
  obtain ⟨p', hp', hrooted⟩ := h.rooted
  obtain ⟨hopen, hruns⟩ := ham
  have hsturdy := hopen.sturdy hw
  have hresume := Machine.paces_resume hsturdy
  have hpaces := hresume.trans (hruns.paces (Machine.sturdy_paces hsturdy hresume))
  refine Machine.rooted_paces ?_ hpaces
  obtain ⟨hp, _, _⟩ := hopen
  cases hp.symm.trans hp'
  have hawake : (awaken p').Rooted False := hrooted.congr (awaken_frame _).1 (by unfold awaken; split <;> rfl)
  have hsettled : (w.settled p').Rooted := Machine.rooted_settleAll (hawake.mono False.elim)
  exact Process.Rooted.congr hsettled rfl rfl

/-- The task that runs and those that have led to it are a call stack. -/
theorem Amid.stacked (ha : m.view.Alone) (hasync : ¬ m.host.registry.HasAsync) :
    m.process.roster.Plain (some t) ∧ m.process.roster.Stacked (some t) := by
  have hw := h.arises
  obtain ⟨p, queue, hp, hqueue, hcalls, _⟩ := ham.calls h ha
  obtain ⟨p', hp', hs⟩ := h.stacks
  cases hp.symm.trans hp'
  have hnone := Roster.calls_mono (b := False) hasync hcalls
  obtain ⟨hplain, _, hstacked, _⟩ := (Roster.lasts_stacked p.roster).amid hs.plain ⟨hs.stacked, .refl _⟩ hqueue hnone
  exact ⟨hplain, hstacked⟩

end

end World

end Spool
