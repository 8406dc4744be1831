import Spool.Proofs.Process.Stack
import Spool.Proofs.World.Solo

/-!
# Tasks as a call stack

A main process without `async` functions, background calls and other processes runs one task at a time. The task that
runs and those that have led to it are a call stack, and when the stack is empty the process ends.
-/

namespace Spool

namespace Process

variable {p : Process} {t x y : TaskId}

def ParentOf (p : Process) (t u : TaskId) : Prop := (p.taskAt t).parent = some u

theorem parentOf_roster (p : Process) : p.roster.ParentOf = p.ParentOf := by
  funext t u
  simp only [Roster.ParentOf, ParentOf, standingAt_roster]
  rfl

/-- What is known of a task later on. -/
theorem later_of_abides {p' : Process} (h : p.roster.Abides p'.roster) (ht : t.index < p.tasks.size) :
    (p.taskAt t).standing.Later (p'.taskAt t).standing := by
  obtain ⟨s, hs, hlater⟩ := h.tasks t _ (at?_taskAt ht)
  rwa [← Roster.standingAt_of_at? hs, p'.standingAt_roster] at hlater

/-- The process is by itself, and its tasks are a call stack. -/
structure Stacks (p : Process) : Prop where
  plain : p.roster.Plain none
  stacked : p.roster.Stacked none
  futureless : p.heap.Knows fun _ => False
  awake : p.phase ≠ .blocked

theorem stacks_main (id : ProcessId) (settings : HeapSettings) (module : ModuleId) : (main id settings module).Stacks := by
  obtain ⟨_, hheap, hphase⟩ := main_frame id settings module
  refine ⟨plain_main id settings module, ⟨?_, ?_, ?_⟩, ?_, ?_⟩
  · rw [roster_main, roster_seeded]
    exact Roster.forall_add (by simp [Roster.at?]) (by simp [Standing.waiters])
  · rw [roster_main, roster_seeded]
    exact Nat.le_refl 1
  · rw [roster_main, roster_seeded]
    rfl
  · rw [hheap]
    exact knows_seeded id settings (.refl (extends_seeded id settings).1.sound)
  · rw [hphase]
    exact fun h => by cases h

/-- A process that has nothing to run has nothing to wait for. -/
theorem isDone_of_stacked (hp : p.roster.Plain none) (hs : p.roster.Stacked none) (hq : p.queue.toList = [])
    (hc : p.completions = []) : Machine.isDone p := by
  have hwaiting : p.waiting = [] := by
    rcases hs.cases hp with ⟨_, hfin⟩ | ⟨t, ht⟩
    · refine List.eq_nil_iff_forall_not_mem.2 fun x hx => ?_
      obtain ⟨s, hs, hstate⟩ := hp.waits hx
      have := hfin x s hs
      rw [hstate] at this
      cases this
    · rw [show p.roster.queue = [] from hq] at ht
      cases ht
  have hidle : p.inFlight = 0 := hs.idle
  simp [Machine.isDone, hasWork, hwaiting, hidle, hc, (Fifo.isEmpty_iff _).2 hq]

/-- Whoever waits for a task that has not ended is not in the queue. -/
theorem Stacks.not_mem_queue (hs : p.Stacks) (hparent : p.ParentOf y x) (hun : ¬ (p.taskAt y).state.isFinished) :
    x ∉ p.queue.toList := by
  rw [← p.parentOf_roster] at hparent
  have hun : ¬ (p.roster.standingAt y).state.isFinished := by
    rw [p.standingAt_roster]
    exact hun
  have hwaiters := hs.stacked.waiters_eq hs.plain hun .refl hparent
  have hmem : x ∈ p.roster.waiters := Roster.mem_waiters.2 ⟨y, _, hparent.at?, by simp [hwaiters]⟩
  obtain ⟨s, hs₁, hwaits⟩ := (hs.plain.ordered.parked x).1 (List.mem_append_left _ hmem)
  intro hqueued
  obtain ⟨⟨s', hs₂, hruns⟩, _⟩ := hs.plain.ordered.queued x hqueued
  cases hs₁.symm.trans hs₂
  rcases hruns with h | h
  · cases h.symm.trans hwaits
  · cases h.symm.trans hwaits

end Process

namespace World

variable {w w' : World} {id : ProcessId} {p : Process} {fuel : Nat} {e : Event}

/-- There are no `async` functions, and the process has handed nothing to the background pool and has started no other
process. -/
structure Sequential (id : ProcessId) (w : World) : Prop where
  alone : w.Alone id
  direct : ¬ w.host.registry.HasAsync

theorem sequential_iff : w.Sequential id ↔ w.Alone id ∧ ¬ w.host.registry.HasAsync :=
  ⟨fun h => ⟨h.alone, h.direct⟩, fun h => ⟨h.1, h.2⟩⟩

instance decidableSequential : Decidable (w.Sequential id) := decidable_of_iff _ sequential_iff.symm

theorem Unmoved.stacks {p' : Process} (h : Unmoved p p') (hp : p.Stacks) : p'.Stacks :=
  ⟨h.roster ▸ hp.plain, h.roster ▸ hp.stacked, h.futures _ hp.futureless, h.phase ▸ hp.awake⟩

theorem stacks_round {m : Machine} (hw : w.Inv) (ho : w.Orderly []) (ha : w.Alone id)
    (hp : w.processes.get? id = some p) (hs : p.Stacks)
    (hrun : Machine.tick fuel { host := w.host, process := awaken p, task := ⟨0⟩ } = some m)
    (hq : (w.settle id m).Sequential id) : m.process.Stacks ∧ p.roster.Fresh m.process.roster := by
  have hasync : ¬ m.host.registry.HasAsync := hq.direct
  obtain ⟨hfut, hround⟩ := ha.round hw ho hp hrun hq.alone (.inl ⟨hs.futureless, hasync⟩)
  have hknows := hfut hs.futureless hasync
  rcases hround with ⟨hqueue, hroster, hphase⟩ | ⟨t, queue, hqueue, hphase, hturn⟩
  · have hplain : m.process.roster.Plain none := hroster ▸ hs.plain
    have hstacked : m.process.roster.Stacked none := hroster ▸ hs.stacked
    have hdone : Machine.isDone m.process := by
      apply Process.isDone_of_stacked hplain hstacked
      · exact (congrArg Roster.queue hroster).trans hqueue
      · have hc := congrArg Roster.completions hroster
        simpa [Process.roster, ha.completions p hp] using hc
    refine ⟨⟨hplain, hstacked, hknows, ?_⟩, hroster ▸ .refl _⟩
    rw [hphase, Machine.phaseAfter, if_neg Bool.false_ne_true, if_pos hdone]
    exact fun h => by cases h
  · have hlasts := Roster.lasts_stacked p.roster
    obtain ⟨hplain, hstacked, hfresh⟩ := hlasts.turn hs.plain ⟨hs.stacked, .refl _⟩ hqueue (hturn.mono hasync)
    refine ⟨⟨hplain, hstacked, hknows, ?_⟩, hfresh⟩
    rw [hphase]
    exact fun h => by cases h

theorem Since.stacks (h : Since (Sequential id) id w) : ∃ p, w.processes.get? id = some p ∧ p.Stacks := by
  refine h.invariant (Process.stacks_main id) (fun p p' hu => hu.stacks) (fun p hp => Process.unlinked_of_plain hp.plain)
    (fun w hw => hw.alone) fun h hp hs hrun hq => (stacks_round h.orderly.1 h.orderly.2 h.holds.alone hp hs hrun hq).1

/-- Nobody comes to wait for a task that was there before. -/
theorem Since.fresh (h : Since (Sequential id) id w) (hp : w.processes.get? id = some p) (hs : p.Stacks)
    (hstep : w.step fuel e = some w') (hq : w'.Sequential id) :
    ∃ p', w'.processes.get? id = some p' ∧ p.roster.Fresh p'.roster := by
  obtain ⟨hw, ho⟩ := h.orderly
  rcases h.holds.alone.step_cases hw hp (Process.unlinked_of_plain hs.plain) hstep with ⟨p', hp', hu⟩ | ⟨m, hrun, rfl⟩
  · exact ⟨p', hp', hu.roster ▸ .refl _⟩
  · have hget := get?_settle hp m hp
    rw [if_pos rfl] at hget
    exact ⟨m.process, hget, (stacks_round hw ho h.holds.alone hp hs hrun hq).2⟩

/-- Between two events a main process with no `async` functions that makes no background calls and starts no other
process has come to its end, or it can run one task. Those that are parked are then the ones that have led to that task,
and each of them is the only one to wait for the next one. The scheduler never sleeps, and whatever happens next, nobody
comes to wait for a task that was there before: a task that waits for the top level of a module has just begun to load
it. -/
theorem tasks_are_call_stack (h : Since (Sequential id) id w) : ∃ p, w.processes.get? id = some p ∧
    ((∀ t, t.index < p.tasks.size → (p.taskAt t).state.isFinished) ∨ ∃ t, p.queue.toList = [t] ∧
      (∀ x, x ∈ p.waiting ↔ Relation.TransGen p.ParentOf t x) ∧
      ∀ x y, Relation.ReflTransGen p.ParentOf t x → p.ParentOf x y →
        (p.taskAt x).dependents.map Dependent.task = [y]) ∧
    p.phase ≠ .blocked ∧
    ∀ fuel e w', w.step fuel e = some w' → w'.Sequential id → ∃ p', w'.processes.get? id = some p' ∧
      ∀ y, y.index < p.tasks.size → (p'.taskAt y).dependents ⊆ (p.taskAt y).dependents := by
  obtain ⟨p, hp, hs⟩ := h.stacks
  have hparent := p.parentOf_roster
  refine ⟨p, hp, ?_, hs.awake, fun fuel e w' hstep hq => ?_⟩
  · rcases hs.stacked.cases hs.plain with ⟨_, hfin⟩ | ⟨t, hqueue⟩
    · exact .inl fun t ht => hfin t _ (Process.at?_taskAt ht)
    · obtain ⟨⟨s, hst, hrun⟩, _⟩ := hs.plain.ordered.queued t (by simp [hqueue])
      have ht : ¬ (p.roster.standingAt t).state.isFinished := by
        rw [Roster.standingAt_of_at? hst]
        rcases hrun with h | h <;> simp [h, TaskState.isFinished]
      refine .inr ⟨t, hqueue, fun x => ?_, fun x y hx hxy => ?_⟩
      · rw [← hparent]
        exact hs.stacked.mem_waiting hs.plain hqueue
      · rw [← hparent] at hx hxy
        have := hs.stacked.waiters_eq hs.plain ht hx hxy
        rwa [Process.standingAt_roster] at this
  · obtain ⟨p', hp', hfresh⟩ := h.fresh hp hs hstep hq
    refine ⟨p', hp', fun y hy => ?_⟩
    have hy' : y.index < p'.tasks.size := by
      have := hfresh.size_le
      simp only [Process.size_roster] at this
      exact Nat.lt_of_lt_of_le hy this
    exact hfresh.rows y _ (Process.at?_taskAt hy') _ (Process.at?_taskAt hy)

theorem tasks_are_call_stack_called : ∃ p, called.processes.get? ⟨1⟩ = some p ∧ p.queue.toList = [⟨1⟩] ∧
    (∀ x, x ∈ p.waiting ↔ Relation.TransGen p.ParentOf ⟨1⟩ x) ∧ p.ParentOf ⟨1⟩ ⟨0⟩ ∧ p.phase ≠ .blocked := by
  have hcalling : Since (Sequential ⟨1⟩) ⟨1⟩ calling :=
    .of_toOption (.register caller (.create (r := {}) rfl)) (by decide +kernel) (by decide +kernel)
  have hstep : calling.step 9 (.tick ⟨1⟩) = some called := (Option.some_get _).symm
  have hcalled : Since (Sequential ⟨1⟩) ⟨1⟩ called := hcalling.step hstep (by decide +kernel)
  obtain ⟨p, hp, hcases, hphase, _⟩ := tasks_are_call_stack hcalled
  have hqueue : ((called.processes.get? ⟨1⟩).map fun p => p.queue.toList) = some [⟨1⟩] := by decide +kernel
  have hrow : ((called.processes.get? ⟨1⟩).map fun p => (p.tasks.size, (p.taskAt ⟨1⟩).state, (p.taskAt ⟨1⟩).parent))
      = some (2, .new, some ⟨0⟩) := by decide +kernel
  rw [hp] at hqueue hrow
  simp only [Option.map_some, Option.some.injEq, Prod.mk.injEq] at hqueue hrow
  obtain ⟨hsize, hstate, hparent⟩ := hrow
  rcases hcases with hfin | ⟨t, ht, hwaiting, _⟩
  · have := hfin ⟨1⟩ (by simp [hsize])
    rw [hstate] at this
    cases this
  · cases hqueue.symm.trans ht
    exact ⟨p, hp, hqueue, hwaiting, hparent, hphase⟩

end World

end Spool
