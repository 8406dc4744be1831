import Spool.Proofs.Process.Outcomes
import Spool.Proofs.World.History
import Spool.World.Event

/-!
# Tasks that nobody wakes

Whoever is parked waits for a task of its own process that has yet to end, or for something that comes from elsewhere,
unless a task has failed with something that is no object. Such a failure cannot be handed on: it leaves behind tasks
that are parked for good.
-/

namespace Spool

/-- The task has failed with something that is no object, of which no context can be told. -/
def Task.Mute (t : Task) : Prop := t.state = .error ∧ t.Hollow

theorem Task.mute_of_stranded {t : Task} (h : t.standing.stranded) : t.Mute := by
  obtain ⟨hstate, hresult⟩ := Bool.and_eq_true_iff.1 h
  have hstate : t.state = .error := of_decide_eq_true hstate
  have hfin : t.state.isFinished := by
    rw [hstate]
    rfl
  refine ⟨hstate, ?_⟩
  simpa [Task.standing, hfin, Task.Hollow] using hresult

namespace World

variable {w : World} {p : Process} {x : TaskId}

/-- The result of work done elsewhere is on its way to a task. -/
inductive Outstanding (w : World) (link : RemoteLink) : Prop where
  /-- The background pool has yet to do the work. -/
  | job (call : BackgroundCall) : call ∈ w.host.pool.jobs → call.link = link → Outstanding w link
  /-- The work has been done in the background. -/
  | completion (p : Process) (c : Completion) : p ∈ w.processes.items → c ∈ p.completions → p.id = link.process →
      c.task = link.task → Outstanding w link
  /-- A task of another process has yet to come to its end. -/
  | task (q : Process) (task : Task) : q ∈ w.processes.items → task ∈ q.tasks → ¬ task.state.isFinished →
      task.remote = some link → Outstanding w link
  /-- A task of another process has come to its end. -/
  | outgoing (q : Process) (out : Outgoing) : q ∈ w.processes.items → out ∈ q.outgoing → out.link = link →
      Outstanding w link

/-- What is pledged is on its way, or a task that has pledged it cannot tell of its failure. -/
theorem outstanding_of_pledges {link : RemoteLink} (h : link ∈ w.pledges) :
    w.Outstanding link ∨ ∃ q ∈ w.processes.items, ∃ task ∈ q.tasks, task.Mute ∧ task.remote = some link := by
  rcases List.mem_append.1 h with h | h
  · obtain ⟨call, hc, hlink⟩ := List.mem_map.1 h
    exact .inl (.job call hc hlink)
  · obtain ⟨q, hq, h⟩ := List.mem_flatMap.1 h
    have hq := Array.mem_toList_iff.1 hq
    rcases List.mem_append.1 h with h | h
    · obtain ⟨t, ht, rfl⟩ := List.mem_map.1 h
      obtain ⟨c, hc, rfl⟩ := List.mem_map.1 ht
      exact .inl (.completion q c hq hc rfl rfl)
    · rcases List.mem_append.1 h with h | h
      · obtain ⟨s, hs, hdue⟩ := List.mem_flatMap.1 h
        obtain ⟨task, ht, rfl⟩ := Array.mem_map.1 (Array.mem_toList_iff.1 hs)
        unfold Standing.due at hdue
        split at hdue
        · rename_i hpending
          have hremote : task.remote = some link := Option.mem_toList.1 hdue
          simp only [Standing.pending, Bool.or_eq_true, Bool.not_eq_true'] at hpending
          rcases hpending with hun | hstr
          · exact .inl (.task q task hq ht (by simpa [Task.standing] using hun) hremote)
          · exact .inr ⟨q, hq, task, ht, Task.mute_of_stranded hstr, hremote⟩
        · cases hdue
      · obtain ⟨out, hout, hlink⟩ := List.mem_map.1 h
        exact .inl (.outgoing q out hq hout hlink)

/-- Somebody has failed with something that is no object: the task itself, the task it waits for, or a task of another
process that owes it a result. -/
def Forsaken (w : World) (p : Process) (x : TaskId) : Prop :=
  (p.taskAt x).Mute ∨ (∃ t ∈ p.waiting, p.WaitsFor x t ∧ (p.taskAt t).Mute) ∨
    ∃ q ∈ w.processes.items, ∃ task ∈ q.tasks, task.Mute ∧ task.remote = some ⟨p.id, x⟩

theorem waiting_cases (hw : w.Arises) (hp : p ∈ w.processes.items) (hx : x ∈ p.waiting) :
    (∃ t, p.WaitsFor x t ∧ ¬ (p.taskAt t).state.isFinished) ∨ w.Outstanding ⟨p.id, x⟩ ∨ w.Forsaken p x := by
  obtain ⟨log, hlog⟩ := hw.history
  have hord := hlog.orderly.2.ordered p hp
  have hrow : ∀ t s, p.roster.at? t = some s → t.index < p.tasks.size ∧ s = (p.taskAt t).standing := by
    intro t s hs
    have hlt := Roster.index_lt_of_at? hs
    rw [Process.size_roster] at hlt
    rw [← Process.standingAt_roster, Roster.standingAt_of_at? hs]
    exact ⟨hlt, rfl⟩
  rcases hord.books x hx with hwaits | ⟨s, hs, hstr⟩ | h
  · rcases List.mem_append.1 ((hord.parked x).2 hwaits) with h | h
    · obtain ⟨t, s, hs, hmem⟩ := Roster.mem_waiters.1 h
      obtain ⟨hlt, rfl⟩ := hrow t s hs
      by_cases hfin : (p.taskAt t).state.isFinished
      · -- a finished task that is still waited for is on the books
        have hdep : (p.taskAt t).standing.dependents ≠ [] := by
          intro hnil
          simp [Standing.waiters, hnil] at hmem
        have ht : t ∈ p.waiting := (hord.settled t _ hs hfin (.inl hdep)).resolve_left (by simp)
        rcases hord.books t ht with ⟨s', hs', hstate⟩ | ⟨s', hs', hstr⟩ | h
        · cases hs.symm.trans hs'
          rw [show (p.taskAt t).state = .waiting from hstate] at hfin
          cases hfin
        · cases hs.symm.trans hs'
          exact .inr (.inr (.inr (.inl ⟨t, ht, ⟨hlt, hmem⟩, Task.mute_of_stranded hstr⟩)))
        · cases h
      · exact .inl ⟨t, ⟨hlt, hmem⟩, hfin⟩
    · rw [List.append_nil] at h
      rcases outstanding_of_pledges (mem_due.1 h) with h | h
      · exact .inr (.inl h)
      · exact .inr (.inr (.inr (.inr h)))
  · obtain ⟨_, rfl⟩ := hrow x s hs
    exact .inr (.inr (.inl (Task.mute_of_stranded hstr)))
  · cases h

/-! ## Those who are told and those who are not -/

/-- When a task is taken off the books, each task that waits for it and has not ended is in the queue again with the
outcome of the task, if it can take that; otherwise it fails, and stays where it is. So whoever is parked waits for a
task of its process that has not ended or for a result that is on its way, unless somebody has failed with something
that is no object. -/
theorem waiters_told (w : World) :
    (∀ (p : Process) (t : TaskId), (p.taskAt t).state.isFinished → p.waiting.Nodup →
      ∀ d ∈ (p.taskAt t).dependents, d.task.index < p.tasks.size → ¬ (p.taskAt d.task).state.isFinished →
        ((p.taskAt t).Tells (p.taskAt d.task) → Process.Resumed p (p.finish t) t d) ∧
        (¬ (p.taskAt t).Tells (p.taskAt d.task) → Process.Abandoned p (p.finish t) t d.task)) ∧
    (w.Arises → ∀ p ∈ w.processes.items, ∀ x ∈ p.waiting,
      (∃ t, p.WaitsFor x t ∧ ¬ (p.taskAt t).state.isFinished) ∨ w.Outstanding ⟨p.id, x⟩ ∨ w.Forsaken p x) := by
  refine ⟨fun p t hfin hn d hd hlt hun => ⟨?_, ?_⟩, fun hw p hp x hx => waiting_cases hw hp hx⟩
  · exact Process.resumed_finish hfin hn hd hlt hun
  · exact Process.abandoned_finish hfin hn hd hlt hun

/-- One task waits for another, which has come to its end. -/
def waiterFor (state : TaskState) (register : Value) : Process :=
  { id := ⟨1⟩
    heap := .new {}
    tasks := #[{ state := .waiting, reason := .onCall, contexts := [⟨0⟩] },
      { state, register, dependents := [⟨⟨0⟩, .result⟩] }]
    contexts := #[{ task := ⟨0⟩, kind := .moduleRoot, module := ⟨0⟩, cursor := 0 }]
    waiting := [⟨0⟩] }

theorem arises_called : called.Arises :=
  Arises.step (.startMain "caller" (.register caller (.create (r := {}) rfl))) (Option.some_get _).symm

theorem waiters_told_call :
    Process.Resumed (waiterFor .complete .none) ((waiterFor .complete .none).finish ⟨1⟩) ⟨1⟩ ⟨⟨0⟩, .result⟩ ∧
    Process.Abandoned (waiterFor .error .none) ((waiterFor .error .none).finish ⟨1⟩) ⟨1⟩ ⟨0⟩ ∧
    ∃ p ∈ called.processes.items, p.waiting = [⟨0⟩] ∧ ((∃ t, p.WaitsFor ⟨0⟩ t ∧ ¬ (p.taskAt t).state.isFinished) ∨
      called.Outstanding ⟨p.id, ⟨0⟩⟩ ∨ called.Forsaken p ⟨0⟩) := by
  obtain ⟨hfinish, hreach⟩ := waiters_told called
  have hparked : (called.processes.items[0]?.map fun p => p.waiting) = some [⟨0⟩] := by decide +kernel
  obtain ⟨p, hp, hwaiting⟩ := Option.map_eq_some_iff.1 hparked
  have hmem := Array.mem_of_getElem? hp
  refine ⟨?_, ?_, p, hmem, hwaiting, hreach arises_called p hmem ⟨0⟩ (by simp [hwaiting])⟩
  · exact (hfinish (waiterFor .complete .none) ⟨1⟩ rfl (by decide) ⟨⟨0⟩, .result⟩ (by decide) (by decide) (by decide)).1
      (.inl rfl)
  · refine (hfinish (waiterFor .error .none) ⟨1⟩ rfl (by decide) ⟨⟨0⟩, .result⟩ (by decide) (by decide) (by decide)).2 ?_
    rintro (h | ⟨h, _⟩) <;> cases h

/-! ## A task that nobody wakes -/

/-- Futures pass for errors here, and a process raises one. Another process gets nothing for a future, so the entry task
waits for a task that fails with nothing. -/
def forsaken : CompiledModule :=
  { name := "forsaken"
    tape := { instructions := #[⟨.push, .name "Future"⟩, ⟨.push, .name "Error"⟩, ⟨.tuple, .scalar (.int 2)⟩,
      ⟨.call, .name "$__set_super"⟩, ⟨.load, .name "worker"⟩, ⟨.call, .name "Process"⟩, ⟨.member, .name "start"⟩,
      ⟨.callBare, .none⟩, ⟨.wait, .none⟩, ⟨.ret, .none⟩, ⟨.callBare, .name "g"⟩, ⟨.raise, .none⟩, ⟨.ret, .none⟩] }
    functions := #[{ name := "worker", start := 10 }, { name := "g", start := 12, flags := { async := true } }] }

/-- Nothing can happen any more, and the entry task is still parked. -/
def halted : World :=
  (play 99 (fun _ => true) [.tick ⟨1⟩, .tick ⟨1⟩, .tick ⟨2⟩, .deliver ⟨2⟩, .tick ⟨1⟩, .tick ⟨2⟩, .tick ⟨2⟩]
    (startMain "forsaken" (register forsaken {}).2).2).get (by decide +kernel)

theorem stranded_waiter :
    (∃ (p : Process) (t : TaskId) (d : Dependent), (p.taskAt t).state = .error ∧ p.waiting.Nodup ∧
      d ∈ (p.taskAt t).dependents ∧ d.task.index < p.tasks.size ∧ ¬ (p.taskAt d.task).state.isFinished ∧
      d.task ∈ (p.finish t).waiting ∧ d.task ∉ (p.finish t).queue.toList) ∧
    ∃ w : World, w.Arises ∧ w.nextEvent? = none ∧ ∃ p ∈ w.processes.items, ∃ x ∈ p.waiting,
      ¬ ((∃ t, p.WaitsFor x t ∧ ¬ (p.taskAt t).state.isFinished) ∨ w.Outstanding ⟨p.id, x⟩) := by
  refine ⟨⟨waiterFor .error .none, ⟨1⟩, ⟨⟨0⟩, .result⟩, by decide⟩, halted, ?_, by decide +kernel, ?_⟩
  · exact Arises.play (.startMain "forsaken" (.register forsaken (.create (r := {}) rfl))) (Option.some_get _).symm
  · have hparked : (halted.processes.items[0]?.map fun p => p.waiting) = some [⟨0⟩] := by decide +kernel
    have hjobs : halted.host.pool.jobs.isEmpty := by decide +kernel
    have hquiet : halted.processes.items.all fun q =>
        q.completions.isEmpty && q.outgoing.isEmpty && q.tasks.all fun task => task.state.isFinished := by decide +kernel
    simp only [Array.all_eq_true_iff_forall_mem, Bool.and_eq_true, List.isEmpty_iff] at hjobs hquiet
    obtain ⟨p, hp, hwaiting⟩ := Option.map_eq_some_iff.1 hparked
    have hmem := Array.mem_of_getElem? hp
    refine ⟨p, hmem, ⟨0⟩, by simp [hwaiting], ?_⟩
    rintro (⟨t, ⟨hlt, _⟩, hun⟩ | ⟨call, hc, _⟩ | ⟨q, c, hq, hc, _⟩ | ⟨q, task, hq, ht, hun, _⟩ | ⟨q, out, hq, hout, _⟩)
    · exact hun ((hquiet p hmem).2 _ (Array.mem_of_getElem? (Process.getElem?_of_index_lt hlt)))
    · rw [hjobs] at hc
      cases hc
    · rw [(hquiet q hq).1.1] at hc
      cases hc
    · exact hun ((hquiet q hq).2 task ht)
    · rw [(hquiet q hq).1.2] at hout
      cases hout

end World

end Spool
