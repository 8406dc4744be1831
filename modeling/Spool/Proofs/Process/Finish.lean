import Spool.Proofs.Process.Intact

/-!
# Finished tasks

A task that has come to its end is cleared; then those that have waited for it are loose, and each of them gets the
outcome and a place in the queue.
-/

namespace Spool

/-- What is left of a finished task. -/
def Task.cleared (t : Task) : Task := { t with dependents := [], initializes := none, contexts := [] }

namespace Process

variable {p p' : Process} {cur : Option TaskId} {l : Ledger} {t : TaskId} {K : TaskId → Prop} {loose : List TaskId}

/-! ## Clearing -/

/-- A finished task that nobody waits for any more. -/
def unlist (p : Process) (t : TaskId) : Process :=
  { p with
    tasks := (p.modifyTask t fun t => { t with dependents := [], initializes := none }).tasks
    modules := (p.markReady (p.taskAt t).initializes).modules
    waiting := p.waiting.erase t }

/-- A finished task off the books, with nobody told of it yet. -/
def clear (p : Process) (t : TaskId) : Process := (p.unlist t).releaseTask t

theorem markReady_modifyTask (p : Process) (t : TaskId) (f : Task → Task) (m : Option ModuleId) :
    (p.modifyTask t f).markReady m
      = { p with tasks := (p.modifyTask t f).tasks, modules := (p.markReady m).modules } := by
  cases m <;> rfl

theorem finish_eq (p : Process) (t : TaskId) :
    p.finish t = (p.taskAt t).dependents.foldl
      (fun q d => q.deliver ((p.taskAt t).state = .error) (p.taskAt t).register d) (p.clear t) := by
  simp only [finish, markReady_modifyTask]
  rfl

theorem releaseContexts_eq (cs : List ContextId) (p : Process) :
    ∃ contexts free, cs.foldl releaseContext p = { p with contexts := contexts, freeContexts := free } := by
  induction cs generalizing p with
  | nil => exact ⟨p.contexts, p.freeContexts, rfl⟩
  | cons c rest ih =>
      obtain ⟨contexts, free, heq⟩ := releaseContext_eq p c
      obtain ⟨contexts', free', heq'⟩ := ih (p.releaseContext c)
      refine ⟨contexts', free', ?_⟩
      rw [List.foldl_cons, heq', heq]

theorem clear_eq (p : Process) (t : TaskId) :
    ∃ contexts free, p.clear t = { p.unlist t with
      tasks := ((p.modifyTask t fun t => { t with dependents := [], initializes := none }).modifyTask t fun t =>
        { t with contexts := [] }).tasks
      contexts := contexts
      freeContexts := free } := by
  obtain ⟨contexts, free, heq⟩ := releaseContexts_eq ((p.unlist t).taskAt t).contexts
    ((p.unlist t).modifyTask t fun t => { t with contexts := [] })
  exact ⟨contexts, free, heq⟩

theorem getElem?_clear (p : Process) (t x : TaskId) :
    (p.clear t).tasks[x.index]? = if t = x then p.tasks[x.index]?.map Task.cleared else p.tasks[x.index]? := by
  obtain ⟨contexts, free, heq⟩ := clear_eq p t
  rw [heq]
  change (modifyTask _ t _).tasks[x.index]? = _
  rw [getElem?_modifyTask, getElem?_modifyTask]
  split
  · rw [Option.map_map]
    rfl
  · rfl

theorem scheduled_clear {task : Task} (ht : p.tasks[t.index]? = some task) :
    (task.dependents.map Dependent.task ++ (p.clear t).scheduled).Perm p.scheduled := by
  obtain ⟨contexts, free, heq⟩ := clear_eq p t
  have hsch : (p.clear t).scheduled = (p.modifyTask t fun t => { t with dependents := [], initializes := none }).scheduled := by
    rw [heq]
    exact scheduled_modifyTask _ t (fun t => { t with contexts := [] }) fun _ => rfl
  have hw := Table.perm_flatMap_modify (g := fun t => t.dependents.map Dependent.task)
    (f := fun t : Task => { t with dependents := [], initializes := none })
    (A := task.dependents.map Dependent.task) (B := []) ht (by simp)
  rw [hsch, scheduled, scheduled, ← List.append_assoc]
  refine (List.perm_append_comm.append_right _).trans ?_
  rw [List.append_assoc]
  exact hw.append_left _

theorem Fit.clear (hp : p.Fit none) (hfin : (p.taskAt t).state.isFinished) : (p.clear t).Fit none := by
  have h₁ : (p.modifyTask t fun t => { t with dependents := [], initializes := none }).Fit none :=
    hp.modifyTask_frame t (fun _ => rfl) (fun _ => rfl) fun _ => rfl
  have h₂ : (p.unlist t).Fit none := h₁.congr rfl rfl rfl rfl rfl
  have hend : ∀ task, (p.unlist t).tasks[t.index]? = some task → task.state.isFinished := by
    intro task ht
    change (Process.modifyTask _ _ _).tasks[t.index]? = _ at ht
    rw [getElem?_modifyTask, if_pos rfl] at ht
    obtain ⟨old, hold, rfl⟩ := Option.map_eq_some_iff.1 ht
    exact taskAt_of_getElem? hold ▸ hfin
  have h₃ : ((p.unlist t).modifyTask t fun t => { t with contexts := [] }).Fit none := by
    refine h₂.modifyTask (fun task ht ha => ?_) (fun task _ _ c hc => by cases hc) fun _ _ => .inl rfl
    rcases ha with ha | ha
    · exact absurd (hend task ht) ha
    · cases ha
  have hrelease : ∀ (cs : List ContextId) (q : Process), q.Fit none →
      (cs.foldl Process.releaseContext q).Fit none := by
    intro cs
    induction cs with
    | nil => exact fun q hq => hq
    | cons c rest ih => exact fun q hq => ih _ (hq.releaseContext c)
  exact hrelease _ _ h₃

theorem modules_clear (p : Process) (t : TaskId) (m : ModuleId) (x : TaskId)
    (hm : (p.clear t).modules.get? m = some (.initializing x)) :
    p.modules.get? m = some (.initializing x) ∧ (p.taskAt t).initializes ≠ some m := by
  obtain ⟨contexts, free, heq⟩ := clear_eq p t
  rw [heq] at hm
  change (p.markReady (p.taskAt t).initializes).modules.get? m = _ at hm
  cases hi : (p.taskAt t).initializes with
  | none =>
      rw [hi] at hm
      exact ⟨hm, by simp⟩
  | some m' =>
      rw [hi] at hm
      simp only [markReady, Bindings.get?_insert] at hm
      split at hm
      · cases hm
      · rename_i hne
        exact ⟨hm, by simpa using hne⟩

/-- Those who have waited for a finished task are loose, and the task is like a carrier that is done. -/
theorem Schedule.clear (hs : p.Schedule (some t) K []) (hfin : (p.taskAt t).state.isFinished) :
    (p.clear t).Schedule none (fun x => K x ∨ x = t ∧ (p.taskAt t).remote = none)
      ((p.taskAt t).dependents.map Dependent.task) := by
  obtain ⟨hlt, hn⟩ := hs.running t rfl
  have hget := getElem?_of_index_lt hlt
  have hperm := scheduled_clear hget
  have hne : ∀ x ∈ p.scheduled, t ≠ x := by
    rintro x hx rfl
    exact hn hx
  have hsize : (p.clear t).tasks.size = p.tasks.size := by
    obtain ⟨contexts, free, heq⟩ := clear_eq p t
    rw [heq]
    simp [Process.modifyTask]
  refine ⟨hperm.nodup_iff.2 hs.nodup, fun x hx => ?_, fun x hx => (by cases hx), fun x b hb hfin' hdep => ?_,
    fun m x hm => ?_, fun out ho => ?_, fun x hx => ?_⟩
  · obtain ⟨a, ha, hrest⟩ := hs.ready x (hperm.mem_iff.1 hx)
    refine ⟨a, ?_, hrest⟩
    rw [getElem?_clear, if_neg (hne x (hperm.mem_iff.1 hx))]
    exact ha
  · rw [getElem?_clear] at hb
    split at hb
    · obtain ⟨a, _, rfl⟩ := Option.map_eq_some_iff.1 hb
      exact absurd rfl hdep
    · rename_i htx
      exact .inr ((hs.settled x b hb hfin' hdep).resolve_left fun h => htx (Option.some.inj h))
  · obtain ⟨hm, hnot⟩ := modules_clear p t m x hm
    obtain ⟨a, ha, hinit, hcur⟩ := hs.initializing m x hm
    have htx : t ≠ x := by
      rintro rfl
      rw [taskAt_of_getElem? ha] at hnot
      exact hnot hinit
    refine ⟨a, ?_, hinit, fun h => .inr ((hcur h).resolve_left fun h' => htx (Option.some.inj h'))⟩
    rw [getElem?_clear, if_neg htx]
    exact ha
  · have ho' : out ∈ p.outgoing := by
      obtain ⟨contexts, free, heq⟩ := clear_eq p t
      rw [heq] at ho
      exact ho
    obtain ⟨a, ha, hrest⟩ := hs.owing out ho'
    unfold Owing
    rw [getElem?_clear]
    split
    · exact ⟨a.cleared, by rw [ha]; rfl, hrest⟩
    · exact ⟨a, ha, hrest⟩
  · have hunlinked : ∀ x : TaskId, ((p.clear t).taskAt x).remote = (p.taskAt x).remote := by
      intro x
      have := getElem?_clear p t x
      simp only [taskAt, Array.getD_eq_getD_getElem?, this]
      split
      · cases p.tasks[x.index]? <;> rfl
      · rfl
    rcases hx with hx | ⟨rfl, hlink⟩
    · have hc := hs.carriers x hx
      exact ⟨hsize ▸ hc.index_lt, fun h => hc.unscheduled (hperm.mem_iff.1 h), by simp, (hunlinked x).trans hc.unlinked⟩
    · exact ⟨hsize ▸ hlt, fun h => hn (hperm.mem_iff.1 h), by simp, (hunlinked x).trans hlink⟩

/-! ## Delivering -/

/-- A loose task gets a place in the queue. -/
theorem Intact.wake (hp : p.Intact none { l with loose := t :: l.loose }) : (p.wake t).Intact none l := by
  have hr := hp.schedule.ready t (by simp)
  have hun : ∀ task, p.tasks[t.index]? = some task → ¬ task.state.isFinished := fun task ht =>
    taskAt_of_getElem? ht ▸ hr.taskAt.1
  have h₁ : (p.modifyTask t fun t => { t with state := .running, reason := .notWaiting }).Intact none
      { l with loose := t :: l.loose } := by
    refine hp.modifyTask_frame (fun _ => rfl) (fun task ht => ?_) (fun _ => rfl) (fun task ht _ => ?_) (fun _ => rfl)
      fun _ => rfl
    · exact ⟨rfl, rfl, fun h => absurd h (hun task ht)⟩
    · exact ⟨⟨rfl, rfl, fun h => absurd h (hun task ht)⟩, by simpa [TaskState.isFinished] using hun task ht, fun h => h,
        fun _ => rfl⟩
  have h₂ : ({ (p.modifyTask t fun t => { t with state := .running, reason := .notWaiting }) with
      waiting := p.waiting.erase t } : Process).Intact none { l with loose := t :: l.loose } :=
    h₁.congr rfl rfl rfl rfl rfl rfl rfl rfl rfl rfl
  unfold Process.wake
  rw [if_neg hr.taskAt.1]
  exact ⟨h₂.fit.congr rfl rfl rfl rfl rfl, h₂.anchored.continues h₂.schedule (.of_tasks rfl) rfl rfl rfl rfl,
    h₂.schedule.enqueue, h₂.linked⟩

/-- A loose task ends with something that is no object. -/
theorem Intact.failTask (hp : p.Intact none { l with loose := t :: l.loose }) {error : Value}
    (he : error.handle? = none) : (p.failTask t error).Intact none l := by
  have hr := hp.schedule.ready t (by simp)
  obtain ⟨hn, hnodup⟩ := List.nodup_cons.1 hp.schedule.nodup
  have hun : ∀ task, p.tasks[t.index]? = some task → ¬ task.state.isFinished := fun task ht =>
    taskAt_of_getElem? ht ▸ hr.taskAt.1
  have hval : p.heap.Valid error := by
    rintro r rfl
    cases he
  have hak : ∀ task : Task, p.tasks[t.index]? = some task → task.Akin { task with state := .error, register := error } :=
    fun task ht => ⟨rfl, rfl, fun h => absurd h (hun task ht)⟩
  -- the task counts as running while it ends, since it has no place
  have hs : p.Schedule (some t) l.carriers l.loose := hp.schedule.run
  have hs' : (p.failTask t error).Schedule (some t) l.carriers l.loose :=
    hs.modifyTask (fun _ => rfl) hak fun _ _ h => absurd rfl h
  have hget : ∀ x task, (p.failTask t error).tasks[x.index]? = some task → some t = some x → task.Hollow := by
    rintro x task hx h
    cases h
    rw [Process.failTask, getElem?_modifyTask, if_pos rfl] at hx
    obtain ⟨_, _, rfl⟩ := Option.map_eq_some_iff.1 hx
    exact he
  refine ⟨?_, hp.anchored.continues hs (.modifyTask hak fun _ _ h => absurd rfl h) rfl rfl rfl rfl, ?_,
    hp.linked.modifyTask fun _ => rfl⟩
  · refine hp.fit.modifyTask (fun task _ ha => ?_) (fun task _ ha => ?_) fun _ _ => .inr hval
    · rcases ha with ha | ha
      · exact absurd rfl ha
      · cases ha
    · rcases ha with ha | ha
      · exact absurd rfl ha
      · cases ha
  · refine ⟨hs'.nodup, hs'.ready, fun x hx => (by cases hx), fun x a ha hfin hdep => ?_, fun m x hm => ?_, hs'.owing,
      fun x hx => ?_⟩
    · exact .inr ((hs'.settled x a ha hfin hdep).elim (hget x a ha) fun h => h)
    · obtain ⟨a, ha, hinit, hfin⟩ := hs'.initializing m x hm
      exact ⟨a, ha, hinit, fun h => .inr ((hfin h).elim (hget x a ha) fun h => h)⟩
    · have hc := hs'.carriers x hx
      exact ⟨hc.index_lt, hc.unscheduled, by simp, hc.unlinked⟩

/-- A loose task gets the outcome of the task it has waited for. -/
theorem Intact.deliver {d : Dependent} (hp : p.Intact none { l with loose := d.task :: l.loose }) (failed : Bool)
    {result : Value} (hv : p.heap.Valid result) : (p.deliver failed result d).Intact none l := by
  have hr := hp.schedule.ready d.task (by simp)
  unfold Process.deliver
  rw [if_neg hr.taskAt.1]
  split
  · obtain ⟨c, rest, hcs⟩ := List.exists_cons_of_ne_nil hr.taskAt.2
    have htop : (p.taskAt d.task).top? = some c := by simp [Task.top?, hcs]
    cases result with
    | object r =>
        simp only [deliverError, htop]
        refine (hp.modifyContext c (f := fun c => { c with error := some r }) (fun x v hm => ?_) fun _ => rfl).wake
        simp only [Context.values, List.mem_append, List.mem_cons, Option.toList_some, List.map_cons, List.map_nil,
          List.not_mem_nil, or_false] at hm ⊢
        rcases hm with (hm | hm) | rfl
        · exact .inl (.inl (.inl hm))
        · exact .inl (.inl (.inr hm))
        · exact .inr hv
    | none =>
        simp only [deliverError, htop]
        exact hp.failTask rfl
    | scalar s =>
        simp only [deliverError, htop]
        exact hp.failTask rfl
  · split
    · exact (hp.setRegister hv hr.taskAt.1).wake
    · exact hp.wake

theorem wake_frame (p : Process) (t : TaskId) :
    ∃ tasks waiting queue, p.wake t = { p with tasks := tasks, waiting := waiting, queue := queue } := by
  unfold Process.wake
  split
  · exact ⟨p.tasks, p.waiting, p.queue, rfl⟩
  · exact ⟨_, _, _, rfl⟩

theorem deliver_frame (p : Process) (failed : Bool) (result : Value) (d : Dependent) :
    ∃ tasks contexts waiting queue, p.deliver failed result d
      = { p with tasks := tasks, contexts := contexts, waiting := waiting, queue := queue } := by
  have hwake : ∀ tasks contexts, ∃ tasks' contexts' waiting queue,
      ({ p with tasks := tasks, contexts := contexts } : Process).wake d.task
        = { p with tasks := tasks', contexts := contexts', waiting := waiting, queue := queue } := by
    intro tasks contexts
    obtain ⟨tasks', waiting, queue, heq⟩ := wake_frame { p with tasks := tasks, contexts := contexts } d.task
    exact ⟨tasks', contexts, waiting, queue, heq⟩
  unfold Process.deliver deliverError
  split
  · exact ⟨p.tasks, p.contexts, p.waiting, p.queue, rfl⟩
  · split
    · split
      · exact hwake p.tasks _
      · exact ⟨_, p.contexts, p.waiting, p.queue, rfl⟩
    · split
      · exact hwake _ p.contexts
      · exact hwake p.tasks p.contexts

theorem deliverAll_frame (failed : Bool) (result : Value) (ds : List Dependent) (p : Process) :
    ∃ tasks contexts waiting queue, ds.foldl (fun p d => p.deliver failed result d) p
      = { p with tasks := tasks, contexts := contexts, waiting := waiting, queue := queue } := by
  induction ds generalizing p with
  | nil => exact ⟨p.tasks, p.contexts, p.waiting, p.queue, rfl⟩
  | cons d rest ih =>
      obtain ⟨tasks, contexts, waiting, queue, heq⟩ := deliver_frame p failed result d
      obtain ⟨tasks', contexts', waiting', queue', heq'⟩ := ih (p.deliver failed result d)
      refine ⟨tasks', contexts', waiting', queue', ?_⟩
      rw [List.foldl_cons, heq', heq]

theorem finish_changes (p : Process) (t : TaskId) : ∃ tasks contexts free waiting modules queue,
    p.finish t = { p with
      tasks := tasks, contexts := contexts, freeContexts := free, waiting := waiting, modules := modules, queue := queue } := by
  obtain ⟨contexts, free, heq⟩ := clear_eq p t
  obtain ⟨tasks, contexts', waiting, queue, heq'⟩ :=
    deliverAll_frame ((p.taskAt t).state = .error) (p.taskAt t).register (p.taskAt t).dependents (p.clear t)
  exact ⟨tasks, contexts', free, waiting, _, queue, by rw [finish_eq, heq', heq]; rfl⟩

theorem finish_frame (p : Process) (t : TaskId) : (p.finish t).id = p.id ∧
    (p.finish t).completions = p.completions ∧ (p.finish t).heap = p.heap ∧ (p.finish t).phase = p.phase := by
  obtain ⟨tasks, contexts, free, waiting, modules, queue, heq⟩ := finish_changes p t
  rw [heq]
  exact ⟨rfl, rfl, rfl, rfl⟩

/-- All who have waited for a task get its outcome. -/
theorem Intact.deliverAll (failed : Bool) {result : Value} (ds : List Dependent) :
    ∀ {p : Process}, p.Intact none { l with loose := ds.map Dependent.task ++ l.loose } → p.heap.Valid result →
      (ds.foldl (fun p d => p.deliver failed result d) p).Intact none l := by
  induction ds with
  | nil => exact fun hp _ => hp
  | cons d rest ih =>
      intro p hp hv
      have h₁ : (p.deliver failed result d).Intact none { l with loose := rest.map Dependent.task ++ l.loose } :=
        Intact.deliver (l := { l with loose := rest.map Dependent.task ++ l.loose }) hp failed hv
      obtain ⟨tasks, contexts, waiting, queue, heq⟩ := deliver_frame p failed result d
      refine ih h₁ ?_
      change (p.deliver failed result d).heap.Valid result
      rw [heq]
      exact hv

/-- The running task is finished, and all who have waited for it are told. -/
theorem Intact.finish (hf : p.Fit none) (ha : p.Anchored l.calls l.roots) (hs : p.Schedule (some t) K [])
    (hl : p.Linked l.links) (hloose : l.loose = []) (hfin : (p.taskAt t).state.isFinished)
    (hv : p.heap.Valid (p.taskAt t).register)
    (hK : ∀ x, l.carriers x → K x ∨ x = t ∧ (p.taskAt t).remote = none) : (p.finish t).Intact none l := by
  rw [finish_eq]
  have hheap : (p.clear t).heap = p.heap ∧ (p.clear t).completions = p.completions ∧
      (p.clear t).outgoing = p.outgoing ∧ (p.clear t).reflection = p.reflection := by
    obtain ⟨contexts, free, heq⟩ := clear_eq p t
    rw [heq]
    exact ⟨rfl, rfl, rfl, rfl⟩
  have hfields : ∀ x : TaskId, ((p.clear t).taskAt x).register = (p.taskAt x).register := by
    intro x
    have := getElem?_clear p t x
    simp only [taskAt, Array.getD_eq_getD_getElem?, this]
    split
    · cases p.tasks[x.index]? <;> rfl
    · rfl
  refine Intact.deliverAll _ _ ⟨hf.clear hfin, ?_, ?_, ?_⟩ (by rw [hheap.1]; exact hv)
  · exact ha.congr hheap.1 hheap.2.1 hheap.2.2.1 hheap.2.2.2 fun out _ => hfields out.task
  · rw [hloose, List.append_nil]
    exact (hs.clear hfin).mono hK
  · intro x task link hx hlink
    rw [getElem?_clear] at hx
    split at hx
    · obtain ⟨old, hold, rfl⟩ := Option.map_eq_some_iff.1 hx
      exact hl x old link hold hlink
    · exact hl x task link hx hlink

/-- A result is on its way to another process, with a root of its own. -/
theorem Intact.owe {task : Task} {link : RemoteLink} (ht : p.tasks[t.index]? = some task)
    (hp : p.Intact cur { l with roots := task.register.handle?.toList ++ l.roots }) (hfin : task.state.isFinished)
    (hlink : task.remote = some link) : ({ p with outgoing := p.outgoing ++ [⟨t, link⟩] } : Process).Intact cur l := by
  have hs := hp.schedule
  refine ⟨hp.fit.congr rfl rfl rfl rfl rfl, Anchored.owe (by rw [taskAt_of_getElem? ht]; exact hp.anchored) link,
    ⟨hs.nodup, hs.ready, hs.running, hs.settled, hs.initializing, fun out hout => ?_, fun x hx => ?_⟩, hp.linked⟩
  · rcases List.mem_append.1 hout with hout | hout
    · exact hs.owing out hout
    · rw [List.mem_singleton.1 hout]
      exact ⟨task, ht, hfin, hlink⟩
  · have hc := hs.carriers x hx
    exact ⟨hc.index_lt, hc.unscheduled, hc.idle, hc.unlinked⟩

end Process

end Spool
