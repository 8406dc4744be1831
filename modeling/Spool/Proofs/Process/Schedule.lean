import Spool.Process.Finish
import Spool.Proofs.Process.Fit
import Spool.Proofs.Bindings

/-!
# The places of tasks

Every task is in one place at most: in the queue, or on the list of the task that it waits for. A task on the way
from one place to another is loose. The carriers of work done elsewhere are in no place, and a task that has come
to its end with an object for a result keeps nobody waiting.
-/

namespace Spool

/-- A change of a task that only the task itself takes note of. -/
structure Task.Akin (a b : Task) : Prop where
  remote : b.remote = a.remote
  initializes : b.initializes = a.initializes
  outcome : a.state.isFinished → a.remote ≠ none → b.state = a.state ∧ b.register = a.register

/-- A change of a task that is as far as it was. -/
structure Task.Alike (a b : Task) : Prop extends Task.Akin a b where
  finished : b.state.isFinished = a.state.isFinished
  contexts : a.contexts ≠ [] → b.contexts ≠ []
  register : a.state.isFinished → b.register = a.register

theorem Task.Alike.refl (a : Task) : a.Alike a := ⟨⟨rfl, rfl, fun _ _ => ⟨rfl, rfl⟩⟩, rfl, id, fun _ => rfl⟩

/-- The task has no object for a result. -/
def Task.Hollow (t : Task) : Prop := t.register.handle? = none

namespace Process

variable {p p' : Process} {cur : Option TaskId} {K : TaskId → Prop} {loose : List TaskId}

def waiters (p : Process) : List TaskId := p.tasks.toList.flatMap fun t => t.dependents.map Dependent.task

/-- A task is on the list of another one. -/
def WaitsFor (p : Process) (x t : TaskId) : Prop :=
  t.index < p.tasks.size ∧ x ∈ (p.taskAt t).dependents.map Dependent.task

/-- The tasks in the queue and those that wait for another. -/
def scheduled (p : Process) : List TaskId := p.queue.toList ++ p.waiters

/-- The task can run. -/
def Ready (p : Process) (t : TaskId) : Prop :=
  ∃ task, p.tasks[t.index]? = some task ∧ ¬ task.state.isFinished ∧ task.contexts ≠ []

/-- A task that stands for work done elsewhere. -/
structure Carrier (p : Process) (cur : Option TaskId) (loose : List TaskId) (t : TaskId) : Prop where
  index_lt : t.index < p.tasks.size
  unscheduled : t ∉ loose ++ p.scheduled
  idle : cur ≠ some t
  unlinked : (p.taskAt t).remote = none

/-- A finished task whose result another process waits for. -/
def Owing (p : Process) (out : Outgoing) : Prop :=
  ∃ task, p.tasks[out.task.index]? = some task ∧ task.state.isFinished ∧ task.remote = some out.link

structure Schedule (p : Process) (cur : Option TaskId) (K : TaskId → Prop) (loose : List TaskId) : Prop where
  nodup : (loose ++ p.scheduled).Nodup
  ready : ∀ t ∈ loose ++ p.scheduled, p.Ready t
  running : ∀ t, cur = some t → t.index < p.tasks.size ∧ t ∉ loose ++ p.scheduled
  settled : ∀ t task, p.tasks[t.index]? = some task → task.state.isFinished → task.dependents ≠ [] →
    cur = some t ∨ task.Hollow
  initializing : ∀ m t, p.modules.get? m = some (.initializing t) →
    ∃ task, p.tasks[t.index]? = some task ∧ task.initializes = some m ∧
      (task.state.isFinished → cur = some t ∨ task.Hollow)
  owing : ∀ out ∈ p.outgoing, p.Owing out
  carriers : ∀ t, K t → p.Carrier cur loose t

theorem Schedule.mono {K' : TaskId → Prop} (hs : p.Schedule cur K loose) (hK : ∀ t, K' t → K t) :
    p.Schedule cur K' loose :=
  { hs with carriers := fun t ht => hs.carriers t (hK t ht) }

/-! ## Looking up tasks -/

theorem taskAt_of_getElem? {t : TaskId} {task : Task} (ht : p.tasks[t.index]? = some task) : p.taskAt t = task := by
  simp [taskAt, Array.getD_eq_getD_getElem?, ht]

theorem getElem?_of_index_lt {t : TaskId} (ht : t.index < p.tasks.size) : p.tasks[t.index]? = some (p.taskAt t) := by
  simp [taskAt, Array.getD_eq_getD_getElem?, ht]

theorem index_lt_of_getElem? {t : TaskId} {task : Task} (ht : p.tasks[t.index]? = some task) :
    t.index < p.tasks.size :=
  (Array.getElem?_eq_some_iff.1 ht).1

theorem taskAt_eq_default {t : TaskId} (ht : ¬ t.index < p.tasks.size) : p.taskAt t = default := by
  simp [taskAt, Array.getD_eq_getD_getElem?, ht]

/-- A task of which something is known is there. -/
theorem index_lt_of_taskAt {P : Task → Prop} {t : TaskId} (h : P (p.taskAt t)) (hdefault : ¬ P default) :
    t.index < p.tasks.size := by
  by_contra ht
  rw [taskAt_eq_default ht] at h
  exact hdefault h

theorem index_lt_of_isFinished {t : TaskId} (h : (p.taskAt t).state.isFinished) : t.index < p.tasks.size :=
  index_lt_of_taskAt (P := fun task => task.state.isFinished) h nofun

theorem index_lt_of_dependents {t : TaskId} {d : Dependent} (h : d ∈ (p.taskAt t).dependents) : t.index < p.tasks.size :=
  index_lt_of_taskAt (P := fun task => d ∈ task.dependents) h nofun

theorem taskAt_modifyTask (p : Process) (t : TaskId) (f : Task → Task) (x : TaskId) :
    (p.modifyTask t f).taskAt x = if t = x ∧ x.index < p.tasks.size then f (p.taskAt x) else p.taskAt x := by
  have hx := getElem?_modifyTask p t f x
  by_cases hlt : x.index < p.tasks.size
  · rw [getElem?_of_index_lt hlt] at hx
    by_cases htx : t = x
    · rw [if_pos htx] at hx
      rw [if_pos ⟨htx, hlt⟩]
      exact taskAt_of_getElem? hx
    · rw [if_neg htx] at hx
      rw [if_neg fun h => htx h.1]
      exact taskAt_of_getElem? hx
  · have hle := Nat.le_of_not_lt hlt
    rw [if_neg fun h => hlt h.2]
    simp [taskAt, modifyTask, Array.getD_eq_getD_getElem?, hle]

theorem Ready.index_lt {t : TaskId} (hr : p.Ready t) : t.index < p.tasks.size := by
  obtain ⟨_, ht, _⟩ := hr
  exact index_lt_of_getElem? ht

theorem Ready.taskAt {t : TaskId} (hr : p.Ready t) :
    ¬ (p.taskAt t).state.isFinished ∧ (p.taskAt t).contexts ≠ [] := by
  obtain ⟨task, ht, hun, hc⟩ := hr
  rw [taskAt_of_getElem? ht]
  exact ⟨hun, hc⟩

theorem Ready.modifyTask {t x : TaskId} (hr : p.Ready t) {f : Task → Task}
    (hf : ∀ task, (f task).state.isFinished = task.state.isFinished)
    (hc : ∀ task : Task, task.contexts ≠ [] → (f task).contexts ≠ []) : (p.modifyTask x f).Ready t := by
  obtain ⟨task, ht, hun, hctx⟩ := hr
  unfold Ready
  rw [getElem?_modifyTask, ht]
  split
  · exact ⟨f task, rfl, by rw [hf]; exact hun, hc task hctx⟩
  · exact ⟨task, rfl, hun, hctx⟩

theorem getElem?_newTask_of {t : TaskId} {task : Task} (ht : p.tasks[t.index]? = some task) (parent : Option TaskId) :
    (p.newTask parent).2.tasks[t.index]? = some task := by
  simp only [newTask, Array.getElem?_push, if_neg (Nat.ne_of_lt (index_lt_of_getElem? ht))]
  exact ht

/-! ## Changes of the tasks -/

/-- All tasks are still there and as far as they were, up to the running one. -/
def Continues (cur : Option TaskId) (p p' : Process) : Prop :=
  ∀ (t : TaskId) a, p.tasks[t.index]? = some a →
    ∃ b, p'.tasks[t.index]? = some b ∧ a.Akin b ∧ (cur ≠ some t → a.Alike b)

theorem Continues.of_tasks (ht : p'.tasks = p.tasks) : Continues cur p p' :=
  fun _ a ha => ⟨a, ht ▸ ha, (Task.Alike.refl a).toAkin, fun _ => .refl a⟩

theorem Continues.modifyTask {t : TaskId} {f : Task → Task}
    (hf : ∀ task, p.tasks[t.index]? = some task → task.Akin (f task))
    (hf' : ∀ task, p.tasks[t.index]? = some task → cur ≠ some t → task.Alike (f task)) :
    Continues cur p (p.modifyTask t f) := by
  intro x a ha
  rw [getElem?_modifyTask, ha]
  split
  · rename_i hx
    subst hx
    exact ⟨f a, rfl, hf a ha, hf' a ha⟩
  · exact ⟨a, rfl, (Task.Alike.refl a).toAkin, fun _ => .refl a⟩

theorem Schedule.changed {loose' : List TaskId} (hs : p.Schedule cur K loose) (hc : Continues cur p p')
    (hsub : List.Subperm (loose' ++ p'.scheduled) (loose ++ p.scheduled))
    (hset : ∀ t b, p'.tasks[t.index]? = some b → b.state.isFinished → b.dependents ≠ [] → cur = some t ∨ b.Hollow)
    (ho : p'.outgoing = p.outgoing) (hm : p'.modules = p.modules) : p'.Schedule cur K loose' where
  nodup := by
    obtain ⟨l, hl, hsub⟩ := hsub
    exact hl.nodup_iff.1 (hsub.nodup hs.nodup)
  ready t ht := by
    obtain ⟨a, ha, hun, hctx⟩ := hs.ready t (hsub.subset ht)
    have hne : cur ≠ some t := fun h => (hs.running t h).2 (hsub.subset ht)
    obtain ⟨b, hb, _, hab⟩ := hc t a ha
    exact ⟨b, hb, by rw [(hab hne).finished]; exact hun, (hab hne).contexts hctx⟩
  running t ht := by
    obtain ⟨hlt, hn⟩ := hs.running t ht
    obtain ⟨b, hb, _⟩ := hc t _ (getElem?_of_index_lt hlt)
    exact ⟨index_lt_of_getElem? hb, fun h => hn (hsub.subset h)⟩
  settled := hset
  initializing m t hmod := by
    obtain ⟨a, ha, hinit, hfin⟩ := hs.initializing m t (hm ▸ hmod)
    obtain ⟨b, hb, hak, hab⟩ := hc t a ha
    refine ⟨b, hb, hak.initializes.trans hinit, fun hfin' => ?_⟩
    by_cases hcur : cur = some t
    · exact .inl hcur
    · have ha' : a.state.isFinished := (hab hcur).finished ▸ hfin'
      refine (hfin ha').imp_right fun hh => ?_
      rw [Task.Hollow, (hab hcur).register ha']
      exact hh
  owing out hout := by
    obtain ⟨a, ha, hfin, hlink⟩ := hs.owing out (ho ▸ hout)
    obtain ⟨b, hb, hak, _⟩ := hc _ a ha
    exact ⟨b, hb, by rw [(hak.outcome hfin (by simp [hlink])).1]; exact hfin, hak.remote.trans hlink⟩
  carriers t ht := by
    have hcar := hs.carriers t ht
    obtain ⟨b, hb, hak, _⟩ := hc t _ (getElem?_of_index_lt hcar.index_lt)
    refine ⟨index_lt_of_getElem? hb, fun h => hcar.unscheduled (hsub.subset h), hcar.idle, ?_⟩
    rw [taskAt_of_getElem? hb, hak.remote]
    exact hcar.unlinked

/-- Nobody is moved. -/
theorem Schedule.congr (hs : p.Schedule cur K loose) (ht : p'.tasks = p.tasks) (hq : p'.queue = p.queue)
    (ho : p'.outgoing = p.outgoing) (hm : p'.modules = p.modules) : p'.Schedule cur K loose := by
  refine hs.changed (.of_tasks ht) (List.Perm.subperm (.of_eq ?_)) ?_ ho hm
  · simp only [scheduled, waiters, ht, hq]
  · rw [ht]
    exact hs.settled

theorem scheduled_modifyTask (p : Process) (t : TaskId) (f : Task → Task)
    (hd : ∀ task, (f task).dependents = task.dependents) : (p.modifyTask t f).scheduled = p.scheduled := by
  have hw : (p.modifyTask t f).waiters = p.waiters := Table.flatMap_modify (fun task => by rw [hd]) t.index
  simp only [scheduled, hw]
  rfl

theorem Schedule.modifyTask (hs : p.Schedule cur K loose) {t : TaskId} {f : Task → Task}
    (hd : ∀ task, (f task).dependents = task.dependents)
    (hf : ∀ task, p.tasks[t.index]? = some task → task.Akin (f task))
    (hf' : ∀ task, p.tasks[t.index]? = some task → cur ≠ some t → task.Alike (f task)) :
    (p.modifyTask t f).Schedule cur K loose := by
  refine hs.changed (.modifyTask hf hf') (List.Perm.subperm (.of_eq ?_)) (fun x b hb hfin hdep => ?_) rfl rfl
  · rw [scheduled_modifyTask p t f hd]
  · rw [getElem?_modifyTask] at hb
    split at hb
    · rename_i hx
      subst hx
      obtain ⟨a, ha, rfl⟩ := Option.map_eq_some_iff.1 hb
      by_cases hcur : cur = some t
      · exact .inl hcur
      · have hfin' : a.state.isFinished := (hf' a ha hcur).finished ▸ hfin
        refine (hs.settled t a ha hfin' (hd a ▸ hdep)).imp_right fun hh => ?_
        rw [Task.Hollow, (hf' a ha hcur).register hfin']
        exact hh
    · exact hs.settled x b hb hfin hdep

theorem Schedule.newTask (hs : p.Schedule cur K loose) (parent : Option TaskId) :
    (p.newTask parent).2.Schedule cur K loose := by
  have hget : ∀ (t : TaskId) b, (p.newTask parent).2.tasks[t.index]? = some b →
      p.tasks[t.index]? = some b ∨ b = { parent } := by
    intro t b hb
    simp only [Process.newTask, Array.getElem?_push] at hb
    split at hb
    · exact .inr (Option.some.inj hb).symm
    · exact .inl hb
  refine hs.changed (fun t a ha => ?_) (List.Perm.subperm (.of_eq ?_)) (fun t b hb hfin hdep => ?_) rfl rfl
  · exact ⟨a, getElem?_newTask_of ha parent, (Task.Alike.refl a).toAkin, fun _ => .refl a⟩
  · simp [scheduled, waiters, Process.newTask]
  · rcases hget t b hb with hb | rfl
    · exact hs.settled t b hb hfin hdep
    · exact absurd rfl hdep

/-- A number that no task has had is in no place. -/
theorem Schedule.fresh (hs : p.Schedule cur K loose) {t : TaskId} (ht : p.tasks.size ≤ t.index) :
    t ∉ loose ++ p.scheduled ∧ cur ≠ some t ∧ ¬ K t := by
  refine ⟨fun h => ?_, fun h => ?_, fun h => ?_⟩
  · exact absurd (hs.ready t h).index_lt (Nat.not_lt.2 ht)
  · exact absurd (hs.running t h).1 (Nat.not_lt.2 ht)
  · exact absurd (hs.carriers t h).index_lt (Nat.not_lt.2 ht)

/-! ## From place to place -/

/-- A task that is in no place may become loose. -/
theorem Schedule.loosen (hs : p.Schedule cur K loose) {t : TaskId} (hr : p.Ready t) (hn : t ∉ loose ++ p.scheduled)
    (hc : cur ≠ some t) (hK : ¬ K t) : p.Schedule cur K (t :: loose) where
  nodup := List.nodup_cons.2 ⟨hn, hs.nodup⟩
  ready x hx := by
    rcases List.mem_cons.1 hx with rfl | hx
    · exact hr
    · exact hs.ready x hx
  running x hx := by
    refine ⟨(hs.running x hx).1, fun hm => ?_⟩
    rcases List.mem_cons.1 hm with rfl | hm
    · exact hc hx
    · exact (hs.running x hx).2 hm
  settled := hs.settled
  initializing := hs.initializing
  owing := hs.owing
  carriers x hx := by
    have hcar := hs.carriers x hx
    refine ⟨hcar.index_lt, fun hm => ?_, hcar.idle, hcar.unlinked⟩
    rcases List.mem_cons.1 hm with rfl | hm
    · exact hK hx
    · exact hcar.unscheduled hm

/-- The running task stops. -/
theorem Schedule.stop {t : TaskId} (hs : p.Schedule (some t) K loose) (hr : p.Ready t) :
    p.Schedule none K (t :: loose) := by
  have hidle : ∀ (x : TaskId) a, p.tasks[x.index]? = some a → a.state.isFinished → some t ≠ some x := by
    rintro x a ha hfin h
    cases h
    have hun := hr.taskAt.1
    rw [taskAt_of_getElem? ha] at hun
    exact hun hfin
  have hnone : p.Schedule none K loose := by
    refine ⟨hs.nodup, hs.ready, fun x hx => (by cases hx), fun x a ha hfin hdep => ?_, fun m x hm => ?_,
      hs.owing, fun x hx => ?_⟩
    · exact .inr ((hs.settled x a ha hfin hdep).resolve_left (hidle x a ha hfin))
    · obtain ⟨a, ha, hinit, hfin⟩ := hs.initializing m x hm
      exact ⟨a, ha, hinit, fun h => .inr ((hfin h).resolve_left (hidle x a ha h))⟩
    · have hc := hs.carriers x hx
      exact ⟨hc.index_lt, hc.unscheduled, by simp, hc.unlinked⟩
  exact hnone.loosen hr (hs.running t rfl).2 (by simp) fun hK => (hs.carriers t hK).idle rfl

/-- A loose task runs. -/
theorem Schedule.run {t : TaskId} (hs : p.Schedule none K (t :: loose)) : p.Schedule (some t) K loose where
  nodup := (List.nodup_cons.1 hs.nodup).2
  ready x hx := hs.ready x (List.mem_cons_of_mem t hx)
  running x hx := by
    cases hx
    exact ⟨(hs.ready t List.mem_cons_self).index_lt, (List.nodup_cons.1 hs.nodup).1⟩
  settled x a ha hfin hdep := .inr ((hs.settled x a ha hfin hdep).resolve_left (by simp))
  initializing m x hm := by
    obtain ⟨a, ha, hinit, hfin⟩ := hs.initializing m x hm
    exact ⟨a, ha, hinit, fun h => .inr ((hfin h).resolve_left (by simp))⟩
  owing := hs.owing
  carriers x hx := by
    have hc := hs.carriers x hx
    refine ⟨hc.index_lt, fun hm => hc.unscheduled (List.mem_cons_of_mem t hm), fun h => ?_, hc.unlinked⟩
    cases h
    exact hc.unscheduled List.mem_cons_self

/-- Loose tasks find a place, or are left alone. -/
theorem Schedule.place {loose' : List TaskId} (hs : p.Schedule cur K loose) (ht : p'.tasks = p.tasks)
    (ho : p'.outgoing = p.outgoing) (hm : p'.modules = p.modules)
    (hsub : List.Subperm (loose' ++ p'.scheduled) (loose ++ p.scheduled)) : p'.Schedule cur K loose' :=
  hs.changed (.of_tasks ht) hsub (by rw [ht]; exact hs.settled) ho hm

theorem Schedule.enqueue {t : TaskId} (hs : p.Schedule cur K (t :: loose)) : (p.enqueue t).Schedule cur K loose := by
  refine hs.place rfl rfl rfl (List.Perm.subperm ?_)
  have hsch : (p.enqueue t).scheduled = p.queue.toList ++ [t] ++ p.waiters := by
    simp only [scheduled, Process.enqueue, Fifo.toList_push]
    rfl
  rw [hsch, scheduled, List.append_assoc, ← List.append_assoc loose]
  exact List.perm_middle.trans (by simp)

/-- The first task of the queue leaves it. -/
theorem Schedule.dequeue {t : TaskId} {queue : Fifo TaskId} (hs : p.Schedule cur K [])
    (hq : p.queue.pop? = some (t, queue)) : ({ p with queue } : Process).Schedule cur K [t] := by
  refine hs.place rfl rfl rfl (List.Perm.subperm (.of_eq ?_))
  simp only [scheduled, Fifo.toList_of_pop? hq]
  rfl

/-- A loose task waits for another, if there is such a task. -/
theorem Schedule.addDependent {t x : TaskId} (hs : p.Schedule cur K (t :: loose)) (delivery : Delivery)
    (hx : ∀ task, p.tasks[x.index]? = some task → task.state.isFinished → cur = some x ∨ task.Hollow) :
    (p.modifyTask x fun task => task.addDependent t delivery).Schedule cur K loose := by
  cases ha : p.tasks[x.index]? with
  | none =>
      have hself : (p.modifyTask x fun task => task.addDependent t delivery) = p := by
        simp [Process.modifyTask, Table.modify_eq_self ha]
      rw [hself]
      exact hs.place rfl rfl rfl (List.sublist_cons_self t _).subperm
  | some a =>
      have hperm : (loose ++ (p.modifyTask x fun task => task.addDependent t delivery).scheduled).Perm
          (t :: loose ++ p.scheduled) := by
        have hw : (p.modifyTask x fun task => task.addDependent t delivery).waiters.Perm (t :: p.waiters) := by
          have := Table.perm_flatMap_modify (g := fun t => t.dependents.map Dependent.task)
            (f := fun task => task.addDependent t delivery) (A := []) (B := [t]) ha (by
              simp only [Task.addDependent, List.map_append, List.map_cons, List.map_nil, List.nil_append,
                List.singleton_append]
              exact List.perm_append_singleton t _)
          simpa [waiters, Process.modifyTask] using this
        have hq := (hw.append_left p.queue.toList).trans List.perm_middle
        exact (hq.append_left loose).trans List.perm_middle
      have hcont : Continues cur p (p.modifyTask x fun task => task.addDependent t delivery) :=
        .modifyTask (fun task _ => ⟨rfl, rfl, fun _ _ => ⟨rfl, rfl⟩⟩) fun task _ _ =>
          ⟨⟨rfl, rfl, fun _ _ => ⟨rfl, rfl⟩⟩, rfl, fun h => h, fun _ => rfl⟩
      refine hs.changed hcont hperm.subperm (fun y b hb hfin hdep => ?_) rfl rfl
      rw [getElem?_modifyTask] at hb
      split at hb
      · rename_i hy
        subst hy
        obtain ⟨c, hc, rfl⟩ := Option.map_eq_some_iff.1 hb
        exact hx c hc hfin
      · exact hs.settled y b hb hfin hdep

end Process

end Spool
