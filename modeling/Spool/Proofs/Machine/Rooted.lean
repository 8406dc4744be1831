import Spool.Proofs.Machine.Tickets

/-!
# Entry tasks

The entry task of a main process is its first task and the only one without a parent: every other task has been started
by one before it. A task that somebody watches has no contexts, unless there are `async` functions: it stands for work done
elsewhere, or it has come to its end.
-/

namespace Spool

/-- Somebody watches the task, and it has yet to come to its end. -/
def Task.Exposed (t : Task) : Prop := t.observed ∧ t.contexts ≠ []

namespace Process

variable {p p' : Process} {t : TaskId} {async : Prop}

structure Rooted (async : Prop) (p : Process) : Prop where
  entry : p.entryTask = some ⟨0⟩
  first : ∀ t, t.index < p.tasks.size → (p.taskAt t).parent = none → t = ⟨0⟩
  unexposed : ¬ async → ∀ t, ¬ (p.taskAt t).Exposed

theorem Rooted.mono {async' : Prop} (h : p.Rooted async) (ha : async → async') : p.Rooted async' :=
  ⟨h.entry, h.first, fun hn => h.unexposed fun has => hn (ha has)⟩

/-- Each row is as good as before. -/
theorem Rooted.rows (h : p.Rooted async) (he : p'.entryTask = p.entryTask) (hsize : p'.tasks.size = p.tasks.size)
    (hrow : ∀ t, (p'.taskAt t).parent = (p.taskAt t).parent ∧ ((p'.taskAt t).Exposed → (p.taskAt t).Exposed)) :
    p'.Rooted async :=
  ⟨he.trans h.entry, fun t ht hnone => h.first t (hsize ▸ ht) ((hrow t).1 ▸ hnone),
    fun ha t hx => h.unexposed ha t ((hrow t).2 hx)⟩

theorem Rooted.congr (h : p.Rooted async) (ht : p'.tasks = p.tasks) (he : p'.entryTask = p.entryTask) :
    p'.Rooted async := by
  refine h.rows he (congrArg Array.size ht) fun t => ?_
  simp only [taskAt, ht]
  exact ⟨trivial, fun h => h⟩

theorem Rooted.modifyTask (h : p.Rooted async) {f : Task → Task} (hparent : ∀ task, (f task).parent = task.parent)
    (hx : ¬ async → (f (p.taskAt t)).Exposed → (p.taskAt t).Exposed) : (p.modifyTask t f).Rooted async := by
  constructor
  case entry => exact h.entry
  case first =>
    intro x hlt hnone
    refine h.first x (by simpa [Process.modifyTask] using hlt) ?_
    rw [taskAt_modifyTask] at hnone
    split at hnone
    · exact (hparent _).symm.trans hnone
    · exact hnone
  case unexposed =>
    intro ha x hexposed
    rw [taskAt_modifyTask] at hexposed
    split at hexposed
    · rename_i heq
      obtain ⟨rfl, _⟩ := heq
      exact h.unexposed ha t (hx ha hexposed)
    · exact h.unexposed ha x hexposed

/-- Neither watched nor unwatched, and given no contexts. -/
theorem Rooted.modifyTask_frame (h : p.Rooted async) (t : TaskId) {f : Task → Task}
    (hf : ∀ task, (f task).parent = task.parent ∧ (f task).observed = task.observed ∧ (f task).contexts = task.contexts) :
    (p.modifyTask t f).Rooted async :=
  h.modifyTask (fun task => (hf task).1) fun _ hx => ⟨(hf _).2.1 ▸ hx.1, (hf _).2.2 ▸ hx.2⟩

theorem Rooted.newTask (h : p.Rooted async) (parent : TaskId) : (p.newTask (some parent)).2.Rooted async := by
  have hrow : ∀ x : TaskId, (p.newTask (some parent)).2.taskAt x = p.taskAt x ∨
      (p.newTask (some parent)).2.taskAt x = { parent := some parent } := by
    intro x
    simp only [taskAt, Process.newTask, Array.getD_eq_getD_getElem?, Array.getElem?_push]
    split
    · exact .inr rfl
    · exact .inl rfl
  constructor
  case entry => exact h.entry
  case first =>
    intro x hlt hnone
    rcases hrow x with hx | hx
    · refine h.first x ?_ (hx ▸ hnone)
      by_contra hge
      have hsize : (p.newTask (some parent)).2.tasks.size = p.tasks.size + 1 := by simp [Process.newTask]
      have hnew : x = ⟨p.tasks.size⟩ := by
        cases x
        simp_all
        omega
      subst hnew
      rw [taskAt_of_getElem? (t := ⟨p.tasks.size⟩) (getElem?_newTask p (some parent))] at hnone
      cases hnone
    · rw [hx] at hnone
      cases hnone
  case unexposed =>
    intro ha x hexposed
    rcases hrow x with hx | hx
    · exact h.unexposed ha x (hx ▸ hexposed)
    · rw [hx] at hexposed
      exact absurd hexposed.1 (by simp)

theorem Rooted.startTask (h : p.Rooted async) (parent : TaskId) (argument : Value) (context : TaskId → Context) :
    (p.startTask (some parent) argument context).2.Rooted async := by
  obtain ⟨_, htasks, _⟩ := newContext_eq (p.newTask (some parent)).2 (context ⟨p.tasks.size⟩)
  obtain ⟨contexts, free, heq⟩ := newContext_frame (p.newTask (some parent)).2 (context ⟨p.tasks.size⟩)
  have hentry : ((p.newTask (some parent)).2.newContext (context ⟨p.tasks.size⟩)).2.entryTask = p.entryTask := by
    rw [heq]
    rfl
  have hnew : (((p.newTask (some parent)).2.newContext (context ⟨p.tasks.size⟩)).2.taskAt ⟨p.tasks.size⟩).observed
      = false := by
    rw [taskAt, htasks, ← taskAt, taskAt_of_getElem? (t := ⟨p.tasks.size⟩) (getElem?_newTask p (some parent))]
  rw [startTask_snd]
  refine ((h.newTask parent).congr htasks hentry).modifyTask (fun _ => rfl) fun _ hx => ?_
  exact absurd hx.1 (by simpa using hnew)

theorem Rooted.startCall (h : p.Rooted async) (registry : Registry) (b : BoundFunction) (start : Nat) (argument : Value)
    (parent : TaskId) : (p.startCall registry b start argument (some parent)).2.Rooted async :=
  h.startTask parent argument _

theorem Rooted.startModule (h : p.Rooted async) (module : ModuleId) (parent : TaskId) :
    (p.startModule module (some parent)).2.Rooted async := by
  have hstart := h.startTask parent .none fun task => { task, kind := .moduleRoot, module, cursor := 0 }
  have hmark := hstart.modifyTask_frame ⟨p.tasks.size⟩ (f := fun task => { task with initializes := some module })
    fun _ => ⟨rfl, rfl, rfl⟩
  exact hmark.congr rfl rfl

theorem Rooted.newCarrier (h : p.Rooted async) (parent : TaskId) : (p.newCarrier parent).2.Rooted async := by
  have hpark := (h.newTask parent).modifyTask_frame ⟨p.tasks.size⟩ (f := (·.park .onFuture)) fun _ => ⟨rfl, rfl, rfl⟩
  exact hpark.congr rfl rfl

theorem Rooted.newContext (h : p.Rooted async) (x : Context) : (p.newContext x).2.Rooted async := by
  obtain ⟨contexts, free, heq⟩ := newContext_frame p x
  rw [heq]
  exact h.congr rfl rfl

theorem Rooted.releaseContext (h : p.Rooted async) (c : ContextId) : (p.releaseContext c).Rooted async := by
  obtain ⟨contexts, free, heq⟩ := releaseContext_eq p c
  rw [heq]
  exact h.congr rfl rfl

theorem Rooted.finish (h : p.Rooted async) (t : TaskId) : (p.finish t).Rooted async := by
  obtain ⟨contexts, free, heq⟩ := clear_eq p t
  have hclear : (p.clear t).Rooted async := by
    have hlist := h.modifyTask_frame t (f := fun t => { t with dependents := [], initializes := none })
      fun _ => ⟨rfl, rfl, rfl⟩
    have hbare := hlist.modifyTask (t := t) (f := fun t => { t with contexts := [] }) (fun _ => rfl)
      fun _ hx => absurd rfl hx.2
    rw [heq]
    exact hbare.congr rfl rfl
  have htold : ∀ (q : Process) (d : Dependent), q.Rooted async →
      (q.deliver ((p.taskAt t).state = .error) (p.taskAt t).register d).Rooted async := by
    intro q d hq
    obtain ⟨tasks, contexts, waiting, queue, heq⟩ :=
      deliver_frame q ((p.taskAt t).state = .error) (p.taskAt t).register d
    refine hq.rows (by rw [heq]) (size_tasks_deliver q _ _ d) fun x => ?_
    have hrow := field_deliver (g := fun t => (t.parent, t.observed, t.contexts)) (fun _ _ _ _ => rfl) q
      ((p.taskAt t).state = .error) (p.taskAt t).register d x
    simp only [Prod.mk.injEq] at hrow
    exact ⟨hrow.1, fun hx => ⟨hrow.2.1 ▸ hx.1, hrow.2.2 ▸ hx.2⟩⟩
  rw [finish_eq]
  exact List.foldlRecOn (motive := fun q : Process => q.Rooted async) _ _ hclear fun q hq d _ => htold q d hq

end Process

namespace Machine

variable {m m' : Machine} {y : TaskId}

def Rooted (m : Machine) : Prop := m.process.Rooted m.host.registry.HasAsync

theorem rooted_stroke (hr : m.Rooted) (h : m.Stroke m') : m'.Rooted := by
  cases h with
  | heap h hh => exact hr.congr rfl rfl
  | host h hl hn => exact hr.mono hl.async
  | own f hf =>
      refine hr.modifyTask_frame m.task fun task => ?_
      obtain ⟨_, _, _, _, heq⟩ := hf task
      rw [heq]
      exact ⟨rfl, rfl, rfl⟩
  | watch t ht => exact hr.modifyTask (fun _ => rfl) fun ha hx => absurd (ht.resolve_right ha) hx.2
  | list t delivery => exact hr.modifyTask_frame t fun _ => ⟨rfl, rfl, rfl⟩
  | books p hh ht hc hf hm he hq => exact hr.congr ht he
  | assign c top f htop he => exact hr.congr rfl rfl
  | pin c hc =>
      obtain ⟨contexts, heq⟩ := Process.pinFrom_eq m.process.contexts.size c m.process
      have hpin : m.process.pin c = { m.process with contexts } := heq
      rw [hpin]
      exact hr.congr rfl rfl
  | handle c position hc hp => exact hr.congr rfl rfl
  | carry => exact Process.Rooted.newCarrier hr m.task
  | call b start argument hs hb => exact Process.Rooted.startCall hr m.host.registry b start argument m.task
  | load module hm => exact Process.Rooted.startModule hr module m.task

theorem rooted_does (hr : m.Rooted) (h : m.Does m') : m'.Rooted := by
  induction h with
  | refl => exact hr
  | tail _ hd ih => exact rooted_stroke ih hd

/-- Whom a task works for does not change. -/
theorem parent_stroke (h : m.Stroke m') (hy : y.index < m.process.tasks.size) :
    (m'.process.taskAt y).parent = (m.process.taskAt y).parent := by
  have hrow : ∀ (p : Process) (t : TaskId) (f : Task → Task), (∀ task, (f task).parent = task.parent) →
      ((p.modifyTask t f).taskAt y).parent = (p.taskAt y).parent := by
    intro p t f hf
    rw [Process.taskAt_modifyTask]
    split
    · exact hf _
    · rfl
  cases h with
  | heap h hh => rfl
  | host h hl hn => rfl
  | own f hf =>
      refine hrow m.process m.task f fun task => ?_
      obtain ⟨_, _, _, _, heq⟩ := hf task
      rw [heq]
  | watch t ht => exact hrow _ _ _ fun _ => rfl
  | list t delivery => exact hrow _ _ _ fun _ => rfl
  | books p hh ht hc hf hm he hq => simp only [Process.taskAt, ht]
  | assign c top f htop he => rfl
  | pin c hc =>
      obtain ⟨contexts, heq⟩ := Process.pinFrom_eq m.process.contexts.size c m.process
      have hpin : m.process.pin c = { m.process with contexts } := heq
      rw [hpin]
      rfl
  | handle c position hc hp => rfl
  | carry =>
      have hmade := Process.taskAt_of_getElem?
        (Process.getElem?_newTask_of (Process.getElem?_of_index_lt hy) (some m.task))
      rw [← hmade]
      exact hrow (m.process.newTask (some m.task)).2 ⟨m.process.tasks.size⟩ (·.park .onFuture) fun _ => rfl
  | call b start argument hs hb => rw [Process.startCall, Process.taskAt_startTask hy]
  | load module hm =>
      have hmade := Process.taskAt_startTask hy (some m.task) .none fun task =>
        { task, kind := .moduleRoot, module, cursor := 0 }
      rw [← hmade]
      exact hrow _ ⟨m.process.tasks.size⟩ _ fun _ => rfl

theorem parent_does (h : m.Does m') (hy : y.index < m.process.tasks.size) :
    (m'.process.taskAt y).parent = (m.process.taskAt y).parent := by
  induction h with
  | refl => rfl
  | tail hd hs ih => exact (parent_stroke hs (Nat.lt_of_lt_of_le hy (size_does hd))).trans ih

theorem rooted_pace (hr : m.Rooted) (h : m.Pace m') : m'.Rooted := by
  cases h with
  | stroke h => exact rooted_stroke hr h
  | move c f hc hf hw => exact hr.congr rfl rfl
  | enter c x hc hun hprev hmodule hx =>
      refine (Process.Rooted.newContext hr x).modifyTask (fun _ => rfl) fun _ hexposed => ⟨hexposed.1, ?_⟩
      have htasks := (Process.newContext_eq m.process x).2.1
      rw [Process.taskAt, htasks, ← Process.taskAt]
      exact List.ne_nil_of_mem (Process.mem_of_top? hc)
  | leave c outer hcs =>
      have hout : (m.process.modifyTask m.task fun t => { t with contexts := outer }).Rooted m.host.registry.HasAsync := by
        refine Process.Rooted.modifyTask hr (fun _ => rfl) fun _ hexposed => ⟨hexposed.1, ?_⟩
        have hcs : (m.process.taskAt m.task).contexts = c :: outer := hcs
        rw [hcs]
        simp
      exact hout.releaseContext c

theorem rooted_paces (hr : m.Rooted) (h : m.Paces m') : m'.Rooted := by
  induction h with
  | refl => exact hr
  | tail _ hp ih => exact rooted_pace ih hp

theorem rooted_finishTask (hr : m.Rooted) (t : TaskId) : (finishTask t m).2.Rooted := by
  have hfinish : ({ m with process := m.process.finish t } : Machine).Rooted := Process.Rooted.finish hr t
  rw [finishTask_eq]
  split
  · exact rooted_does hfinish (does_reportUncaught _ _)
  · exact hfinish

theorem rooted_conclude (hr : m.Rooted) : (conclude m).2.Rooted := by
  by_cases hfin : m.current.state.isFinished
  · rw [conclude_of_finished hfin]
    cases m.current.remote with
    | none => exact rooted_finishTask hr m.task
    | some link => exact rooted_finishTask (rooted_does hr (does_sendResult link m)) m.task
  · rw [conclude_of_unfinished hfin]
    exact hr

theorem rooted_endCarrier (hr : m.Rooted) (result : Except Fault Value) (state : TaskState) :
    (endCarrier result state m).2.Rooted := by
  have hset : ∀ {n : Machine} (state : TaskState) (v : Value), n.Rooted →
      (finishTask n.task (modifyCurrent (fun t => { t with state, register := v }) n).2).2.Rooted := fun state v hn =>
    rooted_finishTask (m := (modifyCurrent (fun t => { t with state, register := v }) _).2)
      (Process.Rooted.modifyTask_frame hn _ fun _ => ⟨rfl, rfl, rfl⟩) _
  cases result with
  | ok v => exact hset state v hr
  | error fault => exact hset .error _ (rooted_does hr (does_errorObject fault m))

theorem rooted_settleAll (hr : m.Rooted) : (settleAll m).2.Rooted := by
  have hall : ∀ (cs : List Completion) (m : Machine), m.Rooted → ((cs.forM settle : StateM Machine PUnit) m).2.Rooted := by
    intro cs
    induction cs with
    | nil => exact fun _ hm => hm
    | cons c rest ih =>
        intro m hm
        have htaken : ({ m with task := c.task } : Machine).Rooted := hm
        exact ih _ (rooted_endCarrier (rooted_does htaken (does_handOver c m)) c.result .complete)
  exact hall _ _ (Process.Rooted.congr hr rfl rfl)

/-- A round of the scheduler starts and ends tasks, and the first one stays the entry task. -/
theorem rooted_tick {r : Registry} {fuel : Nat} (hm : m.Sturdy r) (hr : m.Rooted) (h : tick fuel m = some m') :
    m'.Rooted := by
  rw [tick_eq, Option.map_eq_some_iff] at h
  obtain ⟨⟨ran, m₁⟩, hrun, rfl⟩ := h
  have hsettled := rooted_settleAll hr
  have hran : m₁.Rooted := by
    unfold runNext at hrun
    split at hrun
    · rename_i t queue hq
      simp only [runTask, Option.map_map, Option.map_eq_some_iff, Function.comp, Prod.mk.injEq] at hrun
      obtain ⟨m₂, hrun, _, rfl⟩ := hrun
      have hfirm : ({ (settleAll m).2.process with queue } : Process).Firm (settleAll m).2.host.registry :=
        (sturdy_settleAll hm).firm.congr rfl rfl rfl rfl
      have hsturdy : ({ (settleAll m).2 with process := { (settleAll m).2.process with queue }, task := t } :
          Machine).Sturdy r := ((sturdy_settleAll hm).process hfirm).turn t
      have hbegin : ({ (settleAll m).2 with process := { (settleAll m).2.process with queue }, task := t } :
          Machine).Rooted := Process.Rooted.congr hsettled rfl rfl
      unfold run at hrun
      split at hrun
      · cases hrun
        exact rooted_conclude hbegin
      · have hresume := paces_resume hsturdy
        have hgone := hresume.trans (paces_runFrom fuel (sturdy_paces hsturdy hresume) hrun)
        exact rooted_conclude (rooted_paces hbegin hgone)
    · cases hrun
      exact hsettled
  have htidy : (tidy m₁).2.Rooted := by
    rw [tidy_eq]
    split
    · split <;> exact Process.Rooted.congr hran rfl rfl
    · exact hran
  exact Process.Rooted.congr htidy rfl rfl

end Machine

end Spool
