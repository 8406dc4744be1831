import Spool.Machine.Spawn
import Spool.Proofs.Process.Anchored
import Spool.Proofs.Process.Schedule

/-!
# Processes that are intact

A process is intact if nothing in it dangles, all roots have an owner and all tasks are in their place. What others
have to do with the process is in its ledger.
-/

namespace Spool

/-- What a process is to the rest of the machine. -/
structure Ledger where
  /-- Background calls that have not come back. -/
  calls : List BackgroundCall := []
  /-- Roots that nobody owns yet, or any more. -/
  roots : List Handle := []
  /-- Tasks on the way from one place to another. -/
  loose : List TaskId := []
  /-- Tasks that stand for work done elsewhere. -/
  carriers : TaskId → Prop
  /-- Tasks of other processes that results may be sent to. -/
  links : RemoteLink → Prop

namespace Process

variable {p p' : Process} {cur : Option TaskId} {l : Ledger}

/-- Results are sent to these tasks only. -/
def Linked (p : Process) (links : RemoteLink → Prop) : Prop :=
  ∀ (t : TaskId) task link, p.tasks[t.index]? = some task → task.remote = some link → links link

structure Intact (p : Process) (cur : Option TaskId) (l : Ledger) : Prop where
  fit : p.Fit cur
  anchored : p.Anchored l.calls l.roots
  schedule : p.Schedule cur l.carriers l.loose
  linked : p.Linked l.links

theorem Linked.modifyTask {links : RemoteLink → Prop} (hl : p.Linked links) {t : TaskId} {f : Task → Task}
    (hf : ∀ task, (f task).remote = task.remote) : (p.modifyTask t f).Linked links := by
  intro x task link hx hlink
  rw [getElem?_modifyTask] at hx
  split at hx
  · obtain ⟨old, hold, rfl⟩ := Option.map_eq_some_iff.1 hx
    exact hl x old link hold (hf old ▸ hlink)
  · exact hl x task link hx hlink

theorem Linked.newTask {links : RemoteLink → Prop} (hl : p.Linked links) (parent : Option TaskId) :
    (p.newTask parent).2.Linked links := by
  intro x task link hx hlink
  simp only [Process.newTask, Array.getElem?_push] at hx
  split at hx
  · cases hx
    cases hlink
  · exact hl x task link hx hlink

/-- Results on their way to other processes are not touched. -/
theorem Anchored.continues {calls : List BackgroundCall} {extra : List Handle} {K : TaskId → Prop} {loose : List TaskId}
    (ha : p.Anchored calls extra) (hs : p.Schedule cur K loose) (hc : Continues cur p p') (hh : p'.heap = p.heap)
    (hcomp : p'.completions = p.completions) (ho : p'.outgoing = p.outgoing)
    (hr : p'.reflection = p.reflection) : p'.Anchored calls extra := by
  refine ha.congr hh hcomp ho hr fun out hout => ?_
  obtain ⟨a, hget, hfin, hlink⟩ := hs.owing out hout
  obtain ⟨b, hb, hak, _⟩ := hc _ a hget
  rw [taskAt_of_getElem? hget, taskAt_of_getElem? hb]
  exact (hak.outcome hfin (by simp [hlink])).2

/-! ## Parts that do not matter -/

theorem Intact.mono {K' : TaskId → Prop} (hp : p.Intact cur l) (hK : ∀ t, K' t → l.carriers t) :
    p.Intact cur { l with carriers := K' } :=
  ⟨hp.fit, hp.anchored, hp.schedule.mono hK, hp.linked⟩

/-- Tasks and heap are the same. -/
theorem Intact.refit (hp : p.Intact cur l) (hf : p'.Fit cur) (hh : p'.heap = p.heap) (ht : p'.tasks = p.tasks)
    (hcomp : p'.completions = p.completions) (ho : p'.outgoing = p.outgoing) (hq : p'.queue = p.queue)
    (hm : p'.modules = p.modules) (hr : p'.reflection = p.reflection) : p'.Intact cur l where
  fit := hf
  anchored := hp.anchored.continues hp.schedule (.of_tasks ht) hh hcomp ho hr
  schedule := hp.schedule.congr ht hq ho hm
  linked := by
    unfold Linked
    rw [ht]
    exact hp.linked

theorem Intact.congr (hp : p.Intact cur l) (hh : p'.heap = p.heap) (ht : p'.tasks = p.tasks)
    (hc : p'.contexts = p.contexts) (he : p'.exitValue = p.exitValue) (hn : p'.entryTask = p.entryTask)
    (hcomp : p'.completions = p.completions) (ho : p'.outgoing = p.outgoing) (hq : p'.queue = p.queue)
    (hm : p'.modules = p.modules) (hr : p'.reflection = p.reflection) : p'.Intact cur l :=
  hp.refit (hp.fit.congr hh ht hc he hn) hh ht hcomp ho hq hm hr

theorem Intact.valid_register {t : TaskId} (hp : p.Intact (some t) l) : p.heap.Valid (p.taskAt t).register :=
  hp.fit.values t _ (getElem?_of_index_lt (hp.schedule.running t rfl).1) (.inr rfl) _ List.mem_cons_self

theorem Intact.valid_stack {t : TaskId} (hp : p.Intact (some t) l) : ∀ v ∈ (p.taskAt t).stack, p.heap.Valid v :=
  fun v hv => hp.fit.values t _ (getElem?_of_index_lt (hp.schedule.running t rfl).1) (.inr rfl) v
    (List.mem_cons_of_mem _ hv)

theorem Intact.secure {t : TaskId} (hp : p.Intact (some t) l) : ∀ c ∈ (p.taskAt t).contexts, p.Secure c :=
  hp.fit.contexts t _ (getElem?_of_index_lt (hp.schedule.running t rfl).1) (.inr rfl)

/-! ## The heap -/

theorem Intact.gains (hp : p.Intact cur l) {X : External → Prop} {h' : Heap} (hg : p.heap.Gains X h')
    (hX : ∀ x, X x → p.Behind x) : ({ p with heap := h' } : Process).Intact cur l where
  fit := hp.fit.extend hg.toExtends hX
  anchored := hp.anchored.gains hg
  schedule := hp.schedule.congr rfl rfl rfl rfl
  linked := hp.linked

/-- Roots have come or gone. -/
theorem Intact.reroot (hp : p.Intact cur l) (roots : List Handle) {h' : Heap} {count : Handle → Nat}
    (hc : p.heap.Recounted count h') (hr : ∀ r, p.heap.rootCount r + roots.count r = l.roots.count r + count r) :
    ({ p with heap := h' } : Process).Intact cur { l with roots } where
  fit := hp.fit.recounted hc
  anchored := hp.anchored.reroot hc hr
  schedule := hp.schedule.congr rfl rfl rfl rfl
  linked := hp.linked

theorem Intact.collect (hp : p.Intact cur l) (registry : Registry) (hcur : ∀ t, cur = some t → ¬ (p.taskAt t).state.isFinished) :
    (p.collect registry).2.Intact cur l where
  fit := hp.fit.collect registry fun t _ ht hget => taskAt_of_getElem? hget ▸ hcur t ht
  anchored := hp.anchored.collect hp.fit.sound registry
  schedule := hp.schedule.congr rfl rfl rfl rfl
  linked := hp.linked

/-! ## The running task -/

/-- A change of a task that others do not take note of. -/
theorem Intact.modifyTask (hp : p.Intact cur l) {t : TaskId} {f : Task → Task}
    (hd : ∀ task, (f task).dependents = task.dependents)
    (hk : ∀ task, p.tasks[t.index]? = some task → task.Akin (f task)) (hm : ∀ task, (f task).remote = task.remote)
    (hl : ∀ task, p.tasks[t.index]? = some task → cur ≠ some t → task.Alike (f task))
    (hv : ∀ task, p.tasks[t.index]? = some task → ∀ v ∈ (f task).values, v ∈ task.values ∨ p.heap.Valid v)
    (hc : ∀ task, p.tasks[t.index]? = some task → ∀ c ∈ (f task).contexts, c ∈ task.contexts ∨ p.Secure c)
    (hr : ∀ task, p.tasks[t.index]? = some task → (f task).register = task.register ∨ p.heap.Valid (f task).register) :
    (p.modifyTask t f).Intact cur l := by
  have hact : ∀ task, p.tasks[t.index]? = some task → Active cur t (f task) → Active cur t task := by
    intro task ht ha
    by_cases hcur : cur = some t
    · exact .inr hcur
    · rcases ha with ha | ha
      · exact .inl ((hl task ht hcur).finished ▸ ha)
      · exact .inr ha
  refine ⟨hp.fit.modifyTask (fun task ht ha v hm => ?_) (fun task ht ha c hm => ?_) hr, ?_,
    hp.schedule.modifyTask hd hk hl, hp.linked.modifyTask hm⟩
  · rcases hv task ht v hm with hm | hval
    · exact hp.fit.values t task ht (hact task ht ha) v hm
    · exact hval
  · rcases hc task ht c hm with hm | hsec
    · exact hp.fit.contexts t task ht (hact task ht ha) c hm
    · exact hsec
  · exact hp.anchored.continues hp.schedule (.modifyTask hk hl) rfl rfl rfl rfl

theorem Intact.setRegister (hp : p.Intact cur l) {t : TaskId} {v : Value} (hv : p.heap.Valid v)
    (hun : ¬ (p.taskAt t).state.isFinished) :
    (p.modifyTask t fun task => { task with register := v }).Intact cur l := by
  have hunfinished : ∀ task : Task, p.tasks[t.index]? = some task → ¬ task.state.isFinished := fun task ht =>
    taskAt_of_getElem? ht ▸ hun
  have hk : ∀ task : Task, p.tasks[t.index]? = some task → task.Akin { task with register := v } := fun task ht =>
    ⟨rfl, rfl, fun hfin => absurd hfin (hunfinished task ht)⟩
  refine hp.modifyTask (fun _ => rfl) hk (fun _ => rfl)
    (fun task ht _ => ⟨hk task ht, rfl, fun h => h, fun h => absurd h (hunfinished task ht)⟩)
    (fun task ht w hw => ?_) (fun task ht c hm => .inl hm) fun _ _ => .inr hv
  rcases List.mem_cons.1 hw with rfl | hw
  · exact .inr hv
  · exact .inl (List.mem_cons_of_mem _ hw)

theorem Intact.setStack (hp : p.Intact cur l) {t : TaskId} {f : List Value → List Value}
    (hf : ∀ stack, ∀ v ∈ f stack, v ∈ stack ∨ p.heap.Valid v) :
    (p.modifyTask t fun task => { task with stack := f task.stack }).Intact cur l := by
  refine hp.modifyTask (fun _ => rfl) (fun _ _ => ⟨rfl, rfl, fun _ _ => ⟨rfl, rfl⟩⟩) (fun _ => rfl)
    (fun task ht hne => ⟨⟨rfl, rfl, fun _ _ => ⟨rfl, rfl⟩⟩, rfl, fun h => h, fun _ => rfl⟩) (fun task ht v hm => ?_)
    (fun task ht c hm => .inl hm) fun _ _ => .inl rfl
  rcases List.mem_cons.1 hm with rfl | hm
  · exact .inl List.mem_cons_self
  · rcases hf task.stack v hm with hm | hval
    · exact .inl (List.mem_cons_of_mem _ hm)
    · exact .inr hval

/-- A change of flags and states that leaves the task as far as it was. -/
theorem Intact.modifyTask_frame (hp : p.Intact cur l) {t : TaskId} {f : Task → Task}
    (hd : ∀ task, (f task).dependents = task.dependents)
    (hk : ∀ task, p.tasks[t.index]? = some task → task.Akin (f task)) (hm : ∀ task, (f task).remote = task.remote)
    (hl : ∀ task, p.tasks[t.index]? = some task → cur ≠ some t → task.Alike (f task))
    (hv : ∀ task, (f task).values = task.values) (hc : ∀ task, (f task).contexts = task.contexts) :
    (p.modifyTask t f).Intact cur l :=
  hp.modifyTask hd hk hm hl (fun task _ _ hm => .inl (hv task ▸ hm)) (fun task _ _ hm => .inl (hc task ▸ hm))
    fun task _ => .inl (List.cons.inj (hv task)).1

/-! ## Contexts -/

theorem Intact.modifyContext (hp : p.Intact cur l) (c : ContextId) {f : Context → Context}
    (hv : ∀ x, ∀ v ∈ (f x).values, v ∈ x.values ∨ p.heap.Valid v) (hf : ∀ x, (f x).previous = x.previous) :
    (p.modifyContext c f).Intact cur l :=
  hp.refit (hp.fit.modifyContext c hv hf) rfl rfl rfl rfl rfl rfl rfl

theorem releaseContext_eq (p : Process) (c : ContextId) :
    ∃ contexts free, p.releaseContext c = { p with contexts := contexts, freeContexts := free } := by
  unfold releaseContext
  split
  · exact ⟨p.contexts, p.freeContexts, rfl⟩
  · exact ⟨_, _, rfl⟩

theorem Intact.releaseContext (hp : p.Intact cur l) (c : ContextId) : (p.releaseContext c).Intact cur l := by
  have hf := hp.fit.releaseContext c
  obtain ⟨contexts, free, heq⟩ := releaseContext_eq p c
  rw [heq] at hf ⊢
  exact hp.refit hf rfl rfl rfl rfl rfl rfl rfl

theorem pinFrom_eq (fuel : Nat) (c : ContextId) (p : Process) :
    ∃ contexts, pinFrom fuel c p = { p with contexts := contexts } := by
  induction fuel generalizing c p with
  | zero => exact ⟨p.contexts, rfl⟩
  | succ fuel ih =>
      unfold pinFrom
      dsimp only
      split
      · exact ⟨p.contexts, rfl⟩
      · split
        · obtain ⟨contexts, heq⟩ := ih _ (p.modifyContext c fun c => { c with pinned := true })
          exact ⟨contexts, heq⟩
        · exact ⟨_, rfl⟩

theorem Intact.pin (hp : p.Intact cur l) (c : ContextId) : (p.pin c).Intact cur l := by
  have hf := hp.fit.pin c
  unfold Process.pin at hf ⊢
  obtain ⟨contexts, heq⟩ := pinFrom_eq p.contexts.size c p
  rw [heq] at hf ⊢
  exact hp.refit hf rfl rfl rfl rfl rfl rfl rfl

theorem newContext_frame (p : Process) (x : Context) :
    ∃ contexts free, (p.newContext x).2 = { p with contexts := contexts, freeContexts := free } := by
  unfold newContext
  split
  · exact ⟨_, _, rfl⟩
  · exact ⟨_, p.freeContexts, rfl⟩

theorem Intact.newContext (hp : p.Intact cur l) {x : Context} (hv : ∀ v ∈ x.values, p.heap.Valid v)
    (hx : ∀ d, x.previous = some d → p.Secure d) :
    (p.newContext x).2.Intact cur l ∧ (p.newContext x).2.Secure (p.newContext x).1 ∧
      ∀ c, p.Secure c → (p.newContext x).2.Secure c := by
  obtain ⟨hf, hnew, hold⟩ := hp.fit.newContext hv hx
  refine ⟨?_, hnew, hold⟩
  obtain ⟨contexts, free, heq⟩ := newContext_frame p x
  rw [heq] at hf ⊢
  exact hp.refit hf rfl rfl rfl rfl rfl rfl rfl

end Process

end Spool
