import Spool.Proofs.Process.Intact

/-!
# New tasks

A task that is started is loose until it is put into the queue. A carrier is put nowhere. A task that waits for
another is no longer running.
-/

namespace Spool.Process

variable {p p' : Process} {cur : Option TaskId} {l : Ledger} {t x : TaskId}

theorem scheduled_newTask (p : Process) (parent : Option TaskId) : (p.newTask parent).2.scheduled = p.scheduled := by
  simp [scheduled, waiters, newTask]

theorem Intact.newTask (hp : p.Intact cur l) (parent : Option TaskId) : (p.newTask parent).2.Intact cur l where
  fit := hp.fit.newTask parent
  anchored := by
    refine hp.anchored.continues hp.schedule (fun t a ha => ?_) rfl rfl rfl rfl
    exact ⟨a, getElem?_newTask_of ha parent, (Task.Alike.refl a).toAkin, fun _ => .refl a⟩
  schedule := hp.schedule.newTask parent
  linked := hp.linked.newTask parent

theorem getElem?_newTask (p : Process) (parent : Option TaskId) :
    (p.newTask parent).2.tasks[p.tasks.size]? = some { parent } := by
  simp [newTask]

/-! ## Tasks that run -/

theorem startTask_snd (p : Process) (parent : Option TaskId) (argument : Value) (context : TaskId → Context) :
    (p.startTask parent argument context).2
      = ((p.newTask parent).2.newContext (context ⟨p.tasks.size⟩)).2.modifyTask ⟨p.tasks.size⟩ fun task =>
          { task with contexts := [((p.newTask parent).2.newContext (context ⟨p.tasks.size⟩)).1], register := argument } :=
  rfl

theorem startTask_frame (p : Process) (parent : Option TaskId) (argument : Value) (context : TaskId → Context) :
    ∃ tasks contexts free, (p.startTask parent argument context).2
      = { p with tasks := tasks, contexts := contexts, freeContexts := free } := by
  obtain ⟨contexts, free, heq⟩ := newContext_frame (p.newTask parent).2 (context ⟨p.tasks.size⟩)
  rw [startTask_snd, heq]
  exact ⟨_, contexts, free, rfl⟩

theorem heap_startCall (p : Process) (registry : Registry) (b : BoundFunction) (start : Nat) (argument : Value)
    (parent : Option TaskId) : (p.startCall registry b start argument parent).2.heap = p.heap := by
  rw [startCall]
  obtain ⟨_, _, _, heq⟩ := startTask_frame p parent argument _
  rw [heq]

theorem heap_startModule (p : Process) (module : ModuleId) (parent : Option TaskId) :
    (p.startModule module parent).2.heap = p.heap := by
  obtain ⟨_, _, _, heq⟩ := startTask_frame p parent .none fun task => { task, kind := .moduleRoot, module, cursor := 0 }
  change (p.startTask parent .none fun task => { task, kind := .moduleRoot, module, cursor := 0 }).2.heap = _
  rw [heq]

theorem Ready.startTask (hr : p.Ready t) (parent : Option TaskId) (argument : Value) (context : TaskId → Context) :
    (p.startTask parent argument context).2.Ready t := by
  rw [startTask_snd]
  refine Ready.modifyTask ?_ (fun _ => rfl) fun _ _ => by simp
  obtain ⟨contexts, free, heq⟩ := newContext_frame (p.newTask parent).2 (context ⟨p.tasks.size⟩)
  obtain ⟨task, ht, hrest⟩ := hr
  rw [heq]
  exact ⟨task, getElem?_newTask_of ht parent, hrest⟩

/-- The new task is ready and in no place. -/
theorem Intact.startTask (hp : p.Intact cur l) {argument : Value} (parent : Option TaskId)
    (ha : p.heap.Valid argument) {context : TaskId → Context} (hv : ∀ t, ∀ v ∈ (context t).values, p.heap.Valid v)
    (hx : ∀ t d, (context t).previous = some d → p.Secure d) :
    (p.startTask parent argument context).2.Intact cur { l with loose := ⟨p.tasks.size⟩ :: l.loose } := by
  obtain ⟨hn, hcur, hK⟩ := hp.schedule.fresh (t := ⟨p.tasks.size⟩) (Nat.le_refl _)
  obtain ⟨h₂, hsec, _⟩ := (hp.newTask parent).newContext (x := context ⟨p.tasks.size⟩) (hv _) fun d hd =>
    Secure.congr (hx _ d hd) (fun _ => rfl) fun _ h => h
  obtain ⟨contexts, free, heq⟩ := newContext_frame (p.newTask parent).2 (context ⟨p.tasks.size⟩)
  rw [startTask_snd]
  generalize (p.newTask parent).2.newContext (context ⟨p.tasks.size⟩) = made at h₂ hsec heq ⊢
  obtain ⟨c, q⟩ := made
  dsimp only at h₂ hsec heq ⊢
  have hget : q.tasks[p.tasks.size]? = some { parent } := by
    rw [heq]
    exact getElem?_newTask p parent
  have hsch : q.scheduled = p.scheduled := by
    rw [← scheduled_newTask p parent, heq]
    rfl
  have hval : q.heap.Valid argument := by
    rw [heq]
    exact ha
  have h₃ : (q.modifyTask ⟨p.tasks.size⟩ fun task => { task with contexts := [c], register := argument }).Intact cur l := by
    refine h₂.modifyTask (fun _ => rfl) (fun task ht => ?_) (fun _ => rfl) (fun task ht _ => ?_)
      (fun task ht v hm => ?_) (fun task ht c hm => ?_) fun task ht => .inr hval
    · cases hget.symm.trans ht
      exact ⟨rfl, rfl, fun h => by cases h⟩
    · cases hget.symm.trans ht
      exact ⟨⟨rfl, rfl, fun h => by cases h⟩, rfl, fun h => absurd rfl h, fun h => by cases h⟩
    · cases hget.symm.trans ht
      rw [List.mem_singleton.1 hm]
      exact .inr hval
    · rw [List.mem_singleton.1 hm]
      exact .inr hsec
  have hready : (q.modifyTask ⟨p.tasks.size⟩ fun task =>
      { task with contexts := [c], register := argument }).Ready ⟨p.tasks.size⟩ := by
    refine ⟨{ parent, contexts := [c], register := argument }, ?_, by simp [TaskState.isFinished], by simp⟩
    rw [getElem?_modifyTask, if_pos rfl, hget]
    rfl
  refine ⟨h₃.fit, h₃.anchored, h₃.schedule.loosen hready ?_ hcur hK, h₃.linked⟩
  have hsch' := scheduled_modifyTask q ⟨p.tasks.size⟩
    (fun task => { task with contexts := [c], register := argument }) fun _ => rfl
  rw [hsch', hsch]
  exact hn

theorem Intact.startCall (hp : p.Intact cur l) (registry : Registry) {b : BoundFunction} (start : Nat)
    {argument : Value} (parent : Option TaskId) (hr : p.heap.Valid b.receiver)
    (hc : ∀ c, b.capture = some c → p.Secure c) (ha : p.heap.Valid argument) :
    (p.startCall registry b start argument parent).2.Intact cur { l with loose := ⟨p.tasks.size⟩ :: l.loose } := by
  refine hp.startTask parent ha (fun t v hv => ?_) fun t d hd => hc d hd
  have : v = b.receiver := by simpa [Context.values, Bindings.values] using hv
  exact this ▸ hr

theorem Intact.enqueue (hp : p.Intact cur { l with loose := t :: l.loose }) : (p.enqueue t).Intact cur l where
  fit := hp.fit.congr rfl rfl rfl rfl rfl
  anchored := hp.anchored.continues hp.schedule (.of_tasks rfl) rfl rfl rfl rfl
  schedule := hp.schedule.enqueue
  linked := hp.linked

/-! ## Modules and links -/

/-- A task that is not finished and is no carrier gets other duties. -/
theorem Schedule.amend {K : TaskId → Prop} {loose : List TaskId} (hs : p.Schedule cur K loose) {task : Task}
    (ht : p.tasks[t.index]? = some task) (hun : ¬ task.state.isFinished) (hK : ¬ K t) {f : Task → Task}
    (hf : ∀ task, (f task).dependents = task.dependents ∧ (f task).state = task.state ∧ (f task).contexts = task.contexts)
    (htasks : p'.tasks = (p.modifyTask t f).tasks) (hq : p'.queue = p.queue) (ho : p'.outgoing = p.outgoing)
    (hm : ∀ m x, p'.modules.get? m = some (.initializing x) →
      t ≠ x ∧ p.modules.get? m = some (.initializing x) ∨ t = x ∧ (f task).initializes = some m) :
    p'.Schedule cur K loose := by
  have hsch : p'.scheduled = p.scheduled := by
    rw [← scheduled_modifyTask p t f fun task => (hf task).1]
    simp only [scheduled, waiters, htasks, hq]
    rfl
  have hsize : p'.tasks.size = p.tasks.size := by
    rw [htasks]
    simp [Process.modifyTask]
  have hself : p'.tasks[t.index]? = some (f task) := by
    rw [htasks, getElem?_modifyTask, if_pos rfl, ht]
    rfl
  have hother : ∀ x, t ≠ x → p'.tasks[x.index]? = p.tasks[x.index]? := by
    intro x hx
    rw [htasks, getElem?_modifyTask, if_neg hx]
  refine ⟨hsch ▸ hs.nodup, fun x hx => ?_, fun x hx => ?_, fun x b hb hfin hdep => ?_, fun m x hmod => ?_,
    fun out hout => ?_, fun x hx => ?_⟩
  · obtain ⟨a, ha, hrest⟩ := hs.ready x (hsch ▸ hx)
    by_cases htx : t = x
    · subst htx
      cases ht.symm.trans ha
      exact ⟨f task, hself, by rw [(hf task).2.1]; exact hrest.1, by rw [(hf task).2.2]; exact hrest.2⟩
    · exact ⟨a, (hother x htx).trans ha, hrest⟩
  · obtain ⟨hlt, hn⟩ := hs.running x hx
    exact ⟨hsize ▸ hlt, fun h => hn (hsch ▸ h)⟩
  · by_cases htx : t = x
    · subst htx
      cases hself.symm.trans hb
      rw [(hf task).2.1] at hfin
      exact absurd hfin hun
    · exact hs.settled x b ((hother x htx).symm.trans hb) hfin hdep
  · rcases hm m x hmod with ⟨htx, hold⟩ | ⟨rfl, hinit⟩
    · obtain ⟨a, ha, hrest⟩ := hs.initializing m x hold
      exact ⟨a, (hother x htx).trans ha, hrest⟩
    · exact ⟨f task, hself, hinit, fun h => absurd ((hf task).2.1 ▸ h) hun⟩
  · obtain ⟨a, ha, hfin, hlink⟩ := hs.owing out (ho ▸ hout)
    refine ⟨a, (hother _ ?_).trans ha, hfin, hlink⟩
    rintro rfl
    cases ht.symm.trans ha
    exact hun hfin
  · have hc := hs.carriers x hx
    have htx : t ≠ x := by
      rintro rfl
      exact hK hx
    refine ⟨hsize ▸ hc.index_lt, fun h => hc.unscheduled (hsch ▸ h), hc.idle, ?_⟩
    rw [taskAt_of_getElem? ((hother x htx).trans (getElem?_of_index_lt hc.index_lt))]
    exact hc.unlinked

theorem startModule_frame (p : Process) (m : ModuleId) (parent : Option TaskId) :
    ∃ tasks contexts free modules, (p.startModule m parent).2
      = { p with tasks := tasks, contexts := contexts, freeContexts := free, modules := modules } := by
  obtain ⟨tasks, contexts, free, heq⟩ := startTask_frame p parent .none fun task =>
    { task, kind := .moduleRoot, module := m, cursor := 0 }
  unfold Process.startModule
  dsimp only
  rw [heq]
  exact ⟨_, contexts, free, _, rfl⟩

theorem Ready.startModule (hr : p.Ready t) (m : ModuleId) (parent : Option TaskId) :
    (p.startModule m parent).2.Ready t := by
  have h₁ := hr.startTask parent .none fun task => { task, kind := .moduleRoot, module := m, cursor := 0 }
  have h₂ : Process.Ready (Process.modifyTask _ ⟨p.tasks.size⟩ fun task => { task with initializes := some m }) t :=
    h₁.modifyTask (fun _ => rfl) fun _ h => h
  exact h₂

theorem Intact.startModule (hp : p.Intact cur l) (m : ModuleId) (parent : Option TaskId) :
    (p.startModule m parent).2.Intact cur { l with loose := ⟨p.tasks.size⟩ :: l.loose } := by
  have hnone : p.heap.Valid .none := fun r hr => by cases hr
  have h₁ : (p.startTask parent .none fun task => { task, kind := .moduleRoot, module := m, cursor := 0 }).2.Intact cur
      { l with loose := ⟨p.tasks.size⟩ :: l.loose } := hp.startTask parent hnone
    (fun t v hv => by
      have : v = .none := by simpa [Context.values, Bindings.values] using hv
      exact this ▸ hnone)
    fun t d hd => by cases hd
  obtain ⟨task, ht, hun, _⟩ := h₁.schedule.ready ⟨p.tasks.size⟩ (by simp)
  have hfree : ∀ m', p.modules.get? m' ≠ some (.initializing ⟨p.tasks.size⟩) := by
    intro m' hm
    obtain ⟨a, ha, _⟩ := hp.schedule.initializing m' _ hm
    exact absurd (index_lt_of_getElem? ha) (Nat.lt_irrefl _)
  have hmod : (p.startTask parent .none fun task => { task, kind := .moduleRoot, module := m, cursor := 0 }).2.modules
      = p.modules := by
    obtain ⟨tasks, contexts, free, heq⟩ := startTask_frame p parent .none fun task =>
      { task, kind := .moduleRoot, module := m, cursor := 0 }
    rw [heq]
  have hs : (p.startModule m parent).2.Schedule cur l.carriers (⟨p.tasks.size⟩ :: l.loose) := by
    refine h₁.schedule.amend (f := fun task => { task with initializes := some m }) ht hun
      (hp.schedule.fresh (Nat.le_refl _)).2.2 (fun _ => ⟨rfl, rfl, rfl⟩) rfl rfl rfl fun m' x hm => ?_
    have hins : (p.startModule m parent).2.modules = p.modules.insert m (.initializing ⟨p.tasks.size⟩) := by
      rw [← hmod]
      rfl
    rw [hins, Bindings.get?_insert] at hm
    split at hm
    · rename_i hmm
      cases hm
      exact .inr ⟨rfl, by rw [hmm]⟩
    · refine .inl ⟨?_, by rw [hmod]; exact hm⟩
      rintro rfl
      exact hfree m' hm
  have hf := h₁.fit.modifyTask_frame ⟨p.tasks.size⟩ (f := fun task => { task with initializes := some m })
    (fun _ => rfl) (fun _ => rfl) fun _ => rfl
  have hl := h₁.linked.modifyTask (t := ⟨p.tasks.size⟩) (f := fun task => { task with initializes := some m })
    fun _ => rfl
  refine ⟨hf.congr rfl rfl rfl rfl rfl, h₁.anchored.congr rfl rfl rfl rfl fun out _ => ?_, hs, hl⟩
  have := taskAt_modifyTask (p.startTask parent .none fun task => { task, kind := .moduleRoot, module := m, cursor := 0 }).2
    ⟨p.tasks.size⟩ (fun task => { task with initializes := some m }) out.task
  refine (congrArg Task.register this).trans ?_
  split <;> rfl

/-- The result of a task goes to another process. -/
theorem Intact.link (hp : p.Intact cur l) (hr : p.Ready t) (hK : ¬ l.carriers t) {link : RemoteLink}
    (hlink : l.links link) : (p.modifyTask t fun task => { task with remote := some link }).Intact cur l := by
  obtain ⟨task, ht, hun, _⟩ := hr
  refine ⟨hp.fit.modifyTask_frame t (fun _ => rfl) (fun _ => rfl) fun _ => rfl,
    hp.anchored.congr rfl rfl rfl rfl fun out _ => ?_, ?_, fun x task' link' hx hlink' => ?_⟩
  · rw [taskAt_modifyTask]
    split <;> rfl
  · refine hp.schedule.amend (f := fun task => { task with remote := some link }) ht hun hK
      (fun _ => ⟨rfl, rfl, rfl⟩) rfl rfl rfl fun m x hm => ?_
    by_cases htx : t = x
    · subst htx
      obtain ⟨a, ha, hinit, _⟩ := hp.schedule.initializing m t hm
      cases ht.symm.trans ha
      exact .inr ⟨rfl, hinit⟩
    · exact .inl ⟨htx, hm⟩
  · rw [getElem?_modifyTask] at hx
    split at hx
    · obtain ⟨old, _, rfl⟩ := Option.map_eq_some_iff.1 hx
      cases hlink'
      exact hlink
    · exact hp.linked x task' link' hx hlink'

/-- The first task of a process. -/
theorem Intact.setEntry (hp : p.Intact cur l) (hr : p.Ready t) : ({ p with entryTask := some t } : Process).Intact cur l := by
  obtain ⟨task, ht, hun, _⟩ := hr
  refine hp.refit ?_ rfl rfl rfl rfl rfl rfl rfl
  have hf := hp.fit
  refine ⟨hf.sound, hf.values, fun x a ha hact c hc => ?_, hf.exit, fun x a hx ha => ?_, fun r o x ho hx => ?_⟩
  · exact (hf.contexts x a ha hact c hc).congr (fun _ => rfl) fun _ h => h
  · cases hx
    exact hf.values t a ha (.inl (by cases ht.symm.trans ha; exact hun)) _ List.mem_cons_self
  · exact (hf.behind r o x ho hx).congr (fun _ => rfl) rfl fun _ h => h

/-! ## Carriers and waiting tasks -/

theorem Schedule.carry {K : TaskId → Prop} {loose : List TaskId} (hs : p.Schedule cur K loose)
    (ht : p.Carrier cur loose t) : p.Schedule cur (fun x => K x ∨ x = t) loose := by
  refine { hs with carriers := fun x hx => ?_ }
  rcases hx with hx | rfl
  · exact hs.carriers x hx
  · exact ht

theorem Intact.newCarrier (hp : p.Intact cur l) (parent : TaskId) :
    (p.newCarrier parent).2.Intact cur { l with carriers := fun x => l.carriers x ∨ x = ⟨p.tasks.size⟩ } := by
  obtain ⟨hn, hcur, hK⟩ := hp.schedule.fresh (t := ⟨p.tasks.size⟩) (Nat.le_refl _)
  have hget := getElem?_newTask p (some parent)
  have h₁ : ((p.newTask (some parent)).2.modifyTask ⟨p.tasks.size⟩ (·.park .onFuture)).Intact cur l := by
    refine (hp.newTask (some parent)).modifyTask_frame (fun _ => rfl) (fun task ht => ?_) (fun _ => rfl)
      (fun task ht _ => ?_) (fun _ => rfl) fun _ => rfl
    · cases hget.symm.trans ht
      exact ⟨rfl, rfl, fun h => by cases h⟩
    · cases hget.symm.trans ht
      exact ⟨⟨rfl, rfl, fun h => by cases h⟩, rfl, fun h => h, fun _ => rfl⟩
  have h₂ : (p.newCarrier parent).2.Intact cur l := h₁.congr rfl rfl rfl rfl rfl rfl rfl rfl rfl rfl
  have hlt : p.tasks.size < (p.newTask (some parent)).2.tasks.size := by simp [Process.newTask]
  refine ⟨h₂.fit, h₂.anchored, h₂.schedule.carry ⟨?_, ?_, hcur, ?_⟩, h₂.linked⟩
  · simp [Process.newCarrier, Process.newTask, park]
  · have hsch : (p.newCarrier parent).2.scheduled = p.scheduled := by
      rw [← scheduled_newTask p (some parent)]
      exact scheduled_modifyTask (p.newTask (some parent)).2 ⟨p.tasks.size⟩ (·.park .onFuture) fun _ => rfl
    rw [hsch]
    exact hn
  · have hat : (p.newCarrier parent).2.taskAt ⟨p.tasks.size⟩
        = ((p.newTask (some parent)).2.modifyTask ⟨p.tasks.size⟩ (·.park .onFuture)).taskAt ⟨p.tasks.size⟩ := rfl
    rw [hat, taskAt_modifyTask, if_pos ⟨rfl, hlt⟩, taskAt_of_getElem? (t := ⟨p.tasks.size⟩) hget]
    rfl

theorem getElem?_newCarrier (p : Process) (parent : TaskId) :
    (p.newCarrier parent).2.tasks[p.tasks.size]? = some { parent := some parent, state := .waiting, reason := .onFuture } := by
  have := getElem?_modifyTask (p.newTask (some parent)).2 ⟨p.tasks.size⟩ (·.park .onFuture) ⟨p.tasks.size⟩
  rw [if_pos rfl, getElem?_newTask] at this
  exact this

/-- A carrier has no contexts. -/
theorem contexts_newCarrier (p : Process) (parent : TaskId) :
    ((p.newCarrier parent).2.taskAt (p.newCarrier parent).1).contexts = [] :=
  congrArg Task.contexts (taskAt_of_getElem? (t := ⟨p.tasks.size⟩) (getElem?_newCarrier p parent))

theorem Ready.newCarrier (hr : p.Ready t) (parent : TaskId) : (p.newCarrier parent).2.Ready t := by
  obtain ⟨task, ht, hrest⟩ := hr
  refine ⟨task, ?_, hrest⟩
  have hne : (⟨p.tasks.size⟩ : TaskId) ≠ t := by
    rintro rfl
    exact absurd (index_lt_of_getElem? ht) (Nat.lt_irrefl _)
  have := getElem?_modifyTask (p.newTask (some parent)).2 ⟨p.tasks.size⟩ (·.park .onFuture) t
  rw [if_neg hne, getElem?_newTask_of ht] at this
  exact this

/-- The running task waits for another one, which will not end with an object for a result before it is told. -/
theorem Intact.await (hp : p.Intact (some t) l) (hr : p.Ready t) (delivery : Delivery) (reason : WaitReason)
    (hx : ∀ task, p.tasks[x.index]? = some task → task.state.isFinished → task.Hollow) :
    ((p.modifyTask x fun task => task.addDependent t delivery).park t reason).Intact none l := by
  have hcont : Continues (some t) p (p.modifyTask x fun task => task.addDependent t delivery) :=
    .modifyTask (fun task _ => ⟨rfl, rfl, fun _ _ => ⟨rfl, rfl⟩⟩) fun task _ _ =>
      ⟨⟨rfl, rfl, fun _ _ => ⟨rfl, rfl⟩⟩, rfl, fun h => h, fun _ => rfl⟩
  have h₁ : (p.modifyTask x fun task => task.addDependent t delivery).Intact none l := by
    refine ⟨?_, hp.anchored.continues hp.schedule hcont rfl rfl rfl rfl, ?_, hp.linked.modifyTask fun _ => rfl⟩
    · exact (hp.fit.modifyTask_frame x (f := fun task => task.addDependent t delivery) (fun _ => rfl) (fun _ => rfl)
        fun _ => rfl).idle
    · exact (hp.schedule.stop hr).addDependent delivery fun task ht hfin => .inr (hx task ht hfin)
  have h₂ : ((p.modifyTask x fun task => task.addDependent t delivery).modifyTask t (·.park reason)).Intact none l := by
    have hun : ∀ task, (p.modifyTask x fun task => task.addDependent t delivery).tasks[t.index]? = some task →
        ¬ task.state.isFinished := by
      intro task ht
      rw [← taskAt_of_getElem? ht, taskAt_modifyTask]
      split
      · exact hr.taskAt.1
      · exact hr.taskAt.1
    refine h₁.modifyTask_frame (fun _ => rfl) (fun task ht => ?_) (fun _ => rfl) (fun task ht _ => ?_) (fun _ => rfl)
      fun _ => rfl
    · exact ⟨rfl, rfl, fun h => absurd h (hun task ht)⟩
    · exact ⟨⟨rfl, rfl, fun h => absurd h (hun task ht)⟩, by
        simpa [Task.park, TaskState.isFinished] using hun task ht, fun h => h, fun _ => rfl⟩
  exact h₂.congr rfl rfl rfl rfl rfl rfl rfl rfl rfl rfl

end Spool.Process
