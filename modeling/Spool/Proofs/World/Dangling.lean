import Spool.Proofs.World.Main

/-!
# Nothing dangles

Whatever modules there are, and in whatever order processes run, results are delivered and background calls end: a
process never holds the handle of an object that is gone. The collector may strike whenever no task is about to be
finished.
-/

namespace Spool

/-! ## What a process holds -/

/-- The handle is in a place of the process from which it may still be used. The result of a finished task counts until
it has reached those who wait for it. -/
inductive Process.Holds (p : Process) (cur : Option TaskId) : Handle → Prop where
  /-- In the register or on the stack of a task. -/
  | task {t : TaskId} {task : Task} {r : Handle} : p.tasks[t.index]? = some task → ¬ task.state.isFinished →
      .object r ∈ task.values → Holds p cur r
  | context {t : TaskId} {task : Task} {c d : ContextId} {r : Handle} : p.tasks[t.index]? = some task →
      ¬ task.state.isFinished → c ∈ task.contexts → p.Encloses c d → .object r ∈ (p.contextAt d).values → Holds p cur r
  | exit {r : Handle} : p.exitValue = some (.object r) → Holds p cur r
  | entry {t : TaskId} {task : Task} {r : Handle} : p.entryTask = some t → p.tasks[t.index]? = some task →
      task.register = .object r → Holds p cur r
  /-- Behind a future that does not know its result. -/
  | awaited {x : Handle} {o : Object} {cell : FutureCell} {task : Task} {r : Handle} : p.heap.object? x = some o →
      o.payload = .future cell → cell.memoized = false → p.tasks[cell.task.index]? = some task →
      task.register = .object r → Holds p cur r
  | captured {x : Handle} {o : Object} {b : BoundFunction} {c d : ContextId} {r : Handle} : p.heap.object? x = some o →
      o.payload = .bound b → b.capture = some c → p.Encloses c d → .object r ∈ (p.contextAt d).values → Holds p cur r
  | completion {c : Completion} {r : Handle} : c ∈ p.completions → c.result = .ok (.object r) ∨ r ∈ c.held → Holds p cur r
  /-- The task has just ended, others wait for it, or its result has yet to be sent. -/
  | result {t : TaskId} {task : Task} {r : Handle} : p.tasks[t.index]? = some task → task.state.isFinished →
      (cur = some t ∨ task.dependents ≠ [] ∨ ∃ link, ⟨t, link⟩ ∈ p.outgoing) → task.register = .object r → Holds p cur r
  /-- In a member, an element or the receiver of an object. -/
  | inside {x : Handle} {o : Object} {r : Handle} : p.heap.object? x = some o → .object r ∈ o.values → Holds p cur r

namespace Process

variable {p : Process} {cur : Option TaskId} {l : Ledger} {r : Handle}

/-- A task that is not finished has no result yet. -/
theorem Holds.idle {t : TaskId} (hr : p.Holds (some t) r) (hun : ¬ (p.taskAt t).state.isFinished) : p.Holds none r := by
  cases hr with
  | task ht hfin hv => exact .task ht hfin hv
  | context ht hfin hc hd hv => exact .context ht hfin hc hd hv
  | exit he => exact .exit he
  | entry he ht hv => exact .entry he ht hv
  | awaited ho hp hm ht hv => exact .awaited ho hp hm ht hv
  | captured ho hp hc hd hv => exact .captured ho hp hc hd hv
  | completion hc hr => exact .completion hc hr
  | result ht hfin hwhy hv =>
      rcases hwhy with hcur | hwhy
      · cases hcur
        rw [taskAt_of_getElem? ht] at hun
        exact absurd hfin hun
      · exact .result ht hfin (.inr hwhy) hv
  | inside ho hv => exact .inside ho hv

theorem Intact.isLive_of_holds (hp : p.Intact cur l) (hr : p.Holds cur r) : p.heap.isLive r := by
  cases hr with
  | task ht hfin hv => exact hp.fit.values _ _ ht (.inl hfin) _ hv r rfl
  | context ht hfin hc hd hv => exact hp.fit.contexts _ _ ht (.inl hfin) _ hc _ hd _ hv r rfl
  | exit he => exact hp.fit.exit _ he r rfl
  | entry he ht hv => exact hp.fit.entry _ _ he ht r hv
  | awaited ho hpay hm ht hv =>
      exact hp.fit.behind _ _ (.task _) ho (by simp [hpay, Payload.external?, hm]) _ ht r hv
  | captured ho hpay hc hd hv =>
      exact hp.fit.behind _ _ (.context _) ho (by simp [hpay, Payload.external?, hc]) _ hd _ hv r rfl
  | completion hc hr =>
      -- a result is among the objects that the call holds
      have hheld := hr.elim (hp.anchored.results _ hc r) fun h => h
      refine hp.anchored.isLive (.inl ?_)
      simp only [anchors, List.mem_append, List.mem_flatMap]
      exact .inl (.inl (.inl (.inr ⟨_, hc, hheld⟩)))
  | result ht hfin hwhy hv =>
      rcases hwhy with hcur | hdep | ⟨link, hout⟩
      · exact hp.fit.values _ _ ht (.inr hcur) _ List.mem_cons_self r hv
      · rcases hp.schedule.settled _ _ ht hfin hdep with hcur | hhollow
        · exact hp.fit.values _ _ ht (.inr hcur) _ List.mem_cons_self r hv
        · rw [Task.Hollow, hv] at hhollow
          cases hhollow
      · refine hp.anchored.valid_outgoing hout r ?_
        rw [taskAt_of_getElem? ht]
        exact hv
  | inside ho hv => exact Heap.valid_of_mem_values hp.fit.sound.edges ho hv r rfl

end Process

namespace World

variable {w w' : World} {p : Process} {m : Machine}

/-! ## What can happen -/

/-- The worlds that can come about. -/
inductive Arises : World → Prop where
  | create {r : MachineRequest} {w : World} : create r = .ok w → Arises w
  | addHostModule {w : World} : Arises w →
      Arises { w with host := { w.host with registry := w.host.registry.addHostModule } }
  | register {w : World} (m : CompiledModule) : Arises w → Arises (register m w).2
  | loadFile {w : World} (path : String) : Arises w → Arises (loadFile path w).2
  | startMain {w : World} (name : String) : Arises w → Arises (startMain name w).2
  | step {w w' : World} {fuel : Nat} {e : Event} : Arises w → w.step fuel e = some w' → Arises w'
  | collect {w : World} (id : ProcessId) : Arises w → Arises (w.collect id).2

theorem Arises.inv (hw : w.Arises) : w.Inv := by
  induction hw with
  | create h => exact inv_create h
  | addHostModule _ ih => exact ih.registry ih.calm.addHostModule
  | register m _ ih => exact preserves_register m _ ih
  | loadFile path _ ih => exact preserves_loadFile path _ ih
  | startMain name _ ih => exact preserves_startMain name _ ih
  | step _ h ih => exact ih.step h
  | collect id _ ih => exact ih.collect id

/-- How far a process is with a round of its scheduler. -/
inductive Stage where
  /-- No task runs. -/
  | between
  | running
  /-- The task has come to its end, or waits. -/
  | stopped
  deriving DecidableEq

def Stage.current (m : Machine) : Stage → Option TaskId
  | .between => none
  | _ => some m.task

/-- What a process goes through in a round of its scheduler, from one instruction to the next. -/
inductive Round (w : World) (p : Process) : Stage → Machine → Prop where
  | settle : canTick p → Round w p .between (Machine.settleAll { host := w.host, process := awaken p, task := ⟨0⟩ }).2
  | begin {m : Machine} {t : TaskId} {queue : Fifo TaskId} : Round w p .between m →
      m.process.queue.pop? = some (t, queue) →
      Round w p .running (Machine.resume { m with process := { m.process with queue }, task := t }).2
  | advance {m : Machine} : Round w p .running m →
      Round w p (if (Machine.advance m).1 then .running else .stopped) (Machine.advance m).2
  | conclude {m : Machine} : Round w p .stopped m → Round w p .between (Machine.conclude m).2
  | tidy {m : Machine} : Round w p .between m → Round w p .between (Machine.tidy m).2
  | collect {s : Stage} {m : Machine} : Round w p s m → s ≠ .stopped → Round w p s (Machine.collectGarbage m).2

/-- The process is intact, as far as it has got. -/
def Stage.Good (g : Outlook) (m : Machine) : Stage → Prop
  | .between => m.Inv g none []
  | .running => m.Going g (some m.task)
  | .stopped => m.Stopped g m.task

theorem good_running {g : Outlook} {t : TaskId} (hm : m.Going g (some t)) : Stage.running.Good g m := by
  obtain ⟨rfl, _⟩ := hm.current
  exact hm

theorem good_stopped {g : Outlook} {t : TaskId} (hm : m.Stopped g t) : Stage.stopped.Good g m := by
  have ht : m.task = t := hm.elim (·.task) (·.task)
  subst ht
  exact hm

theorem Round.good (hw : w.Inv) (hp : p ∈ w.processes.items) {s : Stage} (hm : Round w p s m) : s.Good (w.outlook p) m := by
  induction hm with
  | settle _ => exact Machine.inv_settleAll (hw.awaken hp ⟨0⟩)
  | begin _ hq ih => exact good_running (Machine.kept_resume (Machine.Inv.begin ih hq)).1
  | @advance m _ ih =>
      have hadv := Machine.advances_advance ih
      unfold Machine.Advances at hadv
      split at hadv
      · rename_i htrue
        rw [if_pos htrue]
        exact good_running hadv
      · rename_i hfalse
        rw [if_neg hfalse]
        exact good_stopped hadv
  | conclude _ ih => exact (Machine.going_conclude ih).inv
  | tidy _ ih => exact Machine.inv_tidy ih
  | @collect s m _ hs ih =>
      cases s with
      | between => exact ih.idle.collectGarbage.inv
      | running => exact ih.collectGarbage
      | stopped => exact absurd rfl hs

/-! ## Rounds -/

theorem Round.runFrom (fuel : Nat) : ∀ {m m' : Machine}, Round w p .running m → Machine.runFrom fuel m = some m' →
    Round w p .stopped m' := by
  induction fuel with
  | zero => exact fun _ h => by cases h
  | succ fuel ih =>
      intro m m' hm h
      have hadv := hm.advance
      have heq : Machine.advance.run m = Machine.advance m := rfl
      simp only [Machine.runFrom, heq] at h
      rcases hx : Machine.advance m with ⟨_ | _, m₁⟩
      · rw [hx] at h hadv
        cases h
        exact hadv
      · rw [hx] at h hadv
        exact ih hadv h

theorem Round.runNext (hw : w.Inv) (hp : p ∈ w.processes.items) (hm : Round w p .between m) {fuel : Nat} {ran : Bool}
    {m' : Machine} (h : Machine.runNext fuel m = some (ran, m')) : Round w p .between m' := by
  unfold Machine.runNext at h
  split at h
  · rename_i t queue hq
    simp only [Machine.runTask, Option.map_map, Option.map_eq_some_iff, Function.comp, Prod.mk.injEq] at h
    obtain ⟨m₁, hrun, _, rfl⟩ := h
    have hgoing := (hm.good hw hp).begin hq
    exact ((hm.begin hq).runFrom fuel ((hgoing.run_eq fuel).symm.trans hrun)).conclude
  · cases h
    exact hm

/-- A round comes to its end in one of the states of the round, but for the phase of the process. -/
theorem Round.tick (hw : w.Inv) (hp : p ∈ w.processes.items) (hc : canTick p) {fuel : Nat}
    (h : Machine.tick fuel { host := w.host, process := awaken p, task := ⟨0⟩ } = some m) :
    ∃ m', Round w p .between m' ∧ m = { m' with process := { m'.process with phase := m.process.phase } } := by
  have heq : Machine.tick fuel { host := w.host, process := awaken p, task := ⟨0⟩ } =
      (Machine.runNext fuel (Machine.settleAll { host := w.host, process := awaken p, task := ⟨0⟩ }).2).map fun x =>
        { (Machine.tidy x.2).2 with process := { (Machine.tidy x.2).2.process with
          phase := Machine.phaseAfter (!(awaken p).completions.isEmpty || x.1) (Machine.tidy x.2).2.process } } := rfl
  rw [heq, Option.map_eq_some_iff] at h
  obtain ⟨⟨ran, m₁⟩, hrun, rfl⟩ := h
  exact ⟨_, ((Round.settle hc).runNext hw hp hrun).tidy, rfl⟩

/-! ## No dangling reference -/

theorem Stage.Good.isLive {g : Outlook} {s : Stage} (hm : s.Good g m) {r : Handle} (hr : m.process.Holds (s.current m) r) :
    m.process.heap.isLive r := by
  cases s with
  | between => exact hm.intact.isLive_of_holds hr
  | running => exact hm.inv.intact.isLive_of_holds hr
  | stopped =>
      rcases hm with hm | hm
      · exact hm.inv.intact.isLive_of_holds (hr.idle hm.unfinished)
      · exact hm.inv.intact.isLive_of_holds hr

theorem Inv.run_ne_stale (hw : w.Inv) {call : BackgroundCall} (hcall : call ∈ w.host.pool.jobs)
    (hp : w.processes.get? call.process = some p)
    (h : (Errand.run w call { heap := p.heap, held := call.held }).1 = .error .stale) :
    call.body = .remoteGet ∧ call.receiver.handle? = none := by
  exact (Act.wp.error (hw.goes_run hcall hp) h).2 rfl

/-- In every world that can come about, and at every moment of a round of one of its processes, all handles that a
process holds are live. Hence no instruction meets a dead handle. A background call does only if it is asked for the
member of a remote object and has no object to ask. -/
theorem no_dangling_reference (hw : w.Arises) :
    (∀ p ∈ w.processes.items, ∀ r, p.Holds none r → p.heap.isLive r) ∧
    (∀ p ∈ w.processes.items, ∀ s m, Round w p s m →
      (∀ r, m.process.Holds (s.current m) r → m.process.heap.isLive r) ∧
      (s = .running → ∀ top, m.top? = some top → ∀ position i, (Machine.step top position i m).1 ≠ .error .stale)) ∧
    ∀ call ∈ w.host.pool.jobs, ∀ p, w.processes.get? call.process = some p →
      (Errand.run w call { heap := p.heap, held := call.held }).1 = .error .stale →
      call.body = .remoteGet ∧ call.receiver.handle? = none := by
  have hinv := hw.inv
  refine ⟨fun p hp r hr => (hinv.intact p hp).isLive_of_holds hr, fun p hp s m hm => ?_, fun call hcall p hp h =>
    hinv.run_ne_stale hcall hp h⟩
  have hgood := hm.good hinv hp
  refine ⟨fun r hr => hgood.isLive hr, ?_⟩
  rintro rfl top htop position i hstale
  exact (Act.wp.error (Machine.steps_step hgood htop position i) hstale).2 rfl

/-- A program that loads a text and ends. -/
def loader : CompiledModule := { name := "loader", tape := { instructions := #[⟨.load, .text "kept"⟩] } }

def loaded : World := (startMain "loader" (register loader {}).2).2

/-- The program has run, and garbage has been collected. -/
def kept : World := (((loaded.step 9 (.tick ⟨1⟩)).get (by decide +kernel)).collect ⟨1⟩).2

theorem no_dangling_reference_kept : kept.Arises ∧ ∃ p ∈ kept.processes.items, ∃ r, p.Holds none r ∧ p.heap.isLive r := by
  have hloaded : loaded.Arises := .startMain "loader" (.register loader (.create (r := {}) rfl))
  have hran : loaded.step 9 (.tick ⟨1⟩) = some ((loaded.step 9 (.tick ⟨1⟩)).get (by decide +kernel)) :=
    (Option.some_get _).symm
  have hkept : kept.Arises := .collect ⟨1⟩ (.step hloaded hran)
  have hentry : (kept.processes.items[0]?.map fun p => (p.entryTask, p.tasks[0]?.map fun t => t.register.handle?))
      = some (some ⟨0⟩, some (some ⟨1, 0⟩)) := by decide +kernel
  obtain ⟨p, hp, hp'⟩ := Option.map_eq_some_iff.1 hentry
  obtain ⟨he, ht⟩ := Prod.mk.inj hp'
  obtain ⟨task, htask, hv⟩ := Option.map_eq_some_iff.1 ht
  have hobject : task.register = .object ⟨1, 0⟩ := by
    cases hx : task.register <;> simp_all [Value.handle?]
  have hheld : p.Holds none ⟨1, 0⟩ := .entry he htask hobject
  have hmem := Array.mem_of_getElem? hp
  exact ⟨hkept, p, hmem, ⟨1, 0⟩, hheld, (no_dangling_reference hkept).1 p hmem _ hheld⟩

end World

end Spool
