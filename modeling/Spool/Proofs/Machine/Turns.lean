import Mathlib.Logic.Relation
import Spool.Proofs.Machine.Pledges
import Spool.Proofs.Machine.Strides
import Spool.Proofs.Machine.Tick

/-!
# Turns

A round of the scheduler as others see it: the background calls that have come back are settled one by one, and then
one task has its turn. It is taken up, goes on for a while, and waits or comes to its end.
-/

namespace Spool

/-- Those who wait for a task can be told of its end. -/
theorem Process.Schedule.told {p : Process} {cur : Option TaskId} {K : TaskId → Prop} {t : TaskId}
    {loose : List TaskId} (hs : p.Schedule cur K loose) (ht : t ∉ loose ++ p.scheduled) :
    ∀ d ∈ (p.taskAt t).dependents, t ≠ d.task ∧ (p.taskAt d.task).contexts ≠ [] := by
  intro d hd
  have hlt : t.index < p.tasks.size := by
    refine Nat.lt_of_not_le fun hle => ?_
    have hnone : p.taskAt t = default := by simp [Process.taskAt, Array.getD_eq_getD_getElem?, hle]
    rw [hnone] at hd
    cases hd
  have hmem : d.task ∈ p.scheduled := by
    simp only [Process.scheduled, Process.waiters, List.mem_append, List.mem_flatMap, Array.mem_toList_iff]
    exact .inr ⟨_, Array.mem_of_getElem? (Process.getElem?_of_index_lt hlt), List.mem_map_of_mem hd⟩
  have hmem' := List.mem_append_right loose hmem
  refine ⟨?_, (hs.ready d.task hmem').taskAt.2⟩
  rintro rfl
  exact ht hmem'

namespace Machine

variable {g : Outlook} {m m₁ m₂ m₃ m' : Machine} {t : TaskId} {v v' : View} {rest : List RemoteLink}

/-! ## Finishing tasks -/

theorem steady_reportUncaught (error : Value) (m : Machine) : m.Steady (reportUncaught error m).2 :=
  ⟨rfl, rfl, rfl, rfl, rfl, rfl, fun _ hk => hk, fun ha => ha⟩

theorem becomes_finishTask (hfin : (m.process.taskAt t).state.isFinished)
    (hd : ∀ d ∈ (m.process.taskAt t).dependents, t ≠ d.task ∧ (m.process.taskAt d.task).contexts ≠ []) :
    m.Becomes { m.view with roster := m.view.roster.finish t } (finishTask t m).2 := by
  have hroster := Process.roster_finish hfin hd
  obtain ⟨hid, _, hheap, _⟩ := Process.finish_frame m.process t
  have hfinish : m.Becomes { m.view with roster := m.view.roster.finish t } { m with process := m.process.finish t } := by
    refine ⟨?_, fun T hk => ?_, fun ha => ha⟩
    · simp only [view, hroster, hid]
    · change (m.process.finish t).heap.Knows T
      rw [hheap]
      exact hk
  rw [finishTask_eq]
  split
  · exact hfinish.trans_steady (steady_reportUncaught _ _)
  · exact hfinish

theorem steady_root (r : Handle) (m : Machine) : m.Steady (onHeap (Heap.root r) m).2 :=
  steady_onHeap (fun _ => Heap.knows_root r) m (.refl m)

theorem becomes_sendResult (link : RemoteLink) (m : Machine) : m.Becomes { m.view with
    roster := { m.view.roster with outgoing := m.view.roster.outgoing ++ [⟨m.task, link⟩] } } (sendResult link m).2 := by
  rw [sendResult_eq]
  cases m.register with
  | object r => exact ⟨rfl, (steady_root r m).futures, fun ha => ha⟩
  | none => exact ⟨rfl, fun _ hk => hk, fun ha => ha⟩
  | scalar s => exact ⟨rfl, fun _ hk => hk, fun ha => ha⟩

theorem conclude_of_unfinished (hun : ¬ m.current.state.isFinished) : conclude m = ((), m) := by
  unfold conclude
  change (if m.current.state.isFinished then _ else pure () : StateM Machine Unit) m = _
  rw [if_neg hun]
  rfl

theorem conclude_of_finished (hfin : m.current.state.isFinished) : conclude m = (match m.current.remote with
    | some link => do sendResult link; finishTask m.task
    | none => finishTask m.task : StateM Machine Unit) m := by
  unfold conclude
  change (if m.current.state.isFinished then _ else pure () : StateM Machine Unit) m = _
  rw [if_pos hfin]
  cases m.current.remote <;> rfl

/-- A task that has come to its end is taken off the books; the result is kept for another process that waits for it. -/
theorem becomes_conclude (hm : m.Ended g t) :
    m.Becomes { m.view with roster := (m.view.roster.owe m.task).finish m.task } (conclude m).2 := by
  obtain ⟨hinv, rfl, hfin⟩ := hm
  have hrunning := (hinv.intact.schedule.running m.task rfl).2
  have htold := hinv.intact.schedule.told hrunning
  have hremote : (m.view.roster.standingAt m.task).remote = m.current.remote := by
    change (m.process.roster.standingAt m.task).remote = _
    rw [Process.standingAt_roster]
    rfl
  rw [conclude_of_finished hfin]
  unfold Roster.owe
  rw [hremote]
  cases m.current.remote with
  | none =>
      have := becomes_finishTask hfin htold
      simpa using this
  | some link =>
      have hsend := becomes_sendResult link m
      have htasks : (sendResult link m).2.process.tasks = m.process.tasks ∧ (sendResult link m).2.task = m.task := by
        rw [sendResult_eq]
        cases m.register <;> exact ⟨rfl, rfl⟩
      have hat : (sendResult link m).2.process.taskAt = m.process.taskAt := by
        funext x
        simp only [Process.taskAt, htasks.1]
      have hend := becomes_finishTask (m := (sendResult link m).2) (t := m.task) (by rw [hat]; exact hfin)
        (by rw [hat]; exact htold)
      rw [hsend.view] at hend
      exact hsend.trans hend

/-! ## A turn -/

/-- A task has its turn, and stops. -/
inductive Turn (m m' : Machine) : Prop where
  | parks {m₁ m₂ : Machine} :
      m.Becomes { m.view with roster := m.view.roster.update m.task Standing.wake } m₁ →
      Relation.ReflTransGen Stirs m₁ m₂ → m₂.Parks m' → Turn m m'
  | ends {m₁ m₂ : Machine} {state : TaskState} {result : Value} :
      m.Becomes { m.view with roster := m.view.roster.update m.task Standing.wake } m₁ →
      Relation.ReflTransGen Stirs m₁ m₂ → state.Reaches result →
      m₂.Becomes { m₂.view with roster := m₂.view.roster.conclude m₂.task state result } m' → Turn m m'

theorem stops_runFrom (fuel : Nat) : ∀ {m m' : Machine}, m.Going g (some t) → runFrom fuel m = some m' →
    ∃ m₁, Relation.ReflTransGen Stirs m m₁ ∧ (m₁.Parks m' ∨ m₁.Ends m') := by
  induction fuel with
  | zero => exact fun _ h => by cases h
  | succ fuel ih =>
      intro m m' hm h
      have hadv := advances_advance hm
      have hstride := strides_advance hm
      have heq : advance.run m = advance m := rfl
      unfold Advances at hadv
      unfold Strides at hstride
      simp only [runFrom, heq] at h
      rcases hx : advance m with ⟨_ | _, m₁⟩
      · rw [hx] at h hstride
        cases h
        rcases hstride.2 rfl with hp | ⟨m₂, hs, he⟩
        · exact ⟨m, .refl, .inl hp⟩
        · exact ⟨m₂, .single hs, .inr he⟩
      · rw [hx] at h hadv hstride
        obtain ⟨m₂, hs, hstop⟩ := ih hadv h
        exact ⟨m₂, .head (hstride.1 rfl) hs, hstop⟩

theorem unfinished_stirs (h : Relation.ReflTransGen Stirs m m₁) (hun : ¬ m.current.state.isFinished) :
    ¬ m₁.current.state.isFinished := by
  induction h with
  | refl => exact hun
  | tail _ hs ih => exact hs.unfinished ih

theorem unfinishedAt_stirs (h : Relation.ReflTransGen Stirs m m₁) {y : TaskId}
    (hy : ¬ (m.view.roster.standingAt y).state.isFinished) : ¬ (m₁.view.roster.standingAt y).state.isFinished := by
  induction h with
  | refl => exact hy
  | tail _ hs ih =>
      obtain ⟨_, hview, _⟩ := hs.view
      exact hview.unfinishedAt ih

theorem frame_stirs (h : Relation.ReflTransGen Stirs m m₁) :
    m₁.task = m.task ∧ m.view.roster.tasks.size ≤ m₁.view.roster.tasks.size := by
  induction h with
  | refl => exact ⟨rfl, Nat.le_refl _⟩
  | tail _ hs ih =>
      obtain ⟨new, hview, _⟩ := hs.view
      obtain ⟨htask, hsize⟩ := hview.frame
      exact ⟨htask.trans ih.1, ih.2.trans hsize⟩

theorem Becomes.unfinished (h : m.Becomes { m.view with roster := m.view.roster.update m.task Standing.wake } m₁)
    (hun : ¬ m.current.state.isFinished) : ¬ m₁.current.state.isFinished := by
  rw [← unfinished_view, h.view]
  exact Roster.standingAt_update (P := fun s => ¬ s.state.isFinished) (unfinished_view.2 hun) fun _ _ => by
    simp [Standing.wake, TaskState.isFinished]

theorem Ends.task (h : m.Ends m') : m'.task = m.task := by
  obtain ⟨_, _, _, hend⟩ := h
  exact congrArg View.task hend.view

theorem Ends.isFinished (h : m.Ends m') (hlt : m.task.index < m.view.roster.tasks.size) : m'.current.state.isFinished := by
  obtain ⟨state, v, hreach, hend⟩ := h
  by_contra hun
  have hview := unfinished_view.2 hun
  rw [hend.view] at hview
  have hat := Roster.at?_update m.view.roster m.task (·.conclude state v) m.task
  rw [if_pos rfl, Roster.at?_of_index_lt hlt] at hat
  refine hview ?_
  change ((m.view.roster.update m.task (·.conclude state v)).standingAt m.task).state.isFinished
  rw [Roster.standingAt_of_at? hat]
  exact hreach.isFinished

theorem turn_runTask (hm : ({ m with task := t } : Machine).Going g (some t)) {fuel : Nat}
    (h : runTask fuel t m = some m') : Turn { m with task := t } m' := by
  simp only [runTask, Option.map_eq_some_iff] at h
  obtain ⟨m₁, hrun, rfl⟩ := h
  change Turn _ (conclude m₁).2
  have hwake := becomes_resume hm
  have hstop := stopped_run hm hrun
  rw [hm.run_eq] at hrun
  obtain ⟨m₂, hs, hp | ⟨state, result, hreach, hend⟩⟩ := stops_runFrom fuel (kept_resume hm).1 hrun
  · have hun := hp.unfinished (unfinished_stirs hs (hwake.unfinished hm.unfinished))
    rw [conclude_of_unfinished hun]
    exact .parks hwake hs hp
  · -- a task that has come to its end does not rest
    have hlt : m₂.task.index < m₂.view.roster.tasks.size := by
      have hin := hm.current.2.index_lt
      obtain ⟨htask₂, hsize⟩ := frame_stirs hs
      rw [hwake.view, Roster.size_update] at hsize
      have hwtask : (resume { m with task := t }).2.task = t := congrArg View.task hwake.view
      rw [htask₂, hwtask]
      exact Nat.lt_of_lt_of_le (by simpa [view] using hin) hsize
    have hended : m₁.Ended g t := by
      refine hstop.resolve_left fun hrest => hrest.unfinished ?_
      rw [← hrest.task]
      exact Ends.isFinished ⟨state, result, hreach, hend⟩ hlt
    have hview := hend.view
    have htask : m₁.task = m₂.task := congrArg View.task hview
    have hconc := becomes_conclude hended
    rw [hview, htask] at hconc
    exact .ends hwake hs hreach (hend.trans hconc)

/-! ## Work done elsewhere -/

/-- The task that stands for the work comes to its end, and everybody who has waited for it is told. -/
theorem becomes_setOutcome (hm : m.Going g none) (hc : m.Pledged g m.task) (state : TaskState) (hst : state.isFinished)
    (v : Value) : m.Becomes { m.view with roster := m.view.roster.conclude m.task state v }
      (finishTask m.task (modifyCurrent (fun t => { t with state, register := v }) m).2).2 := by
  have hcar := hm.inv.intact.schedule.carriers m.task hc
  have htold := hm.inv.intact.schedule.told hcar.unscheduled
  have hat : (m.process.modifyTask m.task fun t => { t with state, register := v }).taskAt m.task
      = { m.process.taskAt m.task with state, register := v } := by
    rw [Process.taskAt_modifyTask, if_pos ⟨rfl, hcar.index_lt⟩]
  have hset := becomes_modifyCurrent (f := fun t => { t with state, register := v }) (g := (·.conclude state v)) m
    fun _ _ => by simp [Task.standing, Standing.conclude, hst]
  have hend := becomes_finishTask (m := (modifyCurrent (fun t => { t with state, register := v }) m).2) (t := m.task)
    (by change ((m.process.modifyTask m.task _).taskAt m.task).state.isFinished; rw [hat]; exact hst) fun d hd => by
      change d ∈ ((m.process.modifyTask m.task _).taskAt m.task).dependents at hd
      rw [hat] at hd
      obtain ⟨hne, hctx⟩ := htold d hd
      refine ⟨hne, ?_⟩
      change ((m.process.modifyTask m.task _).taskAt d.task).contexts ≠ []
      rw [Process.taskAt_modifyTask, if_neg fun h => hne h.1]
      exact hctx
  rw [hset.view] at hend
  have howe : (m.view.roster.update m.task (·.conclude state v)).owe m.task
      = m.view.roster.update m.task (·.conclude state v) := by
    refine Roster.owe_of_unlinked (Roster.standingAt_update (P := fun s => s.remote = none) ?_ fun _ h => h)
    change (m.process.roster.standingAt m.task).remote = none
    rw [Process.standingAt_roster]
    exact hcar.unlinked
  unfold Roster.conclude
  rw [howe]
  exact hset.trans hend

theorem becomes_endCarrier (hm : m.Going g none) (hc : m.Pledged g m.task) (result : Except Fault Value)
    (state : TaskState) (hst : state.isFinished) : ∃ (ended : TaskState) (v : Value), ended.isFinished ∧
      (state = .complete → ended.Reaches v) ∧
      m.Becomes { m.view with roster := m.view.roster.conclude m.task ended v } (endCarrier result state m).2 := by
  cases result with
  | ok v => exact ⟨state, v, hst, .inl, becomes_setOutcome hm hc state hst v⟩
  | error fault =>
      have hg : m.Going (g.expect m.task) none := (hm.inv.recast (fun x hx => by
        rcases hx with hx | rfl
        · exact .inl hx
        · exact hc) (.refl _)).idle
      obtain ⟨hm₁, hr₁, _⟩ := kept_errorObject hg fault
      have hpl : (errorObject fault m).2.Pledged (g.expect m.task) (errorObject fault m).2.task := .inl (.inr hr₁.task)
      have hsteady := steady_errorObject fault m (.refl m)
      have hend := becomes_setOutcome hm₁ hpl .error rfl (.object (errorObject fault m).1)
      have hrun : endCarrier (.error fault) state m = finishTask (errorObject fault m).2.task (modifyCurrent
        (fun t => { t with state := .error, register := .object (errorObject fault m).1 }) (errorObject fault m).2).2 := rfl
      rw [hrun]
      refine ⟨.error, .object (errorObject fault m).1, rfl, fun _ => .inr ⟨rfl, rfl⟩,
        hsteady.becomes.trans ⟨hend.view.trans ?_, hend.futures, hend.async⟩⟩
      rw [hsteady.view, hr₁.task]

/-- The background calls of these tasks are settled. -/
inductive View.Settles : View → List TaskId → View → Prop where
  | nil (v : View) : Settles v [] v
  | cons {v v' : View} {t : TaskId} {ts : List TaskId} (state : TaskState) (result : Value) :
      (v.roster.standingAt t).remote = none → state.Reaches result →
      Settles { v with
        task := t
        roster := ({ v.roster with inFlight := v.roster.inFlight - 1 } : Roster).conclude t state result } ts v' →
      Settles v (t :: ts) v'

theorem steady_releaseAll (rs : List Handle) : ∀ m : Machine,
    m.Steady ((rs.forM release : StateM Machine PUnit) m).2 := by
  induction rs with
  | nil => exact fun m => .refl m
  | cons r rest ih =>
      intro m
      have hone : m.Steady (release r m).2 := steady_onHeap (fun _ => Heap.knows_unroot r) m (.refl m)
      exact hone.trans (ih (release r m).2)

theorem becomes_handOver (c : Completion) (m : Machine) : m.Becomes { m.view with
    task := c.task
    roster := { m.view.roster with inFlight := m.view.roster.inFlight - 1 } } (handOver c m) := by
  have h := steady_releaseAll c.held { m with task := c.task }
  unfold handOver
  generalize ((c.held.forM release : StateM Machine PUnit) { m with task := c.task }).2 = m₁ at h
  refine ⟨?_, h.futures, h.async⟩
  have hview := h.view
  have hroster : m₁.process.roster = m.process.roster := h.roster
  have hin : m₁.process.inFlight = m.process.inFlight := congrArg Roster.inFlight hroster
  have hnew : ({ m₁.process with inFlight := m₁.process.inFlight - 1 } : Process).roster
      = { m.process.roster with inFlight := m.process.inFlight - 1 } := by
    rw [← hroster, ← hin]
    rfl
  simp only [view, hnew, h.task, h.pool, h.born, h.nursery]
  rw [h.id]
  rfl

theorem settles_settleEach (cs : List Completion) : ∀ {m : Machine}, m.Inv (g.settling cs) none [] →
    (∀ c ∈ cs, ∀ r, c.result = .ok (.object r) → r ∈ c.held) → ∃ v', m.view.Settles (cs.map Completion.task) v' ∧
      m.Becomes v' ((cs.forM settle : StateM Machine PUnit) m).2 := by
  induction cs with
  | nil => exact fun _ _ => ⟨_, .nil _, (Steady.refl _).becomes⟩
  | cons c rest ih =>
      intro m hm hresults
      obtain ⟨hgo, hgrow⟩ := going_handOver hm
      have hover := becomes_handOver c m
      have hpl : (handOver c m).Pledged ((g.settling rest).expect c.task) (handOver c m).task := .inl (.inr hgrow.task)
      have hunlinked := (hgo.inv.intact.schedule.carriers _ hpl).unlinked
      obtain ⟨state, v, _, hreach, hend⟩ := becomes_endCarrier hgo hpl c.result .complete rfl
      obtain ⟨v', hs, hbecomes⟩ := ih (inv_settle hm (hresults c List.mem_cons_self)) fun d hd =>
        hresults d (List.mem_cons_of_mem c hd)
      rw [← settle_eq] at hend
      refine ⟨v', .cons state v ?_ (hreach rfl) ?_, (hover.trans hend).trans hbecomes⟩
      · have hrow : ((handOver c m).view.roster.standingAt c.task).remote = none := by
          change ((handOver c m).process.roster.standingAt c.task).remote = none
          rw [Process.standingAt_roster, ← show (handOver c m).task = c.task from hgrow.task]
          exact hunlinked
        rw [hover.view] at hrow
        exact hrow
      · rw [hend.view, hover.view, hgrow.task] at hs
        exact hs

/-- All background calls that have come back are settled. -/
theorem settles_settleAll (hm : m.Inv g none []) : ∃ v', View.Settles { m.view with
      roster := { m.view.roster with completions := [] } } m.view.roster.completions v' ∧ m.Becomes v' (settleAll m).2 := by
  obtain ⟨v', hs, hb⟩ := settles_settleEach m.process.completions (settling_completions hm) fun c hc =>
    hm.intact.anchored.results c hc
  exact ⟨v', hs, hb.view, hb.futures, hb.async⟩

/-! ## A round -/

theorem steady_tidy (m : Machine) : m.Steady (tidy m).2 := by
  have hcol := steady_collectGarbage m (.refl m)
  rw [tidy_eq]
  split
  · split
    · exact hcol.process rfl rfl rfl
    · exact hcol
  · exact .refl m

/-- What others see of a round: the first task of the queue has its turn, if there is one. -/
inductive Rounds (m m' : Machine) : Prop where
  | rests : (settleAll m).2.process.queue.pop? = none → (settleAll m).2.Steady m' →
      m'.process.phase = phaseAfter (!m.process.completions.isEmpty) m'.process → Rounds m m'
  | turns {t : TaskId} {queue : Fifo TaskId} {m₁ : Machine} : (settleAll m).2.process.queue.pop? = some (t, queue) →
      Turn { (settleAll m).2 with process := { (settleAll m).2.process with queue }, task := t } m₁ → m₁.Steady m' →
      m'.process.phase = .active → Rounds m m'

theorem rounds_tick (hm : m.Inv g none []) {fuel : Nat} (h : tick fuel m = some m') : Rounds m m' := by
  rw [tick_eq, Option.map_eq_some_iff] at h
  obtain ⟨⟨ran, m₁⟩, hrun, rfl⟩ := h
  have htidy := (steady_tidy m₁).process (p := { (tidy m₁).2.process with
    phase := phaseAfter (!m.process.completions.isEmpty || ran) (tidy m₁).2.process }) rfl rfl rfl
  unfold runNext at hrun
  split at hrun
  · rename_i t queue hq
    rw [Option.map_eq_some_iff] at hrun
    obtain ⟨m₂, hrun, heq⟩ := hrun
    cases heq
    have hgo := (inv_settleAll hm).begin hq
    refine .turns hq (turn_runTask (m := { (settleAll m).2 with process := { (settleAll m).2.process with queue } }) hgo hrun)
      htidy ?_
    change phaseAfter (!m.process.completions.isEmpty || true) _ = .active
    simp [phaseAfter]
  · rename_i hq
    cases hrun
    refine .rests hq htidy ?_
    change phaseAfter (!m.process.completions.isEmpty || false) _ = _
    rw [Bool.or_false]
    rfl

end Machine

end Spool
