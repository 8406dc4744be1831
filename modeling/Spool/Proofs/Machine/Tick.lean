import Spool.Machine.Tick
import Spool.Proofs.Machine.Run
import Spool.Proofs.Process.Finish

/-!
# A round of the scheduler

Background calls that have come back are settled, a task runs, and garbage may be collected. What a background call
or a result for another process still needs has a root until the end.
-/

namespace Spool

/-- Some completions have yet to be settled. -/
def Outlook.settling (g : Outlook) (cs : List Completion) : Outlook :=
  { g with
    pledged := fun x => g.pledged x ∨ ∃ c ∈ cs, c.task = x
    held := cs.flatMap Completion.held ++ g.held }

/-- A carrier is about to end. -/
theorem Process.Schedule.runCarrier {p : Process} {K : TaskId → Prop} {loose : List TaskId} {t : TaskId}
    (hs : p.Schedule none K loose) (ht : K t) : p.Schedule (some t) (fun x => K x ∧ x ≠ t) loose where
  nodup := hs.nodup
  ready := hs.ready
  running x hx := by
    cases hx
    exact ⟨(hs.carriers t ht).index_lt, (hs.carriers t ht).unscheduled⟩
  settled x a ha hfin hdep := .inr ((hs.settled x a ha hfin hdep).resolve_left (by simp))
  initializing m x hm := by
    obtain ⟨a, ha, hinit, hfin⟩ := hs.initializing m x hm
    exact ⟨a, ha, hinit, fun h => .inr ((hfin h).resolve_left (by simp))⟩
  owing := hs.owing
  carriers x hx := by
    have hc := hs.carriers x hx.1
    exact ⟨hc.index_lt, hc.unscheduled, fun h => hx.2 (Option.some.inj h).symm, hc.unlinked⟩

/-- No other process has anything to do with the outcome of a carrier. -/
theorem Process.Carrier.akin {p : Process} {cur : Option TaskId} {loose : List TaskId} {t : TaskId}
    (hc : p.Carrier cur loose t) (state : TaskState) (v : Value) (task : Task) (ht : p.tasks[t.index]? = some task) :
    task.Akin { task with state, register := v } := by
  cases (getElem?_of_index_lt hc.index_lt).symm.trans ht
  exact ⟨rfl, rfl, fun _ h => absurd hc.unlinked h⟩

namespace Machine

variable {g : Outlook} {cur : Option TaskId} {m m' : Machine} {t : TaskId} {roots : List Handle}

theorem Inv.idle (hm : m.Inv g none []) : m.Going g none := ⟨hm, fun _ h => by cases h⟩

/-! ## Finishing tasks -/

theorem kept_reportUncaught (hm : m.Going g cur) (error : Value) :
    Kept g cur (reportUncaught error) m fun _ _ => True := by
  unfold reportUncaught
  refine kept_get ((kept_write hm _ ⟨_, _, rfl⟩).bind fun _ m₁ hm₁ _ _ => ?_)
  exact (kept_modifyProcess hm₁ (f := fun p => { p with uncaught := p.uncaught + 1 }) (hm₁.inv.intact.congr rfl rfl rfl rfl
    rfl rfl rfl rfl rfl rfl) rfl rfl rfl fun x hx => (hm₁.running x hx).2).mono fun _ _ _ _ _ => trivial

theorem going_finishTask (hid : m.process.id = g.id) (hs : m.host.Serves g)
    (hp : (m.process.finish t).Intact none (m.ledger g [])) : (finishTask t m).2.Going g none := by
  obtain ⟨hid', hc, _⟩ := Process.finish_frame m.process t
  have hm : ({ m with process := m.process.finish t } : Machine).Going g none := (Inv.of_intact hid hs hp hid' hc).idle
  rw [finishTask_eq]
  by_cases hu : Process.isUnseenFailure (m.process.taskAt t)
  · rw [if_pos hu]
    exact (kept_reportUncaught hm _).1
  · rw [if_neg hu]
    exact hm

theorem nursery_finishTask (t : TaskId) (m : Machine) : (finishTask t m).2.host.nursery = m.host.nursery := by
  rw [finishTask_eq]
  split <;> rfl

theorem Ended.getElem? (hm : m.Ended g t) : m.process.tasks[t.index]? = some (m.process.taskAt t) :=
  Process.getElem?_of_index_lt (hm.inv.intact.schedule.running t rfl).1

theorem Ended.finishTask (hm : m.Ended g t) : (finishTask t m).2.Going g none := by
  have hp := hm.inv.intact
  refine going_finishTask hm.inv.id hm.inv.serves ?_
  exact Process.Intact.finish hp.fit.idle hp.anchored hp.schedule hp.linked rfl hm.finished hp.valid_register fun _ h => .inl h

/-- A finished task whose result has a root goes on the list. -/
theorem Ended.owe (hm : m.Ended g t) {link : RemoteLink} (hl : (m.process.taskAt t).remote = some link) (heap : Heap)
    (hr : ({ m with process := { m.process with heap } } : Machine).Inv g (some t)
      (m.process.taskAt t).register.handle?.toList) :
    ({ m with process := { m.process with heap, outgoing := m.process.outgoing ++ [⟨t, link⟩] } } : Machine).Ended g t := by
  have hp : ({ m.process with heap, outgoing := m.process.outgoing ++ [⟨t, link⟩] } : Process).Intact (some t)
      (m.ledger g []) :=
    Process.Intact.owe (p := { m.process with heap }) (l := m.ledger g []) hm.getElem? hr.intact hm.finished hl
  exact ⟨hm.inv.update hp rfl rfl, hm.task, hm.finished⟩

/-- The result of the task gets a root until it has been sent. -/
theorem Ended.sendResult (hm : m.Ended g t) {link : RemoteLink} (hl : (m.process.taskAt t).remote = some link) :
    (sendResult link m).2.Ended g t := by
  obtain ⟨hinv, rfl, hfin⟩ := hm
  have hval := hinv.intact.valid_register
  have howe := Ended.owe (g := g) ⟨hinv, rfl, hfin⟩ hl
  rw [sendResult_eq]
  cases hreg : m.register with
  | object r =>
      have hreg' : (m.process.taskAt m.task).register = .object r := hreg
      rw [hreg'] at hval howe
      obtain ⟨heap, hroot, hinv', _⟩ := hinv.root (hval r rfl)
      have hstate : (discard (onHeap (Heap.root r)).run : StateM Machine Unit) m = ((), (onHeap (Heap.root r) m).2) := rfl
      change Ended g m.task ((modifyProcess fun p => { p with outgoing := p.outgoing ++ [⟨m.task, link⟩] })
        (onHeap (Heap.root r) m).2).2
      rw [hroot]
      exact howe heap hinv'
  | none => exact howe m.process.heap (by rw [show (m.process.taskAt m.task).register = _ from hreg]; exact hinv)
  | scalar s => exact howe m.process.heap (by rw [show (m.process.taskAt m.task).register = _ from hreg]; exact hinv)

/-- A task that has stopped is finished if it has come to its end. -/
theorem going_conclude (hm : m.Stopped g t) : (conclude m).2.Going g none := by
  rcases hm with hm | hm
  · obtain ⟨hinv, rfl, hun⟩ := hm
    have hrun : conclude m = ((), m) := by
      have hcur : ¬ m.current.state.isFinished := hun
      unfold conclude
      change (if m.current.state.isFinished then _ else pure () : StateM Machine Unit) m = _
      rw [if_neg hcur]
      rfl
    rw [hrun]
    exact hinv.idle
  · obtain ⟨hinv, rfl, hfin⟩ := hm
    have hrun : conclude m = (match m.current.remote with
        | some link => do sendResult link; finishTask m.task
        | none => finishTask m.task : StateM Machine Unit) m := by
      have hcur : m.current.state.isFinished := hfin
      unfold conclude
      change (if m.current.state.isFinished then _ else pure () : StateM Machine Unit) m = _
      rw [if_pos hcur]
      cases m.current.remote <;> rfl
    rw [hrun]
    cases hl : m.current.remote with
    | none => exact Ended.finishTask ⟨hinv, rfl, hfin⟩
    | some link => exact (Ended.sendResult ⟨hinv, rfl, hfin⟩ hl).finishTask

/-! ## Carriers -/

/-- The running task, a carrier, comes to its end. -/
theorem going_setOutcome (hm : m.Going g none) (hc : m.Pledged g m.task) {state : TaskState} (hst : state.isFinished)
    {v : Value} (hv : m.process.heap.Valid v) :
    (finishTask m.task (modifyCurrent (fun t => { t with state, register := v }) m).2).2.Going g none := by
  have hp := hm.inv.intact
  have hcar := hp.schedule.carriers m.task hc
  have hs := hp.schedule.runCarrier hc
  have hat : (m.process.modifyTask m.task fun t => { t with state, register := v }).taskAt m.task
      = { m.process.taskAt m.task with state, register := v } := by
    rw [Process.taskAt_modifyTask, if_pos ⟨rfl, hcar.index_lt⟩]
  have hak := hcar.akin state v
  have hs' : (m.process.modifyTask m.task fun t => { t with state, register := v }).Schedule (some m.task)
      (fun x => m.Pledged g x ∧ x ≠ m.task) [] :=
    hs.modifyTask (fun _ => rfl) hak fun _ _ h => absurd rfl h
  refine going_finishTask hm.inv.id hm.inv.serves (Process.Intact.finish ?_ ?_ hs' (hp.linked.modifyTask fun _ => rfl) rfl ?_ ?_
    fun x hx => ?_)
  · refine hp.fit.modifyTask (fun _ _ ha => ?_) (fun _ _ ha => ?_) fun _ _ => .inr hv
    · exact absurd hst (ha.resolve_right (by simp))
    · exact absurd hst (ha.resolve_right (by simp))
  · exact hp.anchored.continues hs (.modifyTask hak fun _ _ h => absurd rfl h) rfl rfl rfl rfl
  · change ((m.process.modifyTask m.task _).taskAt m.task).state.isFinished
    rw [hat]
    exact hst
  · change m.process.heap.Valid ((m.process.modifyTask m.task _).taskAt m.task).register
    rw [hat]
    exact hv
  · by_cases hxt : x = m.task
    · refine .inr ⟨hxt, ?_⟩
      change ((m.process.modifyTask m.task _).taskAt m.task).remote = none
      rw [hat]
      exact hcar.unlinked
    · exact .inl ⟨hx, hxt⟩

/-- The outcome of work done elsewhere reaches the process. -/
theorem going_endCarrier (hm : m.Going g none) (hc : m.Pledged g m.task) {result : Except Fault Value}
    {state : TaskState} (hst : state.isFinished) (hv : ∀ v, result = .ok v → m.process.heap.Valid v) :
    (endCarrier result state m).2.Going g none := by
  cases result with
  | ok v => exact going_setOutcome hm hc hst (hv v rfl)
  | error fault =>
      -- the carrier is still promised an outcome when the error object is there
      have hg : m.Going (g.expect m.task) none := (hm.inv.recast (fun x hx => by
        rcases hx with hx | rfl
        · exact .inl hx
        · exact hc) (.refl _)).idle
      obtain ⟨hm₁, hr₁, hl⟩ := kept_errorObject hg fault
      have hpl : (errorObject fault m).2.Pledged (g.expect m.task) (errorObject fault m).2.task := .inl (.inr hr₁.task)
      have hst : TaskState.error.isFinished := rfl
      have hend := going_setOutcome hm₁ hpl hst (valid_object hl)
      exact (hend.inv.recast (P := g.pledged) (fun x hx => .inl (.inl hx)) (.refl _)).idle

/-! ## Background calls that have come back -/

/-- A root is dropped. What it has kept alive stays until garbage is collected. -/
theorem inv_release {r : Handle} (hm : m.Inv g cur (r :: roots)) :
    (release r m).2.Inv g cur roots ∧ m.Grows (release r m).2 := by
  have hl : m.process.heap.isLive r := hm.intact.anchored.isLive (.inr (by simp [ledger]))
  have hun := Heap.wp_unroot hm.intact.fit.sound r
  have hrun : release r m = ((), { m with process := { m.process with heap := (Heap.unroot r m.process.heap).2 } }) := rfl
  unfold Act.wp at hun
  rw [hrun]
  rcases hx : Heap.unroot r m.process.heap with ⟨_ | _, heap⟩
  · rw [hx] at hun
    exact absurd hl hun.2.2
  · rw [hx] at hun
    obtain ⟨_, hc⟩ := hun
    have hp := hm.intact.reroot (roots ++ g.held) hc fun x => by
      change _ = (r :: (roots ++ g.held)).count x + _
      have hrooted : _ + (r :: (roots ++ g.held)).count x = m.process.heap.rootCount x := hm.intact.anchored.rooted x
      simp only [List.count_cons] at hrooted ⊢
      by_cases hxr : x = r
      · simp [hxr] at hrooted ⊢
        omega
      · simp [hxr, Ne.symm hxr]
        omega
    refine ⟨⟨hp, hm.id, hm.serves⟩, rfl, fun v hv x hx => ?_⟩
    rw [hc.isLive]
    exact hv x hx

theorem inv_releaseAll (rs : List Handle) : ∀ {m : Machine}, m.Inv g cur (rs ++ roots) →
    ((rs.forM release : StateM Machine PUnit) m).2.Inv g cur roots ∧
      m.Grows ((rs.forM release : StateM Machine PUnit) m).2 := by
  induction rs with
  | nil => exact fun hm => ⟨hm, .refl _⟩
  | cons r rest ih =>
      intro m hm
      obtain ⟨h₁, hr₁⟩ : (release r m).2.Inv g cur (rest ++ roots) ∧ m.Grows (release r m).2 := inv_release hm
      obtain ⟨h₂, hr₂⟩ := ih h₁
      exact ⟨h₂, hr₁.trans hr₂⟩

/-- The machine when the outcome of a background call is about to reach its carrier. -/
def handOver (c : Completion) (m : Machine) : Machine :=
  let m := ((c.held.forM release : StateM Machine PUnit) { m with task := c.task }).2
  { m with process := { m.process with inFlight := m.process.inFlight - 1 } }

theorem settle_eq (c : Completion) (m : Machine) : settle c m = endCarrier c.result .complete (handOver c m) := rfl

theorem going_handOver {c : Completion} {cs : List Completion} (hm : m.Inv (g.settling (c :: cs)) none []) :
    (handOver c m).Going ((g.settling cs).expect c.task) none ∧
      ({ m with task := c.task } : Machine).Grows (handOver c m) := by
  have hcarrier : m.Pledged (g.settling (c :: cs)) c.task := .inl (.inr ⟨c, List.mem_cons_self, rfl⟩)
  -- the roots of this call on the one hand, those of the others on the other
  have h₀ : ({ m with task := c.task } : Machine).Inv ((g.settling cs).expect c.task) none (c.held ++ []) := by
    have hm' : ({ m with task := c.task } : Machine).Inv (g.settling (c :: cs)) none [] := ⟨hm.intact, hm.id, hm.serves⟩
    refine hm'.recast (fun x hx => ?_) (List.Perm.of_eq ?_)
    · rcases hx with (hx | ⟨d, hd, rfl⟩) | rfl
      · exact .inl (.inl hx)
      · exact .inl (.inr ⟨d, List.mem_cons_of_mem c hd, rfl⟩)
      · exact hcarrier
    · simp [Outlook.settling]
  obtain ⟨h₁, hr₁⟩ := inv_releaseAll c.held h₀
  unfold handOver
  generalize ((c.held.forM release : StateM Machine PUnit) { m with task := c.task }).2 = m₁ at h₁ hr₁
  have hp : ({ m₁.process with inFlight := m₁.process.inFlight - 1 } : Process).Intact none
      (m₁.ledger ((g.settling cs).expect c.task) []) := h₁.intact.congr rfl rfl rfl rfl rfl rfl rfl rfl rfl rfl
  exact ⟨(h₁.update hp rfl rfl).idle, hr₁.task, hr₁.valid⟩

theorem inv_settle {c : Completion} {cs : List Completion} (hm : m.Inv (g.settling (c :: cs)) none [])
    (hresult : ∀ r, c.result = .ok (.object r) → r ∈ c.held) : (settle c m).2.Inv (g.settling cs) none [] := by
  have hlive : ∀ r ∈ c.held, m.process.heap.isLive r := fun r hr =>
    hm.intact.anchored.isLive (.inr (by simp [ledger, Outlook.settling, hr]))
  obtain ⟨hgo, hr⟩ := going_handOver hm
  have hend : (endCarrier c.result .complete (handOver c m)).2.Going _ none :=
    going_endCarrier hgo (.inl (.inr hr.task)) rfl fun v hv r hvr => by
      subst hvr
      exact hr.valid _ (valid_object (hlive r (hresult r hv))) r rfl
  exact hend.inv.recast (P := (g.settling cs).pledged) (fun x hx => .inl (.inl hx)) (.refl _)

theorem inv_settleEach (cs : List Completion) : ∀ {m : Machine}, m.Inv (g.settling cs) none [] →
    (∀ c ∈ cs, ∀ r, c.result = .ok (.object r) → r ∈ c.held) →
    ((cs.forM settle : StateM Machine PUnit) m).2.Inv g none [] := by
  induction cs with
  | nil =>
      intro m hm _
      exact hm.recast (P := g.pledged) (fun x hx => .inl (.inl hx)) (.refl _)
  | cons c rest ih =>
      intro m hm hresults
      exact ih (inv_settle hm (hresults c List.mem_cons_self)) fun d hd => hresults d (List.mem_cons_of_mem c hd)

theorem settling_completions (hm : m.Inv g none []) :
    ({ m with process := { m.process with completions := [] } } : Machine).Inv (g.settling m.process.completions) none [] := by
  have hp := hm.intact
  have hs : ({ m.process with completions := [] } : Process).Schedule none _ _ := hp.schedule.congr rfl rfl rfl rfl
  refine ⟨⟨hp.fit.congr rfl rfl rfl rfl rfl, ⟨fun r => ?_, hp.anchored.keys, fun c hc => (by cases hc), hp.anchored.arguments⟩,
    hs.mono fun x hx => ?_, hp.linked⟩, hm.id, hm.serves.calm, hm.serves.others, hm.serves.born, hm.serves.numbers,
    hm.serves.newborn, hm.serves.staffed⟩
  · have h₁ := hp.anchored.rooted r
    have hroots : (m.ledger g []).roots = g.held := rfl
    have hheld : (ledger (g.settling m.process.completions) []
        { m with process := { m.process with completions := [] } }).roots
        = m.process.completions.flatMap Completion.held ++ g.held := rfl
    rw [Process.count_anchors, hroots] at h₁
    rw [Process.count_anchors, hheld, List.count_append]
    refine Eq.trans ?_ h₁
    change (List.flatMap _ (m.ledger g []).calls).count r + 0 + List.count r (List.filterMap (fun out : Outgoing =>
      (m.process.taskAt out.task).register.handle?) m.process.outgoing) + m.process.heap.reflections.values.count r
      + m.process.reflection.toList.count r + _ = _
    omega
  · rcases hx with (hx | hx) | hx | ⟨c, hc, _⟩ | hx
    · exact .inl hx
    · exact .inr (.inr (.inl hx))
    · exact .inr (.inl hx)
    · cases hc
    · exact .inr (.inr (.inr hx))

theorem inv_settleAll (hm : m.Inv g none []) : (settleAll m).2.Inv g none [] :=
  inv_settleEach m.process.completions (settling_completions hm) fun c hc => hm.intact.anchored.results c hc

/-! ## One round -/

/-- The first task of the queue runs. -/
theorem Inv.begin (hm : m.Inv g none []) {queue : Fifo TaskId} (hq : m.process.queue.pop? = some (t, queue)) :
    ({ m with process := { m.process with queue }, task := t } : Machine).Going g (some t) := by
  have hp := hm.intact
  have hs := hp.schedule.dequeue hq
  have hr := hs.ready t (by simp)
  have hfit : ({ m.process with queue } : Process).Fit none := hp.fit.congr rfl rfl rfl rfl rfl
  refine ⟨⟨⟨hfit.run fun task ht => ?_, ?_, hs.run, hp.linked⟩, hm.id, hm.serves⟩, fun x hx => ?_⟩
  · rw [← Process.taskAt_of_getElem? ht]
    exact hr.taskAt.1
  · exact hp.anchored.congr rfl rfl rfl rfl fun _ _ => rfl
  · cases hx
    exact ⟨rfl, hr⟩

theorem inv_runNext (hm : m.Inv g none []) {fuel : Nat} {ran : Bool} (h : runNext fuel m = some (ran, m')) :
    m'.Inv g none [] := by
  unfold runNext at h
  split at h
  · rename_i t queue hq
    simp only [runTask, Option.map_map, Option.map_eq_some_iff, Function.comp, Prod.mk.injEq] at h
    obtain ⟨m₁, hrun, _, rfl⟩ := h
    exact (going_conclude (stopped_run (hm.begin hq) hrun)).inv
  · cases h
    exact hm

theorem inv_tidy (hm : m.Inv g none []) : (tidy m).2.Inv g none [] := by
  have hcol := hm.idle.collectGarbage.inv
  rw [tidy_eq]
  split
  · split
    · rename_i fault _
      have hp : ({ (collectGarbage m).2.process with fault := some fault } : Process).Intact none
          ((collectGarbage m).2.ledger g []) := hcol.intact.congr rfl rfl rfl rfl rfl rfl rfl rfl rfl rfl
      exact hcol.update hp rfl rfl
    · exact hcol
  · exact hm

/-- A round of the scheduler leaves everything live that the process needs. -/
theorem inv_tick (hm : m.Inv g none []) {fuel : Nat} (h : tick fuel m = some m') : m'.Inv g none [] := by
  rw [tick_eq, Option.map_eq_some_iff] at h
  obtain ⟨⟨ran, m₁⟩, hrun, rfl⟩ := h
  have h₂ := inv_tidy (inv_runNext (inv_settleAll hm) hrun)
  have hp : ({ (tidy m₁).2.process with
      phase := phaseAfter (!m.process.completions.isEmpty || ran) (tidy m₁).2.process } : Process).Intact none
      ((tidy m₁).2.ledger g []) := h₂.intact.congr rfl rfl rfl rfl rfl rfl rfl rfl rfl rfl
  exact h₂.update hp rfl rfl

end Machine

end Spool
