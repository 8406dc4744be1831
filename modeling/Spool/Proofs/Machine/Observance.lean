import Spool.Proofs.Machine.Guarded
import Spool.Proofs.Machine.Rounds
import Spool.Proofs.Machine.Sturdy

/-!
# Rounds keep to the law

A task that goes on keeps its process to the law, as long as no instruction writes the member `value` of a guarded future
that has been read. What happens between the turns of tasks writes to the heap as the laws allow, and leaves finished tasks alone.
-/

namespace Spool.Machine

variable {G : ProcessId → Handle → Prop} {K : Process → Prop} {id : ProcessId} {m m₁ m' : Machine} {g : Outlook} {t : TaskId}
  {α : Type}

/-- The instruction that is due does not write the member `value` of a guarded future that has been read. -/
def Spares (G : ProcessId → Handle → Prop) (id : ProcessId) (m : Machine) : Prop :=
  ∀ n top i, m.Due n top i → ∀ r, G id r → n.Stores i "value" r → n.process.heap.Unread r

section
variable (hL : Process.Law G K)
include hL

/-! ## Going on -/

/-- The running task comes to its end. -/
theorem Busy.stop (hm : m.Busy K id) (f : Task → Task) : (Machine.modifyCurrent f m).2.Lawful K id :=
  hm.toLawful.process hL (Process.heeds_modifyTask_of_unfinished hm.unfinished f) rfl (Process.bare_of_contexts hm.bare rfl)

theorem Busy.raise (hm : m.Busy K id) (fault : Fault) : (Machine.raise fault m).2.Lawful K id := by
  have herror := (glance_busy hL).errorObject fault hm
  rw [raise_eq]
  cases (errorObject fault m).2.top? with
  | none => exact herror.stop hL _
  | some c => exact (herror.modifyContext hL c fun h => h).toLawful

theorem Busy.unwindThrough (error : Handle) (cs : List ContextId) : ∀ {m : Machine}, m.Busy K id →
    (Machine.unwindThrough error cs m).2.Lawful K id := by
  induction cs with
  | nil => exact fun hm => hm.stop hL _
  | cons c outer ih =>
      intro m hm
      rw [unwindThrough_cons]
      cases (m.process.contextAt c).handler with
      | some position =>
          have hcaught : (m.catching c position).Busy K id := hm.modifyContext hL c fun h => h
          exact (hcaught.modifyCurrent hL (f := fun t => { t with contexts := c :: outer, register := .object error })
            fun _ h => h).toLawful
      | none =>
          have hcleared : ({ m with process := m.process.modifyContext c fun c => { c with error := none } } :
            Machine).Busy K id := hm.modifyContext hL c fun h => h
          exact ih (busy_releaseContext hL c hcleared)

theorem Busy.swept {n : Machine} (hm : m.Busy K id) (hgo : m.Going g (some t)) (h : m.Swept n) :
    n.Busy K id ∧ n.Going g (some t) := by
  rcases h with ⟨_, rfl⟩ | ⟨_, h⟩
  · exact ⟨hm, hgo⟩
  · rw [eq_of_safepoint h]
    exact ⟨hm.collectGarbage hL hgo, hgo.collectGarbage⟩

theorem Busy.perform (hm : m.Busy K id) (hgo : m.Going g (some t)) {i : Instruction}
    (hspare : ∀ r, G id r → m.Stores i "value" r → m.process.heap.Unread r) (top : ContextId) (position : Nat) :
    (Machine.perform top position i m).2.Lawful K id := by
  have hstep := hm.step hL hgo hspare top position
  rw [perform_eq]
  generalize Machine.step top position i m = x at hstep ⊢
  obtain ⟨e | flow, m₁⟩ := x
  · exact hstep.raise hL e
  · cases flow with
    | next => exact (busy_setCursor hL top _ hstep).toLawful
    | jump target => exact (busy_setCursor hL top _ hstep).toLawful
    | stay => exact hstep.toLawful
    | suspend => exact (busy_setCursor hL top _ hstep).toLawful
    | finished => exact hstep.stop hL _

theorem Busy.advance (hm : m.Busy K id) (hgo : m.Going g (some t)) (hspare : m.Spares G id) :
    (Machine.advance m).2.Lawful K id := by
  have h := advancing_advance m
  generalize Machine.advance m = x at h
  cases h with
  | bare => exact hm.stop hL _
  | unwind top e => exact hm.unwindThrough hL e _
  | full top n _ _ hsafe =>
      have hcollected := hm.collectGarbage hL hgo
      have hfull : (safepoint m).2.Lawful K id := by
        rw [safepoint_eq]
        cases (Machine.collectGarbage m).2.process.heap.overLimit? with
        | some fault => exact hcollected.raise hL fault
        | none => exact hcollected.toLawful
      rw [hsafe] at hfull
      exact hfull
  | ended top n _ _ hswept => exact (hm.swept hL hgo hswept).1.stop hL _
  | due n top i hdue =>
      obtain ⟨hn, hgo'⟩ := hm.swept hL hgo hdue.swept
      exact hn.perform hL hgo' (hspare n top i hdue) top _

theorem Busy.resume (hm : m.Busy K id) : (Machine.resume m).2.Lawful K id := by
  have hawake := hm.modifyCurrent hL (f := fun t => { t with state := .running, reason := .notWaiting })
    fun _ _ => by simp [TaskState.isFinished]
  let m₁ := (Machine.modifyCurrent (fun t => { t with state := .running, reason := .notWaiting }) m).2
  rw [resume_woken]
  cases m₁.process.fault with
  | none => exact hawake.toLawful
  | some fault =>
      have hcleared : ({ m₁ with process := { m₁.process with fault := none } } : Machine).Busy K id :=
        hawake.contexts hL rfl rfl rfl (Process.bare_of_contexts hawake.bare rfl)
      exact hcleared.raise hL fault

end

/-! ## Between the turns -/

/-- Outcomes are handed on. -/
structure Drifting (U : Handle → Prop) (m₀ m : Machine) : Prop where
  seeded : m.host.registry.Seeded
  nursery : m.host.nursery = m₀.host.nursery
  drifts : m₀.process.Drifts U m.process

variable {U : Handle → Prop} {m₀ : Machine}

theorem Drifting.process (hm : Drifting U m₀ m) {p : Process} (h : m.process.Drifts U p) :
    Drifting U m₀ { m with process := p } :=
  ⟨hm.seeded, hm.nursery, hm.drifts.trans h⟩

theorem glance_drifting (U : Handle → Prop) (m₀ : Machine) : Glance U (Drifting U m₀) where
  seeded hm := hm.seeded
  heap {_ act m} ha hm := hm.process (p := { m.process with heap := (act m.process.heap).2 })
    ⟨rfl, fun K hK hk => ha K hK hk, fun h => Process.bare_of_contexts h rfl⟩
  pin {m} c hm := by
    obtain ⟨contexts, heq⟩ : ∃ contexts, m.process.pin c = { m.process with contexts := contexts } :=
      Process.pinFrom_eq _ c m.process
    exact hm.process ⟨by rw [heq], fun _ _ h => by rw [heq]; exact h, fun h => h.pin c⟩

theorem drifting_modifyCurrent (f : Task → Task) (hm : Drifting U m₀ m) : Drifting U m₀ (modifyCurrent f m).2 :=
  hm.process (Process.drifts_of_eq U rfl rfl rfl)

theorem drifting_finishTask (t : TaskId) (hm : Drifting U m₀ m) : Drifting U m₀ (finishTask t m).2 := by
  have hfinish := hm.process (Process.drifts_finish U m.process t)
  rw [finishTask_eq]
  split
  · have hreport := hfinish.process (p := { m.process.finish t with uncaught := (m.process.finish t).uncaught + 1 })
      (Process.drifts_of_eq U rfl rfl rfl)
    exact ⟨hreport.seeded, hreport.nursery, hreport.drifts⟩
  · exact hfinish

theorem drifting_endCarrier (result : Except Fault Value) (state : TaskState) (hm : Drifting U m₀ m) :
    Drifting U m₀ (endCarrier result state m).2 := by
  have hend : ∀ (m₁ : Machine) (state : TaskState) (v : Value), Drifting U m₀ m₁ →
      Drifting U m₀ (finishTask m₁.task (modifyCurrent (fun t => { t with state, register := v }) m₁).2).2 :=
    fun m₁ state v hm₁ => drifting_finishTask _ (drifting_modifyCurrent _ hm₁)
  cases result with
  | ok v => exact hend m state v hm
  | error fault => exact hend _ .error _ ((glance_drifting U m₀).errorObject fault hm)

theorem drifting_handOver (c : Completion) (hm : Drifting U m₀ m) : Drifting U m₀ (handOver c m) := by
  have hrelease : ∀ (rs : List Handle) (m : Machine), Drifting U m₀ m →
      Drifting U m₀ ((rs.forM release : StateM Machine PUnit) m).2 := by
    intro rs
    induction rs with
    | nil => exact fun _ hm => hm
    | cons r rest ih => exact fun m hm => ih _ ((glance_drifting U m₀).onHeap (fun _ hK => hK.unroot r) m hm)
  have hreleased := hrelease c.held { m with task := c.task } ⟨hm.seeded, hm.nursery, hm.drifts⟩
  unfold handOver
  generalize ((c.held.forM release : StateM Machine PUnit) { m with task := c.task }).2 = m₁ at hreleased
  exact hreleased.process (Process.drifts_of_eq U rfl rfl rfl)

theorem drifting_settleAll (hs : m.host.registry.Seeded) : Drifting U m (settleAll m).2 := by
  have hall : ∀ (cs : List Completion) (m₁ : Machine), Drifting U m m₁ →
      Drifting U m ((cs.forM settle : StateM Machine PUnit) m₁).2 := by
    intro cs
    induction cs with
    | nil => exact fun _ hm => hm
    | cons c rest ih =>
        intro m₁ hm
        refine ih (settle c m₁).2 ?_
        rw [settle_eq]
        exact drifting_endCarrier _ _ (drifting_handOver c hm)
  exact hall _ _ ⟨hs, rfl, Process.drifts_of_eq U rfl rfl rfl⟩

theorem drifting_sendResult (link : RemoteLink) (hm : Drifting U m₀ m) : Drifting U m₀ (sendResult link m).2 := by
  have hnote : ∀ m₁ : Machine, Drifting U m₀ m₁ → Drifting U m₀ { m₁ with process := { m₁.process with
      outgoing := m₁.process.outgoing ++ [⟨m.task, link⟩] } } := fun m₁ hm₁ => hm₁.process (Process.drifts_of_eq U rfl rfl rfl)
  rw [sendResult_eq]
  cases m.register with
  | none => exact hnote m hm
  | scalar s => exact hnote m hm
  | object r => exact hnote _ ((glance_drifting U m₀).onHeap (fun _ hK => hK.root r) m hm)

theorem drifting_conclude (hs : m.host.registry.Seeded) : Drifting U m (conclude m).2 := by
  have hself : Drifting U m m := ⟨hs, rfl, .refl U _⟩
  by_cases hfin : m.current.state.isFinished
  · rw [conclude_of_finished hfin]
    cases m.current.remote with
    | none => exact drifting_finishTask m.task hself
    | some link => exact drifting_finishTask m.task (drifting_sendResult link hself)
  · rw [conclude_of_unfinished hfin]
    exact hself

theorem heeds_finishTask (t : TaskId) (m : Machine) : m.process.Heeds (finishTask t m).2.process := by
  rw [finishTask_eq]
  split
  · exact (Process.heeds_finish m.process t).trans (Process.heeds_of_eq rfl rfl)
  · exact Process.heeds_finish m.process t

theorem heeds_sendResult (link : RemoteLink) (m : Machine) : m.process.Heeds (sendResult link m).2.process := by
  rw [sendResult_eq]
  cases m.register <;> exact Process.heeds_of_eq rfl rfl

theorem heeds_conclude (m : Machine) : m.process.Heeds (conclude m).2.process := by
  by_cases hfin : m.current.state.isFinished
  · rw [conclude_of_finished hfin]
    cases m.current.remote with
    | none => exact heeds_finishTask m.task m
    | some link => exact (heeds_sendResult link m).trans (heeds_finishTask m.task (sendResult link m).2)
  · rw [conclude_of_unfinished hfin]
    exact .refl _

section
variable (hL : Process.Law G K)
include hL

theorem Lawful.drifting (hm : m.Lawful K id) (hd : Drifting (G id) m m') (hh : m.process.Heeds m'.process) :
    m'.Lawful K id := by
  refine ⟨hd.drifts.id.trans hm.id, hd.seeded, hL.drifts ?_ hh hm.law, hd.drifts.bare hm.bare, fun child hc =>
    hm.nursery child (hd.nursery ▸ hc)⟩
  rw [hm.id]
  exact hd.drifts

theorem Lawful.conclude (hm : m.Lawful K id) : (Machine.conclude m).2.Lawful K id :=
  hm.drifting hL (drifting_conclude hm.seeded) (heeds_conclude m)

theorem Lawful.tidy (hm : m.Lawful K id) (hs : m.process.heap.Sound) (hmirrored : m.process.heap.Mirrored) :
    (Machine.tidy m).2.Lawful K id := by
  have hcollected : (collectGarbage m).2.Lawful K id :=
    ⟨hm.id, hm.seeded, hL.collect m.host.registry hs hmirrored hm.law, Process.bare_of_contexts hm.bare rfl, hm.nursery⟩
  rw [tidy_eq]
  split
  · split
    · exact hcollected.process hL (Process.heeds_of_eq rfl rfl) rfl (Process.bare_of_contexts hcollected.bare rfl)
    · exact hcollected
  · exact hm

end

end Spool.Machine
