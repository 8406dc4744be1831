import Spool.Machine.Run
import Spool.Proofs.Machine.Step

/-!
# A task from start to stop

Between two instructions of a task the machine is going, also after an error has been carried outward or garbage
has been collected. The task stops when it is parked or comes to its end.
-/

namespace Spool.Machine

variable {g : Outlook} {cur : Option TaskId} {m m' : Machine} {t : TaskId} {α : Type}

/-- The running task has come to its end, and nobody has been told of it. -/
structure Ended (g : Outlook) (t : TaskId) (m : Machine) : Prop where
  inv : m.Inv g (some t) []
  task : m.task = t
  finished : (m.process.taskAt t).state.isFinished

def Stopped (g : Outlook) (t : TaskId) (m : Machine) : Prop := m.Resting g t ∨ m.Ended g t

/-- An action after which the task goes on or stops, whichever it says. -/
def Advances (g : Outlook) (t : TaskId) (act : StateM Machine Bool) (m : Machine) : Prop :=
  if (act m).1 then (act m).2.Going g (some t) else (act m).2.Stopped g t

theorem advances_bind {act : StateM Machine α} {k : α → StateM Machine Bool} (hk : Advances g t (k (act m).1) (act m).2) :
    Advances g t (act >>= k) m := hk

theorem Kept.advances {act : StateM Machine α} {k : α → StateM Machine Bool} {P : α → Machine → Prop}
    (ha : Kept g (some t) act m P)
    (hk : ∀ a m', m'.Going g (some t) → m.Grows m' → P a m' → Advances g t (k a) m') : Advances g t (act >>= k) m :=
  hk _ _ ha.1 ha.2.1 ha.2.2

theorem advances_get {k : Machine → StateM Machine Bool} (hk : Advances g t (k m) m) : Advances g t (get >>= k) m := hk

/-- The running task comes to its end. -/
theorem Going.ended (hm : m.Going g (some t)) {f : Task → Task} (hd : ∀ task, (f task).dependents = task.dependents)
    (hl : ∀ task, (f task).remote = task.remote) (hi : ∀ task, (f task).initializes = task.initializes)
    (hfin : ∀ task, (f task).state.isFinished)
    (hv : ∀ task, ∀ v ∈ (f task).values, v ∈ task.values ∨ m.process.heap.Valid v)
    (hc : ∀ task, ∀ c ∈ (f task).contexts, c ∈ task.contexts)
    (hr : ∀ task, (f task).register = task.register ∨ m.process.heap.Valid (f task).register) :
    (modifyCurrent f m).2.Ended g t := by
  obtain ⟨rfl, hready⟩ := hm.current
  have hun : ∀ task, m.process.tasks[m.task.index]? = some task → ¬ task.state.isFinished := fun task ht =>
    Process.taskAt_of_getElem? ht ▸ hready.taskAt.1
  have hp : (m.process.modifyTask m.task f).Intact (some m.task) (m.ledger g []) := by
    refine hm.inv.intact.modifyTask hd (fun task ht => ⟨hl task, hi task, fun h => absurd h (hun task ht)⟩) hl
      (fun _ _ h => absurd rfl h) (fun task _ => hv task) (fun task _ c h => .inl (hc task c h)) fun task _ => hr task
  refine ⟨hm.inv.update hp rfl rfl, rfl, ?_⟩
  change ((m.process.modifyTask m.task f).taskAt m.task).state.isFinished
  rw [Process.taskAt_modifyTask, if_pos ⟨rfl, hready.index_lt⟩]
  exact hfin _

theorem Going.complete (hm : m.Going g (some t)) : (complete m).2.Ended g t :=
  hm.ended (f := fun t => { t with state := .complete }) (fun _ => rfl) (fun _ => rfl) (fun _ => rfl) (fun _ => rfl)
    (fun _ _ h => .inl h) (fun _ _ h => h) fun _ => .inl rfl

theorem Resting.setCursor (hm : m.Resting g t) (c : ContextId) (position : Nat) : (setCursor c position m).2.Resting g t :=
  ⟨hm.inv.update (hm.inv.intact.modifyContext c (f := fun c => { c with cursor := position }) (fun _ _ h => .inl h)
    fun _ => rfl) rfl rfl, hm.task, hm.unfinished⟩

/-! ## Errors -/

/-- A context without its error. -/
theorem kept_clearError (hm : m.Going g cur) (c : ContextId) {f : Context → Context}
    (hf : ∀ x, (f x).receiver = x.receiver ∧ (f x).locals = x.locals ∧ (f x).error = none ∧ (f x).previous = x.previous) :
    Kept g cur (modifyProcess fun p => p.modifyContext c f) m fun _ m' => m'.process.tasks = m.process.tasks := by
  have hk := kept_modifyContext hm c f (fun x v hv => .inl ?_) fun x => (hf x).2.2.2
  · exact ⟨hk.1, hk.2.1, rfl⟩
  · obtain ⟨hr, hl, he, _⟩ := hf x
    simp only [Context.values, hr, hl, he, Option.toList_none, List.map_nil, List.append_nil] at hv
    exact List.mem_append_left _ hv

/-- The contexts that are left keep their place in the task until the error has found its handler. -/
theorem advances_unwindThrough {error : Handle} (cs : List ContextId) :
    ∀ m : Machine, m.Going g (some t) → m.process.heap.isLive error → (∀ c ∈ cs, c ∈ m.current.contexts) →
      Advances g t (unwindThrough error cs) m := by
  induction cs with
  | nil =>
      intro m hm he _
      refine .inr (hm.ended (f := fun t => { t with contexts := [], register := .object error, state := .error })
        (fun _ => rfl) (fun _ => rfl) (fun _ => rfl) (fun _ => rfl) (fun task v hv => ?_) (fun _ _ h => by cases h)
        fun _ => .inr (valid_object he))
      rcases List.mem_cons.1 hv with rfl | hv
      · exact .inr (valid_object he)
      · exact .inl (List.mem_cons_of_mem _ hv)
  | cons c outer ih =>
      intro m hm he hcs
      unfold unwindThrough
      refine advances_get ?_
      split
      · rename_i position _
        refine (kept_clearError hm c (f := fun c => { c with error := none, handler := none, cursor := position })
          fun _ => ⟨rfl, rfl, rfl, rfl⟩).advances fun _ m₁ hm₁ hr₁ ht₁ => ?_
        have hsec : ∀ d ∈ c :: outer, m₁.process.Secure d := fun d hd => hm₁.secure d (by
          have := hcs d hd
          simpa only [current, Process.taskAt, ht₁, hr₁.task] using this)
        have he₁ : m₁.process.heap.isLive error := hr₁.valid _ (valid_object he) error rfl
        obtain ⟨rfl, hready⟩ := hm₁.current
        refine hm₁.update ?_ rfl rfl fun x hx => ?_
        · refine hm₁.inv.intact.modifyTask (fun _ => rfl) (fun task ht => ⟨rfl, rfl, fun h => absurd h ?_⟩) (fun _ => rfl)
            (fun _ _ h => absurd rfl h) (fun task _ v hv => ?_) (fun task _ d hd => .inr (hsec d hd))
            fun _ _ => .inr (valid_object he₁)
          · rw [← Process.taskAt_of_getElem? ht]
            exact hready.taskAt.1
          · rcases List.mem_cons.1 hv with rfl | hv
            · exact .inr (valid_object he₁)
            · exact .inl (List.mem_cons_of_mem _ hv)
        · cases hx
          exact hready.modifyTask (fun _ => rfl) fun _ _ => by simp
      · obtain ⟨hm₁, hr₁, ht₁⟩ := kept_clearError hm c (f := fun c => { c with error := none })
          fun _ => ⟨rfl, rfl, rfl, rfl⟩
        obtain ⟨hm₂, hr₂, _⟩ := kept_releaseContext hm₁ c
        refine ih _ hm₂ ((hr₁.trans hr₂).valid _ (valid_object he) error rfl) fun d hd => ?_
        obtain ⟨contexts, free, heq⟩ := Process.releaseContext_eq (m.process.modifyContext c fun c => { c with error := none }) c
        change d ∈ (Process.taskAt (Process.releaseContext _ c) m.task).contexts
        rw [heq]
        exact hcs d (List.mem_cons_of_mem c hd)

/-! ## Between instructions -/

theorem advances_perform (hm : m.Going g (some t)) {top : ContextId} (htop : m.top? = some top) (position : Nat)
    (i : Instruction) : Advances g t (perform top position i) m := by
  have hstep := steps_step hm htop position i
  unfold Steps Act.wp at hstep
  unfold Advances
  rw [perform_eq]
  rcases hx : step top position i m with ⟨e | flow, m₁⟩
  · rw [hx] at hstep
    exact (kept_raise hstep.1 e).1
  · rw [hx] at hstep
    cases flow with
    | next => exact (kept_setCursor hstep top _).1
    | jump target => exact (kept_setCursor hstep top target).1
    | stay => exact hstep
    | suspend => exact .inl (Resting.setCursor hstep top _)
    | finished => exact .inr (Going.complete hstep)

theorem going_safepoint (hm : m.Going g (some t)) :
    (safepoint m).2.Going g (some t) ∧ ((safepoint m).1 = false → (safepoint m).2 = (collectGarbage m).2) := by
  have hcol := hm.collectGarbage
  rw [safepoint_eq]
  cases (collectGarbage m).2.process.heap.overLimit? with
  | some fault => exact ⟨(kept_raise hcol fault).1, fun h => by cases h⟩
  | none => exact ⟨hcol, fun _ => rfl⟩

/-- The machine is going from one instruction to the next. -/
theorem advances_advance (hm : m.Going g (some t)) : Advances g t advance m := by
  unfold advance
  refine advances_get ?_
  split
  · exact .inr hm.complete
  · rename_i top htop
    dsimp only
    split
    · rename_i error herror
      have hlive : m.process.heap.isLive error :=
        (hm.secure_top htop).values (.object error) (by simp [Context.values, herror]) error rfl
      exact advances_unwindThrough _ m hm hlive fun c hc => hc
    · have hrest : ∀ m₁ : Machine, m₁.Going g (some t) → m₁.top? = some top → Advances g t (performNext m top) m₁ := by
        intro m₁ hm₁ htop₁
        unfold performNext
        split
        · exact .inr hm₁.complete
        · exact advances_perform hm₁ htop₁ _ _
      split
      · -- a collection takes away nothing that the machine needs to go on
        obtain ⟨hgo, hsame⟩ := going_safepoint hm
        refine advances_bind ?_
        split
        · exact hgo
        · rename_i hfalse
          exact hrest _ hgo (by rw [hsame (by simpa using hfalse)]; exact htop)
      · exact hrest m hm htop

theorem kept_wake (hm : m.Going g (some t)) :
    Kept g (some t) (modifyCurrent fun t => { t with state := .running, reason := .notWaiting }) m fun _ _ => True := by
  obtain ⟨rfl, hr⟩ := hm.current
  refine ⟨hm.update ?_ rfl rfl fun x hx => ?_, ⟨rfl, fun _ h => h⟩, trivial⟩
  · refine hm.inv.intact.modifyTask_frame (fun _ => rfl) (fun task ht => ⟨rfl, rfl, fun h => absurd h ?_⟩) (fun _ => rfl)
      (fun _ _ h => absurd rfl h) (fun _ => rfl) fun _ => rfl
    rw [← Process.taskAt_of_getElem? ht]
    exact hr.taskAt.1
  · cases hx
    obtain ⟨task, ht, _, hc⟩ := hr
    refine ⟨{ task with state := .running, reason := .notWaiting }, ?_, by simp [TaskState.isFinished], hc⟩
    rw [Process.getElem?_modifyTask, if_pos rfl, ht]
    rfl

/-- A process without the fault it has had in store. -/
theorem kept_clearFault (hm : m.Going g cur) :
    Kept g cur (modifyProcess fun p => { p with fault := none }) m fun _ _ => True :=
  (kept_modifyProcess hm (f := fun p => { p with fault := none }) (hm.inv.intact.congr rfl rfl rfl rfl rfl rfl rfl rfl
    rfl rfl) rfl rfl rfl fun x hx => (hm.running x hx).2).mono fun _ _ _ _ _ => trivial

theorem kept_resume (hm : m.Going g (some t)) : Kept g (some t) resume m fun _ _ => True := by
  unfold resume
  refine (kept_wake hm).bind fun _ m₁ hm₁ _ _ => kept_get ?_
  split
  · rename_i fault _
    exact (kept_clearFault hm₁).bind fun _ m₂ hm₂ _ _ => kept_raise hm₂ fault
  · exact kept_pure hm₁ trivial

theorem stopped_runFrom (fuel : Nat) : ∀ {m m' : Machine}, m.Going g (some t) → runFrom fuel m = some m' →
    m'.Stopped g t := by
  induction fuel with
  | zero => exact fun _ h => by cases h
  | succ fuel ih =>
      intro m m' hm h
      have hadv := advances_advance hm
      have heq : advance.run m = advance m := rfl
      unfold Advances at hadv
      simp only [runFrom, heq] at h
      rcases hx : advance m with ⟨_ | _, m₁⟩
      · rw [hx] at h hadv
        cases h
        exact hadv
      · rw [hx] at h hadv
        exact ih hadv h

theorem Going.run_eq (hm : m.Going g (some t)) (fuel : Nat) : run fuel m = runFrom fuel (resume m).2 :=
  if_neg hm.current.2.taskAt.1

theorem stopped_run (hm : m.Going g (some t)) {fuel : Nat} (h : run fuel m = some m') : m'.Stopped g t := by
  rw [hm.run_eq] at h
  exact stopped_runFrom fuel (kept_resume hm).1 h

end Spool.Machine
