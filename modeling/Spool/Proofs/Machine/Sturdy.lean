import Spool.Machine.Tick
import Spool.Proofs.Machine.Paces
import Spool.Proofs.Machine.Turns

/-!
# Machines stay in order

What a machine does between two instructions is said once: it ends the task, unwinds, gives up for want of memory, or does
the instruction that is due. Each of these is a row of motions, and so a machine in order stays in order through a whole
round of the scheduler.
-/

namespace Spool.Machine

variable {m m₁ m₂ m' n : Machine} {top c : ContextId} {position : Nat} {i : Instruction} {r : Registry}

/-! ## What an advance is -/

/-- Garbage is collected first if it is time; `n` is the machine after that. -/
def Swept (m n : Machine) : Prop :=
  m.process.heap.shouldCollect = false ∧ n = m ∨ m.process.heap.shouldCollect = true ∧ safepoint m = (false, n)

/-- The instruction is next, and done in the machine `n`. -/
structure Due (m n : Machine) (top : ContextId) (i : Instruction) : Prop where
  innermost : m.top? = some top
  clear : (m.process.contextAt top).error = none
  swept : m.Swept n
  fetched : (m.host.registry.moduleAt (m.process.contextAt top).module).tape.instructions[(m.process.contextAt
    top).cursor]? = some i

inductive Advancing (m : Machine) : Bool × Machine → Prop where
  | bare : m.top? = none → Advancing m (false, (complete m).2)
  | unwind (top : ContextId) (e : Handle) : m.top? = some top → (m.process.contextAt top).error = some e →
      Advancing m (unwind e m)
  | full (top : ContextId) (n : Machine) : m.top? = some top → (m.process.contextAt top).error = none →
      safepoint m = (true, n) → Advancing m (true, n)
  | ended (top : ContextId) (n : Machine) : m.top? = some top → (m.process.contextAt top).error = none → m.Swept n →
      Advancing m (false, (complete n).2)
  | due (n : Machine) (top : ContextId) (i : Instruction) : m.Due n top i →
      Advancing m (perform top (m.process.contextAt top).cursor i n)

theorem advancing_advance (m : Machine) : Advancing m (advance m) := by
  have hbind : ∀ {act : StateM Machine Bool} {k : Bool → StateM Machine Bool} {b : Bool} {n : Machine}, act m = (b, n) →
      Advancing m (k b n) → Advancing m ((act >>= k) m) := by
    intro act k b n hact hk
    change Advancing m (k (act m).1 (act m).2)
    rw [hact]
    exact hk
  have hfollow : ∀ {top n}, m.top? = some top → (m.process.contextAt top).error = none → m.Swept n →
      Advancing m (performNext m top n) := by
    intro top n htop herror hswept
    unfold performNext
    cases hi : (m.host.registry.moduleAt (m.process.contextAt top).module).tape.instructions[(m.process.contextAt
      top).cursor]? with
    | none => exact .ended top n htop herror hswept
    | some i => exact .due n top i ⟨htop, herror, hswept, hi⟩
  rw [advance_eq]
  cases htop : m.top? with
  | none => exact .bare htop
  | some top =>
      dsimp only
      cases herror : (m.process.contextAt top).error with
      | some e => exact .unwind top e htop herror
      | none =>
          dsimp only
          cases hcollect : m.process.heap.shouldCollect with
          | false => exact hfollow htop herror (.inl ⟨hcollect, rfl⟩)
          | true =>
              rw [if_pos rfl]
              rcases hsafe : safepoint m with ⟨_ | _, n⟩
              · exact hbind hsafe (hfollow htop herror (.inr ⟨hcollect, hsafe⟩))
              · exact hbind hsafe (.full top n htop herror hsafe)

theorem Sturdy.does (hm : m.Sturdy r) (h : m.Does m') : m'.Sturdy r := sturdy_paces hm h.paces

/-! ## Errors -/

theorem paces_raise (hm : m.Sturdy r) (fault : Fault) : m.Paces (raise fault m).2 := by
  have herror := does_errorObject fault m
  have hm₁ := sturdy_paces hm herror.paces
  rw [raise_eq]
  refine herror.paces.trans ?_
  cases htop : (errorObject fault m).2.top? with
  | some c => exact (Pace.move c (fun c => { c with error := some (errorObject fault m).1 }) htop
      (fun _ => ⟨rfl, rfl, rfl⟩) (hm₁.firm.onTape.within c)).paces
  | none => exact (does_modifyCurrent (f := fun t =>
      { t with register := .object (errorObject fault m).1, state := .error }) (fun _ => ⟨_, _, _, _, rfl⟩) _).paces

theorem eq_of_safepoint (h : safepoint m = (false, n)) : n = (collectGarbage m).2 := by
  rw [safepoint_eq] at h
  cases ho : (collectGarbage m).2.process.heap.overLimit? with
  | some fault =>
      rw [ho] at h
      cases congrArg Prod.fst h
  | none =>
      rw [ho] at h
      exact (congrArg Prod.snd h).symm

theorem eq_of_swept (h : m.Swept n) : ∃ heap, n = { m with process := { m.process with heap } } := by
  rcases h with ⟨_, rfl⟩ | ⟨_, h⟩
  · exact ⟨_, rfl⟩
  · exact ⟨_, eq_of_safepoint h⟩

theorem Due.top? (h : m.Due n top i) : n.top? = some top := by
  obtain ⟨heap, rfl⟩ := eq_of_swept h.swept
  exact h.innermost

theorem Due.clear_swept (h : m.Due n top i) : (n.process.contextAt top).error = none := by
  obtain ⟨heap, rfl⟩ := eq_of_swept h.swept
  exact h.clear

theorem does_of_swept (h : m.Swept n) : m.Does n := by
  rcases h with ⟨_, rfl⟩ | ⟨_, h⟩
  · exact .refl _
  · rw [eq_of_safepoint h]
    exact does_collectGarbage m

theorem paces_safepoint (hm : m.Sturdy r) : m.Paces (safepoint m).2 := by
  have hcollect := (does_collectGarbage m).paces
  rw [safepoint_eq]
  refine hcollect.trans ?_
  cases (collectGarbage m).2.process.heap.overLimit? with
  | some fault => exact paces_raise (sturdy_paces hm hcollect) fault
  | none => exact .refl _

/-- The machine when its task has come down to these contexts. -/
def downTo (m : Machine) (cs : List ContextId) : Machine :=
  { m with process := m.process.modifyTask m.task fun t => { t with contexts := cs } }

theorem downTo_self (m : Machine) : m.downTo m.current.contexts = m := by
  have hsame : m.process.tasks.modify m.task.index (fun t => { t with contexts := m.current.contexts })
      = m.process.tasks := by
    apply Array.ext_getElem?
    intro k
    rw [Array.getElem?_modify]
    split
    · rename_i hk
      cases htask : m.process.tasks[k]? with
      | none => rfl
      | some task =>
          have hcur : m.current = task := Process.taskAt_of_getElem? (hk ▸ htask)
          simp [hcur]
    · rfl
  simp only [downTo, Process.modifyTask, hsame]

theorem top?_downTo (ht : m.task.index < m.process.tasks.size) (c : ContextId) (cs : List ContextId) :
    (m.downTo (c :: cs)).current.contexts = c :: cs ∧ (m.downTo (c :: cs)).top? = some c := by
  have hcs : (m.downTo (c :: cs)).current.contexts = c :: cs := by
    change ((m.process.modifyTask m.task _).taskAt m.task).contexts = _
    rw [Process.taskAt_modifyTask, if_pos ⟨rfl, ht⟩]
  exact ⟨hcs, by rw [top?, Task.top?, hcs, List.head?_cons]⟩

/-- The machine when the handler of a context has caught an error. -/
def catching (m : Machine) (c : ContextId) (position : Nat) : Machine :=
  { m with process := m.process.modifyContext c fun c => { c with error := none, handler := none, cursor := position } }

/-- The machine when an error has left a context. -/
def passing (m : Machine) (c : ContextId) : Machine :=
  { m with process := (m.process.modifyContext c fun c => { c with error := none }).releaseContext c }

theorem unwindThrough_cons (e : Handle) (c : ContextId) (outer : List ContextId) (m : Machine) :
    unwindThrough e (c :: outer) m = match (m.process.contextAt c).handler with
      | some position =>
        (true, (modifyCurrent (fun t => { t with contexts := c :: outer, register := .object e }) (m.catching c position)).2)
      | none => unwindThrough e outer (m.passing c) := by
  have hrun : unwindThrough e (c :: outer) m = (match (m.process.contextAt c).handler with
    | some position => do
      modifyProcess fun p => p.modifyContext c fun c => { c with error := none, handler := none, cursor := position }
      modifyCurrent fun t => { t with contexts := c :: outer, register := .object e }
      return true
    | none => do
      modifyProcess fun p => (p.modifyContext c fun c => { c with error := none }).releaseContext c
      unwindThrough e outer : StateM Machine Bool) m := rfl
  rw [hrun]
  cases (m.process.contextAt c).handler <;> rfl

theorem handler_passing (m : Machine) (c d : ContextId) :
    ((m.passing c).process.contextAt d).handler = (m.process.contextAt d).handler := by
  have hclear := Process.stands_modifyContext m.process c (f := fun c => { c with error := none }) fun _ => rfl
  exact Context.handler_eq_of_outline ((hclear.trans (Process.stands_releaseContext _ c)).outline d)

/-- The machine when an error has left the contexts. -/
def passingAll (m : Machine) (cs : List ContextId) : Machine := cs.foldl passing m

theorem handler_passingAll (cs : List ContextId) (d : ContextId) : ∀ m : Machine,
    ((m.passingAll cs).process.contextAt d).handler = (m.process.contextAt d).handler := by
  induction cs with
  | nil => exact fun _ => rfl
  | cons c rest ih => exact fun m => (ih (m.passing c)).trans (handler_passing m c d)

/-- Contexts without a handler are left. -/
theorem unwindThrough_append (e : Handle) (outer inner : List ContextId) : ∀ m : Machine,
    (∀ d ∈ inner, (m.process.contextAt d).handler = none) →
    unwindThrough e (inner ++ outer) m = unwindThrough e outer (m.passingAll inner) := by
  induction inner with
  | nil => exact fun _ _ => rfl
  | cons d rest ih =>
      intro m hinner
      rw [List.forall_mem_cons] at hinner
      rw [List.cons_append, unwindThrough_cons, hinner.1]
      exact ih (m.passing d) fun x hx => (handler_passing m d x).trans (hinner.2 x hx)

/-- Nothing but the table of contexts and the list of free ones changes. -/
theorem passingAll_frame (cs : List ContextId) : ∀ m : Machine, ∃ contexts free,
    m.passingAll cs = { m with process := { m.process with contexts := contexts, freeContexts := free } } := by
  induction cs with
  | nil => exact fun m => ⟨m.process.contexts, m.process.freeContexts, rfl⟩
  | cons c rest ih =>
      intro m
      obtain ⟨contexts, free, heq⟩ := ih (m.passing c)
      obtain ⟨contexts', free', hfree⟩ :=
        Process.releaseContext_eq (m.process.modifyContext c fun c => { c with error := none }) c
      refine ⟨contexts, free, heq.trans ?_⟩
      rw [passing, hfree]
      rfl

/-- A context that is left without a handler is left for good. -/
theorem paces_passing (ht : m.task.index < m.process.tasks.size) {outer : List ContextId}
    (hm : (m.downTo (c :: outer)).Sturdy r) : (m.downTo (c :: outer)).Paces ((m.passing c).downTo outer) := by
  obtain ⟨hcs, htop⟩ := top?_downTo ht c outer
  let m₁ : Machine := { m.downTo (c :: outer) with
    process := (m.downTo (c :: outer)).process.modifyContext c fun c => { c with error := none } }
  have hmove : (m.downTo (c :: outer)).Pace m₁ :=
    .move c _ htop (fun _ => ⟨rfl, rfl, rfl⟩) (hm.firm.onTape.within c)
  have hleave := Pace.leave (m := m₁) c outer hcs
  have hp := Process.modifyTask_modifyTask (m.process.modifyContext c fun c => { c with error := none }) m.task
    (fun t => { t with contexts := c :: outer }) fun t => { t with contexts := outer }
  have hq := Process.releaseContext_modifyTask (m.process.modifyContext c fun c => { c with error := none }) m.task
    (fun t => { t with contexts := outer }) c
  refine hmove.paces.trans (Eq.subst (motive := Paces _) ?_ hleave.paces)
  exact congrArg (fun p : Process => { m with process := p }) ((congrArg (Process.releaseContext · c) hp).trans hq)

theorem paces_catching (ht : m.task.index < m.process.tasks.size) {outer : List ContextId}
    (hm : (m.downTo (c :: outer)).Sturdy r) (hh : (m.process.contextAt c).handler = some position) (e : Handle) :
    (m.downTo (c :: outer)).Paces
      (modifyCurrent (fun t => { t with contexts := c :: outer, register := .object e }) (m.catching c position)).2 := by
  have hmove : (m.downTo (c :: outer)).Pace ((m.downTo (c :: outer)).catching c position) := by
    refine .move c _ (top?_downTo ht c outer).2 (fun _ => ⟨rfl, rfl, rfl⟩) ⟨(hm.firm.onTape.within c).2 position hh, ?_⟩
    simp
  have hset := does_modifyCurrent (f := fun t => { t with register := .object e }) (fun _ => ⟨_, _, _, _, rfl⟩)
    ((m.downTo (c :: outer)).catching c position)
  refine hmove.paces.trans (Eq.subst (motive := Paces _) ?_ hset.paces)
  exact congrArg (fun p : Process => { m with process := p }) (Process.modifyTask_modifyTask (m.catching c position).process
    m.task (fun t => { t with contexts := c :: outer }) fun t => { t with register := .object e })

theorem paces_unwindThrough (e : Handle) (cs : List ContextId) : ∀ m : Machine, m.task.index < m.process.tasks.size →
    (m.downTo cs).Sturdy r → (m.downTo cs).Paces (unwindThrough e cs m).2 := by
  induction cs with
  | nil =>
      intro m ht hm
      have hfail := does_modifyCurrent (f := fun t => { t with register := .object e, state := .error })
        (fun _ => ⟨_, _, _, _, rfl⟩) (m.downTo [])
      have heq : (modifyCurrent (fun t => { t with register := .object e, state := .error }) (m.downTo [])).2
          = (unwindThrough e [] m).2 :=
        congrArg (fun p : Process => { m with process := p }) (Process.modifyTask_modifyTask m.process m.task _ _)
      rw [← heq]
      exact hfail.paces
  | cons c outer ih =>
      intro m ht hm
      rw [unwindThrough_cons]
      cases hh : (m.process.contextAt c).handler with
      | some position => exact paces_catching ht hm hh e
      | none =>
          have hpass := paces_passing ht hm
          have hsize : (m.passing c).task.index < (m.passing c).process.tasks.size := by
            rw [show (m.passing c).process.tasks = m.process.tasks from tasks_releaseContext _ c]
            exact ht
          exact hpass.trans (ih _ hsize (sturdy_paces hm hpass))

theorem paces_unwind (hm : m.Sturdy r) (htop : m.top? = some c) (e : Handle) : m.Paces (unwind e m).2 := by
  have hdown := paces_unwindThrough (r := r) e m.current.contexts m (Process.index_lt_of_top? htop)
  rw [downTo_self] at hdown
  exact hdown hm

theorem does_complete (m : Machine) : m.Does (complete m).2 :=
  does_modifyCurrent (f := fun t => { t with state := .complete }) (fun _ => ⟨_, _, _, _, rfl⟩) m

/-! ## Instructions -/

section
variable (hm : m.Sturdy r) (htop : m.top? = some top)
include hm htop

omit hm in
theorem paces_setCursor (hp : position ≤ m.room top)
    (hh : ∀ h, (m.process.contextAt top).handler = some h → h ≤ m.room top) : m.Paces (setCursor top position m).2 :=
  (Pace.move top (fun c => { c with cursor := position }) htop (fun _ => ⟨rfl, rfl, rfl⟩) ⟨hp, hh⟩).paces

omit hm in
theorem paces_openBlock (hp : position < m.room top) : m.Paces (openBlock top position m).2 := by
  refine (Pace.enter top
    { task := m.task, kind := .block, previous := some top, receiver := (m.process.contextAt top).receiver
      module := (m.process.contextAt top).module, function := (m.process.contextAt top).function
      cursor := position + 1 } htop rfl rfl rfl ⟨hp, ?_⟩).paces
  simp

/-- The contexts of a stack are of one module, so the next position is on the tape of the context around. -/
theorem paces_closeBlock (hp : position < m.room top) :
    (closeBlock top position).wp m (fun _ m' => m.Paces m') fun e m' => m.Does m' ∧ ¬ e.isMalformed := by
  have hlt := Process.index_lt_of_top? htop
  unfold closeBlock
  simp only [Act.wp_bind, Act.wp_get]
  split
  · rename_i c outer rest hkind hcs
    obtain rfl : c = top := by
      rw [top?, Task.top?, hcs] at htop
      exact Option.some.inj htop
    let p₁ := (m.process.modifyTask m.task fun t => { t with contexts := outer :: rest }).releaseContext c
    have hleave : m.Paces { m with process := p₁ } := (Pace.leave c (outer :: rest) hcs).paces
    have hwithin := (sturdy_paces hm hleave).firm.onTape.within outer
    have htop₁ : (p₁.taskAt m.task).top? = some outer := by
      rw [Process.taskAt, tasks_releaseContext]
      change ((m.process.modifyTask m.task fun t => { t with contexts := outer :: rest }).taskAt m.task).top? = _
      rw [Process.taskAt_modifyTask, if_pos ⟨rfl, hlt⟩]
      rfl
    have hmodule : (p₁.contextAt outer).module = (m.process.contextAt c).module := by
      refine Eq.trans (Context.module_eq_of_outline ((Process.stands_releaseContext _ c).outline outer)) ?_
      exact hm.firm.onTape.uniform _ (Array.mem_of_getElem? (Process.getElem?_of_index_lt hlt)) outer (hcs ▸ by simp) c
        (hcs ▸ by simp)
    refine hleave.trans (paces_setCursor htop₁ ?_ hwithin.2)
    change position < (m.host.registry.moduleAt (p₁.contextAt outer).module).tape.size
    rw [hmodule]
    exact hp
  · exact ⟨.refl m, by simp [Fault.isMalformed]⟩

/-- An instruction of a tape without flaws. One that fails has neither opened nor closed a block. -/
theorem wp_step (hi : (m.host.registry.moduleAt (m.process.contextAt top).module).tape.instructions[position]? = some i) :
    (step top position i).wp m
      (fun flow m' => m.Paces m' ∧ (flow ≠ .stay → m.Does m') ∧
        Goes (m.room top) (fun m' => ∃ y d, Awaits m m' i y d) flow m')
      fun e m' => m.Does m' ∧ ¬ e.isMalformed := by
  have hstay : ∀ m', Goes (m.room top) (fun m' => ∃ y d, Awaits m m' i y d) .stay m' := fun _ => ⟨nofun, nofun⟩
  have hflaw := Tape.flaw?_of_getElem? (hm.checked.tapes _) hi
  have hlt : position < m.room top := by
    obtain ⟨h, _⟩ := Array.getElem?_eq_some_iff.1 hi
    exact h
  by_cases hopen : i.op = .openBlock
  · have hrun : step top position i = (do openBlock top position; return .stay : Act Machine Flow) := by
      unfold step
      simp only [hopen]
    rw [hrun]
    exact ⟨paces_openBlock htop hlt, by simp, hstay _⟩
  by_cases hclose : i.op = .closeBlock
  · have hrun : step top position i = (do closeBlock top position; return .stay : Act Machine Flow) := by
      unfold step
      simp only [hclose]
    rw [hrun]
    simp only [Act.wp_bind, Act.wp_pure]
    exact Act.wp_mono (paces_closeBlock hm htop hlt) (fun _ m' h => ⟨h, by simp, hstay m'⟩) fun _ _ h => h
  have hb := behaves_step (Process.index_lt_of_top? htop) hm.firm.arena hflaw htop (Nat.le_refl _) hopen hclose
  exact Act.wp_mono hb (fun flow m' h => ⟨h.1.paces, fun _ => h.1, h.2⟩) fun _ _ h => h

theorem paces_perform
    (hi : (m.host.registry.moduleAt (m.process.contextAt top).module).tape.instructions[position]? = some i) :
    m.Paces (perform top position i m).2 := by
  have hstep := wp_step hm htop hi
  have hlt : position < m.room top := by
    obtain ⟨h, _⟩ := Array.getElem?_eq_some_iff.1 hi
    exact h
  unfold Act.wp at hstep
  rw [perform_eq]
  rcases hx : step top position i m with ⟨e | flow, m₁⟩
  · rw [hx] at hstep
    exact hstep.1.paces.trans (paces_raise (hm.does hstep.1) e)
  · rw [hx] at hstep
    obtain ⟨hgo, hdoes, hjump, _⟩ := hstep
    have hcursor : flow ≠ .stay → ∀ target ≤ m.room top, m.Paces (setCursor top target m₁).2 := by
      intro hflow target ht
      obtain ⟨htop₁, _, hroom⟩ := top?_does hm htop (hdoes hflow)
      have hm₁ := sturdy_paces hm hgo
      exact hgo.trans (paces_setCursor htop₁ (Nat.le_trans ht hroom) (hm₁.firm.onTape.within top).2)
    cases flow with
    | next => exact hcursor (by simp) _ hlt
    | jump target => exact hcursor (by simp) _ (hjump target rfl)
    | stay => exact hgo
    | suspend => exact hcursor (by simp) _ hlt
    | finished => exact hgo.trans (does_complete m₁).paces

end

/-- The instruction that is due. -/
theorem wp_step_due (hm : m.Sturdy r) (hdue : m.Due n top i) :
    (step top (m.process.contextAt top).cursor i).wp n
      (fun flow m' => n.Paces m' ∧ (flow ≠ .stay → n.Does m') ∧
        Goes (n.room top) (fun m' => ∃ y d, Awaits n m' i y d) flow m')
      fun e m' => n.Does m' ∧ ¬ e.isMalformed := by
  have hn := hm.does (does_of_swept hdue.swept)
  obtain ⟨heap, rfl⟩ := eq_of_swept hdue.swept
  exact wp_step hn hdue.innermost hdue.fetched

theorem paces_advance (hm : m.Sturdy r) : m.Paces (advance m).2 := by
  have h := advancing_advance m
  generalize advance m = r at h
  cases h with
  | bare => exact (does_complete m).paces
  | unwind top e htop => exact paces_unwind hm htop e
  | full top n _ _ hsafe =>
      have hfull := paces_safepoint hm
      rw [hsafe] at hfull
      exact hfull
  | ended top n _ _ hswept => exact ((does_of_swept hswept).trans (does_complete n)).paces
  | due n top i hdue =>
      have hn := does_of_swept hdue.swept
      have hm' := sturdy_paces hm hn.paces
      obtain ⟨heap, rfl⟩ := eq_of_swept hdue.swept
      exact hn.paces.trans (paces_perform hm' hdue.innermost hdue.fetched)

/-! ## Rounds of the scheduler -/

theorem paces_resume (hm : m.Sturdy r) : m.Paces (resume m).2 := by
  rw [resume_woken]
  generalize hm₁ : (modifyCurrent (fun t => { t with state := .running, reason := .notWaiting }) m).2 = m₁
  have hwake : m.Paces m₁ := hm₁ ▸ Does.paces (does_modifyCurrent
    (f := fun t => { t with state := .running, reason := .notWaiting }) (fun _ => ⟨_, _, _, _, rfl⟩) m)
  refine hwake.trans ?_
  cases m₁.process.fault with
  | none => exact .refl _
  | some fault =>
      have hclear : m₁.Paces { m₁ with process := { m₁.process with fault := none } } :=
        (Stroke.books { m₁.process with fault := none } rfl rfl rfl rfl rfl rfl fun _ h => h).does.paces
      exact hclear.trans (paces_raise (sturdy_paces hm (hwake.trans hclear)) fault)

theorem Sturdy.turn (hm : m.Sturdy r) (t : TaskId) : ({ m with task := t } : Machine).Sturdy r :=
  ⟨hm.longer, hm.checked, hm.firm, hm.nursery⟩

theorem does_reportUncaught (v : Value) (m : Machine) : m.Does (reportUncaught v m).2 := by
  have hwrite : m.Stroke { m with host := m.host.writeErr (m.renderError v) } := .host _ (.refl _) fun _ h => .inl h
  exact hwrite.does.tail (.books _ rfl rfl rfl rfl rfl rfl fun _ h => h)

theorem sturdy_finish (hm : m.Sturdy r) (t : TaskId) : ({ m with process := m.process.finish t } : Machine).Sturdy r :=
  hm.process ⟨hm.firm.arena.finish t, hm.firm.onTape.stands (Process.stands_finish m.process t)⟩

theorem sturdy_finishTask (hm : m.Sturdy r) (t : TaskId) : (finishTask t m).2.Sturdy r := by
  have hfinish := sturdy_finish hm t
  rw [finishTask_eq]
  split
  · exact hfinish.does (does_reportUncaught _ _)
  · exact hfinish

theorem sturdy_endCarrier (hm : m.Sturdy r) (result : Except Fault Value) (state : TaskState) :
    (endCarrier result state m).2.Sturdy r := by
  have hend : ∀ (m₁ : Machine) (state : TaskState) (v : Value), m₁.Sturdy r →
      (finishTask m₁.task (modifyCurrent (fun t => { t with state, register := v }) m₁).2).2.Sturdy r := by
    intro m₁ state v hm₁
    have hset := does_modifyCurrent (f := fun t => { t with state, register := v }) (fun _ => ⟨_, _, _, _, rfl⟩) m₁
    exact sturdy_finishTask (hm₁.does hset) _
  cases result with
  | ok v => exact hend m state v hm
  | error fault => exact hend _ .error _ (hm.does (does_errorObject fault m))

theorem does_release (r : Handle) (m : Machine) : m.Does (release r m).2 :=
  (Stroke.heap (Heap.unroot r m.process.heap).2 (Heap.each_unroot r _ (each_granted m))).does

theorem does_releaseAll (rs : List Handle) : ∀ m : Machine, m.Does ((rs.forM release : StateM Machine PUnit) m).2 := by
  induction rs with
  | nil => exact .refl
  | cons r rest ih => exact fun m => (does_release r m).trans (ih _)

theorem does_handOver (c : Completion) (m : Machine) : ({ m with task := c.task } : Machine).Does (handOver c m) := by
  have hreleased := does_releaseAll c.held { m with task := c.task }
  unfold handOver
  generalize ((c.held.forM release : StateM Machine PUnit) { m with task := c.task }).2 = m₁ at hreleased
  exact hreleased.tail (.books { m₁.process with inFlight := m₁.process.inFlight - 1 } rfl rfl rfl rfl rfl rfl fun _ h => h)

theorem sturdy_settle (hm : m.Sturdy r) (c : Completion) : (settle c m).2.Sturdy r := by
  rw [settle_eq]
  exact sturdy_endCarrier ((hm.turn c.task).does (does_handOver c m)) _ _

theorem sturdy_settleAll (hm : m.Sturdy r) : (settleAll m).2.Sturdy r := by
  have hall : ∀ (cs : List Completion) (m : Machine), m.Sturdy r →
      ((cs.forM settle : StateM Machine PUnit) m).2.Sturdy r := by
    intro cs
    induction cs with
    | nil => exact fun _ hm => hm
    | cons c rest ih => exact fun m hm => ih _ (sturdy_settle hm c)
  exact hall _ _ (hm.does (Stroke.books { m.process with completions := [] } rfl rfl rfl rfl rfl rfl fun _ h => h).does)

theorem does_sendResult (link : RemoteLink) (m : Machine) : m.Does (sendResult link m).2 := by
  have hnote : ∀ m₁ : Machine, m₁.Does { m₁ with process := { m₁.process with
      outgoing := m₁.process.outgoing ++ [⟨m.task, link⟩] } } := fun m₁ =>
    (Stroke.books { m₁.process with outgoing := m₁.process.outgoing ++ [⟨m.task, link⟩] } rfl rfl rfl rfl rfl rfl fun _ h => h).does
  rw [sendResult_eq]
  cases m.register with
  | none => exact hnote m
  | scalar s => exact hnote m
  | object r => exact ((decent_root r).does m).trans (hnote _)

theorem sturdy_conclude (hm : m.Sturdy r) : (conclude m).2.Sturdy r := by
  by_cases hfin : m.current.state.isFinished
  · rw [conclude_of_finished hfin]
    cases m.current.remote with
    | none => exact sturdy_finishTask hm m.task
    | some link => exact sturdy_finishTask (hm.does (does_sendResult link m)) m.task
  · rw [conclude_of_unfinished hfin]
    exact hm

theorem does_tidy (m : Machine) : m.Does (tidy m).2 := by
  rw [tidy_eq]
  have hcollect := does_collectGarbage m
  split
  · split
    · rename_i fault _
      exact hcollect.tail (.books { (collectGarbage m).2.process with fault := some fault } rfl rfl rfl rfl rfl rfl fun _ h => h)
    · exact hcollect
  · exact .refl m

/-! ## One step after the other -/

theorem advance_of_swept (htop : m.top? = some top) (hclear : (m.process.contextAt top).error = none) (h : m.Swept n) :
    advance m = performNext m top n := by
  rw [advance_eq]
  simp only [htop, hclear]
  rcases h with ⟨hno, rfl⟩ | ⟨hyes, hsafe⟩
  · rw [hno]
    rfl
  · rw [hyes]
    change (if (safepoint m).1 then pure true else performNext m top : StateM Machine Bool) (safepoint m).2 = _
    rw [hsafe]
    rfl

/-- One machine goes on to another without stopping. -/
def Runs : Machine → Machine → Prop := Relation.ReflTransGen fun a b => advance a = (true, b)

/-- The machine after so many steps, if none of them is the last one of the turn. -/
def ahead : Nat → Machine → Option Machine
  | 0, m => some m
  | n + 1, m =>
    match advance m with
    | (true, m) => ahead n m
    | (false, _) => none

theorem runs_of_ahead {k : Nat} (h : ahead k m = some n) : m.Runs n := by
  induction k generalizing m with
  | zero =>
      cases h
      exact .refl
  | succ k ih =>
      unfold ahead at h
      rcases hadv : advance m with ⟨_ | _, m₁⟩
      · simp [hadv] at h
      · rw [hadv] at h
        exact .head hadv (ih h)

theorem runFrom_succ (fuel : Nat) (m : Machine) : runFrom (fuel + 1) m =
    match advance m with
    | (true, m) => runFrom fuel m
    | (false, m) => some m := rfl

theorem runs_of_runFrom {fuel : Nat} (h : runFrom fuel m = some m') : ∃ n, m.Runs n ∧ advance n = (false, m') := by
  induction fuel generalizing m with
  | zero => cases h
  | succ fuel ih =>
      rw [runFrom_succ] at h
      rcases hadv : advance m with ⟨_ | _, m₁⟩
      · rw [hadv] at h
        cases h
        exact ⟨m, .refl, hadv⟩
      · rw [hadv] at h
        obtain ⟨n, hruns, hstop⟩ := ih h
        exact ⟨n, .head hadv hruns, hstop⟩

theorem exists_runFrom (h : m.Runs m₁) (hstop : advance m₁ = (false, m₂)) : ∃ fuel, runFrom fuel m = some m₂ := by
  induction h using Relation.ReflTransGen.head_induction_on with
  | refl => exact ⟨1, by rw [runFrom_succ, hstop]⟩
  | head hstep _ ih =>
      obtain ⟨fuel, hrun⟩ := ih
      refine ⟨fuel + 1, ?_⟩
      rw [runFrom_succ, hstep]
      exact hrun

theorem runFrom_of_runs (h : m.Runs m₁) (hstop : advance m₁ = (false, m₂)) :
    ∀ {fuel : Nat}, runFrom fuel m = some m' → m' = m₂ := by
  induction h using Relation.ReflTransGen.head_induction_on with
  | refl =>
      intro fuel hrun
      cases fuel with
      | zero => cases hrun
      | succ fuel =>
          rw [runFrom_succ, hstop] at hrun
          exact (Option.some.inj hrun).symm
  | head hstep _ ih =>
      intro fuel hrun
      cases fuel with
      | zero => cases hrun
      | succ fuel =>
          rw [runFrom_succ, hstep] at hrun
          exact ih hrun

end Spool.Machine
