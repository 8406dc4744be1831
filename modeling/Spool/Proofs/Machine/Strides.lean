import Spool.Proofs.Machine.Moves
import Spool.Proofs.Machine.Run

/-!
# A running task as others see it

Each instruction of a task leaves the view of the machine alone, makes one of the moves a running task can make, or
parks the task. In the end the task waits, or it has come to its end with a value or with an error object.
-/

namespace Spool.Machine

variable {g : Outlook} {m m₁ m₂ : Machine} {t : TaskId} {α β : Type}

/-! ## Instructions -/

/-- An action that nobody notices, and then a flow. -/
theorem moves_flow {act : Act Machine α} (ha : Preserves m.Steady act) {k : α → Flow} (hk : ∀ a, k a ≠ .suspend) :
    Moves (· = Flow.suspend) (do return k (← act)) m :=
  moves_after ha fun a _ _ => moves_pure (hk a)

theorem moves_accept (hun : ¬ m.current.state.isFinished) (v : Value) : Moves (· = Flow.suspend) (accept (.value v)) m :=
  moves_flow (steady_lift (steady_setRegister hun v)) fun _ => by simp

theorem moves_yields (hun : ¬ m.current.state.isFinished) {act : Act Machine Value} (ha : Preserves m.Steady act) :
    Moves (· = Flow.suspend) (act >>= fun v => accept (.value v)) m :=
  moves_after ha fun v _ h => moves_accept (h.unfinished hun) v

/-- The register gets what a call has yielded. -/
theorem Moves.accept (hun : ¬ m.current.state.isFinished) {act : Act Machine Reply} (ha : Moves (· = Reply.parked) act m) :
    Moves (· = Flow.suspend) (act >>= Machine.accept) m := by
  refine ha.then hun fun reply m₁ hun₁ => ?_
  cases reply with
  | value v =>
      have hset := steady_setRegister hun₁ v m₁ (.refl m₁)
      simp only [Machine.accept, Act.wp_bind, Act.wp_lift, Act.wp_pure]
      exact ⟨hset, by simp⟩
  | parked => exact ⟨.refl m₁, by simp⟩

theorem moves_index (hun : ¬ m.current.state.isFinished) : Moves (· = Flow.suspend) index m := by
  unfold index
  refine moves_after steady_pop fun collection m₁ h₁ => moves_after steady_readRegister fun i m₂ h₂ => ?_
  refine moves_after (steady_fastIndex collection i) fun found m₃ h₃ => ?_
  have hun₃ := h₃.unfinished (h₂.unfinished (h₁.unfinished hun))
  split
  · exact moves_accept hun₃ _
  · refine moves_after (steady_getMember collection _) fun method m₄ h₄ => ?_
    exact (moves_call (h₄.unfinished hun₃) method i .result).accept (h₄.unfinished hun₃)

theorem moves_store (hun : ¬ m.current.state.isFinished) : Moves (· = Flow.suspend) store m := by
  unfold store
  refine moves_after steady_pop fun i m₁ h₁ => moves_after steady_pop fun collection m₂ h₂ => ?_
  refine moves_after steady_readRegister fun v m₃ h₃ => moves_after (steady_fastStore collection i v) fun stored m₄ h₄ => ?_
  have hun₄ := h₄.unfinished (h₃.unfinished (h₂.unfinished (h₁.unfinished hun)))
  split
  · exact moves_pure (by simp)
  · refine moves_after (steady_getMember collection _) fun method m₅ h₅ => ?_
    refine moves_after (steady_newTuple _) fun pair m₆ h₆ => ?_
    have hun₆ := h₆.unfinished (h₅.unfinished hun₄)
    refine (moves_call hun₆ method pair .keep).then hun₆ fun reply m₇ hun₇ => ?_
    have hset := steady_setRegister hun₇ v m₇ (.refl m₇)
    simp only [Act.wp_bind, Act.wp_lift]
    cases reply with
    | value w => exact ⟨hset, by simp⟩
    | parked => exact ⟨hset, by simp⟩

theorem moves_jumpWhen (truth : Bool) (position : Nat) (operand : Operand) :
    Moves (· = Flow.suspend) (jumpWhen truth position operand) m := by
  unfold jumpWhen
  refine moves_after steady_readRegister fun v m₁ _ => ?_
  split
  · exact moves_flow (steady_jumpTarget position operand) fun _ => by simp
  · exact moves_pure (by simp)

theorem moves_isA (hun : ¬ m.current.state.isFinished) (operand : Operand) :
    Moves (· = Flow.suspend) (do
      let v ← match operand with
        | .name _ => readRegister
        | _ => pop
      let c ← expectClass (← namedOr operand readRegister)
      (do return .ofBool ((← get).isInstance v c) : Act Machine Value) >>= fun v => accept (.value v)) m := by
  have hrest : ∀ (v : Value) (m₁ : Machine), ¬ m₁.current.state.isFinished → Moves (· = Flow.suspend) (do
      let c ← expectClass (← namedOr operand readRegister)
      (do return .ofBool ((← get).isInstance v c) : Act Machine Value) >>= fun v => accept (.value v)) m₁ := by
    intro v m₁ hun₁
    refine moves_after (steady_namedOr operand steady_readRegister) fun c m₂ h₂ => ?_
    refine moves_after (steady_expectClass c) fun c m₃ h₃ => ?_
    exact moves_yields (h₃.unfinished (h₂.unfinished hun₁)) (preserves_get fun _ _ => preserves_pure _)
  dsimp only
  split
  · exact moves_after steady_readRegister fun v m₁ h₁ => hrest v m₁ (h₁.unfinished hun)
  · exact moves_after steady_pop fun v m₁ h₁ => hrest v m₁ (h₁.unfinished hun)

theorem moves_binary (hun : ¬ m.current.state.isFinished) (op : Op) (operand : Operand) :
    Moves (· = Flow.suspend) (if operand.isNone then do
        let lhs ← pop
        (do binary op lhs (← readRegister)) >>= fun v => accept (.value v)
      else do
        let lhs ← readRegister
        (do binary op lhs (← operandValue operand)) >>= fun v => accept (.value v)) m := by
  split
  · refine moves_after steady_pop fun lhs m₁ h₁ => moves_yields (h₁.unfinished hun) ?_
    exact preserves_bind steady_readRegister fun rhs => steady_binary op lhs rhs
  · refine moves_after steady_readRegister fun lhs m₁ h₁ => moves_yields (h₁.unfinished hun) ?_
    exact preserves_bind (steady_operandValue operand) fun rhs => steady_binary op lhs rhs

theorem moves_raise : Moves (· = Flow.suspend) (do
    let v ← readRegister
    let m ← get
    if m.isInstance v .error then throw (.raised (← expectObject v "Error"))
    throw (.notAnError (m.typeName v))) m := by
  refine moves_after steady_readRegister fun v m₁ _ => moves_get ?_
  dsimp only
  split
  · exact moves_after (steady_expectObject v _) fun r m₂ _ => moves_after (preserves_throw _) fun _ _ _ => moves_throw _
  · exact moves_throw _

/-- An instruction parks the task if it says so, and else lets it go on. -/
theorem moves_step (hun : ¬ m.current.state.isFinished) (top : ContextId) (position : Nat) (i : Instruction) :
    Moves (· = Flow.suspend) (step top position i) m := by
  obtain ⟨op, operand⟩ := i
  have hname : Preserves m.Steady (nameOperand position operand) := steady_nameOperand position operand
  unfold step
  cases op with
  | nop => exact moves_pure (by simp)
  | load => exact moves_yields hun (steady_operandOr operand steady_pop)
  | push =>
      refine moves_after (steady_operandOr operand steady_readRegister) fun v m₁ _ => ?_
      exact moves_flow (steady_lift (steady_push v)) fun _ => by simp
  | peek => exact moves_yields hun (steady_peek _)
  | dup => exact moves_after (steady_peek 0) fun v m₁ _ => moves_flow (steady_lift (steady_push v)) fun _ => by simp
  | pushNone => exact moves_flow (steady_lift (steady_push _)) fun _ => by simp
  | clear => exact moves_accept hun _
  | setField =>
      refine moves_after hname fun name m₁ _ => moves_after steady_pop fun target m₂ _ => ?_
      exact moves_after steady_readRegister fun v m₃ _ => moves_flow (steady_setField target name v) fun _ => by simp
  | bind =>
      refine moves_after hname fun name m₁ _ => moves_after steady_readRegister fun v m₂ _ => ?_
      exact moves_flow (steady_bind name v) fun _ => by simp
  | assign =>
      refine moves_after hname fun name m₁ _ => moves_after steady_readRegister fun v m₂ _ => ?_
      exact moves_flow (steady_assign name v) fun _ => by simp
  | member =>
      refine moves_after hname fun name m₁ h₁ => moves_after steady_readRegister fun v m₂ h₂ => ?_
      exact moves_yields (h₂.unfinished (h₁.unfinished hun)) (steady_getMember v name)
  | memberPush =>
      refine moves_after hname fun name m₁ h₁ => moves_after steady_readRegister fun v m₂ h₂ => ?_
      refine moves_after (steady_getMember v name) fun w m₃ h₃ => moves_after (steady_lift (steady_push w)) fun _ m₄ h₄ => ?_
      exact moves_accept (h₄.unfinished (h₃.unfinished (h₂.unfinished (h₁.unfinished hun)))) w
  | call =>
      refine moves_after (steady_namedOr operand steady_pop) fun callee m₁ h₁ => ?_
      refine moves_after steady_readRegister fun v m₂ h₂ => ?_
      have hun₂ := h₂.unfinished (h₁.unfinished hun)
      exact (moves_call hun₂ callee v .result).accept hun₂
  | callBare =>
      refine moves_after (steady_namedOr operand steady_readRegister) fun callee m₁ h₁ => ?_
      exact (moves_call (h₁.unfinished hun) callee .none .result).accept (h₁.unfinished hun)
  | jump => exact moves_flow (steady_jumpTarget position operand) fun _ => by simp
  | jumpIf => exact moves_jumpWhen true position operand
  | jumpUnless => exact moves_jumpWhen false position operand
  | handler =>
      refine moves_after (steady_jumpTarget position operand) fun target m₁ _ => ?_
      exact moves_flow (steady_lift (steady_modifyContext top _)) fun _ => by simp
  | ret => exact moves_flow (preserves_discard (steady_returnValue hun operand)) fun _ => by simp
  | exit =>
      refine moves_after (steady_returnValue hun operand) fun v m₁ _ => ?_
      exact moves_flow (steady_lift fun s hs => hs.process (p := { s.process with exitValue := some v }) rfl rfl rfl)
        fun _ => by simp
  | openBlock => exact moves_flow (steady_lift (steady_openBlock top position)) fun _ => by simp
  | closeBlock => exact moves_flow (steady_closeBlock top position) fun _ => by simp
  | array => exact moves_yields hun (preserves_bind (steady_popMany _) fun vs => steady_newArray vs)
  | tuple => exact moves_yields hun (preserves_bind (steady_popMany _) fun vs => steady_newTuple vs)
  | index => exact moves_index hun
  | store => exact moves_store hun
  | element =>
      refine moves_after (steady_element operand) fun found m₁ h₁ => ?_
      split
      · exact moves_accept (h₁.unfinished hun) _
      · exact moves_throw _
  | elementOr =>
      refine moves_after (steady_element operand) fun found m₁ h₁ => ?_
      split
      · exact moves_accept (h₁.unfinished hun) _
      · exact moves_pure (by simp)
  | length =>
      refine moves_yields hun (preserves_bind (steady_peek 0) fun v => ?_)
      exact preserves_bind (steady_arguments v) fun _ => preserves_pure _
  | not => exact moves_yields hun (preserves_bind steady_readRegister fun _ => preserves_pure _)
  | inc => exact moves_flow (steady_increase hun .inc operand 1) fun _ => by simp
  | dec => exact moves_flow (steady_increase hun .dec operand (-1)) fun _ => by simp
  | isA => exact moves_isA hun operand
  | loadModule =>
      refine moves_after hname fun name m₁ h₁ => ?_
      exact (moves_loadModule (h₁.unfinished hun) name).accept (h₁.unfinished hun)
  | raise => exact moves_raise
  | wait => exact moves_after steady_readRegister fun v m₁ h₁ => (moves_wait v).accept (h₁.unfinished hun)
  | _ => exact moves_binary hun _ operand

/-! ## Coming to an end -/

/-- The running task has come to its end with a value, or with an error object. -/
def Ends (m m' : Machine) : Prop := ∃ (state : TaskState) (v : Value), state.Reaches v ∧
  m.Becomes { m.view with roster := m.view.roster.update m.task (·.conclude state v) } m'

theorem Steady.trans_ends (h : m.Steady m₁) (h' : m₁.Ends m₂) : m.Ends m₂ := by
  obtain ⟨state, v, hv, hend⟩ := h'
  rw [h.view, h.task] at hend
  exact ⟨state, v, hv, h.becomes.trans hend⟩

theorem becomes_modifyCurrent {f : Task → Task} {g : Standing → Standing} (m : Machine)
    (hf : ∀ task, m.process.tasks[m.task.index]? = some task → (f task).standing = g task.standing) :
    m.Becomes { m.view with roster := m.view.roster.update m.task g } (modifyCurrent f m).2 := by
  have hrow := Process.roster_modifyTask hf
  refine ⟨?_, fun _ hk => hk, fun ha => ha⟩
  simp only [view, ← hrow]
  rfl

theorem ends_complete (m : Machine) : m.Ends (complete m).2 := by
  refine ⟨.complete, m.register, .inl rfl, becomes_modifyCurrent m fun task ht => ?_⟩
  have hreg : m.register = task.register := by rw [register, current, Process.taskAt_of_getElem? ht]
  rw [hreg]
  rfl

/-- An action that carries an error outward: the task goes on unnoticed, or comes to its end. -/
def Unwinds (act : StateM Machine Bool) (m : Machine) : Prop :=
  ((act m).1 = true → m.Steady (act m).2) ∧ ((act m).1 = false → m.Ends (act m).2)

theorem unwinds_after {act : StateM Machine α} {k : α → StateM Machine Bool} (h : m.Steady (act m).2)
    (hk : Unwinds (k (act m).1) (act m).2) : Unwinds (act >>= k) m :=
  ⟨fun htrue => h.trans (hk.1 htrue), fun hfalse => h.trans_ends (hk.2 hfalse)⟩

theorem unwinds_unwindThrough (error : Handle) (cs : List ContextId) :
    ∀ m : Machine, ¬ m.current.state.isFinished → Unwinds (unwindThrough error cs) m := by
  induction cs with
  | nil =>
      intro m _
      refine ⟨fun h => (by cases h), fun _ => ?_⟩
      exact ⟨.error, .object error, .inr ⟨rfl, rfl⟩, becomes_modifyCurrent m fun _ _ => rfl⟩
  | cons c outer ih =>
      intro m hun
      unfold unwindThrough
      refine @unwinds_after m _ get _ (.refl m) ?_
      split
      · rename_i position _
        have h₁ := steady_modifyContext c (fun c => { c with error := none, handler := none, cursor := position }) m
          (.refl m)
        have h₂ := steady_modifyUnfinished hun (f := fun t => { t with contexts := c :: outer, register := .object error })
          (fun task h => by simp [Task.standing, h]) _ h₁
        exact ⟨fun _ => h₂, fun h => by cases h⟩
      · have h₁ := steady_modifyContext c (fun c => { c with error := none }) m (.refl m)
        have h₂ := steady_releaseContext c _ h₁
        exact unwinds_after h₂ (ih _ (h₂.unfinished hun))

/-! ## From one instruction to the next -/

/-- The task waits, or it has made a last move and come to its end. -/
def Stops (m m' : Machine) : Prop := m.Parks m' ∨ ∃ m₁, m.Stirs m₁ ∧ m₁.Ends m'

/-- An action of a running task, which goes on or stops. -/
def Strides (act : StateM Machine Bool) (m : Machine) : Prop :=
  ((act m).1 = true → m.Stirs (act m).2) ∧ ((act m).1 = false → m.Stops (act m).2)

theorem strides_after {act : StateM Machine α} {k : α → StateM Machine Bool} (h : m.Steady (act m).2)
    (hk : Strides (k (act m).1) (act m).2) : Strides (act >>= k) m := by
  refine ⟨fun htrue => h.trans_stirs (hk.1 htrue), fun hfalse => ?_⟩
  rcases hk.2 hfalse with hp | ⟨m₁, hs, he⟩
  · exact .inl (h.trans_parks hp)
  · exact .inr ⟨m₁, h.trans_stirs hs, he⟩

theorem strides_get {k : Machine → StateM Machine Bool} (hk : Strides (k m) m) : Strides (get >>= k) m := hk

theorem strides_true : Strides (pure true) m := ⟨fun _ => (Steady.refl m).stirs, fun h => by cases h⟩

theorem strides_complete : Strides (do complete; return false) m :=
  ⟨fun h => (by cases h), fun _ => .inr ⟨m, (Steady.refl m).stirs, ends_complete m⟩⟩

theorem Unwinds.strides {act : StateM Machine Bool} (h : Unwinds act m) : Strides act m :=
  ⟨fun htrue => (h.1 htrue).stirs, fun hfalse => .inr ⟨m, (Steady.refl m).stirs, h.2 hfalse⟩⟩

theorem Going.top?_ne_none (hm : m.Going g (some t)) : m.top? ≠ none := by
  have hctx : m.current.contexts ≠ [] := hm.current.2.taskAt.2
  obtain ⟨c, rest, hcs⟩ := List.exists_cons_of_ne_nil hctx
  simp [top?, Task.top?, hcs]

theorem Going.unfinished (hm : m.Going g (some t)) : ¬ m.current.state.isFinished := hm.current.2.taskAt.1

/-- A fault in a machine that is going is raised in a context of the task. -/
theorem Going.steady_raise (hm : m.Going g (some t)) (fault : Fault) : m.Steady (raise fault m).2 :=
  Machine.steady_raise fault (.refl m) (kept_errorObject hm fault).1.top?_ne_none

theorem strides_perform (hm : m.Going g (some t)) {top : ContextId} (htop : m.top? = some top) (position : Nat)
    (i : Instruction) : Strides (perform top position i) m := by
  have hgood := steps_step hm htop position i
  have hmove := moves_step hm.unfinished top position i
  have hcursor : ∀ (m₁ : Machine) (position : Nat), m₁.Steady (setCursor top position m₁).2 := fun m₁ position =>
    steady_setCursor top position m₁ (.refl m₁)
  unfold Steps Act.wp at hgood
  unfold Moves Act.wp at hmove
  unfold Strides
  rw [perform_eq]
  rcases hx : step top position i m with ⟨e | flow, m₁⟩
  · rw [hx] at hgood hmove
    exact ⟨fun _ => (hmove hgood.2).trans_steady (hgood.1.steady_raise e), fun h => by cases h⟩
  · rw [hx] at hmove
    cases flow with
    | next => exact ⟨fun _ => (hmove.1 (by simp)).trans_steady (hcursor m₁ _), fun h => by cases h⟩
    | jump target => exact ⟨fun _ => (hmove.1 (by simp)).trans_steady (hcursor m₁ _), fun h => by cases h⟩
    | stay => exact ⟨fun _ => hmove.1 (by simp), fun h => by cases h⟩
    | suspend => exact ⟨fun h => (by cases h), fun _ => .inl ((hmove.2 rfl).trans_steady (hcursor m₁ _))⟩
    | finished => exact ⟨fun h => (by cases h), fun _ => .inr ⟨m₁, hmove.1 (by simp), ends_complete m₁⟩⟩

theorem steady_safepoint (hm : m.Going g (some t)) : m.Steady (safepoint m).2 := by
  have hcol := hm.collectGarbage
  have hsteady := steady_collectGarbage m (.refl m)
  rw [safepoint_eq]
  cases (collectGarbage m).2.process.heap.overLimit? with
  | some fault => exact hsteady.trans (hcol.steady_raise fault)
  | none => exact hsteady

/-- One step of a running task. -/
theorem strides_advance (hm : m.Going g (some t)) : Strides advance m := by
  unfold advance
  refine strides_get ?_
  split
  · exact strides_complete
  · rename_i top htop
    dsimp only
    split
    · exact (unwinds_unwindThrough _ _ m hm.unfinished).strides
    · have hrest : ∀ m₁ : Machine, m₁.Going g (some t) → m₁.top? = some top → Strides (performNext m top) m₁ := by
        intro m₁ hm₁ htop₁
        unfold performNext
        split
        · exact strides_complete
        · exact strides_perform hm₁ htop₁ _ _
      split
      · obtain ⟨hgo, hsame⟩ := going_safepoint hm
        refine strides_after (steady_safepoint hm) ?_
        split
        · exact strides_true
        · rename_i hfalse
          exact hrest _ hgo (by rw [hsame (by simpa using hfalse)]; exact htop)
      · exact hrest m hm htop

/-- A task that is taken up again runs. -/
theorem becomes_resume (hm : m.Going g (some t)) :
    m.Becomes { m.view with roster := m.view.roster.update m.task Standing.wake } (resume m).2 := by
  have hwake := becomes_modifyCurrent (f := fun t => { t with state := .running, reason := .notWaiting })
    (g := Standing.wake) m fun _ _ => rfl
  have hgo := (kept_wake hm).1
  rw [resume_woken]
  generalize (modifyCurrent (fun t => { t with state := .running, reason := .notWaiting }) m).2.process.fault = stored
  cases stored with
  | none => exact hwake
  | some fault =>
      have hraise := (kept_clearFault hgo).1.steady_raise fault
      exact hwake.trans ⟨hraise.view.trans hwake.view, hraise.futures, hraise.async⟩

end Spool.Machine
