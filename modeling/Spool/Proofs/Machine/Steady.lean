import Spool.Machine.Call
import Spool.Machine.Run
import Spool.Proofs.Act
import Spool.Proofs.Heap.Copy
import Spool.Proofs.Heap.Futures
import Spool.Proofs.Machine.Parts
import Spool.Proofs.Process.Roster

/-!
# Actions that the scheduler does not notice

Most of what a running task does concerns values: its register, its stack, its contexts, the heap and the texts it
writes. None of that changes the roster of the process, the background pool or the other processes.
-/

namespace Spool.Machine

variable {m m₁ m₂ m₃ : Machine} {α β : Type}

/-- The scheduler cannot tell the machines apart. No future has been made, and no function has been lost. -/
structure Steady (m m' : Machine) : Prop where
  task : m'.task = m.task
  id : m'.process.id = m.process.id
  roster : m'.process.roster = m.process.roster
  pool : m'.host.pool = m.host.pool
  born : m'.host.born = m.host.born
  nursery : m'.host.nursery = m.host.nursery
  futures : ∀ T, m.process.heap.Knows T → m'.process.heap.Knows T
  async : m.host.registry.HasAsync → m'.host.registry.HasAsync

theorem Steady.refl (m : Machine) : m.Steady m := ⟨rfl, rfl, rfl, rfl, rfl, rfl, fun _ h => h, fun h => h⟩

theorem Steady.trans (h : m₁.Steady m₂) (h' : m₂.Steady m₃) : m₁.Steady m₃ where
  task := h'.task.trans h.task
  id := h'.id.trans h.id
  roster := h'.roster.trans h.roster
  pool := h'.pool.trans h.pool
  born := h'.born.trans h.born
  nursery := h'.nursery.trans h.nursery
  futures T hk := h'.futures T (h.futures T hk)
  async ha := h'.async (h.async ha)

/-- The process has changed in a way that its roster does not show, and has the heap it had. -/
theorem Steady.process (h : m.Steady m₁) {p : Process} (hid : p.id = m₁.process.id)
    (hr : p.roster = m₁.process.roster) (hh : p.heap = m₁.process.heap) :
    m.Steady { m₁ with process := p } :=
  h.trans ⟨rfl, hid, hr, rfl, rfl, rfl, fun _ hk => hh ▸ hk, fun ha => ha⟩

/-- The running task is as far as it was. -/
theorem Steady.state_current (h : m.Steady m₁) : m₁.current.state = m.current.state := by
  have hs : (m₁.process.taskAt m₁.task).standing = (m.process.taskAt m.task).standing := by
    rw [← Process.standingAt_roster, ← Process.standingAt_roster, h.roster, h.task]
  exact congrArg Standing.state hs

/-! ## Parts of the machine -/

theorem steady_onHeap {act : Act Heap α} (ha : ∀ T, Preserves (Heap.Knows T) act) : Preserves m.Steady (onHeap act) := by
  intro s hs
  exact hs.trans ⟨rfl, rfl, rfl, rfl, rfl, rfl, fun T hk => ha T _ hk, fun h => h⟩

theorem steady_look (f : Heap → Except Fault α) : Preserves m.Steady (look f) := fun _ h => h

theorem steady_lift {act : StateM Machine α} (ha : ∀ s, m.Steady s → m.Steady (act s).2) :
    Preserves m.Steady (liftM act : Act Machine α) := ha

theorem steady_allocate (c : ClassId) (payload : Payload) (hp : payload.external? = none) (s : Machine)
    (hs : m.Steady s) : m.Steady (allocate c payload s).2 :=
  hs.trans ⟨rfl, rfl, rfl, rfl, rfl, rfl, fun _ hk => hk.allocate c (by simp [hp]), fun h => h⟩

theorem steady_newObject (c : ClassId) (s : Machine) (hs : m.Steady s) : m.Steady (newObject c s).2 :=
  steady_allocate c _ (Copier.external?_seed _ c) s hs

theorem steady_newText (text : String) (s : Machine) (hs : m.Steady s) : m.Steady (newText text s).2 :=
  steady_allocate .string (.text text) rfl s hs

theorem steady_newArray (items : List Value) : Preserves m.Steady (newArray items) :=
  preserves_map (steady_onHeap fun _ => Heap.knows_createWith .array rfl rfl)

theorem steady_newTuple (items : List Value) : Preserves m.Steady (newTuple items) :=
  preserves_map (steady_onHeap fun _ => Heap.knows_createWith .tuple rfl rfl)

theorem steady_newHolder (c : ClassId) {payload : Payload} (hp : payload.external? = none) :
    Preserves m.Steady (newHolder c payload) :=
  preserves_bind (steady_lift (steady_newObject c)) fun r =>
    preserves_bind (steady_onHeap fun _ => Heap.knows_putPayload r (by simp [hp])) fun _ => preserves_pure _

theorem steady_reflect (key : Reflected) : Preserves m.Steady (reflect key) :=
  preserves_map (steady_onHeap fun _ => Heap.knows_reflect key)

theorem steady_moduleObject (module : ModuleId) : Preserves m.Steady (moduleObject module) :=
  steady_onHeap fun _ => Heap.knows_reflect _

theorem steady_setMember (r : Handle) (name : String) (v : Value) : Preserves m.Steady (onHeap (Heap.setMember r name v)) :=
  steady_onHeap fun _ => Heap.knows_setMember r name v

theorem steady_modifyContext (c : ContextId) (f : Context → Context) (s : Machine) (hs : m.Steady s) :
    m.Steady ((modifyProcess fun p => p.modifyContext c f) s).2 :=
  hs.process rfl rfl rfl

theorem steady_pin (c : ContextId) (s : Machine) (hs : m.Steady s) :
    m.Steady ((modifyProcess fun p => p.pin c) s).2 := by
  obtain ⟨contexts, heq⟩ := Process.pinFrom_eq s.process.contexts.size c s.process
  have : s.process.pin c = { s.process with contexts } := heq
  apply hs.process
  · simp only [this]
  · simp only [this]
    rfl
  · simp only [this]

theorem steady_releaseContext (c : ContextId) (s : Machine) (hs : m.Steady s) :
    m.Steady ((modifyProcess fun p => p.releaseContext c) s).2 := by
  obtain ⟨contexts, free, heq⟩ := Process.releaseContext_eq s.process c
  apply hs.process
  · simp only [heq]
  · simp only [heq]
    rfl
  · simp only [heq]

theorem steady_newBound (b : BoundFunction) : Preserves m.Steady (newBound b) := by
  have hnew : Preserves m.Steady (do
      let r ← newObject .functionRef
      discard <| onHeap (Heap.replacePayload r (.bound b))
      return .object r : Act Machine Value) := by
    refine preserves_bind (steady_lift (steady_newObject _)) fun r => ?_
    refine preserves_bind (preserves_discard (steady_onHeap fun T => Heap.knows_replacePayload r ?_)) fun _ =>
      preserves_pure _
    intro t ht
    cases hc : b.capture <;> simp [Payload.external?, hc] at ht
  unfold newBound
  split
  · exact preserves_bind (steady_lift (steady_pin _)) fun _ => hnew
  · exact hnew

theorem steady_collectGarbage (s : Machine) (hs : m.Steady s) : m.Steady (collectGarbage s).2 :=
  hs.trans ⟨rfl, rfl, rfl, rfl, rfl, rfl, fun _ hk => hk.collect _ _, fun h => h⟩

theorem steady_fetch (r : Handle) : Preserves m.Steady (fetch r) := steady_look _

theorem steady_expectObject (v : Value) (expected : String) : Preserves m.Steady (expectObject v expected) := by
  cases v with
  | object r => exact preserves_pure _
  | none => exact preserves_get fun _ _ => preserves_throw _
  | scalar s => exact preserves_get fun _ _ => preserves_throw _

theorem steady_onRegistry {act : Registry.Entry α} (ha : Preserves Registry.HasAsync act) :
    Preserves m.Steady (onRegistry act) := by
  intro s hs
  exact hs.trans ⟨rfl, rfl, rfl, rfl, rfl, rfl, fun _ hk => hk, fun h => ha _ h⟩

/-! ## The running task -/

/-- What a roster does not show of the running task. -/
theorem steady_modifyCurrent {f : Task → Task} (hf : ∀ task, (f task).standing = task.standing) (s : Machine)
    (hs : m.Steady s) : m.Steady (modifyCurrent f s).2 := by
  apply hs.process
  · rfl
  · exact Process.roster_modifyTask_frame fun task _ => hf task
  · rfl

theorem steady_push (v : Value) (s : Machine) (hs : m.Steady s) : m.Steady (push v s).2 :=
  steady_modifyCurrent (f := fun t => { t with stack := v :: t.stack }) (fun _ => rfl) s hs

theorem steady_pop : Preserves m.Steady pop := by
  unfold pop
  refine preserves_get fun s _ => ?_
  split
  · refine preserves_bind (steady_lift (steady_modifyCurrent fun _ => rfl)) fun _ => preserves_pure _
  · exact preserves_throw _

theorem steady_popMany (count : Nat) : Preserves m.Steady (popMany count) := by
  unfold popMany
  refine preserves_get fun s _ => ?_
  dsimp only
  split
  · exact preserves_bind (preserves_throw _) fun _ =>
      preserves_bind (steady_lift (steady_modifyCurrent fun _ => rfl)) fun _ => preserves_pure _
  · exact preserves_bind (steady_lift (steady_modifyCurrent fun _ => rfl)) fun _ => preserves_pure _

theorem steady_peek (depth : Nat) : Preserves m.Steady (peek depth) := by
  unfold peek
  refine preserves_get fun s _ => ?_
  split
  · exact preserves_pure _
  · exact preserves_throw _

/-- What a roster does not show of a task that is not finished. -/
theorem steady_modifyUnfinished (hun : ¬ m.current.state.isFinished) {f : Task → Task}
    (hf : ∀ task, ¬ task.state.isFinished → (f task).standing = task.standing) (s : Machine) (hs : m.Steady s) :
    m.Steady (modifyCurrent f s).2 := by
  apply hs.process
  · rfl
  · apply Process.roster_modifyTask_frame
    intro task ht
    apply hf
    rw [← Process.taskAt_of_getElem? ht, ← current, hs.state_current]
    exact hun
  · rfl

theorem steady_setRegister (hun : ¬ m.current.state.isFinished) (v : Value) (s : Machine) (hs : m.Steady s) :
    m.Steady (setRegister v s).2 :=
  steady_modifyUnfinished hun (fun task h => by simp [Task.standing, h]) s hs

/-! ## Names -/

theorem steady_moduleMember (module : ModuleId) (name : String) : Preserves m.Steady (moduleMember module name) := by
  unfold moduleMember
  refine preserves_bind (steady_moduleObject module) fun object => preserves_bind (steady_look _) fun v => ?_
  split
  · exact preserves_pure _
  · refine preserves_get fun s _ => ?_
    dsimp only
    split
    · split
      · exact preserves_bind (steady_newBound _) fun _ => preserves_pure _
      · exact preserves_bind (steady_reflect _) fun _ => preserves_pure _
    · split
      · exact preserves_bind (steady_reflect _) fun _ => preserves_pure _
      · exact preserves_pure _

theorem steady_receiverMember (receiver : Value) (name : String) : Preserves m.Steady (receiverMember receiver name) := by
  unfold receiverMember
  split
  · refine preserves_bind (steady_look _) fun v => ?_
    split
    · exact preserves_pure _
    · refine preserves_bind (steady_look _) fun c => preserves_get fun s _ => ?_
      split
      · exact preserves_bind (steady_newBound _) fun _ => preserves_pure _
      · exact preserves_pure _
  · exact preserves_pure _

theorem steady_resolve (name : String) : Preserves m.Steady (resolve name) := by
  unfold resolve
  refine preserves_get fun s _ => ?_
  split
  · exact preserves_throw _
  · dsimp only
    split
    · exact preserves_pure _
    · split
      · exact preserves_pure _
      · refine preserves_bind (steady_receiverMember _ name) fun v => ?_
        split
        · exact preserves_pure _
        · refine preserves_bind (steady_moduleMember _ name) fun v => ?_
          split
          · exact preserves_pure _
          · split
            · refine preserves_bind (steady_moduleMember _ name) fun v => ?_
              split
              · exact preserves_pure _
              · exact preserves_throw _
            · exact preserves_throw _

theorem steady_setLocal (c : ContextId) (name : String) (v : Value) (s : Machine) (hs : m.Steady s) :
    m.Steady (setLocal c name v s).2 :=
  steady_modifyContext c _ s hs

theorem steady_bind (name : String) (v : Value) : Preserves m.Steady (bind name v) := by
  unfold bind
  refine preserves_get fun s _ => ?_
  split
  · exact preserves_throw _
  · dsimp only
    split
    · exact preserves_bind (steady_moduleObject _) fun r => steady_setMember r name v
    · exact steady_lift (steady_setLocal _ name v)

theorem steady_assign (name : String) (v : Value) : Preserves m.Steady (assign name v) := by
  have hmodule : ∀ module : ModuleId, Preserves m.Steady (do
      let object ← moduleObject module
      if (← look fun h => h.member object name).isSome then
        onHeap (Heap.setMember object name v)
      else bind name v) := by
    intro module
    refine preserves_bind (steady_moduleObject module) fun r => preserves_bind (steady_look _) fun w => ?_
    split
    · exact steady_setMember r name v
    · exact steady_bind name v
  unfold assign
  refine preserves_get fun s _ => ?_
  split
  · exact preserves_throw _
  · dsimp only
    split
    · exact preserves_bind (steady_lift (steady_setLocal _ name v)) fun _ => preserves_pure _
    · split
      · refine preserves_bind (steady_look _) fun w => ?_
        split
        · exact preserves_bind (steady_setMember _ name v) fun _ => preserves_pure _
        · exact hmodule _
      · exact hmodule _

theorem steady_contentMember (r : Handle) (name : String) : Preserves m.Steady (contentMember r name) := by
  unfold contentMember
  refine preserves_bind (steady_fetch r) fun o => ?_
  split
  · exact preserves_pure _
  · split
    · exact steady_moduleMember _ name
    · refine preserves_get fun s _ => ?_
      split
      · exact preserves_bind (steady_reflect _) fun _ => preserves_pure _
      · exact preserves_pure _
    · exact preserves_pure _

theorem steady_getMember (target : Value) (name : String) : Preserves m.Steady (getMember target name) := by
  have hmethod : Preserves m.Steady (boundMethod target name) := by
    unfold boundMethod
    refine preserves_get fun s _ => ?_
    split
    · exact preserves_throw _
    · split
      · exact steady_newBound _
      · exact preserves_throw _
  unfold getMember
  split
  · refine preserves_bind (steady_contentMember _ name) fun v => ?_
    split
    · exact preserves_pure _
    · exact hmethod
  · exact hmethod

theorem steady_setField (target : Value) (name : String) (v : Value) : Preserves m.Steady (setMember target name v) :=
  preserves_bind (steady_expectObject target _) fun r => steady_setMember r name v

/-! ## Errors and futures -/

theorem steady_mapM {f : α → Act Machine β} (hf : ∀ a, Preserves m.Steady (f a)) (xs : List α) :
    Preserves m.Steady (xs.mapM f) := by
  induction xs with
  | nil => exact preserves_pure _
  | cons a rest ih =>
      rw [List.mapM_cons]
      exact preserves_bind (hf a) fun _ => preserves_bind ih fun _ => preserves_pure _

theorem steady_newTraceLine (line : TraceLine) : Preserves m.Steady (newTraceLine line) := by
  unfold newTraceLine
  refine preserves_bind (steady_lift (steady_newObject _)) fun r => ?_
  refine preserves_bind (steady_lift (steady_newText _)) fun module => ?_
  refine preserves_bind (steady_lift (steady_newText _)) fun function => ?_
  refine preserves_bind (steady_lift (steady_newText _)) fun text => ?_
  refine preserves_bind (steady_onHeap fun T => ?_) fun _ => preserves_pure _
  refine preserves_bind (Heap.knows_setMember r _ _) fun _ => preserves_bind (Heap.knows_setMember r _ _) fun _ => ?_
  refine preserves_bind (Heap.knows_setMember r _ _) fun _ => preserves_bind (Heap.knows_setMember r _ _) fun _ => ?_
  exact Heap.knows_setMember r _ _

theorem steady_newTrace : Preserves m.Steady newTrace :=
  preserves_get fun _ _ => preserves_bind (steady_mapM steady_newTraceLine _) fun _ => steady_newArray _

theorem steady_initError (r : Handle) (message : Value) : Preserves m.Steady (initError r message) := by
  unfold initError
  refine preserves_bind steady_newTrace fun trace => steady_onHeap fun T => ?_
  exact preserves_bind (Heap.knows_setMember r _ _) fun _ => Heap.knows_setMember r _ _

theorem steady_newError (message : String) (s : Machine) (hs : m.Steady s) : m.Steady (newError message s).2 :=
  steady_initError _ _ _ (steady_newText _ _ (steady_newObject _ s hs))

theorem steady_errorObject (fault : Fault) (s : Machine) (hs : m.Steady s) : m.Steady (errorObject fault s).2 := by
  unfold errorObject
  split
  · rename_i r
    change m.Steady ((if s.process.heap.isLive r then pure r else newError _ : StateM Machine Handle) s).2
    split
    · exact hs
    · exact steady_newError _ s hs
  · exact steady_newError _ s hs

/-- A task with a context takes note of the fault there. -/
theorem steady_raise (fault : Fault) {s : Machine} (hs : m.Steady s) (htop : (errorObject fault s).2.top? ≠ none) :
    m.Steady (raise fault s).2 := by
  have he := steady_errorObject fault s hs
  obtain ⟨c, hc⟩ := Option.ne_none_iff_exists'.1 htop
  rw [raise_eq, hc]
  exact steady_modifyContext c _ _ he

theorem steady_memoize (future : Handle) (t : TaskId) (v : Value) : Preserves m.Steady (memoize future t v) :=
  steady_onHeap fun _ => preserves_bind (Heap.knows_setMember future _ v) fun _ =>
    Heap.knows_putPayload future (by simp [Payload.external?])

theorem steady_futureOutcome (future : Handle) : Preserves m.Steady (futureOutcome future) := by
  unfold futureOutcome
  refine preserves_bind (steady_fetch future) fun o => ?_
  split
  · exact preserves_get fun _ _ => preserves_throw _
  · refine preserves_get fun s _ => ?_
    dsimp only
    split
    · exact preserves_pure _
    · split
      · exact preserves_bind (steady_memoize future _ _) fun _ => preserves_pure _
      · exact preserves_pure _

/-! ## Native functions -/

theorem steady_write (f : Host → Host) (hf : ∀ h : Host, (f h).registry = h.registry ∧ (f h).pool = h.pool ∧
    (f h).born = h.born ∧ (f h).nursery = h.nursery) (s : Machine) (hs : m.Steady s) : m.Steady (modifyHost f s).2 := by
  obtain ⟨hr, hp, hb, hn⟩ := hf s.host
  refine hs.trans ⟨rfl, rfl, rfl, hp, hb, hn, fun _ hk => hk, fun h => ?_⟩
  change (f s.host).registry.HasAsync
  rw [hr]
  exact h

theorem steady_asText (v : Value) : Preserves m.Steady (asText v) := by
  unfold asText
  refine preserves_get fun s _ => ?_
  split
  · exact preserves_pure _
  · exact steady_lift (steady_newText _)

theorem steady_concat (receiver argument : Value) : Preserves m.Steady (concat receiver argument) := by
  unfold concat
  refine preserves_get fun s _ => ?_
  split
  · exact steady_lift (steady_newText _)
  · exact preserves_throw _

theorem steady_length (v : Value) : Preserves m.Steady (length v) := by
  unfold length
  refine preserves_get fun s _ => ?_
  split
  · exact preserves_pure _
  · refine preserves_bind (steady_fetch _) fun o => ?_
    split
    · exact preserves_pure _
    · exact preserves_pure _
    · exact preserves_pure _
    · exact preserves_throw _
  · exact preserves_throw _

theorem steady_expectClass (v : Value) : Preserves m.Steady (expectClass v) := by
  unfold expectClass
  refine preserves_get fun s _ => ?_
  split
  · refine preserves_bind (steady_fetch _) fun o => ?_
    split
    · exact preserves_pure _
    · exact preserves_throw _
  · exact preserves_throw _

theorem functions_rebase {r r' : Registry} {c d : ClassId} (h : r.rebase c d = .ok r') : r'.functions = r.functions := by
  unfold Registry.rebase at h
  split at h
  · cases h
  · cases h
    rfl

theorem steady_setSuper (argument : Value) : Preserves m.Steady (setSuper argument) := by
  unfold setSuper
  refine preserves_bind (steady_expectObject _ _) fun r => preserves_bind (steady_fetch r) fun o => ?_
  split
  · refine preserves_bind (steady_expectClass _) fun c => preserves_bind (steady_expectClass _) fun d => ?_
    intro s hs
    change m.Steady (reparent c d s).2
    rw [reparent_eq]
    cases h : s.host.registry.rebase c d with
    | error e => exact hs
    | ok registry =>
        refine hs.trans ⟨rfl, rfl, rfl, rfl, rfl, rfl, fun _ hk => hk, fun ha => ?_⟩
        unfold Registry.HasAsync
        change ∃ f ∈ registry.functions, _
        rw [functions_rebase h]
        exact ha
  · exact preserves_get fun _ _ => preserves_throw _

theorem steady_errorNew (receiver argument : Value) : Preserves m.Steady (errorNew receiver argument) := by
  unfold errorNew
  refine preserves_bind (steady_expectObject _ _) fun r => ?_
  split
  · exact preserves_bind (steady_lift (steady_newText _)) fun _ => preserves_bind (steady_initError r _) fun _ =>
      preserves_pure _
  · exact preserves_bind (steady_asText _) fun _ => preserves_bind (steady_initError r _) fun _ => preserves_pure _

theorem steady_futureGet (receiver : Value) : Preserves m.Steady (futureGet receiver) := by
  unfold futureGet
  refine preserves_bind (steady_expectObject _ _) fun r => preserves_bind (steady_futureOutcome r) fun o => ?_
  split
  · exact preserves_pure _
  · exact preserves_throw _

theorem steady_taskState (t : TaskId) : Preserves m.Steady (taskState t) :=
  preserves_get fun _ _ => steady_lift (steady_newText _)

theorem steady_contextFunction (c : ContextId) : Preserves m.Steady (contextFunction c) := by
  unfold contextFunction
  refine preserves_get fun s _ => ?_
  split
  · exact steady_reflect _
  · exact preserves_pure _

theorem steady_newRemote (process : ProcessId) (argument : Value) : Preserves m.Steady (newRemote process argument) :=
  preserves_bind (steady_expectObject _ _) fun _ => steady_newHolder .remote rfl

theorem steady_receiverPayload (receiver : Value) (expected : String) :
    Preserves m.Steady (receiverPayload receiver expected) :=
  preserves_bind (steady_expectObject _ _) fun r => preserves_bind (steady_fetch r) fun _ => preserves_pure _

/-- Of the native functions, one alone starts something. -/
theorem steady_runNative (receiver argument : Value) {body : Native} (hb : body ≠ .processStart) :
    Preserves m.Steady (runNative receiver argument body) := by
  have hwrite : ∀ f : Host → Host, (∀ h : Host, (f h).registry = h.registry ∧ (f h).pool = h.pool ∧
      (f h).born = h.born ∧ (f h).nursery = h.nursery) →
      Preserves m.Steady (do modifyHost f; return .none : Act Machine Value) := fun f hf =>
    preserves_bind (steady_lift (steady_write f hf)) fun _ => preserves_pure _
  have hpayload : ∀ (expected : String) (k : Payload → Act Machine Value), (∀ p, Preserves m.Steady (k p)) →
      Preserves m.Steady (receiverPayload receiver expected >>= k) := fun expected k hk =>
    preserves_bind (steady_receiverPayload receiver expected) hk
  cases body with
  | print => exact preserves_get fun _ _ => hwrite _ fun _ => ⟨rfl, rfl, rfl, rfl⟩
  | println => exact preserves_get fun _ _ => hwrite _ fun _ => ⟨rfl, rfl, rfl, rfl⟩
  | errorln => exact preserves_get fun _ _ => hwrite _ fun _ => ⟨rfl, rfl, rfl, rfl⟩
  | str => exact steady_asText argument
  | len => exact steady_length argument
  | setSuper => exact steady_setSuper argument
  | remote => exact preserves_get fun _ _ => steady_newRemote _ argument
  | currentTask => exact preserves_get fun _ _ => steady_newHolder .task rfl
  | currentContext =>
      refine preserves_get fun s _ => ?_
      split
      · exact preserves_bind (steady_lift (steady_pin _)) fun _ => steady_newHolder .context rfl
      · exact preserves_pure _
  | ownLen => exact steady_length receiver
  | concat => exact steady_concat receiver argument
  | arrayPush =>
      refine preserves_bind (steady_expectObject _ _) fun r => ?_
      exact preserves_bind (steady_onHeap fun _ => Heap.knows_arrayPush r argument) fun _ => preserves_pure _
  | arrayPop =>
      refine preserves_bind (steady_expectObject _ _) fun r => ?_
      refine preserves_bind (steady_onHeap fun _ => Heap.knows_arrayPop r) fun v => ?_
      split
      · exact preserves_pure _
      · exact preserves_throw _
  | errorNew => exact steady_errorNew receiver argument
  | futureIsComplete =>
      refine preserves_bind (steady_expectObject _ _) fun r => ?_
      exact preserves_bind (steady_futureOutcome r) fun _ => preserves_pure _
  | futureGet => exact steady_futureGet receiver
  | taskId =>
      refine hpayload _ _ fun p => ?_
      split <;> exact preserves_pure _
  | taskState =>
      refine hpayload _ _ fun p => ?_
      split
      · exact steady_taskState _
      · exact preserves_pure _
  | contextModule =>
      refine hpayload _ _ fun p => ?_
      split
      · exact preserves_get fun _ _ => steady_reflect _
      · exact preserves_pure _
  | contextFunction =>
      refine hpayload _ _ fun p => ?_
      split
      · exact steady_contextFunction _
      · exact preserves_pure _
  | processNew =>
      refine preserves_bind (steady_expectObject _ _) fun r => ?_
      exact preserves_bind (steady_setMember r _ argument) fun _ => preserves_pure _
  | processStart => exact absurd rfl hb
  | processNumber =>
      refine hpayload _ _ fun p => ?_
      split <;> exact preserves_pure _
  | pair => exact steady_newTuple _
  | lost => exact steady_newRemote _ argument
  | collect => exact preserves_bind (steady_lift steady_collectGarbage) fun _ => preserves_pure _

theorem steady_instantiate (c : ClassId) : Preserves m.Steady (instantiate c) := by
  unfold instantiate
  refine preserves_bind (steady_lift (steady_newObject c)) fun r => preserves_get fun s _ => ?_
  refine preserves_bind (preserves_forIn (fun name _ => ?_) _ _) fun _ => preserves_pure _
  refine preserves_bind (steady_look _) fun v => ?_
  split
  · exact preserves_bind (steady_setMember r name .none) fun _ => preserves_pure _
  · exact preserves_pure _

/-! ## Instructions -/

theorem steady_jumpTarget (position : Nat) (operand : Operand) : Preserves m.Steady (jumpTarget position operand) := by
  unfold jumpTarget
  dsimp only
  split
  · split
    · exact preserves_throw _
    · exact preserves_pure _
  · exact preserves_throw _

theorem steady_nameOperand (position : Nat) (operand : Operand) : Preserves m.Steady (nameOperand position operand) := by
  unfold nameOperand
  split
  · exact preserves_pure _
  · exact preserves_throw _

theorem steady_operandValue (operand : Operand) : Preserves m.Steady (operandValue operand) := by
  cases operand with
  | none => exact preserves_pure _
  | scalar s => exact preserves_pure _
  | text s => exact steady_lift (steady_newText s)
  | name name => exact steady_resolve name

theorem steady_operandOr (operand : Operand) {other : Act Machine Value} (ho : Preserves m.Steady other) :
    Preserves m.Steady (operandOr operand other) := by
  unfold operandOr
  split
  · exact ho
  · exact steady_operandValue operand

theorem steady_namedOr (operand : Operand) {other : Act Machine Value} (ho : Preserves m.Steady other) :
    Preserves m.Steady (namedOr operand other) := by
  unfold namedOr
  split
  · exact steady_resolve _
  · exact ho

theorem steady_readRegister : Preserves m.Steady readRegister := preserves_get fun _ _ => preserves_pure _

theorem steady_textOperator (op : Op) (lhs rhs : Value) : Preserves m.Steady (textOperator op lhs rhs) := by
  unfold textOperator
  refine preserves_get fun s _ => ?_
  dsimp only
  split
  · split
    · exact steady_lift (steady_newText _)
    · split
      · exact preserves_pure _
      · exact preserves_throw _
  · exact preserves_throw _

theorem steady_binary (op : Op) (lhs rhs : Value) : Preserves m.Steady (binary op lhs rhs) := by
  unfold binary
  refine preserves_get fun s _ => ?_
  split
  · exact preserves_pure _
  · split
    · exact preserves_mk _
    · exact steady_textOperator op lhs rhs

theorem steady_fastIndex (collection index : Value) : Preserves m.Steady (fastIndex collection index) := by
  unfold fastIndex
  split
  · refine preserves_bind (steady_fetch _) fun o => ?_
    split
    · exact preserves_map (steady_look _)
    · exact preserves_map (steady_look _)
    · exact preserves_map (preserves_mk _)
    · exact preserves_pure _
  · exact preserves_pure _

theorem steady_slotSet (r : Handle) (i : Int64) (v : Value) : Preserves m.Steady (onHeap (Heap.slotSet r i v)) :=
  steady_onHeap fun _ => Heap.knows_slotSet r i v

theorem steady_fastStore (collection index v : Value) : Preserves m.Steady (fastStore collection index v) := by
  unfold fastStore
  split
  · refine preserves_bind (steady_fetch _) fun o => ?_
    split
    · exact preserves_bind (steady_slotSet _ _ v) fun _ => preserves_pure _
    · exact preserves_bind (steady_slotSet _ _ v) fun _ => preserves_pure _
    · exact preserves_pure _
  · exact preserves_pure _

theorem steady_arguments (v : Value) : Preserves m.Steady (arguments v) := by
  unfold arguments
  split
  · exact preserves_pure _
  · exact preserves_bind (steady_fetch _) fun _ => preserves_pure _
  · exact preserves_pure _

theorem steady_element (operand : Operand) : Preserves m.Steady (element operand) :=
  preserves_bind (steady_peek 0) fun v => preserves_bind (steady_arguments v) fun _ => preserves_pure _

theorem steady_newContext (x : Context) (s : Machine) (hs : m.Steady s) :
    m.Steady ((updateProcess fun p => p.newContext x) s).2 := by
  obtain ⟨contexts, free, heq⟩ := Process.newContext_frame s.process x
  have hrun : ((updateProcess fun p => p.newContext x) s).2 = { s with process := (s.process.newContext x).2 } := rfl
  rw [hrun, heq]
  exact hs.process rfl rfl rfl

theorem steady_openBlock (top : ContextId) (position : Nat) (s : Machine) (hs : m.Steady s) :
    m.Steady (openBlock top position s).2 := by
  unfold openBlock
  refine steady_modifyCurrent (f := fun t => { t with contexts := _ :: t.contexts }) (fun _ => rfl) _ ?_
  exact steady_newContext _ s hs

theorem steady_setCursor (c : ContextId) (position : Nat) (s : Machine) (hs : m.Steady s) :
    m.Steady (setCursor c position s).2 :=
  steady_modifyContext c _ s hs

theorem steady_closeBlock (top : ContextId) (position : Nat) : Preserves m.Steady (closeBlock top position) := by
  unfold closeBlock
  refine preserves_get fun s _ => ?_
  split
  · refine preserves_bind (steady_lift (steady_modifyCurrent fun _ => rfl)) fun _ => ?_
    exact preserves_bind (steady_lift (steady_releaseContext top)) fun _ => steady_lift (steady_setCursor _ _)
  · exact preserves_throw _

section
variable (hun : ¬ m.current.state.isFinished)
include hun

theorem steady_increase (op : Op) (operand : Operand) (delta : Int64) :
    Preserves m.Steady (increase op operand delta) := by
  unfold increase
  refine preserves_bind (steady_namedOr operand steady_readRegister) fun old => ?_
  split
  · refine preserves_bind (preserves_mk _) fun s => ?_
    dsimp only
    split
    · exact preserves_bind (steady_assign _ _) fun _ => steady_lift (steady_setRegister hun _)
    · exact steady_lift (steady_setRegister hun _)
  · exact preserves_get fun _ _ => preserves_throw _

theorem steady_returnValue (operand : Operand) : Preserves m.Steady (returnValue operand) :=
  preserves_bind (steady_operandOr operand steady_readRegister) fun v =>
    preserves_bind (steady_lift (steady_setRegister hun v)) fun _ => preserves_pure _

end

end Spool.Machine
