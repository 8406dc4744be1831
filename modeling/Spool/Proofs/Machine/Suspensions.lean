import Spool.Proofs.Machine.Conduct

/-!
# What a call leaves behind

A call that leaves its caller waiting has started a task for a function, found one at work, or handed a call to the
background pool. The caller is on the list of that task, with a note whether its register is to get the result.
-/

namespace Spool

/-- The function that an object with this payload stands for. -/
def Payload.function? : Payload → Option FunctionId
  | ofFunction f => some f
  | bound b => some b.function
  | _ => Option.none

namespace Process

variable {p p' : Process} {x y : TaskId} {module : ModuleId}

/-- The module is ready for the task, or the task is at work for the one that runs the top level of the module. -/
def Imported (p : Process) (x : TaskId) (module : ModuleId) : Prop :=
  p.modules.get? module = some .ready ∨ ∃ y, p.modules.get? module = some (.initializing y) ∧ y ∈ p.ancestry x

theorem ancestryFrom_congr (h : ∀ t, (p'.taskAt t).parent = (p.taskAt t).parent) (fuel : Nat) (x : TaskId) :
    p'.ancestryFrom fuel x = p.ancestryFrom fuel x := by
  induction fuel generalizing x with
  | zero => rfl
  | succ fuel ih =>
      simp only [ancestryFrom, h]
      cases (p.taskAt x).parent with
      | none => rfl
      | some parent => simp [ih]

theorem Imported.modifyTask (h : p.Imported x module) (t : TaskId) {f : Task → Task} (hf : ∀ t, (f t).parent = t.parent) :
    (p.modifyTask t f).Imported x module := by
  have hancestry : (p.modifyTask t f).ancestry x = p.ancestry x := by
    have hsize : (p.modifyTask t f).tasks.size = p.tasks.size := by simp [Process.modifyTask]
    unfold ancestry
    rw [hsize]
    refine ancestryFrom_congr (fun y => ?_) _ x
    rw [taskAt_modifyTask]
    split
    · exact hf _
    · rfl
  exact h.imp_right fun h => h.imp fun y hy => ⟨hy.1, hancestry ▸ hy.2⟩

end Process

namespace Machine

variable {m m₁ m₂ m' n : Machine} {α β : Type} {x y : TaskId} {f : FunctionId} {delivery : Delivery}

/-- A task of this machine does the work of a function: it runs the instructions, or stands for a background call. -/
inductive WorksAt (m : Machine) (y : TaskId) (f : FunctionId) : Prop where
  | user (start : Nat) (c : ContextId) : (m.host.registry.functionAt f).kind = .user start →
      (m.process.taskAt y).contexts = [c] → (m.process.contextAt c).function = some f →
      (m.process.contextAt c).cursor = start → WorksAt m y f
  | background (body : Background) (pool : Pool BackgroundCall) (call : BackgroundCall) :
      (m.host.registry.functionAt f).kind = .background body → m.host.pool = pool.submit call →
      call.process = m.process.id → call.carrier = y → call.body = body → WorksAt m y f

/-- The running task is parked, and on the list of a task. -/
structure WaitsFor (m : Machine) (y : TaskId) (delivery : Delivery) : Prop where
  waiting : m.current.state = .waiting
  listed : ⟨m.task, delivery⟩ ∈ (m.process.taskAt y).dependents

/-- What the running task waits for: `y` was not there in the machine `n`. -/
structure WaitsForNew (n m : Machine) (y : TaskId) (delivery : Delivery) (f : FunctionId) : Prop where
  waits : m.WaitsFor y delivery
  works : m.WorksAt y f
  new : n.process.tasks.size ≤ y.index
  lt : y.index < m.process.tasks.size

/-- How a call of an object with this payload leaves its caller waiting. A constructor keeps the new object ready. -/
inductive Calls (n m : Machine) (delivery : Delivery) (y : TaskId) : Payload → Delivery → Prop where
  | function (payload : Payload) (f : FunctionId) : payload.function? = some f → n.WaitsForNew m y delivery f →
      Calls n m delivery y payload delivery
  | object (c : ClassId) (r : Handle) (f : FunctionId) : (instantiate c n).1 = .ok r →
      m.host.registry.findMethod? c "new" = some f → n.WaitsForNew m y .keep f → m.register = .object r →
      Calls n m delivery y (.ofClass c) .keep

theorem delivery_eq_of_calls {payload : Payload} {d : Delivery} (h : Calls n m delivery y payload d) :
    d = delivery ∨ d = .keep := by
  cases h with
  | function => exact .inl rfl
  | object => exact .inr rfl

theorem waitsFor_of_calls {payload : Payload} {d : Delivery} (h : Calls n m delivery y payload d) : m.WaitsFor y d := by
  cases h with
  | function _ _ _ h => exact h.waits
  | object _ _ _ _ _ h => exact h.waits

/-! ## Waiting -/

/-- The machine once its task waits. -/
def awaiting (m : Machine) (y : TaskId) (delivery : Delivery) (reason : WaitReason) : Machine :=
  { m with process := (m.process.modifyTask y fun t => t.addDependent m.task delivery).park m.task reason }

theorem does_awaiting (m : Machine) (y : TaskId) (delivery : Delivery) (reason : WaitReason) :
    m.Does (m.awaiting y delivery reason) := by
  have hlist : m.Stroke { m with process := m.process.modifyTask y fun t => t.addDependent m.task delivery } :=
    .list y delivery
  have hpark := Stroke.own (m := { m with process := m.process.modifyTask y fun t => t.addDependent m.task delivery })
    (·.park reason) fun _ => ⟨_, _, _, _, rfl⟩
  exact (hlist.does.tail hpark).tail (.books _ rfl rfl rfl rfl rfl rfl fun _ h => h)

theorem behaves_await (y : TaskId) (delivery : Delivery) (reason : WaitReason) :
    Behaves (liftM (await y delivery reason) : Act Machine Reply) m fun reply m' =>
      reply = .parked ∧ m' = m.awaiting y delivery reason :=
  behaves_lift (does_awaiting m y delivery reason) ⟨rfl, rfl⟩

theorem taskAt_awaiting (m : Machine) (y t : TaskId) (delivery : Delivery) (reason : WaitReason) :
    (m.awaiting y delivery reason).process.taskAt t =
      if m.task = t ∧ t.index < m.process.tasks.size then
        ((m.process.modifyTask y fun t => t.addDependent m.task delivery).taskAt t).park reason
      else (m.process.modifyTask y fun t => t.addDependent m.task delivery).taskAt t := by
  have hpark := Process.taskAt_modifyTask (m.process.modifyTask y fun t => t.addDependent m.task delivery) m.task
    (·.park reason) t
  rw [show (m.process.modifyTask y fun t => t.addDependent m.task delivery).tasks.size = m.process.tasks.size by
    simp [Process.modifyTask]] at hpark
  exact hpark

theorem size_awaiting (m : Machine) (y : TaskId) (delivery : Delivery) (reason : WaitReason) :
    (m.awaiting y delivery reason).process.tasks.size = m.process.tasks.size := by
  simp [awaiting, Process.park, Process.modifyTask]

theorem waitsFor_awaiting (ht : m.task.index < m.process.tasks.size) (hy : y.index < m.process.tasks.size)
    (delivery : Delivery) (reason : WaitReason) : (m.awaiting y delivery reason).WaitsFor y delivery := by
  constructor
  · have hat := taskAt_awaiting m y m.task delivery reason
    rw [if_pos ⟨rfl, ht⟩] at hat
    exact congrArg Task.state hat
  · have hlist : ⟨m.task, delivery⟩ ∈
        ((m.process.modifyTask y fun t => t.addDependent m.task delivery).taskAt y).dependents := by
      rw [Process.taskAt_modifyTask, if_pos ⟨rfl, hy⟩]
      simp [Task.addDependent]
    change ⟨m.task, delivery⟩ ∈ ((m.awaiting y delivery reason).process.taskAt y).dependents
    rw [taskAt_awaiting]
    split
    · exact hlist
    · exact hlist

/-- Waiting leaves stacks and registers alone. -/
theorem contexts_awaiting (m : Machine) (y t : TaskId) (delivery : Delivery) (reason : WaitReason) :
    ((m.awaiting y delivery reason).process.taskAt t).contexts = (m.process.taskAt t).contexts ∧
      ((m.awaiting y delivery reason).process.taskAt t).register = (m.process.taskAt t).register := by
  have hlist : ((m.process.modifyTask y fun t => t.addDependent m.task delivery).taskAt t).contexts
        = (m.process.taskAt t).contexts ∧
      ((m.process.modifyTask y fun t => t.addDependent m.task delivery).taskAt t).register
        = (m.process.taskAt t).register := by
    rw [Process.taskAt_modifyTask]
    split <;> exact ⟨rfl, rfl⟩
  rw [taskAt_awaiting]
  split
  · exact hlist
  · exact hlist

theorem WorksAt.awaiting (h : m.WorksAt y f) (z : TaskId) (delivery : Delivery) (reason : WaitReason) :
    (m.awaiting z delivery reason).WorksAt y f := by
  cases h with
  | user start c hkind hcs hfunction hcursor =>
      refine .user start c hkind ?_ hfunction hcursor
      rw [(contexts_awaiting m z y delivery reason).1]
      exact hcs
  | background body pool call hkind hpool hid hcarrier hbody =>
      exact .background body pool call hkind hpool hid hcarrier hbody

theorem taskAt_setRegister (v : Value) (m : Machine) (t : TaskId) : (setRegister v m).2.process.taskAt t =
    if m.task = t ∧ t.index < m.process.tasks.size then { m.process.taskAt t with register := v } else m.process.taskAt t :=
  Process.taskAt_modifyTask m.process m.task (fun t => { t with register := v }) t

theorem size_setRegister (v : Value) (m : Machine) : (setRegister v m).2.process.tasks.size = m.process.tasks.size := by
  change (m.process.modifyTask m.task fun t => { t with register := v }).tasks.size = _
  simp [Process.modifyTask]

theorem register_setRegister (ht : m.task.index < m.process.tasks.size) (v : Value) : (setRegister v m).2.register = v := by
  have hat := taskAt_setRegister v m m.task
  rw [if_pos ⟨rfl, ht⟩] at hat
  exact congrArg Task.register hat

theorem does_setRegister (v : Value) (m : Machine) : m.Does (setRegister v m).2 :=
  does_modifyCurrent (f := fun t => { t with register := v }) (fun _ => ⟨_, _, _, _, rfl⟩) m

/-- What the running task does with its own register does not concern those it waits for. -/
theorem worksAt_setRegister (h : m.WorksAt y f) (v : Value) : (setRegister v m).2.WorksAt y f := by
  cases h with
  | user start c hkind hcs hfunction hcursor =>
      refine .user start c hkind ?_ hfunction hcursor
      rw [taskAt_setRegister]
      split
      · exact hcs
      · exact hcs
  | background body pool call hkind hpool hid hcarrier hbody =>
      exact .background body pool call hkind hpool hid hcarrier hbody

theorem waitsFor_setRegister (h : m.WaitsFor y delivery) (v : Value) : (setRegister v m).2.WaitsFor y delivery := by
  constructor
  · change ((setRegister v m).2.process.taskAt m.task).state = .waiting
    rw [taskAt_setRegister]
    split
    · exact h.waiting
    · exact h.waiting
  · change ⟨m.task, delivery⟩ ∈ ((setRegister v m).2.process.taskAt y).dependents
    rw [taskAt_setRegister]
    split
    · exact h.listed
    · exact h.listed

/-! ## Calls -/

theorem does_enqueue (t : TaskId) (m : Machine) : m.Does (enqueue t m).2 :=
  (Stroke.books (m.process.enqueue t) rfl rfl rfl rfl rfl rfl (by simp +contextual [Process.enqueue])).does

theorem startCall_eq (b : BoundFunction) (start : Nat) (argument : Value) (m : Machine) :
    startCall b start argument m = (⟨m.process.tasks.size⟩,
      { m with process :=
        (m.process.startCall m.host.registry b start argument (some m.task)).2.enqueue ⟨m.process.tasks.size⟩ }) :=
  rfl

theorem does_startCall {b : BoundFunction} {start : Nat} (argument : Value)
    (hs : (m.host.registry.functionAt b.function).kind = .user start)
    (hb : ∀ c, b.capture = some c → m.process.heap.Captures c) : m.Does (startCall b start argument m).2 := by
  rw [startCall_eq]
  exact (Stroke.call b start argument hs hb).does.trans (does_enqueue ⟨m.process.tasks.size⟩
    { m with process := (m.process.startCall m.host.registry b start argument (some m.task)).2 })

theorem worksAt_startCall (ha : m.process.Arena []) {b : BoundFunction} {start : Nat} (argument : Value)
    (hs : (m.host.registry.functionAt b.function).kind = .user start) :
    (startCall b start argument m).2.WorksAt ⟨m.process.tasks.size⟩ b.function := by
  obtain ⟨c, _, htask, hcontext, _⟩ := ha.started (some m.task) argument (fun task =>
    { task
      kind := .function
      previous := b.capture
      receiver := b.receiver
      module := (m.host.registry.functionAt b.function).module
      function := some b.function
      cursor := start }) rfl
  rw [startCall_eq]
  exact .user start c hs (congrArg Task.contexts htask) (congrArg Context.function hcontext)
    (congrArg Context.cursor hcontext)

/-- A function of the program starts in a task of its own. -/
theorem behaves_startCall (ha : m.process.Arena []) {b : BoundFunction} {start : Nat} (argument : Value)
    (hs : (m.host.registry.functionAt b.function).kind = .user start)
    (hb : ∀ c, b.capture = some c → m.process.heap.Captures c) :
    Behaves (liftM (startCall b start argument) : Act Machine TaskId) m fun t m' =>
      t = ⟨m.process.tasks.size⟩ ∧ m'.process.tasks.size = m.process.tasks.size + 1 ∧ m'.WorksAt t b.function ∧
        m'.host = m.host := by
  refine behaves_lift (does_startCall argument hs hb) ⟨rfl, ?_, worksAt_startCall ha argument hs, rfl⟩
  rw [startCall_eq]
  exact size_startCall m.process m.host.registry b start argument (some m.task)

theorem behaves_newCarrier : Behaves (liftM newCarrier : Act Machine TaskId) m fun t m' =>
    t = ⟨m.process.tasks.size⟩ ∧ m'.process.tasks.size = m.process.tasks.size + 1 ∧ m'.host = m.host ∧
      (m'.process.taskAt t).contexts = [] := by
  refine behaves_lift Stroke.carry.does ⟨rfl, ?_, rfl, Process.contexts_newCarrier _ _⟩
  change (m.process.newCarrier m.task).2.tasks.size = _
  simp [Process.newCarrier, Process.newTask, Process.park]

theorem behaves_hold (v : Value) : Behaves (hold v) m fun _ m' =>
    ∃ h, m' = { m with process := { m.process with heap := h } } := by
  cases v with
  | none => exact behaves_pure ⟨_, rfl⟩
  | scalar s => exact behaves_pure ⟨_, rfl⟩
  | object r =>
      refine (behaves_onHeap (Heap.each_root r) (not_malformed_of_staleOnly (Heap.staleOnly_root r) _)).bind ?_
      rintro _ _ ⟨h, rfl⟩
      exact behaves_pure ⟨h, rfl⟩

theorem does_submit (call : BackgroundCall) (m : Machine) : m.Does (submit call m).2 := by
  have hcount : m.Stroke { m with process := { m.process with inFlight := m.process.inFlight + 1 } } :=
    .books _ rfl rfl rfl rfl rfl rfl fun _ h => h
  exact hcount.does.tail (.host { m.host with pool := m.host.pool.submit call } (.refl _) fun _ hc => .inl hc)

/-- A task that has just been made is waited for. -/
theorem waitsForNew_awaiting (hn : n.process.tasks.size ≤ y.index) (hy : y.index < m.process.tasks.size)
    (ht : m.task.index < m.process.tasks.size) (hw : m.WorksAt y f) (delivery : Delivery) (reason : WaitReason) :
    n.WaitsForNew (m.awaiting y delivery reason) y delivery f := by
  refine ⟨waitsFor_awaiting ht hy delivery reason, hw.awaiting y delivery reason, hn, ?_⟩
  rw [size_awaiting]
  exact hy

section
variable (ht : m.task.index < m.process.tasks.size)
include ht

/-- The call is in the pool, and a carrier stands for it. -/
theorem behaves_launchBackground (async : Bool) (body : Background) (receiver argument : Value) (delivery : Delivery)
    (hf : (m.host.registry.functionAt f).kind = .background body) :
    Behaves (launchBackground async body receiver argument delivery) m fun reply m' =>
      reply = .parked → ∃ y, m.WaitsForNew m' y delivery f := by
  unfold launchBackground
  refine behaves_newCarrier.then ?_
  rintro carrier m₁ hd ⟨rfl, hsize, hhost, hbare⟩
  have hm₁ : m₁.task.index < m₁.process.tasks.size := (task_does hd) ▸ Nat.lt_of_lt_of_le ht (size_does hd)
  refine (behaves_hold receiver).bind ?_
  rintro first _ ⟨h₁, rfl⟩
  refine (behaves_hold argument).bind ?_
  rintro second _ ⟨h₂, rfl⟩
  refine behaves_get ?_
  refine Behaves.bind (behaves_lift (does_submit _ _) (P := fun _ m' => m' = (submit _ _).2) rfl) ?_
  rintro _ _ rfl
  split
  · refine (behaves_newFuture ?_).bind fun _ _ _ => behaves_pure nofun
    exact .inl hbare
  · refine (behaves_await _ _ _).mono ?_
    rintro _ _ ⟨-, rfl⟩ -
    refine ⟨⟨m.process.tasks.size⟩, waitsForNew_awaiting (Nat.le_refl _) ?_ ?_ ?_ _ _⟩
    · exact hsize ▸ Nat.lt_succ_self _
    · exact hm₁
    · exact .background body m₁.host.pool _ (hhost ▸ hf) rfl rfl rfl rfl

theorem behaves_invoke (ha : m.process.Arena []) {b : BoundFunction} (hb : ∀ c, b.capture = some c → m.process.heap.Captures c)
    (argument : Value) (delivery : Delivery) :
    Behaves (invoke b argument delivery) m fun reply m' =>
      reply = .parked → ∃ y, m.WaitsForNew m' y delivery b.function := by
  unfold invoke
  refine behaves_get ?_
  dsimp only
  split
  · exact (decent_runNative _ _ _ m).bind fun _ _ _ => behaves_pure nofun
  · rename_i body hkind
    exact behaves_launchBackground ht _ body _ _ delivery hkind
  · rename_i start hkind
    refine (behaves_startCall ha argument hkind hb).then ?_
    rintro t m₁ hd ⟨rfl, hsize, hworks, hhost⟩
    split
    · rename_i hasync
      exact (behaves_newFuture (.inr (hhost ▸ functionAt_async hkind hasync))).bind fun _ _ _ => behaves_pure nofun
    · refine (behaves_await _ _ _).mono ?_
      rintro _ _ ⟨-, rfl⟩ -
      refine ⟨⟨m.process.tasks.size⟩, waitsForNew_awaiting (Nat.le_refl _) ?_ ?_ hworks _ _⟩
      · exact hsize ▸ Nat.lt_succ_self _
      · exact (task_does hd) ▸ Nat.lt_of_lt_of_le ht (size_does hd)

omit ht in
theorem decent_instantiate (c : ClassId) : Decent (instantiate c) := by
  unfold instantiate
  refine (decent_newObject c).bind fun r => decent_get fun m => ?_
  refine Decent.bind (decent_forIn (fun name _ => ?_) _ _) (fun _ => decent_pure _) m
  refine (decent_member r name).bind fun v => ?_
  split
  · exact (decent_setMember r name .none).bind fun _ => decent_pure _
  · exact decent_pure _

/-- The object is in the register before the constructor begins. -/
theorem behaves_construct (ha : m.process.Arena []) (c : ClassId) (argument : Value) (delivery : Delivery) :
    Behaves (construct c argument) m fun reply m' =>
      reply = .parked → ∃ y, Calls m m' delivery y (.ofClass c) .keep := by
  unfold construct
  refine Behaves.then (decent_instantiate c m).eq ?_
  rintro r m₁ hd ⟨-, heq⟩
  have hm₁ : m₁.task.index < m₁.process.tasks.size := (task_does hd) ▸ Nat.lt_of_lt_of_le ht (size_does hd)
  refine behaves_get ?_
  dsimp only
  split
  · exact behaves_pure nofun
  · rename_i f hf
    split
    · exact ((decent_runNative _ _ _).discard m₁).bind fun _ _ _ => behaves_pure nofun
    · exact behaves_throw (by simp [Fault.isMalformed])
    · rename_i start hkind
      refine (behaves_startCall (arena_does ha hd) argument (b := { function := f, receiver := .object r }) hkind
        fun _ h => by cases h).then ?_
      rintro t m₂ hd₂ ⟨rfl, hsize, hworks, hhost⟩
      have hm₂ : m₂.task.index < m₂.process.tasks.size := (task_does hd₂) ▸ Nat.lt_of_lt_of_le hm₁ (size_does hd₂)
      refine Behaves.bind (behaves_lift (does_setRegister (.object r) m₂)
        (P := fun _ m' => m' = (setRegister (.object r) m₂).2) rfl) ?_
      rintro _ _ rfl
      refine (behaves_await _ _ _).mono ?_
      rintro _ _ ⟨-, rfl⟩ -
      have hsame : (setRegister (.object r) m₂).2.host = m₁.host := hhost
      refine ⟨⟨m₁.process.tasks.size⟩, .object c r f (congrArg Prod.fst heq) ?_ ?_ ?_⟩
      · change (setRegister (.object r) m₂).2.host.registry.findMethod? c "new" = some f
        rw [hsame]
        exact hf
      · refine waitsForNew_awaiting (size_does hd) ?_ ?_ (worksAt_setRegister hworks _) _ _
        · rw [size_setRegister, hsize]
          exact Nat.lt_succ_self _
        · rw [size_setRegister]
          exact hm₂
      · refine Eq.trans (contexts_awaiting _ _ _ _ _).2 ?_
        exact register_setRegister hm₂ (.object r)

theorem behaves_call (ha : m.process.Arena []) (callee argument : Value) (delivery : Delivery) :
    Behaves (call callee argument delivery) m fun reply m' => reply = .parked → ∃ r o y d,
      callee = .object r ∧ m.process.heap.object? r = some o ∧ Calls m m' delivery y o.payload d := by
  have hrefuse : Behaves (do throw (.notCallable ((← get).typeName callee)) : Act Machine Reply) m fun reply m' =>
      reply = .parked → ∃ r o y d, callee = .object r ∧ m.process.heap.object? r = some o ∧
        Calls m m' delivery y o.payload d :=
    behaves_get (behaves_throw (by simp [Fault.isMalformed]))
  unfold call
  cases callee with
  | none => exact hrefuse
  | scalar s => exact hrefuse
  | object r =>
      refine (behaves_fetch r).bind ?_
      rintro o _ ⟨rfl, ho⟩
      split
      · rename_i c hp
        refine (behaves_construct ht ha c argument delivery).mono fun _ _ h hparked => ?_
        obtain ⟨y, hy⟩ := h hparked
        exact ⟨r, o, y, .keep, rfl, ho, hp ▸ hy⟩
      · rename_i f hp
        refine (behaves_invoke ht ha (b := { function := f }) (fun _ h => by cases h) argument delivery).mono
          fun _ _ h hparked => ?_
        obtain ⟨y, hy⟩ := h hparked
        exact ⟨r, o, y, delivery, rfl, ho, .function _ f (by rw [hp]; rfl) hy⟩
      · rename_i b hp
        have hcaptured : ∀ c, b.capture = some c → m.process.heap.Captures c := fun c hc =>
          ⟨r, o, ho, by rw [hp]; exact hc⟩
        refine (behaves_invoke ht ha hcaptured argument delivery).mono fun _ _ h hparked => ?_
        obtain ⟨y, hy⟩ := h hparked
        exact ⟨r, o, y, delivery, rfl, ho, .function _ b.function (by rw [hp]; rfl) hy⟩
      · exact behaves_get (behaves_throw (by simp [Fault.isMalformed]))

/-- A task that waits for a future is on the list of the future's task. -/
theorem behaves_wait (v : Value) :
    Behaves (wait v) m fun reply m' => reply = .parked → ∃ r o cell, v = .object r ∧ m.process.heap.object? r = some o ∧
      o.future? = some cell ∧ ¬ cell.memoized ∧ ¬ (m.process.taskAt cell.task).state.isFinished ∧
      (cell.task.index < m.process.tasks.size → m'.WaitsFor cell.task .result) := by
  unfold wait
  cases v with
  | none => exact behaves_pure nofun
  | scalar s => exact behaves_pure nofun
  | object r =>
      refine (behaves_fetch r).bind ?_
      rintro o _ ⟨rfl, ho⟩
      cases hcell : o.future? with
      | none => exact behaves_pure nofun
      | some cell =>
          -- nothing is done to find that the task has not come to its end
          have hlook : Behaves (futureOutcome r) m fun outcome m' => outcome = none →
              m = m' ∧ ¬ cell.memoized ∧ ¬ (m.process.taskAt cell.task).state.isFinished := by
            unfold futureOutcome
            refine (behaves_fetch r).bind ?_
            rintro o' _ ⟨rfl, ho'⟩
            cases ho.symm.trans ho'
            rw [hcell]
            refine behaves_get ?_
            dsimp only
            split
            · exact behaves_pure nofun
            · split
              · exact (decent_memoize _ _ _ m).bind fun _ _ _ => behaves_pure nofun
              · rename_i hm hf
                exact behaves_pure fun _ => ⟨rfl, hm, hf⟩
          refine hlook.bind fun outcome m' h => ?_
          split
          · obtain ⟨rfl, hm, hf⟩ := h rfl
            refine (behaves_await _ _ _).mono ?_
            rintro _ _ ⟨-, rfl⟩ -
            exact ⟨r, o, cell, rfl, ho, hcell, hm, hf, fun hlt => waitsFor_awaiting ht hlt _ _⟩
          · exact behaves_pure nofun
          · exact behaves_throw (by simp [Fault.isMalformed])
          · exact behaves_throw (by simp [Fault.isMalformed])

omit ht in
theorem get?_startModule (p : Process) (module : ModuleId) (parent : Option TaskId) :
    (p.startModule module parent).2.modules.get? module = some (.initializing ⟨p.tasks.size⟩) := by
  change (Bindings.insert _ module (ModuleState.initializing ⟨p.tasks.size⟩)).get? module = _
  rw [Bindings.get?_insert, if_pos rfl]

/-- A task that loads a module goes on if it need not wait. Else it waits for the task that runs the top level of the
module, and has the object of the module at hand. -/
theorem behaves_loadModule (name : String) :
    Behaves (loadModule name) m fun reply m' => ∃ module n,
      onRegistry (m.host.library.resolve name) m = (.ok module, n) ∧
      (reply ≠ .parked → m'.process.Imported m'.task module) ∧ (reply = .parked → ∃ r y,
        (moduleObject module n).1 = .ok r ∧ m'.register = .object r ∧
        m'.process.modules.get? module = some (.initializing y) ∧
        (y.index < m'.process.tasks.size → m'.WaitsFor y .keep)) := by
  unfold loadModule
  refine behaves_get ?_
  dsimp only
  refine Behaves.then ((decent_onRegistry fun P hP => Registry.preserves_resolve hP _ _) m).eq ?_
  rintro module n hn ⟨-, hresolve⟩
  refine Behaves.then (decent_moduleObject module n).eq ?_
  rintro r m₁ hm₁ ⟨-, hreflect⟩
  refine behaves_get ?_
  cases htop : m₁.top? with
  | none => exact behaves_throw (by simp [Fault.isMalformed])
  | some top =>
      dsimp only
      refine behaves_get ?_
      refine Behaves.then (decent_moduleObject _ m₁) fun importer m₂ hm₂ _ => ?_
      refine Behaves.then (decent_setMember importer name (.object r) m₂) fun _ m₃ hm₃ _ => ?_
      have hd := hn.trans (hm₁.trans (hm₂.trans hm₃))
      have ht₃ : m₃.task.index < m₃.process.tasks.size := (task_does hd) ▸ Nat.lt_of_lt_of_le ht (size_does hd)
      refine behaves_get ?_
      split
      · rename_i hready
        exact behaves_pure ⟨module, n, hresolve, fun _ => .inl hready, fun h => by cases h⟩
      · rename_i t ht
        split
        · rename_i hancestor
          exact behaves_pure ⟨module, n, hresolve, fun _ => .inr ⟨t, ht, List.mem_of_elem_eq_true hancestor⟩, fun h => by cases h⟩
        · refine Behaves.bind (behaves_lift (does_setRegister (.object r) m₃)
            (P := fun _ m' => m' = (setRegister (.object r) m₃).2) rfl) ?_
          rintro _ _ rfl
          refine (behaves_await _ _ _).mono ?_
          rintro _ _ ⟨hparked, rfl⟩
          refine ⟨module, n, hresolve, fun h => absurd hparked h, fun _ =>
            ⟨r, t, congrArg Prod.fst hreflect, ?_, ht, fun hlt => ?_⟩⟩
          · exact ((contexts_awaiting _ _ _ _ _).2).trans (register_setRegister ht₃ (.object r))
          · rw [size_awaiting] at hlt
            refine waitsFor_awaiting ?_ hlt _ _
            rw [size_setRegister]
            exact ht₃
      · rename_i hnone
        refine Behaves.bind (P := fun t m' => t = ⟨m₃.process.tasks.size⟩ ∧
          m' = { m₃ with process := (m₃.process.startModule module (some m₃.task)).2 })
          (behaves_lift (Stroke.load module hnone).does ⟨rfl, rfl⟩) ?_
        rintro _ _ ⟨rfl, rfl⟩
        let m₄ : Machine := { m₃ with process := (m₃.process.startModule module (some m₃.task)).2 }
        have hsize : m₄.process.tasks.size = m₃.process.tasks.size + 1 := size_startModule m₃.process module (some m₃.task)
        have ht₄ : m₄.task.index < m₄.process.tasks.size := hsize ▸ Nat.lt_succ_of_lt ht₃
        refine Behaves.bind (behaves_lift (does_setRegister (.object r) m₄)
          (P := fun _ m' => m' = (setRegister (.object r) m₄).2) rfl) ?_
        rintro _ _ rfl
        refine Behaves.bind (behaves_lift (does_enqueue _ _) (P := fun _ m' => m' = (enqueue _ _).2) rfl) ?_
        rintro _ _ rfl
        refine (behaves_await _ _ _).mono ?_
        rintro _ _ ⟨hparked, rfl⟩
        refine ⟨module, n, hresolve, fun h => absurd hparked h, fun _ =>
          ⟨r, ⟨m₃.process.tasks.size⟩, congrArg Prod.fst hreflect, ?_, ?_, fun _ => ?_⟩⟩
        · exact ((contexts_awaiting _ _ _ _ _).2).trans (register_setRegister ht₄ (.object r))
        · exact get?_startModule m₃.process module (some m₃.task)
        · refine waitsFor_awaiting ?_ ?_ _ _
          · change m₄.task.index < (setRegister (.object r) m₄).2.process.tasks.size
            rw [size_setRegister]
            exact ht₄
          · change m₃.process.tasks.size < (setRegister (.object r) m₄).2.process.tasks.size
            rw [size_setRegister, hsize]
            exact Nat.lt_succ_self _

end

end Machine

end Spool
