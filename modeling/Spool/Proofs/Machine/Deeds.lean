import Spool.Machine.Step
import Spool.Proofs.Heap.Faults
import Spool.Proofs.Process.Framed
import Spool.Proofs.Process.Positions

/-!
# What a running task does

Whatever an instruction or a native function does between two instructions is a row of deeds. No deed moves a context,
touches the stack or the register of another task, or makes an object refer to a context that is not pinned. What is true
of a machine after each deed is true after all of them. The faults on the way are no malformed instructions.
-/

namespace Spool

def Fault.isMalformed : Fault → Bool
  | malformed _ _ => true
  | _ => false

theorem HostError.isMalformed_toFault (e : HostError) : ¬ e.toFault.isMalformed := by
  cases e <;> simp [toFault, Fault.isMalformed]

/-- A process that nobody has run. -/
structure Process.Unspoilt (registry : Registry) (p : Process) : Prop where
  arena : p.Arena []
  onTape : registry.Checked → p.OnTape registry

namespace Machine

variable {m m₁ m₂ m' : Machine} {α β : Type}

/-- The context is the innermost one, and stays. -/
def Closes (m : Machine) (c : ContextId) : Prop :=
  m.top? = some c ∧ (c.index < m.process.contexts.size → (m.process.contextAt c).pinned)

/-- An object may have the payload: if it refers to a context, others do already, or the context stays. -/
def Lent (m : Machine) (p : Payload) : Prop := ∀ c, p.context? = some c → m.process.heap.Cites c ∨ m.Closes c

/-- An object may have the payload, and no closure of it gets at a context that no closure has captured before, but for the
innermost one. -/
structure Granted (m : Machine) (p : Payload) : Prop where
  lent : m.Lent p
  captured : ∀ c, p.capture? = some c → m.process.heap.Captures c ∨ m.top? = some c

theorem each_granted (m : Machine) : m.process.heap.Each m.Granted := fun r o ho =>
  ⟨fun _ hc => .inl ⟨r, o, ho, hc⟩, fun _ hc => .inl ⟨r, o, ho, hc⟩⟩

theorem granted_of_context?_eq_none (m : Machine) {p : Payload} (hp : p.context? = none) : m.Granted p := by
  constructor
  · intro c hc
    rw [hp] at hc
    cases hc
  · intro c hc
    rw [Payload.context?_of_capture? hc] at hp
    cases hp

/-- The size of the tape that a context stands on. -/
def room (m : Machine) (c : ContextId) : Nat := (m.host.registry.moduleAt (m.process.contextAt c).module).tape.size

/-- One thing that a running task does. -/
inductive Deed (m : Machine) : Machine → Prop where
  | heap (h : Heap) : h.Each m.Lent → Deed m { m with process := { m.process with heap := h } }
  | host (h : Host) : m.host.registry.Leads h.registry →
      (∀ child ∈ h.nursery, child ∈ m.host.nursery ∨ child.Unspoilt m.host.registry) → Deed m { m with host := h }
  | own (f : Task → Task) : (∀ task, (f task).contexts = task.contexts ∧ (f task).dependents = task.dependents) →
      Deed m { m with process := m.process.modifyTask m.task f }
  /-- A task is watched, or waited for. -/
  | other (t : TaskId) (f : Task → Task) :
      (∀ task, (f task).contexts = task.contexts ∧ (f task).register = task.register ∧ (f task).state = task.state ∧
        ∀ d ∈ task.dependents, d ∈ (f task).dependents) →
      Deed m { m with process := m.process.modifyTask t f }
  /-- What is neither heap nor task nor context. Nobody leaves the queue. -/
  | books (p : Process) : p.heap = m.process.heap → p.tasks = m.process.tasks → p.contexts = m.process.contexts →
      p.freeContexts = m.process.freeContexts → (∀ t ∈ m.process.queue.toList, t ∈ p.queue.toList) →
      Deed m { m with process := p }
  | assign (c : ContextId) (f : Bindings String Value → Bindings String Value) :
      Deed m { m with process := m.process.modifyContext c fun c => { c with locals := f c.locals } }
  | pin (c : ContextId) : m.top? = some c → Deed m { m with process := m.process.pin c }
  | handle (c : ContextId) (position : Nat) : m.top? = some c → position ≤ m.room c →
      Deed m { m with process := m.process.modifyContext c fun c => { c with handler := some position } }
  | carry : Deed m { m with process := (m.process.newCarrier m.task).2 }
  | call (b : BoundFunction) (start : Nat) (argument : Value) :
      (m.host.registry.functionAt b.function).kind = .user start →
      (∀ c, b.capture = some c → m.process.heap.Cites c) →
      Deed m { m with process := (m.process.startCall m.host.registry b start argument (some m.task)).2 }
  | load (module : ModuleId) : Deed m { m with process := (m.process.startModule module (some m.task)).2 }

/-- A deed as actions are made of: of other tasks it changes their marks only, of variables those around the innermost
context, and a module is loaded once. -/
inductive Stroke (m : Machine) : Machine → Prop where
  | heap (h : Heap) : h.Each m.Granted → Stroke m { m with process := { m.process with heap := h } }
  | host (h : Host) : m.host.registry.Leads h.registry →
      (∀ child ∈ h.nursery, child ∈ m.host.nursery ∨ child.Unspoilt m.host.registry) → Stroke m { m with host := h }
  | own (f : Task → Task) :
      (∀ task, ∃ state reason stack register, f task = { task with state, reason, stack, register }) →
      Stroke m { m with process := m.process.modifyTask m.task f }
  /-- A task is watched that an `async` function has been called in, or that has no contexts. -/
  | watch (t : TaskId) : (m.process.taskAt t).contexts = [] ∨ m.host.registry.HasAsync →
      Stroke m { m with process := m.process.modifyTask t fun t => { t with observed := true } }
  | list (t : TaskId) (delivery : Delivery) :
      Stroke m { m with process := m.process.modifyTask t fun t => t.addDependent m.task delivery }
  | books (p : Process) : p.heap = m.process.heap → p.tasks = m.process.tasks → p.contexts = m.process.contexts →
      p.freeContexts = m.process.freeContexts → p.modules = m.process.modules → p.entryTask = m.process.entryTask →
      (∀ t ∈ m.process.queue.toList, t ∈ p.queue.toList) → Stroke m { m with process := p }
  | assign (c top : ContextId) (f : Bindings String Value → Bindings String Value) : m.top? = some top →
      m.process.Encloses top c →
      Stroke m { m with process := m.process.modifyContext c fun c => { c with locals := f c.locals } }
  | pin (c : ContextId) : m.top? = some c → Stroke m { m with process := m.process.pin c }
  | handle (c : ContextId) (position : Nat) : m.top? = some c → position ≤ m.room c →
      Stroke m { m with process := m.process.modifyContext c fun c => { c with handler := some position } }
  | carry : Stroke m { m with process := (m.process.newCarrier m.task).2 }
  | call (b : BoundFunction) (start : Nat) (argument : Value) :
      (m.host.registry.functionAt b.function).kind = .user start →
      (∀ c, b.capture = some c → m.process.heap.Captures c) →
      Stroke m { m with process := (m.process.startCall m.host.registry b start argument (some m.task)).2 }
  | load (module : ModuleId) : m.process.modules.get? module = none →
      Stroke m { m with process := (m.process.startModule module (some m.task)).2 }

theorem Stroke.deed (h : m.Stroke m') : m.Deed m' := by
  cases h with
  | heap h hh => exact .heap h fun r o ho => (hh r o ho).lent
  | host h hr hn => exact .host h hr hn
  | own f hf =>
      refine .own f fun task => ?_
      obtain ⟨_, _, _, _, heq⟩ := hf task
      rw [heq]
      exact ⟨rfl, rfl⟩
  | watch t ht => exact .other t _ fun _ => ⟨rfl, rfl, rfl, fun _ h => h⟩
  | list t delivery => exact .other t _ fun _ => ⟨rfl, rfl, rfl, fun _ => List.mem_append_left _⟩
  | books p hh ht hc hf hm he hq => exact .books p hh ht hc hf hq
  | assign c top f htop he => exact .assign c f
  | pin c hc => exact .pin c hc
  | handle c position hc hp => exact .handle c position hc hp
  | carry => exact .carry
  | call b start argument hs hb => exact .call b start argument hs fun c hc => (hb c hc).cites
  | load module hm => exact .load module

def Does : Machine → Machine → Prop := Relation.ReflTransGen Stroke

theorem Stroke.does (h : m.Stroke m') : m.Does m' := .single h

theorem Does.refl (m : Machine) : m.Does m := Relation.ReflTransGen.refl

theorem Does.trans (h : m.Does m₁) (h' : m₁.Does m₂) : m.Does m₂ := Relation.ReflTransGen.trans h h'

theorem task_deed (h : m.Deed m') : m'.task = m.task := by
  cases h <;> rfl

theorem task_does (h : m.Does m') : m'.task = m.task := by
  induction h with
  | refl => rfl
  | tail _ hd ih => exact (task_deed hd.deed).trans ih

theorem size_startCall (p : Process) (registry : Registry) (b : BoundFunction) (start : Nat) (argument : Value)
    (parent : Option TaskId) : (p.startCall registry b start argument parent).2.tasks.size = p.tasks.size + 1 := by
  rw [Process.startCall, Process.size_startTask]

theorem size_startModule (p : Process) (module : ModuleId) (parent : Option TaskId) :
    (p.startModule module parent).2.tasks.size = p.tasks.size + 1 := by
  simp [Process.startModule, Process.modifyTask, Process.size_startTask]

theorem size_deed (h : m.Deed m') : m.process.tasks.size ≤ m'.process.tasks.size := by
  cases h with
  | heap h hh => exact Nat.le_refl _
  | host h hr hn => exact Nat.le_refl _
  | own f hf => simp [Process.modifyTask]
  | other t f hf => simp [Process.modifyTask]
  | books p hh ht hc hf hq => exact Nat.le_of_eq (congrArg Array.size ht.symm)
  | assign c f => exact Nat.le_refl _
  | pin c hc =>
      obtain ⟨contexts, heq⟩ := Process.pinFrom_eq m.process.contexts.size c m.process
      have hpin : m.process.pin c = { m.process with contexts } := heq
      rw [hpin]
  | handle c position hc hp => exact Nat.le_refl _
  | carry => simp [Process.newCarrier, Process.newTask, Process.park]
  | call b start argument hs hb =>
      rw [size_startCall]
      exact Nat.le_succ _
  | load module =>
      rw [size_startModule]
      exact Nat.le_succ _

theorem size_does (h : m.Does m') : m.process.tasks.size ≤ m'.process.tasks.size := by
  induction h with
  | refl => exact Nat.le_refl _
  | tail _ hd ih => exact Nat.le_trans ih (size_deed hd.deed)

theorem arena_deed (ha : m.process.Arena []) (h : m.Deed m') : m'.process.Arena [] := by
  cases h with
  | heap h hh =>
      refine ha.heap fun c hc => (hh.cites hc).imp_right fun hc => hc.2 ?_
      exact ha.index_lt (List.mem_of_mem_head? hc.1)
  | host h hr hn => exact ha
  | own f hf => exact ha.modifyTask_frame m.task fun task => (hf task).1
  | other t f hf => exact ha.modifyTask_frame t fun task => (hf task).1
  | books p hh ht hc hf hq => exact ha.congr ht hc hf hh
  | assign c f => exact ha.modifyContext c fun _ => ⟨rfl, rfl⟩
  | pin c hc => exact (ha.pin hc).1
  | handle c position hc hp => exact ha.modifyContext c fun _ => ⟨rfl, rfl⟩
  | carry => exact ha.newCarrier m.task
  | call b start argument hs hb =>
      exact ha.startCall m.host.registry start argument (some m.task) fun c hc => ha.cited c (hb c hc)
  | load module => exact ha.startModule module (some m.task)

theorem arena_does (ha : m.process.Arena []) (h : m.Does m') : m'.process.Arena [] := by
  induction h with
  | refl => exact ha
  | tail _ hd ih => exact arena_deed ih hd.deed

/-! ## Actions made of deeds -/

/-- The action does its part from this machine on, with `P` if it comes to its end. -/
def Behaves (act : Act Machine α) (m : Machine) (P : α → Machine → Prop) : Prop :=
  act.wp m (fun a m' => m.Does m' ∧ P a m') (fun e m' => m.Does m' ∧ ¬ e.isMalformed)

def Decent (act : Act Machine α) : Prop := ∀ m, Behaves act m fun _ _ => True

section
variable {act : Act Machine α} {P Q : α → Machine → Prop}

theorem Behaves.mono (ha : Behaves act m P) (hq : ∀ a m', P a m' → Q a m') : Behaves act m Q :=
  Act.wp_mono ha (fun a m' h => ⟨h.1, hq a m' h.2⟩) fun _ _ h => h

theorem Behaves.bind {k : α → Act Machine β} {R : β → Machine → Prop} (ha : Behaves act m P)
    (hk : ∀ a m', P a m' → Behaves (k a) m' R) : Behaves (act >>= k) m R := by
  unfold Behaves
  rw [Act.wp_bind]
  refine Act.wp_mono ha (fun a m₁ h => ?_) fun _ _ h => h
  exact Act.wp_mono (hk a m₁ h.2) (fun _ _ h' => ⟨h.1.trans h'.1, h'.2⟩) fun _ _ h' => ⟨h.1.trans h'.1, h'.2⟩

theorem Behaves.map {f : α → β} {R : β → Machine → Prop} (ha : Behaves act m P) (hq : ∀ a m', P a m' → R (f a) m') :
    Behaves (f <$> act) m R := by
  unfold Behaves
  rw [Act.wp_map]
  exact Act.wp_mono ha (fun a m' h => ⟨h.1, hq a m' h.2⟩) fun _ _ h => h

/-- What comes next may count on what has been done. -/
theorem Behaves.then {k : α → Act Machine β} {R : β → Machine → Prop} (ha : Behaves act m P)
    (hk : ∀ a m', m.Does m' → P a m' → Behaves (k a) m' R) : Behaves (act >>= k) m R :=
  Behaves.bind (P := fun a m' => m.Does m' ∧ P a m') (Act.wp_mono ha (fun _ _ h => ⟨h.1, h⟩) fun _ _ h => h)
    fun a m' h => hk a m' h.1 h.2

/-- What the action gives is what it gives. -/
theorem Behaves.eq (ha : Behaves act m P) : Behaves act m fun a m' => P a m' ∧ act m = (.ok a, m') := by
  unfold Behaves Act.wp at *
  rcases hx : act m with ⟨_ | a, m'⟩
  · rw [hx] at ha
    exact ha
  · rw [hx] at ha
    exact ⟨ha.1, ha.2, rfl⟩

theorem behaves_pure {a : α} (hp : P a m) : Behaves (pure a : Act Machine α) m P := ⟨.refl m, hp⟩

theorem behaves_throw {e : Fault} (he : ¬ e.isMalformed) : Behaves (throw e : Act Machine α) m P := ⟨.refl m, he⟩

theorem behaves_get {k : Machine → Act Machine α} (hk : Behaves (k m) m P) : Behaves (get >>= k) m P := by
  unfold Behaves
  rw [Act.wp_bind]
  exact hk

theorem behaves_lift {act : StateM Machine α} (hd : m.Does (act m).2) (hp : P (act m).1 (act m).2) :
    Behaves (liftM act : Act Machine α) m P :=
  ⟨hd, hp⟩

theorem behaves_mk {x : Except Fault α} (hp : ∀ a, x = .ok a → P a m) (he : ∀ e, x = .error e → ¬ e.isMalformed) :
    Behaves (ExceptT.mk (pure x) : Act Machine α) m P := by
  cases x with
  | ok a => exact ⟨.refl m, hp a rfl⟩
  | error e => exact ⟨.refl m, he e rfl⟩

theorem behaves_look {f : Heap → Except Fault α} (hp : ∀ a, f m.process.heap = .ok a → P a m)
    (he : ∀ e, f m.process.heap = .error e → ¬ e.isMalformed) : Behaves (look f) m P :=
  behaves_mk (x := f m.process.heap) hp he

/-- What is done to the heap writes no payload that is not granted. -/
theorem behaves_onHeap {act : Act Heap α} (ha : Preserves (Heap.Each m.Granted) act)
    (he : act.wp m.process.heap (fun _ _ => True) fun e _ => ¬ e.isMalformed) :
    Behaves (onHeap act) m fun _ m' => ∃ h, m' = { m with process := { m.process with heap := h } } := by
  have hdone : m.Does { m with process := { m.process with heap := (act m.process.heap).2 } } :=
    (Stroke.heap _ (ha _ (each_granted m))).does
  have hrun : onHeap act m = ((act m.process.heap).1,
    { m with process := { m.process with heap := (act m.process.heap).2 } }) := rfl
  unfold Behaves Act.wp at *
  rw [hrun]
  rcases hx : act m.process.heap with ⟨e | a, h⟩
  · rw [hx] at he hdone
    exact ⟨hdone, he⟩
  · rw [hx] at hdone
    exact ⟨hdone, h, rfl⟩

end

section
variable {act : Act Machine α}

theorem Decent.bind {k : α → Act Machine β} (ha : Decent act) (hk : ∀ a, Decent (k a)) : Decent (act >>= k) :=
  fun m => (ha m).bind fun a m' _ => hk a m'

theorem decent_pure (a : α) : Decent (pure a : Act Machine α) := fun _ => behaves_pure trivial

theorem Decent.map {f : α → β} (ha : Decent act) : Decent (f <$> act) := by
  rw [← bind_pure_comp]
  exact ha.bind fun _ => decent_pure _

theorem Decent.discard (ha : Decent act) : Decent (discard act) := by
  change Decent (Functor.mapConst PUnit.unit act)
  rw [LawfulFunctor.map_const]
  exact ha.map

theorem decent_throw {e : Fault} (he : ¬ e.isMalformed) : Decent (throw e : Act Machine α) := fun _ => behaves_throw he

theorem decent_get {k : Machine → Act Machine α} (hk : ∀ m, Behaves (k m) m fun _ _ => True) : Decent (get >>= k) :=
  fun m => behaves_get (hk m)

theorem decent_lift {act : StateM Machine α} (hd : ∀ m : Machine, m.Does (act m).2) : Decent (liftM act : Act Machine α) :=
  fun m => behaves_lift (hd m) trivial

theorem decent_look {f : Heap → Except Fault α} (he : ∀ h e, f h = .error e → ¬ e.isMalformed) : Decent (look f) :=
  fun m => behaves_look (fun _ _ => trivial) (he m.process.heap)

theorem decent_mk {x : Except Fault α} (he : ∀ e, x = .error e → ¬ e.isMalformed) :
    Decent (ExceptT.mk (pure x) : Act Machine α) :=
  fun _ => behaves_mk (fun _ _ => trivial) he

theorem decent_onHeap {act : Act Heap α} (ha : ∀ Q : Payload → Prop, (∀ p, p.isLoose → Q p) → Preserves (Heap.Each Q) act)
    (he : ∀ h, act.wp h (fun _ _ => True) fun e _ => ¬ e.isMalformed) : Decent (onHeap act) := by
  intro m
  have hloose : ∀ p : Payload, p.isLoose → m.Granted p := fun p hp =>
    m.granted_of_context?_eq_none (Payload.context?_of_isLoose hp)
  exact (behaves_onHeap (ha m.Granted hloose) (he m.process.heap)).mono fun _ _ _ => trivial

theorem not_malformed_of_staleOnly {act : Act Heap α} (ha : act.StaleOnly) (h : Heap) :
    act.wp h (fun _ _ => True) fun e _ => ¬ e.isMalformed :=
  Act.wp_mono (ha h) (fun _ _ h => h) fun _ _ he => by simp [he, Fault.isMalformed]

theorem decent_mapM {f : α → Act Machine β} (hf : ∀ a, Decent (f a)) (xs : List α) : Decent (xs.mapM f) := by
  induction xs with
  | nil => exact decent_pure _
  | cons a rest ih =>
      rw [List.mapM_cons]
      exact (hf a).bind fun _ => ih.bind fun _ => decent_pure _

theorem decent_forIn {f : α → PUnit → Act Machine (ForInStep PUnit)} (hf : ∀ a b, Decent (f a b)) (xs : List α)
    (b : PUnit) : Decent (forIn xs b f) := by
  induction xs generalizing b with
  | nil => exact decent_pure b
  | cons a rest ih =>
      rw [List.forIn_cons]
      refine (hf a b).bind fun step => ?_
      cases step with
      | done b => exact decent_pure b
      | yield b => exact ih b

end

end Machine

end Spool
