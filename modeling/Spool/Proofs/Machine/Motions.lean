import Spool.Machine.Run
import Spool.Proofs.Machine.Instructions

/-!
# How a task gets on

From one instruction to the next a task does its deeds, and its innermost context moves: to another position, to an error
or a handler, into a block or out of one. Nothing else happens to contexts. So a machine whose contexts are in order and
on their tapes is such a machine when the task is done, and what is on the stacks of the other tasks has not moved.
-/

namespace Spool

/-- Where a context stands, and the error that it has to handle. -/
def Context.footing (c : Context) : Context :=
  { c with receiver := .none, locals := {}, handler := none, pinned := false }

theorem Context.module_eq_of_footing {c d : Context} (h : c.footing = d.footing) : c.module = d.module :=
  congrArg (·.module) h

theorem Context.cursor_eq_of_footing {c d : Context} (h : c.footing = d.footing) : c.cursor = d.cursor :=
  congrArg (·.cursor) h

theorem Context.error_eq_of_footing {c d : Context} (h : c.footing = d.footing) : c.error = d.error :=
  congrArg (·.error) h

namespace Process

variable {p p' q : Process} {r r' : Registry} {t x : TaskId} {c : ContextId}

/-- The contexts of a process are in order, and on their tapes. -/
structure Firm (r : Registry) (p : Process) : Prop where
  arena : p.Arena []
  onTape : p.OnTape r

theorem Firm.longer (hp : p.Firm r) (h : r.Longer r') : p.Firm r' := ⟨hp.arena, hp.onTape.longer h⟩

theorem Firm.congr (hp : p.Firm r) (ht : p'.tasks = p.tasks) (hc : p'.contexts = p.contexts)
    (hf : p'.freeContexts = p.freeContexts) (hh : p'.heap = p.heap) : p'.Firm r :=
  ⟨hp.arena.congr ht hc hf hh, hp.onTape.stands (stands_of_eq ht hc)⟩

theorem Unspoilt.firm (hp : p.Unspoilt r) (hr : r.Checked) : p.Firm r := ⟨hp.arena, hp.onTape hr⟩

theorem releaseContext_modifyTask (p : Process) (t : TaskId) (f : Task → Task) (c : ContextId) :
    (p.modifyTask t f).releaseContext c = (p.releaseContext c).modifyTask t f := by
  have hsame : (p.modifyTask t f).contextAt c = p.contextAt c := rfl
  unfold releaseContext
  rw [hsame]
  split <;> rfl

theorem modifyTask_modifyTask (p : Process) (t : TaskId) (f g : Task → Task) :
    (p.modifyTask t f).modifyTask t g = p.modifyTask t (g ∘ f) := by
  have hsame : (p.tasks.modify t.index f).modify t.index g = p.tasks.modify t.index (g ∘ f) := by
    apply Array.ext_getElem?
    intro i
    simp only [Array.getElem?_modify]
    split <;> simp
  simp only [modifyTask, hsame]

/-! ## Tasks that do not run -/

/-- The stack of a task is as it was, and so is where its contexts stand. -/
structure Rests (x : TaskId) (p p' : Process) : Prop where
  contexts : (p'.taskAt x).contexts = (p.taskAt x).contexts
  still : ∀ c ∈ (p.taskAt x).contexts, (p'.contextAt c).footing = (p.contextAt c).footing

theorem Rests.refl (x : TaskId) (p : Process) : Rests x p p := ⟨rfl, fun _ _ => rfl⟩

theorem Rests.trans (h : Rests x p q) (h' : Rests x q p') : Rests x p p' :=
  ⟨h'.contexts.trans h.contexts, fun c hc => (h'.still c (h.contexts.symm ▸ hc)).trans (h.still c hc)⟩

theorem rests_of_eq (ht : p'.taskAt x = p.taskAt x) (hc : ∀ c ∈ p.stacked, p'.contextAt c = p.contextAt c) : Rests x p p' :=
  ⟨congrArg Task.contexts ht, fun c h => congrArg Context.footing (hc c (mem_stacked_taskAt h))⟩

theorem rests_modifyTask (p : Process) (t : TaskId) {f : Task → Task} (hf : ∀ task, (f task).contexts = task.contexts) :
    Rests x p (p.modifyTask t f) := by
  refine ⟨?_, fun _ _ => rfl⟩
  rw [taskAt_modifyTask]
  split
  · exact hf _
  · rfl

theorem rests_modifyTask_ne (p : Process) (hx : x ≠ t) (f : Task → Task) : Rests x p (p.modifyTask t f) := by
  refine ⟨?_, fun _ _ => rfl⟩
  rw [taskAt_modifyTask, if_neg fun h => hx h.1.symm]

theorem rests_modifyContext (p : Process) (c : ContextId) {f : Context → Context}
    (hf : ∀ x, (f x).footing = x.footing) : Rests x p (p.modifyContext c f) := by
  refine ⟨rfl, fun d _ => ?_⟩
  rw [contextAt_modifyContext]
  split
  · exact hf _
  · rfl

theorem rests_modifyContext_ne (p : Process) (hc : c ∉ (p.taskAt x).contexts) (f : Context → Context) :
    Rests x p (p.modifyContext c f) := by
  refine ⟨rfl, fun d hd => ?_⟩
  rw [contextAt_modifyContext, if_neg]
  rintro ⟨rfl, _⟩
  exact hc hd

theorem rests_pinned {cs : List ContextId} (h : Pinned cs p p') : Rests x p p' := by
  obtain ⟨⟨contexts, rfl⟩, _, hsame, _⟩ := h
  refine ⟨rfl, fun d _ => ?_⟩
  obtain ⟨b, hb⟩ := hsame d
  rw [hb]
  rfl

theorem rests_releaseContext (p : Process) (hc : c ∉ (p.taskAt x).contexts) : Rests x p (p.releaseContext c) := by
  unfold releaseContext
  split
  · exact .refl x p
  · exact (rests_modifyContext_ne p hc _).trans (.mk rfl fun _ _ => rfl)

theorem rests_newContext (ha : p.Arena []) {y : Context} (hy : y.pinned = false) : Rests x p (p.newContext y).2 := by
  obtain ⟨_, _, _, hnot, _⟩ := ha.newContext hy
  refine rests_of_eq ?_ fun c hc => contextAt_newContext p y fun h => hnot (h ▸ hc)
  rw [taskAt, (newContext_eq p y).2.1]
  rfl

theorem queue_startTask (p : Process) (parent : Option TaskId) (argument : Value) (context : TaskId → Context) :
    (p.startTask parent argument context).2.queue = p.queue := by
  obtain ⟨tasks, contexts, free, heq⟩ := startTask_frame p parent argument context
  rw [heq]

section
variable (hx : x.index < p.tasks.size)
include hx

theorem ne_of_index_lt : (⟨p.tasks.size⟩ : TaskId) ≠ x := fun h => Nat.lt_irrefl _ (h ▸ hx)

theorem taskAt_newCarrier (parent : TaskId) : (p.newCarrier parent).2.taskAt x = p.taskAt x := by
  change ((p.newTask (some parent)).2.modifyTask ⟨p.tasks.size⟩ (·.park .onFuture)).taskAt x = _
  rw [taskAt_modifyTask, if_neg fun h => ne_of_index_lt hx h.1]
  exact taskAt_of_getElem? (getElem?_newTask_of (getElem?_of_index_lt hx) (some parent))

theorem taskAt_startCall (registry : Registry) (b : BoundFunction) (start : Nat) (argument : Value)
    (parent : Option TaskId) : (p.startCall registry b start argument parent).2.taskAt x = p.taskAt x := by
  rw [startCall]
  exact taskAt_startTask hx parent argument _

theorem taskAt_startModule (module : ModuleId) (parent : Option TaskId) :
    (p.startModule module parent).2.taskAt x = p.taskAt x := by
  have hstart := taskAt_startTask hx parent .none fun task => { task, kind := .moduleRoot, module, cursor := 0 }
  have hmark := taskAt_modifyTask (p.startTask parent .none fun task =>
    { task, kind := .moduleRoot, module, cursor := 0 }).2 ⟨p.tasks.size⟩
    (fun task => { task with initializes := some module }) x
  rw [if_neg fun h => ne_of_index_lt hx h.1] at hmark
  exact hmark.trans hstart

theorem rests_startCall (ha : p.Arena []) (registry : Registry) (b : BoundFunction) (start : Nat) (argument : Value)
    (parent : Option TaskId) : Rests x p (p.startCall registry b start argument parent).2 := by
  have htask := taskAt_startCall hx registry b start argument parent
  rw [startCall] at htask ⊢
  obtain ⟨c, hnot, _, _, hold⟩ := ha.started parent argument (fun task =>
    { task
      kind := .function
      previous := b.capture
      receiver := b.receiver
      module := (registry.functionAt b.function).module
      function := some b.function
      cursor := start }) rfl
  exact rests_of_eq htask fun d hd => hold d fun h => hnot (.inl (h ▸ hd))

theorem rests_startModule (ha : p.Arena []) (module : ModuleId) (parent : Option TaskId) :
    Rests x p (p.startModule module parent).2 := by
  obtain ⟨c, hnot, _, _, hold⟩ := ha.started parent .none (fun task =>
    { task, kind := .moduleRoot, module, cursor := 0 }) rfl
  exact rests_of_eq (taskAt_startModule hx module parent) fun d hd => hold d fun h => hnot (.inl (h ▸ hd))

end

/-- What the task `t` has done is nothing to the others: each is where it was, and whoever is in the queue or waits for
another still does. -/
structure Keeps (t : TaskId) (p p' : Process) : Prop where
  size : p.tasks.size ≤ p'.tasks.size
  others : ∀ x, x ≠ t → x.index < p.tasks.size → Rests x p p' ∧
    (p'.taskAt x).register = (p.taskAt x).register ∧ (p'.taskAt x).state = (p.taskAt x).state
  dependents : ∀ x, ∀ d ∈ (p.taskAt x).dependents, d ∈ (p'.taskAt x).dependents
  queued : ∀ x ∈ p.queue.toList, x ∈ p'.queue.toList

theorem Keeps.refl (t : TaskId) (p : Process) : Keeps t p p :=
  ⟨Nat.le_refl _, fun x _ _ => ⟨.refl x p, rfl, rfl⟩, fun _ _ h => h, fun _ h => h⟩

theorem Keeps.trans (h : Keeps t p q) (h' : Keeps t q p') : Keeps t p p' := by
  refine ⟨Nat.le_trans h.size h'.size, fun x hne hx => ?_, fun x d hd => h'.dependents x d (h.dependents x d hd),
    fun x hq => h'.queued x (h.queued x hq)⟩
  obtain ⟨hrest, hregister, hstate⟩ := h.others x hne hx
  obtain ⟨hrest', hregister', hstate'⟩ := h'.others x hne (Nat.lt_of_lt_of_le hx h.size)
  exact ⟨hrest.trans hrest', hregister'.trans hregister, hstate'.trans hstate⟩

theorem Keeps.of_eq (hsize : p.tasks.size ≤ p'.tasks.size) (ht : ∀ x, x.index < p.tasks.size → p'.taskAt x = p.taskAt x)
    (hr : ∀ x, x.index < p.tasks.size → Rests x p p') (hq : ∀ x ∈ p.queue.toList, x ∈ p'.queue.toList) : Keeps t p p' := by
  refine ⟨hsize, fun x _ hx => ⟨hr x hx, congrArg Task.register (ht x hx), congrArg Task.state (ht x hx)⟩,
    fun x d hd => ?_, hq⟩
  rw [ht x (index_lt_of_dependents hd)]
  exact hd

theorem keeps_modifyTask (p : Process) (t : TaskId) {f : Task → Task} (hf : ∀ task, (f task).dependents = task.dependents) :
    Keeps t p (p.modifyTask t f) := by
  refine ⟨by simp [modifyTask], fun x hne hx => ?_, fun x d hd => ?_, fun _ hq => hq⟩
  · refine ⟨rests_modifyTask_ne p hne f, ?_⟩
    rw [taskAt_modifyTask, if_neg fun h => hne h.1.symm]
    exact ⟨rfl, rfl⟩
  · rw [taskAt_modifyTask]
    split
    · exact (hf _).symm ▸ hd
    · exact hd

end Process

namespace Machine

variable {m m₁ m₂ m' : Machine} {c : ContextId} {x : TaskId} {r : Registry}

/-- Deeds move no context. -/
theorem rests_deed (ha : m.process.Arena []) (hx : x.index < m.process.tasks.size) (h : m.Deed m') :
    Process.Rests x m.process m'.process := by
  cases h with
  | heap h hh => exact ⟨rfl, fun _ _ => rfl⟩
  | host h hr hn => exact .refl _ _
  | own f hf => exact Process.rests_modifyTask _ _ fun task => (hf task).1
  | other t f hf => exact Process.rests_modifyTask _ _ fun task => (hf task).1
  | books p hh ht hc hf hq =>
      refine Process.rests_of_eq ?_ fun c _ => ?_
      · simp only [Process.taskAt, ht]
      · simp only [Process.contextAt, hc]
  | assign c f => exact Process.rests_modifyContext _ c fun _ => rfl
  | pin c hc => exact Process.rests_pinned (ha.pin hc).2.2
  | handle c position hc hp => exact Process.rests_modifyContext _ c fun _ => rfl
  | carry => exact Process.rests_of_eq (Process.taskAt_newCarrier hx m.task) fun _ _ => rfl
  | call b start argument hs hb => exact Process.rests_startCall hx ha _ b start argument _
  | load module => exact Process.rests_startModule hx ha module _

theorem rests_does (ha : m.process.Arena []) (hx : x.index < m.process.tasks.size) (h : m.Does m') :
    Process.Rests x m.process m'.process := by
  induction h with
  | refl => exact .refl _ _
  | tail hd h ih => exact ih.trans (rests_deed (arena_does ha hd) (Nat.lt_of_lt_of_le hx (size_does hd)) h.deed)

/-- Deeds are nothing to other tasks. -/
theorem keeps_deed (ha : m.process.Arena []) (h : m.Deed m') : m.process.Keeps m.task m'.process := by
  have hrests : ∀ x : TaskId, x.index < m.process.tasks.size → Process.Rests x m.process m'.process := fun _ hx =>
    rests_deed ha hx h
  have hsize := size_deed h
  cases h with
  | heap h hh => exact .of_eq hsize (fun _ _ => rfl) hrests fun _ hq => hq
  | host h hr hn => exact .refl _ _
  | own f hf => exact Process.keeps_modifyTask _ _ fun task => (hf task).2
  | other t f hf =>
      refine ⟨hsize, fun x _ hx => ⟨hrests x hx, ?_⟩, fun x d hd => ?_, fun _ hq => hq⟩
      · change ((m.process.modifyTask t f).taskAt x).register = _ ∧ ((m.process.modifyTask t f).taskAt x).state = _
        rw [Process.taskAt_modifyTask]
        split
        · exact ⟨(hf _).2.1, (hf _).2.2.1⟩
        · exact ⟨rfl, rfl⟩
      · change d ∈ ((m.process.modifyTask t f).taskAt x).dependents
        rw [Process.taskAt_modifyTask]
        split
        · exact (hf _).2.2.2 d hd
        · exact hd
  | books p hh ht hc hf hq => exact .of_eq hsize (fun _ _ => by simp only [Process.taskAt, ht]) hrests hq
  | assign c f => exact .of_eq hsize (fun _ _ => rfl) hrests fun _ hq => hq
  | pin c hc =>
      obtain ⟨contexts, heq⟩ := Process.pinFrom_eq m.process.contexts.size c m.process
      have hpin : m.process.pin c = { m.process with contexts } := heq
      refine .of_eq hsize (fun x _ => ?_) hrests fun x hq => ?_
      · change (m.process.pin c).taskAt x = _
        rw [hpin]
        rfl
      · change x ∈ (m.process.pin c).queue.toList
        rw [hpin]
        exact hq
  | handle c position hc hp => exact .of_eq hsize (fun _ _ => rfl) hrests fun _ hq => hq
  | carry => exact .of_eq hsize (fun _ hx => Process.taskAt_newCarrier hx m.task) hrests fun _ hq => hq
  | call b start argument hs hb =>
      refine .of_eq hsize (fun _ hx => Process.taskAt_startCall hx _ b start argument _) hrests fun x hq => ?_
      change x ∈ (m.process.startCall _ b start argument _).2.queue.toList
      rw [Process.startCall, Process.queue_startTask]
      exact hq
  | load module =>
      refine .of_eq hsize (fun _ hx => Process.taskAt_startModule hx module _) hrests fun x hq => ?_
      have hqueue : (m.process.startModule module (some m.task)).2.queue = m.process.queue :=
        Process.queue_startTask m.process (some m.task) .none fun task => { task, kind := .moduleRoot, module, cursor := 0 }
      change x ∈ (m.process.startModule module (some m.task)).2.queue.toList
      rw [hqueue]
      exact hq

/-- The innermost context moves, or a task does a deed. -/
inductive Motion (m : Machine) : Machine → Prop where
  | deed {m' : Machine} : m.Deed m' → Motion m m'
  | move (c : ContextId) (f : Context → Context) : m.top? = some c →
      (∀ x, (f x).pinned = x.pinned ∧ (f x).previous = x.previous ∧ (f x).module = x.module) →
      (f (m.process.contextAt c)).Within (m.room c) → Motion m { m with process := m.process.modifyContext c f }
  | enter (c : ContextId) (x : Context) : m.top? = some c → x.pinned = false → x.previous = some c →
      x.module = (m.process.contextAt c).module → x.Within (m.room c) →
      Motion m { m with process := (m.process.newContext x).2.modifyTask m.task fun t =>
        { t with contexts := (m.process.newContext x).1 :: t.contexts } }
  | leave (c : ContextId) (outer : List ContextId) : m.current.contexts = c :: outer →
      Motion m { m with process := (m.process.modifyTask m.task fun t => { t with contexts := outer }).releaseContext c }

def Travels : Machine → Machine → Prop := Relation.ReflTransGen Motion

theorem Travels.refl (m : Machine) : m.Travels m := Relation.ReflTransGen.refl

theorem Does.travels (h : m.Does m') : m.Travels m' := by
  induction h with
  | refl => exact .refl m
  | tail _ hd ih => exact ih.tail (.deed hd.deed)

/-! ## Machines in order -/

structure Sturdy (m : Machine) (r : Registry) : Prop where
  /-- What was on a tape of `r` still is. -/
  longer : r.Longer m.host.registry
  checked : m.host.registry.Checked
  firm : m.process.Firm m.host.registry
  nursery : ∀ child ∈ m.host.nursery, child.Firm m.host.registry

theorem Sturdy.process (hm : m.Sturdy r) {p : Process} (hp : p.Firm m.host.registry) :
    ({ m with process := p } : Machine).Sturdy r :=
  ⟨hm.longer, hm.checked, hp, hm.nursery⟩

theorem sturdy_deed (hm : m.Sturdy r) (h : m.Deed m') : m'.Sturdy r := by
  have harena := arena_deed hm.firm.arena h
  cases h with
  | heap h hh => exact hm.process ⟨harena, hm.firm.onTape.stands (Process.stands_of_eq rfl rfl)⟩
  | host h hr hn =>
      refine ⟨hm.longer.trans hr.longer, hr.checked hm.checked, hm.firm.longer hr.longer,
        fun child hc => ?_⟩
      rcases hn child hc with hc | hc
      · exact (hm.nursery child hc).longer hr.longer
      · exact (hc.firm hm.checked).longer hr.longer
  | own f hf => exact hm.process ⟨harena, hm.firm.onTape.stands (Process.stands_modifyTask_frame _ _ fun task =>
      (hf task).1)⟩
  | other t f hf =>
      exact hm.process ⟨harena, hm.firm.onTape.stands (Process.stands_modifyTask_frame _ _ fun task => (hf task).1)⟩
  | books p hh ht hc hf hq => exact hm.process ⟨harena, hm.firm.onTape.stands (Process.stands_of_eq ht hc)⟩
  | assign c f => exact hm.process ⟨harena, hm.firm.onTape.stands (Process.stands_modifyContext _ c fun _ => rfl)⟩
  | pin c hc => exact hm.process ⟨harena, hm.firm.onTape.stands (Process.stands_pinned (hm.firm.arena.pin hc).2.2)⟩
  | handle c position hc hp =>
      refine hm.process ⟨harena, hm.firm.onTape.modifyContext c (fun _ => rfl) ⟨(hm.firm.onTape.within c).1, fun h hh => ?_⟩⟩
      cases hh
      exact hp
  | carry => exact hm.process ⟨harena, hm.firm.onTape.newCarrier m.task⟩
  | call b start argument hs hb =>
      exact hm.process ⟨harena, hm.firm.onTape.startCall hm.firm.arena hm.checked hs argument _⟩
  | load module => exact hm.process ⟨harena, hm.firm.onTape.startModule hm.firm.arena module _⟩

theorem firm_enter (hm : m.Sturdy r) {x : Context} (hc : m.top? = some c) (hun : x.pinned = false)
    (hprev : x.previous = some c) (hmodule : x.module = (m.process.contextAt c).module) (hx : x.Within (m.room c)) :
    ((m.process.newContext x).2.modifyTask m.task fun t =>
      { t with contexts := (m.process.newContext x).1 :: t.contexts }).Firm m.host.registry := by
  have hlt : m.task.index < m.process.tasks.size := Process.index_lt_of_top? hc
  obtain ⟨harena, hat, _, hnot, _⟩ := hm.firm.arena.newContext hun
  have htask : (m.process.newContext x).2.tasks[m.task.index]? = some m.current := by
    rw [(Process.newContext_eq m.process x).2.1]
    exact Process.getElem?_of_index_lt hlt
  have hmem : c ∈ m.current.contexts := Process.mem_of_top? hc
  have hold : ∀ d ∈ m.current.contexts, (m.process.newContext x).2.contextAt d = m.process.contextAt d := fun d hd =>
    Process.contextAt_newContext _ _ fun h => hnot (h ▸ Process.mem_stacked_taskAt hd)
  refine ⟨harena.enter htask rfl fun d hd => ?_, ?_⟩
  · rw [hat, hprev] at hd
    cases hd
    exact .inr hmem
  · refine (hm.firm.onTape.newContext hm.firm.arena hun ?_).modifyTask htask ?_
    · rw [hmodule]
      exact hx
    · -- all are of the module of the context that was innermost
      have hall : ∀ d ∈ (m.process.newContext x).1 :: m.current.contexts,
          ((m.process.newContext x).2.contextAt d).module = (m.process.contextAt c).module := by
        intro d hd
        rcases List.mem_cons.1 hd with rfl | hd
        · rw [hat]
          exact hmodule
        · rw [hold d hd]
          exact hm.firm.onTape.uniform _ (Array.mem_of_getElem? (Process.getElem?_of_index_lt hlt)) d hd c hmem
      exact fun d hd e he => (hall d hd).trans (hall e he).symm

theorem sturdy_motion (hm : m.Sturdy r) (h : m.Motion m') : m'.Sturdy r := by
  cases h with
  | deed h => exact sturdy_deed hm h
  | move c f hc hf hw =>
      refine hm.process ⟨hm.firm.arena.modifyContext c fun x => ⟨(hf x).1, (hf x).2.1⟩, ?_⟩
      exact hm.firm.onTape.modifyContext c (fun x => (hf x).2.2) hw
  | enter c x hc hun hprev hmodule hx => exact hm.process (firm_enter hm hc hun hprev hmodule hx)
  | leave c outer hcs =>
      have htop : m.top? = some c := by rw [top?, Task.top?, hcs, List.head?_cons]
      have htask := Process.getElem?_of_index_lt (Process.index_lt_of_top? htop)
      have hleft := hm.firm.arena.leave (f := fun t => { t with contexts := outer }) htask
        (show m.current.contexts = [c] ++ outer from hcs) rfl
      refine hm.process ⟨hleft.release, ?_⟩
      have hstands := Process.stands_releaseContext (m.process.modifyTask m.task fun t => { t with contexts := outer }) c
      refine (hm.firm.onTape.modifyTask htask fun d hd e he => ?_).stands hstands
      have hsub : ∀ d ∈ outer, d ∈ m.current.contexts := fun d hd => hcs ▸ List.mem_cons_of_mem c hd
      exact hm.firm.onTape.uniform _ (Array.mem_of_getElem? htask) d (hsub d hd) e (hsub e he)

theorem sturdy_travels (hm : m.Sturdy r) (h : m.Travels m') : m'.Sturdy r := by
  induction h with
  | refl => exact hm
  | tail _ h ih => exact sturdy_motion ih h

/-! ## Other tasks -/

theorem task_motion (h : m.Motion m') : m'.task = m.task := by
  cases h with
  | deed h => exact task_deed h
  | _ => rfl

theorem task_travels (h : m.Travels m') : m'.task = m.task := by
  induction h with
  | refl => rfl
  | tail _ h ih => exact (task_motion h).trans ih

theorem tasks_releaseContext (p : Process) (c : ContextId) : (p.releaseContext c).tasks = p.tasks := by
  unfold Process.releaseContext
  split <;> rfl

theorem size_contexts_releaseContext (p : Process) (c : ContextId) :
    (p.releaseContext c).contexts.size = p.contexts.size := by
  unfold Process.releaseContext
  split
  · rfl
  · simp [Process.modifyContext]

theorem size_motion (h : m.Motion m') : m.process.tasks.size ≤ m'.process.tasks.size := by
  cases h with
  | deed h => exact size_deed h
  | move c f hc hf hw => exact Nat.le_refl _
  | enter c x hc hun hprev hmodule hx => simp [Process.modifyTask, (Process.newContext_eq m.process x).2.1]
  | leave c outer hcs => simp [tasks_releaseContext, Process.modifyTask]

theorem keeps_motion (ha : m.process.Arena []) (h : m.Motion m') : m.process.Keeps m.task m'.process := by
  have hsize := size_motion h
  cases h with
  | deed h => exact keeps_deed ha h
  | move c f hc hf hw =>
      refine ⟨hsize, fun x hne _ => ⟨?_, rfl, rfl⟩, fun _ _ hd => hd, fun _ hq => hq⟩
      exact Process.rests_modifyContext_ne _ (ha.disjoint hne (Process.mem_of_top? hc)) f
  | enter c y hc hun hprev hmodule hy =>
      obtain ⟨contexts, free, heq⟩ := Process.newContext_frame m.process y
      have hnew : m.process.Keeps m.task (m.process.newContext y).2 := by
        refine .of_eq (by rw [heq]) (fun x _ => ?_) (fun x _ => Process.rests_newContext ha hun) fun x hq => ?_
        · rw [heq]
          rfl
        · rw [heq]
          exact hq
      exact hnew.trans (Process.keeps_modifyTask _ _ fun _ => rfl)
  | leave c outer hcs =>
      have hout := Process.keeps_modifyTask m.process m.task (f := fun t => { t with contexts := outer }) fun _ => rfl
      refine hout.trans ⟨?_, fun x hne _ => ⟨Process.rests_releaseContext _ ?_, ?_⟩, fun x d hd => ?_, fun x hq => ?_⟩
      · rw [tasks_releaseContext]
      · rw [(Process.rests_modifyTask_ne m.process hne _).contexts]
        exact ha.disjoint hne (hcs ▸ List.mem_cons_self)
      · simp only [Process.taskAt, tasks_releaseContext, and_self]
      · simpa only [Process.taskAt, tasks_releaseContext] using hd
      · obtain ⟨contexts, free, heq⟩ := Process.releaseContext_eq
          (m.process.modifyTask m.task fun t => { t with contexts := outer }) c
        change x ∈ (Process.releaseContext _ c).queue.toList
        rw [heq]
        exact hq

theorem leads_motion (h : m.Motion m') : m.host.registry.Leads m'.host.registry := by
  cases h with
  | deed h =>
      cases h with
      | host h hr hn => exact hr
      | _ => exact .refl _
  | _ => exact .refl _

theorem leads_travels (h : m.Travels m') : m.host.registry.Leads m'.host.registry := by
  induction h with
  | refl => exact .refl _
  | tail _ h ih => exact ih.trans (leads_motion h)

/-- The innermost context is where it was when the running task has done its deeds. -/
theorem top?_does (hm : m.Sturdy r) (htop : m.top? = some c) (h : m.Does m') :
    m'.top? = some c ∧ (m'.process.contextAt c).footing = (m.process.contextAt c).footing ∧ m.room c ≤ m'.room c := by
  have hrest := rests_does hm.firm.arena (Process.index_lt_of_top? htop) h
  have hfoot := hrest.still c (Process.mem_of_top? htop)
  refine ⟨?_, hfoot, ?_⟩
  · rw [top?, current, task_does h, Task.top?, hrest.contexts]
    exact htop
  · rw [room, room, Context.module_eq_of_footing hfoot]
    exact (leads_travels h.travels).longer.size_le _

end Machine

end Spool
