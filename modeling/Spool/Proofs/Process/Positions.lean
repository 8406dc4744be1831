import Spool.Proofs.Process.Arena
import Spool.Proofs.Registry.Checked

/-!
# Where contexts stand

A context stands at a position of the tape of its module, or just past the end, and so does its handler. What is
done to a process between two instructions moves no context; of the stacks it takes some away.
-/

namespace Spool

namespace Context

/-- What a context is and where it stands. -/
def outline (c : Context) : Context := { c with receiver := .none, locals := {}, error := none, pinned := false }

/-- Cursor and handler are positions of a tape of this size, or just past its end. -/
def Within (size : Nat) (c : Context) : Prop := c.cursor ≤ size ∧ ∀ h, c.handler = some h → h ≤ size

theorem module_eq_of_outline {c d : Context} (h : c.outline = d.outline) : c.module = d.module :=
  congrArg (·.module) h

theorem cursor_eq_of_outline {c d : Context} (h : c.outline = d.outline) : c.cursor = d.cursor :=
  congrArg (·.cursor) h

theorem handler_eq_of_outline {c d : Context} (h : c.outline = d.outline) : c.handler = d.handler :=
  congrArg (·.handler) h

theorem Within.of_outline {c d : Context} {size : Nat} (hc : c.Within size) (h : d.outline = c.outline) :
    d.Within size := by
  unfold Within
  rw [cursor_eq_of_outline h, handler_eq_of_outline h]
  exact hc

end Context

namespace Process

variable {p p' q : Process} {loose : List ContextId} {t : TaskId} {c d : ContextId} {f : Task → Task} {r r' : Registry}

/-! ## Processes whose contexts have not moved -/

structure Stands (p p' : Process) : Prop where
  outline : ∀ c, (p'.contextAt c).outline = (p.contextAt c).outline
  stack : ∀ (i : Nat) task', p'.tasks[i]? = some task' → ∃ task, p.tasks[i]? = some task ∧ task'.contexts ⊆ task.contexts

theorem Stands.refl (p : Process) : p.Stands p := ⟨fun _ => rfl, fun _ task h => ⟨task, h, fun _ hc => hc⟩⟩

theorem Stands.trans (h : p.Stands p') (h' : p'.Stands q) : p.Stands q := by
  refine ⟨fun c => (h'.outline c).trans (h.outline c), fun i task' ht => ?_⟩
  obtain ⟨task, ht', hsub'⟩ := h'.stack i task' ht
  obtain ⟨old, hold, hsub⟩ := h.stack i task ht'
  exact ⟨old, hold, fun _ hc => hsub (hsub' hc)⟩

theorem stands_of_eq (ht : p'.tasks = p.tasks) (hc : p'.contexts = p.contexts) : p.Stands p' := by
  refine ⟨fun c => by simp only [contextAt, hc], fun i task h => ⟨task, ht ▸ h, fun _ hc => hc⟩⟩

theorem stands_modifyContext (p : Process) (c : ContextId) {f : Context → Context} (hf : ∀ x, (f x).outline = x.outline) :
    p.Stands (p.modifyContext c f) := by
  refine ⟨fun d => ?_, fun _ task h => ⟨task, h, fun _ hc => hc⟩⟩
  rw [contextAt_modifyContext]
  split
  · exact hf _
  · rfl

theorem stands_modifyTask (p : Process) (t : TaskId) (hf : ∀ task, (f task).contexts ⊆ task.contexts) :
    p.Stands (p.modifyTask t f) := by
  refine ⟨fun _ => rfl, fun i task' h => ?_⟩
  have hget := getElem?_modifyTask p t f ⟨i⟩
  rw [show (p.modifyTask t f).tasks[i]? = some task' from h] at hget
  split at hget
  · obtain ⟨task, ht, rfl⟩ := Option.map_eq_some_iff.1 hget.symm
    exact ⟨task, ht, hf task⟩
  · exact ⟨task', hget.symm, fun _ hc => hc⟩

theorem stands_modifyTask_frame (p : Process) (t : TaskId) (hf : ∀ task, (f task).contexts = task.contexts) :
    p.Stands (p.modifyTask t f) :=
  stands_modifyTask p t fun task _ hc => hf task ▸ hc

theorem stands_pinned {cs : List ContextId} (h : Pinned cs p p') : p.Stands p' := by
  obtain ⟨⟨contexts, rfl⟩, _, hsame, _⟩ := h
  refine ⟨fun d => ?_, fun _ task h => ⟨task, h, fun _ hc => hc⟩⟩
  obtain ⟨b, hb⟩ := hsame d
  rw [hb]
  rfl

theorem stands_releaseContext (p : Process) (c : ContextId) : p.Stands (p.releaseContext c) := by
  unfold releaseContext
  split
  · exact .refl p
  · have hempty := stands_modifyContext p c (f := fun c => { c with locals := {}, error := none, receiver := .none })
      fun _ => rfl
    exact hempty.trans (stands_of_eq rfl rfl)

theorem stands_releaseAll (cs : List ContextId) : ∀ p : Process, p.Stands (cs.foldl releaseContext p) := by
  induction cs with
  | nil => exact .refl
  | cons c rest ih => exact fun p => (stands_releaseContext p c).trans (ih _)

theorem stands_wake (p : Process) (t : TaskId) : p.Stands (p.wake t) := by
  unfold wake
  split
  · exact .refl p
  · have hrun := stands_modifyTask_frame p t (f := fun t => { t with state := .running, reason := .notWaiting })
      fun _ => rfl
    exact hrun.trans (stands_of_eq rfl rfl)

theorem stands_deliver (p : Process) (failed : Bool) (v : Value) (d : Dependent) : p.Stands (p.deliver failed v d) := by
  unfold deliver deliverError failTask
  split
  · exact .refl p
  · split
    · split
      · rename_i c e _
        exact (stands_modifyContext p c (f := fun c => { c with error := some e }) fun _ => rfl).trans (stands_wake _ _)
      · exact stands_modifyTask_frame p _ fun _ => rfl
    · split
      · exact (stands_modifyTask_frame p d.task (f := fun t => { t with register := v }) fun _ => rfl).trans
          (stands_wake _ _)
      · exact stands_wake p _

theorem stands_clear (p : Process) (t : TaskId) : p.Stands (p.clear t) := by
  have hlist : p.Stands (p.unlist t) :=
    (stands_modifyTask_frame p t (f := fun t => { t with dependents := [], initializes := none }) fun _ => rfl).trans
      (stands_of_eq rfl rfl)
  have hempty := stands_modifyTask (p.unlist t) t (f := fun t => { t with contexts := [] }) fun _ => by simp
  exact (hlist.trans hempty).trans (stands_releaseAll _ _)

theorem stands_finish (p : Process) (t : TaskId) : p.Stands (p.finish t) := by
  have hall : ∀ (ds : List Dependent) (q : Process), q.Stands (ds.foldl
      (fun q d => q.deliver ((p.taskAt t).state = .error) (p.taskAt t).register d) q) := by
    intro ds
    induction ds with
    | nil => exact .refl
    | cons d rest ih => exact fun q => (stands_deliver q _ _ d).trans (ih _)
  rw [finish_eq]
  exact (stands_clear p t).trans (hall _ _)

/-! ## Positions on tapes -/

/-- Every context stands on the tape of its module, and the contexts of a stack are of one module. -/
structure OnTape (r : Registry) (p : Process) : Prop where
  within : ∀ c, (p.contextAt c).Within (r.moduleAt (p.contextAt c).module).tape.size
  uniform : ∀ task ∈ p.tasks, ∀ c ∈ task.contexts, ∀ d ∈ task.contexts, (p.contextAt c).module = (p.contextAt d).module

theorem OnTape.stands (hp : p.OnTape r) (h : p.Stands p') : p'.OnTape r := by
  refine ⟨fun c => ?_, fun task' ht c hc d hd => ?_⟩
  · rw [Context.module_eq_of_outline (h.outline c)]
    exact (hp.within c).of_outline (h.outline c)
  · obtain ⟨i, hi⟩ := Array.mem_iff_getElem?.1 ht
    obtain ⟨task, ht, hsub⟩ := h.stack i task' hi
    rw [Context.module_eq_of_outline (h.outline c), Context.module_eq_of_outline (h.outline d)]
    exact hp.uniform task (Array.mem_of_getElem? ht) c (hsub hc) d (hsub hd)

theorem OnTape.longer (hp : p.OnTape r) (h : r.Longer r') : p.OnTape r' := by
  refine ⟨fun c => ?_, hp.uniform⟩
  obtain ⟨hcursor, hhandler⟩ := hp.within c
  have hle := h.size_le (p.contextAt c).module
  exact ⟨Nat.le_trans hcursor hle, fun x hx => Nat.le_trans (hhandler x hx) hle⟩

/-- A context moves. -/
theorem OnTape.modifyContext (hp : p.OnTape r) (c : ContextId) {f : Context → Context}
    (hm : ∀ x, (f x).module = x.module)
    (hf : (f (p.contextAt c)).Within (r.moduleAt (p.contextAt c).module).tape.size) : (p.modifyContext c f).OnTape r := by
  have hat := contextAt_modifyContext p c f
  have hmodule : ∀ d, ((p.modifyContext c f).contextAt d).module = (p.contextAt d).module := fun d => by
    rw [hat]
    split
    · exact hm _
    · rfl
  refine ⟨fun d => ?_, fun task ht x hx y hy => ?_⟩
  · rw [hmodule, hat]
    split
    · rename_i h
      obtain ⟨rfl, _⟩ := h
      exact hf
    · exact hp.within d
  · rw [hmodule, hmodule]
    exact hp.uniform task ht x hx y hy

/-- One stack has changed, and its contexts are of one module. -/
theorem OnTape.modifyTask (hp : p.OnTape r) {task : Task} (ht : p.tasks[t.index]? = some task)
    (hf : ∀ c ∈ (f task).contexts, ∀ d ∈ (f task).contexts, (p.contextAt c).module = (p.contextAt d).module) :
    (p.modifyTask t f).OnTape r := by
  refine ⟨hp.within, fun row hrow => ?_⟩
  obtain ⟨i, hi⟩ := Array.mem_iff_getElem?.1 hrow
  have hget := getElem?_modifyTask p t f ⟨i⟩
  rw [show (p.modifyTask t f).tasks[i]? = some row from hi] at hget
  split at hget
  · rename_i heq
    subst heq
    rw [ht] at hget
    cases hget
    exact hf
  · exact hp.uniform row (Array.mem_of_getElem? hget.symm)

theorem OnTape.newContext (hp : p.OnTape r) (ha : p.Arena loose) {x : Context} (hun : x.pinned = false)
    (hx : x.Within (r.moduleAt x.module).tape.size) : (p.newContext x).2.OnTape r := by
  obtain ⟨_, hat, _, hnot, _⟩ := ha.newContext hun
  have htasks := (newContext_eq p x).2.1
  refine ⟨fun c => ?_, fun task ht c hc d hd => ?_⟩
  · by_cases hc : c = (p.newContext x).1
    · rw [hc, hat]
      exact hx
    · rw [contextAt_newContext p x hc]
      exact hp.within c
  · rw [htasks] at ht
    have hold : ∀ e ∈ task.contexts, (p.newContext x).2.contextAt e = p.contextAt e := fun e he =>
      contextAt_newContext p x fun h => hnot (h ▸ mem_stacked ht he)
    rw [hold c hc, hold d hd]
    exact hp.uniform task ht c hc d hd

theorem OnTape.newTask (hp : p.OnTape r) (parent : Option TaskId) : (p.newTask parent).2.OnTape r := by
  refine ⟨hp.within, fun task ht => ?_⟩
  rcases Array.mem_push.1 ht with ht | rfl
  · exact hp.uniform task ht
  · simp

theorem OnTape.startTask (hp : p.OnTape r) (ha : p.Arena loose) (parent : Option TaskId) (argument : Value)
    {context : TaskId → Context} (hun : ∀ t, (context t).pinned = false)
    (hx : ∀ t, (context t).Within (r.moduleAt (context t).module).tape.size) :
    (p.startTask parent argument context).2.OnTape r := by
  have hnew := (hp.newTask parent).newContext (ha.newTask parent) (hun ⟨p.tasks.size⟩) (hx ⟨p.tasks.size⟩)
  have htasks := (newContext_eq (p.newTask parent).2 (context ⟨p.tasks.size⟩)).2.1
  rw [startTask_snd]
  have htask : ((p.newTask parent).2.newContext (context ⟨p.tasks.size⟩)).2.tasks[p.tasks.size]? = some { parent } := by
    rw [htasks]
    exact getElem?_newTask p parent
  exact hnew.modifyTask (t := ⟨p.tasks.size⟩) htask (by simp)

theorem OnTape.startCall (hp : p.OnTape r) (ha : p.Arena loose) (hr : r.Checked) {b : BoundFunction} {start : Nat}
    (hs : (r.functionAt b.function).kind = .user start) (argument : Value) (parent : Option TaskId) :
    (p.startCall r b start argument parent).2.OnTape r :=
  hp.startTask ha parent argument (fun _ => rfl) fun _ => ⟨hr.start_le hs, fun _ h => by cases h⟩

theorem OnTape.startModule (hp : p.OnTape r) (ha : p.Arena loose) (m : ModuleId) (parent : Option TaskId) :
    (p.startModule m parent).2.OnTape r := by
  have hstart : (p.startTask parent .none fun task => { task, kind := .moduleRoot, module := m, cursor := 0 }).2.OnTape r :=
    hp.startTask ha parent .none (fun _ => rfl) fun _ => ⟨Nat.zero_le _, fun _ h => by cases h⟩
  have hmark := stands_modifyTask_frame (f := fun task => { task with initializes := some m })
    (p.startTask parent .none fun task => { task, kind := .moduleRoot, module := m, cursor := 0 }).2
    (p.startTask parent .none fun task => { task, kind := .moduleRoot, module := m, cursor := 0 }).1 fun _ => rfl
  exact (hstart.stands hmark).stands (stands_of_eq rfl rfl)

theorem OnTape.newCarrier (hp : p.OnTape r) (parent : TaskId) : (p.newCarrier parent).2.OnTape r := by
  have hpark := stands_modifyTask_frame (p.newTask (some parent)).2 ⟨p.tasks.size⟩ (f := (·.park .onFuture)) fun _ => rfl
  exact ((hp.newTask (some parent)).stands hpark).stands (stands_of_eq rfl rfl)

theorem onTape_of_empty (ht : p.tasks = #[]) (hc : p.contexts = #[]) : p.OnTape r := by
  refine ⟨fun c => ?_, by simp [ht]⟩
  simp [contextAt, hc, Context.Within, default, instInhabitedContext.default]

end Process

end Spool
