import Spool.Process.Basic
import Spool.Proofs.Process.Finish
import Spool.Proofs.Process.Start

/-!
# Rosters

What the scheduler of a process goes by: how far each task is and who waits for it, who is in the queue, who is parked,
and which results are on their way elsewhere. Values, contexts and the heap are left out. What is done to the tasks of
a process is done to its roster by the operation of the same name.
-/

namespace Spool

/-- An outcome that reaches all who wait for it: a result, or an error object. -/
def TaskState.Reaches (state : TaskState) (v : Value) : Prop := state = .complete ∨ state = .error ∧ v.handle?.isSome

theorem TaskState.Reaches.isFinished {state : TaskState} {v : Value} (h : state.Reaches v) : state.isFinished := by
  rcases h with rfl | ⟨rfl, _⟩ <;> rfl

/-- What the scheduler knows of a task. -/
structure Standing where
  state : TaskState := .new
  reason : WaitReason := .toStart
  parent : Option TaskId := none
  dependents : List Dependent := []
  remote : Option RemoteLink := none
  initializes : Option ModuleId := none
  /-- What the task has ended with. -/
  result : Option Value := none
  deriving Inhabited

namespace Standing

/-- The task has failed with something that is no object, which no context can take. -/
def stranded (s : Standing) : Bool := s.state = .error && (s.result.bind Value.handle?).isNone

/-- The task has yet to come to its end, or will never get there. -/
def pending (s : Standing) : Bool := !s.state.isFinished || s.stranded

/-- The result that the task owes another process. -/
def due (s : Standing) : List RemoteLink := if s.pending then s.remote.toList else []

def waiters (s : Standing) : List TaskId := s.dependents.map Dependent.task

def addDependent (s : Standing) (t : TaskId) (delivery : Delivery) : Standing :=
  { s with dependents := s.dependents ++ [⟨t, delivery⟩] }

def park (s : Standing) (reason : WaitReason) : Standing := { s with state := .waiting, reason, result := none }

def wake (s : Standing) : Standing := { s with state := .running, reason := .notWaiting, result := none }

/-- The task comes to its end. -/
def conclude (s : Standing) (state : TaskState) (v : Value) : Standing := { s with state, result := some v }

def fail (s : Standing) (error : Value) : Standing := s.conclude .error error

def clear (s : Standing) : Standing := { s with dependents := [], initializes := none }

/-- A task that stands for work done elsewhere. -/
def carrier (parent : TaskId) : Standing := { parent := some parent, state := .waiting, reason := .onFuture }

end Standing

def Task.standing (t : Task) : Standing where
  state := t.state
  reason := t.reason
  parent := t.parent
  dependents := t.dependents
  remote := t.remote
  initializes := t.initializes
  result := if t.state.isFinished then some t.register else none

structure Roster where
  tasks : Array Standing := #[]
  queue : List TaskId := []
  waiting : List TaskId := []
  modules : Bindings ModuleId ModuleState := {}
  inFlight : Nat := 0
  completions : List TaskId := []
  outgoing : List Outgoing := []

namespace Roster

def at? (r : Roster) (t : TaskId) : Option Standing := r.tasks[t.index]?

def standingAt (r : Roster) (t : TaskId) : Standing := r.tasks.getD t.index default

/-- The number of the next task. -/
def next (r : Roster) : TaskId := ⟨r.tasks.size⟩

/-- The tasks that wait for another one. -/
def waiters (r : Roster) : List TaskId := r.tasks.toList.flatMap Standing.waiters

/-- The results that other processes have yet to get. -/
def links (r : Roster) : List RemoteLink := r.tasks.toList.flatMap Standing.due ++ r.outgoing.map Outgoing.link

/-! ## Changes -/

def update (r : Roster) (t : TaskId) (f : Standing → Standing) : Roster := { r with tasks := r.tasks.modify t.index f }

def add (r : Roster) (s : Standing) : Roster := { r with tasks := r.tasks.push s }

def enqueue (r : Roster) (t : TaskId) : Roster := { r with queue := r.queue ++ [t] }

def park (r : Roster) (t : TaskId) (reason : WaitReason) : Roster :=
  { r.update t (·.park reason) with waiting := r.waiting.insert t }

/-- A task waits for another one. -/
def await (r : Roster) (t y : TaskId) (delivery : Delivery) (reason : WaitReason) : Roster :=
  (r.update y (·.addDependent t delivery)).park t reason

/-- A new task, in the queue. -/
def start (r : Roster) (s : Standing) : Roster := (r.add s).enqueue r.next

/-- A new task that stands for work done elsewhere. -/
def carry (r : Roster) (parent : TaskId) : Roster :=
  { r.add (.carrier parent) with waiting := r.waiting.insert r.next }

def setModule (r : Roster) (m : ModuleId) (state : ModuleState) : Roster :=
  { r with modules := r.modules.insert m state }

def wake (r : Roster) (t : TaskId) : Roster :=
  if (r.standingAt t).state.isFinished then r
  else { r.update t Standing.wake with waiting := r.waiting.erase t, queue := r.queue ++ [t] }

/-- The outcome of a task reaches one that waits for it. -/
def deliver (r : Roster) (failed : Bool) (result : Value) (d : Dependent) : Roster :=
  if (r.standingAt d.task).state.isFinished then r
  else if failed && result.handle?.isNone then r.update d.task (·.fail result)
  else r.wake d.task

def markReady (r : Roster) : Option ModuleId → Roster
  | some m => r.setModule m .ready
  | none => r

/-- A finished task is off the books, with nobody told of it yet. -/
def clear (r : Roster) (t : TaskId) : Roster :=
  { (r.markReady (r.standingAt t).initializes).update t Standing.clear with waiting := r.waiting.erase t }

def finish (r : Roster) (t : TaskId) : Roster :=
  let s := r.standingAt t
  s.dependents.foldl (fun r d => r.deliver (s.state = .error) (s.result.getD .none) d) (r.clear t)

/-- The result of a finished task is kept for another process, if there is one that waits for it. -/
def owe (r : Roster) (t : TaskId) : Roster :=
  { r with outgoing := r.outgoing ++ (r.standingAt t).remote.toList.map fun link => ⟨t, link⟩ }

/-- A task comes to its end and is taken off the books. -/
def conclude (r : Roster) (t : TaskId) (state : TaskState) (v : Value) : Roster :=
  ((r.update t (·.conclude state v)).owe t).finish t

/-! ## Looking up -/

variable {r : Roster} {t x : TaskId} {s : Standing}

theorem index_lt_of_at? (hs : r.at? t = some s) : t.index < r.tasks.size := (Array.getElem?_eq_some_iff.1 hs).1

theorem standingAt_of_at? (hs : r.at? t = some s) : r.standingAt t = s := by
  simp only [at?] at hs
  simp [standingAt, Array.getD_eq_getD_getElem?, hs]

theorem at?_of_index_lt (ht : t.index < r.tasks.size) : r.at? t = some (r.standingAt t) := by
  simp [at?, standingAt, Array.getD_eq_getD_getElem?, ht]

theorem at?_update (r : Roster) (t : TaskId) (f : Standing → Standing) (x : TaskId) :
    (r.update t f).at? x = if t = x then (r.at? x).map f else r.at? x := by
  simp only [at?, update, Array.getElem?_modify]
  by_cases h : t = x
  · simp [h]
  · have : t.index ≠ x.index := by
      intro hi
      apply h
      cases t
      cases x
      simp_all
    simp [h, this]

theorem at?_add (r : Roster) (s : Standing) (x : TaskId) :
    (r.add s).at? x = if x = r.next then some s else r.at? x := by
  simp only [at?, add, Array.getElem?_push]
  by_cases h : x = r.next
  · simp [h, next]
  · have : x.index ≠ r.tasks.size := by
      intro hi
      apply h
      cases x
      simp_all [next]
    simp [h, this]

theorem at?_start (r : Roster) (s : Standing) : (r.start s).at? r.next = some s := by
  have := at?_add r s r.next
  rw [if_pos rfl] at this
  exact this

theorem at?_next (r : Roster) : r.at? r.next = none := by
  simp [at?, next]

theorem ne_next_of_at? (hs : r.at? t = some s) : t ≠ r.next := by
  rintro rfl
  rw [at?_next] at hs
  cases hs

theorem standingAt_eq (r : Roster) (t : TaskId) : r.standingAt t = (r.at? t).getD default := by
  simp [standingAt, at?, Array.getD_eq_getD_getElem?]

theorem standingAt_add (r : Roster) (s : Standing) (x : TaskId) :
    (r.add s).standingAt x = if x = r.next then s else r.standingAt x := by
  simp only [standingAt_eq, at?_add]
  split <;> rfl

/-- What a change of one row keeps of a row it keeps of every row. -/
theorem standingAt_update {P : Standing → Prop} {f : Standing → Standing} (hx : P (r.standingAt x))
    (hf : ∀ s, P s → P (f s)) : P ((r.update t f).standingAt x) := by
  simp only [standingAt_eq, at?_update] at hx ⊢
  split
  · cases h : r.at? x with
    | none => simpa [h] using hx
    | some s =>
        rw [h] at hx
        exact hf s hx
  · exact hx

@[simp] theorem size_update (r : Roster) (t : TaskId) (f : Standing → Standing) :
    (r.update t f).tasks.size = r.tasks.size := by
  simp [update]

theorem owe_of_unlinked (ht : (r.standingAt t).remote = none) : r.owe t = r := by
  simp [owe, ht]

theorem update_eq_self (ht : r.at? t = none) (f : Standing → Standing) : r.update t f = r := by
  simp only [update, Table.modify_eq_self ht]

/-! ## Rows and lists over all rows -/

/-- A change of one row of the roster changes the waiters by those of that row. -/
theorem waiters_update {f : Standing → Standing} {A B : List TaskId} (hs : r.at? t = some s)
    (hf : (A ++ (f s).waiters).Perm (B ++ s.waiters)) : (A ++ (r.update t f).waiters).Perm (B ++ r.waiters) :=
  Table.perm_flatMap_modify hs hf

theorem waiters_update_frame (r : Roster) (t : TaskId) {f : Standing → Standing} (hf : ∀ s, (f s).waiters = s.waiters) :
    (r.update t f).waiters = r.waiters :=
  Table.flatMap_modify hf t.index

theorem waiters_add (r : Roster) (s : Standing) : (r.add s).waiters = r.waiters ++ s.waiters := by
  simp [waiters, add]

theorem mem_waiters : x ∈ r.waiters ↔ ∃ t s, r.at? t = some s ∧ x ∈ s.waiters := by
  simp only [waiters, List.mem_flatMap, Array.mem_toList_iff, Array.mem_iff_getElem?]
  constructor
  · rintro ⟨s, ⟨i, hi⟩, hx⟩
    exact ⟨⟨i⟩, s, hi, hx⟩
  · rintro ⟨t, s, hs, hx⟩
    exact ⟨s, ⟨t.index, hs⟩, hx⟩

theorem waiters_add_nil (r : Roster) {s : Standing} (hs : s.dependents = []) : (r.add s).waiters = r.waiters := by
  simp [waiters_add, Standing.waiters, hs]

end Roster

/-! ## The roster of a process -/

namespace Process

variable {p : Process} {t x : TaskId} {task : Task}

def roster (p : Process) : Roster where
  tasks := p.tasks.map Task.standing
  queue := p.queue.toList
  waiting := p.waiting
  modules := p.modules
  inFlight := p.inFlight
  completions := p.completions.map Completion.task
  outgoing := p.outgoing

theorem at?_roster (p : Process) (t : TaskId) : p.roster.at? t = (p.tasks[t.index]?).map Task.standing := by
  simp [roster, Roster.at?]

theorem at?_roster_of (ht : p.tasks[t.index]? = some task) : p.roster.at? t = some task.standing := by
  rw [at?_roster, ht]
  rfl

/-- What is known of a task is known of its row. -/
theorem at?_taskAt (ht : t.index < p.tasks.size) : p.roster.at? t = some (p.taskAt t).standing :=
  at?_roster_of (getElem?_of_index_lt ht)

theorem standingAt_roster (p : Process) (t : TaskId) : p.roster.standingAt t = (p.taskAt t).standing := by
  simp only [Roster.standingAt, taskAt, roster, Array.getD_eq_getD_getElem?, Array.getElem?_map]
  cases p.tasks[t.index]? with
  | none => rfl
  | some task => rfl

@[simp] theorem size_roster (p : Process) : p.roster.tasks.size = p.tasks.size := by
  simp [roster]

theorem waiters_roster (p : Process) : p.roster.waiters = p.waiters := by
  simp only [Roster.waiters, roster, waiters, Array.toList_map, List.flatMap_map]
  rfl

theorem next_roster (p : Process) : p.roster.next = ⟨p.tasks.size⟩ := by
  simp [Roster.next, roster]

theorem map_modify_tasks {f : Task → Task} {g : Standing → Standing}
    (hf : ∀ task, p.tasks[t.index]? = some task → (f task).standing = g task.standing) :
    (p.tasks.modify t.index f).map Task.standing = (p.tasks.map Task.standing).modify t.index g := by
  apply Array.ext_getElem?
  intro i
  simp only [Array.getElem?_map, Array.getElem?_modify]
  by_cases hi : t.index = i
  · subst hi
    cases ht : p.tasks[t.index]? with
    | none => simp
    | some task => simp [hf task ht]
  · simp [hi]

theorem roster_modifyTask {f : Task → Task} {g : Standing → Standing}
    (hf : ∀ task, p.tasks[t.index]? = some task → (f task).standing = g task.standing) :
    (p.modifyTask t f).roster = p.roster.update t g := by
  simp [roster, modifyTask, Roster.update, map_modify_tasks hf]

theorem roster_modifyTask_frame {f : Task → Task}
    (hf : ∀ task, p.tasks[t.index]? = some task → (f task).standing = task.standing) :
    (p.modifyTask t f).roster = p.roster := by
  rw [roster_modifyTask (g := fun s => s) hf]
  simp only [Roster.update]
  congr 1
  apply Array.ext_getElem?
  intro i
  rw [Array.getElem?_modify]
  split <;> simp [roster, Function.comp_def]

theorem roster_enqueue (p : Process) (t : TaskId) : (p.enqueue t).roster = p.roster.enqueue t := by
  simp [roster, enqueue, Roster.enqueue]

theorem roster_park (p : Process) (t : TaskId) (reason : WaitReason) :
    (p.park t reason).roster = p.roster.park t reason := by
  have hrows := map_modify_tasks (p := p) (t := t) (f := (·.park reason)) (g := (·.park reason)) fun _ _ => rfl
  simp [roster, park, Roster.park, Roster.update, hrows]

theorem roster_newTask (p : Process) (parent : Option TaskId) :
    (p.newTask parent).2.roster = p.roster.add { parent } := by
  simp [roster, newTask, Roster.add, Task.standing, TaskState.isFinished]

theorem roster_newCarrier (p : Process) (parent : TaskId) :
    (p.newCarrier parent).2.roster = p.roster.carry parent := by
  have : (p.newCarrier parent).2 = (p.newTask (some parent)).2.park ⟨p.tasks.size⟩ .onFuture := rfl
  rw [this, roster_park, roster_newTask]
  simp only [Roster.park, Roster.carry, Roster.update, Roster.add, next_roster]
  congr 1
  apply Array.ext_getElem?
  intro i
  simp only [Array.getElem?_modify, Array.getElem?_push]
  by_cases hi : p.tasks.size = i
  · subst hi
    simp [roster, Standing.park, Standing.carrier]
  · simp [hi, Ne.symm hi]

theorem roster_startTask (p : Process) (parent : Option TaskId) (argument : Value) (context : TaskId → Context) :
    (p.startTask parent argument context).2.roster = p.roster.add { parent } := by
  obtain ⟨contexts, free, heq⟩ := newContext_frame (p.newTask parent).2 (context ⟨p.tasks.size⟩)
  rw [startTask_snd, heq, roster_modifyTask_frame]
  · exact roster_newTask p parent
  · intro task ht
    cases (getElem?_newTask p parent).symm.trans ht
    rfl

theorem startModule_snd (p : Process) (m : ModuleId) (parent : Option TaskId) :
    ∃ q : Process, q.roster = p.roster.add { parent } ∧ q.tasks[p.tasks.size]?.map Task.standing = some { parent } ∧
      q.modules = p.modules ∧ (p.startModule m parent).2
        = { q.modifyTask ⟨p.tasks.size⟩ fun task => { task with initializes := some m } with
            modules := q.modules.insert m (.initializing ⟨p.tasks.size⟩) } := by
  have hroster := roster_startTask p parent .none fun task => { task, kind := .moduleRoot, module := m, cursor := 0 }
  refine ⟨_, hroster, ?_, ?_, rfl⟩
  · have hat := at?_roster (p.startTask parent .none fun task =>
      { task, kind := .moduleRoot, module := m, cursor := 0 }).2 ⟨p.tasks.size⟩
    rw [hroster, Roster.at?_add, if_pos (next_roster p).symm] at hat
    exact hat.symm
  · exact congrArg Roster.modules hroster

theorem roster_startModule (p : Process) (m : ModuleId) (parent : Option TaskId) :
    (p.startModule m parent).2.roster
      = (p.roster.add { parent, initializes := some m }).setModule m (.initializing p.roster.next) := by
  obtain ⟨q, hq, hrow, hmod, heq⟩ := startModule_snd p m parent
  have hnew : (q.modifyTask ⟨p.tasks.size⟩ fun task => { task with initializes := some m }).roster
      = p.roster.add { parent, initializes := some m } := by
    rw [roster_modifyTask (g := fun s => { s with initializes := some m }) fun _ _ => rfl, hq]
    simp only [Roster.update, Roster.add]
    congr 1
    apply Array.ext_getElem?
    intro i
    simp only [Array.getElem?_modify, Array.getElem?_push]
    rw [size_roster]
    by_cases hi : p.tasks.size = i
    · simp [hi]
    · simp [hi, Ne.symm hi]
  rw [heq]
  have hmods : (q.modifyTask ⟨p.tasks.size⟩ fun task => { task with initializes := some m }).roster.modules
      = p.roster.modules := by
    rw [hnew]
    rfl
  simp only [Roster.setModule, ← hnew]
  rw [next_roster]
  simp [roster, hmod, modifyTask]

/-! ## Finishing -/

theorem standing_cleared (task : Task) : task.cleared.standing = task.standing.clear := rfl

theorem roster_clear (p : Process) (t : TaskId) : (p.clear t).roster = p.roster.clear t := by
  obtain ⟨contexts, free, heq⟩ := clear_eq p t
  have hrows : (p.clear t).tasks.map Task.standing = (p.tasks.map Task.standing).modify t.index Standing.clear := by
    apply Array.ext_getElem?
    intro i
    have hget := getElem?_clear p t ⟨i⟩
    simp only [Array.getElem?_map, Array.getElem?_modify]
    rw [show (p.clear t).tasks[i]? = _ from hget]
    by_cases hi : t = ⟨i⟩
    · subst hi
      simp [Option.map_map, Function.comp_def, standing_cleared]
    · have : t.index ≠ i := by
        rintro rfl
        exact hi rfl
      simp [hi, this]
  have hinit : (p.roster.standingAt t).initializes = (p.taskAt t).initializes := by
    rw [standingAt_roster]
    rfl
  have hfields : (p.clear t).queue = p.queue ∧ (p.clear t).waiting = p.waiting.erase t ∧
      (p.clear t).modules = (p.markReady (p.taskAt t).initializes).modules ∧ (p.clear t).inFlight = p.inFlight ∧
      (p.clear t).completions = p.completions ∧ (p.clear t).outgoing = p.outgoing := by
    rw [heq]
    exact ⟨rfl, rfl, rfl, rfl, rfl, rfl⟩
  obtain ⟨hq, hw, hm, hi, hc, ho⟩ := hfields
  rw [Roster.clear, hinit]
  cases hcase : (p.taskAt t).initializes with
  | none =>
      rw [hcase] at hm
      simp [roster, hrows, hq, hw, hm, hi, hc, ho, Roster.markReady, Process.markReady, Roster.update]
  | some m =>
      rw [hcase] at hm
      simp [roster, hrows, hq, hw, hm, hi, hc, ho, Roster.markReady, Process.markReady, Roster.update, Roster.setModule]

theorem roster_wake (p : Process) (t : TaskId) : (p.wake t).roster = p.roster.wake t := by
  unfold Process.wake Roster.wake
  rw [standingAt_roster]
  change (if (p.taskAt t).state.isFinished then _ else _ : Process).roster =
    if (p.taskAt t).state.isFinished then _ else _
  split
  · rfl
  · have hf : ∀ task : Task, p.tasks[t.index]? = some task →
        ({ task with state := .running, reason := .notWaiting } : Task).standing = task.standing.wake := fun _ _ => rfl
    simp [roster, Roster.update, map_modify_tasks hf]

theorem roster_failTask (p : Process) (t : TaskId) (error : Value) :
    (p.failTask t error).roster = p.roster.update t (·.fail error) :=
  roster_modifyTask fun _ _ => rfl

/-- A task that waits with a context of its own can take any object for an error. -/
theorem roster_deliver (p : Process) (failed : Bool) (result : Value) (d : Dependent)
    (hc : ¬ (p.taskAt d.task).state.isFinished → (p.taskAt d.task).contexts ≠ []) :
    (p.deliver failed result d).roster = p.roster.deliver failed result d := by
  unfold Process.deliver Roster.deliver
  rw [standingAt_roster]
  change (if (p.taskAt d.task).state.isFinished then _ else _ : Process).roster =
    if (p.taskAt d.task).state.isFinished then _ else _
  split
  · rfl
  · rename_i hun
    obtain ⟨c, rest, hcs⟩ := List.exists_cons_of_ne_nil (hc hun)
    have htop : (p.taskAt d.task).top? = some c := by simp [Task.top?, hcs]
    cases failed with
    | true =>
        cases result with
        | object r =>
            simp only [deliverError, htop, Value.handle?]
            exact roster_wake (p.modifyContext c fun c => { c with error := some r }) d.task
        | none => simp [deliverError, htop, Value.handle?, roster_failTask]
        | scalar s => simp [deliverError, htop, Value.handle?, roster_failTask]
    | false =>
        cases d.delivery with
        | result =>
            simp only [Bool.false_and, Bool.false_eq_true, ↓reduceIte]
            rw [roster_wake, roster_modifyTask_frame]
            intro task ht
            rw [taskAt_of_getElem? ht] at hun
            simp [Task.standing, hun]
        | keep => simp [roster_wake]

/-- What is neither state nor register of a task does not change when an outcome is delivered. -/
theorem field_deliver {α : Type} {g : Task → α}
    (hg : ∀ task state reason register, g { task with state, reason, register } = g task)
    (p : Process) (failed : Bool) (result : Value) (d : Dependent) (x : TaskId) :
    g ((p.deliver failed result d).taskAt x) = g (p.taskAt x) := by
  have hrow : ∀ (q : Process) (f : Task → Task), (∀ task, g (f task) = g task) →
      g ((q.modifyTask d.task f).taskAt x) = g (q.taskAt x) := by
    intro q f hf
    rw [taskAt_modifyTask]
    split
    · exact hf _
    · rfl
  have hwake : ∀ q : Process, g ((q.wake d.task).taskAt x) = g (q.taskAt x) := by
    intro q
    unfold Process.wake
    split
    · rfl
    · exact hrow q _ fun task => hg task .running .notWaiting task.register
  unfold Process.deliver
  split
  · rfl
  · split
    · unfold deliverError
      split
      · exact hwake _
      · exact hrow p _ fun task => hg task .error task.reason _
    · split
      · exact (hwake _).trans (hrow p _ fun task => hg task task.state task.reason result)
      · exact hwake p

theorem contexts_deliver (p : Process) (failed : Bool) (result : Value) (d : Dependent) (x : TaskId) :
    ((p.deliver failed result d).taskAt x).contexts = (p.taskAt x).contexts :=
  field_deliver (g := Task.contexts) (fun _ _ _ _ => rfl) p failed result d x

theorem roster_deliverAll (failed : Bool) (result : Value) (ds : List Dependent) :
    ∀ p : Process, (∀ d ∈ ds, (p.taskAt d.task).contexts ≠ []) →
      (ds.foldl (fun p d => p.deliver failed result d) p).roster
        = ds.foldl (fun r d => r.deliver failed result d) p.roster := by
  induction ds with
  | nil => exact fun _ _ => rfl
  | cons d rest ih =>
      intro p hc
      rw [List.foldl_cons, List.foldl_cons, ih, roster_deliver p failed result d fun _ => hc d List.mem_cons_self]
      intro e he
      rw [contexts_deliver]
      exact hc e (List.mem_cons_of_mem d he)

theorem roster_finish (hfin : (p.taskAt t).state.isFinished)
    (hc : ∀ d ∈ (p.taskAt t).dependents, t ≠ d.task ∧ (p.taskAt d.task).contexts ≠ []) :
    (p.finish t).roster = p.roster.finish t := by
  have hresult : (p.roster.standingAt t).result.getD .none = (p.taskAt t).register := by
    rw [standingAt_roster]
    simp [Task.standing, hfin]
  rw [finish_eq, roster_deliverAll, roster_clear, Roster.finish, hresult, standingAt_roster]
  · rfl
  · intro d hd
    obtain ⟨hne, hctx⟩ := hc d hd
    have hget := getElem?_clear p t d.task
    rw [if_neg hne] at hget
    simp only [taskAt, Array.getD_eq_getD_getElem?, hget]
    simpa only [taskAt, Array.getD_eq_getD_getElem?] using hctx

end Process

end Spool
