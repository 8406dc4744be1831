import Spool.Proofs.Machine.Steady
import Spool.Proofs.Process.Ordered

/-!
# What others see of a running task

A task that runs makes new tasks, hands work to the background pool or starts a process, and goes on; or it waits for
another task. Each of these is a change of the view that others have of the machine.
-/

namespace Spool

namespace Roster

/-- A new task that stands for a background call. -/
def launch (r : Roster) (parent : TaskId) : Roster := { r.carry parent with inFlight := r.inFlight + 1 }

/-- A new task for the top level of a module. -/
def load (r : Roster) (m : ModuleId) (parent : TaskId) : Roster :=
  (r.start { parent := some parent, initializes := some m }).setModule m (.initializing r.next)

/-- A task, its parent and so on, as many as there is fuel for. -/
def ancestryFrom (r : Roster) : (fuel : Nat) → TaskId → List TaskId
  | 0, _ => []
  | fuel + 1, t =>
    match (r.standingAt t).parent with
    | some parent => t :: r.ancestryFrom fuel parent
    | none => [t]

def ancestry (r : Roster) (t : TaskId) : List TaskId := r.ancestryFrom (r.tasks.size + 1) t

/-- The roster of a process that has just been made, and whose first task has a result for another process. -/
structure Fledgling (r : Roster) (link : RemoteLink) : Prop where
  tasks : r.tasks = #[{ remote := some link }]
  queue : r.queue = [⟨0⟩]
  waiting : r.waiting = []
  completions : r.completions = []
  outgoing : r.outgoing = []
  ready : ∀ m t, r.modules.get? m ≠ some (.initializing t)

end Roster

namespace Process

theorem ancestryFrom_roster (p : Process) (fuel : Nat) (t : TaskId) :
    p.roster.ancestryFrom fuel t = p.ancestryFrom fuel t := by
  induction fuel generalizing t with
  | zero => rfl
  | succ fuel ih =>
      simp only [Roster.ancestryFrom, ancestryFrom, standingAt_roster, Task.standing]
      cases (p.taskAt t).parent with
      | none => rfl
      | some parent => simp [ih]

theorem ancestry_roster (p : Process) (t : TaskId) : p.roster.ancestry t = p.ancestry t := by
  simp only [Roster.ancestry, Process.ancestry, size_roster]
  exact ancestryFrom_roster p _ t

end Process

namespace Machine

/-- What the scheduler, the background pool and the other processes see. -/
structure View where
  task : TaskId
  id : ProcessId
  roster : Roster
  pool : Pool BackgroundCall
  born : Nat
  nursery : List Process

def view (m : Machine) : View where
  task := m.task
  id := m.process.id
  roster := m.process.roster
  pool := m.host.pool
  born := m.host.born
  nursery := m.host.nursery

namespace View

/-- What a task can do and go on; with it go the tasks that it may make futures of. There have to be `async` functions
for a call that does not wait. -/
inductive Stirs (v : View) (async : Prop) : List TaskId → View → Prop where
  | still : Stirs v async [] v
  | call : async → Stirs v async [v.roster.next] { v with roster := v.roster.start { parent := some v.task } }
  | background (call : BackgroundCall) : call.process = v.id → call.carrier = v.roster.next →
      Stirs v async [v.roster.next] { v with roster := v.roster.launch v.task, pool := v.pool.submit call }
  | spawn (child : Process) : child.roster.Fledgling ⟨v.id, v.roster.next⟩ →
      Stirs v async [v.roster.next]
        { v with roster := v.roster.carry v.task, born := v.born + 1, nursery := v.nursery ++ [child] }

/-- How a task comes to wait. It may wait for the tasks that futures refer to, and these are `known`. -/
inductive Parks (v : View) (known : TaskId → Prop) : View → Prop where
  | call (delivery : Delivery) : Parks v known
      { v with roster := (v.roster.start { parent := some v.task }).await v.task v.roster.next delivery .onCall }
  | background (call : BackgroundCall) (delivery : Delivery) : call.process = v.id → call.carrier = v.roster.next →
      Parks v known
        { v with
          roster := (v.roster.launch v.task).await v.task v.roster.next delivery .onFuture
          pool := v.pool.submit call }
  | wait (y : TaskId) : known y → ¬ (v.roster.standingAt y).state.isFinished →
      Parks v known { v with roster := v.roster.await v.task y .result .onFuture }
  /-- For the top level of a module that another task has begun to load. -/
  | join (m : ModuleId) (y : TaskId) : v.roster.modules.get? m = some (.initializing y) →
      y ∉ v.roster.ancestry v.task → Parks v known { v with roster := v.roster.await v.task y .keep .onCall }
  | load (m : ModuleId) : v.roster.modules.get? m = none →
      Parks v known { v with roster := (v.roster.load m v.task).await v.task v.roster.next .keep .onCall }

theorem Stirs.mono {v v' : View} {a b : Prop} {new : List TaskId} (h : v.Stirs a new v') (hab : a → b) :
    v.Stirs b new v' := by
  cases h with
  | still => exact .still
  | call ha => exact .call (hab ha)
  | background call hp hc => exact .background call hp hc
  | spawn child hc => exact .spawn child hc

theorem Parks.mono {v v' : View} {known known' : TaskId → Prop} (h : v.Parks known v') (hk : ∀ y, known y → known' y) :
    v.Parks known' v' := by
  cases h with
  | call delivery => exact .call delivery
  | background call delivery hp hc => exact .background call delivery hp hc
  | wait y hy hun => exact .wait y (hk y hy) hun
  | join m y hm hy => exact .join m y hm hy
  | load m hm => exact .load m hm

def Unfinished (v : View) : Prop := ¬ (v.roster.standingAt v.task).state.isFinished

theorem unfinished_add {r : Roster} {s : Standing} {t : TaskId} (hs : s.state = .new ∨ s.state = .waiting)
    (ht : ¬ (r.standingAt t).state.isFinished) : ¬ ((r.add s).standingAt t).state.isFinished := by
  rw [Roster.standingAt_add]
  split
  · rcases hs with hs | hs <;> simp [hs, TaskState.isFinished]
  · exact ht

theorem unfinished_await {r : Roster} {t y : TaskId} (ht : ¬ (r.standingAt t).state.isFinished) (delivery : Delivery)
    (reason : WaitReason) : ¬ ((r.await t y delivery reason).standingAt t).state.isFinished := by
  have hy : ¬ ((r.update y (·.addDependent t delivery)).standingAt t).state.isFinished :=
    Roster.standingAt_update (P := fun s => ¬ s.state.isFinished) ht fun _ hs => hs
  exact Roster.standingAt_update (P := fun s => ¬ s.state.isFinished) hy fun _ _ => by
    simp [Standing.park, TaskState.isFinished]

/-- The same task runs, and no task is lost. -/
theorem Stirs.frame {v v' : View} {a : Prop} {new : List TaskId} (h : v.Stirs a new v') :
    v'.task = v.task ∧ v.roster.tasks.size ≤ v'.roster.tasks.size := by
  cases h with
  | still => exact ⟨rfl, Nat.le_refl _⟩
  | _ => exact ⟨rfl, by simp [Roster.start, Roster.launch, Roster.carry, Roster.add, Roster.enqueue]⟩

/-- No task comes to its end as long as the one that runs goes on. -/
theorem Stirs.unfinishedAt {v v' : View} {a : Prop} {new : List TaskId} (h : v.Stirs a new v') {y : TaskId}
    (hy : ¬ (v.roster.standingAt y).state.isFinished) : ¬ (v'.roster.standingAt y).state.isFinished := by
  cases h with
  | still => exact hy
  | call _ => exact unfinished_add (r := v.roster) (.inl rfl) hy
  | background _ _ _ => exact unfinished_add (r := v.roster) (.inr rfl) hy
  | spawn _ _ => exact unfinished_add (r := v.roster) (.inr rfl) hy

theorem Stirs.unfinished {v v' : View} {a : Prop} {new : List TaskId} (h : v.Stirs a new v') (hv : v.Unfinished) :
    v'.Unfinished := by
  unfold Unfinished
  rw [h.frame.1]
  exact h.unfinishedAt hv

theorem Parks.unfinished {v v' : View} {known : TaskId → Prop} (h : v.Parks known v') (hv : v.Unfinished) :
    v'.Unfinished := by
  cases h with
  | call delivery =>
      have hnew := unfinished_add (r := v.roster) (s := { parent := some v.task }) (.inl rfl) hv
      exact unfinished_await (r := v.roster.start _) hnew delivery .onCall
  | background call delivery _ _ =>
      have hnew := unfinished_add (r := v.roster) (s := .carrier v.task) (.inr rfl) hv
      exact unfinished_await (r := v.roster.launch v.task) hnew delivery .onFuture
  | wait y _ _ => exact unfinished_await hv .result .onFuture
  | join m y _ _ => exact unfinished_await hv .keep .onCall
  | load m _ =>
      have hnew := unfinished_add (r := v.roster) (s := { parent := some v.task, initializes := some m }) (.inl rfl) hv
      exact unfinished_await (r := v.roster.load m v.task) hnew .keep .onCall

end View

variable {m m₁ m₂ m₃ : Machine} {α β : Type}

theorem Steady.view (h : m.Steady m₁) : m₁.view = m.view := by
  simp [Machine.view, h.task, h.id, h.roster, h.pool, h.born, h.nursery]

theorem unfinished_view : m.view.Unfinished ↔ ¬ m.current.state.isFinished := by
  change ¬ (m.process.roster.standingAt m.task).state.isFinished ↔ _
  rw [Process.standingAt_roster]
  rfl

/-- Others see this of the machine now. No future has been made, and no function has been lost. -/
structure Becomes (m : Machine) (v : View) (m' : Machine) : Prop where
  view : m'.view = v
  futures : ∀ T, m.process.heap.Knows T → m'.process.heap.Knows T
  async : m.host.registry.HasAsync → m'.host.registry.HasAsync

theorem Steady.becomes (h : m.Steady m₁) : m.Becomes m.view m₁ := ⟨h.view, h.futures, h.async⟩

theorem Becomes.trans {v₁ v₂ : View} (h : m.Becomes v₁ m₁) (h' : m₁.Becomes v₂ m₂) : m.Becomes v₂ m₂ :=
  ⟨h'.view, fun T hk => h'.futures T (h.futures T hk), fun ha => h'.async (h.async ha)⟩

theorem Becomes.trans_steady {v : View} (h : m.Becomes v m₁) (h' : m₁.Steady m₂) : m.Becomes v m₂ :=
  h.view ▸ h.trans h'.becomes

/-- The task goes on. -/
structure Stirs (m m' : Machine) : Prop where
  view : ∃ new, m.view.Stirs m'.host.registry.HasAsync new m'.view ∧
    ∀ T, m.process.heap.Knows T → (∀ t ∈ new, T t) → m'.process.heap.Knows T
  async : m.host.registry.HasAsync → m'.host.registry.HasAsync

/-- The task waits. -/
structure Parks (m m' : Machine) : Prop where
  view : m.view.Parks (fun y => ∀ T, m.process.heap.Knows T → T y) m'.view
  futures : ∀ T, m.process.heap.Knows T → m'.process.heap.Knows T
  async : m.host.registry.HasAsync → m'.host.registry.HasAsync

theorem Steady.stirs (h : m.Steady m₁) : m.Stirs m₁ := by
  refine ⟨⟨[], ?_, fun T hk _ => h.futures T hk⟩, h.async⟩
  rw [h.view]
  exact .still

theorem Steady.trans_stirs (h : m₁.Steady m₂) (h' : m₂.Stirs m₃) : m₁.Stirs m₃ := by
  obtain ⟨⟨new, hview, hfut⟩, hasync⟩ := h'
  rw [h.view] at hview
  exact ⟨⟨new, hview, fun T hk => hfut T (h.futures T hk)⟩, fun ha => hasync (h.async ha)⟩

theorem Stirs.trans_steady (h : m₁.Stirs m₂) (h' : m₂.Steady m₃) : m₁.Stirs m₃ := by
  obtain ⟨⟨new, hview, hfut⟩, hasync⟩ := h
  refine ⟨⟨new, ?_, fun T hk hn => h'.futures T (hfut T hk hn)⟩, fun ha => h'.async (hasync ha)⟩
  rw [h'.view]
  exact hview.mono h'.async

theorem Steady.trans_parks (h : m₁.Steady m₂) (h' : m₂.Parks m₃) : m₁.Parks m₃ := by
  refine ⟨?_, fun T hk => h'.futures T (h.futures T hk), fun ha => h'.async (h.async ha)⟩
  have hview := h'.view
  rw [h.view] at hview
  exact hview.mono fun y hy T hk => hy T (h.futures T hk)

theorem Parks.trans_steady (h : m₁.Parks m₂) (h' : m₂.Steady m₃) : m₁.Parks m₃ := by
  refine ⟨?_, fun T hk => h'.futures T (h.futures T hk), fun ha => h'.async (h.async ha)⟩
  rw [h'.view]
  exact h.view

theorem Stirs.unfinished (h : m.Stirs m₁) (hun : ¬ m.current.state.isFinished) : ¬ m₁.current.state.isFinished := by
  obtain ⟨new, hview, _⟩ := h.view
  exact unfinished_view.1 (hview.unfinished (unfinished_view.2 hun))

theorem Parks.unfinished (h : m.Parks m₁) (hun : ¬ m.current.state.isFinished) : ¬ m₁.current.state.isFinished :=
  unfinished_view.1 (h.view.unfinished (unfinished_view.2 hun))

theorem Steady.unfinished (h : m.Steady m₁) (hun : ¬ m.current.state.isFinished) : ¬ m₁.current.state.isFinished := by
  rw [h.state_current]
  exact hun

end Machine

end Spool
