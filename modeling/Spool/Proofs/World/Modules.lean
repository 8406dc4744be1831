import Spool.Proofs.World.Returns

/-!
# Modules are run once

A process has a task for the top level of a module from when the module is first loaded until the task has come to its end,
and then the module is ready for good. So no other task is ever made for it. An instruction that loads a module ends well
only when the module is ready, or in the midst of its top level.
-/

namespace Spool

/-- The name that the operand stands for is the name of this module. -/
def Machine.Loads (m : Machine) (operand : Operand) (module : ModuleId) : Prop :=
  ∃ name n, operand.name? = some name ∧ onRegistry (m.host.library.resolve name) m = (.ok module, n)

namespace World

variable {w w' w₁ w₂ : World} {id : ProcessId} {p p' : Process} {x y t t' : TaskId} {m m₀ m₁ n : Machine} {module : ModuleId}
  {top : ContextId} {position : Nat} {operand : Operand} {fuel : Nat}

/-- What happens up to the world `w'`. -/
inductive Unfolds (w : World) : World → Prop where
  | refl : Unfolds w w
  | handle {w' w'' : World} : Unfolds w w' → Handled w' w'' → Unfolds w w''
  | step {w' w'' : World} {fuel : Nat} {e : Event} : Unfolds w w' → w'.step fuel e = some w'' → Unfolds w w''

theorem Idles.unfolds (h : Idles id x w w') : w.Unfolds w' := by
  induction h with
  | refl => exact .refl
  | handle _ hh ih => exact ih.handle hh
  | step _ hs _ ih => exact ih.step hs

theorem Unfolds.trans (h : w.Unfolds w₁) (h' : w₁.Unfolds w₂) : w.Unfolds w₂ := by
  induction h' with
  | refl => exact h
  | handle _ hh ih => exact ih.handle hh
  | step _ hs ih => exact ih.step hs

theorem Unfolds.abides (h : w.Unfolds w') (hw : w.Arises) : w'.Arises ∧ w.Abides w' := by
  induction h with
  | refl => exact ⟨hw, .refl w⟩
  | handle _ hh ih =>
      obtain ⟨log, hlog⟩ := ih.1.history
      have hfollows := hh.follows hlog.orderly.1 hlog.orderly.2
      exact ⟨hh.arises ih.1, ih.2.trans hfollows.unmoves.abides⟩
  | step _ hs ih =>
      obtain ⟨log, hlog⟩ := ih.1.history
      exact ⟨ih.1.step hs, ih.2.trans (hlog.orderly.2.step hlog.orderly.1 hs).2⟩

/-! ## Tasks that run a top level -/

/-- The module of such a task is not ready. -/
theorem Arises.initializing (hw : w.Arises) (hp : w.processes.get? id = some p)
    (ht : (p.taskAt t).initializes = some module) : p.modules.get? module = some (.initializing t) := by
  obtain ⟨log, hlog⟩ := hw.history
  have hordered := hlog.orderly.2.ordered p (hlog.orderly.1.get? hp).1
  have hlt := Process.index_lt_of_taskAt (P := fun task => task.initializes = some module) ht nofun
  exact (hordered.initializing module t).2 ⟨_, Process.at?_taskAt hlt, ht⟩

theorem Unfolds.initializes_unique (h : w.Unfolds w') (hw : w.Arises) (hp : w.processes.get? id = some p)
    (hp' : w'.processes.get? id = some p') (ht : (p.taskAt t).initializes = some module)
    (ht' : (p'.taskAt t').initializes = some module) : t = t' := by
  obtain ⟨hw', habides⟩ := h.abides hw
  obtain ⟨q, hq, hroster⟩ := habides id p hp
  cases hq.symm.trans hp'
  have hlater := hw'.initializing hp' ht'
  rcases hroster.modules module _ (hw.initializing hp ht) with hsame | hready
  · cases hsame.symm.trans hlater
    rfl
  · cases hready.symm.trans hlater

/-! ## Instructions that load a module -/

/-- The top level of a module has been run when its task is complete. -/
theorem ready_of_complete {rest : List RemoteLink} {cur : Option TaskId} (hm : m.Tidy rest cur) (hcur : cur ≠ some y)
    (hcomplete : (m.process.taskAt y).state = .complete)
    (hmodule : m.process.modules.get? module = some (.initializing y) ∨ m.process.modules.get? module = some .ready) :
    m.process.modules.get? module = some .ready := by
  rcases hmodule with hmodule | hready
  · obtain ⟨s, hs, hinit⟩ := (hm.view.ordered.initializing module y).1 hmodule
    have hstate : s.state = .complete := (state_of_at? hs).symm.trans hcomplete
    have hfin : s.state.isFinished := hstate ▸ rfl
    have hlisted := (hm.view.ordered.settled y s hs hfin (.inr (by simp [hinit]))).resolve_left hcur
    rcases hm.view.ordered.books y hlisted with ⟨s', hs', hwaits⟩ | ⟨s', hs', hstranded⟩ | h
    · cases hs.symm.trans hs'
      cases hstate.symm.trans hwaits
    · cases hs.symm.trans hs'
      simp [Standing.stranded, hstate] at hstranded
    · exact absurd h hcur
  · exact hready

/-- A module is ready when the instruction that has waited for it goes on. -/
theorem Parking.ready (hpark : w.Parking id x top position ⟨.loadModule, operand⟩ n m) (hw : w.Arises)
    (hstep : w.step fuel (.tick id) = some w₁) (hidle : Idles id x w₁ w₂) (hopen : w₂.Opens id x m₁)
    (hclear : ((Machine.resume m₁).2.process.contextAt top).error = none) :
    ∃ module, n.Loads operand module ∧ m₁.process.modules.get? module = some .ready := by
  have hw₁ := hw.step hstep
  obtain ⟨y, d, hawaits, hun, hpending⟩ := hpark.pending hw
  obtain ⟨m₀, m', hopen₀, hruns, hstop⟩ := hpark.stops
  -- the task waits for the one that runs the top level
  obtain ⟨module, hloads, hmodule⟩ : ∃ module, n.Loads operand module ∧
      m.process.modules.get? module = some (.initializing y) := by
    cases hawaits with
    | call n' r o d hop => simp at hop
    | store n' n'' r o hop => cases hop
    | load name module n' r hop hoperand hresolve _ _ hmodule =>
        exact ⟨module, ⟨name, n', by rw [show operand = .name name from hoperand]; rfl, hresolve⟩, hmodule⟩
    | wait r o cell hop => cases hop
  refine ⟨module, hloads, ?_⟩
  -- the task is complete when the instruction goes on
  have hP := Process.lasts_honoured ⟨x, y, d, top, position + 1, m.register⟩
  have hk := holds_parked hP hw hopen₀ hruns hstop hun (.inl hpending) hstep
  obtain ⟨hw₂, hk₂⟩ := hidle.holds hP hw₁ hk
  obtain ⟨hcomplete, _⟩ := hk₂.complete_of_clear hw₂ hopen hclear
  -- the module has stayed with the task or is ready
  obtain ⟨phase, hp₁⟩ := get?_parked hw hopen₀ hruns hstop hun hstep
  obtain ⟨p₂, hp₂, habides₂⟩ := (hidle.unfolds.abides hw₁).2 id _ hp₁
  obtain ⟨log, hlog⟩ := hw₂.history
  obtain ⟨q, rest, hq, htidy, habides₃⟩ := hopen.tidy hlog.orderly.1 hlog.orderly.2
  cases hq.symm.trans hp₂
  have hparked : (Machine.tidy (Machine.setCursor top (position + 1) m).2).2.process.modules.get? module
      = some (.initializing y) :=
    (congrArg (·.roster.modules.get? module) (Machine.steady_tidy (Machine.setCursor top (position + 1) m).2).view).trans
      hmodule
  have hlater := (habides₂.trans habides₃).modules module _ hparked
  obtain ⟨_, hgo⟩ := hopen.going hlog.orderly.1
  refine ready_of_complete htidy ?_ hcomplete hlater
  rintro ⟨⟩
  have hfin : m₁.current.state.isFinished := by
    rw [Machine.current, hcomplete]
    rfl
  exact hgo.unfinished hfin

/-- A module is ready, or in the midst of its top level, when an instruction has loaded it at once. -/
theorem Opens.imported (hopen : w.Opens id x m₀) (hw : w.Arises) (hruns : (Machine.resume m₀).2.Runs m₁)
    (hdue : m₁.Due n top ⟨.loadModule, operand⟩) {flow : Machine.Flow} (hstep : Machine.step top (m₁.process.contextAt top).cursor
      ⟨.loadModule, operand⟩ n = (.ok flow, m)) (hflow : flow ≠ .suspend) :
    ∃ module, n.Loads operand module ∧ m.process.Imported x module := by
  obtain ⟨_, p, hp, _, hround⟩ := hopen.round
  have hsturdy := (hround.runs hruns).sturdy hw.firm hw.inv (hw.inv.get? hp).1
  obtain ⟨hpaces, _⟩ := (Machine.wp_step_due hsturdy hdue).ok hstep
  obtain ⟨name, module, n', hname, hresolve, himported⟩ :=
    Machine.imported_step (Process.index_lt_of_top? hdue.top?) top _ hstep hflow
  rw [Machine.task_paces hpaces, hopen.task_due hw hruns hdue] at himported
  exact ⟨module, ⟨name, n', hname, hresolve⟩, himported⟩

/-- The top level of a module is run by one task of the process at most: whoever runs it at some time, no other task does
at any later time. An instruction that loads a module and is done at once leaves the task with a module that is ready, or
with one whose top level the task itself or a task it works for is running; and if the instruction has waited and ends
without an error, the module is ready. -/
theorem modules_run_once (hw : w.Arises) :
    (∀ w' p p' t t' module, w.Unfolds w' → w.processes.get? id = some p → w'.processes.get? id = some p' →
      (p.taskAt t).initializes = some module → (p'.taskAt t').initializes = some module → t = t') ∧
    (∀ x m₀ m₁ n m top operand flow, w.Opens id x m₀ → (Machine.resume m₀).2.Runs m₁ →
      m₁.Due n top ⟨.loadModule, operand⟩ →
      Machine.step top (m₁.process.contextAt top).cursor ⟨.loadModule, operand⟩ n = (.ok flow, m) → flow ≠ .suspend →
      ∃ module, n.Loads operand module ∧ m.process.Imported x module) ∧
    (∀ x n m m₁ top position operand fuel w₁ w₂, w.Parking id x top position ⟨.loadModule, operand⟩ n m →
      w.step fuel (.tick id) = some w₁ → Idles id x w₁ w₂ → w₂.Opens id x m₁ →
      ((Machine.resume m₁).2.process.contextAt top).error = none →
      ∃ module, n.Loads operand module ∧ m₁.process.modules.get? module = some .ready) :=
  ⟨fun _ _ _ _ _ _ h hp hp' ht ht' => h.initializes_unique hw hp hp' ht ht',
    fun _ _ _ _ _ _ _ _ hopen hruns hdue hstep hflow => hopen.imported hw hruns hdue hstep hflow,
    fun _ _ _ _ _ _ _ _ _ _ hpark hstep hidle hopen hclear => hpark.ready hw hstep hidle hopen hclear⟩

/-! ## Modules that load each other -/

def shelf : CompiledModule := { name := "shelf", tape := { instructions := #[⟨.loadModule, .name "reader"⟩] } }

def reader : CompiledModule := { name := "reader", tape := { instructions := #[⟨.loadModule, .name "shelf"⟩] } }

def reading : World := (startMain "reader" (register reader (register shelf {}).2).2).2

/-- The entry task waits for the top level of the shelf. -/
def shelving : World := (reading.step 9 (.tick ⟨1⟩)).get (by decide +kernel)

/-- The top level of the shelf has ended. -/
def shelved : World := (shelving.step 9 (.tick ⟨1⟩)).get (by decide +kernel)

/-- The entry task comes to its first turn. -/
def opened : Machine := (reading.opening? ⟨1⟩).get (by decide +kernel)

/-- The task of the shelf comes to its turn. -/
def lending : Machine := (shelving.opening? ⟨1⟩).get (by decide +kernel)

/-- The entry task comes to its second turn. -/
def reopened : Machine := (shelved.opening? ⟨1⟩).get (by decide +kernel)

/-- The step ends with the instruction after it. -/
def goesOn : Except Fault Machine.Flow → Bool
  | .ok .next => true
  | _ => false

theorem eq_next_of_goesOn {x : Except Fault Machine.Flow} (h : goesOn x) : x = .ok .next := by
  unfold goesOn at h
  split at h
  · rfl
  · cases h

theorem modules_run_once_shelved : reading.Arises ∧ shelving.Arises ∧
    (∃ p, shelved.processes.get? ⟨1⟩ = some p ∧ (p.taskAt ⟨0⟩).initializes = some ⟨2⟩ ∧
      ∀ t, (p.taskAt t).initializes = some ⟨2⟩ → t = ⟨0⟩) ∧
    (∃ n m module, n.Loads (.name "reader") module ∧
      Machine.step ⟨1⟩ 0 ⟨.loadModule, .name "reader"⟩ n = (.ok .next, m) ∧ m.process.Imported ⟨1⟩ module) ∧
    ∃ n m module, reading.Parking ⟨1⟩ ⟨0⟩ ⟨0⟩ 0 ⟨.loadModule, .name "shelf"⟩ n m ∧ n.Loads (.name "shelf") module ∧
      reopened.process.modules.get? module = some .ready := by
  have hreading : reading.Arises := .startMain "reader" (.register reader (.register shelf (.create (r := {}) rfl)))
  have hshelving : reading.step 9 (.tick ⟨1⟩) = some shelving := (Option.some_get _).symm
  have hshelved : shelving.step 9 (.tick ⟨1⟩) = some shelved := (Option.some_get _).symm
  obtain ⟨honce, _, hwaited⟩ := @modules_run_once reading ⟨1⟩ hreading
  obtain ⟨_, hatonce, _⟩ := @modules_run_once shelving ⟨1⟩ (hreading.step hshelving)
  refine ⟨hreading, hreading.step hshelving, ?_, ?_, ?_⟩
  · -- the top level of the reader has been going on since the beginning
    have hfirst : ((reading.processes.get? ⟨1⟩).map fun p => (p.taskAt ⟨0⟩).initializes) = some (some ⟨2⟩) := by
      decide +kernel
    have hlast : ((shelved.processes.get? ⟨1⟩).map fun p => (p.taskAt ⟨0⟩).initializes) = some (some ⟨2⟩) := by
      decide +kernel
    obtain ⟨p, hp, hinit⟩ := Option.map_eq_some_iff.1 hfirst
    obtain ⟨p', hp', hinit'⟩ := Option.map_eq_some_iff.1 hlast
    have hunfolds : reading.Unfolds shelved := (Unfolds.refl.step hshelving).step hshelved
    exact ⟨p', hp', hinit', fun t ht => (honce shelved p p' ⟨0⟩ t ⟨2⟩ hunfolds hp hp' hinit ht).symm⟩
  · have htask : lending.task = ⟨1⟩ := by decide +kernel
    have hlending : shelving.Opens ⟨1⟩ ⟨1⟩ lending := htask ▸ opens_opening (Option.some_get _).symm
    have hfetches : Fetches (Machine.resume lending).2 ⟨1⟩ 0 .loadModule "reader" := by decide +kernel
    obtain ⟨hdue, hposition⟩ := due_of_fetches hfetches
    have hnext : goesOn (Machine.step ⟨1⟩ 0 ⟨.loadModule, .name "reader"⟩ (Machine.resume lending).2).1 := by
      decide +kernel
    have hstep : Machine.step ⟨1⟩ 0 ⟨.loadModule, .name "reader"⟩ (Machine.resume lending).2 =
        (.ok .next, (Machine.step ⟨1⟩ 0 ⟨.loadModule, .name "reader"⟩ (Machine.resume lending).2).2) :=
      Prod.ext (eq_next_of_goesOn hnext) rfl
    obtain ⟨module, hloads, himported⟩ := hatonce ⟨1⟩ _ _ _ _ ⟨1⟩ _ .next hlending .refl hdue
      ((congrArg (Machine.step ⟨1⟩ · _ _) hposition).trans hstep) fun h => by cases h
    exact ⟨_, _, module, hloads, hstep, himported⟩
  · have htask : opened.task = ⟨0⟩ := by decide +kernel
    have hopened : reading.Opens ⟨1⟩ ⟨0⟩ opened := htask ▸ opens_opening (Option.some_get _).symm
    have htask' : reopened.task = ⟨0⟩ := by decide +kernel
    have hreopened : shelved.Opens ⟨1⟩ ⟨0⟩ reopened := htask' ▸ opens_opening (Option.some_get _).symm
    have hstops : shelving.stops (.tick ⟨1⟩) shelved = [⟨⟨1⟩, ⟨1⟩, true⟩] := by decide +kernel
    have hidle : Idles ⟨1⟩ ⟨0⟩ shelving shelved := .step .refl hshelved (by rw [hstops]; simp)
    have hfetches : Fetches (Machine.resume opened).2 ⟨0⟩ 0 .loadModule "shelf" := by decide +kernel
    have hpark := parking_of_fetches hopened .refl hfetches (by decide +kernel)
    obtain ⟨module, hloads, hready⟩ := hwaited _ _ _ reopened _ _ _ _ shelving shelved hpark hshelving hidle hreopened
      (by decide +kernel)
    exact ⟨_, _, module, hpark, hloads, hready⟩

end World

end Spool
