import Spool.Proofs.Process.Imports
import Spool.Proofs.World.Solo
import Spool.World.Event

/-!
# Circular imports

A main process that waits for no futures gets stuck only over modules: some task waits for the top level of a module
that another task has begun to load, and that task waits for it in turn. A task does not wait for a module that one of
the tasks that have led to it has begun to load, but it takes no notice of what other tasks load.
-/

namespace Spool

namespace Process

variable {p : Process}

/-- No task waits for a future, or for work done elsewhere. -/
def Prompt (p : Process) : Prop := ∀ task ∈ p.tasks, task.state = .waiting → task.reason ≠ .onFuture

theorem Prompt.roster (hp : p.Prompt) : p.roster.Prompt := by
  intro t s hs
  rw [at?_roster, Option.map_eq_some_iff] at hs
  obtain ⟨task, ht, rfl⟩ := hs
  exact hp task (Array.mem_of_getElem? ht)

theorem waitsOn_roster (p : Process) : p.roster.WaitsOn = p.WaitsFor := by
  funext x y
  simp only [Roster.WaitsOn, WaitsFor, at?_roster, Option.map_eq_some_iff, eq_iff_iff]
  constructor
  · rintro ⟨_, ⟨task, ht, rfl⟩, hx⟩
    rw [taskAt_of_getElem? ht]
    exact ⟨index_lt_of_getElem? ht, hx⟩
  · rintro ⟨hlt, hx⟩
    exact ⟨_, ⟨_, getElem?_of_index_lt hlt, rfl⟩, hx⟩

/-- The process is by itself, and each task that waits has a reason to. -/
structure Accounts (p : Process) : Prop where
  plain : p.roster.Plain none
  accounted : p.roster.Accounted

theorem accounts_main (id : ProcessId) (settings : HeapSettings) (module : ModuleId) :
    (main id settings module).Accounts := by
  refine ⟨plain_main id settings module, ?_⟩
  rw [roster_main, roster_seeded]
  refine ⟨Roster.forall_add (by simp [Roster.at?]) (by simp [Standing.waiters]),
    Roster.forall_add (by simp [Roster.at?]) fun m _ hm => ?_⟩
  cases hm
  simp [Roster.setModule, Roster.next, Bindings.get?_insert]

end Process

namespace World

variable {w : World} {id : ProcessId}

/-- The process has handed nothing to the background pool and has started no other process, and none of its tasks waits
for a future. -/
structure SelfContained (id : ProcessId) (w : World) : Prop where
  alone : w.Alone id
  prompt : ∀ p, w.processes.get? id = some p → p.Prompt

theorem selfContained_iff : w.SelfContained id ↔ w.Alone id ∧ (w.processes.get? id).all fun p =>
    p.tasks.all fun task => task.state ≠ .waiting || task.reason ≠ .onFuture := by
  simp only [Option.all_eq_true, Array.all_eq_true_iff_forall_mem, Bool.or_eq_true, decide_eq_true_eq]
  refine ⟨fun h => ⟨h.alone, fun p hp task ht => ?_⟩, fun h => ⟨h.1, fun p hp task ht hw => ?_⟩⟩
  · exact not_or_of_imp (h.prompt p hp task ht)
  · exact (h.2 p hp task ht).resolve_left fun hne => hne hw

instance decidableSelfContained : Decidable (w.SelfContained id) := decidable_of_iff _ selfContained_iff.symm

theorem Since.accounts (h : Since (SelfContained id) id w) : ∃ p, w.processes.get? id = some p ∧ p.Accounts := by
  refine h.invariant (Process.accounts_main id) (fun p p' hu hp => ⟨hu.roster ▸ hp.plain, hu.roster ▸ hp.accounted⟩)
    (fun p hp => Process.unlinked_of_plain hp.plain) (fun w hw => hw.alone) fun {w p m _} h hp hj hrun hok => ?_
  have hget := get?_settle hp m hp
  rw [if_pos rfl] at hget
  obtain ⟨_, hround⟩ := h.holds.alone.round h.orderly.1 h.orderly.2 hp hrun hok.alone
    (.inr (hok.prompt m.process hget).roster)
  rcases hround with ⟨_, hroster, _⟩ | ⟨t, queue, hqueue, _, hturn⟩
  · exact ⟨hroster ▸ hj.plain, hroster ▸ hj.accounted⟩
  · obtain ⟨hplain, haccounted⟩ := (Roster.lasts_accounted _).turn hj.plain hj.accounted hqueue hturn
    exact ⟨hplain, haccounted⟩

/-- A main process that waits for no futures, makes no background calls and starts no other process has nobody parked
when it has nothing to run, unless some task waits for the top level of a module that another task has begun to load,
and that task waits for it in turn. -/
theorem deadlock_is_circular_import (h : Since (SelfContained id) id w) : ∃ p, w.processes.get? id = some p ∧
    (p.queue.toList = [] → p.waiting = [] ∨ ∃ t y m, p.WaitsFor t y ∧ (p.taskAt y).parent ≠ some t ∧
      p.modules.get? m = some (.initializing y) ∧ Relation.TransGen p.WaitsFor y t) := by
  obtain ⟨p, hp, hplain, haccounted⟩ := h.accounts
  refine ⟨p, hp, fun hq => ?_⟩
  by_cases hw : p.waiting = []
  · exact .inl hw
  · obtain ⟨t, y, m, hty, hparent, hm, hback⟩ := haccounted.exists_circle hplain hq hw
    rw [Process.waitsOn_roster] at hty hback
    rw [Process.standingAt_roster] at hparent
    exact .inr ⟨t, y, m, hty, hparent, hm, hback⟩

/-! ## Two modules that load each other -/

def ouroborosHead : CompiledModule := { name := "head", tape := { instructions := #[⟨.loadModule, .name "tail"⟩] } }

def ouroborosTail : CompiledModule := { name := "tail", tape := { instructions := #[⟨.loadModule, .name "head"⟩] } }

/-- Two functions load the two modules at the same time. -/
def ouroboros : CompiledModule :=
  { name := "ouroboros"
    tape := { instructions := #[⟨.callBare, .name "f"⟩, ⟨.callBare, .name "g"⟩, ⟨.ret, .none⟩,
      ⟨.loadModule, .name "head"⟩, ⟨.ret, .none⟩, ⟨.loadModule, .name "tail"⟩, ⟨.ret, .none⟩] }
    functions := #[{ name := "f", start := 3, flags := { async := true } },
      { name := "g", start := 5, flags := { async := true } }] }

def loading : World :=
  (startMain "ouroboros" (register ouroboros (register ouroborosTail (register ouroborosHead {}).2).2).2).2

/-- Each module waits for the other. -/
def deadlocked : World :=
  (play 99 (fun w => w.SelfContained ⟨1⟩) [.tick ⟨1⟩, .tick ⟨1⟩, .tick ⟨1⟩, .tick ⟨1⟩, .tick ⟨1⟩, .tick ⟨1⟩] loading).get
    (by decide +kernel)

theorem since_deadlocked : Since (SelfContained ⟨1⟩) ⟨1⟩ deadlocked := by
  have hstart : Since (SelfContained ⟨1⟩) ⟨1⟩ loading :=
    .of_toOption (.register ouroboros (.register ouroborosTail (.register ouroborosHead (.create (r := {}) rfl))))
      (by decide +kernel) (by decide +kernel)
  exact hstart.play (fun w hw => of_decide_eq_true hw) (Option.some_get _).symm

theorem circular_import_deadlocks : ∃ w, Since (SelfContained ⟨1⟩) ⟨1⟩ w ∧ w.nextEvent? = none ∧
    ∃ p, w.processes.get? ⟨1⟩ = some p ∧ p.queue.toList = [] ∧ p.waiting ≠ [] := by
  have hparked : ((deadlocked.processes.get? ⟨1⟩).map fun p => (p.queue.toList, p.waiting))
      = some ([], [⟨4⟩, ⟨3⟩, ⟨2⟩, ⟨1⟩]) := by decide +kernel
  obtain ⟨p, hp, hpair⟩ := Option.map_eq_some_iff.1 hparked
  obtain ⟨hq, hw⟩ := Prod.mk.inj hpair
  exact ⟨deadlocked, since_deadlocked, by decide +kernel, p, hp, hq, by simp [hw]⟩

theorem deadlock_is_circular_import_deadlocked : ∃ p, deadlocked.processes.get? ⟨1⟩ = some p ∧ ∃ t y m,
    p.WaitsFor t y ∧ (p.taskAt y).parent ≠ some t ∧ p.modules.get? m = some (.initializing y) ∧
    Relation.TransGen p.WaitsFor y t := by
  obtain ⟨p, hp, hstuck⟩ := deadlock_is_circular_import since_deadlocked
  have hparked : ((deadlocked.processes.get? ⟨1⟩).map fun p => (p.queue.toList, p.waiting))
      = some ([], [⟨4⟩, ⟨3⟩, ⟨2⟩, ⟨1⟩]) := by decide +kernel
  rw [hp] at hparked
  obtain ⟨hq, hw⟩ := Prod.mk.inj (Option.some.inj hparked)
  exact ⟨p, hp, (hstuck hq).resolve_left (by simp [show p.waiting = _ from hw])⟩

end World

end Spool
