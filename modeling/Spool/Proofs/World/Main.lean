import Spool.World.Main
import Spool.Proofs.World.Event

/-!
# Setting up a world

A world starts without processes. Modules may be added at any time, and so may main processes, with which nobody has
to do yet.
-/

namespace Spool

/-- A new process that is about to run a module. -/
theorem Process.intact_main (id : ProcessId) (settings : HeapSettings) (module : ModuleId) :
    let p := ((seeded id settings).startModule module none).2
    let entry := ((seeded id settings).startModule module none).1
    ({ p with entryTask := some entry, queue := p.queue.push entry } : Process).Intact none
      { carriers := fun _ => False, links := fun _ => False } := by
  have h₀ := intact_seeded (p := seeded id settings) rfl (.refl (extends_seeded id settings).1.sound) fun _ => False
  have h₁ := h₀.startModule module none
  have hready := h₁.schedule.ready ⟨(seeded id settings).tasks.size⟩ (by simp)
  exact (h₁.setEntry hready).enqueue

namespace World

variable {w : World} {id : ProcessId} {p : Process} {α : Type}

theorem eq_of_create {r : MachineRequest} (h : create r = .ok w) : ∃ heapSettings settings,
    w = { host := { heapSettings, library := r.library, pool := { settings } } } := by
  unfold create at h
  cases hheap : r.heap.settings with
  | error e =>
      rw [hheap] at h
      cases h
  | ok heapSettings =>
      cases hpool : r.pool.settings with
      | error e =>
          rw [hheap, hpool] at h
          cases h
      | ok settings =>
          rw [hheap, hpool] at h
          cases h
          exact ⟨heapSettings, settings, rfl⟩

theorem inv_create {r : MachineRequest} (h : create r = .ok w) : w.Inv := by
  obtain ⟨_, _, rfl⟩ := eq_of_create h
  exact ⟨Registry.calm_initial, rfl, rfl, by simp, by simp [Pool.jobs], by simp, by simp [Pool.Staffed]⟩

/-! ## Modules -/

theorem Inv.registry (hw : w.Inv) {registry : Registry} (hr : registry.Calm) :
    ({ w with host := { w.host with registry } } : World).Inv :=
  ⟨hr, hw.settled, hw.born, hw.ids, hw.calls, hw.intact, hw.staffed⟩

theorem preserves_onRegistry {act : Registry.Entry α} (ha : Preserves Registry.Calm act) :
    Preserves Inv (onRegistry act) :=
  fun w hw => hw.registry (ha w.host.registry hw.calm)

theorem preserves_register (m : CompiledModule) : Preserves Inv (register m) :=
  preserves_onRegistry (Registry.preserves_register Registry.lasting_calm m _ _)

theorem preserves_loadFile (path : String) : Preserves Inv (loadFile path) := by
  unfold loadFile
  exact preserves_get fun w _ => preserves_onRegistry (Registry.preserves_loadFile Registry.lasting_calm w.host.library path)

/-! ## The main process -/

theorem awaits_push (hl : p.Linked fun _ => False) {host : Host} {x : ProcessId} {t : TaskId}
    (ha : ({ w with host, processes := w.processes.push p } : World).Awaits x t) : w.Awaits x t := by
  obtain ⟨other, ho, task, ht, hlink⟩ := ha
  rcases Array.mem_push.1 ho with ho | rfl
  · exact ⟨other, ho, task, ht, hlink⟩
  · obtain ⟨i, hi⟩ := Array.mem_iff_getElem?.1 ht
    exact (hl ⟨i⟩ task _ hi hlink).elim

/-- A process comes into the world. -/
theorem Inv.push (hw : w.Inv) (hid : p.id = ⟨w.host.born + 1⟩)
    (hp : p.Intact none { carriers := fun _ => False, links := fun _ => False }) (hc : p.completions = []) :
    ({ w with host := { w.host with born := w.host.born + 1 }, processes := w.processes.push p } : World).Inv := by
  have hsize : (w.processes.push p).items.size = w.processes.items.size + 1 := Array.size_push p
  have hmono : ∀ x, w.Has x →
      ({ w with host := { w.host with born := w.host.born + 1 }, processes := w.processes.push p } : World).Has x :=
    fun x hx => hx.mono (by rw [hsize]; exact Nat.le_succ _)
  have hfar : ∀ x, w.Has x → x ≠ p.id := by
    rintro x ⟨_, hx⟩ rfl
    rw [hid, hw.born] at hx
    exact absurd hx (Nat.not_succ_le_self _)
  refine ⟨hw.calm, hw.settled, ?_, fun i q hq => ?_, fun call hcall => hmono _ (hw.calls call hcall), fun q hq => ?_,
    hw.staffed⟩
  · rw [hsize, ← hw.born]
  · simp only [Processes.push, Array.getElem?_push] at hq
    split at hq
    · rename_i hi
      cases hq
      rw [hid, hw.born, hi]
    · exact hw.ids i q hq
  · rcases Array.mem_push.1 hq with hq | rfl
    · have hi := hw.intact q hq
      refine ⟨hi.fit, hi.anchored, hi.schedule.mono fun x hx => ?_, fun x task link hx hlink => ?_⟩
      · exact hx.imp_left (awaits_push hp.linked)
      · exact (hi.linked x task link hx hlink).imp_right (hmono link.process)
    · have hnone : (w.host.pool.jobs.filter fun call => call.process = q.id) = [] := by
        refine List.filter_eq_nil_iff.2 fun call hcall => ?_
        simpa using hfar _ (hw.calls call hcall)
      refine ⟨hp.fit, by simp only [ledger, hnone]; exact hp.anchored, hp.schedule.mono fun x hx => ?_, fun x task link hx hlink => ?_⟩
      · rcases hx with hx | ⟨call, hcall, hcid, _⟩ | ⟨c, hcomp, _⟩
        · exact hfar _ (hw.has_of_awaits (awaits_push hp.linked hx)) rfl
        · exact hfar _ (hw.calls call hcall) hcid
        · rw [hc] at hcomp
          cases hcomp
      · exact (hp.linked x task link hx hlink).elim

/-- A new process whose entry task runs the top level of a module. -/
theorem Inv.enter (hw : w.Inv) (module : ModuleId) :
    let p := ((Process.seeded ⟨w.host.born + 1⟩ w.host.heapSettings).startModule module none).2
    let entry := ((Process.seeded ⟨w.host.born + 1⟩ w.host.heapSettings).startModule module none).1
    ({ w with
      host := { w.host with born := w.host.born + 1 }
      processes := w.processes.push { p with entryTask := some entry, queue := p.queue.push entry } } : World).Inv := by
  obtain ⟨tasks, contexts, free, modules, heq⟩ :=
    Process.startModule_frame (Process.seeded ⟨w.host.born + 1⟩ w.host.heapSettings) module none
  refine hw.push ?_ (Process.intact_main ⟨w.host.born + 1⟩ w.host.heapSettings module) ?_
  · dsimp only
    rw [heq]
    rfl
  · dsimp only
    rw [heq]
    rfl

theorem preserves_startMain (name : String) : Preserves Inv (startMain name) := by
  unfold startMain
  refine preserves_get fun w _ => ?_
  exact preserves_bind (preserves_onRegistry (Registry.preserves_resolve Registry.lasting_calm w.host.library name)) fun module w hw =>
    hw.enter module

/-! ## Collections -/

theorem Inv.collect (hw : w.Inv) (id : ProcessId) : (w.collect id).2.Inv := by
  cases hp : w.processes.get? id with
  | none =>
      have hset : ∀ q, w.processes.set id q = w.processes := fun q => Processes.set_of_get?_eq_none hp q
      simp only [World.collect, hset]
      exact hw
  | some p =>
      have hfetch : w.processes.fetch id = p := Processes.fetch_of_get? hp
      have hm := (hw.machine (hw.get? hp).1 ⟨0⟩).idle.collectGarbage
      simp only [World.collect, hfetch]
      exact hw.putBack hp hm.inv hw.settled

end World

end Spool
