import Spool.Proofs.World.Failures

/-!
# Suspended tasks

A turn that leaves a task unfinished has been ended by an instruction that has parked it. From then on until the next turn
of the task, nothing gets at its stack and its contexts: whatever happens in the world, the task stands where it has been
parked.
-/

namespace Spool

namespace Machine

variable {m m' : Machine} {r : Registry} {x : TaskId}

theorem finished_complete (ht : m.task.index < m.process.tasks.size) : (complete m).2.current.state.isFinished := by
  have hat := current_modifyCurrent ht fun t => { t with state := .complete }
  rw [show (complete m).2.current = _ from hat]
  rfl

/-- A task stops either for good or because an instruction has parked it. -/
theorem parked_of_advance (hm : m.Sturdy r) (ht : m.task.index < m.process.tasks.size)
    (h : advance m = (false, m')) (hun : ¬ m'.current.state.isFinished) :
    ∃ n top i m₁, m.Due n top i ∧ step top (m.process.contextAt top).cursor i n = (.ok .suspend, m₁) ∧
      m' = (setCursor top ((m.process.contextAt top).cursor + 1) m₁).2 := by
  have hadv := advancing_advance m
  rw [h] at hadv
  generalize hresult : (false, m') = result at hadv
  cases hadv with
  | bare hnone =>
      cases hresult
      exact absurd (finished_complete ht) hun
  | unwind top e htop he =>
      have hlands := lands_advance hm htop he
      rw [h] at hlands
      cases hlands with
      | failed _ _ hstate => exact absurd (by rw [hstate]; rfl) hun
  | full top n htop hnone => cases hresult
  | ended top n htop hnone hswept =>
      cases hresult
      obtain ⟨heap, rfl⟩ := eq_of_swept hswept
      exact absurd (finished_complete (m := { m with process := { m.process with heap } }) ht) hun
  | due n top i hdue =>
      have hn := hm.does (does_of_swept hdue.swept)
      have hstep := wp_step_due hm hdue
      rw [perform_eq] at hresult
      rcases hflow : step top (m.process.contextAt top).cursor i n with ⟨fault | flow, m₁⟩
      all_goals rw [hflow] at hresult
      · cases hresult
      · cases flow with
        | next => cases hresult
        | jump target => cases hresult
        | stay => cases hresult
        | suspend => exact ⟨n, top, i, m₁, hdue, hflow, congrArg Prod.snd hresult⟩
        | finished =>
            -- the task is still there when its last instruction has been done
            obtain ⟨_, hdoes, _⟩ := hstep.ok hflow
            have htop₁ := (top?_does hn hdue.top? (hdoes (by simp))).1
            cases hresult
            exact absurd (finished_complete (Process.index_lt_of_top? htop₁)) hun

end Machine

namespace Process

variable {p p' q : Process} {x y : TaskId} {P : Process → Prop}

/-- A task that waits for `y` stands where it has been parked. In its register is what it has left there, or what `y` has
come to. -/
structure Suspended (x y : TaskId) (p p' : Process) : Prop extends Framed x p p' where
  register : (p'.taskAt x).register = (p.taskAt x).register ∨
    (p'.taskAt y).state.isFinished ∧ (p'.taskAt x).register = (p'.taskAt y).register

/-- The end of another task is nothing to a task but what it is told. -/
theorem Ends.framed {K : TaskId → Prop} {t : TaskId} (h : p.Ends K t q p') (hne : x ≠ t) (hx : x.index < p.tasks.size) :
    Framed x p p' := by
  have hheap : (q.finish t).heap = q.heap := (finish_frame q t).2.2.1
  have htold : Framed x (q.finish t) p' := framed_of_eq h.tasks h.contexts fun c hc => by
    rw [h.heap, ← hheap] at hc
    exact .closure hc
  exact ((h.deeds.framed x hne hx).trans (h.arena.framed_finish hne.symm)).trans htold

/-- As long as a task does not run, it is framed. -/
theorem Lasts.framed (hP : Lasts x P) (hx : ∀ {q}, P q → x.index < q.tasks.size) (p : Process) :
    Lasts x fun q => P q ∧ Framed x p q where
  congr := fun h ht hc hh hq => ⟨hP.congr h.1 ht hc hh hq, h.2.trans (framed_of_eq ht hc fun c hc => .closure (hh c hc))⟩
  spares := fun h hne hun hs => ⟨hP.spares h.1 hne hun hs, h.2.trans (hs.framed x hne (hx h.1))⟩
  ends := fun h hne hun hend => ⟨hP.ends h.1 hne hun hend, h.2.trans (hend.framed hne (hx h.1))⟩
  elsewhere := fun h => hP.elsewhere h.1

end Process

namespace Ticket

variable {k : Ticket} {p : Process}

theorem Honoured.index_lt (h : k.Honoured p) : k.holder.index < p.tasks.size := by
  rcases h with h | h
  · exact Process.index_lt_of_top? h.poised.top
  · cases h with
    | paid _ _ hpoised => exact Process.index_lt_of_top? hpoised.top
    | refused _ _ _ _ hpoised => exact Process.index_lt_of_top? hpoised.top
    | lost _ _ hfin => exact Process.index_lt_of_isFinished hfin

theorem Honoured.register (h : k.Honoured p) : (p.taskAt k.holder).register = k.register ∨
    (p.taskAt k.awaited).state.isFinished ∧ (p.taskAt k.holder).register = (p.taskAt k.awaited).register := by
  rcases h with h | h
  · exact .inl h.poised.register
  · have hfin := h.isFinished
    cases h with
    | paid _ _ hpoised =>
        cases hd : k.delivery with
        | result => exact .inr ⟨hfin, hpoised.register.trans (by rw [value, hd])⟩
        | keep => exact .inl (hpoised.register.trans (by rw [value, hd]))
    | refused _ _ _ _ hpoised => exact .inl hpoised.register
    | lost _ _ _ hlost => exact .inr ⟨hfin, hlost⟩

/-- A framed holder is suspended. -/
theorem Pending.suspended {q : Process} (h : k.Pending p) (hq : k.Honoured q ∧ Process.Framed k.holder p q) :
    Process.Suspended k.holder k.awaited p q :=
  ⟨hq.2, h.poised.register ▸ hq.1.register⟩

end Ticket

namespace World

variable {w w₁ w₂ : World} {id : ProcessId} {x y t : TaskId} {m m₀ m₁ m₂ : Machine} {p : Process} {fuel : Nat}

/-- A turn that leaves its task unfinished ends with an instruction that has parked the task. -/
theorem Opens.parking (h : w.Opens id x m₀) (hw : w.Arises) (hrun : Machine.run fuel m₀ = some m)
    (hun : ¬ m.current.state.isFinished) : ∃ top position i n m', w.Parking id x top position i n m' ∧
      m = (Machine.setCursor top (position + 1) m').2 := by
  obtain ⟨_, p, hp, _, hround⟩ := h.round
  have hmem := (hw.inv.get? hp).1
  obtain ⟨_, hgo⟩ := h.going hw.inv
  rw [hgo.run_eq] at hrun
  obtain ⟨m₁, hruns, hstop⟩ := Machine.runs_of_runFrom hrun
  have hround₁ := hround.runs hruns
  have hgood : m₁.Going (w.outlook p) (some m₁.task) := hround₁.good hw.inv hmem
  obtain ⟨n, top, i, m', hdue, hstep, rfl⟩ := Machine.parked_of_advance (hround₁.sturdy hw.firm hw.inv hmem)
    hgood.current.2.index_lt hstop hun
  exact ⟨top, _, i, n, m', .mk h hruns hdue rfl hstep, rfl⟩

/-- What lasts as long as a task does not run is there when another task has its turn. -/
theorem Holds.opened {P : Process → Prop} (hk : w.Holds id P) (hP : Process.Lasts x P) (hw : w.Arises)
    (hopen : w.Opens id t m) (ht : t ≠ x) : P m.process := by
  obtain ⟨hp, _, hq⟩ := hopen
  refine hP.congr (hk.settled hP hw hp) rfl rfl (fun _ h => h) fun hmem => ?_
  rw [Fifo.toList_of_pop? hq] at hmem
  exact (List.mem_cons.1 hmem).resolve_left ht.symm

/-- A task whose turn has left it unfinished waits for a task `y`, and it is suspended until its next turn: at the end of
every event, at the beginning of every turn, its own next one included, and at every moment of the turns of other tasks. -/
theorem suspended_tasks_framed (hw : w.Arises) (hopen : w.Opens id x m₀) (hrun : Machine.run fuel m₀ = some m)
    (hun : ¬ m.current.state.isFinished) {fuel' : Nat} (hstep : w.step fuel' (.tick id) = some w₁) :
    ∃ y, x ∈ (m.process.taskAt y).dependents.map Dependent.task ∧ ∀ w₂, Idles id x w₁ w₂ →
      w₂.Holds id (Process.Suspended x y m.process) ∧
      ∀ t m₂, w₂.Opens id t m₂ → Process.Suspended x y m.process m₂.process ∧
        (t ≠ x → ∀ m₃, (Machine.resume m₂).2.Runs m₃ → Process.Suspended x y m.process m₃.process) := by
  obtain ⟨top, position, i, n, m', hpark, rfl⟩ := hopen.parking hw hrun hun
  obtain ⟨y, d, _, _, hpending⟩ := hpark.pending hw
  obtain ⟨m₀', m₁, hopen', hruns, hstop⟩ := hpark.stops
  let parked := (Machine.setCursor top (position + 1) m').2
  -- the ticket stays good, and so does the frame
  let k : Ticket := ⟨x, y, d, top, position + 1, m'.register⟩
  have hP := (Process.lasts_honoured k).framed (fun h => h.index_lt) parked.process
  have hk := holds_parked hP hw hopen' hruns hstop hun ⟨.inl hpending, .refl x _⟩ hstep
  refine ⟨y, List.mem_map_of_mem hpending.listed, fun w₂ hidle => ?_⟩
  obtain ⟨hw₂, hk₂⟩ := hidle.holds hP (hw.step hstep) hk
  refine ⟨?_, fun t m₂ hopen₂ => ⟨?_, fun ht m₃ hruns₃ => ?_⟩⟩
  · obtain ⟨p, hp, hp₂⟩ := hk₂
    exact ⟨p, hp, hpending.suspended hp₂⟩
  · obtain ⟨hp, _, _⟩ := hopen₂
    have hsettled := hpending.suspended (hk₂.settled hP hw₂ hp)
    exact ⟨hsettled.toFramed.trans (Process.framed_of_eq rfl rfl fun _ h => .closure h), hsettled.register⟩
  · have hsturdy := hopen₂.sturdy hw₂
    have hresume := Machine.paces_resume hsturdy
    have hpaces := hresume.trans (hruns₃.paces (Machine.sturdy_paces hsturdy hresume))
    obtain ⟨_, hgo⟩ := hopen₂.going hw₂.inv
    have htask : m₂.task = t := hopen₂.round.1
    have hspares : m₂.process.Spares t m₃.process := htask ▸ Machine.spares_paces hsturdy hpaces
    have hk₃ := hP.spares (hk₂.opened hP hw₂ hopen₂ ht) ht.symm (htask ▸ hgo.current.2.taskAt.1) hspares
    exact hpending.suspended hk₃

/-- The entry task has been parked by its call. -/
def parked : Machine := (Machine.run 9 entering).get (by decide +kernel)

theorem suspended_tasks_framed_returned : calling.Arises ∧ calling.Opens ⟨1⟩ ⟨0⟩ entering ∧
    Machine.run 9 entering = some parked ∧ ¬ parked.current.state.isFinished ∧ Idles ⟨1⟩ ⟨0⟩ called returned ∧
    ∃ y, ⟨0⟩ ∈ (parked.process.taskAt y).dependents.map Dependent.task ∧
      Process.Suspended ⟨0⟩ y parked.process reentering.process := by
  have hrun : Machine.run 9 entering = some parked := (Option.some_get _).symm
  have hun : ¬ parked.current.state.isFinished := by decide +kernel
  have hcalled : calling.step 9 (.tick ⟨1⟩) = some called := (Option.some_get _).symm
  obtain ⟨y, hlisted, hframed⟩ := suspended_tasks_framed arises_calling opens_entering hrun hun hcalled
  have hreopened := (hframed returned idles_returned).2 ⟨0⟩ reentering opens_reentering
  exact ⟨arises_calling, opens_entering, hrun, hun, idles_returned, y, hlisted, hreopened.1⟩

end World

end Spool
