import Spool.Proofs.Machine.Observance
import Spool.Proofs.World.Propagation
import Spool.Proofs.World.Suspended

/-!
# Call sites

A stack trace has a line for the task that runs and one for each task that has led to it. The line of a caller is looked up
one before its cursor, and there the instruction stands that has called: a parked task stays where it is.
-/

namespace Spool

/-- The instructions that make a task and park the one that calls. -/
def Op.makesTask : Op → Bool
  | .call | .callBare | .index | .store | .loadModule => true
  | _ => false

/-- Where an instruction is written. -/
structure Site where
  module : ModuleId
  place : Place

def Machine.siteOf (m : Machine) (c : ContextId) (position : Nat) : Site where
  module := (m.process.contextAt c).module
  place := ((m.host.registry.moduleAt (m.process.contextAt c).module).tape.place? position).getD ⟨0, 0⟩

/-- The line tells the site. -/
structure TraceLine.Shows (line : TraceLine) (r : Registry) (site : Site) : Prop where
  module : line.module = (r.moduleAt site.module).name
  place : line.place = site.place

namespace Machine

variable {m m' : Machine} {t y : TaskId} {c : ContextId} {callers : List TaskId} {line : TraceLine}

/-- The line of the task that runs, and those of its callers. -/
theorem stackTrace_eq (h : m.process.ancestry m.task = m.task :: callers) (hline : m.traceLine true m.task = some line) :
    m.stackTrace = (line :: callers.filterMap (m.traceLine false)).take traceLimit := by
  have hcallers : (callers.zipIdx 1).filterMap (fun x => m.traceLine (x.2 = 0) x.1)
      = callers.filterMap (m.traceLine false) := by
    calc (callers.zipIdx 1).filterMap (fun x => m.traceLine (x.2 = 0) x.1)
        = (callers.zipIdx 1).filterMap (m.traceLine false ∘ Prod.fst) := by
          apply List.filterMap_congr
          rintro ⟨t, depth⟩ hmem
          have hle := (List.mem_zipIdx hmem).1
          simp [show depth ≠ 0 by omega]
      _ = ((callers.zipIdx 1).map Prod.fst).filterMap (m.traceLine false) := List.filterMap_map.symm
      _ = callers.filterMap (m.traceLine false) := by rw [List.zipIdx_map_fst]
  calc m.stackTrace
      = ((m.process.ancestry m.task).zipIdx.filterMap fun x => m.traceLine (x.2 = 0) x.1).take traceLimit := rfl
    _ = (line :: callers.filterMap (m.traceLine false)).take traceLimit := by
      rw [h, List.zipIdx_cons, List.filterMap_cons, hcallers]
      simp [hline]

/-- A line tells where its instruction is written. -/
theorem exists_traceLine (innermost : Bool) (h : (m.process.taskAt t).top? = some c) :
    ∃ line, m.traceLine innermost t = some line ∧ line.Shows m.host.registry
      (m.siteOf c (if innermost then (m.process.contextAt c).cursor else (m.process.contextAt c).cursor - 1)) := by
  unfold traceLine
  rw [h]
  exact ⟨_, rfl, rfl, rfl⟩

/-- What is written does not change. -/
theorem siteOf_eq {d : ContextId} {position : Nat} {i : Instruction} (hr : m.host.registry.Longer m'.host.registry)
    (hi : (m.host.registry.moduleAt (m.process.contextAt c).module).tape.instructions[position]? = some i)
    (hmodule : (m'.process.contextAt d).module = (m.process.contextAt c).module) : m'.siteOf d position = m.siteOf c position := by
  unfold siteOf
  rw [hmodule, hr.tape_eq hi]

/-- Where there are no futures, a task that is parked has made another one. -/
theorem Awaits.makesTask {n : Machine} {i : Instruction} {d : Delivery} (h : Awaits n m i y d)
    (hn : n.process.heap.Knows fun _ => False) : i.op.makesTask := by
  cases h with
  | call _ _ _ _ hop =>
      rcases hop with hop | hop | hop
      all_goals
        rw [hop]
        rfl
  | store _ _ _ _ hop =>
      rw [hop]
      rfl
  | load _ _ _ _ hop =>
      rw [hop]
      rfl
  | wait r o cell _ _ ho hcell hmemo =>
      refine (hn r o cell.task ho ?_).elim
      rw [Object.payload_of_future? hcell]
      simp [Payload.external?, hmemo]

end Machine

namespace World

variable {w w' w₀ w₁ : World} {id : ProcessId} {x y t : TaskId} {m m₀ n k : Machine} {p p' : Process} {fuel : Nat}
  {e : Event} {top : ContextId} {position : Nat} {i : Instruction} {site : Site}

theorem Idles.longer (h : Idles id x w w') (hw : w.Arises) : w'.Arises ∧ w.host.registry.Longer w'.host.registry := by
  induction h with
  | refl => exact ⟨hw, .refl _⟩
  | handle _ hh ih => exact ⟨hh.arises ih.1, ih.2.trans hh.longer⟩
  | step _ hs _ ih => exact ⟨ih.1.step hs, ih.2.trans (ih.1.longer_step hs)⟩

theorem Idles.trans (h : Idles id x w w₁) (h' : Idles id x w₁ w') : Idles id x w w' := by
  induction h' with
  | refl => exact h
  | handle _ hh ih => exact ih.handle hh
  | step _ hs hn ih => exact ih.step hs hn

/-! ## Call sites -/

/-- The instruction at the site has made the task `y` and parked `x`, which has not had a turn since. -/
inductive CallSite (w : World) (id : ProcessId) (x y : TaskId) : Site → Prop where
  | mk {w₀ w₁ : World} {top : ContextId} {position : Nat} {i : Instruction} {n m : Machine} {fuel : Nat} :
      Since (Sequential id) id w₀ → w₀.Parking id x top position i n m → i.op.makesTask →
      n.process.tasks.size ≤ y.index → y.index < m.process.tasks.size → w₀.step fuel (.tick id) = some w₁ →
      Idles id x w₁ w → CallSite w id x y (n.siteOf top position)

theorem CallSite.idle (h : w.CallSite id x y site) (hidle : Idles id x w w') : w'.CallSite id x y site := by
  obtain ⟨hs, hpark, hop, hnew, hlt, hstep, hidle₀⟩ := h
  exact .mk hs hpark hop hnew hlt hstep (hidle₀.trans hidle)

/-- The instruction has been fetched from its site, and has done no more than deeds. -/
theorem Parking.footing (h : w.Parking id x top position i n m) (hw : w.Arises) :
    (n.host.registry.moduleAt (n.process.contextAt top).module).tape.instructions[position]? = some i ∧ n.Does m ∧
      ((Machine.setCursor top (position + 1) m).2.process.contextAt top).module = (n.process.contextAt top).module := by
  obtain ⟨hopen, hruns, hdue, hposition, hparked⟩ := h
  have hsturdy := (Amid.mk hopen hruns).sturdy hw
  have hstepped := Machine.wp_step_due hsturdy hdue
  rw [hposition] at hstepped
  have hdoes := (hstepped.ok hparked).2.1 (by simp)
  have hn := hsturdy.does (Machine.does_of_swept hdue.swept)
  refine ⟨?_, hdoes, ?_⟩
  · obtain ⟨heap, rfl⟩ := Machine.eq_of_swept hdue.swept
    have hfetched := hdue.fetched
    rwa [hposition] at hfetched
  · have hat := Process.contextAt_modifyContext m.process top (fun c => { c with cursor := position + 1 }) top
    rw [show (Machine.setCursor top (position + 1) m).2.process.contextAt top = _ from hat]
    have hmodule := Context.module_eq_of_footing (Machine.top?_does hn hdue.top? hdoes).2.1
    split <;> exact hmodule

theorem Parking.longer (h : w.Parking id x top position i n m) (hw : w.Arises) (hstep : w.step fuel (.tick id) = some w') :
    n.host.registry.Longer w'.host.registry := by
  obtain ⟨m₀, m₁, hopen, hruns, hstop⟩ := h.stops
  obtain ⟨_, _, _, hun, _⟩ := h.pending hw
  obtain ⟨_, hdoes, _⟩ := h.footing hw
  obtain ⟨heap, fault, htidy⟩ := (Machine.setCursor top (position + 1) m).2.tidy_frame
  have hregistry : w'.host.registry = m.host.registry := by
    rw [(Amid.mk hopen hruns).settles hw hstop hstep]
    change (Machine.tidy (Machine.conclude _).2).2.host.registry = _
    rw [Machine.conclude_of_unfinished hun, htidy]
    rfl
  rw [hregistry]
  exact (Machine.leads_travels hdoes.travels).longer

/-- What lasts as long as a task does not run is there at every moment of another task's turn. -/
theorem Holds.amid {P : Process → Prop} (hk : w.Holds id P) (hP : Process.Lasts x P) (hw : w.Arises)
    (ham : w.Amid id t m) (ht : t ≠ x) (hdoes : m.Does k) : P k.process := by
  obtain ⟨hopen, hruns⟩ := ham
  have hsturdy := hopen.sturdy hw
  have hresume := Machine.paces_resume hsturdy
  have hpaces := (hresume.trans (hruns.paces (Machine.sturdy_paces hsturdy hresume))).trans hdoes.paces
  obtain ⟨_, hgo⟩ := hopen.going hw.inv
  have htask := hopen.round.1
  have hspares := Machine.spares_paces hsturdy hpaces
  rw [htask] at hspares
  exact hP.spares (hk.opened hP hw hopen ht) ht.symm (htask ▸ hgo.current.2.taskAt.1) hspares

/-- A caller stands right after its call. -/
theorem CallSite.stands (h : w.CallSite id x y site) (ham : w.Amid id t m) (ht : t ≠ x) (hdoes : m.Does k) :
    ∃ c, (k.process.taskAt x).top? = some c ∧ k.siteOf c ((k.process.contextAt c).cursor - 1) = site := by
  obtain ⟨hs, hpark, -, -, -, hstep, hidle⟩ := h
  rename_i w₀ w₁ top position i n m' fuel
  have hw₀ := hs.arises
  obtain ⟨y', d, _, hun, hpending⟩ := hpark.pending hw₀
  obtain ⟨m₀, m₁, hopen, hruns, hstop⟩ := hpark.stops
  obtain ⟨hfetched, _, hmodule⟩ := hpark.footing hw₀
  let parked := (Machine.setCursor top (position + 1) m').2
  have hP := (Process.lasts_honoured ⟨x, y', d, top, position + 1, m'.register⟩).framed (fun h => h.index_lt) parked.process
  have hk := holds_parked hP hw₀ hopen hruns hstop hun ⟨.inl hpending, .refl x _⟩ hstep
  obtain ⟨hw, hk⟩ := hidle.holds hP (hw₀.step hstep) hk
  have hframed := (hk.amid hP hw ham ht hdoes).2
  have hcore := hframed.contexts top (Process.mem_of_top? hpending.poised.top)
  have hcursor : (k.process.contextAt top).cursor = position + 1 :=
    (congrArg Context.cursor hcore).trans hpending.poised.position
  have hlonger : n.host.registry.Longer k.host.registry := by
    refine (hpark.longer hw₀ hstep).trans ((hidle.longer (hw₀.step hstep)).2.trans ?_)
    exact ((ham.sturdy hw).does hdoes).longer
  refine ⟨top, ?_, ?_⟩
  · rw [Task.top?, hframed.stack]
    exact hpending.poised.top
  · rw [hcursor, Nat.add_sub_cancel]
    exact Machine.siteOf_eq hlonger hfetched ((congrArg Context.module hcore).trans hmodule)

/-! ## New tasks -/

/-- The queue holds everybody who has a turn in an event. -/
theorem Since.stops_queued (h : Since (Sequential id) id w) (hp : w.processes.get? id = some p)
    (hstep : w.step fuel e = some w') {s : Stop} (hs : s ∈ w.stops e w') (hid : s.process = id) :
    s.task ∈ p.queue.toList := by
  have hw := h.arises.inv
  cases e with
  | tick z =>
      simp only [stops] at hs
      cases hq : w.processes.get? z with
      | none => simp [hq] at hs
      | some q =>
          simp only [hq] at hs
          split at hs
          · have hz : z = id := by
              rcases List.mem_append.1 hs with hs | hs
              all_goals
                obtain ⟨_, _, rfl⟩ := List.mem_map.1 hs
                exact hid
            subst hz
            cases hp.symm.trans hq
            have hnone := h.holds.alone.completions p hp
            simp only [hnone, List.map_nil, List.nil_append, List.mem_map, Option.mem_toList] at hs
            obtain ⟨t, ht, rfl⟩ := hs
            obtain ⟨⟨t', queue⟩, hpop, rfl⟩ := Option.map_eq_some_iff.1 ht
            have hsettled := settled_eq (w := w) hnone
            unfold settled at hsettled
            rw [hsettled, (awaken_frame p).2.2.1] at hpop
            rw [Fifo.toList_of_pop? hpop]
            exact List.mem_cons_self
          · cases hs
  | deliver z =>
      cases hstep
      rcases hw.deliver_cases z with hnone | ⟨q, receiver, out, rfl, hd⟩
      · simp [stops, hnone] at hs
      · obtain ⟨rest, hout⟩ := hd.first
        have hfetch : w.processes.fetch q.id = q := Processes.fetch_of_get? hd.sender
        simp only [stops, hfetch, hout, List.head?_cons, Option.toList_some, List.map_cons, List.map_nil,
          List.mem_singleton] at hs
        subst hs
        have hmem := (hw.get? hd.sender).1
        obtain ⟨task, ht, _, hlink⟩ := (hw.intact q hmem).schedule.owing out (by simp [hout])
        exact absurd ⟨q, hmem, task, Array.mem_of_getElem? ht, hid ▸ hlink⟩ (h.holds.alone.awaits out.link.task)
  | engage worker => cases hs
  | complete alarm => cases hs

/-- The task at the head of the queue has the next turn. -/
theorem exists_opens_of_queued {queue : List TaskId} (h : Since (Sequential id) id w) (hp : w.processes.get? id = some p)
    (hcan : canTick p) (hq : p.queue.toList = t :: queue) : ∃ m₀, w.Opens id t m₀ := by
  have hsettled : (w.settled p).process.queue = p.queue := by
    rw [settled_eq (h.holds.alone.completions p hp), (awaken_frame p).2.2.1]
  cases hpop : p.queue.pop? with
  | none =>
      rw [(Fifo.pop?_eq_none_iff _).1 hpop] at hq
      cases hq
  | some x =>
      obtain ⟨t', rest⟩ := x
      rw [Fifo.toList_of_pop? hpop] at hq
      cases hq
      exact ⟨_, .mk hp hcan (hsettled ▸ hpop)⟩

/-- A task that waits when the round is over has been parked in it. -/
theorem Opens.parking_of_waits (hopen : w.Opens id t m₀) (hw : w.Arises) (hstep : w.step fuel (.tick id) = some w')
    (hp' : w'.processes.get? id = some p') (hwaits : p'.roster.Waits t) :
    ∃ top position i n m, w.Parking id t top position i n m := by
  obtain ⟨m, hrun, rfl⟩ := hopen.exists_run hstep
  obtain ⟨p, hp, _⟩ := hopen.round.2
  have hget := get?_settle hp (atRest m) hp
  rw [if_pos rfl] at hget
  cases hget.symm.trans hp'
  obtain ⟨_, hgo⟩ := hopen.going hw.inv
  have hruns := hrun
  rw [hgo.run_eq] at hruns
  obtain ⟨m₁, hruns, hstop⟩ := Machine.runs_of_runFrom hruns
  have ham : w.Amid id t m₁ := .mk hopen hruns
  have htask : m.task = t := by
    have := Machine.task_paces (Machine.paces_advance (ham.sturdy hw))
    rw [hstop] at this
    exact this.trans (ham.task_eq hw)
  have hun : ¬ m.current.state.isFinished := by
    intro hfin
    have hstate := ((Machine.heeds_conclude m).outcome m.task hfin).1
    obtain ⟨heap, fault, htidy⟩ := (Machine.conclude m).2.tidy_frame
    have hrest : (atRest m).process.taskAt m.task = (Machine.conclude m).2.process.taskAt m.task := by
      rw [atRest, htidy]
      rfl
    have hwaiting := state_of_waits hwaits
    rw [← htask, hrest, hstate] at hwaiting
    change m.current.state = .waiting at hwaiting
    rw [hwaiting] at hfin
    cases hfin
  obtain ⟨top, position, i, n, m', hpark, _⟩ := hopen.parking hw hrun hun
  exact ⟨top, position, i, n, m', hpark⟩

/-- What has been made in the turn of a task that is parked has been made by the instruction that has parked it. -/
theorem Parking.makes (hpark : w.Parking id x top position i n m) (h : Since (Sequential id) id w)
    (hp : w.processes.get? id = some p) (hstep : w.step fuel (.tick id) = some w') (hq : w'.Sequential id)
    (hp' : w'.processes.get? id = some p') :
    i.op.makesTask ∧ n.process.tasks.size = p.tasks.size ∧ p'.tasks = m.process.tasks := by
  have hw := h.arises
  obtain ⟨_, _, hawaits, hun, _⟩ := hpark.pending hw
  obtain ⟨hopen, hruns, hdue, hposition, hparked⟩ := hpark
  rename_i m₀ m₁
  have hstop := Machine.advance_of_parked hdue hposition hparked
  have ham : w.Amid id x m₁ := .mk hopen hruns
  obtain ⟨halone, hasync⟩ := ham.alone h hstop hstep hq
  obtain ⟨p₁, queue, hp₁, _, hcalls, hfutureless⟩ := ham.calls h halone
  cases hp.symm.trans hp₁
  have hsteady := hdue.swept.steady
  refine ⟨hawaits.makesTask (hsteady.futures _ (hfutureless hasync)), ?_, ?_⟩
  · have hroster := hsteady.roster.trans (Roster.eq_of_calls (Roster.calls_mono (b := False) hasync hcalls))
    simpa using congrArg (fun r : Roster => r.tasks.size) hroster
  · obtain ⟨phase, hget⟩ := get?_parked hw hopen hruns hstop hun hstep
    obtain ⟨heap, fault, htidy⟩ := (Machine.setCursor top (position + 1) m).2.tidy_frame
    cases hget.symm.trans hp'
    rw [htidy]
    rfl

/-- A new task has been made by the instruction that has parked the one it works for. -/
theorem Since.newcomer (h : Since (Sequential id) id w) (hp : w.processes.get? id = some p)
    (hstep : w.step fuel (.tick id) = some w') (hq : w'.Sequential id) (hp' : w'.processes.get? id = some p')
    (hnew : p.tasks.size ≤ y.index) (hparent : p'.ParentOf y x) : ∃ site, w'.CallSite id x y site := by
  obtain ⟨hw, ho⟩ := h.orderly
  obtain ⟨p₁, hp₁, hs⟩ := h.stacks
  cases hp.symm.trans hp₁
  have hrow : p'.roster.at? y = some (p'.roster.standingAt y) := Roster.ParentOf.at? (p'.parentOf_roster ▸ hparent)
  have hlt := Roster.index_lt_of_at? hrow
  have hmoved : p'.roster ≠ p.roster := by
    intro hsame
    rw [hsame, Process.size_roster] at hlt
    omega
  rcases tick_cases hstep with ⟨rfl, _⟩ | ⟨p₁, m₁, hp₁, hcan, hrun, rfl⟩
  · cases hp.symm.trans hp'
    exact absurd rfl hmoved
  cases hp.symm.trans hp₁
  have hget := get?_settle hp m₁ hp
  rw [if_pos rfl] at hget
  cases hget.symm.trans hp'
  rcases (h.holds.alone.round hw ho hp hrun hq.alone (.inl ⟨hs.futureless, hq.direct⟩)).2 with
    ⟨_, hsame, _⟩ | ⟨t, queue, hqueue, _, hturn⟩
  · exact absurd hsame hmoved
  obtain ⟨hworks, hwaits⟩ := (hturn.mono hq.direct).newcomer (hs.plain.dequeue hqueue) hrow (by simpa using hnew)
  rw [Process.standingAt_roster] at hworks
  cases hparent.symm.trans hworks
  obtain ⟨m₀, hopen⟩ := exists_opens_of_queued h hp hcan hqueue
  obtain ⟨top, position, i, n, m, hpark⟩ := hopen.parking_of_waits h.arises hstep hp' hwaits
  obtain ⟨hop, hold, hmade⟩ := hpark.makes h hp hstep hq hp'
  refine ⟨_, .mk h hpark hop (hold ▸ hnew) ?_ hstep .refl⟩
  rw [Process.size_roster, hmade] at hlt
  exact hlt

/-- Whoever works for another task that has not ended has been made at a call site of it. -/
theorem Since.exists_callSite (h : Since (Sequential id) id w) (hp : w.processes.get? id = some p)
    (hparent : p.ParentOf y x) (hun : ¬ (p.taskAt y).state.isFinished) : ∃ site, w.CallSite id x y site := by
  induction h generalizing p with
  | start hw hs _ =>
      -- the only task of a new process works for nobody
      obtain ⟨settings, module, hmain⟩ := startMain_get? hw.inv hs
      cases hmain.symm.trans hp
      have hparent : (Process.main id settings module).roster.ParentOf y x := Process.parentOf_roster _ ▸ hparent
      have holder := (Process.plain_main id settings module).parent_lt hparent
      have hlt := Roster.index_lt_of_at? hparent.at?
      rw [Process.size_roster, show (Process.main id settings module).tasks.size = 1 from
        Machine.size_startModule (Process.seeded id settings) module none] at hlt
      omega
  | @handle w w' h hh _ ih =>
      obtain ⟨hw, ho⟩ := h.orderly
      obtain ⟨p₀, hp₀, _⟩ := h.stacks
      obtain ⟨p', hp', hu⟩ := (hh.follows hw ho).unmoves.stays id p₀ hp₀
      cases hp.symm.trans hp'
      have hrow : p₀.roster.standingAt y = p.roster.standingAt y := by rw [hu.roster]
      rw [Process.standingAt_roster, Process.standingAt_roster] at hrow
      obtain ⟨site, hsite⟩ := ih hp₀ ((congrArg Standing.parent hrow).trans hparent)
        (by rw [show (p₀.taskAt y).state = (p.taskAt y).state from congrArg Standing.state hrow]; exact hun)
      exact ⟨site, hsite.idle (.handle .refl hh)⟩
  | @step w w' fuel e h hs hq ih =>
      obtain ⟨hw, ho⟩ := h.orderly
      obtain ⟨p₀, hp₀, hstacks⟩ := h.stacks
      by_cases hold : y.index < p₀.tasks.size
      · obtain ⟨p', hp', habides⟩ := (ho.step hw hs).2 id p₀ hp₀
        cases hp.symm.trans hp'
        have hlater := Process.later_of_abides habides hold
        have hparent₀ : p₀.ParentOf y x := hlater.parent.symm.trans hparent
        have hun₀ : ¬ (p₀.taskAt y).state.isFinished := fun hfin => hun (hlater.finished hfin)
        obtain ⟨site, hsite⟩ := ih hp₀ hparent₀ hun₀
        refine ⟨site, hsite.idle (.step .refl hs fun s hs' hid hx => ?_)⟩
        exact hstacks.not_mem_queue hparent₀ hun₀ (hx ▸ h.stops_queued hp₀ hs hs' hid)
      · by_cases he : e = .tick id
        · subst he
          exact h.newcomer hp₀ hs hq hp (Nat.le_of_not_lt hold) hparent
        · have hget := h.holds.alone.get?_step hw hp₀ (Process.unlinked_of_plain hstacks.plain) hs he
          cases hp.symm.trans hget
          exact absurd (Process.index_lt_of_taskAt (P := fun task => task.parent = some x) hparent nofun) hold

/-! ## Traces -/

/-- The lines that are true of the callers of a task, the innermost first: each one tells where the instruction is that
has parked the caller and made the task before it. -/
inductive Callers (w : World) (id : ProcessId) (k : Machine) : TaskId → List TraceLine → Prop where
  | first {y : TaskId} : (k.process.taskAt y).parent = none → Callers w id k y []
  | next {x y : TaskId} {site : Site} {line : TraceLine} {lines : List TraceLine} : k.process.ParentOf y x →
      w.CallSite id x y site → line.Shows k.host.registry site → Callers w id k x lines →
      Callers w id k y (line :: lines)

/-- The trace of the task `t`, which executes the instruction at the site, names the site and those of all calls that have
led to it. -/
def Traces (w : World) (id : ProcessId) (t : TaskId) (site : Site) (k : Machine) : Prop :=
  k.task = t ∧ ∃ line lines, k.stackTrace = (line :: lines).take 257 ∧ line.Shows k.host.registry site ∧
    w.Callers id k t lines

/-- The lines of the callers of `t`, and of the callers of any of them. -/
theorem Amid.callers (h : Since (Sequential id) id w) (ham : w.Amid id t m) (hdoes : m.Does k) {fuel : Nat}
    (hp : w.processes.get? id = some p) (hy : Relation.ReflTransGen p.ParentOf t y) (hle : y.index ≤ t.index)
    (hfuel : y.index < fuel) : ∃ callers lines, k.process.ancestryFrom fuel y = y :: callers ∧
      callers.filterMap (k.traceLine false) = lines ∧ w.Callers id k y lines := by
  obtain ⟨p', _, hp', _, habides⟩ := ham.tidy h.orderly.1 h.orderly.2
  cases hp.symm.trans hp'
  obtain ⟨p', hp', hs, hlt, hun⟩ := ham.ready h
  cases hp.symm.trans hp'
  have hparents : ∀ y : TaskId, y.index ≤ t.index → (k.process.taskAt y).parent = (p.taskAt y).parent := by
    intro y hy
    have hold := Nat.lt_of_le_of_lt hy hlt
    have hsize := habides.size_le
    simp only [Process.size_roster] at hsize
    exact (Machine.parent_does hdoes (Nat.lt_of_lt_of_le hold hsize)).trans (Process.later_of_abides habides hold).parent
  -- callers are older, so there is fuel for all of them
  induction fuel generalizing y with
  | zero => exact absurd hfuel (Nat.not_lt_zero _)
  | succ fuel ih =>
      cases hparent : (p.taskAt y).parent with
      | none =>
          have hnone := (hparents y hle).trans hparent
          exact ⟨[], [], by simp [Process.ancestryFrom, hnone], rfl, .first hnone⟩
      | some x =>
          have hcaller := (hparents y hle).trans hparent
          have hparent : p.ParentOf y x := hparent
          have holder : x.index < y.index := hs.plain.parent_lt (p.parentOf_roster ▸ hparent)
          obtain ⟨callers, lines, hancestry, hlines, hcallers⟩ := ih (hy.tail hparent) (by omega) (by omega)
          have huny : ¬ (p.taskAt y).state.isFinished := by
            have hstacked := hs.stacked.unfinished hs.plain (t := t) (x := y)
            rw [p.parentOf_roster, p.standingAt_roster, p.standingAt_roster] at hstacked
            exact hstacked hun hy
          obtain ⟨site, hsite⟩ := h.exists_callSite hp hparent huny
          obtain ⟨c, htop, hstands⟩ := hsite.stands ham (fun htx => by subst htx; omega) hdoes
          obtain ⟨line, hline, hshows⟩ := Machine.exists_traceLine false htop
          rw [if_neg Bool.false_ne_true, hstands] at hshows
          refine ⟨x :: callers, line :: lines, ?_, ?_, .next hcaller hsite hshows hcallers⟩
          · simp [Process.ancestryFrom, hcaller, hancestry]
          · rw [List.filterMap_cons, hline, hlines]

/-- A trace that is taken while the task `t` executes an instruction has a line for the instruction, and then a line for
the call site of each task in the chain of those that have led to `t`, the innermost first. It is cut off after 257 lines.
This goes for a trace that the instruction takes itself and for the one of a fault that it comes to. -/
theorem traces_name_call_sites (h : Since (Sequential id) id w) (ham : w.Amid id t m) (hdue : m.Due n top i) :
    (∀ k, m.Does k → w.Traces id t (m.siteOf top (m.process.contextAt top).cursor) k) ∧
    ∀ fault n', Machine.step top (m.process.contextAt top).cursor i n = (.error fault, n') →
      ∀ k, n'.Does k → w.Traces id t (m.siteOf top (m.process.contextAt top).cursor) k := by
  have hw := h.arises
  have hsturdy := ham.sturdy hw
  have htraces : ∀ k, m.Does k → w.Traces id t (m.siteOf top (m.process.contextAt top).cursor) k := by
    intro k hdoes
    have htask : k.task = t := (Machine.task_does hdoes).trans (ham.task_eq hw)
    obtain ⟨htop, hfooting, _⟩ := Machine.top?_does hsturdy hdue.innermost hdoes
    obtain ⟨p, hp, _, hlt, _⟩ := ham.ready h
    obtain ⟨_, _, hp', _, habides⟩ := ham.tidy h.orderly.1 h.orderly.2
    cases hp.symm.trans hp'
    have hsize : p.tasks.size ≤ k.process.tasks.size := by
      have hgrown := habides.size_le
      simp only [Process.size_roster] at hgrown
      exact Nat.le_trans hgrown (Machine.size_does hdoes)
    have hfuel : t.index < k.process.tasks.size + 1 := by omega
    obtain ⟨callers, lines, hancestry, hlines, hcallers⟩ := ham.callers h hdoes hp .refl (Nat.le_refl _) hfuel
    obtain ⟨line, hline, hshows⟩ := Machine.exists_traceLine true htop
    rw [if_pos rfl, Context.cursor_eq_of_footing hfooting, Machine.siteOf_eq (Machine.leads_travels hdoes.travels).longer
      hdue.fetched (Context.module_eq_of_footing hfooting)] at hshows
    refine ⟨htask, line, lines, ?_, hshows, hcallers⟩
    rw [← hlines]
    exact Machine.stackTrace_eq (htask ▸ hancestry) hline
  refine ⟨htraces, fun fault n' hfail k hdoes => htraces k ?_⟩
  have hfailed := Act.wp.error (Machine.wp_step_due hsturdy hdue) (congrArg Prod.fst hfail)
  rw [hfail] at hfailed
  exact ((Machine.does_of_swept hdue.swept).trans hfailed.1).trans hdoes

/-- The entry task calls a function, which fails. -/
def stumbling : CompiledModule :=
  { name := "stumbling"
    tape :=
      { instructions := #[⟨.callBare, .name "f"⟩, ⟨.ret, .none⟩, ⟨.load, .name "missing"⟩, ⟨.ret, .none⟩]
        places := #[some ⟨1, 1⟩, some ⟨2, 1⟩, some ⟨5, 3⟩, some ⟨6, 3⟩] }
    functions := #[{ name := "f", start := 2 }] }

def approaching : World := (startMain "stumbling" (register stumbling {}).2).2

/-- The entry task waits for the function. -/
def approached : World := (approaching.step 9 (.tick ⟨1⟩)).get (by decide +kernel)

/-- The function comes to its turn. -/
def tripping : Machine := (approached.opening? ⟨1⟩).get (by decide +kernel)

/-- The function has looked up a name that nobody knows. -/
def tripped : Machine := (Machine.step ⟨1⟩ 2 ⟨.load, .name "missing"⟩ (Machine.resume tripping).2).2

theorem traces_name_call_sites_tripped : Since (Sequential ⟨1⟩) ⟨1⟩ approached ∧
    approached.Amid ⟨1⟩ ⟨1⟩ (Machine.resume tripping).2 ∧
    (Machine.resume tripping).2.Due (Machine.resume tripping).2 ⟨1⟩ ⟨.load, .name "missing"⟩ ∧
    Machine.step ⟨1⟩ 2 ⟨.load, .name "missing"⟩ (Machine.resume tripping).2 = (.error (.unknownName "missing"), tripped) ∧
    tripped.stackTrace.map TraceLine.place = [⟨5, 3⟩, ⟨1, 1⟩] ∧
    ∃ site, approached.CallSite ⟨1⟩ ⟨0⟩ ⟨1⟩ site ∧ site.place = ⟨1, 1⟩ := by
  have happroaching : Since (Sequential ⟨1⟩) ⟨1⟩ approaching :=
    .of_toOption (.register stumbling (.create (r := {}) rfl)) (by decide +kernel) (by decide +kernel)
  have hsince : Since (Sequential ⟨1⟩) ⟨1⟩ approached := happroaching.step (Option.some_get _).symm (by decide +kernel)
  have htask : tripping.task = ⟨1⟩ := by decide +kernel
  have hopen : approached.Opens ⟨1⟩ ⟨1⟩ tripping := htask ▸ opens_opening (Option.some_get _).symm
  have hfetches : Fetches (Machine.resume tripping).2 ⟨1⟩ 2 .load "missing" := by decide +kernel
  obtain ⟨hdue, hposition⟩ := due_of_fetches hfetches
  have hfail : Machine.step ⟨1⟩ 2 ⟨.load, .name "missing"⟩ (Machine.resume tripping).2
      = (.error (.unknownName "missing"), tripped) := Prod.ext (eq_of_misses (by decide +kernel)) rfl
  have hplaces : tripped.stackTrace.map TraceLine.place = [⟨5, 3⟩, ⟨1, 1⟩] := by decide +kernel
  have hparents : (tripped.process.taskAt ⟨1⟩).parent = some ⟨0⟩ ∧ (tripped.process.taskAt ⟨0⟩).parent = none := by
    decide +kernel
  obtain ⟨_, line, lines, htrace, _, hcallers⟩ := (traces_name_call_sites hsince hopen.amid hdue).2 _ _
    (hposition ▸ hfail) tripped (.refl _)
  refine ⟨hsince, hopen.amid, hdue, hfail, hplaces, ?_⟩
  cases hcallers with
  | first hnone => cases hnone.symm.trans hparents.1
  | next hparent hsite hshows hrest =>
      cases hparents.1.symm.trans hparent
      cases hrest with
      | first _ =>
          rw [htrace] at hplaces
          obtain ⟨_, hplace, _⟩ : line.place = ⟨5, 3⟩ ∧ _ = (⟨1, 1⟩ : Place) ∧ True := by simpa using hplaces
          exact ⟨_, hsite, hshows.place.symm.trans hplace⟩
      | next hparent _ _ _ => cases hparents.2.symm.trans hparent

end World

end Spool
