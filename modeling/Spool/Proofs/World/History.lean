import Spool.Proofs.World.Orderly

/-!
# No task runs twice

The history of a world says which tasks have had their turn, in which order, and how each turn has ended. A task has
another turn only if the last one has left it waiting; a task that has come to its end has no other.
-/

namespace Spool

namespace World

variable {w w' w₀ : World} {id : ProcessId} {p : Process} {fuel : Nat} {e : Event} {α : Type}

/-! ## What is done from outside -/

inductive Handled (w : World) : World → Prop where
  | addHostModule : Handled w { w with host := { w.host with registry := w.host.registry.addHostModule } }
  | register (m : CompiledModule) : Handled w (register m w).2
  | loadFile (path : String) : Handled w (loadFile path w).2
  | startMain (name : String) : Handled w (startMain name w).2
  | collect (id : ProcessId) : Handled w (w.collect id).2

/-- A world in order, in which no process has moved since. -/
structure Follows (w₀ w : World) : Prop where
  inv : w.Inv
  orderly : w.Orderly []
  unmoves : w₀.Unmoves w

theorem Follows.registry (h : w₀.Follows w) {registry : Registry} (hr : registry.Calm) :
    w₀.Follows { w with host := { w.host with registry } } :=
  ⟨h.inv.registry hr, h.orderly.registry registry, h.unmoves.stays, h.unmoves.enters⟩

theorem follows_onRegistry {act : Registry.Entry α} (ha : Preserves Registry.Calm act) :
    Preserves w₀.Follows (onRegistry act) :=
  fun w h => h.registry (ha w.host.registry h.inv.calm)

theorem Follows.enter (h : w₀.Follows w) (module : ModuleId) : w₀.Follows { w with
    host := { w.host with born := w.host.born + 1 }
    processes := w.processes.push (.main ⟨w.host.born + 1⟩ w.host.heapSettings module) } :=
  ⟨h.inv.enter module, h.orderly.main h.inv module, h.unmoves.trans (unmoves_main w module)⟩

theorem follows_startMain (name : String) : Preserves w₀.Follows (startMain name) := by
  unfold startMain
  refine preserves_get fun w _ => ?_
  exact preserves_bind (follows_onRegistry (Registry.preserves_resolve Registry.lasting_calm w.host.library name))
    fun module w hw => hw.enter module

theorem Handled.follows (h : Handled w w') (hw : w.Inv) (ho : w.Orderly []) : w.Follows w' := by
  have hself : w.Follows w := ⟨hw, ho, .refl w⟩
  cases h with
  | addHostModule => exact hself.registry hw.calm.addHostModule
  | register m => exact follows_onRegistry (Registry.preserves_register Registry.lasting_calm m _ _) w hself
  | loadFile path =>
      have hload : Preserves w.Follows (World.loadFile path) := preserves_get fun w' _ =>
        follows_onRegistry (Registry.preserves_loadFile Registry.lasting_calm w'.host.library path)
      exact hload w hself
  | startMain name => exact follows_startMain name w hself
  | collect id =>
      obtain ⟨ho', hu⟩ := ho.collect hw id
      exact ⟨hw.collect id, ho', hu⟩

theorem Handled.arises (h : Handled w w') (hw : w.Arises) : w'.Arises := by
  cases h with
  | addHostModule => exact hw.addHostModule
  | register m => exact hw.register m
  | loadFile path => exact hw.loadFile path
  | startMain name => exact hw.startMain name
  | collect id => exact hw.collect id

/-! ## What happens -/

theorem Orderly.step (ho : w.Orderly []) (hw : w.Inv) (h : w.step fuel e = some w') : w'.Orderly [] ∧ w.Abides w' := by
  cases e with
  | tick id => exact ho.tick hw h
  | deliver id =>
      cases h
      rcases hw.deliver_cases id with hnone | ⟨p, q, out, rfl, hd⟩
      · rw [deliver_eq_self hnone]
        exact ⟨ho, .refl w⟩
      · obtain ⟨ho', ha, _⟩ := ho.deliver hw hd
        exact ⟨ho', ha⟩
  | engage worker =>
      cases h
      exact ho.engage worker
  | complete alarm =>
      cases h
      exact ho.complete hw alarm

theorem orderly_create {r : MachineRequest} (h : create r = .ok w) : w.Orderly [] := by
  obtain ⟨_, _, rfl⟩ := eq_of_create h
  exact ⟨by simp [Pool.Staffed], by simp, by simp⟩

/-- The world after a number of events, if `check` holds after each of them. -/
def play (fuel : Nat) (check : World → Bool) : List Event → World → Option World
  | [], w => some w
  | e :: rest, w => (w.step fuel e).bind fun w' => if check w' then play fuel check rest w' else none

theorem Arises.play (hw : w.Arises) {check : World → Bool} {events : List Event}
    (h : play fuel check events w = some w') : w'.Arises := by
  induction events generalizing w with
  | nil =>
      cases h
      exact hw
  | cons e rest ih =>
      obtain ⟨w₁, hstep, hrest⟩ := Option.bind_eq_some_iff.1 h
      split at hrest
      · exact ih (hw.step hstep) hrest
      · cases hrest

/-! ## Turns -/

/-- A task has had its turn, or what it has waited for has come from elsewhere. -/
structure Stop where
  process : ProcessId
  task : TaskId
  /-- The task has come to its end, and those who wait for it have been told. Otherwise it waits. -/
  ended : Bool
  deriving DecidableEq, Repr

/-- The turns of an event, where `w'` is the world after it. -/
def stops (w : World) (e : Event) (w' : World) : List Stop :=
  match e with
  | .tick id =>
    match w.processes.get? id with
    | some p =>
      if canTick p then
        let m : Machine := { host := w.host, process := awaken p, task := ⟨0⟩ }
        p.completions.map (fun c => ⟨id, c.task, true⟩) ++
          m.next?.toList.map fun t => ⟨id, t, ((w'.processes.fetch id).taskAt t).state.isFinished⟩
      else []
    | none => []
  | .deliver id => (w.processes.fetch id).outgoing.head?.toList.map fun out => ⟨out.link.process, out.link.task, true⟩
  | _ => []

/-- A world that has come about, and all turns of tasks so far. -/
inductive History : List Stop → World → Prop where
  | create {r : MachineRequest} {w : World} : create r = .ok w → History [] w
  | handle {log : List Stop} {w w' : World} : History log w → Handled w w' → History log w'
  | step {log : List Stop} {w w' : World} {fuel : Nat} {e : Event} : History log w → w.step fuel e = some w' →
      History (log ++ w.stops e w') w'

theorem Arises.history (hw : w.Arises) : ∃ log, History log w := by
  induction hw with
  | create h => exact ⟨[], .create h⟩
  | addHostModule _ ih =>
      obtain ⟨log, h⟩ := ih
      exact ⟨log, h.handle .addHostModule⟩
  | register m _ ih =>
      obtain ⟨log, h⟩ := ih
      exact ⟨log, h.handle (.register m)⟩
  | loadFile path _ ih =>
      obtain ⟨log, h⟩ := ih
      exact ⟨log, h.handle (.loadFile path)⟩
  | startMain name _ ih =>
      obtain ⟨log, h⟩ := ih
      exact ⟨log, h.handle (.startMain name)⟩
  | step _ hs ih =>
      obtain ⟨log, h⟩ := ih
      exact ⟨_, h.step hs⟩
  | collect id _ ih =>
      obtain ⟨log, h⟩ := ih
      exact ⟨log, h.handle (.collect id)⟩

theorem History.orderly {log : List Stop} (h : History log w) : w.Inv ∧ w.Orderly [] := by
  induction h with
  | create h => exact ⟨inv_create h, orderly_create h⟩
  | handle _ hh ih =>
      have hf := hh.follows ih.1 ih.2
      exact ⟨hf.inv, hf.orderly⟩
  | step _ hs ih => exact ⟨ih.1.step hs, (ih.2.step ih.1 hs).1⟩

theorem History.arises {log : List Stop} (h : History log w) : w.Arises := by
  induction h with
  | create h => exact .create h
  | handle _ hh ih => exact hh.arises ih
  | step _ hs ih => exact ih.step hs

/-- The task has come to its end. -/
def IsFinished (w : World) (s : Stop) : Prop :=
  ∃ p, w.processes.get? s.process = some p ∧ (p.taskAt s.task).state.isFinished

/-- The task is parked, and is not in the queue. -/
def IsSuspended (w : World) (s : Stop) : Prop :=
  ∃ p, w.processes.get? s.process = some p ∧ (p.taskAt s.task).state = .waiting ∧ s.task ∈ p.waiting ∧
    s.task ∉ p.queue.toList

theorem Abides.isFinished {s : Stop} (h : w.Abides w') (hs : w.IsFinished s) : w'.IsFinished s := by
  obtain ⟨p, hp, hfin⟩ := hs
  obtain ⟨p', hp', ha⟩ := h _ p hp
  have := ha.isFinished (t := s.task) (by rw [Process.standingAt_roster]; exact hfin)
  rw [Process.standingAt_roster] at this
  exact ⟨p', hp', this⟩

/-- The turns of one event are those of different tasks, which had not come to their end and have stopped now. -/
structure Fair (w : World) (stops : List Stop) (w' : World) : Prop where
  unfinished : ∀ s ∈ stops, ¬ w.IsFinished s
  ended : ∀ s ∈ stops, s.ended → w'.IsFinished s
  suspended : ∀ s ∈ stops, s.ended = false → w'.IsSuspended s
  pairwise : stops.Pairwise fun a b => a.process = b.process → a.task ≠ b.task

theorem fair_nil (w w' : World) : Fair w [] w' := ⟨by simp, by simp, by simp, .nil⟩

theorem state_of_at? {t : TaskId} {row : Standing} (h : p.roster.at? t = some row) : (p.taskAt t).state = row.state := by
  have := Roster.standingAt_of_at? h
  rw [Process.standingAt_roster] at this
  exact congrArg Standing.state this

theorem state_of_waits {t : TaskId} (h : p.roster.Waits t) : (p.taskAt t).state = .waiting := by
  obtain ⟨s, hs, hstate⟩ := h
  exact (state_of_at? hs).trans hstate

/-- Tasks whose background calls have come back. -/
theorem Orderly.completions (ho : w.Orderly []) (hw : w.Inv) (hp : w.processes.get? id = some p) :
    (p.completions.map Completion.task).Nodup ∧ ∀ c ∈ p.completions, p.roster.Waits c.task := by
  have ht := (ho.machine hw hp ⟨0⟩).view.ordered
  have hsub : (p.completions.map Completion.task).Sublist
      (due p.id (({ host := w.host, process := p, task := ⟨0⟩ } : Machine).view.pledges ++ (w.pledgesBeside id ++ []))) := by
    rw [← due_own p.id (p.completions.map Completion.task)]
    refine due_sublist p.id (List.Sublist.trans ?_ (List.sublist_append_left _ _))
    refine List.Sublist.trans ?_ (List.sublist_append_left _ _)
    exact (List.sublist_append_left _ _).trans (List.sublist_append_right _ _)
  refine ⟨?_, fun c hc => (ht.parked c.task).1 (List.mem_append_right _ (hsub.subset (List.mem_map_of_mem hc)))⟩
  have hdue := List.Sublist.nodup ((List.sublist_append_right _ _).trans (List.sublist_append_right _ _)) ht.places
  exact hsub.nodup hdue

theorem fair_tick (hw : w.Inv) (ho : w.Orderly []) (h : w.tick fuel id = some w') : Fair w (w.stops (.tick id) w') w' := by
  rcases tick_cases h with ⟨rfl, hcan⟩ | ⟨p, m, hp, hcan, hrun, rfl⟩
  · have hnone : w'.stops (.tick id) w' = [] := by
      cases hp : w'.processes.get? id with
      | none => simp only [stops, hp]
      | some p => simp [stops, hp, hcan p hp]
    rw [hnone]
    exact fair_nil w' w'
  · have hinv := hw.awaken (hw.get? hp).1 ⟨0⟩
    obtain ⟨htidy, _, hsettled, hnext⟩ := Machine.tidy_tick hinv (ho.awaken hw hp ⟨0⟩) hrun
    obtain ⟨hnodup, hwaits⟩ := ho.completions hw hp
    have hget : (w.settle id m).processes.get? id = some m.process := by
      have := get?_settle hp m hp
      rwa [if_pos rfl] at this
    have hfetch : (w.settle id m).processes.fetch id = m.process := Processes.fetch_of_get? hget
    have hstops : w.stops (.tick id) (w.settle id m) = p.completions.map (fun c => ⟨id, c.task, true⟩) ++
        (Machine.next? { host := w.host, process := awaken p, task := ⟨0⟩ }).toList.map fun t =>
          ⟨id, t, (m.process.taskAt t).state.isFinished⟩ := by
      simp only [stops, hp, hcan, hfetch, if_true]
    have hcase : ∀ s ∈ w.stops (.tick id) (w.settle id m), (∃ c ∈ p.completions, s = ⟨id, c.task, true⟩) ∨
        ∃ t, Machine.next? { host := w.host, process := awaken p, task := ⟨0⟩ } = some t ∧
          s = ⟨id, t, (m.process.taskAt t).state.isFinished⟩ := by
      intro s hs
      rw [hstops] at hs
      rcases List.mem_append.1 hs with hs | hs
      · obtain ⟨c, hc, rfl⟩ := List.mem_map.1 hs
        exact .inl ⟨c, hc, rfl⟩
      · obtain ⟨t, ht, rfl⟩ := List.mem_map.1 hs
        exact .inr ⟨t, Option.mem_toList.1 ht, rfl⟩
    rw [view_awaken] at hsettled hnext
    have hcomp : ∀ c ∈ p.completions,
        c.task ∈ ({ host := w.host, process := p, task := ⟨0⟩ } : Machine).view.roster.completions :=
      fun c hc => List.mem_map_of_mem hc
    constructor
    case unfinished =>
      rintro s hs ⟨p', hp', hfin⟩
      rcases hcase s hs with ⟨c, hc, rfl⟩ | ⟨t, ht, rfl⟩
      · cases hp.symm.trans hp'
        rw [state_of_waits (hwaits c hc)] at hfin
        cases hfin
      · cases hp.symm.trans hp'
        refine (hnext t ht).2.1 ?_
        change (p.roster.standingAt t).state.isFinished
        rw [Process.standingAt_roster]
        exact hfin
    case ended =>
      intro s hs hended
      rcases hcase s hs with ⟨c, hc, rfl⟩ | ⟨t, ht, rfl⟩
      · refine ⟨m.process, hget, ?_⟩
        have := hsettled c.task (hcomp c hc)
        change (m.process.roster.standingAt c.task).state.isFinished at this
        rwa [Process.standingAt_roster] at this
      · exact ⟨m.process, hget, hended⟩
    case suspended =>
      intro s hs hended
      rcases hcase s hs with ⟨c, hc, rfl⟩ | ⟨t, ht, rfl⟩
      · cases hended
      · have hstop := (hnext t ht).2.2
        have hun : ¬ (m.view.roster.standingAt t).state.isFinished := by
          change ¬ (m.process.roster.standingAt t).state.isFinished
          rw [Process.standingAt_roster]
          simpa [Task.standing] using hended
        have hw := hstop.resolve_right hun
        have hwait := htidy.view.ordered.waits t hw
        obtain ⟨row, hrow, hstate⟩ := hw
        refine ⟨m.process, hget, hstate ▸ state_of_at? hrow, hwait, fun hq => ?_⟩
        obtain ⟨⟨row', hrow', hstate'⟩, _⟩ := htidy.view.ordered.queued t hq
        cases hrow.symm.trans hrow'
        rw [hstate] at hstate'
        rcases hstate' with h | h <;> cases h
    case pairwise =>
      rw [hstops, List.pairwise_append]
      refine ⟨?_, ?_, ?_⟩
      · rw [List.Nodup, List.pairwise_map] at hnodup
        rw [List.pairwise_map]
        exact List.Pairwise.imp (fun {a b} (hne : a.task ≠ b.task) _ => hne) hnodup
      · cases Machine.next? { host := w.host, process := awaken p, task := ⟨0⟩ } <;> simp
      · intro a ha b hb _ htask
        obtain ⟨c, hc, rfl⟩ := List.mem_map.1 ha
        obtain ⟨t, ht, rfl⟩ := List.mem_map.1 hb
        have htask : c.task = t := htask
        exact (hnext t (Option.mem_toList.1 ht)).1 (htask ▸ hcomp c hc)

theorem fair_step (hw : w.Inv) (ho : w.Orderly []) (h : w.step fuel e = some w') : Fair w (w.stops e w') w' := by
  cases e with
  | tick id => exact fair_tick hw ho h
  | deliver id =>
      cases h
      rcases hw.deliver_cases id with hnone | ⟨p, q, out, rfl, hd⟩
      · have : w.stops (.deliver id) (w.deliver id) = [] := by simp [stops, hnone]
        rw [this]
        exact fair_nil _ _
      · obtain ⟨rest, hout⟩ := hd.first
        have hfetch : w.processes.fetch p.id = p := Processes.fetch_of_get? hd.sender
        have hstops : w.stops (.deliver p.id) (w.deliver p.id) = [⟨out.link.process, out.link.task, true⟩] := by
          simp [stops, hfetch, hout]
        obtain ⟨_, _, hwaits, q', v, copier, _, hq', _, hroster⟩ := ho.deliver hw hd
        obtain ⟨hended, _⟩ := Process.taskAt_of_conclude hroster hwaits.index_lt hd.finished
        rw [hstops]
        constructor
        case unfinished =>
          rintro s hs ⟨q₁, hq₁, hfin₁⟩
          cases List.mem_singleton.1 hs
          cases hd.receiver.symm.trans hq₁
          rw [state_of_waits hwaits] at hfin₁
          cases hfin₁
        case ended =>
          intro s hs _
          cases List.mem_singleton.1 hs
          exact ⟨q', hq', hended ▸ hd.finished⟩
        case suspended =>
          intro s hs hended
          cases List.mem_singleton.1 hs
          cases hended
        case pairwise => exact List.pairwise_singleton _ _
  | engage worker => exact fair_nil _ _
  | complete alarm => exact fair_nil _ _

/-- Each turn but the last of a task has left it waiting. -/
theorem History.pairwise {log : List Stop} (h : History log w) : (∀ s ∈ log, s.ended → w.IsFinished s) ∧
    log.Pairwise fun a b => a.process = b.process → a.task = b.task → a.ended = false := by
  induction h with
  | create _ => exact ⟨by simp, .nil⟩
  | handle h hh ih =>
      obtain ⟨hw, ho⟩ := h.orderly
      exact ⟨fun s hs hended => (hh.follows hw ho).unmoves.abides.isFinished (ih.1 s hs hended), ih.2⟩
  | @step log w w' fuel e h hs ih =>
      obtain ⟨hw, ho⟩ := h.orderly
      have hfair := fair_step hw ho hs
      have habides := (ho.step hw hs).2
      refine ⟨fun s hmem hended => ?_, List.pairwise_append.2 ⟨ih.2, ?_, fun a ha b hb hprocess htask => ?_⟩⟩
      · rcases List.mem_append.1 hmem with hmem | hmem
        · exact habides.isFinished (ih.1 s hmem hended)
        · exact hfair.ended s hmem hended
      · exact hfair.pairwise.imp fun hne hprocess htask => absurd htask (hne hprocess)
      · -- a task that has come to its end has no other turn
        cases hended : a.ended with
        | false => rfl
        | true =>
            obtain ⟨p, hp, hfin⟩ := ih.1 a ha hended
            exact absurd ⟨p, hprocess ▸ hp, htask ▸ hfin⟩ (hfair.unfinished b hb)

/-- Between two events the states of the tasks, the queue, the set of parked tasks and the lists of waiters agree: each
task is in one place. In the whole history of a world no task has had a turn after it has come to its end, so each task
is finished once at most; and a task that has had more than one turn was suspended at the end of each but the last, so
that every suspension is followed by one turn at most. -/
theorem no_double_scheduling {log : List Stop} (hw : History log w) :
    (∀ p ∈ w.processes.items,
      p.queue.toList.Nodup ∧
      (∀ t ∈ p.queue.toList, t.index < p.tasks.size ∧
        ((p.taskAt t).state = .new ∨ (p.taskAt t).state = .running) ∧ t ∉ p.waiting) ∧
      (∀ t, t.index < p.tasks.size → (p.taskAt t).state = .new ∨ (p.taskAt t).state = .running → t ∈ p.queue.toList) ∧
      (∀ t, t.index < p.tasks.size → (p.taskAt t).state = .waiting → t ∈ p.waiting) ∧
      p.waiters.Nodup ∧ ∀ t ∈ p.waiters, (p.taskAt t).state = .waiting) ∧
    (log.Pairwise fun a b => a.process = b.process → a.task = b.task → a.ended = false) ∧
    ∀ fuel e w', w.step fuel e = some w' → ∀ s ∈ w.stops e w', ¬ w.IsFinished s ∧
      if s.ended then w'.IsFinished s else w'.IsSuspended s := by
  obtain ⟨hinv, ho⟩ := hw.orderly
  refine ⟨fun p hp => ?_, hw.pairwise.2, fun fuel e w' hs s hmem => ?_⟩
  · have hord := ho.ordered p hp
    have hrow : ∀ t, t.index < p.tasks.size → p.roster.at? t = some (p.taskAt t).standing := fun t ht =>
      Process.at?_roster_of (Process.getElem?_of_index_lt ht)
    have hwaiters := Process.waiters_roster p
    obtain ⟨hqueue, hrest, _⟩ := List.nodup_append.1 hord.places
    obtain ⟨hnodup, _, _⟩ := List.nodup_append.1 hrest
    refine ⟨hqueue, fun t ht => ?_, fun t ht hstate => ?_, fun t ht hstate => ?_, hwaiters ▸ hnodup, fun t ht => ?_⟩
    · obtain ⟨⟨s, hs, hstate⟩, _⟩ := hord.queued t ht
      refine ⟨by simpa using Roster.index_lt_of_at? hs, ?_, hord.not_mem_waiting ht⟩
      rw [state_of_at? hs]
      exact hstate
    · exact (hord.runs t ⟨_, hrow t ht, hstate⟩).resolve_right (by simp)
    · exact hord.waits t ⟨_, hrow t ht, hstate⟩
    · exact state_of_waits ((hord.parked t).1 (List.mem_append_left _ (hwaiters ▸ ht)))
  · have hfair := fair_step hinv ho hs
    refine ⟨hfair.unfinished s hmem, ?_⟩
    split
    · exact hfair.ended s hmem ‹_›
    · rename_i hended
      exact hfair.suspended s hmem (by simpa using hended)

/-- A program that calls a function and ends. -/
def caller : CompiledModule :=
  { name := "caller"
    tape := { instructions := #[⟨.callBare, .name "f"⟩, ⟨.ret, .none⟩, ⟨.ret, .none⟩] }
    functions := #[{ name := "f", start := 2 }] }

def calling : World := (startMain "caller" (register caller {}).2).2

/-- The entry task waits for the function. -/
def called : World := (calling.step 9 (.tick ⟨1⟩)).get (by decide +kernel)

/-- The function has ended, and the entry task can go on. -/
def returned : World := (called.step 9 (.tick ⟨1⟩)).get (by decide +kernel)

theorem no_double_scheduling_returned : ∃ log, History log returned ∧ log = [⟨⟨1⟩, ⟨0⟩, false⟩, ⟨⟨1⟩, ⟨1⟩, true⟩] ∧
    ∃ p ∈ returned.processes.items, p.queue.toList = [⟨0⟩] ∧ p.queue.toList.Nodup ∧ (p.taskAt ⟨0⟩).state = .running := by
  have hcalling : History [] calling := (History.handle (.create (r := {}) rfl) (.register caller)).handle (.startMain "caller")
  have hcalled : calling.step 9 (.tick ⟨1⟩) = some called := (Option.some_get _).symm
  have hreturned : called.step 9 (.tick ⟨1⟩) = some returned := (Option.some_get _).symm
  have hlog := (hcalling.step hcalled).step hreturned
  have hfirst : calling.stops (.tick ⟨1⟩) called = [⟨⟨1⟩, ⟨0⟩, false⟩] := by decide +kernel
  have hsecond : called.stops (.tick ⟨1⟩) returned = [⟨⟨1⟩, ⟨1⟩, true⟩] := by decide +kernel
  have hqueue : (returned.processes.items[0]?.map fun p => p.queue.toList) = some [⟨0⟩] := by decide +kernel
  have hstate : (returned.processes.items[0]?.map fun p => (p.taskAt ⟨0⟩).state) = some .running := by decide +kernel
  obtain ⟨p, hp, hq⟩ := Option.map_eq_some_iff.1 hqueue
  rw [hp] at hstate
  have hmem := Array.mem_of_getElem? hp
  rw [hfirst, hsecond] at hlog
  exact ⟨_, hlog, rfl, p, hmem, hq, ((no_double_scheduling hlog).1 p hmem).1, Option.some.inj hstate⟩

end World

end Spool
