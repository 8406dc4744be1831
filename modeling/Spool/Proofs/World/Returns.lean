import Spool.Proofs.Machine.Tickets
import Spool.Proofs.World.Contexts

/-!
# Calls return

An instruction that parks its task has given it a ticket. Whatever happens in the world until the task has its next turn,
the ticket stays good: the task goes on after the instruction with what the call has come to, or unwinds with the error of
the task it has waited for.
-/

namespace Spool

namespace Machine

variable {m m₀ m₁ m₂ m' n : Machine} {top : ContextId} {position : Nat} {i : Instruction} {r : Registry} {y : TaskId}
  {d : Delivery}

theorem Runs.paces (h : m.Runs m₁) (hm : m.Sturdy r) : m.Paces m₁ := by
  induction h with
  | refl => exact .refl m
  | tail _ hstep ih =>
      have hadv := paces_advance (sturdy_paces hm ih)
      rw [hstep] at hadv
      exact ih.trans hadv

theorem Runs.stirs {g : Outlook} {t : TaskId} (h : m.Runs m₁) (hm : m.Going g (some t)) :
    Relation.ReflTransGen Stirs m m₁ ∧ m₁.Going g (some t) := by
  induction h with
  | refl => exact ⟨.refl, hm⟩
  | tail _ hstep ih =>
      have hadv := advances_advance ih.2
      have hstride := (strides_advance ih.2).1
      unfold Advances at hadv
      rw [hstep] at hadv hstride
      exact ⟨ih.1.tail (hstride rfl), hadv⟩

/-- The instruction that is due is done. -/
theorem advance_of_due (h : m.Due n top i) : advance m = perform top (m.process.contextAt top).cursor i n := by
  rw [advance_of_swept h.innermost h.clear h.swept, performNext, h.fetched]

/-- An instruction that parks its task ends the turn. -/
theorem advance_of_parked (h : m.Due n top i) (hposition : (m.process.contextAt top).cursor = position)
    (hparked : step top position i n = (.ok .suspend, m')) : advance m = (false, (setCursor top (position + 1) m').2) := by
  rw [advance_of_due h, hposition, perform_eq, hparked]
  rfl

theorem Swept.steady (h : m.Swept n) : m.Steady n := by
  rcases h with ⟨_, rfl⟩ | ⟨_, h⟩
  · exact .refl _
  · rw [eq_of_safepoint h]
    exact steady_collectGarbage m (.refl m)

/-- Who is waited for is there. -/
theorem Awaits.waitsFor (h : Awaits n m i y d)
    (hload : ∀ module, m.process.modules.get? module = some (.initializing y) → y.index < m.process.tasks.size)
    (hwait : n.process.heap.Knows fun y => y.index < n.process.tasks.size) : m.WaitsFor y d := by
  cases h with
  | call _ _ _ _ _ _ _ hcalls => exact waitsFor_of_calls hcalls
  | store _ _ _ _ _ _ _ _ hwaits => exact hwaits
  | load _ module _ _ _ _ _ _ _ hmodule hwaits => exact hwaits (hload module hmodule)
  | wait r o cell _ _ ho hcell hmemo htask _ hwaits =>
      have hpayload : o.payload.external? = some (.task y) := by
        rw [Object.payload_of_future? hcell, ← htask]
        simp [Payload.external?, hmemo]
      exact hwaits (hwait r o y ho hpayload)

/-- The ticket that an instruction leaves its task with. -/
theorem pending_setCursor (hm : n.Sturdy r) (htop : n.top? = some top) (herror : (n.process.contextAt top).error = none)
    (hd : n.Does m) (hw : m.WaitsFor y d) (position : Nat) :
    Ticket.Pending ⟨n.task, y, d, top, position, m.register⟩ (setCursor top position m).2.process := by
  have htask := task_does hd
  obtain ⟨htop', hfoot, _⟩ := top?_does hm htop hd
  have hinside : top.index < m.process.contexts.size := (hm.does hd).firm.arena.index_lt (Process.mem_of_top? htop')
  have hat := Process.contextAt_modifyContext m.process top (fun c => { c with cursor := position }) top
  rw [if_pos ⟨rfl, hinside⟩] at hat
  refine ⟨⟨?_, ?_, ?_, ?_⟩, ?_⟩
  · change (m.process.taskAt n.task).top? = some top
    rw [← htask]
    exact htop'
  · exact congrArg Context.cursor hat
  · exact (congrArg Context.error hat).trans ((Context.error_eq_of_footing hfoot).trans herror)
  · change (m.process.taskAt n.task).register = m.register
    rw [← htask]
    rfl
  · change ⟨n.task, d⟩ ∈ (m.process.taskAt y).dependents
    rw [← htask]
    exact hw.listed

/-- A fault is raised in the innermost context. -/
theorem top?_raise (hm : m.Sturdy r) (htop : m.top? = some top) (fault : Fault) :
    (raise fault m).2.top? = some top ∧
      ((raise fault m).2.process.contextAt top).error = some (errorObject fault m).1 := by
  have hd := does_errorObject fault m
  obtain ⟨htop', _⟩ := top?_does hm htop hd
  have hinside := (hm.does hd).firm.arena.index_lt (Process.mem_of_top? htop')
  rw [raise_eq, htop']
  refine ⟨htop', ?_⟩
  change (((errorObject fault m).2.process.modifyContext top _).contextAt top).error = _
  rw [Process.contextAt_modifyContext, if_pos ⟨rfl, hinside⟩]

theorem current_modifyCurrent (ht : m.task.index < m.process.tasks.size) (f : Task → Task) :
    (modifyCurrent f m).2.current = f m.current := by
  change (m.process.modifyTask m.task f).taskAt m.task = _
  rw [Process.taskAt_modifyTask, if_pos ⟨rfl, ht⟩]
  rfl

/-- The machine when its task is marked as running. -/
def marked (m : Machine) : Machine := (modifyCurrent (fun t => { t with state := .running, reason := .notWaiting }) m).2

theorem does_marked (m : Machine) : m.Does m.marked :=
  does_modifyCurrent (f := fun t => { t with state := .running, reason := .notWaiting }) (fun _ => ⟨_, _, _, _, rfl⟩) m

theorem current_marked (ht : m.task.index < m.process.tasks.size) :
    m.marked.current = { m.current with state := .running, reason := .notWaiting } :=
  current_modifyCurrent ht _

theorem top?_marked (htop : m.top? = some top) : m.marked.top? = some top ∧ m.marked.register = m.register := by
  rw [top?, register, current_marked (Process.index_lt_of_top? htop)]
  exact ⟨htop, rfl⟩

/-- The machine when the fault in store has been taken out, too. -/
def relieved (m : Machine) : Machine := { m.marked with process := { m.marked.process with fault := none } }

theorem does_relieved (m : Machine) : m.Does m.relieved :=
  (does_marked m).tail (.books _ rfl rfl rfl rfl rfl rfl fun _ h => h)

theorem resume_eq (m : Machine) : (resume m).2 = match m.process.fault with
    | some fault => (raise fault m.relieved).2
    | none => m.marked := by
  have hrun : (resume m).2 = ((match m.process.fault with
      | some fault => do
        modifyProcess fun p => { p with fault := none }
        raise fault
      | none => return : StateM Machine Unit) m.marked).2 := rfl
  rw [hrun]
  cases m.process.fault <;> rfl

/-- A fault in store is raised first. -/
theorem top?_resume (hm : m.Sturdy r) (htop : m.top? = some top) {fault : Fault} (h : m.process.fault = some fault) :
    (resume m).2.top? = some top ∧
      ((resume m).2.process.contextAt top).error = some (errorObject fault m.relieved).1 := by
  rw [resume_eq, h]
  exact top?_raise (hm.does (does_relieved m)) (top?_marked htop).1 fault

/-- A task that goes on without an error goes on where it stands. -/
theorem resume_eq_marked (hm : m.Sturdy r) (htop : m.top? = some top)
    (h : ((resume m).2.process.contextAt top).error = none) : (resume m).2 = m.marked := by
  cases hfault : m.process.fault with
  | none => rw [resume_eq, hfault]
  | some fault => cases h.symm.trans (top?_resume hm htop hfault).2

end Machine

namespace World

variable {w w' w₁ w₂ : World} {id : ProcessId} {p q : Process} {m n : Machine} {k : Ticket} {x y : TaskId} {d : Delivery}
  {top : ContextId} {position : Nat} {i : Instruction} {fuel : Nat}

/-- A process has a property. -/
def Holds (w : World) (id : ProcessId) (P : Process → Prop) : Prop := ∃ p, w.processes.get? id = some p ∧ P p

instance {P : Process → Prop} [DecidablePred P] : Decidable (w.Holds id P) :=
  decidable_of_iff ((w.processes.get? id).any fun p => P p) (by simp [Holds, Option.any_eq_true])

/-! ## Rounds -/

/-- The process when all that has come back has been settled. -/
def settled (w : World) (p : Process) : Machine :=
  (Machine.settleAll { host := w.host, process := awaken p, task := ⟨0⟩ }).2

theorem tick_settled (fuel : Nat) (w : World) (p : Process) :
    Machine.tick fuel { host := w.host, process := awaken p, task := ⟨0⟩ } = (Machine.runNext fuel (w.settled p)).map fun x =>
      { (Machine.tidy x.2).2 with process := { (Machine.tidy x.2).2.process with
        phase := Machine.phaseAfter (!(awaken p).completions.isEmpty || x.1) (Machine.tidy x.2).2.process } } := rfl

/-- The machine when the next task of the process is about to run. -/
def opening? (w : World) (id : ProcessId) : Option Machine := do
  let p ← w.processes.get? id
  if canTick p then
    let (x, queue) ← (w.settled p).process.queue.pop?
    return { w.settled p with process := { (w.settled p).process with queue }, task := x }
  else none

/-- The process makes a round, and it is the turn of a task. -/
inductive Opens (w : World) (id : ProcessId) (x : TaskId) : Machine → Prop where
  | mk {p : Process} {queue : Fifo TaskId} : w.processes.get? id = some p → canTick p →
      (w.settled p).process.queue.pop? = some (x, queue) →
      Opens w id x { w.settled p with process := { (w.settled p).process with queue }, task := x }

theorem opens_opening (h : w.opening? id = some m) : w.Opens id m.task m := by
  obtain ⟨p, hp, h⟩ := Option.bind_eq_some_iff.1 h
  split at h
  · rename_i hcan
    obtain ⟨⟨x, queue⟩, hq, h⟩ := Option.bind_eq_some_iff.1 h
    cases h
    exact .mk hp hcan hq
  · cases h

/-- In a round of the process a task comes to an instruction that parks it: `n` is the machine before the instruction and
`m` the one after it. -/
inductive Parking (w : World) (id : ProcessId) (x : TaskId) (top : ContextId) (position : Nat) (i : Instruction)
    (n m : Machine) : Prop where
  | mk {m₀ m₁ : Machine} : w.Opens id x m₀ → (Machine.resume m₀).2.Runs m₁ → m₁.Due n top i →
      (m₁.process.contextAt top).cursor = position → Machine.step top position i n = (.ok .suspend, m) →
      Parking w id x top position i n m

/-- What happens up to the world `w'`, without a turn of the task. -/
inductive Idles (id : ProcessId) (x : TaskId) (w : World) : World → Prop where
  | refl : Idles id x w w
  | handle {w' w'' : World} : Idles id x w w' → Handled w' w'' → Idles id x w w''
  | step {w' w'' : World} {fuel : Nat} {e : Event} : Idles id x w w' → w'.step fuel e = some w'' →
      (∀ s ∈ w'.stops e w'', s.process = id → s.task ≠ x) → Idles id x w w''

theorem firm_awaken {r : Registry} (hp : p.Firm r) : (awaken p).Firm r := by
  unfold awaken
  split
  · exact hp.congr rfl rfl rfl rfl
  · exact hp

theorem awaken_frame (p : Process) : (awaken p).tasks = p.tasks ∧ (awaken p).contexts = p.contexts ∧
    (awaken p).queue = p.queue ∧ (awaken p).completions = p.completions ∧ (awaken p).heap = p.heap := by
  unfold awaken
  split <;> exact ⟨rfl, rfl, rfl, rfl, rfl⟩

/-- Background calls that come back in a round are those of tasks that wait. -/
theorem Orderly.unfinished (ho : w.Orderly []) (hw : w.Inv) (hp : w.processes.get? id = some p) :
    ((World.awaken p).completions.map Completion.task).Nodup ∧
      ∀ c ∈ (World.awaken p).completions, ¬ ((World.awaken p).taskAt c.task).state.isFinished := by
  obtain ⟨hn, hwaits⟩ := ho.completions hw hp
  obtain ⟨htasks, _, _, hcompletions, _⟩ := awaken_frame p
  refine ⟨hcompletions ▸ hn, fun c hc => ?_⟩
  rw [Process.taskAt, htasks, ← Process.taskAt, state_of_waits (hwaits c (hcompletions ▸ hc))]
  simp [TaskState.isFinished]

section
variable {P : Process → Prop} (hP : Process.Lasts x P)
include hP

theorem Holds.tick (hk : w.Holds id P) (hw : w.Arises) {y : ProcessId} (h : w.tick fuel y = some w')
    (hn : ∀ s ∈ w.stops (.tick y) w', s.process = id → s.task ≠ x) : w'.Holds id P := by
  obtain ⟨log, hlog⟩ := hw.history
  obtain ⟨hinv, ho⟩ := hlog.orderly
  obtain ⟨p, hp, hk⟩ := hk
  rcases tick_cases h with ⟨rfl, _⟩ | ⟨q, m, hq, hcan, hrun, rfl⟩
  · exact ⟨p, hp, hk⟩
  · refine ⟨_, get?_settle hq m hp, ?_⟩
    split
    · rename_i hid
      subst hid
      cases hp.symm.trans hq
      obtain ⟨htasks, hcontexts, hqueue, _, hheap⟩ := awaken_frame p
      obtain ⟨hnodup, hun⟩ := ho.unfinished hinv hp
      have hr := hw.firm.machine hinv (firm_awaken (hw.firm.processes p (hinv.get? hp).1)) ⟨0⟩
      refine Machine.lasts_tick hP (hinv.awaken (hinv.get? hp).1 ⟨0⟩) hr hnodup hun
        (hP.congr hk htasks hcontexts (fun _ h => hheap ▸ h) fun h => hqueue ▸ h) (fun hnext => ?_) hrun
      refine hn ⟨id, x, (((w.settle id m).processes.fetch id).taskAt x).state.isFinished⟩ ?_ rfl rfl
      simp only [stops, hp, hcan, if_true]
      exact List.mem_append_right _ (List.mem_map_of_mem (by simp [hnext]))
    · exact hk

/-! ## Other events -/

omit hP in
theorem captures_sent (p : Process) (v : Value) {c : ContextId} (hc : (sent p v).heap.Captures c) : p.heap.Captures c := by
  cases v with
  | none => exact hc
  | scalar s => exact hc
  | object r => exact Heap.Each.captures (Heap.each_unroot r _ p.heap.each_captures) hc

omit hP in
/-- A copy is no closure of a context. -/
theorem captures_copied {source heap : Heap} {registry : Registry} {v : Value} {copied : Except Fault Value}
    {copier : Copier} (hcopy : Copier.copy source v (Copier.new source heap registry) = (copied, copier)) {c : ContextId}
    (hc : copier.target.Captures c) : heap.Captures c := by
  have heach := Copier.each_copy heap.loose_captures v _ (Copier.each_start source heap.each_captures registry)
  rw [hcopy] at heach
  exact heach.target.captures hc

/-- Another process, or another heap. -/
theorem Holds.put (hk : w.Holds id P) {y : ProcessId} (hp : w.processes.get? y = some p) (ht : q.tasks = p.tasks)
    (hc : q.contexts = p.contexts) (hh : ∀ c, q.heap.Captures c → p.heap.Captures c) (hq : q.queue = p.queue) :
    ({ w with processes := w.processes.set y q } : World).Holds id P := by
  obtain ⟨p', hp', hk⟩ := hk
  unfold Holds
  rw [Processes.get?_set hp]
  split
  · rename_i hid
    subst hid
    cases hp'.symm.trans hp
    exact ⟨q, rfl, hP.congr hk ht hc hh fun h => hq ▸ h⟩
  · exact ⟨p', hp', hk⟩

theorem Holds.deliver (hk : w.Holds id P) (hw : w.Arises) (y : ProcessId) : (w.deliver y).Holds id P := by
  obtain ⟨log, hlog⟩ := hw.history
  obtain ⟨hinv, ho⟩ := hlog.orderly
  rcases hinv.deliver_cases y with h | ⟨p, q, out, rfl, hd⟩
  · rw [deliver_eq_self h]
    exact hk
  · have hsent : (w.sending p out).Holds id P := by
      refine hk.put hP hd.sender ?_ ?_ (fun _ hc => captures_sent p _ hc) ?_
      all_goals
        unfold sent
        cases (p.taskAt out.task).register <;> rfl
    obtain ⟨_, _, hwaits, _⟩ := ho.deliver hinv hd
    have hun : ¬ (q.taskAt out.link.task).state.isFinished := by
      simp [state_of_waits hwaits, TaskState.isFinished]
    have hinv₁ := hinv.sending hd
    have hget := hd.get?_sending
    have hpledged : (w.sending p out).Awaits q.id out.link.task := by
      rw [(hinv.get? hd.receiver).2.1]
      exact hd.awaits
    rcases hcopy : Copier.copy p.heap (p.taskAt out.task).register
      (Copier.new p.heap q.heap (w.sending p out).host.registry) with ⟨copied, copier⟩
    obtain ⟨hgo, _⟩ := hinv₁.copied hget (hinv.intact p (hinv.get? hd.sender).1).fit.sound hd.valid hcopy out.link.task
    have hfirm : (w.sending p out).Firm :=
      hw.firm.put hd.sender (firm_sent (hw.firm.processes p (hinv.get? hd.sender).1) _)
    have hr := hfirm.copied hinv₁ (hinv₁.get? hget).1 hcopy out.link.task
    obtain ⟨p', hp', hk'⟩ := hsent
    rw [hd.deliver_eq, received_eq hcopy]
    unfold Holds
    dsimp only
    rw [Processes.get?_set hget]
    split
    · rename_i hid
      subst hid
      cases hp'.symm.trans hget
      obtain ⟨q₁, hends⟩ := Machine.ends_endCarrier (.refl _ _) hr hgo (.inl hpledged) copied hd.finished
      have hk₁ : P ({ q with heap := copier.target } : Process) :=
        hP.congr hk' rfl rfl (fun _ hc => captures_copied hcopy hc) fun h => h
      have hcarrier := hgo.inv.intact.schedule.carriers out.link.task (.inl hpledged)
      have hne := hP.elsewhere hk₁ hcarrier.unscheduled hun
      exact ⟨_, rfl, hP.congr (hP.ends hk₁ hne hun hends) rfl rfl (fun _ h => h) fun h => h⟩
    · exact ⟨p', hp', hk'⟩

theorem Holds.complete (hk : w.Holds id P) (hw : w.Inv) (alarm : Alarm) : (w.complete alarm).Holds id P := by
  unfold World.complete
  split
  · rename_i call hrunning
    have hcall : call ∈ w.host.pool.jobs := (Pool.jobs_finish hrunning).mem_iff.1 List.mem_cons_self
    let w₁ : World := { w with clock := max w.clock alarm.due, alarms := w.alarms.erase alarm }
    have hk₁ : w₁.Holds id P := hk
    obtain ⟨p, hp⟩ := (hw.calls call hcall).get?
    rcases hrun : Errand.run w₁ call { heap := p.heap, held := call.held } with ⟨result, e⟩
    have hcaptures := Errand.each_run p.heap.loose_captures w₁ call { heap := p.heap, held := call.held }
      p.heap.each_captures
    rw [hrun] at hcaptures
    dsimp only
    rw [performCall_eq (w := w₁) hp hrun]
    exact hk₁.put hP hp rfl rfl (fun _ hc => Heap.Each.captures hcaptures hc) rfl
  · exact hk

omit hP in
theorem Holds.engage (hk : w.Holds id P) (worker : WorkerId) : (w.engage worker).Holds id P := by
  unfold World.engage
  split
  · exact hk
  · dsimp only
    split
    · exact hk
    · exact hk

theorem Holds.step (hk : w.Holds id P) (hw : w.Arises) {e : Event} (h : w.step fuel e = some w')
    (hn : ∀ s ∈ w.stops e w', s.process = id → s.task ≠ x) : w'.Holds id P := by
  cases e with
  | tick y => exact hk.tick hP hw h hn
  | deliver y =>
      cases h
      exact hk.deliver hP hw y
  | engage worker =>
      cases h
      exact hk.engage worker
  | complete alarm =>
      cases h
      exact hk.complete hP hw.inv alarm

omit hP in
theorem holds_onRegistry {α : Type} (act : Registry.Entry α) : Preserves (Holds · id P) (onRegistry act) := fun _ h => h

omit hP in
theorem holds_startMain (name : String) : Preserves (Holds · id P) (startMain name) := by
  unfold startMain
  refine preserves_get fun w _ => preserves_bind (holds_onRegistry _) fun module w hk => ?_
  obtain ⟨p, hp, hk⟩ := hk
  refine ⟨p, ?_, hk⟩
  obtain ⟨hn, hslot⟩ := Processes.get?_eq_some.1 hp
  refine Processes.get?_eq_some.2 ⟨hn, ?_⟩
  change (w.processes.items.push _)[id.slot]? = some p
  rw [Array.getElem?_push, if_neg (Nat.ne_of_lt (Array.getElem?_eq_some_iff.1 hslot).1)]
  exact hslot

theorem Holds.handled (hk : w.Holds id P) (h : Handled w w') : w'.Holds id P := by
  cases h with
  | addHostModule => exact hk
  | register m => exact holds_onRegistry _ w hk
  | loadFile path =>
      have hload : Preserves (Holds · id P) (World.loadFile path) := preserves_get fun _ _ => holds_onRegistry _
      exact hload w hk
  | startMain name => exact holds_startMain name w hk
  | collect y =>
      cases hp : w.processes.get? y with
      | none =>
          have hset : ∀ q, w.processes.set y q = w.processes := fun q => Processes.set_of_get?_eq_none hp q
          simp only [World.collect, hset]
          exact hk
      | some p =>
          have hfetch : w.processes.fetch y = p := Processes.fetch_of_get? hp
          simp only [World.collect, hfetch]
          exact hk.put hP hp rfl rfl (fun _ => (p.heap.each_captures.collect _ _).captures) rfl

/-- What lasts as long as a task does not run is still there before its next turn. -/
theorem Idles.holds (h : Idles id x w w') (hw : w.Arises) (hk : w.Holds id P) : w'.Arises ∧ w'.Holds id P := by
  induction h with
  | refl => exact ⟨hw, hk⟩
  | handle _ hh ih => exact ⟨hh.arises ih.1, ih.2.handled hP hh⟩
  | step _ hs hn ih => exact ⟨ih.1.step hs, ih.2.step hP ih.1 hs hn⟩

end

/-! ## Parking -/

section
variable {m₀ m₁ : Machine}

theorem Round.runs (hm : Round w p .running m) (h : m.Runs m₁) : Round w p .running m₁ := by
  induction h with
  | refl => exact hm
  | tail _ hstep ih =>
      have hadv := ih.advance
      rw [hstep] at hadv
      exact hadv

theorem Round.swept (hm : Round w p .running m) (h : m.Swept n) : Round w p .running n := by
  rcases h with ⟨_, rfl⟩ | ⟨_, h⟩
  · exact hm
  · rw [Machine.eq_of_safepoint h]
    exact hm.collect (by simp)

theorem Opens.going (h : w.Opens id x m) (hw : w.Inv) : ∃ g, m.Going g (some x) := by
  obtain ⟨hp, _, hq⟩ := h
  exact ⟨_, (Machine.inv_settleAll (hw.awaken (hw.get? hp).1 ⟨0⟩)).begin hq⟩

/-- All tasks are in their places when a task has its turn. -/
theorem Opens.tidy (h : w.Opens id x m₀) (hw : w.Inv) (ho : w.Orderly []) : ∃ p rest, w.processes.get? id = some p ∧
    m₀.Tidy rest (some m₀.task) ∧ p.roster.Abides m₀.process.roster := by
  obtain ⟨hp, _, hq⟩ := h
  obtain ⟨htidy, hp₁, _⟩ := Machine.tidy_settleAll (hw.awaken (hw.get? hp).1 ⟨0⟩) (ho.awaken hw hp ⟨0⟩)
  obtain ⟨htaken, hp₂, _⟩ := htidy.dequeue hq
  have hupholds := (hp₁.trans hp₂).upholds
  rw [view_awaken] at hupholds
  exact ⟨_, _, hp, htaken, hupholds.toAbides⟩

/-- No future refers to a task that is not there. -/
theorem Orderly.knows (ho : w.Orderly []) (hw : w.Inv) (hopen : w.Opens id x m₀) (hruns : (Machine.resume m₀).2.Runs m₁)
    (hswept : m₁.Swept n) : n.process.heap.Knows fun y => y.index < n.process.tasks.size := by
  obtain ⟨_, _, _, htaken, _⟩ := hopen.tidy hw ho
  obtain ⟨_, hgo⟩ := hopen.going hw
  obtain ⟨hresumed, _⟩ := Machine.tidy_wake (Machine.becomes_resume hgo) htaken hgo.unfinished
  obtain ⟨hrun, _⟩ := Machine.tidy_stirs (hruns.stirs (Machine.kept_resume hgo).1).1 hresumed
  have hknows := (hswept.steady.tidy hrun).1.futures
  simpa [Machine.view] using hknows

theorem Opens.round (h : w.Opens id x m₀) :
    m₀.task = x ∧ ∃ p, w.processes.get? id = some p ∧ canTick p ∧ Round w p .running (Machine.resume m₀).2 := by
  obtain ⟨hp, hcan, hq⟩ := h
  exact ⟨rfl, _, hp, hcan, (Round.settle hcan).begin hq⟩

theorem Opens.sturdy (h : w.Opens id x m₀) (hw : w.Arises) : m₀.Sturdy w.host.registry := by
  cases h with
  | @mk p queue hp hcan hq =>
      have hbetween : (w.settled p).Sturdy w.host.registry :=
        (Round.settle hcan).sturdy hw.firm hw.inv (hw.inv.get? hp).1
      have hfirm : ({ (w.settled p).process with queue } : Process).Firm (w.settled p).host.registry :=
        hbetween.firm.congr rfl rfl rfl rfl
      exact (hbetween.process hfirm).turn x

theorem Opens.task_due (hopen : w.Opens id x m₀) (hw : w.Arises) (hruns : (Machine.resume m₀).2.Runs m₁)
    (hdue : m₁.Due n top i) : n.task = x := by
  have hsturdy := hopen.sturdy hw
  have hresume := Machine.paces_resume hsturdy
  have hrun := hruns.paces (Machine.sturdy_paces hsturdy hresume)
  rw [Machine.task_does (Machine.does_of_swept hdue.swept), Machine.task_paces hrun, Machine.task_paces hresume,
    hopen.round.1]

/-- A round ends with the task that has had its turn in it. -/
theorem Opens.exists_run (hopen : w.Opens id x m₀) (hstep : w.step fuel (.tick id) = some w') :
    ∃ m, Machine.run fuel m₀ = some m ∧ w' = w.settle id { (Machine.tidy (Machine.conclude m).2).2 with
      process := { (Machine.tidy (Machine.conclude m).2).2.process with phase := .active } } := by
  cases hopen with | @mk p queue hp hcan hq => ?_
  rcases tick_cases hstep with ⟨_, hno⟩ | ⟨p', m', hp', _, htick, rfl⟩
  · rw [hno _ hp] at hcan
    cases hcan
  obtain rfl : p = p' := Option.some.inj (hp.symm.trans hp')
  rw [tick_settled, Option.map_eq_some_iff] at htick
  obtain ⟨⟨ran, m₂⟩, hrun, rfl⟩ := htick
  simp only [Machine.runNext, hq, Machine.runTask, Option.map_map, Option.map_eq_some_iff, Function.comp,
    Prod.mk.injEq] at hrun
  obtain ⟨m₃, hrun, rfl, rfl⟩ := hrun
  refine ⟨m₃, hrun, ?_⟩
  rw [Machine.phaseAfter, if_pos (Bool.or_true _)]
  rfl

theorem Opens.settles (hopen : w.Opens id x m₀) (hw : w.Arises) (hruns : (Machine.resume m₀).2.Runs m₁)
    (hstop : Machine.advance m₁ = (false, m)) (hstep : w.step fuel (.tick id) = some w') :
    w' = w.settle id { (Machine.tidy (Machine.conclude m).2).2 with
      process := { (Machine.tidy (Machine.conclude m).2).2.process with phase := .active } } := by
  obtain ⟨m₃, hrun, rfl⟩ := hopen.exists_run hstep
  obtain ⟨_, hgo⟩ := hopen.going hw.inv
  obtain rfl := Machine.runFrom_of_runs hruns hstop ((hgo.run_eq fuel).symm.trans hrun)
  rfl

/-- A round in which a task is parked ends with the parked task. -/
theorem get?_parked (hw : w.Arises) (hopen : w.Opens id x m₀) (hruns : (Machine.resume m₀).2.Runs m₁)
    (hstop : Machine.advance m₁ = (false, m)) (hun : ¬ m.current.state.isFinished)
    (hstep : w.step fuel (.tick id) = some w') :
    ∃ phase, w'.processes.get? id = some { (Machine.tidy m).2.process with phase } := by
  have hp := hopen.round.2.choose_spec.1
  have hget := get?_settle hp { (Machine.tidy m).2 with process := { (Machine.tidy m).2.process with phase := .active } } hp
  rw [if_pos rfl] at hget
  rw [hopen.settles hw hruns hstop hstep, Machine.conclude_of_unfinished hun]
  exact ⟨_, hget⟩

theorem holds_parked {P : Process → Prop} (hP : Process.Lasts x P) (hw : w.Arises) (hopen : w.Opens id x m₀)
    (hruns : (Machine.resume m₀).2.Runs m₁) (hstop : Machine.advance m₁ = (false, m)) (hun : ¬ m.current.state.isFinished)
    (hk : P m.process) (hstep : w.step fuel (.tick id) = some w') : w'.Holds id P := by
  obtain ⟨phase, hp'⟩ := get?_parked hw hopen hruns hstop hun hstep
  exact ⟨_, hp', hP.congr (Machine.lasts_tidy hP hk) rfl rfl (fun _ h => h) fun h => h⟩

/-- Whoever is parked by an instruction has a ticket. -/
theorem Parking.pending (h : w.Parking id x top position i n m) (hw : w.Arises) :
    ∃ y d, Machine.Awaits n m i y d ∧ ¬ (Machine.setCursor top (position + 1) m).2.current.state.isFinished ∧
      Ticket.Pending ⟨x, y, d, top, position + 1, m.register⟩ (Machine.setCursor top (position + 1) m).2.process := by
  obtain ⟨hopen, hruns, hdue, hposition, hparked⟩ := h
  rename_i m₀ m₁
  obtain ⟨log, hlog⟩ := hw.history
  obtain ⟨htask, p, hp, _, hround⟩ := hopen.round
  have hmem := (hw.inv.get? hp).1
  have hround₁ := hround.runs hruns
  have hroundn := hround₁.swept hdue.swept
  have hsturdy₁ := hround₁.sturdy hw.firm hw.inv hmem
  have hsturdy := hroundn.sturdy hw.firm hw.inv hmem
  have hgood : n.Going (w.outlook p) (some n.task) := hroundn.good hw.inv hmem
  -- the instruction does its deeds, and the task rests
  have hstepped := Machine.wp_step_due hsturdy₁ hdue
  rw [hposition] at hstepped
  obtain ⟨_, hdoes, _, hawaits⟩ := hstepped.ok hparked
  obtain ⟨y, d, hawaits⟩ := hawaits rfl
  have hrest : m.Resting (w.outlook p) n.task := (Machine.steps_step hgood hdue.top? position i).ok hparked
  have hwaits : m.WaitsFor y d := by
    refine hawaits.waitsFor (fun module hmodule => ?_) (hlog.orderly.2.knows hw.inv hopen hruns hdue.swept)
    obtain ⟨_, ht, _⟩ := hrest.inv.intact.schedule.initializing module y hmodule
    exact Process.index_lt_of_getElem? ht
  have hxn : n.task = x := hopen.task_due hw hruns hdue
  have hpending := Machine.pending_setCursor hsturdy hdue.top? hdue.clear_swept (hdoes (by simp)) hwaits (position + 1)
  rw [hxn] at hpending
  refine ⟨y, d, hawaits, ?_, hpending⟩
  change ¬ m.current.state.isFinished
  rw [hwaits.waiting]
  simp [TaskState.isFinished]

/-- The turn of a parked task ends with the instruction. -/
theorem Parking.stops (h : w.Parking id x top position i n m) : ∃ m₀ m₁, w.Opens id x m₀ ∧ (Machine.resume m₀).2.Runs m₁ ∧
    Machine.advance m₁ = (false, (Machine.setCursor top (position + 1) m).2) := by
  obtain ⟨hopen, hruns, hdue, hposition, hparked⟩ := h
  exact ⟨_, _, hopen, hruns, Machine.advance_of_parked hdue hposition hparked⟩

/-- The ticket is still good when the round has come to its end. -/
theorem Parking.honours (h : w.Parking id x top position i n m) (hw : w.Arises)
    (hstep : w.step fuel (.tick id) = some w') :
    ∃ y d, Machine.Awaits n m i y d ∧ w'.Holds id (Ticket.Honoured ⟨x, y, d, top, position + 1, m.register⟩) := by
  obtain ⟨y, d, hawaits, hun, hpending⟩ := h.pending hw
  obtain ⟨m₀, m₁, hopen, hruns, hstop⟩ := h.stops
  exact ⟨y, d, hawaits, holds_parked (Process.lasts_honoured _) hw hopen hruns hstop hun (.inl hpending) hstep⟩

end

/-! ## The next turn -/

/-- What lasts as long as a task does not run is still there when all that has come back has been settled. -/
theorem Holds.settled {P : Process → Prop} (hk : w.Holds id P) (hP : Process.Lasts x P) (hw : w.Arises)
    (hp : w.processes.get? id = some p) : P (w.settled p).process := by
  obtain ⟨p', hp', hk⟩ := hk
  cases hp'.symm.trans hp
  obtain ⟨log, hlog⟩ := hw.history
  have hmem := (hw.inv.get? hp).1
  obtain ⟨htasks, hcontexts, hqueue, _, hheap⟩ := awaken_frame p
  obtain ⟨hnodup, hun⟩ := hlog.orderly.2.unfinished hw.inv hp
  have hr := hw.firm.machine hw.inv (firm_awaken (hw.firm.processes p hmem)) ⟨0⟩
  exact Machine.lasts_settleAll hP (hw.inv.awaken hmem ⟨0⟩) hr hnodup hun
    (hP.congr hk htasks hcontexts (fun _ h => hheap ▸ h) fun h => hqueue ▸ h)

/-- The holder of a ticket has its turn when the ticket has been redeemed, and not before. -/
theorem Holds.opens (hk : w.Holds id k.Honoured) (hw : w.Arises) (h : w.Opens id k.holder m) :
    ((m.process.taskAt k.awaited).state = .complete ∧
      k.Poised m.process none (k.value (m.process.taskAt k.awaited).register)) ∨
    ∃ e, (m.process.taskAt k.awaited).state = .error ∧ (m.process.taskAt k.awaited).register = .object e ∧
      k.Poised m.process (some e) k.register := by
  obtain ⟨hp, hcan, hq⟩ := h
  rename_i p queue
  have hs := (Machine.inv_settleAll (hw.inv.awaken (hw.inv.get? hp).1 ⟨0⟩)).intact.schedule
  have hqueued : k.holder ∈ (w.settled p).process.queue.toList := by
    rw [Fifo.toList_of_pop? hq]
    exact List.mem_cons_self
  rcases hk.settled (Process.lasts_honoured k) hw hp with hpending | hredeemed
  · exact absurd (List.mem_map_of_mem hpending.listed) (hs.not_listed_of_queued hqueued)
  · cases hredeemed with
    | paid hstate _ hpoised => exact .inl ⟨hstate, ⟨hpoised.top, hpoised.position, hpoised.error, hpoised.register⟩⟩
    | refused e hstate hv _ hpoised =>
        exact .inr ⟨e, hstate, hv, ⟨hpoised.top, hpoised.position, hpoised.error, hpoised.register⟩⟩
    | lost _ _ hfin =>
        have hscheduled : k.holder ∈ (w.settled p).process.scheduled := List.mem_append_left _ hqueued
        exact absurd hfin (hs.ready k.holder hscheduled).taskAt.1

/-- A holder that goes on without an error has been told that the awaited task is complete. -/
theorem Holds.complete_of_clear (hk : w.Holds id k.Honoured) (hw : w.Arises) (h : w.Opens id k.holder m)
    (hclear : ((Machine.resume m).2.process.contextAt k.top).error = none) :
    (m.process.taskAt k.awaited).state = .complete ∧ (Machine.resume m).2 = m.marked ∧
      k.Poised m.process none (k.value (m.process.taskAt k.awaited).register) := by
  have htop : ∀ {error register}, k.Poised m.process error register → m.top? = some k.top := fun hpoised => by
    rw [Machine.top?, Machine.current, h.round.1]
    exact hpoised.top
  rcases hk.opens hw h with ⟨hcomplete, hpoised⟩ | ⟨e, _, _, hpoised⟩
  · exact ⟨hcomplete, Machine.resume_eq_marked (h.sturdy hw) (htop hpoised) hclear, hpoised⟩
  · rw [Machine.resume_eq_marked (h.sturdy hw) (htop hpoised) hclear] at hclear
    cases hclear.symm.trans hpoised.error

/-- An error object that the awaited task has failed with is with the holder. -/
theorem Holds.refused (hk : w.Holds id k.Honoured) (hw : w.Inv) (hp : w.processes.get? id = some p) {e : Handle}
    (hstate : (p.taskAt k.awaited).state = .error) (hv : (p.taskAt k.awaited).register = .object e) :
    k.holder ∈ p.queue.toList ∧ k.Poised p (some e) k.register := by
  obtain ⟨p', hp', hk⟩ := hk
  cases hp.symm.trans hp'
  have hhollow : ¬ (p.taskAt k.awaited).Hollow := by
    rw [Task.Hollow, hv]
    simp [Value.handle?]
  rcases hk with hpending | hredeemed
  · -- nobody waits for a task that has failed with an object
    have hget := Process.getElem?_of_index_lt (Process.index_lt_of_dependents hpending.listed)
    have hfin : (p.taskAt k.awaited).state.isFinished := hstate ▸ rfl
    rcases (hw.intact p (hw.get? hp).1).schedule.settled _ _ hget hfin (List.ne_nil_of_mem hpending.listed) with h | h
    · cases h
    · exact absurd h hhollow
  · cases hredeemed with
    | paid hcomplete => cases hcomplete.symm.trans hstate
    | refused e' _ hv' hq hpoised =>
        cases hv.symm.trans hv'
        exact ⟨hq, hpoised⟩
    | lost _ h => exact absurd h hhollow

/-- An instruction that parks its task has made it wait for a task `y`, which says what the instruction comes to. Whatever
happens until the parked task has its next turn: if `y` has failed with an error object, the task is in the queue, with the
object in the error slot of its innermost context and its register as the instruction has left it. If the task goes on
without an error, `y` is complete, and the task is at the next instruction, with the result of `y` or with what the
instruction has left in the register. -/
theorem calls_return (hw : w.Arises) (hpark : w.Parking id x top position i n m)
    (hstep : w.step fuel (.tick id) = some w₁) :
    ∃ y d, Machine.Awaits n m i y d ∧ ∀ w₂, Idles id x w₁ w₂ →
      (∀ p e, w₂.processes.get? id = some p → (p.taskAt y).state = .error → (p.taskAt y).register = .object e →
        x ∈ p.queue.toList ∧ (p.taskAt x).top? = some top ∧ (p.contextAt top).error = some e ∧
          (p.taskAt x).register = m.register) ∧
      ∀ m₂, w₂.Opens id x m₂ →
        m₂.top? = some top ∧
        (∀ e, (m₂.process.taskAt y).state = .error → (m₂.process.taskAt y).register = .object e →
          (m₂.process.contextAt top).error = some e ∧ m₂.register = m.register) ∧
        (((Machine.resume m₂).2.process.contextAt top).error = none →
          (m₂.process.taskAt y).state = .complete ∧ (Machine.resume m₂).2.top? = some top ∧
          ((Machine.resume m₂).2.process.contextAt top).cursor = position + 1 ∧
          (Machine.resume m₂).2.register = match d with
            | .result => (m₂.process.taskAt y).register
            | .keep => m.register) := by
  obtain ⟨y, d, hawaits, hk⟩ := hpark.honours hw hstep
  refine ⟨y, d, hawaits, fun w₂ hidle => ?_⟩
  obtain ⟨hw₂, hk₂⟩ := hidle.holds (Process.lasts_honoured ⟨x, y, d, top, position + 1, m.register⟩) (hw.step hstep) hk
  refine ⟨fun p e hp hstate hv => ?_, fun m₂ hopen => ?_⟩
  · obtain ⟨hq, hpoised⟩ := hk₂.refused hw₂.inv hp hstate hv
    exact ⟨hq, hpoised.top, hpoised.error, hpoised.register⟩
  · have htask : m₂.task = x := hopen.round.1
    have hopened := hk₂.opens hw₂ hopen
    have htop : m₂.top? = some top := by
      rw [Machine.top?, Machine.current, htask]
      rcases hopened with ⟨_, hpoised⟩ | ⟨_, _, _, hpoised⟩
      · exact hpoised.top
      · exact hpoised.top
    refine ⟨htop, fun e hstate hv => ?_, fun hnone => ?_⟩
    · rcases hopened with ⟨hcomplete, _⟩ | ⟨e', _, hv', hpoised⟩
      · cases hcomplete.symm.trans hstate
      · cases hv.symm.trans hv'
        refine ⟨hpoised.error, ?_⟩
        rw [Machine.register, Machine.current, htask]
        exact hpoised.register
    · obtain ⟨hcomplete, hresume, hpoised⟩ := hk₂.complete_of_clear hw₂ hopen hnone
      rw [hresume]
      obtain ⟨htop', hregister⟩ := Machine.top?_marked htop
      refine ⟨hcomplete, htop', hpoised.position, hregister.trans ?_⟩
      rw [Machine.register, Machine.current, htask]
      exact hpoised.register

/-- The next instruction of the task has this name for an operand, and there is nothing else to do before it. -/
def Fetches (m : Machine) (top : ContextId) (position : Nat) (op : Op) (name : String) : Bool :=
  m.top? = some top && (m.process.contextAt top).error.isNone && !m.process.heap.shouldCollect &&
    (m.process.contextAt top).cursor = position &&
    match (m.host.registry.moduleAt (m.process.contextAt top).module).tape.instructions[position]? with
    | some (Instruction.mk op' (.name s)) => op' = op && s = name
    | _ => false

theorem due_of_fetches {op : Op} {name : String} (h : Fetches m top position op name) :
    m.Due m top ⟨op, .name name⟩ ∧ (m.process.contextAt top).cursor = position := by
  simp only [Fetches, Bool.and_eq_true, decide_eq_true_eq, Option.isNone_iff_eq_none, Bool.not_eq_true'] at h
  obtain ⟨⟨⟨⟨htop, hclear⟩, hroom⟩, hposition⟩, hfetched⟩ := h
  split at hfetched
  · rename_i op' s hi
    simp only [Bool.and_eq_true, decide_eq_true_eq] at hfetched
    obtain ⟨rfl, rfl⟩ := hfetched
    exact ⟨⟨htop, hclear, .inl ⟨hroom, rfl⟩, hposition ▸ hi⟩, hposition⟩
  · cases hfetched

/-- The instruction has parked the task. -/
def Parks (result : Except Fault Machine.Flow) : Bool :=
  match result with
  | .ok .suspend => true
  | _ => false

theorem parking_of_fetches {m₀ m₁ : Machine} {op : Op} {name : String} (hopen : w.Opens id x m₀)
    (hruns : (Machine.resume m₀).2.Runs m₁) (h : Fetches m₁ top position op name)
    (hparks : Parks (Machine.step top position ⟨op, .name name⟩ m₁).1) :
    w.Parking id x top position ⟨op, .name name⟩ m₁ (Machine.step top position ⟨op, .name name⟩ m₁).2 := by
  obtain ⟨hdue, hposition⟩ := due_of_fetches h
  unfold Parks at hparks
  split at hparks
  · rename_i hflow
    exact .mk hopen hruns hdue hposition (Prod.ext hflow rfl)
  · cases hparks

/-- The entry task comes to its first turn. -/
def entering : Machine := (calling.opening? ⟨1⟩).get (by decide +kernel)

/-- The entry task comes to its second turn. -/
def reentering : Machine := (returned.opening? ⟨1⟩).get (by decide +kernel)

theorem arises_calling : calling.Arises := .startMain "caller" (.register caller (.create (r := {}) rfl))

theorem opens_entering : calling.Opens ⟨1⟩ ⟨0⟩ entering := by
  have htask : entering.task = ⟨0⟩ := by decide +kernel
  exact htask ▸ opens_opening (Option.some_get _).symm

theorem opens_reentering : returned.Opens ⟨1⟩ ⟨0⟩ reentering := by
  have htask : reentering.task = ⟨0⟩ := by decide +kernel
  exact htask ▸ opens_opening (Option.some_get _).symm

/-- The entry task waits while the function has its turn. -/
theorem idles_returned : Idles ⟨1⟩ ⟨0⟩ called returned := by
  have hstops : called.stops (.tick ⟨1⟩) returned = [⟨⟨1⟩, ⟨1⟩, true⟩] := by decide +kernel
  have hreturned : called.step 9 (.tick ⟨1⟩) = some returned := (Option.some_get _).symm
  refine .step .refl hreturned ?_
  rw [hstops]
  simp

theorem parking_calling : calling.Parking ⟨1⟩ ⟨0⟩ ⟨0⟩ 0 ⟨.callBare, .name "f"⟩ (Machine.resume entering).2
    (Machine.step ⟨0⟩ 0 ⟨.callBare, .name "f"⟩ (Machine.resume entering).2).2 :=
  parking_of_fetches opens_entering .refl (by decide +kernel) (by decide +kernel)

theorem calls_return_returned : calling.Arises ∧ Idles ⟨1⟩ ⟨0⟩ called returned ∧ returned.Opens ⟨1⟩ ⟨0⟩ reentering ∧
    ∃ n m y d, calling.Parking ⟨1⟩ ⟨0⟩ ⟨0⟩ 0 ⟨.callBare, .name "f"⟩ n m ∧
      Machine.Awaits n m ⟨.callBare, .name "f"⟩ y d ∧ (reentering.process.taskAt y).state = .complete ∧
      ((Machine.resume reentering).2.process.contextAt ⟨0⟩).cursor = 1 := by
  have hcalled : calling.step 9 (.tick ⟨1⟩) = some called := (Option.some_get _).symm
  obtain ⟨y, d, hawaits, hreturn⟩ := calls_return arises_calling parking_calling hcalled
  obtain ⟨_, _, hgo⟩ := (hreturn returned idles_returned).2 reentering opens_reentering
  obtain ⟨hcomplete, _, hcursor, _⟩ := hgo (by decide +kernel)
  exact ⟨arises_calling, idles_returned, opens_reentering, _, _, y, d, parking_calling, hawaits, hcomplete, hcursor⟩

end World

end Spool
