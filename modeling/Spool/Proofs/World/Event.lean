import Spool.Proofs.Machine.Tick
import Spool.Proofs.World.Background
import Spool.Proofs.World.Intact

/-!
# Events keep a world intact

Each event runs one process after the other by itself: a round of a scheduler one, the end of a background call one,
the delivery of a result first the sender and then the receiver.
-/

namespace Spool

namespace World

variable {w w' : World} {id : ProcessId} {p q : Process} {m : Machine}

theorem settle_eq (hn : m.host.nursery = []) :
    w.settle id m = { w with host := m.host, processes := w.processes.set id m.process } := by
  unfold World.settle settleNursery
  obtain ⟨⟨registry, library, heapSettings, pool, out, err, born, nursery⟩, process, task⟩ := m
  dsimp only at hn
  subst hn
  rfl

/-- A process comes back, and has made no other. -/
theorem Inv.putBack (hw : w.Inv) (hp : w.processes.get? id = some p) (hm : m.Inv (w.outlook p) none [])
    (hn : m.host.nursery = []) : ({ w with host := m.host, processes := w.processes.set id m.process } : World).Inv := by
  rw [← settle_eq hn]
  exact hw.settle hp hm

/-! ## Rounds of a scheduler -/

theorem Inv.awaken (hw : w.Inv) (hp : p ∈ w.processes.items) (t : TaskId) :
    ({ host := w.host, process := awaken p, task := t } : Machine).Inv (w.outlook p) none [] := by
  have hm := hw.machine hp t
  unfold World.awaken
  split
  · have hp' : ({ p with poked := false } : Process).Intact none
        (Machine.ledger (w.outlook p) [] { host := w.host, process := p, task := t }) :=
      hm.intact.congr rfl rfl rfl rfl rfl rfl rfl rfl rfl rfl
    exact hm.update hp' rfl rfl
  · exact hm

theorem Inv.tick (hw : w.Inv) {fuel : Nat} (h : w.tick fuel id = some w') : w'.Inv := by
  unfold World.tick at h
  split at h
  · cases h
    exact hw
  · rename_i p hp
    split at h
    · rw [Option.map_eq_some_iff] at h
      obtain ⟨m, hrun, rfl⟩ := h
      exact hw.settle hp (Machine.inv_tick (hw.awaken (hw.get? hp).1 ⟨0⟩) hrun)
    · cases h
      exact hw

/-! ## The background pool -/

theorem Inv.modifyPool (hw : w.Inv) {f : Pool BackgroundCall → Pool BackgroundCall}
    (hf : (f w.host.pool).jobs.Perm w.host.pool.jobs) (hs : (f w.host.pool).Staffed) : (w.modifyPool f).Inv := by
  refine ⟨hw.calm, hw.settled, hw.born, hw.ids, fun call hc => hw.calls call (hf.mem_iff.1 hc), fun p hp => ?_, hs⟩
  have hi := hw.intact p hp
  refine ⟨hi.fit, hi.anchored.perm (hf.filter _), hi.schedule.mono fun x hx => ?_, hi.linked⟩
  rcases hx with hx | ⟨call, hc, hcid, hcar⟩ | hx
  · exact .inl hx
  · exact .inr (.inl ⟨call, hf.mem_iff.1 hc, hcid, hcar⟩)
  · exact .inr (.inr hx)

/-- Clock and alarms do not matter. -/
theorem Inv.retime (hw : w.Inv) (clock : Nat) (alarms : List Alarm) : ({ w with clock, alarms } : World).Inv :=
  ⟨hw.calm, hw.settled, hw.born, hw.ids, hw.calls, hw.intact, hw.staffed⟩

theorem Inv.engage (hw : w.Inv) (worker : WorkerId) : (w.engage worker).Inv := by
  unfold World.engage
  split
  · exact hw
  · have h₁ : (w.modifyPool fun p => p.engage worker).Inv :=
      hw.modifyPool (w.host.pool.jobs_engage worker) (hw.staffed.engage worker)
    dsimp only
    split
    · exact h₁.retime _ _
    · exact h₁

/-- A background call comes back: its roots go from the pool to the process. -/
theorem inv_completed {g : Outlook} (hm : m.Inv g none []) {pool : Pool BackgroundCall}
    {call : BackgroundCall} (hjobs : (call :: pool.jobs).Perm m.host.pool.jobs) (hst : pool.Staffed)
    (hid : call.process = g.id) {e : Errand}
    (he : Errand.Since m.process.heap call.held e) {result : Except Fault Value}
    (hresult : ∀ r, result = .ok (.object r) → r ∈ e.held) :
    ({ m with
      host := { m.host with pool }
      process := { m.process with
        heap := e.heap
        completions := m.process.completions ++ [{ task := call.carrier, result, held := e.held }] } } : Machine).Inv
      g none [] := by
  have hp := hm.intact
  have hown : (call :: pool.jobs.filter fun c => c.process = g.id).Perm
      (m.host.pool.jobs.filter fun c => c.process = g.id) := by
    have := hjobs.filter fun c => c.process = g.id
    rwa [List.filter_cons_of_pos (by simpa using hid)] at this
  have hothers : (pool.jobs.filter fun c => c.process ≠ g.id).Perm (m.host.pool.jobs.filter fun c => c.process ≠ g.id) := by
    have := hjobs.filter fun c => c.process ≠ g.id
    rwa [List.filter_cons_of_neg (by simpa using hid)] at this
  have hsch : ({ m.process with
      heap := e.heap
      completions := m.process.completions ++ [{ task := call.carrier, result, held := e.held }] } : Process).Schedule
      none _ _ := hp.schedule.congr rfl rfl rfl rfl
  refine ⟨⟨(hp.fit.extend he.extend fun _ h => h.elim).congr rfl rfl rfl rfl rfl, hp.anchored.complete hown he _ hresult,
    hsch.mono fun x hx => ?_, hp.linked⟩, hm.id, hm.serves.calm, hothers.trans hm.serves.others, hm.serves.born,
    hm.serves.numbers, hm.serves.newborn, hst⟩
  · have hcall : call ∈ m.host.pool.jobs := hjobs.mem_iff.1 List.mem_cons_self
    rcases hx with hx | ⟨c, hc, hcid, hcar⟩ | ⟨c, hc, hcar⟩ | hx
    · exact .inl hx
    · exact .inr (.inl ⟨c, hjobs.mem_iff.1 (List.mem_cons_of_mem call hc), hcid, hcar⟩)
    · rcases List.mem_append.1 hc with hc | hc
      · exact .inr (.inr (.inl ⟨c, hc, hcar⟩))
      · cases List.mem_singleton.1 hc
        exact .inr (.inl ⟨call, hcall, hid, hcar⟩)
    · exact .inr (.inr (.inr hx))

theorem Inv.sound (hw : w.Inv) (hp : w.processes.get? id = some p) : p.heap.Sound :=
  (hw.intact p (hw.get? hp).1).fit.sound

theorem performCall_eq {call : BackgroundCall} (hp : w.processes.get? call.process = some p) {result : Except Fault Value}
    {e : Errand} (hrun : Errand.run w call { heap := p.heap, held := call.held } = (result, e)) :
    w.performCall call = { w with
      processes := w.processes.set call.process { p with
        heap := e.heap
        completions := p.completions ++ [{ task := call.carrier, result, held := e.held }] } } := by
  have hfetch : w.processes.fetch call.process = p := Processes.fetch_of_get? hp
  have hrun' : (Errand.run w call).run { heap := p.heap, held := call.held } = (result, e) := hrun
  simp only [performCall, hfetch, hrun', Processes.modify_eq_set hp]

theorem Inv.goes_run (hw : w.Inv) {call : BackgroundCall} (hcall : call ∈ w.host.pool.jobs)
    (hp : w.processes.get? call.process = some p) :
    Errand.Goes p.heap call.held (call.body = .remoteGet ∧ call.receiver.handle? = none) (Errand.run w call)
      { heap := p.heap, held := call.held } fun v e' => ∀ r, v = .object r → r ∈ e'.held := by
  obtain ⟨hmem, hid, _⟩ := hw.get? hp
  have hanchored := (hw.intact p hmem).anchored
  have hown : call ∈ w.host.pool.jobs.filter fun c => c.process = p.id := by simp [hcall, hid]
  have hheld : ∀ r ∈ call.held, p.heap.isLive r := by
    intro r hr
    refine hanchored.isLive (.inl ?_)
    simp only [Process.anchors, List.mem_append, List.mem_flatMap]
    exact .inl (.inl (.inl (.inl ⟨call, hown, hr⟩)))
  exact Errand.goes_run (hw.sound hp) hanchored.mirrored (fun _ _ h => hw.sound h) hheld (hanchored.arguments call hown)

/-- A worker does the work of its call. -/
theorem Inv.performCall (hw : w.Inv) {worker : WorkerId} {call : BackgroundCall}
    (hrunning : (w.host.pool.workerAt worker).activity = .running call) :
    ((w.performCall call).modifyPool fun p => p.finish worker).Inv := by
  have hjobs := Pool.jobs_finish hrunning
  have hcall : call ∈ w.host.pool.jobs := hjobs.mem_iff.1 List.mem_cons_self
  obtain ⟨p, hp⟩ := (hw.calls call hcall).get?
  obtain ⟨hmem, hid, _⟩ := hw.get? hp
  have hm := hw.machine hmem ⟨0⟩
  have hgoes := hw.goes_run hcall hp
  have hdone : ∀ result e, Errand.run w call { heap := p.heap, held := call.held } = (result, e) →
      Errand.Since p.heap call.held e → (∀ r, result = .ok (.object r) → r ∈ e.held) →
      ((w.performCall call).modifyPool fun p => p.finish worker).Inv := by
    intro result e hrun he hresult
    rw [performCall_eq hp hrun]
    exact hw.putBack hp (inv_completed hm hjobs (hw.staffed.finish worker) hid.symm he hresult) hw.settled
  unfold Errand.Goes Act.wp at hgoes
  rcases hx : Errand.run w call { heap := p.heap, held := call.held } with ⟨fault | v, e⟩
  · rw [hx] at hgoes
    exact hdone (.error fault) e hx hgoes.1 fun r h => by cases h
  · rw [hx] at hgoes
    refine hdone (.ok v) e hx hgoes.1 fun r h => hgoes.2.2 r ?_
    cases h
    rfl

theorem Inv.complete (hw : w.Inv) (alarm : Alarm) : (w.complete alarm).Inv := by
  unfold World.complete
  split
  · rename_i call hrunning
    exact (hw.retime (max w.clock alarm.due) (w.alarms.erase alarm)).performCall hrunning
  · exact hw

/-! ## Results for other processes -/

/-- The first result in line leaves, and its root with it. -/
theorem inv_sent {g : Outlook} (hm : m.Inv g none []) {out : Outgoing} {rest : List Outgoing}
    (ho : m.process.outgoing = out :: rest) :
    ({ m with process := sent m.process (m.process.taskAt out.task).register } : Machine).Inv g none [] := by
  have hp := hm.intact
  have hs := hp.schedule
  have hp' : ({ m.process with outgoing := rest } : Process).Intact none
      (m.ledger g (m.process.taskAt out.task).register.handle?.toList) := by
    refine ⟨hp.fit.congr rfl rfl rfl rfl rfl, hp.anchored.forgo ho, ⟨hs.nodup, hs.ready, hs.running, hs.settled,
      hs.initializing, fun x hx => hs.owing x (by rw [ho]; exact List.mem_cons_of_mem out hx), fun x hx => ?_⟩, hp.linked⟩
    have hc := hs.carriers x hx
    exact ⟨hc.index_lt, hc.unscheduled, hc.idle, hc.unlinked⟩
  have h₁ := Machine.Inv.of_intact hm.id hm.serves hp' rfl rfl
  unfold sent
  rw [ho]
  cases hv : (m.process.taskAt out.task).register with
  | object r =>
      rw [hv] at h₁
      exact (Machine.inv_release h₁).1
  | none =>
      rw [hv] at h₁
      exact h₁
  | scalar s =>
      rw [hv] at h₁
      exact h₁

/-- The world while a result is on its way. -/
def sending (w : World) (p : Process) (out : Outgoing) : World :=
  { w with processes := w.processes.set p.id (sent p (p.taskAt out.task).register) }

/-- The process that has waited for a result, when a copy has reached it. -/
def received (w : World) (p q : Process) (out : Outgoing) : Machine :=
  let result := p.taskAt out.task
  let (copied, copier) := Copier.copy p.heap result.register (Copier.new p.heap q.heap w.host.registry)
  (Machine.endCarrier copied result.state
    { host := w.host, process := { q with heap := copier.target }, task := out.link.task }).2

/-- A result is about to be copied from one process to another. -/
structure Passes (w : World) (p q : Process) (out : Outgoing) : Prop where
  sender : w.processes.get? p.id = some p
  first : ∃ rest, p.outgoing = out :: rest
  finished : (p.taskAt out.task).state.isFinished
  valid : p.heap.Valid (p.taskAt out.task).register
  other : out.link.process ≠ p.id
  receiver : w.processes.get? out.link.process = some q
  awaits : (w.sending p out).Awaits out.link.process out.link.task

theorem Inv.passes (hw : w.Inv) (hp : w.processes.get? id = some p) {out : Outgoing} {rest : List Outgoing}
    (ho : p.outgoing = out :: rest) : ∃ q, w.Passes p q out := by
  obtain ⟨hmem, rfl, _⟩ := hw.get? hp
  have hi := hw.intact p hmem
  have hout : out ∈ p.outgoing := by
    rw [ho]
    exact List.mem_cons_self
  obtain ⟨task, htask, hfin, hlink⟩ := hi.schedule.owing out hout
  obtain ⟨hne, hhas⟩ := hw.linked hmem (Array.mem_of_getElem? htask) hlink
  obtain ⟨q, hq⟩ := hhas.get?
  have hset := Processes.getElem?_set hp (sent p (p.taskAt out.task).register) p.id.slot
  rw [if_pos rfl] at hset
  refine ⟨q, hp, ⟨rest, ho⟩, ?_, hi.anchored.valid_outgoing hout, hne, hq, _, Array.mem_of_getElem? hset, task,
    Array.mem_of_getElem? htask, hlink⟩
  rw [Process.taskAt_of_getElem? htask]
  exact hfin

variable {out : Outgoing}

theorem Passes.get?_sending (hd : w.Passes p q out) : (w.sending p out).processes.get? out.link.process = some q := by
  rw [sending, Processes.get?_set hd.sender, if_neg hd.other]
  exact hd.receiver

theorem Inv.sending (hw : w.Inv) (hd : w.Passes p q out) : (w.sending p out).Inv := by
  obtain ⟨rest, ho⟩ := hd.first
  exact hw.putBack hd.sender (inv_sent (hw.machine (hw.get? hd.sender).1 ⟨0⟩) ho) hw.settled

theorem Passes.deliver_eq (hd : w.Passes p q out) : w.deliver p.id = { w.sending p out with
      host := ((w.sending p out).received p q out).host
      processes := (w.sending p out).processes.set out.link.process
        { ((w.sending p out).received p q out).process with poked := true } } := by
  obtain ⟨rest, ho⟩ := hd.first
  have hfetch : w.processes.fetch p.id = p := Processes.fetch_of_get? hd.sender
  have hqfetch : w.processes.fetch out.link.process = q := Processes.fetch_of_get? hd.receiver
  simp only [World.deliver, hfetch, ho, hqfetch]
  rfl

/-- A result has been copied into the process that waits for it. -/
theorem Inv.copied (hw : w.Inv) (hp : w.processes.get? id = some p) {source : Heap} (hs : source.Sound) {v : Value}
    (hv : source.Valid v) {copied : Except Fault Value} {copier : Copier}
    (hcopy : Copier.copy source v (Copier.new source p.heap w.host.registry) = (copied, copier)) (t : TaskId) :
    ({ host := w.host, process := { p with heap := copier.target }, task := t } : Machine).Going (w.outlook p) none ∧
      p.heap.Gains (fun _ => False) copier.target ∧ ∃ result, copied = .ok result ∧ copier.target.Valid result := by
  have h₀ := hw.machine (hw.get? hp).1 t
  have hwp := Copier.wp_copy_new hs h₀.intact.fit.sound h₀.intact.anchored.mirrored w.host.registry hv
  unfold Act.wp at hwp
  rw [hcopy] at hwp
  cases copied with
  | error fault => exact hwp.elim
  | ok result =>
      have hp₁ := h₀.intact.gains hwp.1 fun _ h => h.elim
      exact ⟨(h₀.update hp₁ rfl rfl).idle, hwp.1, result, rfl, hwp.2⟩

theorem received_eq {copied : Except Fault Value} {copier : Copier}
    (hcopy : Copier.copy p.heap (p.taskAt out.task).register (Copier.new p.heap q.heap w.host.registry) = (copied, copier)) :
    w.received p q out = (Machine.endCarrier copied (p.taskAt out.task).state
      { host := w.host, process := { q with heap := copier.target }, task := out.link.task }).2 := by
  simp only [received, hcopy]

/-- The process that has got a result is intact. -/
theorem Inv.received (hw : w.Inv) (hd : w.Passes p q out) :
    ({ (w.sending p out).received p q out with
      process := { ((w.sending p out).received p q out).process with poked := true } } : Machine).Inv
        ((w.sending p out).outlook q) none [] ∧
      ((w.sending p out).received p q out).host.nursery = [] := by
  have hsound := (hw.intact p (hw.get? hd.sender).1).fit.sound
  have hpledged : (w.sending p out).Awaits q.id out.link.task := by
    rw [(hw.get? hd.receiver).2.1]
    exact hd.awaits
  rcases hcopy : Copier.copy p.heap (p.taskAt out.task).register
    (Copier.new p.heap q.heap (w.sending p out).host.registry) with ⟨copied, copier⟩
  obtain ⟨hgo, _, result, rfl, hval⟩ := (hw.sending hd).copied hd.get?_sending hsound hd.valid hcopy out.link.task
  rw [received_eq hcopy]
  have hend := (@Machine.going_endCarrier _ _ hgo (.inl hpledged) (.ok result) _ hd.finished fun v hv => by
    cases hv
    exact hval).inv
  refine ⟨hend.update (hend.intact.congr rfl rfl rfl rfl rfl rfl rfl rfl rfl rfl) rfl rfl, ?_⟩
  exact (Machine.nursery_finishTask _ _).trans hw.settled

theorem deliver_eq_self (h : (w.processes.fetch id).outgoing = []) : w.deliver id = w := by
  simp only [World.deliver, h]

/-- A result is delivered, or there is none. -/
theorem Inv.deliver_cases (hw : w.Inv) (id : ProcessId) : (w.processes.fetch id).outgoing = [] ∨
    ∃ p q out, id = p.id ∧ w.Passes p q out := by
  cases hp : w.processes.get? id with
  | none =>
      left
      simp only [Processes.fetch, hp]
      rfl
  | some p =>
      cases ho : p.outgoing with
      | nil =>
          left
          simp [Processes.fetch, hp, ho]
      | cons out rest =>
          obtain ⟨q, hd⟩ := hw.passes hp ho
          exact .inr ⟨p, q, out, (hw.get? hp).2.1.symm, hd⟩

theorem Inv.deliver (hw : w.Inv) (id : ProcessId) : (w.deliver id).Inv := by
  rcases hw.deliver_cases id with h | ⟨p, q, out, rfl, hd⟩
  · rw [deliver_eq_self h]
    exact hw
  · obtain ⟨hinv, hnursery⟩ := hw.received hd
    rw [hd.deliver_eq]
    exact (hw.sending hd).putBack hd.get?_sending hinv hnursery

/-! ## All together -/

/-- Whatever happens next, the world stays intact. -/
theorem Inv.step (hw : w.Inv) {fuel : Nat} {e : Event} (h : w.step fuel e = some w') : w'.Inv := by
  cases e with
  | tick id => exact hw.tick h
  | deliver id =>
      cases h
      exact hw.deliver id
  | engage worker =>
      cases h
      exact hw.engage worker
  | complete alarm =>
      cases h
      exact hw.complete alarm

end World

end Spool
