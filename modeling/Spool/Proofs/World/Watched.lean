import Spool.Proofs.Machine.Rounds
import Spool.Proofs.World.History

/-!
# Schedulers stop and sleep in time

A scheduler that has come to its end has left nothing undone, and one that sleeps has something to wait for. The
decision is taken at the end of a round and acted upon later, while the background pool and other processes go on; so
a scheduler that wakes takes note of that in a step of its own here, with anything between it and the next round.
-/

/-!
## Background calls are counted

A process keeps count of the background calls that it has made and not settled. Each of them is with the pool or has
come back, so the count can be checked against the two.
-/

namespace Spool

namespace Roster

theorem inFlight_deliverAll (failed : Bool) (result : Value) (ds : List Dependent) :
    ∀ r : Roster, (ds.foldl (fun r d => r.deliver failed result d) r).inFlight = r.inFlight := by
  induction ds with
  | nil => exact fun _ => rfl
  | cons d rest ih =>
      intro r
      rw [List.foldl_cons, ih]
      unfold deliver wake
      split
      · rfl
      · split
        · rfl
        · rfl

theorem inFlight_conclude (r : Roster) (t : TaskId) (state : TaskState) (v : Value) :
    (r.conclude t state v).inFlight = r.inFlight := by
  unfold conclude finish
  rw [inFlight_deliverAll]
  unfold clear
  cases (((r.update t (·.conclude state v)).owe t).standingAt t).initializes <;> rfl

end Roster

namespace Machine

namespace View

/-- The background calls of the process that are with the pool. -/
def submitted (v : View) : List BackgroundCall := v.pool.jobs.filter fun call => call.process = v.id

/-- The count is right, where `k` calls are being settled. -/
structure Counts (k : Nat) (v : View) : Prop where
  staffed : v.pool.Staffed
  count : v.roster.inFlight = v.submitted.length + v.roster.completions.length + k

variable {v v' : View} {k : Nat} {known : TaskId → Prop}

/-- The books are kept on other pages. -/
theorem Counts.roster (h : v.Counts k) {r : Roster} (hi : r.inFlight = v.roster.inFlight)
    (hc : r.completions = v.roster.completions) : ({ v with roster := r } : View).Counts k := by
  refine ⟨h.staffed, ?_⟩
  change r.inFlight = v.submitted.length + r.completions.length + k
  rw [hi, hc]
  exact h.count

theorem Counts.submit (h : v.Counts k) {call : BackgroundCall} (hcall : call.process = v.id) {r : Roster}
    (hi : r.inFlight = v.roster.inFlight + 1) (hc : r.completions = v.roster.completions) :
    ({ v with roster := r, pool := v.pool.submit call } : View).Counts k := by
  refine ⟨h.staffed.submit call, ?_⟩
  have hjobs := ((h.staffed.jobs_submit call).filter fun c => c.process = v.id).length_eq
  rw [List.filter_cons_of_pos (by simpa using hcall), List.length_cons] at hjobs
  have hcount := h.count
  change r.inFlight = ((v.pool.submit call).jobs.filter fun c => c.process = v.id).length + r.completions.length + k
  rw [hi, hc, hjobs]
  change _ = v.submitted.length + 1 + _ + k
  omega

theorem Stirs.counts {a : Prop} {new : List TaskId} (h : v.Stirs a new v') (hv : v.Counts k) : v'.Counts k := by
  cases h with
  | still => exact hv
  | call _ => exact hv.roster rfl rfl
  | background call hp _ => exact hv.submit hp rfl rfl
  | spawn child _ =>
      have h := hv.roster (r := v.roster.carry v.task) rfl rfl
      exact ⟨h.staffed, h.count⟩

theorem Parks.counts (h : v.Parks known v') (hv : v.Counts k) : v'.Counts k := by
  cases h with
  | call delivery => exact hv.roster rfl rfl
  | background call delivery hp _ => exact hv.submit hp rfl rfl
  | wait y _ _ => exact hv.roster rfl rfl
  | join m y _ _ => exact hv.roster rfl rfl
  | load m _ => exact hv.roster rfl rfl

theorem Counts.conclude (h : v.Counts k) (t : TaskId) (state : TaskState) (result : Value) :
    ({ v with roster := v.roster.conclude t state result } : View).Counts k :=
  h.roster (Roster.inFlight_conclude _ _ _ _) (Roster.completions_conclude _ _ _ _)

/-- Every call that is settled is struck from the count. -/
theorem Settles.counts {ts : List TaskId} (h : v.Settles ts v') (hv : v.Counts (k + ts.length)) : v'.Counts k := by
  induction h with
  | nil v => exact hv
  | @cons v v' t ts state result _ _ _ ih =>
      apply ih
      have hstruck : ({ v with task := t, roster := { v.roster with inFlight := v.roster.inFlight - 1 } } : View).Counts
          (k + ts.length) := by
        refine ⟨hv.staffed, ?_⟩
        have hcount := hv.count
        rw [List.length_cons] at hcount
        change v.roster.inFlight - 1 = v.submitted.length + v.roster.completions.length + _
        omega
      exact hstruck.conclude t state result

/-- Calls that have come back are about to be settled. -/
theorem Counts.takeBack (h : v.Counts k) :
    ({ v with roster := { v.roster with completions := [] } } : View).Counts (k + v.roster.completions.length) := by
  refine ⟨h.staffed, ?_⟩
  have hcount := h.count
  change v.roster.inFlight = v.submitted.length + 0 + _
  omega

end View

variable {m m' : Machine} {g : Outlook} {k : Nat}

theorem counts_stirs (h : Relation.ReflTransGen Stirs m m') (hm : m.view.Counts k) : m'.view.Counts k := by
  induction h with
  | refl => exact hm
  | tail _ hs ih =>
      obtain ⟨new, hview, _⟩ := hs.view
      exact hview.counts ih

theorem Turn.counts (h : m.Turn m') (hm : m.view.Counts k) : m'.view.Counts k := by
  cases h with
  | parks hwake hs hp => exact hp.view.counts (counts_stirs hs (hwake.view ▸ hm.roster rfl rfl))
  | ends hwake hs _ hend =>
      rw [hend.view]
      exact (counts_stirs hs (hwake.view ▸ hm.roster rfl rfl)).conclude _ _ _

/-- A round of the scheduler keeps the count. -/
theorem counts_tick (hm : m.Inv g none []) (hv : m.view.Counts 0) {fuel : Nat} (h : tick fuel m = some m') :
    m'.view.Counts 0 := by
  obtain ⟨v', hs, hb⟩ := settles_settleAll hm
  have h₁ : (settleAll m).2.view.Counts 0 := hb.view ▸ hs.counts hv.takeBack
  cases rounds_tick hm h with
  | rests _ hsteady _ => exact hsteady.view ▸ h₁
  | @turns t queue m₁ _ hturn hsteady _ =>
      have h₂ : ({ (settleAll m).2 with
          process := { (settleAll m).2.process with queue }
          task := t } : Machine).view.Counts 0 := ⟨h₁.staffed, h₁.count⟩
      exact hsteady.view ▸ hturn.counts h₂

end Machine

end Spool

/-! ## What a scheduler knows -/

namespace Spool

open Machine (isDone phaseAfter)

/-- The process has made so many background calls that are with the pool. Its count of calls is right, its scheduler
has stopped only if it is done, and sleeps only if it is not, or is about to look again. -/
structure Process.Watches (p : Process) (calls : Nat) : Prop where
  count : p.inFlight = calls + p.completions.length
  exited : p.phase = .exited → isDone p
  blocked : p.phase = .blocked → ¬ isDone p ∨ p.poked

theorem Process.isDone_iff {p : Process} : isDone p ↔ p.waiting = [] ∧ p.inFlight = 0 ∧ p.hasWork = false := by
  simp [isDone, and_assoc]

theorem Process.hasWork_eq_false {p : Process} : p.hasWork = false ↔ p.queue.toList = [] ∧ p.completions = [] := by
  simp [Process.hasWork, Fifo.isEmpty_iff]

/-- The scheduler cannot tell the one from the other. -/
theorem Process.Watches.congr {p p' : Process} {calls calls' : Nat} (h : p.Watches calls) (hcalls : calls' = calls)
    (hi : p'.inFlight = p.inFlight) (hc : p'.completions = p.completions) (hw : p'.waiting = p.waiting)
    (hq : p'.queue = p.queue) (hphase : p'.phase = p.phase) (hpoked : p'.poked = p.poked) : p'.Watches calls' := by
  have hdone : isDone p' = isDone p := by simp [isDone, Process.hasWork, hi, hc, hw, hq]
  refine ⟨?_, ?_, ?_⟩
  · rw [hi, hc, hcalls]
    exact h.count
  · rw [hphase, hdone]
    exact h.exited
  · rw [hphase, hdone, hpoked]
    exact h.blocked

/-- After a round the scheduler has looked at what is left. -/
theorem Machine.phase_tick {m m' : Machine} {fuel : Nat} (h : tick fuel m = some m') :
    ∃ progressed, m'.process.phase = phaseAfter progressed m'.process := by
  rw [tick_eq, Option.map_eq_some_iff] at h
  obtain ⟨⟨ran, m₁⟩, _, rfl⟩ := h
  exact ⟨_, rfl⟩

theorem Process.watches_of_phase {p : Process} {calls : Nat} (hcount : p.inFlight = calls + p.completions.length)
    {progressed : Bool} (hphase : p.phase = phaseAfter progressed p) : p.Watches calls := by
  unfold phaseAfter at hphase
  split at hphase
  · exact ⟨hcount, fun h => by simp [hphase] at h, fun h => by simp [hphase] at h⟩
  · split at hphase
    · rename_i hdone
      exact ⟨hcount, fun _ => hdone, fun h => by simp [hphase] at h⟩
    · rename_i hdone
      exact ⟨hcount, fun h => by simp [hphase] at h, fun _ => .inl hdone⟩

namespace World

variable {w w' : World} {id : ProcessId} {p q : Process} {m : Machine} {fuel : Nat} {e : Event} {α : Type}

/-- The background calls of a process that are with the pool. -/
def submitted (w : World) (id : ProcessId) : List BackgroundCall :=
  w.host.pool.jobs.filter fun call => call.process = id

def Watched (w : World) : Prop := ∀ p ∈ w.processes.items, p.Watches (w.submitted p.id).length

/-- A process has come back; the calls of the others are where they were. -/
theorem Watched.settle (hv : w.Watched) (hw : w.Inv) (hp : w.processes.get? id = some p)
    (hm : m.Inv (w.outlook p) none [])
    (hself : m.process.Watches (m.host.pool.jobs.filter fun call => call.process = p.id).length) :
    (w.settle id m).Watched := by
  obtain ⟨hmem, hid, hslot⟩ := hw.get? hp
  intro q hq
  obtain ⟨i, hi⟩ := Array.mem_iff_getElem?.1 hq
  rcases processes_settle hp m hi with ⟨_, rfl⟩ | ⟨hne, hold⟩ | ⟨j, _, hchild⟩
  · have hsame : m.process.id = p.id := hm.id
    rw [hsame]
    exact hself
  · have hqid : q.id ≠ p.id := by
      rw [hw.ids i q hold, hw.ids _ p hslot]
      simpa using hne
    exact (hv q (Array.mem_of_getElem? hold)).congr (jobs_settle hm hqid).length_eq rfl rfl rfl rfl rfl rfl
  · -- a process that has just been made has called nothing
    have hnew := hm.serves.newborn q (List.mem_of_getElem? hchild)
    have hnone : (w.settle id m).submitted q.id = [] := by
      refine List.filter_eq_nil_iff.2 fun call hc => ?_
      have hcid := (hw.calls_settle hp hm hc).2
      have hqid := hm.serves.numbers j q hchild
      have hborn : (w.outlook p).born = w.processes.items.size := hw.born
      simp only [decide_eq_true_eq, hqid, hborn]
      rintro h
      rw [h] at hcid
      dsimp only at hcid
      omega
    refine ⟨?_, fun h => ?_, fun h => ?_⟩
    · rw [hnone, hnew.completions, hnew.idle]
      rfl
    · rw [hnew.active] at h
      cases h
    · rw [hnew.active] at h
      cases h

/-- The view of a process that is about to run. -/
theorem Watched.counts (hv : w.Watched) (ho : w.Orderly []) (hp : p ∈ w.processes.items) (t : TaskId) :
    ({ host := w.host, process := p, task := t } : Machine).view.Counts 0 := by
  refine ⟨ho.staffed, (hv p hp).count.trans ?_⟩
  change _ = (w.submitted p.id).length + (p.completions.map Completion.task).length
  rw [List.length_map]

/-! ## Events -/

theorem Watched.tick (hv : w.Watched) (hw : w.Inv) (ho : w.Orderly []) (h : w.tick fuel id = some w') : w'.Watched := by
  rcases tick_cases h with ⟨rfl, _⟩ | ⟨p, m, hp, _, hrun, rfl⟩
  · exact hv
  · have hmem := (hw.get? hp).1
    have hinv := hw.awaken hmem ⟨0⟩
    have hm := Machine.inv_tick hinv hrun
    have hcounts := Machine.counts_tick hinv (view_awaken w.host p ⟨0⟩ ▸ hv.counts ho hmem ⟨0⟩) hrun
    obtain ⟨_, hphase⟩ := Machine.phase_tick hrun
    refine hv.settle hw hp hm (Process.watches_of_phase ?_ hphase)
    have hcount := hcounts.count
    simp only [Machine.View.submitted, Machine.view, Process.roster, List.length_map, hm.id, Nat.add_zero] at hcount
    exact hcount

theorem Watched.modifyPool (hv : w.Watched) {f : Pool BackgroundCall → Pool BackgroundCall}
    (hf : (f w.host.pool).jobs.Perm w.host.pool.jobs) : (w.modifyPool f).Watched := fun p hp =>
  (hv p hp).congr (hf.filter _).length_eq rfl rfl rfl rfl rfl rfl

theorem Watched.engage (hv : w.Watched) (worker : WorkerId) : (w.engage worker).Watched := by
  have h₁ : (w.modifyPool fun p => p.engage worker).Watched := hv.modifyPool (w.host.pool.jobs_engage worker)
  unfold World.engage
  split
  · exact hv
  · dsimp only
    split
    · exact h₁
    · exact h₁

/-- A call that comes back goes from the pool to its process, which has something to do then. -/
theorem Watched.performCall (hv : w.Watched) (hw : w.Inv) {worker : WorkerId} {call : BackgroundCall}
    (hrunning : (w.host.pool.workerAt worker).activity = .running call) :
    ((w.performCall call).modifyPool fun p => p.finish worker).Watched := by
  have hjobs := Pool.jobs_finish hrunning
  obtain ⟨p, hp⟩ := (hw.calls call (hjobs.mem_iff.1 List.mem_cons_self)).get?
  obtain ⟨hmem, hid, hslot⟩ := hw.get? hp
  intro q hq
  obtain ⟨i, hi⟩ := Array.mem_iff_getElem?.1 hq
  have hfilter := (hjobs.filter fun c => c.process = q.id).length_eq
  change (w.processes.modify call.process _).items[i]? = some q at hi
  rw [Processes.modify_eq_set hp, Processes.getElem?_set hp] at hi
  change q.Watches ((w.host.pool.finish worker).jobs.filter fun c => c.process = q.id).length
  split at hi
  · cases hi
    have hown : call.process = p.id := hid.symm
    rw [List.filter_cons_of_pos (by simpa using hown), List.length_cons] at hfilter
    have hcount := (hv p hmem).count
    have hbusy : p.inFlight ≠ 0 := by
      unfold submitted at hcount
      dsimp only at hfilter
      omega
    refine ⟨?_, fun h => ?_, fun _ => .inl ?_⟩
    · unfold submitted at hcount
      simp only [List.length_append, List.length_singleton] at hcount hfilter ⊢
      omega
    · exact absurd (Process.isDone_iff.1 ((hv p hmem).exited h)).2.1 hbusy
    · simp [isDone, hbusy]
  · rename_i hne
    have hother : call.process ≠ q.id := by
      rw [hw.ids i q hi, ← hid, hw.ids _ p hslot]
      simpa using Ne.symm hne
    rw [List.filter_cons_of_neg (by simpa using hother)] at hfilter
    exact (hv q (Array.mem_of_getElem? hi)).congr hfilter rfl rfl rfl rfl rfl rfl

theorem Watched.complete (hv : w.Watched) (hw : w.Inv) (alarm : Alarm) : (w.complete alarm).Watched := by
  unfold World.complete
  split
  · rename_i call hrunning
    have hretimed : ({ w with clock := max w.clock alarm.due, alarms := w.alarms.erase alarm } : World).Watched := hv
    exact hretimed.performCall (hw.retime _ _) hrunning
  · exact hv

theorem pool_finishTask (t : TaskId) (m : Machine) : (Machine.finishTask t m).2.host.pool = m.host.pool := by
  rw [Machine.finishTask_eq]
  split <;> rfl

/-- Nothing has happened but to one process. -/
theorem Watched.put (hv : w.Watched) (hp : w.processes.get? id = some p) {host : Host} (hpool : host.pool = w.host.pool)
    {p' : Process} (hself : p'.Watches (w.submitted p'.id).length) :
    ({ w with host, processes := w.processes.set id p' } : World).Watched := by
  intro q hq
  obtain ⟨i, hi⟩ := Array.mem_iff_getElem?.1 hq
  change q.Watches (host.pool.jobs.filter fun call => call.process = q.id).length
  rw [hpool]
  rw [Processes.getElem?_set hp] at hi
  split at hi
  · cases hi
    exact hself
  · exact hv q (Array.mem_of_getElem? hi)

theorem Watched.sending (hv : w.Watched) {out : Outgoing} (hd : w.Passes p q out) (hp : p ∈ w.processes.items) :
    (w.sending p out).Watched :=
  hv.put hd.sender rfl ((hv p hp).congr rfl rfl rfl rfl rfl rfl rfl)

/-- The receiver looks again; a scheduler that has come to its end has nobody who could receive. -/
theorem Watched.deliver (hv : w.Watched) (hw : w.Inv) (ho : w.Orderly []) (id : ProcessId) : (w.deliver id).Watched := by
  rcases hw.deliver_cases id with hnone | ⟨p, q, out, rfl, hd⟩
  · rw [deliver_eq_self hnone]
    exact hv
  · obtain ⟨_, _, hwaits, q', v, copier, hcopy, hq', hphase, hroster⟩ := ho.deliver hw hd
    obtain ⟨hqmem, hqid, _⟩ := hw.get? hd.receiver
    have hinv := (hw.received hd).1
    rw [hd.deliver_eq] at hq' ⊢
    rw [Processes.get?_set hd.get?_sending, if_pos rfl] at hq'
    have hpool : ((w.sending p out).received p q out).host.pool = (w.sending p out).host.pool := by
      rw [received_eq (w := w.sending p out) hcopy]
      exact pool_finishTask _ _
    have hcount := (hv q hqmem).count
    refine (hv.sending hd (hw.get? hd.sender).1).put hd.get?_sending hpool ?_
    rw [show _ = q' from Option.some.inj hq']
    have hid : q'.id = q.id := by
      rw [← Option.some.inj hq']
      exact hinv.id
    have hpoked : q'.poked := by
      rw [← Option.some.inj hq']
    have hinFlight : q'.inFlight = q.inFlight := (congrArg Roster.inFlight hroster).trans (Roster.inFlight_conclude _ _ _ _)
    have hcompletions : q'.completions.length = q.completions.length := by
      have := congrArg List.length ((congrArg Roster.completions hroster).trans (Roster.completions_conclude _ _ _ _))
      simpa [Process.roster] using this
    refine ⟨?_, fun h => ?_, fun _ => .inr hpoked⟩
    · rw [hinFlight, hcompletions, hid]
      exact hcount
    · have hempty := (Process.isDone_iff.1 ((hv q hqmem).exited (hphase.symm.trans h))).1
      have hlisted : out.link.task ∈ q.waiting := (ho.ordered q hqmem).waits _ hwaits
      rw [hempty] at hlisted
      cases hlisted

theorem Watched.step (hv : w.Watched) (hw : w.Inv) (ho : w.Orderly []) (h : w.step fuel e = some w') : w'.Watched := by
  cases e with
  | tick id => exact hv.tick hw ho h
  | deliver id =>
      cases h
      exact hv.deliver hw ho id
  | engage worker =>
      cases h
      exact hv.engage worker
  | complete alarm =>
      cases h
      exact hv.complete hw alarm

/-! ## What is done from outside -/

theorem Handled.pool (h : Handled w w') : w'.host.pool = w.host.pool := by
  have hregistry : ∀ {α : Type} (act : Registry.Entry α),
      Preserves (fun w' : World => w'.host.pool = w.host.pool) (onRegistry act) := fun _ _ h => h
  cases h with
  | addHostModule => rfl
  | register m => exact hregistry _ w rfl
  | loadFile path =>
      have hload : Preserves (fun w' : World => w'.host.pool = w.host.pool) (World.loadFile path) :=
        preserves_get fun _ _ => hregistry _
      exact hload w rfl
  | startMain name =>
      have hstart : Preserves (fun w' : World => w'.host.pool = w.host.pool) (World.startMain name) :=
        preserves_get fun _ _ => preserves_bind (hregistry _) fun _ _ h => h
      exact hstart w rfl
  | collect id => rfl

theorem Handled.watched (h : Handled w w') (hv : w.Watched) (hw : w.Inv) (ho : w.Orderly []) : w'.Watched := by
  obtain ⟨hw', _, hunmoves⟩ := h.follows hw ho
  have hsubmitted : ∀ x, w'.submitted x = w.submitted x := fun x => by
    rw [submitted, h.pool]
    rfl
  intro p' hp'
  rw [hsubmitted]
  obtain ⟨i, hi⟩ := Array.mem_iff_getElem?.1 hp'
  have hget : w'.processes.get? p'.id = some p' := by
    rw [hw'.ids i p' hi]
    exact Processes.get?_eq_some.2 ⟨Nat.succ_ne_zero i, hi⟩
  cases hp : w.processes.get? p'.id with
  | some p =>
      obtain ⟨_, hsame, hmoved⟩ := hunmoves.stays _ p hp
      cases hget.symm.trans hsame
      obtain ⟨heap, rfl⟩ := hmoved.collected
      exact (hv p (hw.get? hp).1).congr rfl rfl rfl rfl rfl rfl rfl
  | none =>
      -- a main process has called nothing
      obtain ⟨x, settings, module, hmoved⟩ := hunmoves.enters _ p' hget hp
      have hnone : w.submitted p'.id = [] := by
        refine List.filter_eq_nil_iff.2 fun call hc => ?_
        obtain ⟨q, hq⟩ := (hw.calls call hc).get?
        simp only [decide_eq_true_eq]
        rintro hid
        rw [hid, hp] at hq
        cases hq
      have hrow := hmoved.roster
      rw [Process.roster_main, Process.roster_seeded] at hrow
      have hphase := hmoved.phase.trans (Process.main_frame x settings module).2.2
      refine ⟨?_, fun h => ?_, fun h => ?_⟩
      · have hinFlight : p'.inFlight = 0 := congrArg Roster.inFlight hrow
        have hcompletions : p'.completions.map Completion.task = [] := congrArg Roster.completions hrow
        rw [hnone, hinFlight, List.map_eq_nil_iff.1 hcompletions]
        rfl
      · rw [hphase] at h
        cases h
      · rw [hphase] at h
        cases h

/-! ## Waking up -/

/-- A sleeping scheduler takes note of what has woken it. Its next round comes later. -/
def rouse (id : ProcessId) (w : World) : World :=
  match w.processes.get? id with
  | some p =>
    if p.phase = .blocked ∧ (p.hasWork ∨ p.poked) then
      { w with processes := w.processes.set id { p with phase := .active, poked := false } }
    else w
  | none => w

/-- A scheduler wakes, or nothing happens. -/
theorem rouse_cases (id : ProcessId) (w : World) : w.rouse id = w ∨ ∃ p, w.processes.get? id = some p ∧
    w.rouse id = { w with processes := w.processes.set id { p with phase := .active, poked := false } } := by
  unfold rouse
  cases hp : w.processes.get? id with
  | none => exact .inl rfl
  | some p =>
      dsimp only
      split
      · exact .inr ⟨p, rfl, rfl⟩
      · exact .inl rfl

theorem rouse_keeps (hw : w.Inv) (ho : w.Orderly []) (hv : w.Watched) (id : ProcessId) :
    (w.rouse id).Inv ∧ (w.rouse id).Orderly [] ∧ (w.rouse id).Watched := by
  rcases rouse_cases id w with h | ⟨p, hp, h⟩
  · rw [h]
    exact ⟨hw, ho, hv⟩
  · obtain ⟨hmem, hid, _⟩ := hw.get? hp
    have hm := hw.machine hmem ⟨0⟩
    have hm' : ({ host := w.host, process := { p with phase := .active, poked := false }, task := ⟨0⟩ } : Machine).Inv
        (w.outlook p) none [] := hm.update (hm.intact.congr rfl rfl rfl rfl rfl rfl rfl rfl rfl rfl) rfl rfl
    have ht := ho.machine hw hp ⟨0⟩
    have horderly := ho.settle [] hw hp hm' ⟨ht.view, ht.futures⟩ (.refl _) (by simp) ⟨0⟩ fun _ _ => .refl _
    rw [settle_eq hw.settled] at horderly
    rw [h]
    refine ⟨hw.putBack hp hm' hw.settled, horderly.1, hv.put hp rfl ?_⟩
    exact ⟨(hv p hmem).count, (nomatch ·), (nomatch ·)⟩

/-- A world that comes about where schedulers wake and make their rounds in separate steps, with anything between. -/
inductive Interleaves : World → Prop where
  | create {r : MachineRequest} {w : World} : create r = .ok w → Interleaves w
  | handle {w w' : World} : Interleaves w → Handled w w' → Interleaves w'
  | step {w w' : World} {fuel : Nat} {e : Event} : Interleaves w → w.step fuel e = some w' → Interleaves w'
  | rouse {w : World} (id : ProcessId) : Interleaves w → Interleaves (w.rouse id)

theorem Interleaves.play (hw : w.Interleaves) {check : World → Bool} {events : List Event}
    (h : play fuel check events w = some w') : w'.Interleaves := by
  induction events generalizing w with
  | nil =>
      cases h
      exact hw
  | cons e rest ih =>
      obtain ⟨w₁, hstep, hrest⟩ := Option.bind_eq_some_iff.1 h
      split at hrest
      · exact ih (hw.step hstep) hrest
      · cases hrest

theorem Interleaves.keeps (h : w.Interleaves) : w.Inv ∧ w.Orderly [] ∧ w.Watched := by
  induction h with
  | create h =>
      refine ⟨inv_create h, orderly_create h, ?_⟩
      obtain ⟨_, _, rfl⟩ := eq_of_create h
      exact fun p hp => absurd hp (Array.not_mem_empty p)
  | handle _ h ih =>
      obtain ⟨hw, ho, hv⟩ := ih
      have hfollows := h.follows hw ho
      exact ⟨hfollows.inv, hfollows.orderly, h.watched hv hw ho⟩
  | step _ h ih =>
      obtain ⟨hw, ho, hv⟩ := ih
      exact ⟨hw.step h, (ho.step hw h).1, hv.step hw ho h⟩
  | rouse id _ ih =>
      obtain ⟨hw, ho, hv⟩ := ih
      exact rouse_keeps hw ho hv id

/-- A process in which nothing is in the queue and nobody is parked has only finished tasks. -/
theorem Orderly.isFinished (ho : w.Orderly []) (hp : p ∈ w.processes.items) (hq : p.queue.toList = [])
    (hwaiting : p.waiting = []) {t : TaskId} (ht : t.index < p.tasks.size) : (p.taskAt t).state.isFinished := by
  have hr := ho.ordered p hp
  have hrow := Process.at?_taskAt ht
  have hempty : p.roster.queue = [] := hq
  cases hstate : (p.taskAt t).state with
  | new =>
      have hmem := (hr.runs t ⟨_, hrow, .inl hstate⟩).resolve_right fun h => nomatch h
      rw [hempty] at hmem
      cases hmem
  | running =>
      have hmem := (hr.runs t ⟨_, hrow, .inr hstate⟩).resolve_right fun h => nomatch h
      rw [hempty] at hmem
      cases hmem
  | waiting =>
      have hmem : t ∈ p.waiting := hr.waits t ⟨_, hrow, hstate⟩
      rw [hwaiting] at hmem
      cases hmem
  | complete => rfl
  | error => rfl

/-- However rounds, background calls and deliveries take turns: the count of background calls in flight is that of the
calls with the pool and of those that have come back and have not been settled. A scheduler that has come to its end
leaves every task finished, an empty queue, and no background call. And a scheduler that sleeps, with nothing in its
queue, nothing come back and nobody having looked in, has a parked task or a background call that is with the pool. -/
theorem schedulers_stop_and_sleep_in_time (hw : w.Interleaves) : ∀ p ∈ w.processes.items,
    p.inFlight = (w.submitted p.id).length + p.completions.length ∧
    (p.phase = .exited → (∀ t, t.index < p.tasks.size → (p.taskAt t).state.isFinished) ∧ p.queue.toList = [] ∧
      p.completions = [] ∧ p.inFlight = 0) ∧
    (p.phase = .blocked → p.queue.toList = [] → p.completions = [] → p.poked = false →
      p.waiting ≠ [] ∨ p.inFlight ≠ 0 ∧ w.submitted p.id ≠ []) := by
  obtain ⟨hinv, ho, hv⟩ := hw.keeps
  intro p hp
  obtain ⟨hcount, hexited, hblocked⟩ := hv p hp
  refine ⟨hcount, fun h => ?_, fun h hqueue hcompletions hpoked => ?_⟩
  · obtain ⟨hwaiting, hidle, hwork⟩ := Process.isDone_iff.1 (hexited h)
    obtain ⟨hqueue, hcompletions⟩ := Process.hasWork_eq_false.1 hwork
    exact ⟨fun t ht => ho.isFinished hp hqueue hwaiting ht, hqueue, hcompletions, hidle⟩
  · have hnot := (hblocked h).resolve_right (by simp [hpoked])
    rw [Process.isDone_iff] at hnot
    by_cases hwaiting : p.waiting = []
    · have hbusy : p.inFlight ≠ 0 := fun hidle =>
        hnot ⟨hwaiting, hidle, Process.hasWork_eq_false.2 ⟨hqueue, hcompletions⟩⟩
      refine .inr ⟨hbusy, fun hnone => hbusy ?_⟩
      rw [hcount, hnone, hcompletions]
      rfl
    · exact .inl hwaiting

/-- A program that makes a background call and ends. -/
def echoing : CompiledModule :=
  { name := "echoing"
    tape := { instructions :=
      #[⟨.loadModule, .name "host"⟩, ⟨.member, .name "echo"⟩, ⟨.callBare, .none⟩, ⟨.ret, .none⟩] } }

def hosting : World :=
  let w := (register echoing {}).2
  (startMain "echoing" { w with host := { w.host with registry := w.host.registry.addHostModule } }).2

/-- The call is with the pool, and the scheduler sleeps. -/
def asleep : World := (play 20 (fun _ => true) (.replicate 4 (.tick ⟨1⟩)) hosting).get (by decide +kernel)

/-- The call has come back, and the scheduler has woken. -/
def awake : World :=
  rouse ⟨1⟩ ((play 20 (fun _ => true) [.engage ⟨0⟩, .complete ⟨⟨0⟩, 0⟩] asleep).get (by decide +kernel))

/-- The scheduler has come to its end. -/
def retired : World := (play 20 (fun _ => true) (.replicate 3 (.tick ⟨1⟩)) awake).get (by decide +kernel)

theorem schedulers_stop_and_sleep_in_time_retired :
    (∃ p ∈ asleep.processes.items, p.phase = .blocked ∧ p.poked = false ∧ p.inFlight = 1 ∧
      p.inFlight = (asleep.submitted p.id).length + p.completions.length) ∧
    ∃ p ∈ retired.processes.items, p.phase = .exited ∧ p.tasks.size = 3 ∧
      ∀ t, t.index < p.tasks.size → (p.taskAt t).state.isFinished := by
  have hhosting : hosting.Interleaves := ((Interleaves.create (r := {}) rfl).handle (.register echoing)).handle
    .addHostModule |>.handle (.startMain "echoing")
  have hasleep : asleep.Interleaves := hhosting.play (Option.some_get _).symm
  have hretired : retired.Interleaves := ((hasleep.play (Option.some_get _).symm).rouse ⟨1⟩).play (Option.some_get _).symm
  have hsleeps : asleep.processes.items.any fun p => p.phase = .blocked ∧ p.poked = false ∧ p.inFlight = 1 := by
    decide +kernel
  have hends : retired.processes.items.any fun p => p.phase = .exited ∧ p.tasks.size = 3 := by decide +kernel
  obtain ⟨p, hp, hphase⟩ := Array.any_eq_true'.1 hsleeps
  obtain ⟨q, hq, hqphase⟩ := Array.any_eq_true'.1 hends
  obtain ⟨hblocked, hpoked, hbusy⟩ := of_decide_eq_true hphase
  obtain ⟨hexited, hsize⟩ := of_decide_eq_true hqphase
  refine ⟨⟨p, hp, hblocked, hpoked, hbusy, (schedulers_stop_and_sleep_in_time hasleep p hp).1⟩, q, hq, hexited, hsize, ?_⟩
  exact ((schedulers_stop_and_sleep_in_time hretired q hq).2.1 hexited).1

end World

end Spool
