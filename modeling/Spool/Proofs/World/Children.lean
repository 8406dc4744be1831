import Spool.Proofs.World.Modules
import Spool.Proofs.World.Solo
import Spool.Proofs.World.Stranded

/-!
# Results of other processes

A process that another has started owes it the result of its first task. A carrier waits there for a copy, and gets it
once: by a delivery, and in no other way. The scheduler of the other process does not come to its end before that. The
result is lost only if the task is abandoned with an error that is no object.
-/

namespace Spool

/-- A scheduler that has come to its end has left nobody parked. -/
def Process.Retired (p : Process) : Prop := p.phase = .exited → p.waiting = []

theorem Machine.retired_tick {m m' : Machine} {fuel : Nat} (h : tick fuel m = some m') : m'.process.Retired := by
  rw [tick_eq, Option.map_eq_some_iff] at h
  obtain ⟨⟨ran, m₁⟩, _, rfl⟩ := h
  intro hexited
  have hdone : isDone (tidy m₁).2.process := by
    dsimp only [phaseAfter] at hexited
    split at hexited
    · cases hexited
    · split at hexited
      · assumption
      · cases hexited
  simp only [isDone, Bool.and_eq_true, List.isEmpty_iff] at hdone
  exact hdone.1.1

theorem Roster.Fledgling.row {r : Roster} {link : RemoteLink} (hr : r.Fledgling link) {t : TaskId} {s : Standing}
    (hs : r.at? t = some s) : t = ⟨0⟩ ∧ s = { remote := some link } := by
  have hlt := index_lt_of_at? hs
  obtain ⟨i⟩ := t
  simp only [hr.tasks, List.size_toArray, List.length_singleton, Nat.lt_one_iff] at hlt
  subst hlt
  simp only [at?, hr.tasks] at hs
  exact ⟨rfl, (Option.some.inj hs).symm⟩

theorem Roster.Fledgling.owes {r : Roster} {link : RemoteLink} (hr : r.Fledgling link) : r.Owes ⟨0⟩ link :=
  .inl ⟨{ remote := some link }, by rw [at?, hr.tasks]; rfl, rfl, rfl⟩

theorem Roster.Fledgling.remote {p : Process} {link : RemoteLink} (hp : p.roster.Fledgling link) :
    (p.taskAt ⟨0⟩).remote = some link := by
  have hat : p.roster.at? ⟨0⟩ = some { remote := some link } := by
    rw [Roster.at?, hp.tasks]
    rfl
  have hrow := Roster.standingAt_of_at? hat
  rw [Process.standingAt_roster] at hrow
  exact congrArg Standing.remote hrow

namespace Machine

/-- A process has been started, and a carrier waits for the result of its first task. -/
inductive Starts (m : Machine) (id : ProcessId) (m' : Machine) : Prop where
  | mk (child : Process) (entry carrier : TaskId) : child ∈ m'.host.nursery → child.id = id →
      child.entryTask = some entry → (child.taskAt entry).remote = some ⟨m.process.id, carrier⟩ →
      (m'.process.taskAt carrier).state = .waiting → Starts m id m'

theorem wp_spawn (callee argument : Value) (m : Machine) :
    (spawn callee argument).wp m (fun x m' => m.Starts x.1 m') fun _ _ => True := by
  unfold spawn
  rw [Act.wp_bind]
  refine Act.wp_mono (Act.wp_of_preserves (steady_entryPoint callee) (.refl m)) (fun b m₁ h₁ => ?_) fun _ _ _ => trivial
  rw [Act.wp_bind, Act.wp_get]
  dsimp only
  split
  · rename_i start _
    rw [Act.wp_bind]
    refine Act.wp_mono (Act.wp_of_preserves (steady_moduleObject _) (.refl m₁)) (fun object m₂ h₂ => ?_) fun _ _ _ => trivial
    have h := h₁.trans h₂
    simp only [Act.wp_bind, Act.wp_modifyGet, Act.wp_lift, Act.wp_get]
    generalize furnish _ _ _ _ _ _ _ = result
    rcases result with ⟨e | baggage, heap⟩
    · simp only [Act.wp_bind, Act.wp_lift]
      exact trivial
    · simp only [Act.wp_bind, Act.wp_lift]
      refine Act.wp_mono (Act.wp_of_preserves (heralds_newFuture _) ⟨rfl, fun _ _ h => h, fun h => h⟩) (fun _ m₃ h₃ => ?_)
        fun _ _ _ => trivial
      have hchild := @roster_launch { m₂.host.newProcess.1 with heap } rfl rfl rfl rfl rfl
        (Process.modules_seeded ⟨m₂.host.born + 1⟩ m₂.host.heapSettings) m₁.host.registry b.function start baggage
        ⟨m₂.process.id, ⟨m₂.process.tasks.size⟩⟩
      have hnursery : m₃.host.nursery = m₂.host.nursery ++ [_] := congrArg View.nursery h₃.view
      have hroster : m₃.process.roster = (m₂.process.newCarrier m₂.task).2.roster := congrArg View.roster h₃.view
      refine .mk _ ⟨0⟩ ⟨m₂.process.tasks.size⟩ ?_ rfl rfl ?_ ?_
      · rw [hnursery]
        exact List.mem_append_right _ List.mem_cons_self
      · exact hchild.remote.trans (by rw [h.id])
      · have hat : m₃.process.roster.at? ⟨m₂.process.tasks.size⟩ = some (.carrier m₂.task) := by
          rw [hroster, Process.at?_roster, Process.getElem?_newCarrier]
          rfl
        exact World.state_of_at? hat
  · exact trivial

end Machine

namespace World

variable {w w' : World} {id : ProcessId} {p q p' q' : Process} {m : Machine} {t entry : TaskId} {link : RemoteLink}
  {fuel : Nat} {e : Event} {out : Outgoing}

/-! ## Where processes come from -/

/-- What has become of a process in an event, or where it comes from. -/
inductive Emerges (w : World) (e : Event) (id : ProcessId) (p' : Process) : Prop where
  /-- The process has been there, and still owes what it has owed. -/
  | stays (p : Process) : w.processes.get? id = some p → p.roster.Upholds p'.roster → (p.Retired → p'.Retired) →
      Emerges w e id p'
  /-- The process has sent the first result in line. -/
  | sends (p q : Process) (out : Outgoing) : id = p.id → e = .deliver id → w.Passes p q out →
      p' = sent p (p.taskAt out.task).register → Emerges w e id p'
  /-- Another process has started it. -/
  | born (link : RemoteLink) : w.processes.get? id = none → p'.roster.Fledgling link → Emerges w e id p'

theorem Emerges.same (h : w.processes.get? id = some p) : w.Emerges e id p := .stays p h (.refl _) fun h => h

/-- A process that has come back has brought the others with it. -/
theorem mem_nursery_of_new {x : ProcessId} (hp : w.processes.get? x = some p) (hnone : w.processes.get? id = none)
    (hnew : (w.settle x m).processes.get? id = some q) : q ∈ m.host.nursery := by
  obtain ⟨hn, hslot⟩ := Processes.get?_eq_some.1 hnew
  rcases processes_settle hp m hslot with ⟨hsame, _⟩ | ⟨_, hold⟩ | ⟨j, _, hchild⟩
  · have hid := Processes.get?_eq_some.2 ⟨hn, hsame ▸ (Processes.get?_eq_some.1 hp).2⟩
    cases hid.symm.trans hnone
  · cases (Processes.get?_eq_some.2 ⟨hn, hold⟩).symm.trans hnone
  · exact List.mem_of_getElem? hchild

theorem emerges_tick (hw : w.Inv) (ho : w.Orderly []) {x : ProcessId} (h : w.tick fuel x = some w')
    (hp' : w'.processes.get? id = some p') : w.Emerges (.tick x) id p' := by
  rcases tick_cases h with ⟨rfl, _⟩ | ⟨p, m, hp, _, hrun, rfl⟩
  · exact .same hp'
  · obtain ⟨htidy, hproceeds, _⟩ := Machine.tidy_tick (hw.awaken (hw.get? hp).1 ⟨0⟩) (ho.awaken hw hp ⟨0⟩) hrun
    cases hq : w.processes.get? id with
    | none =>
        obtain ⟨t, hfledgling⟩ := htidy.view.fledglings p' (mem_nursery_of_new hp hq hp')
        exact .born _ hq hfledgling
    | some q =>
        have hget := get?_settle hp m hq
        split at hget
        · rename_i hid
          subst hid
          cases hp.symm.trans hq
          cases hp'.symm.trans hget
          have hupholds := hproceeds.upholds
          rw [view_awaken] at hupholds
          exact .stays p hp hupholds fun _ => Machine.retired_tick hrun
        · cases hp'.symm.trans hget
          exact .same hq

theorem emerges_deliver (hw : w.Inv) (ho : w.Orderly []) (x : ProcessId)
    (hp' : (w.deliver x).processes.get? id = some p') : w.Emerges (.deliver x) id p' := by
  rcases hw.deliver_cases x with hnone | ⟨p, q, out, rfl, hd⟩
  · rw [deliver_eq_self hnone] at hp'
    exact .same hp'
  · obtain ⟨_, _, hwaits, q', v, _, _, hq', hphase, hroster⟩ := ho.deliver hw hd
    by_cases hreceiver : id = out.link.process
    · subst hreceiver
      cases hp'.symm.trans hq'
      have hun : ¬ (q.roster.standingAt out.link.task).state.isFinished := by
        obtain ⟨s, hs, hstate⟩ := hwaits
        simp [Roster.standingAt_of_at? hs, hstate, TaskState.isFinished]
      refine .stays q hd.receiver ?_ fun hretired hexited => ?_
      · rw [hroster]
        exact Roster.upholds_conclude hun _ v
      · -- a task waits, so the scheduler goes on
        have hlisted := (ho.ordered q (hw.get? hd.receiver).1).waits _ hwaits
        have hempty : q.roster.waiting = [] := hretired (hphase.symm.trans hexited)
        rw [hempty] at hlisted
        cases hlisted
    · rw [hd.deliver_eq, Processes.get?_set hd.get?_sending, if_neg hreceiver, sending, Processes.get?_set hd.sender] at hp'
      split at hp'
      · rename_i hid
        subst hid
        exact .sends p q out rfl rfl hd (Option.some.inj hp').symm
      · exact .same hp'

theorem emerges_complete (hw : w.Inv) (alarm : Alarm) (hp' : (w.complete alarm).processes.get? id = some p') :
    w.Emerges (.complete alarm) id p' := by
  unfold World.complete at hp'
  split at hp'
  · rename_i call hrunning
    have hcall : call ∈ w.host.pool.jobs := (Pool.jobs_finish hrunning).mem_iff.1 List.mem_cons_self
    obtain ⟨q, hq⟩ := (hw.calls call hcall).get?
    change (w.processes.modify call.process _).get? id = _ at hp'
    rw [Processes.modify_eq_set hq, Processes.get?_set hq] at hp'
    split at hp'
    · rename_i hid
      subst hid
      cases hp'
      exact .stays q hq (.of_eq rfl rfl rfl) fun h => h
    · exact .same hp'
  · exact .same hp'

theorem emerges_step (hw : w.Inv) (ho : w.Orderly []) (h : w.step fuel e = some w')
    (hp' : w'.processes.get? id = some p') : w.Emerges e id p' := by
  cases e with
  | tick x => exact emerges_tick hw ho h hp'
  | deliver x =>
      cases h
      exact emerges_deliver hw ho x hp'
  | engage worker =>
      cases h
      refine .same ?_
      unfold World.engage at hp'
      split at hp'
      · exact hp'
      · dsimp only at hp'
        split at hp' <;> exact hp'
  | complete alarm =>
      cases h
      exact emerges_complete hw alarm hp'

/-! ## What is owed -/

/-- What a task has ended with stays. -/
theorem Abides.ended (h : w.Abides w') (hp : w.processes.get? id = some p) (hp' : w'.processes.get? id = some p')
    (hfin : (p.taskAt t).state.isFinished) :
    (p'.taskAt t).state = (p.taskAt t).state ∧ (p'.taskAt t).register = (p.taskAt t).register := by
  obtain ⟨_, hq, habides⟩ := h id p hp
  cases hp'.symm.trans hq
  obtain ⟨s, hs, hlater⟩ := habides.tasks t (p.taskAt t).standing (Process.at?_taskAt (Process.index_lt_of_isFinished hfin))
  have hrow := Roster.standingAt_of_at? hs
  rw [Process.standingAt_roster] at hrow
  subst hrow
  obtain ⟨hstate, hresult⟩ := hlater.ended hfin
  have hstate : (p'.taskAt t).state = (p.taskAt t).state := hstate
  refine ⟨hstate, ?_⟩
  simpa [Task.standing, hstate, hfin] using hresult

/-- The carrier has waited, and comes to its end with the outcome of a finished task of `q`, of which it gets a copy. -/
inductive Delivered (w : World) (q : Process) (entry : TaskId) (link : RemoteLink) (w' : World) : Prop where
  | mk (p p' : Process) (v : Value) (copier : Copier) : (q.taskAt entry).state.isFinished →
      w.processes.get? link.process = some p → (p.taskAt link.task).state = .waiting →
      Copier.copy q.heap (q.taskAt entry).register (Copier.new q.heap p.heap w.host.registry) = (.ok v, copier) →
      w'.processes.get? link.process = some p' → (p'.taskAt link.task).state = (q.taskAt entry).state →
      (p'.taskAt link.task).register = v → Delivered w q entry link w'

theorem Orderly.delivered (ho : w.Orderly []) (hw : w.Inv) (hd : w.Passes p q out) :
    w.Delivered p out.task out.link (w.deliver p.id) := by
  obtain ⟨_, _, hwaits, q', v, copier, hcopy, hq', _, hroster⟩ := ho.deliver hw hd
  obtain ⟨hstate, hregister⟩ := Process.taskAt_of_conclude hroster hwaits.index_lt hd.finished
  exact .mk q q' v copier hd.finished hd.receiver (state_of_waits hwaits) hcopy hq' hstate hregister

/-- The result of a task of the process has been delivered at some time. -/
inductive Served (w : World) (id : ProcessId) (entry : TaskId) (link : RemoteLink) : Prop where
  | mk (w₀ : World) (q₀ : Process) : w₀.Arises → w₀.processes.get? id = some q₀ →
      w₀.Delivered q₀ entry link (w₀.deliver id) → (w₀.deliver id).Unfolds w → Served w id entry link

theorem Served.unfolds (h : w.Served id entry link) (hu : w.Unfolds w') : w'.Served id entry link := by
  obtain ⟨w₀, q₀, hw₀, hq₀, hdelivered, hw⟩ := h
  exact .mk w₀ q₀ hw₀ hq₀ hdelivered (hw.trans hu)

/-- The carrier has come to the same end as the task it has waited for. -/
theorem Served.ended (h : w.Served id entry link) (hq : w.processes.get? id = some q) :
    (q.taskAt entry).state.isFinished ∧
      ∃ p, w.processes.get? link.process = some p ∧ (p.taskAt link.task).state = (q.taskAt entry).state := by
  obtain ⟨w₀, q₀, hw₀, hq₀, ⟨p₀, p₁, v, copier, hfin, _, _, _, hp₁, hstate, _⟩, hu⟩ := h
  have hstep : w₀.step 0 (.deliver id) = some (w₀.deliver id) := rfl
  have habides := (hu.abides (hw₀.step hstep)).2
  have hsent := (Unfolds.refl.step hstep).abides hw₀
  obtain ⟨hentry, _⟩ := (hsent.2.trans habides).ended hq₀ hq hfin
  obtain ⟨p, hp, _⟩ := habides _ p₁ hp₁
  obtain ⟨hcarrier, _⟩ := habides.ended hp₁ hp (hstate ▸ hfin)
  exact ⟨hentry ▸ hfin, p, hp, hcarrier.trans (hstate.trans hentry.symm)⟩

/-- Only the first task of the process works for another one. It owes its result until that has been delivered. A scheduler
that has come to its end has left nobody parked. -/
structure Loyal (w : World) (p : Process) : Prop where
  first : ∀ t s link, p.roster.at? t = some s → s.remote = some link → t = ⟨0⟩
  owes : ∀ t s link, p.roster.at? t = some s → s.remote = some link → p.roster.Owes t link ∨ w.Served p.id t link
  retired : p.Retired

theorem Loyal.stays (hp : w.Loyal p) (hw : w.Unfolds w') (hid : p'.id = p.id) (hu : p.roster.Upholds p'.roster)
    (hr : p'.Retired) : w'.Loyal p' := by
  -- a row with a link is an old one
  have hold : ∀ t s' link, p'.roster.at? t = some s' → s'.remote = some link →
      ∃ s, p.roster.at? t = some s ∧ s.remote = some link := by
    intro t s' link hs' hremote
    cases hs : p.roster.at? t with
    | none =>
        rw [hu.newcomers t s' hs' hs] at hremote
        cases hremote
    | some s =>
        obtain ⟨s'', hs'', hlater⟩ := hu.tasks t s hs
        cases hs'.symm.trans hs''
        exact ⟨s, rfl, hlater.remote.symm.trans hremote⟩
  refine ⟨fun t s' link hs' hremote => ?_, fun t s' link hs' hremote => ?_, hr⟩
  · obtain ⟨s, hs, hlink⟩ := hold t s' link hs' hremote
    exact hp.first t s link hs hlink
  · obtain ⟨s, hs, hlink⟩ := hold t s' link hs' hremote
    rw [hid]
    exact (hp.owes t s link hs hlink).imp (hu.owes t link) fun h => h.unfolds hw

theorem Loyal.sends (hp : w.Loyal p) (hw : w.Unfolds w') (hd : w.Passes p q out) (hserved : w'.Served p.id out.task out.link) :
    w'.Loyal (sent p (p.taskAt out.task).register) := by
  obtain ⟨rest, hout⟩ := hd.first
  have hroster := roster_sent p (p.taskAt out.task).register
  have hrows : (sent p (p.taskAt out.task).register).roster.at? = p.roster.at? := by
    funext t
    rw [Roster.at?, hroster]
    rfl
  refine ⟨hrows ▸ hp.first, fun t s link hs hremote => ?_, fun hexited => ?_⟩
  · rw [hrows] at hs
    change _ ∨ w'.Served p.id t link
    rcases hp.owes t s link hs hremote with (⟨s', hs', hpending⟩ | hmem) | hdone
    · exact .inl (.inl ⟨s', hrows ▸ hs', hpending⟩)
    · change ⟨t, link⟩ ∈ p.outgoing at hmem
      rw [hout] at hmem
      rcases List.mem_cons.1 hmem with rfl | hmem
      · exact .inr hserved
      · refine .inl (.inr ?_)
        rw [hroster]
        change ⟨t, link⟩ ∈ p.outgoing.tail
        rw [hout]
        exact hmem
    · exact .inr (hdone.unfolds hw)
  · have hphase : (sent p (p.taskAt out.task).register).phase = p.phase := by
      unfold sent
      cases (p.taskAt out.task).register <;> rfl
    have hwaiting : (sent p (p.taskAt out.task).register).roster.waiting = p.waiting := congrArg Roster.waiting hroster
    exact hwaiting.trans (hp.retired (hphase.symm.trans hexited))

theorem Loyal.step (ih : ∀ id p, w.processes.get? id = some p → w.Loyal p) (hw : w.Arises) (hinv : w.Inv)
    (ho : w.Orderly []) (h : w.step fuel e = some w') (hp' : w'.processes.get? id = some p') : w'.Loyal p' := by
  have hu : w.Unfolds w' := Unfolds.refl.step h
  have hid' := ((hinv.step h).get? hp').2.1
  cases emerges_step hinv ho h hp' with
  | stays p hp hupholds hr =>
      exact (ih id p hp).stays hu (hid'.trans (hinv.get? hp).2.1.symm) hupholds (hr (ih id p hp).retired)
  | sends p q out hid he hd hsent =>
      subst he hsent hid
      cases h
      refine (ih p.id p hd.sender).sends hu hd (.mk w p hw hd.sender (ho.delivered hinv hd) .refl)
  | born link _ hf =>
      refine ⟨fun t s _ hs _ => (hf.row hs).1, fun t s link' hs hremote => .inl ?_, fun _ => hf.waiting⟩
      obtain ⟨rfl, rfl⟩ := hf.row hs
      cases hremote
      exact hf.owes

theorem loyal_main {x : ProcessId} {settings : HeapSettings} {module : ModuleId}
    (h : Unmoved (.main x settings module) p) : w.Loyal p := by
  have hunlinked : ∀ t s, p.roster.at? t = some s → s.remote = none := fun t s hs =>
    ((Process.plain_main x settings module).own t s (h.roster ▸ hs)).unlinked
  refine ⟨fun t s link hs hremote => ?_, fun t s link hs hremote => ?_, fun hexited => ?_⟩
  · rw [hunlinked t s hs] at hremote
    cases hremote
  · rw [hunlinked t s hs] at hremote
    cases hremote
  · rw [h.phase, (Process.main_frame x settings module).2.2] at hexited
    cases hexited

theorem Loyal.handle (ih : ∀ id p, w.processes.get? id = some p → w.Loyal p) (hw : w.Inv) (ho : w.Orderly [])
    (h : w.Handled w') (hp' : w'.processes.get? id = some p') : w'.Loyal p' := by
  have hfollows := h.follows hw ho
  cases hp : w.processes.get? id with
  | none =>
      obtain ⟨x, settings, module, hmain⟩ := hfollows.unmoves.enters id p' hp' hp
      exact loyal_main hmain
  | some p =>
      obtain ⟨p'', hp'', hu⟩ := hfollows.unmoves.stays id p hp
      cases hp'.symm.trans hp''
      have hid : p'.id = p.id := (hfollows.inv.get? hp').2.1.trans (hw.get? hp).2.1.symm
      refine (ih id p hp).stays (Unfolds.refl.handle h) hid (hu.roster ▸ .refl _) fun hexited => ?_
      have hwaiting : p'.waiting = p.waiting := congrArg Roster.waiting hu.roster
      exact hwaiting.trans ((ih id p hp).retired (hu.phase.symm.trans hexited))

theorem Arises.loyal (hw : w.Arises) : ∀ id p, w.processes.get? id = some p → w.Loyal p := by
  obtain ⟨log, hlog⟩ := hw.history
  clear hw
  induction hlog with
  | create h =>
      obtain ⟨_, _, rfl⟩ := eq_of_create h
      intro id p hp
      obtain ⟨_, hslot⟩ := Processes.get?_eq_some.1 hp
      simp at hslot
  | handle h hh ih => exact fun id p' hp' => Loyal.handle ih h.orderly.1 h.orderly.2 hh hp'
  | step h hs ih => exact fun id p' hp' => Loyal.step ih h.arises h.orderly.1 h.orderly.2 hs hp'

/-- Somebody waits for what is owed. -/
theorem Orderly.waits_of_owes (ho : w.Orderly []) (hw : w.Inv) (hq : w.processes.get? id = some q)
    (h : q.roster.Owes t link) : ∃ p, w.processes.get? link.process = some p ∧ p.roster.Waits link.task := by
  have hlinks : link ∈ q.roster.links := by
    rcases h with ⟨s, hs, hremote, hpending⟩ | h
    · refine List.mem_append_left _ (List.mem_flatMap.2 ⟨s, Array.mem_toList_iff.2 (Array.mem_of_getElem? hs), ?_⟩)
      simp [Standing.due, hpending, hremote]
    · exact List.mem_append_right _ (List.mem_map_of_mem (f := Outgoing.link) h)
  have hpledged : link ∈ w.pledges := List.mem_append_right _
    (List.mem_flatMap.2 ⟨q, Array.mem_toList_iff.2 (hw.get? hq).1, List.mem_append_right _ hlinks⟩)
  obtain ⟨p, hp⟩ := (hw.has_of_pledges hpledged).get?
  obtain ⟨hmem, hid, _⟩ := hw.get? hp
  refine ⟨p, hp, ((ho.ordered p hmem).parked link.task).1 (List.mem_append_right _ (mem_due.2 ?_))⟩
  rw [hid, List.append_nil]
  exact hpledged

/-! ## Children -/

/-- A process that another one has started, the task it has begun with, and the carrier of its result. -/
structure Child (w : World) (q : Process) (entry : TaskId) (link : RemoteLink) : Prop where
  there : w.processes.get? q.id = some q
  first : q.entryTask = some entry
  remote : (q.taskAt entry).remote = some link

/-- The carrier has come to its end. -/
def Answered (w : World) (link : RemoteLink) : Prop :=
  ∃ p, w.processes.get? link.process = some p ∧ (p.taskAt link.task).state.isFinished

theorem Child.row (h : w.Child q entry link) : q.roster.at? entry = some (q.taskAt entry).standing :=
  Process.at?_taskAt (Process.index_lt_of_taskAt (P := fun task => task.remote = some link) h.remote nofun)

/-- The process sends this result and no other. -/
theorem Child.sends (hc : w.Child q entry link) (hw : w.Arises) (hd : w.Passes q p out) : out = ⟨entry, link⟩ := by
  obtain ⟨rest, hout⟩ := hd.first
  obtain ⟨task, ht, _, hlink⟩ := (hw.inv.intact q (hw.inv.get? hc.there).1).schedule.owing out (by simp [hout])
  have hloyal := hw.loyal q.id q hc.there
  have hfirst : out.task = entry := (hloyal.first out.task _ out.link (Process.at?_roster_of ht) hlink).trans
    (hloyal.first entry _ link hc.row hc.remote).symm
  have hremote := hc.remote
  rw [← hfirst, Process.taskAt_of_getElem? ht, hlink] at hremote
  cases hremote
  cases hfirst
  rfl

/-- While the result is owed, there is yet none, or it is delivered next, or the task has failed and has nothing to tell. -/
theorem Child.cases_owes (hc : w.Child q entry link) (hw : w.Arises) (h : q.roster.Owes entry link) :
    ¬ (q.taskAt entry).state.isFinished ∨ w.Delivered q entry link (w.deliver q.id) ∨ (q.taskAt entry).Mute := by
  obtain ⟨log, hlog⟩ := hw.history
  obtain ⟨hinv, ho⟩ := hlog.orderly
  rcases h with ⟨s, hs, _, hpending⟩ | hmem
  · cases hs.symm.trans hc.row
    simp only [Standing.pending, Bool.or_eq_true, Bool.not_eq_true'] at hpending
    rcases hpending with hun | hstranded
    · exact .inl (by simpa [Task.standing] using hun)
    · exact .inr (.inr (Task.mute_of_stranded hstranded))
  · rcases hinv.deliver_cases q.id with hnone | ⟨q', p, out, hid, hd⟩
    · have hfetch : w.processes.fetch q.id = q := Processes.fetch_of_get? hc.there
      have hempty : q.roster.outgoing = [] := hfetch ▸ hnone
      rw [hempty] at hmem
      cases hmem
    · have hsame := hd.sender
      rw [← hid, hc.there] at hsame
      cases hsame
      cases hc.sends hw hd
      exact .inr (.inl (ho.delivered hinv hd))

theorem Child.answered_of_served (hc : w.Child q entry link) (h : w.Served q.id entry link) : w.Answered link := by
  obtain ⟨hfin, p, hp, hstate⟩ := h.ended hc.there
  exact ⟨p, hp, hstate ▸ hfin⟩

theorem Answered.not_owes (ha : w.Answered link) (hw : w.Arises) (hq : w.processes.get? id = some q) :
    ¬ q.roster.Owes t link := by
  intro h
  obtain ⟨log, hlog⟩ := hw.history
  obtain ⟨p, hp, hfin⟩ := ha
  obtain ⟨p', hp', hwaits⟩ := hlog.orderly.2.waits_of_owes hlog.orderly.1 hq h
  cases hp.symm.trans hp'
  rw [state_of_waits hwaits] at hfin
  cases hfin

/-- Of all events, only the delivery of the result ends the carrier. -/
theorem Child.answered_step (hc : w.Child q entry link) (hw : w.Arises) (h : w.step fuel e = some w')
    (ha : w'.Answered link) : w.Answered link ∨ e = .deliver q.id ∧ w.Delivered q entry link w' := by
  obtain ⟨log, hlog⟩ := hw.history
  obtain ⟨hinv, ho⟩ := hlog.orderly
  rcases (hw.loyal q.id q hc.there).owes entry _ link hc.row hc.remote with howes | hserved
  · obtain ⟨q', hq', _⟩ := (ho.step hinv h).2 q.id q hc.there
    cases emerges_step hinv ho h hq' with
    | stays p hp hupholds _ =>
        cases hp.symm.trans hc.there
        exact absurd (hupholds.owes entry link howes) (ha.not_owes (hw.step h) hq')
    | sends p r out hid he hd hsent =>
        have hsame := hd.sender
        rw [← hid, hc.there] at hsame
        cases hsame
        cases hc.sends hw hd
        subst he
        cases h
        exact .inr ⟨rfl, ho.delivered hinv hd⟩
    | born _ hnone _ => cases hnone.symm.trans hc.there
  · exact .inl (hc.answered_of_served hserved)

/-- Nothing that is done from outside ends the carrier. -/
theorem Child.answered_handle (hc : w.Child q entry link) (hw : w.Arises) (h : w.Handled w') (ha : w'.Answered link) :
    w.Answered link := by
  obtain ⟨log, hlog⟩ := hw.history
  rcases (hw.loyal q.id q hc.there).owes entry _ link hc.row hc.remote with howes | hserved
  · obtain ⟨q', hq', hu⟩ := (h.follows hlog.orderly.1 hlog.orderly.2).unmoves.stays q.id q hc.there
    exact absurd (hu.roster.symm ▸ howes) (ha.not_owes (h.arises hw) hq')
  · exact hc.answered_of_served hserved

/-- A process that is started has a carrier, to which it gives its result once, in whatever order things happen. The carrier
is parked, and the scheduler of its process has not come to its end, until the result has been delivered; and then the
carrier has come to the end that the first task of the process has come to, by a delivery that has given it a copy of the
result. Nothing else ends the carrier, and what it has ended with stays. The delivery is next as soon as the task has ended,
unless the task has failed with something that is no object, of which nobody can be told. -/
theorem child_results_delivered (hw : w.Arises) (hc : w.Child q entry link) :
    (∀ callee argument m x m', Machine.spawn callee argument m = (.ok x, m') → m.Starts x.1 m') ∧
    (∃ p, w.processes.get? link.process = some p ∧
      ((p.taskAt link.task).state = .waiting ∧ link.task ∈ p.waiting ∧ p.phase ≠ .exited ∧
          (¬ (q.taskAt entry).state.isFinished ∨ w.Delivered q entry link (w.deliver q.id) ∨ (q.taskAt entry).Mute) ∨
        (q.taskAt entry).state.isFinished ∧ (p.taskAt link.task).state = (q.taskAt entry).state ∧
          w.Served q.id entry link)) ∧
    (∀ w', w.Handled w' → w'.Answered link → w.Answered link) ∧
    (∀ fuel e w', w.step fuel e = some w' → w'.Answered link →
      w.Answered link ∨ e = .deliver q.id ∧ w.Delivered q entry link w') ∧
    ∀ w' p p', w.Unfolds w' → w.processes.get? link.process = some p → (p.taskAt link.task).state.isFinished →
      w'.processes.get? link.process = some p' →
      (p'.taskAt link.task).state = (p.taskAt link.task).state ∧
        (p'.taskAt link.task).register = (p.taskAt link.task).register := by
  obtain ⟨log, hlog⟩ := hw.history
  obtain ⟨hinv, ho⟩ := hlog.orderly
  refine ⟨fun callee argument m _ _ h => (Machine.wp_spawn callee argument m).ok h, ?_,
    fun w' h => hc.answered_handle hw h, fun fuel e w' h => hc.answered_step hw h,
    fun w' p p' h hp hfin hp' => (h.abides hw).2.ended hp hp' hfin⟩
  rcases (hw.loyal q.id q hc.there).owes entry _ link hc.row hc.remote with howes | hserved
  · obtain ⟨p, hp, hwaits⟩ := ho.waits_of_owes hinv hc.there howes
    have hlisted : link.task ∈ p.waiting := (ho.ordered p (hinv.get? hp).1).waits _ hwaits
    refine ⟨p, hp, .inl ⟨state_of_waits hwaits, hlisted, fun hexited => ?_, hc.cases_owes hw howes⟩⟩
    rw [(hw.loyal link.process p hp).retired hexited] at hlisted
    cases hlisted
  · obtain ⟨hfin, p, hp, hstate⟩ := hserved.ended hc.there
    exact ⟨p, hp, .inr ⟨hfin, hstate, hserved⟩⟩

/-- Futures pass for errors here. A process starts another one and waits for it, and that one raises a future. -/
def relaying : CompiledModule :=
  { name := "relaying"
    tape := { instructions := #[⟨.push, .name "Future"⟩, ⟨.push, .name "Error"⟩, ⟨.tuple, .scalar (.int 2)⟩,
      ⟨.call, .name "$__set_super"⟩, ⟨.load, .name "relay"⟩, ⟨.call, .name "Process"⟩, ⟨.member, .name "start"⟩,
      ⟨.callBare, .none⟩, ⟨.ret, .none⟩, ⟨.load, .name "worker"⟩, ⟨.call, .name "Process"⟩, ⟨.member, .name "start"⟩,
      ⟨.callBare, .none⟩, ⟨.wait, .none⟩, ⟨.ret, .none⟩, ⟨.callBare, .name "g"⟩, ⟨.raise, .none⟩, ⟨.ret, .none⟩] }
    functions := #[{ name := "relay", start := 9 }, { name := "worker", start := 15 },
      { name := "g", start := 17, flags := { async := true } }] }

/-- The worker has failed, and the relay with it. -/
def relayed : World :=
  (play 99 (fun _ => true) [.tick ⟨1⟩, .tick ⟨1⟩, .tick ⟨2⟩, .tick ⟨2⟩, .tick ⟨3⟩, .deliver ⟨3⟩, .tick ⟨2⟩, .tick ⟨3⟩,
    .tick ⟨3⟩] (startMain "relaying" (register relaying {}).2).2).get (by decide +kernel)

theorem arises_relayed : relayed.Arises :=
  Arises.play (.startMain "relaying" (.register relaying (.create (r := {}) rfl))) (Option.some_get _).symm

theorem child_results_delivered_relayed : relayed.Arises ∧ ∃ q, relayed.Child q ⟨0⟩ ⟨⟨2⟩, ⟨1⟩⟩ ∧
    (q.taskAt ⟨0⟩).state = .error ∧ relayed.Served q.id ⟨0⟩ ⟨⟨2⟩, ⟨1⟩⟩ := by
  have hworker : ((relayed.processes.get? ⟨3⟩).map fun q => (q.id, q.entryTask, (q.taskAt ⟨0⟩).remote, (q.taskAt ⟨0⟩).state))
      = some (⟨3⟩, some ⟨0⟩, some ⟨⟨2⟩, ⟨1⟩⟩, .error) := by decide +kernel
  obtain ⟨q, hq, hlook⟩ := Option.map_eq_some_iff.1 hworker
  simp only [Prod.mk.injEq] at hlook
  obtain ⟨hid, hentry, hremote, hstate⟩ := hlook
  have hcarrier : ((relayed.processes.get? ⟨2⟩).map fun p => (p.taskAt ⟨1⟩).state) = some .error := by decide +kernel
  obtain ⟨p, hp, hended⟩ := Option.map_eq_some_iff.1 hcarrier
  have hchild : relayed.Child q ⟨0⟩ ⟨⟨2⟩, ⟨1⟩⟩ := ⟨hid ▸ hq, hentry, hremote⟩
  obtain ⟨_, ⟨p', hp', hcases⟩, _⟩ := child_results_delivered arises_relayed hchild
  cases hp.symm.trans hp'
  rcases hcases with ⟨hwaiting, _⟩ | ⟨_, _, hserved⟩
  · cases hended.symm.trans hwaiting
  · exact ⟨arises_relayed, q, hchild, hstate, hserved⟩

/-- The relay has come to its end, and nothing can happen any more, but the carrier of its result still waits. -/
theorem child_result_lost : ∃ w q entry link, Arises w ∧ w.Child q entry link ∧ (q.taskAt entry).state.isFinished ∧
    w.nextEvent? = none ∧ ∃ p, w.processes.get? link.process = some p ∧ (p.taskAt link.task).state = .waiting := by
  have hrelay : ((relayed.processes.get? ⟨2⟩).map fun q => (q.id, q.entryTask, (q.taskAt ⟨0⟩).remote, (q.taskAt ⟨0⟩).state))
      = some (⟨2⟩, some ⟨0⟩, some ⟨⟨1⟩, ⟨1⟩⟩, .error) := by decide +kernel
  obtain ⟨q, hq, hlook⟩ := Option.map_eq_some_iff.1 hrelay
  simp only [Prod.mk.injEq] at hlook
  obtain ⟨hid, hentry, hremote, hstate⟩ := hlook
  have hcarrier : ((relayed.processes.get? ⟨1⟩).map fun p => (p.taskAt ⟨1⟩).state) = some .waiting := by decide +kernel
  obtain ⟨p, hp, hwaiting⟩ := Option.map_eq_some_iff.1 hcarrier
  exact ⟨relayed, q, ⟨0⟩, ⟨⟨1⟩, ⟨1⟩⟩, arises_relayed, ⟨hid ▸ hq, hentry, hremote⟩, hstate ▸ rfl, by decide +kernel, p, hp,
    hwaiting⟩

end World

end Spool
