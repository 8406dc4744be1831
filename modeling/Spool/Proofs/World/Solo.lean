import Spool.Proofs.Machine.Solo
import Spool.Proofs.World.History

/-!
# Main processes by themselves

The run of a main process that hands nothing to the background pool and starts no other process. Nobody else has to do
with such a process: its scheduler makes rounds, and nothing else moves it.
-/

namespace Spool

theorem Process.plain_main (id : ProcessId) (settings : HeapSettings) (module : ModuleId) :
    (main id settings module).roster.Plain none := by
  refine ⟨ordered_main id settings module, ?_⟩
  rw [roster_main, roster_seeded]
  exact Roster.forall_add (by simp [Roster.at?]) ⟨rfl, by simp [Standing.stranded], by simp⟩

theorem Process.unlinked_of_plain {p : Process} {cur : Option TaskId} (hp : p.roster.Plain cur) :
    ∀ task ∈ p.tasks, task.remote = none := by
  intro task ht
  obtain ⟨i, hi⟩ := Array.mem_iff_getElem?.1 ht
  exact (hp.own ⟨i⟩ _ (at?_roster_of (t := ⟨i⟩) hi)).unlinked

namespace World

variable {w w' : World} {id x : ProcessId} {p q : Process} {fuel : Nat} {e : Event} {ok : World → Prop}

/-- The process has handed nothing to the background pool and has started no other process. -/
structure Alone (id : ProcessId) (w : World) : Prop where
  jobs : ∀ call ∈ w.host.pool.jobs, call.process ≠ id
  completions : ∀ p, w.processes.get? id = some p → p.completions = []
  awaits : ∀ t, ¬ w.Awaits id t

theorem alone_iff : w.Alone id ↔ (w.host.pool.jobs.all fun call => call.process ≠ id) ∧
    ((w.processes.get? id).all fun p => p.completions.isEmpty) ∧
    w.processes.items.all fun q => q.tasks.all fun task => task.remote.all fun link => link.process ≠ id := by
  simp only [List.all_eq_true, Option.all_eq_true, Array.all_eq_true_iff_forall_mem, decide_eq_true_eq, List.isEmpty_iff]
  constructor
  · rintro ⟨hjobs, hc, ha⟩
    refine ⟨hjobs, hc, fun q hq task ht link hlink hid => ha link.task ⟨q, hq, task, ht, ?_⟩⟩
    rw [hlink, ← hid]
  · rintro ⟨hjobs, hc, ha⟩
    refine ⟨hjobs, hc, ?_⟩
    rintro t ⟨q, hq, task, ht, hremote⟩
    exact ha q hq task ht _ hremote rfl

instance decidableAlone : Decidable (w.Alone id) := decidable_of_iff _ alone_iff.symm

/-- A world that has come about since a main process was started, where `ok` has held of all worlds on the way. -/
inductive Since (ok : World → Prop) (id : ProcessId) : World → Prop where
  | start {w w' : World} {name : String} : w.Arises → startMain name w = (.ok id, w') → ok w' → Since ok id w'
  | handle {w w' : World} : Since ok id w → Handled w w' → ok w' → Since ok id w'
  | step {w w' : World} {fuel : Nat} {e : Event} : Since ok id w → w.step fuel e = some w' → ok w' → Since ok id w'

theorem startMain_of_toOption {name : String} (h : (startMain name w).1.toOption = some id) :
    startMain name w = (.ok id, (startMain name w).2) := by
  refine Prod.ext ?_ rfl
  cases hs : (startMain name w).1 with
  | error e =>
      rw [hs] at h
      cases h
  | ok x =>
      rw [hs] at h
      cases h
      rfl

theorem Since.of_toOption {name : String} (hw : w.Arises) (h : (startMain name w).1.toOption = some id)
    (hok : ok (startMain name w).2) : Since ok id (startMain name w).2 :=
  .start hw (startMain_of_toOption h) hok

theorem Since.arises (h : Since ok id w) : w.Arises := by
  induction h with
  | @start w w' name hw hs _ =>
      have := hw.startMain name
      rw [hs] at this
      exact this
  | handle _ hh _ ih => exact hh.arises ih
  | step _ hs _ ih => exact ih.step hs

theorem Since.orderly (h : Since ok id w) : w.Inv ∧ w.Orderly [] := by
  obtain ⟨log, hlog⟩ := h.arises.history
  exact hlog.orderly

theorem Since.holds (h : Since ok id w) : ok w := by
  cases h with
  | start _ _ h => exact h
  | handle _ _ h => exact h
  | step _ _ h => exact h

theorem Since.play (h : Since ok id w) {check : World → Bool} (hc : ∀ w, check w → ok w) {events : List Event}
    (hp : play fuel check events w = some w') : Since ok id w' := by
  induction events generalizing w with
  | nil =>
      cases hp
      exact h
  | cons e rest ih =>
      obtain ⟨w₁, hstep, hrest⟩ := Option.bind_eq_some_iff.1 hp
      split at hrest
      · exact ih (h.step hstep (hc w₁ ‹_›)) hrest
      · cases hrest

/-! ## Nobody else -/

theorem Inv.get?_id (hw : w.Inv) (hp : p ∈ w.processes.items) : w.processes.get? p.id = some p := by
  obtain ⟨i, hi⟩ := Array.mem_iff_getElem?.1 hp
  rw [hw.ids i p hi]
  exact Processes.get?_eq_some.2 ⟨Nat.succ_ne_zero i, hi⟩

/-- Nothing is pledged to a process by itself. -/
theorem Alone.due (ha : w.Alone id) (hw : w.Inv) : Spool.due id w.pledges = [] := by
  refine due_eq_nil fun link hlink hid => ?_
  rcases List.mem_append.1 hlink with h | h
  · obtain ⟨call, hc, rfl⟩ := List.mem_map.1 h
    exact ha.jobs call hc hid
  · obtain ⟨q, hq, h⟩ := List.mem_flatMap.1 h
    have hq := Array.mem_toList_iff.1 hq
    rcases List.mem_append.1 h with h | h
    · obtain ⟨t, ht, rfl⟩ := List.mem_map.1 h
      obtain ⟨c, hc, rfl⟩ := List.mem_map.1 ht
      have := ha.completions q (hid ▸ hw.get?_id hq)
      rw [this] at hc
      cases hc
    · obtain ⟨task, ht, hremote⟩ := hw.remote_of_links hq h
      refine ha.awaits link.task ⟨q, hq, task, ht, ?_⟩
      rw [hremote, ← hid]

/-- The process has been left alone by what a round has done. -/
theorem Alone.view {m : Machine} (ha : (w.settle id m).Alone id) (hw : (w.settle id m).Inv)
    (hp : w.processes.get? id = some p) (hid : m.process.id = id) : m.view.Alone := by
  have hdue := ha.due hw
  have hperm := due_perm id (pledges_settle hp m)
  rw [hdue, due_append] at hperm
  have hnil := (List.append_eq_nil_iff.1 hperm.symm.eq_nil).1
  rw [Machine.View.Alone, show m.view.id = id from hid]
  exact hnil

/-- Only rounds of its own scheduler move the process. -/
theorem Alone.get?_step (ha : w.Alone id) (hw : w.Inv) (hp : w.processes.get? id = some p)
    (hremote : ∀ task ∈ p.tasks, task.remote = none) (hs : w.step fuel e = some w') (he : e ≠ .tick id) :
    w'.processes.get? id = some p := by
  cases e with
  | tick x =>
      have hx : id ≠ x := fun h => he (h ▸ rfl)
      rcases tick_cases hs with ⟨rfl, _⟩ | ⟨q, m, hq, _, hrun, rfl⟩
      · exact hp
      · rw [get?_settle hq m hp, if_neg hx]
  | deliver x =>
      cases hs
      rcases hw.deliver_cases x with hnone | ⟨q, receiver, out, rfl, hd⟩
      · rw [deliver_eq_self hnone]
        exact hp
      · obtain ⟨rest, hout⟩ := hd.first
        have hqmem := (hw.get? hd.sender).1
        obtain ⟨task, ht, _, hlink⟩ := (hw.intact q hqmem).schedule.owing out (by simp [hout])
        have hsender : id ≠ q.id := by
          rintro rfl
          cases hp.symm.trans hd.sender
          rw [hremote task (Array.mem_of_getElem? ht)] at hlink
          cases hlink
        have hreceiver : id ≠ out.link.process := by
          rintro rfl
          exact ha.awaits out.link.task ⟨q, hqmem, task, Array.mem_of_getElem? ht, hlink⟩
        rw [hd.deliver_eq, Processes.get?_set hd.get?_sending, if_neg hreceiver, sending,
          Processes.get?_set hd.sender, if_neg hsender]
        exact hp
  | engage worker =>
      cases hs
      unfold World.engage
      split
      · exact hp
      · dsimp only
        split <;> exact hp
  | complete alarm =>
      cases hs
      unfold World.complete
      split
      · rename_i call hrunning
        have hcall : call ∈ w.host.pool.jobs := (Pool.jobs_finish hrunning).mem_iff.1 List.mem_cons_self
        obtain ⟨q, hq⟩ := (hw.calls call hcall).get?
        change (w.processes.modify call.process _).get? id = _
        rw [Processes.modify_eq_set hq, Processes.get?_set hq, if_neg (ha.jobs call hcall).symm]
        exact hp
      · exact hp

/-- An event makes a round of the scheduler, or leaves the process where it was. -/
theorem Alone.step_cases (ha : w.Alone id) (hw : w.Inv) (hp : w.processes.get? id = some p)
    (hremote : ∀ task ∈ p.tasks, task.remote = none) (hs : w.step fuel e = some w') :
    (∃ p', w'.processes.get? id = some p' ∧ Unmoved p p') ∨ ∃ m,
      Machine.tick fuel { host := w.host, process := awaken p, task := ⟨0⟩ } = some m ∧ w' = w.settle id m := by
  by_cases he : e = .tick id
  · subst he
    rcases tick_cases hs with ⟨rfl, _⟩ | ⟨q, m, hq, _, hrun, rfl⟩
    · exact .inl ⟨p, hp, .refl p⟩
    · cases hp.symm.trans hq
      exact .inr ⟨m, hrun, rfl⟩
  · exact .inl ⟨p, ha.get?_step hw hp hremote hs he, .refl p⟩

/-- A round is the turn of a task, or there is no task to run. -/
theorem Alone.round {m : Machine} (ha : w.Alone id) (hw : w.Inv) (ho : w.Orderly []) (hp : w.processes.get? id = some p)
    (hrun : Machine.tick fuel { host := w.host, process := awaken p, task := ⟨0⟩ } = some m)
    (ha' : (w.settle id m).Alone id)
    (hk : p.heap.Knows (fun _ => False) ∧ ¬ m.host.registry.HasAsync ∨ m.process.roster.Prompt) :
    (p.heap.Knows (fun _ => False) → ¬ m.host.registry.HasAsync → m.process.heap.Knows (fun _ => False)) ∧
    (p.roster.queue = [] ∧ m.process.roster = p.roster ∧ m.process.phase = Machine.phaseAfter false m.process ∨
      ∃ t queue, p.roster.queue = t :: queue ∧ m.process.phase = .active ∧
        Roster.Turn m.host.registry.HasAsync t { p.roster with queue } m.process.roster) := by
  have hinv := hw.awaken (hw.get? hp).1 ⟨0⟩
  have hview := view_awaken w.host p ⟨0⟩
  have hheap : (World.awaken p).heap = p.heap := by
    unfold World.awaken
    split <;> rfl
  have hinv' := Machine.inv_tick hinv hrun
  have hid : m.process.id = id := hinv'.id.trans (hw.get? hp).2.1
  have hc : ({ host := w.host, process := World.awaken p, task := ⟨0⟩ } : Machine).view.roster.completions = [] := by
    rw [hview]
    exact List.map_eq_nil_iff.2 (ha.completions p hp)
  have hround := Machine.plain_tick hinv (ho.awaken hw hp ⟨0⟩) hc hrun (ha'.view (hw.settle hp hinv') hp hid) ?_
  · rw [hview] at hround
    refine ⟨fun hk₁ hk₂ => (hround.1 ⟨?_, hk₂⟩).1, hround.2⟩
    rw [hheap]
    exact hk₁
  · unfold Machine.Direct
    rw [hheap]
    exact hk

/-! ## The whole run -/

theorem bind_apply {α β : Type} (act : Setup α) (k : α → Setup β) (w : World) :
    (act >>= k) w = match act w with
      | (.ok a, w') => k a w'
      | (.error e, w') => (.error e, w') := by
  change (match act w with | (r, w') => ExceptT.bindCont k r w') = _
  rcases act w with ⟨_ | _, _⟩ <;> rfl

/-- The process that has been started. -/
theorem startMain_get? (hw : w.Inv) {name : String} (h : startMain name w = (.ok id, w')) :
    ∃ settings module, w'.processes.get? id = some (.main id settings module) := by
  have hrun : startMain name w = (onRegistry (w.host.library.resolve name) >>= fun module => modifyGet fun w =>
      let p := Process.main ⟨w.host.born + 1⟩ w.host.heapSettings module
      (p.id, { w with
        host := { w.host with born := w.host.born + 1 }
        processes := w.processes.push p }) : Setup ProcessId) w := rfl
  rw [hrun, bind_apply] at h
  rcases hreg : onRegistry (w.host.library.resolve name) w with ⟨_ | module, w₁⟩
  · rw [hreg] at h
    cases h
  · rw [hreg] at h
    obtain ⟨hid, rfl⟩ := Prod.mk.inj h
    have hborn : (onRegistry (w.host.library.resolve name) w).2.host.born
        = (onRegistry (w.host.library.resolve name) w).2.processes.items.size := hw.born
    rw [hreg] at hborn
    cases hid
    rw [(Process.main_frame ⟨w₁.host.born + 1⟩ w₁.host.heapSettings module).1]
    refine ⟨w₁.host.heapSettings, module, Processes.get?_eq_some.2 ⟨Nat.succ_ne_zero _, ?_⟩⟩
    simp [Processes.push, ProcessId.slot, show w₁.host.born = w₁.processes.items.size from hborn]

/-- What holds of a new main process, and is kept by every round of its scheduler, holds all the time. -/
theorem Since.invariant {J : Process → Prop} (hstart : ∀ settings module, J (.main id settings module))
    (hunmoved : ∀ p p', Unmoved p p' → J p → J p')
    (hremote : ∀ p, J p → ∀ task ∈ p.tasks, task.remote = none)
    (hok : ∀ w, ok w → w.Alone id)
    (hround : ∀ {w : World} {p m} {fuel : Nat}, Since ok id w → w.processes.get? id = some p → J p →
      Machine.tick fuel { host := w.host, process := awaken p, task := ⟨0⟩ } = some m → ok (w.settle id m) → J m.process)
    (h : Since ok id w) : ∃ p, w.processes.get? id = some p ∧ J p := by
  induction h with
  | start hw hs _ =>
      obtain ⟨settings, module, hp⟩ := startMain_get? hw.inv hs
      exact ⟨_, hp, hstart settings module⟩
  | handle h hh _ ih =>
      obtain ⟨hw, ho⟩ := h.orderly
      obtain ⟨p, hp, hj⟩ := ih
      obtain ⟨p', hp', hu⟩ := (hh.follows hw ho).unmoves.stays id p hp
      exact ⟨p', hp', hunmoved p p' hu hj⟩
  | step h hs hok' ih =>
      obtain ⟨hw, ho⟩ := h.orderly
      obtain ⟨p, hp, hj⟩ := ih
      rcases (hok _ h.holds).step_cases hw hp (hremote p hj) hs with ⟨p', hp', hu⟩ | ⟨m, hrun, rfl⟩
      · exact ⟨p', hp', hunmoved p p' hu hj⟩
      · have hget := get?_settle hp m hp
        rw [if_pos rfl] at hget
        exact ⟨m.process, hget, hround h hp hj hrun hok'⟩

end World

end Spool
