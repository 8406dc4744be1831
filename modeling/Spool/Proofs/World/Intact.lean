import Spool.World.Event
import Spool.Proofs.Machine.Going

/-!
# Worlds that are intact

Every process of a world is intact, given what the background pool and the other processes have to do with it. A
process that runs on its own sees the rest of the world as its outlook, and what it leaves behind is an intact world
again.
-/

namespace Spool

namespace Processes

variable {ps : Processes} {id : ProcessId} {p : Process}

theorem get?_eq_some : ps.get? id = some p ↔ id.number ≠ 0 ∧ ps.items[id.slot]? = some p := by
  unfold get?
  split
  · rename_i h
    simp [h]
  · rename_i h
    simp [h]

theorem fetch_of_get? (hp : ps.get? id = some p) : ps.fetch id = p := by
  simp [fetch, hp]

theorem foldl_push (children : List Process) (ps : Processes) : (children.foldl push ps).items = ps.items ++ children.toArray := by
  induction children generalizing ps with
  | nil => simp
  | cons child rest ih =>
      rw [List.foldl_cons, ih]
      simp [push]

theorem getElem?_set (hp : ps.get? id = some p) (p' : Process) (i : Nat) :
    (ps.set id p').items[i]? = if i = id.slot then some p' else ps.items[i]? := by
  obtain ⟨hn, hp⟩ := get?_eq_some.1 hp
  simp only [set, modify, if_neg hn, Array.getElem?_modify]
  by_cases hi : id.slot = i
  · subst hi
    simp [hp]
  · rw [if_neg hi, if_neg (Ne.symm hi)]

theorem get?_set (hp : ps.get? id = some p) (p' : Process) (x : ProcessId) :
    (ps.set id p').get? x = if x = id then some p' else ps.get? x := by
  by_cases hx : x = id
  · subst hx
    rw [if_pos rfl]
    exact get?_eq_some.2 ⟨(get?_eq_some.1 hp).1, by rw [getElem?_set hp, if_pos rfl]⟩
  · rw [if_neg hx]
    have hn := (get?_eq_some.1 hp).1
    by_cases hzero : x.number = 0
    · simp [get?, hzero]
    · have hslot : x.slot ≠ id.slot := by
        obtain ⟨a⟩ := x
        obtain ⟨b⟩ := id
        simp only [ProcessId.slot, ProcessId.mk.injEq] at hx hn hzero ⊢
        omega
      simp only [get?, if_neg hzero, getElem?_set hp, if_neg hslot]

theorem modify_eq_set (hp : ps.get? id = some p) (f : Process → Process) : ps.modify id f = ps.set id (f p) := by
  obtain ⟨hn, hp⟩ := get?_eq_some.1 hp
  simp only [set, modify, if_neg hn, mk.injEq]
  apply Array.ext_getElem?
  intro i
  simp only [Array.getElem?_modify]
  by_cases hi : id.slot = i
  · subst hi
    simp [hp]
  · simp [hi]

theorem set_of_get?_eq_none (hp : ps.get? id = none) (p : Process) : ps.set id p = ps := by
  unfold set modify
  split
  · rfl
  · rename_i hn
    rw [get?, if_neg hn] at hp
    have hsame : ps.items.modify id.slot (fun _ => p) = ps.items := by
      apply Array.ext_getElem?
      intro i
      rw [Array.getElem?_modify]
      split
      · rename_i hi
        rw [← hi, hp]
        rfl
      · rfl
    rw [hsame]

theorem size_set (ps : Processes) (id : ProcessId) (p : Process) : (ps.set id p).items.size = ps.items.size := by
  unfold set modify
  split
  · rfl
  · simp

end Processes

namespace World

variable {w w' : World} {id : ProcessId} {p q : Process}

/-- There is such a process. -/
def Has (w : World) (id : ProcessId) : Prop := 0 < id.number ∧ id.number ≤ w.processes.items.size

/-- Tasks of a process that other processes send results to. -/
def Awaits (w : World) (id : ProcessId) (t : TaskId) : Prop :=
  ∃ other ∈ w.processes.items, ∃ task ∈ other.tasks, task.remote = some ⟨id, t⟩

/-- What the rest of the world has to do with a process. -/
def ledger (w : World) (p : Process) : Ledger :=
  { calls := w.host.pool.jobs.filter fun call => call.process = p.id
    carriers := fun t => w.Awaits p.id t ∨ (∃ call ∈ w.host.pool.jobs, call.process = p.id ∧ call.carrier = t) ∨
      ∃ c ∈ p.completions, c.task = t
    links := fun link => link.process ≠ p.id ∧ w.Has link.process }

structure Inv (w : World) : Prop where
  calm : w.host.registry.Calm
  settled : w.host.nursery = []
  born : w.host.born = w.processes.items.size
  ids : ∀ (i : Nat) p, w.processes.items[i]? = some p → p.id = ⟨i + 1⟩
  calls : ∀ call ∈ w.host.pool.jobs, w.Has call.process
  intact : ∀ p ∈ w.processes.items, p.Intact none (w.ledger p)
  staffed : w.host.pool.Staffed

/-- The world as a process sees it when it begins to run. -/
def outlook (w : World) (p : Process) : Outlook :=
  { id := p.id
    born := w.host.born
    calls := w.host.pool.jobs.filter fun call => call.process ≠ p.id
    pledged := w.Awaits p.id
    links := fun link => ∃ task ∈ p.tasks, task.remote = some link }

theorem Inv.get? (hw : w.Inv) (hp : w.processes.get? id = some p) :
    p ∈ w.processes.items ∧ p.id = id ∧ w.processes.items[id.slot]? = some p := by
  obtain ⟨hn, hp⟩ := Processes.get?_eq_some.1 hp
  refine ⟨Array.mem_of_getElem? hp, ?_, hp⟩
  rw [hw.ids _ p hp]
  obtain ⟨number⟩ := id
  simp only [ProcessId.slot, ProcessId.mk.injEq] at hn ⊢
  omega

theorem Inv.has (hw : w.Inv) (hp : p ∈ w.processes.items) : w.Has p.id := by
  obtain ⟨i, hi⟩ := Array.mem_iff_getElem?.1 hp
  rw [hw.ids i p hi]
  exact ⟨Nat.succ_pos i, (Array.getElem?_eq_some_iff.1 hi).1⟩

theorem Has.get? (hw : w.Has id) : ∃ p, w.processes.get? id = some p := by
  have hlt : id.slot < w.processes.items.size := by
    have := hw.2
    have := hw.1
    unfold ProcessId.slot
    omega
  exact ⟨_, Processes.get?_eq_some.2 ⟨Nat.ne_of_gt hw.1, Array.getElem?_eq_getElem hlt⟩⟩

theorem Has.mono (hw : w.Has id) (hs : w.processes.items.size ≤ w'.processes.items.size) : w'.Has id :=
  ⟨hw.1, Nat.le_trans hw.2 hs⟩

/-- The process by itself. -/
theorem Inv.machine (hw : w.Inv) (hp : p ∈ w.processes.items) (t : TaskId) :
    ({ host := w.host, process := p, task := t } : Machine).Inv (w.outlook p) none [] := by
  have hi := hw.intact p hp
  refine ⟨⟨hi.fit, hi.anchored, hi.schedule.mono fun x hx => ?_, fun x task link hx hlink => ?_⟩, rfl, ?_⟩
  · rcases hx with hx | hx | hx | ⟨child, hchild, _⟩
    · exact .inl hx
    · exact .inr (.inl hx)
    · exact .inr (.inr hx)
    · have hnone : w.host.nursery = [] := hw.settled
      change child ∈ w.host.nursery at hchild
      rw [hnone] at hchild
      cases hchild
  · exact ⟨task, Array.mem_of_getElem? hx, hlink⟩
  · refine ⟨hw.calm, .refl _, ?_, ?_, ?_, hw.staffed⟩
    · change w.host.born = w.host.born + w.host.nursery.length
      simp [hw.settled]
    · change ∀ i child, w.host.nursery[i]? = some child → _
      simp [hw.settled]
    · change ∀ child ∈ w.host.nursery, _
      simp [hw.settled]

/-- The process has come back. -/
def settle (w : World) (id : ProcessId) (m : Machine) : World :=
  settleNursery { w with host := m.host, processes := w.processes.set id m.process }

theorem processes_settle (hp : w.processes.get? id = some p) (m : Machine) {i : Nat}
    (hq : (w.settle id m).processes.items[i]? = some q) :
    i = id.slot ∧ q = m.process ∨ i ≠ id.slot ∧ w.processes.items[i]? = some q ∨
      ∃ j, i = w.processes.items.size + j ∧ m.host.nursery[j]? = some q := by
  change (m.host.nursery.foldl Processes.push (w.processes.set id m.process)).items[i]? = some q at hq
  rw [Processes.foldl_push, Array.getElem?_append] at hq
  split at hq
  · rw [Processes.getElem?_set hp] at hq
    split at hq
    · exact .inl ⟨‹_›, (Option.some.inj hq).symm⟩
    · exact .inr (.inl ⟨‹_›, hq⟩)
  · rename_i hle
    rw [Processes.size_set] at hle hq
    exact .inr (.inr ⟨i - w.processes.items.size, by omega, by simpa using hq⟩)

theorem size_settle (w : World) (id : ProcessId) (m : Machine) :
    (w.settle id m).processes.items.size = w.processes.items.size + m.host.nursery.length := by
  change (m.host.nursery.foldl Processes.push (w.processes.set id m.process)).items.size = _
  rw [Processes.foldl_push]
  simp [Processes.size_set]

/-- Results are sent to other processes that are there. -/
theorem Inv.linked (hw : w.Inv) (hp : p ∈ w.processes.items) {task : Task} (ht : task ∈ p.tasks) {link : RemoteLink}
    (hl : task.remote = some link) : link.process ≠ p.id ∧ w.Has link.process := by
  obtain ⟨i, hi⟩ := Array.mem_iff_getElem?.1 ht
  exact (hw.intact p hp).linked ⟨i⟩ task link hi hl

theorem Inv.has_of_awaits (hw : w.Inv) {t : TaskId} (ha : w.Awaits id t) : w.Has id := by
  obtain ⟨other, ho, task, ht, hl⟩ := ha
  exact (hw.linked ho ht hl).2

/-- Who waits for results from elsewhere after a process has run. -/
theorem Inv.awaits_settle (hw : w.Inv) (hp : w.processes.get? id = some p) {m : Machine}
    (hm : m.Inv (w.outlook p) none []) {x : ProcessId} {t : TaskId} (ha : (w.settle id m).Awaits x t) :
    w.Awaits x t ∨ x = p.id ∧ ∃ child ∈ m.host.nursery, ∃ task ∈ child.tasks, task.remote = some ⟨p.id, t⟩ := by
  obtain ⟨other, ho, task, ht, hl⟩ := ha
  obtain ⟨i, hi⟩ := Array.mem_iff_getElem?.1 ho
  rcases processes_settle hp m hi with ⟨_, rfl⟩ | ⟨_, hold⟩ | ⟨j, _, hchild⟩
  · obtain ⟨k, hk⟩ := Array.mem_iff_getElem?.1 ht
    obtain ⟨task', ht', hl'⟩ := hm.intact.linked ⟨k⟩ task _ hk hl
    exact .inl ⟨p, (hw.get? hp).1, task', ht', hl'⟩
  · exact .inl ⟨other, Array.mem_of_getElem? hold, task, ht, hl⟩
  · have hmem := List.mem_of_getElem? hchild
    obtain ⟨k, hk⟩ := Array.mem_iff_getElem?.1 ht
    have hid : x = p.id := (hm.serves.newborn other hmem).intact.linked ⟨k⟩ task _ hk hl
    subst hid
    exact .inr ⟨rfl, other, hmem, task, ht, hl⟩

/-- Background calls of other processes are the same after a process has run. -/
theorem jobs_settle {m : Machine} (hm : m.Inv (w.outlook p) none []) {x : ProcessId} (hx : x ≠ p.id) :
    (m.host.pool.jobs.filter fun call => call.process = x).Perm
      (w.host.pool.jobs.filter fun call => call.process = x) := by
  have hboth : ∀ jobs : List BackgroundCall, (jobs.filter fun call => call.process ≠ p.id).filter (fun call => call.process = x)
      = jobs.filter fun call => call.process = x := by
    intro jobs
    rw [List.filter_filter]
    refine List.filter_congr fun call _ => ?_
    by_cases hc : call.process = x
    · simp [hc, hx]
    · simp [hc]
  have := hm.serves.others.filter fun call => call.process = x
  rw [← hboth m.host.pool.jobs, ← hboth w.host.pool.jobs]
  exact this

theorem Inv.calls_settle (hw : w.Inv) (hp : w.processes.get? id = some p) {m : Machine}
    (hm : m.Inv (w.outlook p) none []) {call : BackgroundCall} (hc : call ∈ m.host.pool.jobs) :
    w.Has call.process := by
  obtain ⟨hmem, hid, hslot⟩ := hw.get? hp
  by_cases hx : call.process = p.id
  · rw [hx]
    exact hw.has hmem
  · have hin : call ∈ m.host.pool.jobs.filter fun c => c.process = call.process := by simp [hc]
    exact hw.calls call (List.mem_of_mem_filter ((jobs_settle hm hx).mem_iff.1 hin))

/-- What a process that has run leaves behind is an intact world. -/
theorem Inv.settle (hw : w.Inv) (hp : w.processes.get? id = some p) {m : Machine}
    (hm : m.Inv (w.outlook p) none []) : (w.settle id m).Inv := by
  obtain ⟨hmem, hid, hslot⟩ := hw.get? hp
  have hsize := size_settle w id m
  have hborn : m.host.born = w.processes.items.size + m.host.nursery.length := by
    rw [hm.serves.born, ← hw.born]
    rfl
  have hnumber : ∀ (j : Nat) child, m.host.nursery[j]? = some child → child.id = ⟨w.processes.items.size + j + 1⟩ := by
    intro j child hj
    rw [hm.serves.numbers j child hj, ← hw.born]
    rfl
  refine ⟨hm.serves.calm, rfl, hborn.trans hsize.symm, fun i q hq => ?_, fun call hc => ?_, fun q hq => ?_, hm.serves.staffed⟩
  · rcases processes_settle hp m hq with ⟨rfl, rfl⟩ | ⟨_, hold⟩ | ⟨j, rfl, hchild⟩
    · rw [hm.id]
      exact hw.ids _ p hslot
    · exact hw.ids i q hold
    · exact hnumber j q hchild
  · exact (hw.calls_settle hp hm hc).mono (by omega)
  · obtain ⟨i, hi⟩ := Array.mem_iff_getElem?.1 hq
    rcases processes_settle hp m hi with ⟨_, rfl⟩ | ⟨hne, hold⟩ | ⟨j, _, hchild⟩
    · have hpid : m.process.id = p.id := hm.id
      have hi := hm.intact
      have hcalls : ((w.settle id m).ledger m.process).calls = (m.ledger (w.outlook p) []).calls := by
        simp only [ledger, hpid]
        rfl
      refine ⟨hi.fit, by rw [hcalls]; exact hi.anchored, hi.schedule.mono fun x hx => ?_, fun x task link hx hlink => ?_⟩
      · simp only [ledger, hpid] at hx
        rcases hx with hx | hx | hx
        · rcases hw.awaits_settle hp hm hx with hx | ⟨_, hx⟩
          · exact .inl hx
          · exact .inr (.inr (.inr hx))
        · exact .inr (.inl hx)
        · exact .inr (.inr (.inl hx))
      · obtain ⟨task', ht', hl'⟩ := hi.linked x task link hx hlink
        obtain ⟨hne, hle⟩ := hw.linked hmem ht' hl'
        exact ⟨hpid ▸ hne, hle.mono (by omega)⟩
    · have hqid : q.id ≠ p.id := by
        rw [hw.ids i q hold, hw.ids _ p hslot]
        simpa using hne
      have hi := hw.intact q (Array.mem_of_getElem? hold)
      have hperm := jobs_settle hm hqid
      refine ⟨hi.fit, hi.anchored.perm hperm, hi.schedule.mono fun x hx => ?_, fun x task link hx hlink => ?_⟩
      · rcases hx with hx | ⟨call, hc, hcid, hcar⟩ | hx
        · exact .inl ((hw.awaits_settle hp hm hx).resolve_right fun h => hqid h.1)
        · have hin := hperm.mem_iff.1 (List.mem_filter.2 ⟨hc, by simpa using hcid⟩)
          exact .inr (.inl ⟨call, List.mem_of_mem_filter hin, hcid, hcar⟩)
        · exact .inr (.inr hx)
      · obtain ⟨hne, hle⟩ := hi.linked x task link hx hlink
        exact ⟨hne, hle.mono (by omega)⟩
    · have hqid := hnumber j q hchild
      obtain ⟨hi, hcomp, _⟩ := hm.serves.newborn q (List.mem_of_getElem? hchild)
      have hfar : ∀ x : ProcessId, w.Has x → x ≠ q.id := by
        rintro x ⟨_, hx⟩ rfl
        rw [hqid] at hx
        dsimp only at hx
        omega
      have hphas := hw.has hmem
      have hnone : ((w.settle id m).ledger q).calls = [] := by
        refine List.filter_eq_nil_iff.2 fun call hc => ?_
        simpa using hfar _ (hw.calls_settle hp hm hc)
      refine ⟨hi.fit, by rw [hnone]; exact hi.anchored, hi.schedule.mono fun x hx => ?_, fun x task link hx hlink => ?_⟩
      · rcases hx with hx | ⟨call, hc, hcid, _⟩ | ⟨c, hc, _⟩
        · rcases hw.awaits_settle hp hm hx with hx | ⟨hx, _⟩
          · exact hfar _ (hw.has_of_awaits hx) rfl
          · exact hfar _ hphas hx.symm
        · exact hfar _ (hw.calls_settle hp hm hc) hcid
        · rw [hcomp] at hc
          cases hc
      · have hl : link.process = p.id := hi.linked x task link hx hlink
        exact ⟨hl ▸ hfar _ hphas, hl ▸ hphas.mono (by omega)⟩

end World

end Spool
