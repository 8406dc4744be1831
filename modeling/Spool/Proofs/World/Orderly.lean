import Spool.Proofs.Machine.Rounds
import Spool.Proofs.World.Dangling

/-!
# Worlds in order

In every world that can come about all processes have their tasks in their places. What is pledged to the tasks of one
process is with the background pool, with the process itself or with another process, and goes from one to the next as
events happen.
-/

namespace Spool

/-- A main process that is about to run a module. -/
def Process.main (id : ProcessId) (settings : HeapSettings) (module : ModuleId) : Process :=
  let (entry, p) := (seeded id settings).startModule module none
  { p with entryTask := some entry, queue := p.queue.push entry }

theorem Process.roster_seeded (id : ProcessId) (settings : HeapSettings) :
    (seeded id settings).roster = { modules := (seeded id settings).modules } := by
  have ht : (seeded id settings).tasks = #[] := rfl
  simp only [roster, ht, List.map_toArray, List.map_nil]
  rfl

theorem Process.roster_main (id : ProcessId) (settings : HeapSettings) (module : ModuleId) :
    (main id settings module).roster
      = ((seeded id settings).roster.start { initializes := some module }).setModule module (.initializing ⟨0⟩) := by
  have hqueue : (main id settings module).roster
      = ((seeded id settings).startModule module none).2.roster.enqueue ⟨0⟩ := by
    simp only [main, roster, Roster.enqueue, Fifo.toList_push]
    rfl
  rw [hqueue, roster_startModule, roster_seeded]
  rfl

theorem Process.main_frame (id : ProcessId) (settings : HeapSettings) (module : ModuleId) :
    (main id settings module).id = id ∧ (main id settings module).heap = (seeded id settings).heap ∧
      (main id settings module).phase = .active := by
  obtain ⟨tasks, contexts, free, modules, heq⟩ := startModule_frame (seeded id settings) module none
  unfold main
  dsimp only
  rw [heq]
  exact ⟨rfl, rfl, rfl⟩

/-- The entry task is in the queue, and there is no other. -/
theorem Process.ordered_main (id : ProcessId) (settings : HeapSettings) (module : ModuleId) :
    (main id settings module).roster.Ordered none [] := by
  rw [roster_main, roster_seeded]
  have h₀ : Roster.Ordered { modules := (seeded id settings).modules } none [] :=
    .empty rfl rfl rfl (modules_seeded id settings)
  exact h₀.load (s := { initializes := some module }) rfl rfl rfl (modules_seeded id settings module)

/-- A task that has just come to its end. -/
theorem Process.taskAt_of_conclude {p q : Process} {t : TaskId} {state : TaskState} {v : Value}
    (h : q.roster = p.roster.conclude t state v) (ht : t.index < p.roster.tasks.size) (hfin : state.isFinished) :
    (q.taskAt t).state = state ∧ (q.taskAt t).register = v := by
  obtain ⟨hstate, hresult⟩ := Roster.outcome_conclude ht hfin v
  rw [← h, standingAt_roster] at hstate hresult
  have hstate : (q.taskAt t).state = state := hstate
  refine ⟨hstate, ?_⟩
  simpa [Task.standing, hstate, hfin] using hresult

namespace World

variable {w w' : World} {id : ProcessId} {p q : Process} {m : Machine} {extra : List RemoteLink}

/-- The results that tasks wait for from elsewhere. -/
def pledges (w : World) : List RemoteLink :=
  w.host.pool.jobs.map BackgroundCall.link ++ w.processes.items.toList.flatMap fun p => p.roster.pledges p.id

/-- What other processes have pledged. -/
def pledgesBeside (w : World) (id : ProcessId) : List RemoteLink :=
  (w.processes.items.toList.eraseIdx id.slot).flatMap fun p => p.roster.pledges p.id

/-- All tasks are in their places, where results are pledged by the world and by `extra`. -/
structure Orderly (extra : List RemoteLink) (w : World) : Prop where
  staffed : w.host.pool.Staffed
  ordered : ∀ p ∈ w.processes.items, p.roster.Ordered none (due p.id (w.pledges ++ extra))
  futures : ∀ p ∈ w.processes.items, p.heap.Knows fun y => y.index < p.roster.tasks.size

/-- Every process is still there, with all its tasks. -/
def Abides (w w' : World) : Prop :=
  ∀ id p, w.processes.get? id = some p → ∃ p', w'.processes.get? id = some p' ∧ p.roster.Abides p'.roster

theorem Abides.refl (w : World) : w.Abides w := fun _ p hp => ⟨p, hp, .refl _⟩

theorem Abides.trans {w₁ w₂ w₃ : World} (h : w₁.Abides w₂) (h' : w₂.Abides w₃) : w₁.Abides w₃ := by
  intro id p hp
  obtain ⟨p₂, hp₂, ha⟩ := h id p hp
  obtain ⟨p₃, hp₃, ha'⟩ := h' id p₂ hp₂
  exact ⟨p₃, hp₃, ha.trans ha'⟩

/-- The scheduler of a process cannot tell that something has happened. -/
structure Unmoved (p p' : Process) : Prop where
  collected : ∃ heap, p' = { p with heap }
  futures : ∀ T, p.heap.Knows T → p'.heap.Knows T

theorem Unmoved.roster {p p' : Process} (h : Unmoved p p') : p'.roster = p.roster := by
  obtain ⟨heap, rfl⟩ := h.collected
  rfl

theorem Unmoved.phase {p p' : Process} (h : Unmoved p p') : p'.phase = p.phase := by
  obtain ⟨heap, rfl⟩ := h.collected
  rfl

/-- No process has moved, and only main processes have come. -/
structure Unmoves (w w' : World) : Prop where
  stays : ∀ id p, w.processes.get? id = some p → ∃ p', w'.processes.get? id = some p' ∧ Unmoved p p'
  enters : ∀ id p', w'.processes.get? id = some p' → w.processes.get? id = none →
    ∃ id settings module, Unmoved (.main id settings module) p'

theorem Unmoved.refl (p : Process) : Unmoved p p := ⟨⟨p.heap, rfl⟩, fun _ h => h⟩

theorem Unmoved.trans {p₁ p₂ p₃ : Process} (h : Unmoved p₁ p₂) (h' : Unmoved p₂ p₃) : Unmoved p₁ p₃ := by
  obtain ⟨heap, rfl⟩ := h.collected
  obtain ⟨heap', rfl⟩ := h'.collected
  exact ⟨⟨heap', rfl⟩, fun T hk => h'.futures T (h.futures T hk)⟩

theorem Unmoves.refl (w : World) : w.Unmoves w :=
  ⟨fun _ p hp => ⟨p, hp, .refl p⟩, fun _ _ hp hnone => by simp [hp] at hnone⟩

theorem Unmoves.trans {w₁ w₂ w₃ : World} (h : w₁.Unmoves w₂) (h' : w₂.Unmoves w₃) : w₁.Unmoves w₃ := by
  constructor
  case stays =>
    intro id p hp
    obtain ⟨p₂, hp₂, hu⟩ := h.stays id p hp
    obtain ⟨p₃, hp₃, hu'⟩ := h'.stays id p₂ hp₂
    exact ⟨p₃, hp₃, hu.trans hu'⟩
  case enters =>
    intro id p₃ hp₃ hnone
    cases hp₂ : w₂.processes.get? id with
    | none => exact h'.enters id p₃ hp₃ hp₂
    | some p₂ =>
        obtain ⟨p, hp, hu⟩ := h'.stays id p₂ hp₂
        cases hp₃.symm.trans hp
        obtain ⟨x, settings, module, hmain⟩ := h.enters id p₂ hp₂ hnone
        exact ⟨x, settings, module, hmain.trans hu⟩

theorem Unmoves.abides (h : w.Unmoves w') : w.Abides w' := by
  intro id p hp
  obtain ⟨p', hp', hu⟩ := h.stays id p hp
  exact ⟨p', hp', hu.roster ▸ .refl _⟩

/-! ## One process and the others -/

theorem perm_items (hp : w.processes.items[id.slot]? = some p) (f : Process → List RemoteLink) :
    (f p ++ (w.processes.items.toList.eraseIdx id.slot).flatMap f).Perm (w.processes.items.toList.flatMap f) := by
  obtain ⟨hlt, hget⟩ := Array.getElem?_eq_some_iff.1 hp
  have := (List.getElem_cons_eraseIdx_perm (l := w.processes.items.toList) (by simpa using hlt)).flatMap_right f
  simpa [hget] using this

theorem pledges_beside (hw : w.Inv) (hp : w.processes.get? id = some p) (t : TaskId) :
    w.pledges.Perm (Machine.View.pledges ({ host := w.host, process := p, task := t } : Machine).view ++
      w.pledgesBeside id) := by
  obtain ⟨_, _, hslot⟩ := hw.get? hp
  have hnursery : ({ host := w.host, process := p, task := t } : Machine).view.nursery = [] := hw.settled
  unfold pledges pledgesBeside Machine.View.pledges
  rw [hnursery, List.flatMap_nil, List.append_nil, List.append_assoc]
  exact (perm_items hslot fun p => p.roster.pledges p.id).symm.append_left _

/-- A process that is about to run has its tasks in their places. -/
theorem Orderly.machine (ho : w.Orderly extra) (hw : w.Inv) (hp : w.processes.get? id = some p) (t : TaskId) :
    ({ host := w.host, process := p, task := t } : Machine).Tidy (w.pledgesBeside id ++ extra) none := by
  have hmem := (hw.get? hp).1
  refine ⟨⟨(ho.ordered p hmem).perm (due_perm p.id ?_), ho.staffed, ?_⟩, ho.futures p hmem⟩
  · rw [← List.append_assoc]
    exact (pledges_beside hw hp t).append_right extra
  · have hnursery : ({ host := w.host, process := p, task := t } : Machine).view.nursery = [] := hw.settled
    simp [hnursery]

theorem pledges_settle (hp : w.processes.get? id = some p) (m : Machine) :
    (w.settle id m).pledges.Perm (m.view.pledges ++ w.pledgesBeside id) := by
  obtain ⟨hn, hslot⟩ := Processes.get?_eq_some.1 hp
  obtain ⟨hlt, _⟩ := Array.getElem?_eq_some_iff.1 hslot
  have hitems : (w.settle id m).processes.items.toList
      = w.processes.items.toList.set id.slot m.process ++ m.host.nursery := by
    change (m.host.nursery.foldl Processes.push (w.processes.set id m.process)).items.toList = _
    rw [Processes.foldl_push]
    simp only [Processes.set, Processes.modify, if_neg hn, Array.toList_append, Array.toList_modify,
      List.modify_eq_set_getElem?, Array.getElem?_toList, hslot]
    rfl
  have hset := (List.set_perm_cons_eraseIdx (l := w.processes.items.toList) (by simpa using hlt) m.process).flatMap_right
    fun p => p.roster.pledges p.id
  change (m.host.pool.jobs.map BackgroundCall.link ++ (w.settle id m).processes.items.toList.flatMap
    fun p => p.roster.pledges p.id).Perm _
  rw [hitems, List.flatMap_append]
  unfold Machine.View.pledges pledgesBeside
  simp only [List.append_assoc]
  refine List.Perm.append_left _ ((hset.append_right _).trans ?_)
  rw [List.flatMap_cons, List.append_assoc]
  exact List.Perm.append_left _ List.perm_append_comm

theorem get?_settle (hp : w.processes.get? id = some p) (m : Machine) {x : ProcessId}
    (hq : w.processes.get? x = some q) :
    (w.settle id m).processes.get? x = some (if x = id then m.process else q) := by
  have hset : (w.processes.set id m.process).get? x = some (if x = id then m.process else q) := by
    rw [Processes.get?_set hp]
    split
    · rfl
    · exact hq
  obtain ⟨hn, hslot⟩ := Processes.get?_eq_some.1 hset
  refine Processes.get?_eq_some.2 ⟨hn, ?_⟩
  change (m.host.nursery.foldl Processes.push (w.processes.set id m.process)).items[x.slot]? = _
  rw [Processes.foldl_push, Array.getElem?_append_left (Array.getElem?_eq_some_iff.1 hslot).1]
  exact hslot

/-! ## Who is pledged a result -/

theorem mem_links {r : Roster} {link : RemoteLink} (h : link ∈ r.links) :
    (∃ t s, r.at? t = some s ∧ s.remote = some link) ∨ ∃ out ∈ r.outgoing, out.link = link := by
  rcases List.mem_append.1 h with h | h
  · obtain ⟨s, hs, hlink⟩ := List.mem_flatMap.1 h
    obtain ⟨i, hi⟩ := Array.mem_iff_getElem?.1 (Array.mem_toList_iff.1 hs)
    refine .inl ⟨⟨i⟩, s, hi, ?_⟩
    unfold Standing.due at hlink
    split at hlink
    · exact Option.mem_toList.1 hlink
    · cases hlink
  · exact .inr (by simpa using h)

/-- A result that a process has pledged is for a task that it links to. -/
theorem Inv.remote_of_links (hw : w.Inv) (hp : p ∈ w.processes.items) {link : RemoteLink} (h : link ∈ p.roster.links) :
    ∃ task ∈ p.tasks, task.remote = some link := by
  rcases mem_links h with ⟨t, s, hs, hlink⟩ | ⟨out, hout, rfl⟩
  · rw [Process.at?_roster, Option.map_eq_some_iff] at hs
    obtain ⟨task, ht, rfl⟩ := hs
    exact ⟨task, Array.mem_of_getElem? ht, hlink⟩
  · obtain ⟨task, ht, _, hlink⟩ := (hw.intact p hp).schedule.owing out hout
    exact ⟨task, Array.mem_of_getElem? ht, hlink⟩

theorem Inv.has_of_pledges (hw : w.Inv) {link : RemoteLink} (h : link ∈ w.pledges) : w.Has link.process := by
  rcases List.mem_append.1 h with h | h
  · obtain ⟨call, hc, rfl⟩ := List.mem_map.1 h
    exact hw.calls call hc
  · obtain ⟨p, hp, h⟩ := List.mem_flatMap.1 h
    have hp := Array.mem_toList_iff.1 hp
    rcases List.mem_append.1 h with h | h
    · obtain ⟨t, _, rfl⟩ := List.mem_map.1 h
      exact hw.has hp
    · obtain ⟨task, ht, hlink⟩ := hw.remote_of_links hp h
      exact (hw.linked hp ht hlink).2

theorem due_eq_nil {links : List RemoteLink} (h : ∀ link ∈ links, link.process ≠ id) : due id links = [] := by
  simp only [due, List.map_eq_nil_iff, List.filter_eq_nil_iff, decide_eq_true_eq]
  exact h

/-! ## Processes that come back -/

/-- What a process that has run leaves behind is in order, if it leaves the others what they were pledged. -/
theorem Orderly.settle (ho : w.Orderly extra) (extra' : List RemoteLink) (hw : w.Inv) (hp : w.processes.get? id = some p)
    (hm : m.Inv (w.outlook p) none []) (ht : m.Tidy (w.pledgesBeside id ++ extra') none)
    (habides : p.roster.Abides m.process.roster) (hextra : ∀ link ∈ extra, w.Has link.process) (t : TaskId)
    (hothers : ∀ x, x ≠ p.id → (due x (m.view.pledges ++ extra')).Perm
      (due x (({ host := w.host, process := p, task := t } : Machine).view.pledges ++ extra))) :
    (w.settle id m).Orderly extra' ∧ w.Abides (w.settle id m) := by
  obtain ⟨hmem, hid, hslot⟩ := hw.get? hp
  have hnew := pledges_settle hp m
  have hpledges : ∀ x, x ≠ p.id →
      (due x ((w.settle id m).pledges ++ extra')).Perm (due x (w.pledges ++ extra)) := by
    intro x hx
    have h₁ := due_perm x (hnew.append_right extra')
    have h₂ := due_perm x ((pledges_beside hw hp t).append_right extra)
    have h₃ := hothers x hx
    simp only [due_append] at h₁ h₂ h₃ ⊢
    refine h₁.trans (List.Perm.trans ?_ h₂.symm)
    rw [List.append_assoc, List.append_assoc]
    exact (List.perm_append_comm_assoc _ _ _).trans
      ((h₃.append_left _).trans (List.perm_append_comm_assoc _ _ _))
  have hcase : ∀ q ∈ (w.settle id m).processes.items,
      q.roster.Ordered none (due q.id ((w.settle id m).pledges ++ extra')) ∧
        q.heap.Knows fun y => y.index < q.roster.tasks.size := by
    intro q hq
    obtain ⟨i, hi⟩ := Array.mem_iff_getElem?.1 hq
    rcases processes_settle hp m hi with ⟨_, rfl⟩ | ⟨hne, hold⟩ | ⟨j, _, hchild⟩
    · refine ⟨ht.view.ordered.perm (due_perm m.process.id ?_), ht.futures⟩
      rw [← List.append_assoc]
      exact hnew.symm.append_right extra'
    · have hqid : q.id ≠ p.id := by
        rw [hw.ids i q hold, hw.ids _ p hslot]
        simpa using hne
      have hqmem := Array.mem_of_getElem? hold
      exact ⟨(ho.ordered q hqmem).perm (hpledges q.id hqid).symm, ho.futures q hqmem⟩
    · -- nobody knows the number of a process that has just been made
      have hcmem := List.mem_of_getElem? hchild
      have hnumber : q.id = ⟨w.processes.items.size + j + 1⟩ := by
        rw [hm.serves.numbers j q hchild, ← hw.born]
        rfl
      have hfar : ∀ x : ProcessId, w.Has x → x ≠ q.id := by
        rintro x ⟨_, hx⟩ rfl
        rw [hnumber] at hx
        dsimp only at hx
        omega
      have hnone : due q.id (w.pledges ++ extra) = [] := by
        refine due_eq_nil fun link hlink => ?_
        rcases List.mem_append.1 hlink with hlink | hlink
        · exact hfar _ (hw.has_of_pledges hlink)
        · exact hfar _ (hextra link hlink)
      obtain ⟨t, hfledgling⟩ := ht.view.fledglings q hcmem
      have hperm := hpledges q.id (hfar p.id (hw.has hmem)).symm
      rw [hnone] at hperm
      refine ⟨?_, (hm.serves.newborn q hcmem).futureless.mono fun _ h => h.elim⟩
      rw [hperm.eq_nil]
      exact hfledgling.ordered
  refine ⟨⟨ht.view.staffed, fun q hq => (hcase q hq).1, fun q hq => (hcase q hq).2⟩, fun x q hq => ?_⟩
  refine ⟨_, get?_settle hp m hq, ?_⟩
  split
  · rename_i hx
    subst hx
    cases hp.symm.trans hq
    exact habides
  · exact .refl _

/-! ## Rounds of a scheduler -/

theorem view_awaken (host : Host) (p : Process) (t : TaskId) :
    ({ host, process := awaken p, task := t } : Machine).view = ({ host, process := p, task := t } : Machine).view := by
  unfold awaken
  split <;> rfl

theorem Orderly.awaken (ho : w.Orderly extra) (hw : w.Inv) (hp : w.processes.get? id = some p) (t : TaskId) :
    ({ host := w.host, process := awaken p, task := t } : Machine).Tidy (w.pledgesBeside id ++ extra) none := by
  have hm := ho.machine hw hp t
  refine ⟨view_awaken w.host p t ▸ hm.view, ?_⟩
  rw [view_awaken]
  unfold World.awaken
  split <;> exact hm.futures

/-- A round happens, or nothing does. -/
theorem tick_cases {fuel : Nat} (h : w.tick fuel id = some w') :
    (w' = w ∧ ∀ p, w.processes.get? id = some p → canTick p = false) ∨
      ∃ p m, w.processes.get? id = some p ∧ canTick p ∧
        Machine.tick fuel { host := w.host, process := World.awaken p, task := ⟨0⟩ } = some m ∧ w' = w.settle id m := by
  unfold World.tick at h
  cases hp : w.processes.get? id with
  | none =>
      simp only [hp, Option.some.injEq] at h
      exact .inl ⟨h.symm, by simp⟩
  | some p =>
      simp only [hp] at h
      split at h
      · rename_i hcan
        rw [Option.map_eq_some_iff] at h
        obtain ⟨m, hrun, rfl⟩ := h
        exact .inr ⟨p, m, rfl, hcan, hrun, rfl⟩
      · rename_i hcan
        cases h
        refine .inl ⟨rfl, fun q hq => ?_⟩
        cases hq
        simpa using hcan

theorem Orderly.tick (ho : w.Orderly []) (hw : w.Inv) {fuel : Nat} (h : w.tick fuel id = some w') :
    w'.Orderly [] ∧ w.Abides w' := by
  rcases tick_cases h with ⟨rfl, _⟩ | ⟨p, m, hp, _, hrun, rfl⟩
  · exact ⟨ho, .refl w'⟩
  · have hinv := hw.awaken (hw.get? hp).1 ⟨0⟩
    obtain ⟨htidy, hproceeds, _⟩ := Machine.tidy_tick hinv (ho.awaken hw hp ⟨0⟩) hrun
    obtain ⟨hspares, hupholds⟩ := hproceeds
    rw [view_awaken] at hspares hupholds
    refine ho.settle _ hw hp (Machine.inv_tick hinv hrun) htidy hupholds.toAbides (by simp) ⟨0⟩ fun x hx => ?_
    rw [List.append_nil, List.append_nil]
    exact hspares.others x hx

/-! ## The background pool -/

theorem Orderly.modifyPool (ho : w.Orderly []) {f : Pool BackgroundCall → Pool BackgroundCall}
    (hf : (f w.host.pool).jobs.Perm w.host.pool.jobs) (hs : (f w.host.pool).Staffed) : (w.modifyPool f).Orderly [] := by
  refine ⟨hs, fun p hp => (ho.ordered p hp).perm (due_perm p.id (List.Perm.append_right [] ?_)), ho.futures⟩
  exact ((hf.map BackgroundCall.link).append_right _).symm

theorem Orderly.engage (ho : w.Orderly []) (worker : WorkerId) :
    (w.engage worker).Orderly [] ∧ w.Abides (w.engage worker) := by
  have h₁ : (w.modifyPool fun p => p.engage worker).Orderly [] :=
    ho.modifyPool (w.host.pool.jobs_engage worker) (ho.staffed.engage worker)
  unfold World.engage
  split
  · exact ⟨ho, .refl w⟩
  · dsimp only
    split
    · exact ⟨⟨h₁.staffed, h₁.ordered, h₁.futures⟩, fun _ p hp => ⟨p, hp, .refl _⟩⟩
    · exact ⟨h₁, fun _ p hp => ⟨p, hp, .refl _⟩⟩

/-- A worker does the work of its call. -/
theorem Orderly.performCall (ho : w.Orderly []) (hw : w.Inv) {worker : WorkerId} {call : BackgroundCall}
    (hrunning : (w.host.pool.workerAt worker).activity = .running call) :
    ((w.performCall call).modifyPool fun p => p.finish worker).Orderly [] ∧
      w.Abides ((w.performCall call).modifyPool fun p => p.finish worker) := by
  have hjobs := Pool.jobs_finish hrunning
  have hcall : call ∈ w.host.pool.jobs := hjobs.mem_iff.1 List.mem_cons_self
  obtain ⟨p, hp⟩ := (hw.calls call hcall).get?
  obtain ⟨hmem, hid, _⟩ := hw.get? hp
  have hm := hw.machine hmem ⟨0⟩
  have hgoes := hw.goes_run hcall hp
  have ht := ho.machine hw hp ⟨0⟩
  obtain ⟨hback, hpledges⟩ := ht.view.comeBack hjobs (ho.staffed.finish worker) hid.symm
  have hdone : ∀ result e, Errand.run w call { heap := p.heap, held := call.held } = (result, e) →
      Errand.Since p.heap call.held e → (∀ r, result = .ok (.object r) → r ∈ e.held) →
      ((w.performCall call).modifyPool fun p => p.finish worker).Orderly [] ∧
        w.Abides ((w.performCall call).modifyPool fun p => p.finish worker) := by
    intro result e hrun he hresult
    have hinv := inv_completed hm hjobs (hw.staffed.finish worker) hid.symm he hresult
    have hview : ({
        host := { w.host with pool := w.host.pool.finish worker }
        process := { p with
          heap := e.heap
          completions := p.completions ++ [{ task := call.carrier, result, held := e.held }] }
        task := ⟨0⟩ } : Machine).view = { ({ host := w.host, process := p, task := ⟨0⟩ } : Machine).view with
          pool := w.host.pool.finish worker
          roster := { p.roster with completions := p.roster.completions ++ [call.carrier] } } := by
      simp [Machine.view, Process.roster]
    rw [performCall_eq hp hrun]
    have hsettle := ho.settle [] hw hp hinv ⟨hview ▸ hback, ?_⟩ (.of_eq rfl rfl) (by simp) ⟨0⟩ fun x _ => ?_
    · rw [settle_eq hw.settled] at hsettle
      exact hsettle
    · exact (ht.futures.extend he.extend fun _ h => h.elim)
    · rw [hview]
      exact due_perm x (hpledges.append_right [])
  unfold Errand.Goes Act.wp at hgoes
  rcases hx : Errand.run w call { heap := p.heap, held := call.held } with ⟨fault | v, e⟩
  · rw [hx] at hgoes
    exact hdone (.error fault) e hx hgoes.1 fun r h => by cases h
  · rw [hx] at hgoes
    refine hdone (.ok v) e hx hgoes.1 fun r h => hgoes.2.2 r ?_
    cases h
    rfl

theorem Orderly.complete (ho : w.Orderly []) (hw : w.Inv) (alarm : Alarm) :
    (w.complete alarm).Orderly [] ∧ w.Abides (w.complete alarm) := by
  unfold World.complete
  split
  · rename_i call hrunning
    have hretimed : ({ w with clock := max w.clock alarm.due, alarms := w.alarms.erase alarm } : World).Orderly [] :=
      ⟨ho.staffed, ho.ordered, ho.futures⟩
    exact hretimed.performCall (hw.retime _ _) hrunning
  · exact ⟨ho, .refl w⟩

/-! ## Results for other processes -/

theorem roster_sent (p : Process) (v : Value) :
    (sent p v).roster = { p.roster with outgoing := p.roster.outgoing.tail } := by
  unfold sent
  cases v <;> rfl

theorem knows_sent {T : TaskId → Prop} (hp : p.heap.Knows T) (v : Value) : (sent p v).heap.Knows T := by
  unfold sent
  cases v with
  | object r => exact Heap.knows_unroot r _ hp
  | none => exact hp
  | scalar s => exact hp

variable {out : Outgoing}

/-- The first result in line leaves, and is on its way. -/
theorem Orderly.sending (ho : w.Orderly []) (hw : w.Inv) (hd : w.Passes p q out) :
    (w.sending p out).Orderly [out.link] ∧ w.Abides (w.sending p out) := by
  obtain ⟨rest, hout⟩ := hd.first
  have ht := ho.machine hw hd.sender ⟨0⟩
  have hinv := inv_sent (hw.machine (hw.get? hd.sender).1 ⟨0⟩) hout
  have hview : ({ host := w.host, process := sent p (p.taskAt out.task).register, task := ⟨0⟩ } : Machine).view
      = { ({ host := w.host, process := p, task := ⟨0⟩ } : Machine).view with
          roster := { p.roster with outgoing := rest } } := by
    have hid : (sent p (p.taskAt out.task).register).id = p.id := rfl
    have htail : p.roster.outgoing.tail = rest := by simp [Process.roster, hout]
    simp only [Machine.view, roster_sent, hid, htail]
  obtain ⟨hsend, hpledges⟩ := @Machine.View.Tidy.send _ _ _ ht.view out rest hout
  have hsettle := ho.settle [out.link] hw hd.sender hinv ⟨?_, ?_⟩ (by rw [roster_sent]; exact .of_eq rfl rfl) (by simp)
    ⟨0⟩ fun x _ => ?_
  · rw [settle_eq hw.settled] at hsettle
    exact hsettle
  · rw [hview, ← List.append_nil (w.pledgesBeside p.id)]
    exact hsend
  · rw [hview]
    exact knows_sent ht.futures _
  · rw [hview, List.append_nil]
    exact due_perm x hpledges.symm

theorem phase_finishTask (t : TaskId) (m : Machine) : (Machine.finishTask t m).2.process.phase = m.process.phase := by
  have hphase : (m.process.finish t).phase = m.process.phase := (Process.finish_frame m.process t).2.2.2
  rw [Machine.finishTask_eq]
  split <;> exact hphase

/-- A copy of the first result in line has reached the task that waits for it, which has come to its end with it. -/
inductive Reaches (w : World) (p q : Process) (out : Outgoing) (w' : World) : Prop where
  | mk (q' : Process) (v : Value) (copier : Copier) :
      Copier.copy p.heap (p.taskAt out.task).register (Copier.new p.heap q.heap w.host.registry) = (.ok v, copier) →
      w'.processes.get? out.link.process = some q' → q'.phase = q.phase →
      q'.roster = q.roster.conclude out.link.task (p.taskAt out.task).state v → Reaches w p q out w'

/-- A result on its way reaches the task that waits for it. -/
theorem Orderly.deliver (ho : w.Orderly []) (hw : w.Inv) (hd : w.Passes p q out) :
    (w.deliver p.id).Orderly [] ∧ w.Abides (w.deliver p.id) ∧ q.roster.Waits out.link.task ∧
      w.Reaches p q out (w.deliver p.id) := by
  have hw₁ := hw.sending hd
  obtain ⟨ho₁, ha₁⟩ := ho.sending hw hd
  have hget := hd.get?_sending
  obtain ⟨hmem, hid, _⟩ := hw.get? hd.receiver
  have hsound := (hw.intact p (hw.get? hd.sender).1).fit.sound
  have hpledged : (w.sending p out).Awaits q.id out.link.task := by
    rw [hid]
    exact hd.awaits
  have ht := ho₁.machine hw₁ hget out.link.task
  -- the task waits for this result and for nothing else
  have hrest : ((w.sending p out).pledgesBeside out.link.process ++ [out.link]).Perm
      (⟨q.id, out.link.task⟩ :: (w.sending p out).pledgesBeside out.link.process) := by
    rw [hid]
    exact List.perm_append_singleton _ _
  have hv := ht.view.perm_rest hrest
  have hwaits : q.roster.Waits out.link.task :=
    (hv.ordered.parked out.link.task).1 (List.mem_append_right _ (mem_due.2 (by simp [Machine.view])))
  obtain ⟨s, hs, hstate⟩ := hwaits
  have hun : ¬ (q.roster.standingAt out.link.task).state.isFinished := by
    simp [Roster.standingAt_of_at? hs, hstate, TaskState.isFinished]
  have hcar := (hw₁.machine (hw₁.get? hget).1 out.link.task).intact.schedule.carriers out.link.task (.inl hpledged)
  have hremote : (q.roster.standingAt out.link.task).remote = none := by
    rw [Process.standingAt_roster]
    exact hcar.unlinked
  -- the copy arrives, whatever it is
  rcases hcopy : Copier.copy p.heap (p.taskAt out.task).register
    (Copier.new p.heap q.heap (w.sending p out).host.registry) with ⟨copied, copier⟩
  obtain ⟨hgo, hgains, v, rfl, _⟩ := hw₁.copied hget hsound hd.valid hcopy out.link.task
  have hend := Machine.becomes_setOutcome hgo (.inl hpledged) _ hd.finished v
  obtain ⟨hsettled, hspares⟩ := Machine.View.Tidy.settle
    (v := ({ host := (w.sending p out).host, process := q, task := out.link.task } : Machine).view) hv hremote hd.finished v
  obtain ⟨hinv, hnursery⟩ := hw.received hd
  rw [hd.deliver_eq]
  have hphase : ((w.sending p out).received p q out).process.phase = q.phase := by
    rw [received_eq hcopy]
    exact phase_finishTask _ _
  rw [received_eq hcopy] at hinv hnursery hphase ⊢
  change Machine.Becomes _ _ (Machine.endCarrier (.ok v) (p.taskAt out.task).state _).2 at hend
  generalize (Machine.endCarrier (.ok v) (p.taskAt out.task).state _).2 = m at hinv hnursery hphase hend ⊢
  have hview : m.view = { ({ host := (w.sending p out).host, process := q, task := out.link.task } : Machine).view with
      roster := q.roster.conclude out.link.task (p.taskAt out.task).state v } := hend.view
  have hroster : m.process.roster = q.roster.conclude out.link.task (p.taskAt out.task).state v :=
    congrArg Machine.View.roster hview
  have habides : q.roster.Abides m.process.roster := by
    rw [hroster]
    exact (Roster.upholds_conclude hun _ v).toAbides
  have hsettle := ho₁.settle [] hw₁ hget hinv ⟨?_, ?_⟩ habides ?_ out.link.task fun x hx => ?_
  · rw [settle_eq (m := { m with process := { m.process with poked := true } }) hnursery] at hsettle
    refine ⟨hsettle.1, ha₁.trans hsettle.2, ⟨s, hs, hstate⟩, ?_⟩
    exact .mk { m.process with poked := true } v copier hcopy ((Processes.get?_set hget _ _).trans (if_pos rfl)) hphase
      hroster
  · change m.view.Tidy _ none
    rw [hview, List.append_nil]
    exact hsettled
  · exact (hend.futures _ (ht.futures.extend hgains.toExtends fun _ h => h.elim)).mono fun y hy =>
      Nat.lt_of_lt_of_le hy habides.size_le
  · intro link hlink
    rw [List.mem_singleton.1 hlink, ← hid]
    exact hw₁.has (hw₁.get? hget).1
  · have hnone : due x [out.link] = [] := due_eq_nil fun link hlink => by
      rw [List.mem_singleton.1 hlink, ← hid]
      exact Ne.symm hx
    change (due x (m.view.pledges ++ [])).Perm _
    rw [hview, List.append_nil, due_append, hnone, List.append_nil]
    exact hspares.others x hx

/-! ## Setting up -/

theorem Orderly.registry (ho : w.Orderly []) (registry : Registry) :
    ({ w with host := { w.host with registry } } : World).Orderly [] :=
  ⟨ho.staffed, ho.ordered, ho.futures⟩

/-- A process comes into the world, with which nobody has to do yet. -/
theorem Orderly.push (ho : w.Orderly []) (hw : w.Inv) (hid : p.id = ⟨w.host.born + 1⟩) (hp : p.roster.Ordered none [])
    (hpledges : p.roster.pledges p.id = []) (hfutures : p.heap.Knows fun y => y.index < p.roster.tasks.size) :
    ({ w with host := { w.host with born := w.host.born + 1 }, processes := w.processes.push p } : World).Orderly [] := by
  have hsame : World.pledges { w with
      host := { w.host with born := w.host.born + 1 }
      processes := w.processes.push p } = w.pledges := by
    simp [pledges, Processes.push, hpledges]
  have hnone : due p.id w.pledges = [] := by
    refine due_eq_nil fun link hlink h => ?_
    have hhas := (hw.has_of_pledges hlink).2
    rw [h, hid, hw.born] at hhas
    exact absurd hhas (Nat.not_succ_le_self _)
  refine ⟨ho.staffed, fun q hq => ?_, fun q hq => ?_⟩
  · rw [hsame]
    rcases Array.mem_push.1 hq with hq | rfl
    · exact ho.ordered q hq
    · rw [List.append_nil, hnone]
      exact hp
  · rcases Array.mem_push.1 hq with hq | rfl
    · exact ho.futures q hq
    · exact hfutures

theorem get?_push {ps : Processes} {x : ProcessId} (h : (ps.push p).get? x = some q) : ps.get? x = some q ∨ q = p := by
  obtain ⟨hn, hslot⟩ := Processes.get?_eq_some.1 h
  simp only [Processes.push, Array.getElem?_push] at hslot
  split at hslot
  · exact .inr (Option.some.inj hslot).symm
  · exact .inl (Processes.get?_eq_some.2 ⟨hn, hslot⟩)

theorem unmoves_main (w : World) (module : ModuleId) : w.Unmoves { w with
    host := { w.host with born := w.host.born + 1 }
    processes := w.processes.push (.main ⟨w.host.born + 1⟩ w.host.heapSettings module) } := by
  refine ⟨fun x q hq => ⟨q, ?_, .refl q⟩, fun x q hq hnone => ?_⟩
  · obtain ⟨hn, hslot⟩ := Processes.get?_eq_some.1 hq
    refine Processes.get?_eq_some.2 ⟨hn, ?_⟩
    simp only [Processes.push, Array.getElem?_push, if_neg (Nat.ne_of_lt (Array.getElem?_eq_some_iff.1 hslot).1)]
    exact hslot
  · rcases get?_push hq with hold | rfl
    · cases hold.symm.trans hnone
    · exact ⟨_, _, _, .refl _⟩

theorem Orderly.main (ho : w.Orderly []) (hw : w.Inv) (module : ModuleId) : ({ w with
    host := { w.host with born := w.host.born + 1 }
    processes := w.processes.push (.main ⟨w.host.born + 1⟩ w.host.heapSettings module) } : World).Orderly [] := by
  obtain ⟨hid, hheap, _⟩ := Process.main_frame ⟨w.host.born + 1⟩ w.host.heapSettings module
  refine ho.push hw hid (Process.ordered_main _ _ module) ?_ ?_
  · rw [Process.roster_main, Process.roster_seeded]
    rfl
  · rw [hheap]
    exact Process.knows_seeded _ _ (.refl (Process.extends_seeded _ _).1.sound)

theorem Orderly.collect (ho : w.Orderly []) (hw : w.Inv) (id : ProcessId) :
    (w.collect id).2.Orderly [] ∧ w.Unmoves (w.collect id).2 := by
  cases hp : w.processes.get? id with
  | none =>
      have hset : ∀ q, w.processes.set id q = w.processes := fun q => Processes.set_of_get?_eq_none hp q
      simp only [World.collect, hset]
      exact ⟨ho, .refl w⟩
  | some p =>
      have hfetch : w.processes.fetch id = p := Processes.fetch_of_get? hp
      have hm := (hw.machine (hw.get? hp).1 ⟨0⟩).idle.collectGarbage.inv
      have hs := Machine.steady_collectGarbage { host := w.host, process := p, task := ⟨0⟩ } (.refl _)
      obtain ⟨htidy, hspares, hupholds⟩ := hs.tidy (ho.machine hw hp ⟨0⟩)
      have hsettle := ho.settle _ hw hp hm htidy hupholds.toAbides (by simp) ⟨0⟩ fun x hx => by
        rw [List.append_nil, List.append_nil]
        exact hspares.others x hx
      rw [settle_eq hw.settled] at hsettle
      simp only [World.collect, hfetch]
      refine ⟨hsettle.1, fun x q hq => ?_, fun x q hq hnone => ?_⟩
      · rw [Processes.get?_set hp]
        split
        · rename_i hx
          subst hx
          cases hp.symm.trans hq
          exact ⟨_, rfl, ⟨_, rfl⟩, hs.futures⟩
        · exact ⟨q, hq, .refl q⟩
      · rw [Processes.get?_set hp] at hq
        split at hq
        · rename_i hx
          cases hp.symm.trans (hx ▸ hnone)
        · cases hq.symm.trans hnone

end World

end Spool
