import Spool.Pool.Basic
import Spool.Proofs.Bindings

/-!
# No job is lost

The jobs that wait in a queue or are in the hands of a worker. A worker that looks for a job moves jobs about,
and only the end of a job takes one away.
-/

namespace Spool

variable {J : Type}

def Activity.job? : Activity J → Option J
  | holding job => some job
  | running job => some job
  | _ => none

def Worker.jobs (w : Worker J) : List J := w.activity.job?.toList ++ w.queue

namespace Pool

variable {p : Pool J}

/-- The jobs that have not ended. -/
def jobs (p : Pool J) : List J := p.workers.toList.flatMap Worker.jobs

theorem workerAt_of_getElem? {w : WorkerId} {worker : Worker J} (hw : p.workers[w.number]? = some worker) :
    p.workerAt w = worker := by
  simp [workerAt, Array.getD_eq_getD_getElem?, hw]

theorem getElem?_of_workerAt {w : WorkerId} (hw : p.workerAt w ≠ {}) :
    p.workers[w.number]? = some (p.workerAt w) := by
  unfold workerAt at hw ⊢
  rw [Array.getD_eq_getD_getElem?] at hw ⊢
  cases hg : p.workers[w.number]? with
  | none => simp [hg] at hw
  | some worker => simp

/-- Whoever is up to something is there. -/
theorem getElem?_of_activity {w : WorkerId} {a : Activity J} (ha : (p.workerAt w).activity = a) (hne : a ≠ .idle) :
    p.workers[w.number]? = some (p.workerAt w) := by
  refine getElem?_of_workerAt fun he => hne ?_
  rw [← ha, he]

theorem jobs_modifyWorker {w : WorkerId} {f : Worker J → Worker J} {worker : Worker J} {A B : List J}
    (hw : p.workers[w.number]? = some worker) (hf : (A ++ (f worker).jobs).Perm (B ++ worker.jobs)) :
    (A ++ (p.modifyWorker w f).jobs).Perm (B ++ p.jobs) :=
  Table.perm_flatMap_modify hw hf

theorem modifyWorker_eq_self {w : WorkerId} {f : Worker J → Worker J} (hw : p.workers[w.number]? = none) :
    p.modifyWorker w f = p := by
  simp [modifyWorker, Table.modify_eq_self hw]

/-- A change that leaves each worker its share. -/
theorem flatMap_modifyWorker_perm {g : Worker J → List J} {w : WorkerId} {f : Worker J → Worker J}
    (hf : ∀ worker, p.workers[w.number]? = some worker → (g (f worker)).Perm (g worker)) :
    ((p.modifyWorker w f).workers.toList.flatMap g).Perm (p.workers.toList.flatMap g) := by
  cases hw : p.workers[w.number]? with
  | none => rw [modifyWorker_eq_self hw]
  | some worker =>
      exact Table.perm_flatMap_modify (A := []) (B := []) hw (by simpa using hf worker hw)

/-- A change that leaves each worker its jobs. -/
theorem jobs_modifyWorker_perm {w : WorkerId} {f : Worker J → Worker J}
    (hf : ∀ worker, p.workers[w.number]? = some worker → (f worker).jobs.Perm worker.jobs) :
    (p.modifyWorker w f).jobs.Perm p.jobs :=
  flatMap_modifyWorker_perm hf

/-! ## Getting a job -/

theorem jobs_take (p : Pool J) (w : WorkerId) : (p.take w).jobs.Perm p.jobs := by
  simp only [take]
  split
  · rename_i job queue ha hq
    refine jobs_modifyWorker_perm fun worker hw => ?_
    rw [workerAt_of_getElem? hw] at ha hq
    simp [Worker.jobs, ha, hq, Activity.job?]
  · exact .refl _

theorem jobs_search (p : Pool J) (w : WorkerId) : (p.search w).jobs.Perm p.jobs := by
  unfold search
  split
  · rename_i ha
    refine jobs_modifyWorker_perm (p := p) fun worker hw => ?_
    rw [workerAt_of_getElem? hw] at ha
    simp [Worker.jobs, ha, Activity.job?]
  · exact .refl _

theorem jobs_start (p : Pool J) (w : WorkerId) : (p.start w).jobs.Perm p.jobs := by
  unfold start
  split
  · rename_i job ha
    refine jobs_modifyWorker_perm (p := p) fun worker hw => ?_
    rw [workerAt_of_getElem? hw] at ha
    simp [Worker.jobs, ha, Activity.job?]
  · exact .refl _

theorem jobs_steal (p : Pool J) (w : WorkerId) : (p.steal w).jobs.Perm p.jobs := by
  unfold steal
  split
  · rename_i ha
    refine jobs_modifyWorker_perm fun worker hw => ?_
    rw [workerAt_of_getElem? hw] at ha
    simp [Worker.jobs, ha, Activity.job?]
  · rename_i victim others ha
    split
    · refine jobs_modifyWorker_perm fun worker hw => ?_
      rw [workerAt_of_getElem? hw] at ha
      simp [Worker.jobs, ha, Activity.job?]
    · rename_i job queue hq
      have hqueue : (p.workerAt victim).queue = queue.reverse ++ [job] := by
        rw [← List.reverse_reverse (p.workerAt victim).queue, hq, List.reverse_cons]
      have hvictim : p.workers[victim.number]? = some (p.workerAt victim) := by
        refine getElem?_of_workerAt fun he => ?_
        rw [he] at hqueue
        simp at hqueue
      let p₁ := p.modifyWorker victim fun worker => { worker with queue := queue.reverse }
      have h₁ : ([job] ++ p₁.jobs).Perm ([] ++ p.jobs) := by
        refine jobs_modifyWorker hvictim ?_
        simp only [Worker.jobs, hqueue, List.nil_append]
        exact List.perm_append_comm.trans (by rw [List.append_assoc])
      -- the thief still searches, also if it is its own victim
      have hthief : ∃ worker, p₁.workers[w.number]? = some worker ∧ worker.activity.job? = none := by
        have hw := getElem?_of_activity ha (by simp)
        have hmod : p₁.workers[w.number]? = if victim.number = w.number
            then some { p.workerAt w with queue := queue.reverse } else some (p.workerAt w) := by
          simp only [p₁, modifyWorker, Array.getElem?_modify, hw]
          split <;> rfl
        rw [hmod]
        split
        · exact ⟨_, rfl, by simp [ha, Activity.job?]⟩
        · exact ⟨_, rfl, by simp [ha, Activity.job?]⟩
      obtain ⟨thief, hget, hnone⟩ := hthief
      have h₂ : ([] ++ (p₁.modifyWorker w fun worker => { worker with activity := .holding job }).jobs).Perm
          ([job] ++ p₁.jobs) := by
        refine jobs_modifyWorker hget ?_
        have hjobs : thief.jobs = thief.queue := by simp [Worker.jobs, hnone]
        rw [hjobs]
        exact .refl _
      simpa using h₂.trans h₁
  · exact .refl _

theorem jobs_engage (p : Pool J) (w : WorkerId) : (p.engage w).jobs.Perm p.jobs := by
  have hsteal : ∀ (members : List WorkerId) (p : Pool J), (members.foldl (fun p _ => p.steal w) p).jobs.Perm p.jobs := by
    intro members
    induction members with
    | nil => exact fun p => .refl _
    | cons m rest ih => exact fun p => (ih _).trans (p.jobs_steal w)
  exact ((jobs_start _ w).trans (hsteal _ _)).trans ((jobs_search _ w).trans (p.jobs_take w))

/-! ## Submitting and ending -/

theorem jobs_choose (p : Pool J) : p.choose.2.jobs = p.jobs := by
  have hhire : p.hire.2.jobs = p.jobs := by
    simp [hire, jobs, Worker.jobs, Activity.job?]
  unfold choose
  split
  · exact hhire
  · split
    · exact hhire
    · rfl

/-! ## Members -/

/-- Those who take part are workers. -/
def Staffed (p : Pool J) : Prop := ∀ w ∈ p.members, w.number < p.workers.size

theorem Staffed.congr {p' : Pool J} (hp : p.Staffed) (hm : p'.members = p.members)
    (hs : p'.workers.size = p.workers.size) : p'.Staffed := by
  intro w hw
  rw [hm] at hw
  rw [hs]
  exact hp w hw

theorem Staffed.modifyWorker (hp : p.Staffed) (w : WorkerId) (f : Worker J → Worker J) : (p.modifyWorker w f).Staffed :=
  hp.congr rfl (by simp [Pool.modifyWorker])

theorem leastLoaded_mem (p : Pool J) (first : WorkerId) (rest : List WorkerId) :
    p.leastLoaded first rest ∈ first :: rest := by
  unfold leastLoaded
  induction rest generalizing first with
  | nil => simp
  | cons w rest ih =>
      rw [List.foldl_cons]
      split
      · exact List.mem_cons_of_mem first (ih w)
      · have := ih first
        simp only [List.mem_cons] at this ⊢
        tauto

/-- The worker that is to have a job is there. -/
theorem Staffed.choose (hp : p.Staffed) : p.choose.2.Staffed ∧ p.choose.1.number < p.choose.2.workers.size := by
  have hhire : p.hire.2.Staffed ∧ p.hire.1.number < p.hire.2.workers.size := by
    refine ⟨fun w hw => ?_, by simp [hire]⟩
    rcases List.mem_append.1 hw with hw | hw
    · have := hp w hw
      simp only [hire, Array.size_push]
      omega
    · rw [List.mem_singleton.1 hw]
      simp [hire]
  unfold Pool.choose
  split
  · exact hhire
  · rename_i first rest hm
    split
    · exact hhire
    · exact ⟨hp, hp _ (hm ▸ leastLoaded_mem p first rest)⟩

theorem Staffed.submit (hp : p.Staffed) (job : J) : (p.submit job).Staffed :=
  hp.choose.1.modifyWorker _ _

theorem Staffed.jobs_submit (hp : p.Staffed) (job : J) : (p.submit job).jobs.Perm (job :: p.jobs) := by
  obtain ⟨_, hlt⟩ := hp.choose
  rw [← jobs_choose p]
  unfold Pool.submit
  have := jobs_modifyWorker (p := p.choose.2) (w := p.choose.1)
    (f := fun worker => { worker with queue := worker.queue ++ [job] }) (A := []) (B := [job])
    (Array.getElem?_eq_getElem hlt) (by
      simp only [Worker.jobs, List.nil_append, List.singleton_append, ← List.append_assoc]
      exact List.perm_append_singleton job _)
  simpa using this

theorem Staffed.engage (hp : p.Staffed) (w : WorkerId) : (p.engage w).Staffed := by
  have htake : (p.take w).Staffed := by
    unfold take
    dsimp only
    split
    · exact hp.modifyWorker _ _
    · exact hp
  have hsearch : ((p.take w).search w).Staffed := by
    unfold search
    dsimp only
    split
    · exact htake.modifyWorker _ _
    · exact htake
  have hsteal : ∀ p : Pool J, p.Staffed → (p.steal w).Staffed := by
    intro p hp
    unfold steal
    split
    · exact hp.modifyWorker _ _
    · split
      · exact hp.modifyWorker _ _
      · exact (hp.modifyWorker _ _).modifyWorker _ _
    · exact hp
  have hall : ∀ (members : List WorkerId) (p : Pool J), p.Staffed → (members.foldl (fun p _ => p.steal w) p).Staffed := by
    intro members
    induction members with
    | nil => exact fun p hp => hp
    | cons m rest ih => exact fun p hp => ih _ (hsteal p hp)
  have hstart : ∀ p : Pool J, p.Staffed → (p.start w).Staffed := by
    intro p hp
    unfold start
    split
    · exact (hp.modifyWorker _ _).congr rfl rfl
    · exact hp
  exact hstart _ (hall _ _ hsearch)

theorem Staffed.finish (hp : p.Staffed) (w : WorkerId) : (p.finish w).Staffed := by
  unfold Pool.finish
  split
  · exact (hp.modifyWorker _ _).congr rfl rfl
  · exact hp

theorem jobs_finish {w : WorkerId} {job : J} (ha : (p.workerAt w).activity = .running job) :
    (job :: (p.finish w).jobs).Perm p.jobs := by
  have hw := getElem?_of_activity ha (by simp)
  have := jobs_modifyWorker (p := p) (f := fun worker => { worker with activity := .idle }) (A := [job]) (B := []) hw
    (by simp [Worker.jobs, ha, Activity.job?])
  unfold finish
  simp only [ha]
  simpa [jobs] using this

end Pool

end Spool
