import Mathlib.Data.List.Flatten
import Spool.Proofs.Pool

/-!
# Workers and clients in any order

Clients submit jobs and may shut the pool down; workers take jobs, steal them, run them and retire. Whatever order their
steps come in, each job is in one place: in a queue, in the hands of a worker, or done.
-/

namespace Spool.Pool

variable {J : Type} {p : Pool J} {w x : WorkerId} {job : J}

/-- A step of a client or of a worker. -/
inductive Action (J : Type) where
  | submit (job : J)
  | take (w : WorkerId)
  | search (w : WorkerId)
  | steal (w : WorkerId)
  | start (w : WorkerId)
  | finish (w : WorkerId)
  | retire (w : WorkerId)
  | shutdown
  | leave (w : WorkerId)

def Action.submitted? : Action J → Option J
  | submit job => some job
  | _ => none

def act (p : Pool J) : Action J → Pool J
  | .submit job => p.submit job
  | .take w => p.take w
  | .search w => p.search w
  | .steal w => p.steal w
  | .start w => p.start w
  | .finish w => p.finish w
  | .retire w => p.retire w
  | .shutdown => p.shutdown
  | .leave w => p.leave w

/-- The job whose execution the step begins. -/
def started? (p : Pool J) : Action J → Option J
  | .start w =>
    match (p.workerAt w).activity with
    | .holding job => some job
    | _ => none
  | _ => none

def after (p : Pool J) (actions : List (Action J)) : Pool J := actions.foldl act p

/-- The jobs that have been submitted, one entry for each time. -/
def submitted (actions : List (Action J)) : List J := actions.filterMap Action.submitted?

/-- The jobs whose execution has begun, one entry for each time. -/
def started (p : Pool J) : List (Action J) → List J
  | [] => []
  | a :: rest => (p.started? a).toList ++ (p.act a).started rest

end Spool.Pool

namespace Spool

variable {J : Type}

def Activity.executing? : Activity J → Option J
  | running job => some job
  | _ => none

namespace Pool

variable {p : Pool J} {w x : WorkerId} {job : J}

/-- The jobs that are being executed. -/
def executing (p : Pool J) : List J := p.workers.toList.flatMap fun worker => worker.activity.executing?.toList

/-- Where a job can be. -/
inductive Place where
  | queue (w : WorkerId)
  | hands (w : WorkerId)
  | past

def Lies (p : Pool J) (job : J) : Place → Prop
  | .queue w => job ∈ (p.workerAt w).queue
  | .hands w => (p.workerAt w).activity.job? = some job
  | .past => job ∈ p.done

/-- Whoever has jobs in the queue takes part. -/
def Manned (p : Pool J) : Prop := ∀ w, (p.workerAt w).queue ≠ [] → w ∈ p.members

/-! ## Changing a worker -/

theorem workerAt_modifyWorker (p : Pool J) (w : WorkerId) (f : Worker J → Worker J) (x : WorkerId) :
    (p.modifyWorker w f).workerAt x = if w = x ∧ x.number < p.workers.size then f (p.workerAt x) else p.workerAt x := by
  simp only [workerAt, modifyWorker, Array.getD_eq_getD_getElem?, Array.getElem?_modify]
  by_cases hwx : w = x
  · subst hwx
    by_cases hlt : w.number < p.workers.size
    · simp [hlt]
    · simp [hlt]
  · have hnumber : w.number ≠ x.number := fun h => hwx (congrArg WorkerId.mk h)
    simp [hwx, hnumber]

/-- A step that neither brings a job nor begins or ends one, and that nobody joins. -/
structure Quiet (p p' : Pool J) : Prop where
  jobs : p'.jobs.Perm p.jobs
  executing : p'.executing.Perm p.executing
  done : p'.done = p.done
  running : p'.running = p.running
  settings : p'.settings = p.settings
  size : p'.workers.size = p.workers.size
  members : p'.members ⊆ p.members
  length : p'.members.length ≤ p.members.length

theorem Quiet.refl (p : Pool J) : p.Quiet p := ⟨.refl _, .refl _, rfl, rfl, rfl, rfl, fun _ h => h, Nat.le_refl _⟩

theorem Quiet.trans {p₁ p₂ : Pool J} (h : p.Quiet p₁) (h' : p₁.Quiet p₂) : p.Quiet p₂ where
  jobs := h'.jobs.trans h.jobs
  executing := h'.executing.trans h.executing
  done := h'.done.trans h.done
  running := h'.running.trans h.running
  settings := h'.settings.trans h.settings
  size := h'.size.trans h.size
  members := fun _ hx => h.members (h'.members hx)
  length := Nat.le_trans h'.length h.length

theorem quiet_modifyWorker {f : Worker J → Worker J}
    (hf : ∀ worker, p.workers[w.number]? = some worker → (f worker).jobs.Perm worker.jobs ∧
      (f worker).activity.executing? = worker.activity.executing?) : p.Quiet (p.modifyWorker w f) where
  jobs := jobs_modifyWorker_perm fun worker hw => (hf worker hw).1
  executing := flatMap_modifyWorker_perm fun worker hw => by rw [(hf worker hw).2]
  done := rfl
  running := rfl
  settings := rfl
  size := by simp [modifyWorker]
  members := fun _ h => h
  length := Nat.le_refl _

theorem quiet_take (p : Pool J) (w : WorkerId) : p.Quiet (p.take w) := by
  unfold take
  dsimp only
  split
  · rename_i job queue ha hq
    refine quiet_modifyWorker fun worker hw => ?_
    rw [workerAt_of_getElem? hw] at ha hq
    simp [Worker.jobs, ha, hq, Activity.job?, Activity.executing?]
  · exact .refl p

/-- A worker that neither takes up nor lays down a job. -/
theorem quiet_setActivity {a : Activity J} (hjob : (p.workerAt w).activity.job? = a.job?)
    (hexecuting : (p.workerAt w).activity.executing? = a.executing?) :
    p.Quiet (p.modifyWorker w fun worker => { worker with activity := a }) := by
  refine quiet_modifyWorker fun worker hw => ?_
  rw [workerAt_of_getElem? hw] at hjob hexecuting
  exact ⟨by simp [Worker.jobs, hjob], hexecuting.symm⟩

theorem quiet_search (p : Pool J) (w : WorkerId) : p.Quiet (p.search w) := by
  unfold search
  split
  · rename_i ha
    exact quiet_setActivity (by rw [ha]; rfl) (by rw [ha]; rfl)
  · exact .refl p

theorem quiet_steal (p : Pool J) (w : WorkerId) : p.Quiet (p.steal w) := by
  have hjobs := p.jobs_steal w
  unfold steal at hjobs ⊢
  split
  · rename_i ha
    exact quiet_setActivity (by rw [ha]; rfl) (by rw [ha]; rfl)
  · rename_i victim others ha
    split
    · exact quiet_setActivity (by rw [ha]; rfl) (by rw [ha]; rfl)
    · rename_i job queue hq
      simp only [ha, hq] at hjobs
      refine ⟨hjobs, ?_, rfl, rfl, rfl, by simp [modifyWorker], fun _ h => h, Nat.le_refl _⟩
      -- the victim goes on with what it does, and the thief has not been executing anything
      refine List.Perm.trans (flatMap_modifyWorker_perm fun worker hw => ?_) (flatMap_modifyWorker_perm fun _ _ => .refl _)
      have hthief : (p.modifyWorker victim fun worker => { worker with queue := queue.reverse }).workerAt w = worker :=
        workerAt_of_getElem? hw
      have hactivity : worker.activity = .searching (victim :: others) := by
        rw [← hthief, workerAt_modifyWorker]
        split <;> exact ha
      rw [hactivity]
      exact .refl _
  · exact .refl p

theorem quiet_leave (p : Pool J) (w : WorkerId) : p.Quiet (p.leave w) := by
  unfold leave
  dsimp only
  split
  · rename_i ha
    split
    · refine quiet_modifyWorker (p := p) fun worker hw => ?_
      rw [workerAt_of_getElem? hw] at ha
      simp [Worker.jobs, ha, Activity.job?, Activity.executing?]
    · exact .refl p
  · exact .refl p

theorem quiet_shutdown (p : Pool J) : p.Quiet p.shutdown := by
  have hstop : ∀ (members : List WorkerId) (p : Pool J),
      p.Quiet (members.foldl (fun p w => p.modifyWorker w fun worker => { worker with stopping := true }) p) := by
    intro members
    induction members with
    | nil => exact .refl
    | cons w rest ih =>
        intro p
        have hw : p.Quiet (p.modifyWorker w fun worker => { worker with stopping := true }) :=
          quiet_modifyWorker fun worker _ => ⟨.refl _, rfl⟩
        exact hw.trans (ih _)
  have h := hstop p.members p
  exact ⟨h.jobs, h.executing, h.done, h.running, h.settings, h.size, List.nil_subset _, Nat.zero_le _⟩

/-! ## Retiring -/

theorem removeMember_subset (members : List WorkerId) (w : WorkerId) : removeMember members w ⊆ members := by
  unfold removeMember
  split
  · exact List.nil_subset _
  · rename_i last others hr
    have hmembers : members = others.reverse ++ [last] := by
      rw [← List.reverse_reverse members, hr, List.reverse_cons]
    rw [hmembers]
    split
    · exact List.subset_append_left _ _
    · split
      · intro x hx
        obtain ⟨m, hm, rfl⟩ := List.mem_map.1 hx
        split
        · simp
        · exact List.mem_append_left _ hm
      · exact List.Subset.refl _

theorem length_removeMember_le (members : List WorkerId) (w : WorkerId) :
    (removeMember members w).length ≤ members.length := by
  unfold removeMember
  split
  · exact Nat.zero_le _
  · rename_i last others hr
    have hlength : members.length = others.length + 1 := by
      rw [← List.length_reverse, hr, List.length_cons]
    split
    · simp [hlength]
    · split
      · simp [hlength]
      · exact Nat.le_refl _

/-- The others stay. -/
theorem mem_removeMember {members : List WorkerId} (hx : x ∈ members) (hne : x ≠ w) : x ∈ removeMember members w := by
  rw [← List.mem_reverse] at hx
  unfold removeMember
  split
  · rename_i hr
    rw [hr] at hx
    exact hx
  · rename_i last others hr
    rw [hr, List.mem_cons] at hx
    split
    · rename_i hlast
      exact List.mem_reverse.2 (hx.resolve_left fun h => hne (h.trans hlast))
    · split
      · rename_i hw
        rcases hx with rfl | hx
        · exact List.mem_map.2 ⟨w, List.mem_reverse.2 hw, if_pos rfl⟩
        · exact List.mem_map.2 ⟨x, List.mem_reverse.2 hx, if_neg hne⟩
      · rw [← List.mem_reverse, hr]
        exact List.mem_cons.2 hx

theorem quiet_retire (p : Pool J) (w : WorkerId) : p.Quiet (p.retire w) := by
  unfold retire
  dsimp only
  split
  · rename_i ha hq
    have h : p.Quiet (p.modifyWorker w fun worker => { worker with activity := .gone }) :=
      quiet_setActivity (by rw [ha]; rfl) (by rw [ha]; rfl)
    exact ⟨h.jobs, h.executing, h.done, h.running, h.settings, h.size, removeMember_subset p.members w,
      length_removeMember_le p.members w⟩
  · exact .refl p

/-! ## Accounts of jobs -/

/-- What has been submitted and what has been started is where it should be. -/
structure Accounts (p : Pool J) (settings : PoolSettings) (submitted started : List J) : Prop where
  staffed : p.Staffed
  jobs : (p.jobs ++ p.done).Perm submitted
  executions : (p.executing ++ p.done).Perm started
  running : p.running = p.executing.length
  limit : p.members.length ≤ settings.maxWorkers
  positive : 0 < settings.maxWorkers
  settings : p.settings = settings

variable {p' : Pool J} {settings : PoolSettings} {subs starts : List J}

theorem Accounts.quiet (h : p.Accounts settings subs starts) (hq : p.Quiet p') : p'.Accounts settings subs starts where
  staffed x hx := hq.size ▸ h.staffed x (hq.members hx)
  jobs := hq.done ▸ (hq.jobs.append_right _).trans h.jobs
  executions := hq.done ▸ (hq.executing.append_right _).trans h.executions
  running := by rw [hq.running, h.running, hq.executing.length_eq]
  settings := hq.settings.trans h.settings
  limit := Nat.le_trans hq.length h.limit
  positive := h.positive

theorem accounts_empty (h : 0 < settings.maxWorkers) :
    ({ settings } : Pool J).Accounts settings [] [] :=
  ⟨fun _ hx => absurd hx List.not_mem_nil, .refl _, .refl _, rfl, Nat.zero_le _, h, rfl⟩

theorem choose_frame (p : Pool J) : p.choose.2.executing = p.executing ∧ p.choose.2.done = p.done ∧
    p.choose.2.running = p.running ∧ p.choose.2.settings = p.settings := by
  have hhire : p.hire.2.executing = p.executing := by
    simp [hire, executing, Activity.executing?]
  unfold choose
  split
  · exact ⟨hhire, rfl, rfl, rfl⟩
  · split
    · exact ⟨hhire, rfl, rfl, rfl⟩
    · exact ⟨rfl, rfl, rfl, rfl⟩

/-- A worker is hired only if there is none, or there may be more. -/
theorem length_choose_le (hl : p.members.length ≤ p.settings.maxWorkers) (hpos : 0 < p.settings.maxWorkers) :
    p.choose.2.members.length ≤ p.settings.maxWorkers := by
  unfold choose
  split
  · rename_i hm
    simpa [hire, hm] using Nat.succ_le_of_lt hpos
  · split
    · rename_i hwants
      simp only [wantsWorker, Bool.and_eq_true, decide_eq_true_eq] at hwants
      simpa [hire] using Nat.succ_le_of_lt hwants.2
    · exact hl

theorem Accounts.submit (h : p.Accounts settings subs starts) (job : J) : (p.submit job).Accounts settings (subs ++ [job]) starts := by
  obtain rfl := h.settings
  obtain ⟨hexecuting, hdone, hrunning, hsettings⟩ := p.choose_frame
  have hexec : (p.submit job).executing.Perm p.executing := by
    rw [← hexecuting]
    exact flatMap_modifyWorker_perm fun _ _ => .refl _
  have hdone' : (p.submit job).done = p.done := hdone
  have hrunning' : (p.submit job).running = p.running := hrunning
  refine ⟨h.staffed.submit job, ?_, ?_, ?_, length_choose_le h.limit h.positive, h.positive, hsettings⟩
  · rw [hdone']
    refine ((h.staffed.jobs_submit job).append_right _).trans ?_
    exact ((h.jobs.cons job).trans (List.perm_append_singleton job subs).symm)
  · rw [hdone']
    exact (hexec.append_right _).trans h.executions
  · rw [hrunning', h.running, hexec.length_eq]

theorem Accounts.start (h : p.Accounts settings subs starts) (w : WorkerId) :
    (p.start w).Accounts settings subs (starts ++ (p.started? (.start w)).toList) := by
  have hjobs := p.jobs_start w
  cases ha : (p.workerAt w).activity with
  | holding job =>
      have hw := getElem?_of_activity ha (by simp)
      have hexec : (p.modifyWorker w fun worker => { worker with activity := .running job }).executing.Perm
          (job :: p.executing) := by
        refine Table.perm_flatMap_modify (A := []) (B := [job]) hw ?_
        simp [ha, Activity.executing?]
      simp only [Pool.start, started?, ha] at hjobs ⊢
      refine ⟨(h.staffed.modifyWorker w _).congr rfl rfl, (hjobs.append_right _).trans h.jobs, ?_, ?_, h.limit,
        h.positive, h.settings⟩
      · refine (hexec.append_right p.done).trans ?_
        exact (h.executions.cons job).trans (List.perm_append_singleton job starts).symm
      · change p.running + 1 = _
        rw [h.running]
        exact hexec.length_eq.symm
  | _ =>
      simp only [Pool.start, started?, ha]
      simpa using h

theorem Accounts.finish (h : p.Accounts settings subs starts) (w : WorkerId) : (p.finish w).Accounts settings subs starts := by
  have hstaffed := h.staffed.finish w
  cases ha : (p.workerAt w).activity with
  | running job =>
      have hjobs := jobs_finish ha
      have hw := getElem?_of_activity ha (by simp)
      have hexec : (job :: (p.finish w).executing).Perm p.executing := by
        simp only [Pool.finish, ha]
        refine Table.perm_flatMap_modify (A := [job]) (B := []) hw ?_
        simp [ha, Activity.executing?]
      have hdone : (p.finish w).done = p.done ++ [job] := by
        simp only [Pool.finish, ha]
        rfl
      have hrunning : (p.finish w).running = p.running - 1 := by
        simp only [Pool.finish, ha]
        rfl
      have hrest : (p.finish w).members = p.members ∧ (p.finish w).settings = p.settings := by
        simp only [Pool.finish, ha]
        exact ⟨rfl, rfl⟩
      have hmove : ∀ xs : List J, (xs ++ (p.done ++ [job])).Perm (job :: xs ++ p.done) := by
        intro xs
        rw [← List.append_assoc]
        exact List.perm_append_singleton job _
      refine ⟨hstaffed, ?_, ?_, ?_, hrest.1 ▸ h.limit, h.positive, hrest.2.trans h.settings⟩
      · rw [hdone]
        exact (hmove _).trans ((hjobs.append_right p.done).trans h.jobs)
      · rw [hdone]
        exact (hmove _).trans ((hexec.append_right p.done).trans h.executions)
      · rw [hrunning, h.running, ← hexec.length_eq]
        rfl
  | _ =>
      have heq : p.finish w = p := by simp only [Pool.finish, ha]
      rw [heq]
      exact h

theorem Accounts.act (h : p.Accounts settings subs starts) (a : Action J) :
    (p.act a).Accounts settings (subs ++ a.submitted?.toList) (starts ++ (p.started? a).toList) := by
  cases a with
  | submit job => simpa [Pool.act, started?, Action.submitted?] using h.submit job
  | take w => simpa [Pool.act, started?, Action.submitted?] using h.quiet (p.quiet_take w)
  | search w => simpa [Pool.act, started?, Action.submitted?] using h.quiet (p.quiet_search w)
  | steal w => simpa [Pool.act, started?, Action.submitted?] using h.quiet (p.quiet_steal w)
  | start w => simpa [Pool.act, Action.submitted?] using h.start w
  | finish w => simpa [Pool.act, started?, Action.submitted?] using h.finish w
  | retire w => simpa [Pool.act, started?, Action.submitted?] using h.quiet (p.quiet_retire w)
  | shutdown => simpa [Pool.act, started?, Action.submitted?] using h.quiet p.quiet_shutdown
  | leave w => simpa [Pool.act, started?, Action.submitted?] using h.quiet (p.quiet_leave w)

theorem Accounts.after (actions : List (Action J)) : ∀ {p : Pool J} {subs starts : List J}, p.Accounts settings subs starts →
    (p.after actions).Accounts settings (subs ++ submitted actions) (starts ++ p.started actions) := by
  induction actions with
  | nil =>
      intro p subs starts h
      simpa [submitted, started, Pool.after] using h
  | cons a rest ih =>
      intro p subs starts h
      have hrest := ih (h.act a)
      have hsub : submitted (a :: rest) = a.submitted?.toList ++ submitted rest := by
        unfold submitted
        cases ha : a.submitted? <;> simp [ha]
      rw [hsub, started, ← List.append_assoc, ← List.append_assoc]
      exact hrest

/-! ## One place for each job -/

theorem getElem?_of_mem_jobs (h : job ∈ (p.workerAt w).jobs) : p.workers[w.number]? = some (p.workerAt w) := by
  refine getElem?_of_workerAt fun he => ?_
  rw [he] at h
  cases h

theorem mem_jobs : job ∈ p.jobs ↔ ∃ w, job ∈ (p.workerAt w).jobs := by
  unfold jobs
  rw [List.mem_flatMap]
  constructor
  · rintro ⟨worker, hworker, hjob⟩
    obtain ⟨i, hi, rfl⟩ := Array.mem_iff_getElem.1 (Array.mem_toList_iff.1 hworker)
    exact ⟨⟨i⟩, by rwa [workerAt_of_getElem? (w := ⟨i⟩) (Array.getElem?_eq_getElem hi)]⟩
  · rintro ⟨w, hjob⟩
    exact ⟨_, Array.mem_toList_iff.2 (Array.mem_of_getElem? (getElem?_of_mem_jobs hjob)), hjob⟩

/-- A job is with one worker. -/
theorem eq_of_mem_jobs (hn : p.jobs.Nodup) (hw : job ∈ (p.workerAt w).jobs) (hx : job ∈ (p.workerAt x).jobs) : w = x := by
  by_contra hne
  have hnumber : w.number ≠ x.number := fun h => hne (congrArg WorkerId.mk h)
  exact Table.not_mem_of_nodup_flatMap hn (getElem?_of_mem_jobs hw) (getElem?_of_mem_jobs hx) hnumber hw hx

theorem mem_jobs_of_lies_queue (h : p.Lies job (.queue w)) : job ∈ (p.workerAt w).jobs := List.mem_append_right _ h

theorem mem_jobs_of_lies_hands (h : p.Lies job (.hands w)) : job ∈ (p.workerAt w).jobs := by
  have hhands : (p.workerAt w).activity.job? = some job := h
  simp [Worker.jobs, hhands]

/-- A job that a worker has in its hands does not also wait in its queue. -/
theorem not_mem_queue (hn : p.jobs.Nodup) (hhands : (p.workerAt w).activity.job? = some job) :
    job ∉ (p.workerAt w).queue := by
  have hw := getElem?_of_mem_jobs (mem_jobs_of_lies_hands hhands)
  have hworker := (List.nodup_flatMap.1 hn).1 _ (Array.mem_toList_iff.2 (Array.mem_of_getElem? hw))
  rw [Worker.jobs, hhands] at hworker
  exact (List.nodup_cons.1 hworker).1

theorem exists_lies (h : job ∈ p.jobs ++ p.done) : ∃ place, p.Lies job place := by
  rcases List.mem_append.1 h with h | h
  · obtain ⟨w, hw⟩ := mem_jobs.1 h
    rcases List.mem_append.1 hw with hw | hw
    · exact ⟨.hands w, Option.mem_toList.1 hw⟩
    · exact ⟨.queue w, hw⟩
  · exact ⟨.past, h⟩

theorem Lies.unique {place place' : Place} (hn : (p.jobs ++ p.done).Nodup) (h : p.Lies job place)
    (h' : p.Lies job place') : place = place' := by
  obtain ⟨hjobs, -, hdone⟩ := List.nodup_append.1 hn
  have hpast : ∀ {w : WorkerId}, job ∈ (p.workerAt w).jobs → job ∉ p.done :=
    fun hw hd => hdone job (mem_jobs.2 ⟨_, hw⟩) job hd rfl
  match place, place' with
  | .queue w, .queue x => rw [eq_of_mem_jobs hjobs (mem_jobs_of_lies_queue h) (mem_jobs_of_lies_queue h')]
  | .hands w, .hands x => rw [eq_of_mem_jobs hjobs (mem_jobs_of_lies_hands h) (mem_jobs_of_lies_hands h')]
  | .past, .past => rfl
  | .queue w, .hands x =>
      obtain rfl := eq_of_mem_jobs hjobs (mem_jobs_of_lies_queue h) (mem_jobs_of_lies_hands h')
      exact absurd h (not_mem_queue hjobs h')
  | .hands w, .queue x =>
      obtain rfl := eq_of_mem_jobs hjobs (mem_jobs_of_lies_hands h) (mem_jobs_of_lies_queue h')
      exact absurd h' (not_mem_queue hjobs h)
  | .queue w, .past => exact absurd h' (hpast (mem_jobs_of_lies_queue h))
  | .hands w, .past => exact absurd h' (hpast (mem_jobs_of_lies_hands h))
  | .past, .queue x => exact absurd h (hpast (mem_jobs_of_lies_queue h'))
  | .past, .hands x => exact absurd h (hpast (mem_jobs_of_lies_hands h'))

/-! ## Queues of members -/

theorem Manned.modifyWorker {f : Worker J → Worker J} (h : p.Manned)
    (hf : (f (p.workerAt w)).queue ≠ [] → (p.workerAt w).queue ≠ []) : (p.modifyWorker w f).Manned := by
  intro x hx
  rw [workerAt_modifyWorker] at hx
  split at hx
  · rename_i hwx
    obtain ⟨rfl, -⟩ := hwx
    exact h w (hf hx)
  · exact h x hx

theorem manned_empty (settings : PoolSettings) : ({ settings } : Pool J).Manned := fun _ hw => absurd rfl hw

theorem workerAt_hire (p : Pool J) (x : WorkerId) : p.hire.2.workerAt x = p.workerAt x := by
  simp only [workerAt, hire, Array.getD_eq_getD_getElem?, Array.getElem?_push]
  split
  · rename_i hx
    simp [hx]
  · rfl

/-- The worker that is to have a job takes part. -/
theorem Manned.choose (h : p.Manned) : p.choose.2.Manned ∧ p.choose.1 ∈ p.choose.2.members := by
  have hhire : p.hire.2.Manned ∧ p.hire.1 ∈ p.hire.2.members := by
    refine ⟨fun x hx => ?_, List.mem_append_right _ (List.mem_singleton_self _)⟩
    rw [workerAt_hire] at hx
    exact List.mem_append_left _ (h x hx)
  unfold Pool.choose
  split
  · exact hhire
  · rename_i first rest hm
    split
    · exact hhire
    · exact ⟨h, hm ▸ leastLoaded_mem p first rest⟩

theorem Manned.submit (h : p.Manned) (job : J) : (p.submit job).Manned := by
  obtain ⟨hchosen, hmem⟩ := h.choose
  intro x hx
  change ((p.choose.2.modifyWorker p.choose.1 _).workerAt x).queue ≠ [] at hx
  rw [workerAt_modifyWorker] at hx
  split at hx
  · rename_i hwx
    exact hwx.1 ▸ hmem
  · exact hchosen x hx

theorem Manned.take (h : p.Manned) (w : WorkerId) : (p.take w).Manned := by
  unfold Pool.take
  dsimp only
  split
  · rename_i job queue ha hq
    exact h.modifyWorker fun _ => by simp [hq]
  · exact h

theorem Manned.search (h : p.Manned) (w : WorkerId) : (p.search w).Manned := by
  unfold Pool.search
  split
  · exact h.modifyWorker id
  · exact h

theorem Manned.steal (h : p.Manned) (w : WorkerId) : (p.steal w).Manned := by
  unfold Pool.steal
  split
  · exact h.modifyWorker id
  · rename_i victim others ha
    split
    · exact h.modifyWorker id
    · rename_i job queue hq
      have hvictim : (p.modifyWorker victim fun worker => { worker with queue := queue.reverse }).Manned := by
        refine h.modifyWorker fun _ he => ?_
        rw [he] at hq
        cases hq
      exact hvictim.modifyWorker id
  · exact h

theorem Manned.start (h : p.Manned) (w : WorkerId) : (p.start w).Manned := by
  unfold Pool.start
  split
  · exact h.modifyWorker (p := p) (w := w) id
  · exact h

theorem Manned.finish (h : p.Manned) (w : WorkerId) : (p.finish w).Manned := by
  unfold Pool.finish
  split
  · exact h.modifyWorker (p := p) (w := w) id
  · exact h

theorem Manned.leave (h : p.Manned) (w : WorkerId) : (p.leave w).Manned := by
  unfold Pool.leave
  dsimp only
  split
  · split
    · exact h.modifyWorker id
    · exact h
  · exact h

/-- Only a worker without jobs in its queue retires, and the others stay members. -/
theorem Manned.retire (h : p.Manned) (w : WorkerId) : (p.retire w).Manned := by
  unfold Pool.retire
  dsimp only
  split
  · rename_i ha hq
    intro x hx
    change ((p.modifyWorker w _).workerAt x).queue ≠ [] at hx
    rw [workerAt_modifyWorker] at hx
    have hx' : (p.workerAt x).queue ≠ [] := by
      split at hx
      · exact hx
      · exact hx
    exact mem_removeMember (h x hx') fun he => hx' (he ▸ hq)
  · exact h

theorem Manned.act (h : p.Manned) : ∀ {a : Action J}, a ≠ .shutdown → (p.act a).Manned
  | .submit job, _ => h.submit job
  | .take w, _ => h.take w
  | .search w, _ => h.search w
  | .steal w, _ => h.steal w
  | .start w, _ => h.start w
  | .finish w, _ => h.finish w
  | .retire w, _ => h.retire w
  | .leave w, _ => h.leave w
  | .shutdown, hne => absurd rfl hne

theorem Manned.after (actions : List (Action J)) : ∀ {p : Pool J}, p.Manned → .shutdown ∉ actions →
    (p.after actions).Manned := by
  induction actions with
  | nil => exact fun h _ => h
  | cons a rest ih =>
      intro p h hno
      rw [List.mem_cons, not_or] at hno
      exact ih (h.act (Ne.symm hno.1)) hno.2

/-! ## Every order of steps -/

theorem Accounts.started_eq (h : p.Accounts settings subs starts) : starts.length = p.running + p.done.length := by
  rw [h.running, ← h.executions.length_eq, List.length_append]

theorem Accounts.nodup (h : p.Accounts settings subs starts) (hn : subs.Nodup) : starts.Nodup := by
  have hall : (p.jobs ++ p.done).Nodup := h.jobs.nodup_iff.2 hn
  refine h.executions.nodup_iff.1 (hall.sublist (List.Sublist.append ?_ (List.Sublist.refl _)))
  -- what a worker executes is the first of its jobs
  refine List.Sublist.flatMap_right _ fun worker _ => ?_
  refine List.Sublist.trans ?_ (List.sublist_append_left _ _)
  cases worker.activity <;> simp [Activity.executing?, Activity.job?]

/-- A job that has been submitted waits in the queue of a worker, is in the hands of a worker, or is done; it is never
lost and never begun a second time. Nobody can leave jobs behind in a queue but by a shutdown. -/
theorem jobs_neither_lost_nor_repeated {r : PoolRequest} {settings : PoolSettings}
    (h : r.settings = .ok settings) (actions : List (Action J)) :
    let p := ({ settings } : Pool J).after actions
    let begun := ({ settings } : Pool J).started actions
    (p.jobs ++ p.done).Perm (submitted actions) ∧
      (p.executing ++ p.done).Perm begun ∧
      ((submitted actions).Nodup → begun.Nodup ∧ ∀ job ∈ submitted actions, ∃! place, p.Lies job place) ∧
      p.running = p.executing.length ∧ begun.length = p.running + p.done.length ∧
      p.members.length ≤ settings.maxWorkers ∧
      (.shutdown ∉ actions → p.Manned) := by
  intro p begun
  have hpositive : 0 < settings.maxWorkers := by
    unfold PoolRequest.settings at h
    dsimp only at h
    split at h
    · cases h
    · cases h
      exact Nat.pos_of_ne_zero ‹_›
  have haccounts : p.Accounts settings (submitted actions) begun := by
    simpa using (accounts_empty hpositive).after actions
  refine ⟨haccounts.jobs, haccounts.executions, fun hn => ⟨haccounts.nodup hn, fun job hjob => ?_⟩, haccounts.running,
    haccounts.started_eq, haccounts.limit, (manned_empty settings).after actions⟩
  obtain ⟨place, hplace⟩ := exists_lies (haccounts.jobs.mem_iff.2 hjob)
  exact ⟨place, hplace, fun other hother => Lies.unique (haccounts.jobs.nodup_iff.2 hn) hother hplace⟩

/-- Both workers look for a job while the other one is in the pool. A job is submitted meanwhile, to a worker that has
found its queue empty; the other one takes it from there, and the first retires. -/
def crossing : List (Action Nat) :=
  [.submit 10, .take ⟨0⟩, .start ⟨0⟩, .submit 11, .finish ⟨0⟩, .search ⟨0⟩, .take ⟨1⟩, .start ⟨1⟩, .submit 12, .finish ⟨1⟩,
    .search ⟨1⟩, .steal ⟨0⟩, .steal ⟨1⟩, .start ⟨1⟩, .steal ⟨0⟩, .retire ⟨0⟩]

theorem jobs_neither_lost_nor_repeated_crossing :
    let p := ({ settings := { maxWorkers := 2 } } : Pool Nat).after crossing
    p.members = [⟨1⟩] ∧ p.executing = [12] ∧ p.done = [10, 11] ∧ p.Manned ∧
      (({ settings := { maxWorkers := 2 } } : Pool Nat).started crossing).Nodup ∧
      ∀ job ∈ [10, 11, 12], ∃! place, p.Lies job place := by
  intro p
  have h := jobs_neither_lost_nor_repeated (r := { maxWorkers := some 2 }) rfl crossing
  obtain ⟨hbegun, hplace⟩ := h.2.2.1 (by decide)
  exact ⟨by decide, by decide, by decide, h.2.2.2.2.2.2 (by simp [crossing]), hbegun, hplace⟩

end Pool

end Spool
