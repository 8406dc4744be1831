import Spool.Proofs.Process.Roster

/-!
# No task in two places

A task that can run is in the queue, a task that waits is on the list of another task or stands for work done
elsewhere, and the task in hand is in neither place. The states of the tasks, the queue, the set of parked tasks and
the lists of waiters are kept by different hands; an ordered roster is one where they agree.
-/

namespace Spool.Roster

variable {r : Roster} {cur : Option TaskId} {K : List TaskId} {t x y : TaskId} {s : Standing} {state : TaskState} {v : Value}

def Runs (r : Roster) (t : TaskId) : Prop := ∃ s, r.at? t = some s ∧ (s.state = .new ∨ s.state = .running)

def Waits (r : Roster) (t : TaskId) : Prop := ∃ s, r.at? t = some s ∧ s.state = .waiting

theorem Waits.index_lt (h : r.Waits t) : t.index < r.tasks.size := by
  obtain ⟨_, hs, _⟩ := h
  exact index_lt_of_at? hs

theorem waits_await (ht : t.index < r.tasks.size) (delivery : Delivery) (reason : WaitReason) :
    (r.await t y delivery reason).Waits t := by
  have hrow : t.index < (r.update y (·.addDependent t delivery)).tasks.size := by simpa using ht
  have hat := at?_update (r.update y (·.addDependent t delivery)) t (·.park reason) t
  rw [if_pos rfl, at?_of_index_lt hrow] at hat
  exact ⟨_, hat, rfl⟩

/-- The task has failed and was never taken off the books. -/
def Stranded (r : Roster) (t : TaskId) : Prop := ∃ s, r.at? t = some s ∧ s.stranded

/-- All tasks are where they have to be. The task in hand is `cur`; the tasks in `K` wait for something other than a
task of the roster. -/
structure Ordered (r : Roster) (cur : Option TaskId) (K : List TaskId) : Prop where
  listed : r.waiting.Nodup
  places : (r.queue ++ (r.waiters ++ K)).Nodup
  queued : ∀ t ∈ r.queue, r.Runs t ∧ cur ≠ some t
  runs : ∀ t, r.Runs t → t ∈ r.queue ∨ cur = some t
  parked : ∀ t, t ∈ r.waiters ++ K ↔ r.Waits t
  waits : ∀ t, r.Waits t → t ∈ r.waiting
  books : ∀ t ∈ r.waiting, r.Waits t ∨ r.Stranded t ∨ cur = some t
  inHand : ∀ t, cur = some t → ∃ s, r.at? t = some s ∧ s.state ≠ .waiting
  settled : ∀ t s, r.at? t = some s → s.state.isFinished → s.dependents ≠ [] ∨ s.initializes ≠ none →
    cur = some t ∨ t ∈ r.waiting
  initializing : ∀ m t, r.modules.get? m = some (.initializing t) ↔ ∃ s, r.at? t = some s ∧ s.initializes = some m

/-- Nobody is moved. -/
theorem Ordered.congr {r' : Roster} (hr : r.Ordered cur K) (ht : r'.tasks = r.tasks) (hq : r'.queue = r.queue)
    (hw : r'.waiting = r.waiting) (hm : r'.modules = r.modules) : r'.Ordered cur K := by
  have hat : r'.at? = r.at? := by
    funext x
    simp [at?, ht]
  have hws : r'.waiters = r.waiters := by simp [waiters, ht]
  have hruns : r'.Runs = r.Runs := by simp [funext_iff, Runs, hat]
  have hwaits : r'.Waits = r.Waits := by simp [funext_iff, Waits, hat]
  have hstr : r'.Stranded = r.Stranded := by simp [funext_iff, Stranded, hat]
  constructor
  case listed => exact hw ▸ hr.listed
  case places => rw [hq, hws]; exact hr.places
  case queued => rw [hq, hruns]; exact hr.queued
  case runs => rw [hq, hruns]; exact hr.runs
  case parked => rw [hws, hwaits]; exact hr.parked
  case waits => rw [hw, hwaits]; exact hr.waits
  case books => rw [hw, hwaits, hstr]; exact hr.books
  case inHand => rw [hat]; exact hr.inHand
  case settled => rw [hat, hw]; exact hr.settled
  case initializing => rw [hat, hm]; exact hr.initializing

theorem Ordered.perm {K' : List TaskId} (hr : r.Ordered cur K) (hK : K.Perm K') : r.Ordered cur K' where
  listed := hr.listed
  places := ((hK.append_left _).append_left _).nodup_iff.1 hr.places
  queued := hr.queued
  runs := hr.runs
  parked t := ((hK.append_left r.waiters).mem_iff).symm.trans (hr.parked t)
  waits := hr.waits
  books := hr.books
  inHand := hr.inHand
  settled := hr.settled
  initializing := hr.initializing

theorem Ordered.not_mem_waiting (hr : r.Ordered none K) (ht : t ∈ r.queue) : t ∉ r.waiting := by
  intro hw
  obtain ⟨⟨s, hs, hstate⟩, _⟩ := hr.queued t ht
  rcases hr.books t hw with ⟨s', hs', hwaits⟩ | ⟨s', hs', hstr⟩ | h
  · cases hs.symm.trans hs'
    rw [hwaits] at hstate
    rcases hstate with h | h <;> cases h
  · cases hs.symm.trans hs'
    rcases hstate with h | h <;> simp [Standing.stranded, h] at hstr
  · cases h

/-- There are no tasks yet. -/
theorem Ordered.empty (ht : r.tasks = #[]) (hq : r.queue = []) (hw : r.waiting = [])
    (hm : ∀ m t, r.modules.get? m ≠ some (.initializing t)) : r.Ordered none [] := by
  have hat : ∀ t, r.at? t = none := by simp [at?, ht]
  constructor
  case listed => simp [hw]
  case places => simp [hq, waiters, ht]
  case queued => simp [hq]
  case runs => simp [Runs, hat]
  case parked => simp [waiters, ht, Waits, hat]
  case waits => simp [Waits, hat]
  case books => simp [hw]
  case inHand => simp
  case settled => simp [hat]
  case initializing => exact fun m t => ⟨fun h => absurd h (hm m t), fun h => by simp [hat] at h⟩

/-- Nothing that is done to a task changes what it has been made for. -/
theorem initializes_update (r : Roster) (t : TaskId) {f : Standing → Standing}
    (hf : ∀ s, (f s).initializes = s.initializes) (x : TaskId) (m : ModuleId) :
    (∃ s, (r.update t f).at? x = some s ∧ s.initializes = some m) ↔ ∃ s, r.at? x = some s ∧ s.initializes = some m := by
  rw [at?_update]
  split <;> simp [hf]

/-! ## The task in hand -/

/-- What the task in hand does to itself, other than wait. -/
theorem Ordered.updateCurrent (hr : r.Ordered (some t) K) {f : Standing → Standing}
    (hd : ∀ s, (f s).dependents = s.dependents) (hi : ∀ s, (f s).initializes = s.initializes)
    (hs : ∀ s, (f s).state ≠ .waiting) : (r.update t f).Ordered (some t) K := by
  have hws : (r.update t f).waiters = r.waiters :=
    waiters_update_frame r t fun s => by simp [Standing.waiters, hd]
  have hwaits : ∀ x, (r.update t f).Waits x ↔ r.Waits x := by
    intro x
    have := hr.inHand t rfl
    simp only [Waits, at?_update]
    grind
  constructor
  case listed => exact hr.listed
  case places => rw [hws]; exact hr.places
  case queued =>
    intro x hx
    have := hr.queued x hx
    simp only [Runs, at?_update] at this ⊢
    grind
  case runs =>
    intro x hx
    have := hr.runs x
    simp only [Runs, at?_update] at this hx
    change x ∈ r.queue ∨ _
    grind
  case parked =>
    intro x
    rw [hws, hwaits]
    exact hr.parked x
  case waits =>
    intro x hx
    exact hr.waits x ((hwaits x).1 hx)
  case books =>
    intro x hx
    have := hr.books x hx
    rw [hwaits]
    simp only [Stranded, at?_update] at this ⊢
    grind
  case inHand =>
    have := hr.inHand
    simp only [at?_update]
    grind
  case settled =>
    have := hr.settled
    simp only [at?_update]
    change ∀ x s, _ → _ → _ → some t = some x ∨ x ∈ r.waiting
    grind
  case initializing => exact fun m x => (hr.initializing m x).trans (initializes_update r t hi x m).symm

/-- The first task of the queue is taken in hand. -/
theorem Ordered.dequeue {queue : List TaskId} (hr : r.Ordered none K) (hq : r.queue = t :: queue) :
    ({ r with queue } : Roster).Ordered (some t) K := by
  have hplaces := hr.places
  rw [hq, List.cons_append, List.nodup_cons] at hplaces
  have hruns : ∀ x, ({ r with queue } : Roster).Runs x ↔ r.Runs x := fun _ => Iff.rfl
  have hwaits : ∀ x, ({ r with queue } : Roster).Waits x ↔ r.Waits x := fun _ => Iff.rfl
  constructor
  case listed => exact hr.listed
  case places => exact hplaces.2
  case queued =>
    intro x hx
    refine ⟨(hr.queued x (by simp [hq, show x ∈ queue from hx])).1, ?_⟩
    rintro h
    cases h
    exact hplaces.1 (List.mem_append_left _ hx)
  case runs =>
    intro x hx
    have := hr.runs x hx
    simp only [hq, List.mem_cons] at this
    change x ∈ queue ∨ _
    grind
  case parked => exact hr.parked
  case waits => exact hr.waits
  case books =>
    intro x hx
    rcases hr.books x hx with h | h | h
    · exact .inl h
    · exact .inr (.inl h)
    · cases h
  case inHand =>
    intro x hx
    cases hx
    obtain ⟨s, hs, hstate⟩ := (hr.queued t (by simp [hq])).1
    exact ⟨s, hs, by rcases hstate with h | h <;> simp [h]⟩
  case settled =>
    intro x s hx hfin hleft
    exact (hr.settled x s hx hfin hleft).imp (fun h => nomatch h) id
  case initializing => exact hr.initializing

/-- The task in hand waits for another one, which will tell it or never come to its end. -/
theorem Ordered.await (hr : r.Ordered (some t) K) (hy : ∃ s, r.at? y = some s ∧ (s.state.isFinished → y ∈ r.waiting))
    (delivery : Delivery) (reason : WaitReason) : (r.await t y delivery reason).Ordered none K := by
  obtain ⟨s, ht, _⟩ := hr.inHand t rfl
  obtain ⟨sy, hsy, hyfin⟩ := hy
  have hws : (r.await t y delivery reason).waiters.Perm (t :: r.waiters) := by
    have hpark : (r.await t y delivery reason).waiters = (r.update y (·.addDependent t delivery)).waiters :=
      waiters_update_frame _ t fun _ => rfl
    rw [hpark]
    apply waiters_update (A := []) (B := [t]) hsy
    simp [Standing.addDependent, Standing.waiters, List.perm_append_singleton]
  have hat : ∀ x, (r.await t y delivery reason).at? x = if t = x then
      (if y = x then (r.at? x).map (·.addDependent t delivery) else r.at? x).map (·.park reason)
      else if y = x then (r.at? x).map (·.addDependent t delivery) else r.at? x := by
    intro x
    rw [← at?_update, ← at?_update]
    rfl
  have hwaits : ∀ x, (r.await t y delivery reason).Waits x ↔ x = t ∨ r.Waits x := by
    intro x
    simp only [Waits, hat]
    grind [Standing.addDependent, Standing.park]
  have hstate := hr.inHand t rfl
  have htw : t ∉ r.waiters ++ K := by
    rw [hr.parked]
    simp only [Waits]
    grind
  have htq : t ∉ r.queue := fun h => (hr.queued t h).2 rfl
  have hmem : ∀ x, x ∈ (r.await t y delivery reason).waiting ↔ x = t ∨ x ∈ r.waiting := by
    intro x
    exact List.mem_insert_iff
  constructor
  case listed => exact hr.listed.insert
  case places =>
    have hperm : (r.queue ++ ((r.await t y delivery reason).waiters ++ K)).Perm (t :: (r.queue ++ (r.waiters ++ K))) :=
      ((hws.append_right K).append_left r.queue).trans List.perm_middle
    refine hperm.nodup_iff.2 (List.nodup_cons.2 ⟨?_, hr.places⟩)
    simp only [List.mem_append] at htw ⊢
    grind
  case queued =>
    intro x hx
    have := hr.queued x hx
    simp only [Runs, hat] at this ⊢
    grind [Standing.addDependent]
  case runs =>
    intro x hx
    have := hr.runs x
    obtain ⟨sx, hsx, hstate⟩ := hx
    rw [hat] at hsx
    change x ∈ r.queue ∨ _
    split at hsx
    · obtain ⟨old, _, rfl⟩ := Option.map_eq_some_iff.1 hsx
      simp [Standing.park] at hstate
    · rename_i htx
      split at hsx
      · obtain ⟨old, hold, rfl⟩ := Option.map_eq_some_iff.1 hsx
        exact .inl ((this ⟨old, hold, hstate⟩).resolve_right fun h => htx (Option.some.inj h))
      · exact .inl ((this ⟨sx, hsx, hstate⟩).resolve_right fun h => htx (Option.some.inj h))
  case parked =>
    intro x
    have := hr.parked x
    simp only [List.mem_append] at this ⊢
    rw [hwaits, hws.mem_iff, List.mem_cons]
    grind
  case waits =>
    intro x hx
    rw [hmem]
    exact ((hwaits x).1 hx).imp id (hr.waits x)
  case books =>
    intro x hx
    rw [hwaits]
    rcases (hmem x).1 hx with rfl | hx
    · exact .inl (.inl rfl)
    · rcases hr.books x hx with h | ⟨sx, hsx, hstr⟩ | h
      · exact .inl (.inr h)
      · by_cases hxt : t = x
        · exact .inl (.inl hxt.symm)
        · refine .inr (.inl ?_)
          simp only [Stranded, hat, if_neg hxt, hsx]
          split
          · exact ⟨_, rfl, hstr⟩
          · exact ⟨_, rfl, hstr⟩
      · cases h
        exact .inl (.inl rfl)
  case inHand => exact fun x hx => by cases hx
  case settled =>
    have := hr.settled
    intro x sx hx
    rw [hmem]
    simp only [hat] at hx
    grind [Standing.addDependent, Standing.park, TaskState.isFinished]
  case initializing =>
    intro m x
    have := hr.initializing m x
    change r.modules.get? m = _ ↔ _
    simp only [hat]
    grind [Standing.addDependent, Standing.park]

/-! ## New tasks -/

/-- A new task, and with it the module whose top level it runs. -/
theorem Ordered.begin (hr : r.Ordered cur K) (hs : s.state = .new) (hd : s.dependents = [])
    {modules : Bindings ModuleId ModuleState}
    (hm : ∀ m t, modules.get? m = some (.initializing t) ↔
      r.modules.get? m = some (.initializing t) ∨ t = r.next ∧ s.initializes = some m) :
    ({ r.start s with modules } : Roster).Ordered cur K := by
  have hat : ∀ x, ({ r.start s with modules } : Roster).at? x = if x = r.next then some s else r.at? x := at?_add r s
  have hws : ({ r.start s with modules } : Roster).waiters = r.waiters := waiters_add_nil r hd
  have hnext := at?_next r
  have hwaits : ∀ x, ({ r.start s with modules } : Roster).Waits x ↔ r.Waits x := by
    intro x
    simp only [Waits, hat]
    grind
  have hnq : r.next ∉ r.queue ++ (r.waiters ++ K) := by
    have h₁ := hr.queued r.next
    have h₂ := hr.parked r.next
    simp only [Runs, Waits, List.mem_append] at h₁ h₂ ⊢
    grind
  have hncur : cur ≠ some r.next := by
    intro h
    have := hr.inHand r.next h
    grind
  have hmem : ∀ x, x ∈ ({ r.start s with modules } : Roster).queue ↔ x ∈ r.queue ∨ x = r.next := by
    intro x
    simp [Roster.start, Roster.enqueue, Roster.add]
  constructor
  case listed => exact hr.listed
  case places =>
    rw [hws]
    have hperm : (r.queue ++ [r.next] ++ (r.waiters ++ K)).Perm (r.next :: (r.queue ++ (r.waiters ++ K))) := by
      simp [List.perm_middle]
    exact hperm.nodup_iff.2 (List.nodup_cons.2 ⟨hnq, hr.places⟩)
  case queued =>
    intro x hx
    have := hr.queued x
    rw [hmem] at hx
    simp only [Runs, hat] at this ⊢
    grind
  case runs =>
    intro x hx
    have := hr.runs x
    rw [hmem]
    simp only [Runs, hat] at this hx
    grind
  case parked =>
    intro x
    rw [hws, hwaits]
    exact hr.parked x
  case waits => exact fun x hx => hr.waits x ((hwaits x).1 hx)
  case books =>
    intro x hx
    have := hr.books x hx
    rw [hwaits]
    simp only [Stranded, hat] at this ⊢
    grind
  case inHand =>
    intro x hx
    have := hr.inHand x hx
    simp only [hat]
    grind
  case settled =>
    have := hr.settled
    intro x sx hx
    simp only [hat] at hx
    change _ → _ → _ ∨ x ∈ r.waiting
    grind [TaskState.isFinished]
  case initializing =>
    intro m x
    have := hr.initializing m x
    rw [show ({ r.start s with modules } : Roster).modules = modules from rfl, hm]
    simp only [hat]
    grind

theorem Ordered.start (hr : r.Ordered cur K) (hs : s.state = .new) (hd : s.dependents = []) (hi : s.initializes = none) :
    (r.start s).Ordered cur K := by
  have h : ({ r.start s with modules := r.modules } : Roster).Ordered cur K := hr.begin hs hd (by simp [hi])
  exact h

theorem Ordered.load (hr : r.Ordered cur K) (hs : s.state = .new) (hd : s.dependents = []) {m : ModuleId}
    (hi : s.initializes = some m) (hm : ∀ t, r.modules.get? m ≠ some (.initializing t)) :
    ((r.start s).setModule m (.initializing r.next)).Ordered cur K := by
  refine hr.begin hs hd fun m' t => ?_
  have := hm t
  change (r.modules.insert m (.initializing r.next)).get? m' = _ ↔ _
  rw [Bindings.get?_insert]
  grind

theorem Ordered.carry (hr : r.Ordered cur K) (parent : TaskId) : (r.carry parent).Ordered cur (r.next :: K) := by
  have hat : ∀ x, (r.carry parent).at? x = if x = r.next then some (.carrier parent) else r.at? x := at?_add r _
  have hws : (r.carry parent).waiters = r.waiters := waiters_add_nil r rfl
  have hnext := at?_next r
  have hwaits : ∀ x, (r.carry parent).Waits x ↔ x = r.next ∨ r.Waits x := by
    intro x
    simp only [Waits, hat]
    grind [Standing.carrier]
  have hmem : ∀ x, x ∈ (r.carry parent).waiting ↔ x = r.next ∨ x ∈ r.waiting := fun x => List.mem_insert_iff
  constructor
  case listed => exact hr.listed.insert
  case places =>
    rw [hws]
    have hperm : (r.queue ++ (r.waiters ++ r.next :: K)).Perm (r.next :: (r.queue ++ (r.waiters ++ K))) :=
      (List.perm_middle.append_left r.queue).trans List.perm_middle
    refine hperm.nodup_iff.2 (List.nodup_cons.2 ⟨?_, hr.places⟩)
    have h₁ := hr.queued r.next
    have h₂ := hr.parked r.next
    simp only [Runs, Waits, List.mem_append] at h₁ h₂ ⊢
    grind
  case queued =>
    intro x hx
    have := hr.queued x hx
    simp only [Runs, hat] at this ⊢
    grind
  case runs =>
    intro x hx
    have := hr.runs x
    simp only [Runs, hat] at this hx
    change x ∈ r.queue ∨ _
    grind [Standing.carrier]
  case parked =>
    intro x
    have := hr.parked x
    simp only [List.mem_append, List.mem_cons] at this ⊢
    rw [hws, hwaits]
    grind
  case waits =>
    intro x hx
    rw [hmem]
    exact ((hwaits x).1 hx).imp id (hr.waits x)
  case books =>
    intro x hx
    have := hr.books x
    rw [hwaits]
    rw [hmem] at hx
    simp only [Stranded, hat] at this ⊢
    grind
  case inHand =>
    intro x hx
    have := hr.inHand x hx
    simp only [hat]
    grind
  case settled =>
    have := hr.settled
    intro x sx hx
    rw [hmem]
    simp only [hat] at hx
    grind [Standing.carrier, TaskState.isFinished]
  case initializing =>
    intro m x
    have := hr.initializing m x
    change r.modules.get? m = _ ↔ _
    simp only [hat]
    grind [Standing.carrier]

/-! ## Finished tasks -/

/-- A task that stands for work done elsewhere comes to its end. -/
theorem Ordered.endCarrier (hr : r.Ordered none (t :: K)) {f : Standing → Standing}
    (hd : ∀ s, (f s).dependents = s.dependents) (hi : ∀ s, (f s).initializes = s.initializes)
    (hs : ∀ s, (f s).state.isFinished) : (r.update t f).Ordered (some t) K := by
  have hws : (r.update t f).waiters = r.waiters :=
    waiters_update_frame r t fun s => by simp [Standing.waiters, hd]
  have htw : r.Waits t := (hr.parked t).1 (by simp)
  have hperm : (r.queue ++ (r.waiters ++ t :: K)).Perm (t :: (r.queue ++ (r.waiters ++ K))) :=
    (List.perm_middle.append_left r.queue).trans List.perm_middle
  have hplaces := List.nodup_cons.1 (hperm.nodup_iff.1 hr.places)
  have hf : ∀ s, (f s).state ≠ .waiting := by
    intro s h
    have := hs s
    rw [h] at this
    cases this
  have hwaits : ∀ x, (r.update t f).Waits x ↔ x ≠ t ∧ r.Waits x := by
    intro x
    simp only [Waits, at?_update]
    by_cases hxt : t = x
    · simp [hxt, hf]
    · simp [hxt, Ne.symm hxt]
  constructor
  case listed => exact hr.listed
  case places => rw [hws]; exact hplaces.2
  case queued =>
    intro x hx
    have hxt : t ≠ x := by
      rintro rfl
      exact hplaces.1 (List.mem_append_left _ hx)
    obtain ⟨s, hs, hstate⟩ := (hr.queued x hx).1
    refine ⟨⟨s, ?_, hstate⟩, fun h => hxt (Option.some.inj h)⟩
    rw [at?_update, if_neg hxt]
    exact hs
  case runs =>
    intro x hx
    have := hr.runs x
    simp only [Runs, at?_update] at this hx
    change x ∈ r.queue ∨ _
    grind
  case parked =>
    intro x
    have := hr.parked x
    rw [hws, hwaits, ← this]
    simp only [List.mem_append, List.mem_cons] at hplaces ⊢
    grind
  case waits => exact fun x hx => hr.waits x ((hwaits x).1 hx).2
  case books =>
    intro x hx
    have := hr.books x hx
    rw [hwaits]
    simp only [Stranded, at?_update] at this ⊢
    grind
  case inHand =>
    intro x hx
    cases hx
    obtain ⟨s, hst, _⟩ := htw
    refine ⟨f s, ?_, hf s⟩
    simp [at?_update, hst]
  case settled =>
    have := hr.settled
    simp only [at?_update]
    change ∀ x s, _ → _ → _ → some t = some x ∨ x ∈ r.waiting
    grind
  case initializing => exact fun m x => (hr.initializing m x).trans (initializes_update r t hi x m).symm

theorem modules_markReady (r : Roster) (m : Option ModuleId) (m' : ModuleId) (x : TaskId) :
    (r.markReady m).modules.get? m' = some (.initializing x) ↔
      r.modules.get? m' = some (.initializing x) ∧ m ≠ some m' := by
  cases m with
  | none => simp [markReady]
  | some m =>
      simp only [markReady, setModule, Bindings.get?_insert]
      grind

theorem at?_markReady (r : Roster) (m : Option ModuleId) : (r.markReady m).at? = r.at? := by
  cases m <;> rfl

theorem at?_clear (r : Roster) (t x : TaskId) :
    (r.clear t).at? x = if t = x then (r.at? x).map Standing.clear else r.at? x := by
  have := at?_update (r.markReady (r.standingAt t).initializes) t Standing.clear x
  rw [at?_markReady] at this
  exact this

theorem waiters_clear (hs : r.at? t = some s) : (s.waiters ++ (r.clear t).waiters).Perm r.waiters := by
  have hready : (r.markReady (r.standingAt t).initializes).waiters = r.waiters := by
    cases (r.standingAt t).initializes <;> rfl
  have hat : (r.markReady (r.standingAt t).initializes).at? t = some s := by rw [at?_markReady]; exact hs
  have := waiters_update (f := Standing.clear) (A := s.waiters) (B := []) hat (by simp [Standing.clear, Standing.waiters])
  rw [hready] at this
  exact this

/-- Those who have waited for a finished task have to be told. -/
theorem Ordered.clear (hr : r.Ordered (some t) K) (hs : r.at? t = some s) (hfin : s.state.isFinished) :
    (r.clear t).Ordered none (s.waiters ++ K) := by
  have hws := waiters_clear hs
  have hlist : ((r.clear t).waiters ++ (s.waiters ++ K)).Perm (r.waiters ++ K) := by
    rw [← List.append_assoc]
    exact (List.perm_append_comm.trans hws).append_right K
  have hwaits : ∀ x, (r.clear t).Waits x ↔ r.Waits x := by
    intro x
    simp only [Waits, at?_clear]
    grind [Standing.clear, TaskState.isFinished]
  have hmem : ∀ x, x ∈ (r.clear t).waiting ↔ x ≠ t ∧ x ∈ r.waiting := fun x => hr.listed.mem_erase_iff
  have hqueue : (r.clear t).queue = r.queue := by
    change (r.markReady _).queue = _
    cases (r.standingAt t).initializes <;> rfl
  constructor
  case listed => exact hr.listed.erase t
  case places =>
    rw [hqueue]
    exact (hlist.append_left r.queue).nodup_iff.2 hr.places
  case queued =>
    intro x hx
    rw [hqueue] at hx
    have := hr.queued x hx
    simp only [Runs, at?_clear] at this ⊢
    grind [Standing.clear]
  case runs =>
    rintro x ⟨sx, hsx, hstate⟩
    rw [hqueue]
    rw [at?_clear] at hsx
    split at hsx
    · rename_i hxt
      subst hxt
      rw [hs] at hsx
      cases hsx
      rcases hstate with h | h <;> simp [Standing.clear] at h <;> simp [h, TaskState.isFinished] at hfin
    · rename_i hxt
      exact .inl ((hr.runs x ⟨sx, hsx, hstate⟩).resolve_right fun h => hxt (Option.some.inj h))
  case parked =>
    intro x
    rw [hlist.mem_iff, hwaits]
    exact hr.parked x
  case waits =>
    intro x hx
    rw [hmem]
    have hw := (hwaits x).1 hx
    refine ⟨?_, hr.waits x hw⟩
    rintro rfl
    obtain ⟨s', hs', hstate⟩ := hw
    cases hs.symm.trans hs'
    rw [hstate] at hfin
    cases hfin
  case books =>
    intro x hx
    obtain ⟨hxt, hx⟩ := (hmem x).1 hx
    rw [hwaits]
    rcases hr.books x hx with h | ⟨sx, hsx, hstr⟩ | h
    · exact .inl h
    · refine .inr (.inl ⟨sx, ?_, hstr⟩)
      rw [at?_clear, if_neg (Ne.symm hxt)]
      exact hsx
    · exact absurd (Option.some.inj h).symm hxt
  case inHand => exact fun x hx => by cases hx
  case settled =>
    intro x sx hx hfin hleft
    rw [hmem]
    rw [at?_clear] at hx
    split at hx
    · obtain ⟨old, _, rfl⟩ := Option.map_eq_some_iff.1 hx
      simp [Standing.clear] at hleft
    · rename_i hxt
      have := hr.settled x sx hx hfin hleft
      grind
  case initializing =>
    intro m x
    have h₁ := hr.initializing m x
    have h₂ := hr.initializing m t
    change (r.markReady _).modules.get? m = _ ↔ _
    rw [modules_markReady, standingAt_of_at? hs]
    simp only [at?_clear]
    grind [Standing.clear]

/-- One who has waited is told, and goes to the queue or is stranded. -/
theorem Ordered.deliver {d : Dependent} (hr : r.Ordered none (d.task :: K)) (failed : Bool) (result : Value) :
    (r.deliver failed result d).Ordered none K := by
  obtain ⟨s, hs, hstate⟩ := (hr.parked d.task).1 (by simp)
  have hperm : (r.queue ++ (r.waiters ++ d.task :: K)).Perm (d.task :: (r.queue ++ (r.waiters ++ K))) :=
    (List.perm_middle.append_left r.queue).trans List.perm_middle
  have hplaces := List.nodup_cons.1 (hperm.nodup_iff.1 hr.places)
  have hun : (r.standingAt d.task).state.isFinished = false := by
    rw [standingAt_of_at? hs, hstate]
    rfl
  have hlist : ∀ x, x ∈ r.waiters ++ K ↔ x ≠ d.task ∧ r.Waits x := by
    intro x
    rw [← hr.parked x]
    simp only [List.mem_append, List.mem_cons] at hplaces ⊢
    grind
  unfold Roster.deliver
  rw [hun, if_neg (by simp)]
  split
  · -- the task fails and stays on the books
    rename_i hfail
    have hobj : result.handle? = none := by simp_all
    have hws : (r.update d.task (·.fail result)).waiters = r.waiters := waiters_update_frame r _ fun _ => rfl
    have hwaits : ∀ x, (r.update d.task (·.fail result)).Waits x ↔ x ≠ d.task ∧ r.Waits x := by
      intro x
      simp only [Waits, at?_update]
      grind [Standing.fail, Standing.conclude]
    have hself : (r.update d.task (·.fail result)).Stranded d.task := by
      refine ⟨s.fail result, ?_, by simp [Standing.stranded, Standing.fail, Standing.conclude, hobj]⟩
      simp [at?_update, hs]
    constructor
    case listed => exact hr.listed
    case places => rw [hws]; exact hplaces.2
    case queued =>
      intro x hx
      have := hr.queued x hx
      simp only [Runs, at?_update] at this ⊢
      grind
    case runs =>
      intro x hx
      have := hr.runs x
      simp only [Runs, at?_update] at this hx
      change x ∈ r.queue ∨ _
      grind [Standing.fail, Standing.conclude]
    case parked =>
      intro x
      rw [hws, hwaits]
      exact hlist x
    case waits => exact fun x hx => hr.waits x ((hwaits x).1 hx).2
    case books =>
      intro x hx
      by_cases hxd : x = d.task
      · exact .inr (.inl (hxd ▸ hself))
      · have := hr.books x hx
        rw [hwaits]
        simp only [Stranded, at?_update] at this ⊢
        grind
    case inHand => exact fun x hx => by cases hx
    case settled =>
      intro x sx hx hfin hleft
      rw [at?_update] at hx
      split at hx
      · rename_i hdx
        exact .inr (hdx ▸ hr.waits _ ⟨s, hs, hstate⟩)
      · exact hr.settled x sx hx hfin hleft
    case initializing => exact fun m x =>
      (hr.initializing m x).trans (initializes_update r d.task (f := (·.fail result)) (fun _ => rfl) x m).symm
  · -- the task goes to the queue
    have hwake : r.wake d.task = { r.update d.task Standing.wake with
        waiting := r.waiting.erase d.task, queue := r.queue ++ [d.task] } := by
      rw [Roster.wake, hun, if_neg (by simp)]
    have hat : ∀ x, (r.wake d.task).at? x = if d.task = x then (r.at? x).map Standing.wake else r.at? x := by
      intro x
      rw [hwake, ← at?_update]
      rfl
    have hws : (r.wake d.task).waiters = r.waiters := by
      rw [hwake]
      exact waiters_update_frame r _ fun _ => rfl
    have hqueue : (r.wake d.task).queue = r.queue ++ [d.task] := by rw [hwake]
    have hmem : ∀ x, x ∈ (r.wake d.task).waiting ↔ x ≠ d.task ∧ x ∈ r.waiting := by
      intro x
      rw [hwake]
      exact hr.listed.mem_erase_iff
    have hwaits : ∀ x, (r.wake d.task).Waits x ↔ x ≠ d.task ∧ r.Waits x := by
      intro x
      simp only [Waits, hat]
      grind [Standing.wake]
    constructor
    case listed =>
      rw [hwake]
      exact hr.listed.erase _
    case places =>
      rw [hqueue, hws, List.append_assoc]
      have hmid : (r.queue ++ ([d.task] ++ (r.waiters ++ K))).Perm (d.task :: (r.queue ++ (r.waiters ++ K))) := by
        simp [List.perm_middle]
      exact hmid.nodup_iff.2 (List.nodup_cons.2 hplaces)
    case queued =>
      intro x hx
      rw [hqueue] at hx
      have := hr.queued x
      simp only [Runs, hat] at this ⊢
      simp only [List.mem_append, List.mem_singleton] at hx
      grind [Standing.wake]
    case runs =>
      intro x hx
      have := hr.runs x
      rw [hqueue]
      simp only [Runs, hat] at this hx
      simp only [List.mem_append, List.mem_singleton]
      grind
    case parked =>
      intro x
      rw [hws, hwaits]
      exact hlist x
    case waits =>
      intro x hx
      obtain ⟨hxd, hx⟩ := (hwaits x).1 hx
      exact (hmem x).2 ⟨hxd, hr.waits x hx⟩
    case books =>
      intro x hx
      obtain ⟨hxd, hx⟩ := (hmem x).1 hx
      have := hr.books x hx
      rw [hwaits]
      simp only [Stranded, hat] at this ⊢
      grind
    case inHand => exact fun x hx => by cases hx
    case settled =>
      intro x sx hx hfin hleft
      rw [hat] at hx
      rw [hmem]
      split at hx
      · obtain ⟨old, _, rfl⟩ := Option.map_eq_some_iff.1 hx
        cases hfin
      · have := hr.settled x sx hx hfin hleft
        grind
    case initializing =>
      intro m x
      have hmod : (r.wake d.task).modules = r.modules := by rw [hwake]; rfl
      rw [hmod]
      have := hr.initializing m x
      simp only [hat]
      grind [Standing.wake]

theorem Ordered.deliverAll (failed : Bool) (result : Value) (ds : List Dependent) :
    ∀ {r : Roster}, r.Ordered none (ds.map Dependent.task ++ K) →
      (ds.foldl (fun r d => r.deliver failed result d) r).Ordered none K := by
  induction ds with
  | nil => exact fun hr => hr
  | cons d rest ih => exact fun hr => ih (hr.deliver failed result)

/-- A task has come to its end, and everybody who has waited for it is told. -/
theorem Ordered.finish (hr : r.Ordered (some t) K) (hfin : (r.standingAt t).state.isFinished) :
    (r.finish t).Ordered none K := by
  obtain ⟨s, hs, _⟩ := hr.inHand t rfl
  rw [standingAt_of_at? hs] at hfin
  have h := hr.clear hs hfin
  simp only [Roster.finish, standingAt_of_at? hs]
  exact h.deliverAll _ _ _

/-- A task that has come to its end is taken off the books, once its result is on the list. -/
theorem Ordered.finish_owe (hr : (r.update t (·.conclude state v)).Ordered (some t) K) (hfin : state.isFinished) :
    (r.conclude t state v).Ordered none K := by
  have howe : ((r.update t (·.conclude state v)).owe t).Ordered (some t) K := hr.congr rfl rfl rfl rfl
  refine howe.finish ?_
  obtain ⟨s, hs, _⟩ := hr.inHand t rfl
  have hrow := at?_update r t (·.conclude state v) t
  rw [if_pos rfl, hs] at hrow
  obtain ⟨old, _, rfl⟩ := Option.map_eq_some_iff.1 hrow.symm
  change ((r.update t (·.conclude state v)).standingAt t).state.isFinished
  rw [standingAt_of_at? hs]
  exact hfin

theorem ne_waiting_of_isFinished (hfin : state.isFinished) : state ≠ .waiting := by
  rintro rfl
  cases hfin

/-- The task in hand comes to its end. -/
theorem Ordered.conclude (hr : r.Ordered (some t) K) (hfin : state.isFinished) :
    (r.conclude t state v).Ordered none K := by
  have h : (r.update t (·.conclude state v)).Ordered (some t) K :=
    hr.updateCurrent (fun _ => rfl) (fun _ => rfl) fun _ => ne_waiting_of_isFinished hfin
  exact h.finish_owe hfin

/-- A task that stands for work done elsewhere comes to its end. -/
theorem Ordered.settle (hr : r.Ordered none (t :: K)) (hfin : state.isFinished) :
    (r.conclude t state v).Ordered none K := by
  have h : (r.update t (·.conclude state v)).Ordered (some t) K :=
    hr.endCarrier (fun _ => rfl) (fun _ => rfl) fun _ => hfin
  exact h.finish_owe hfin

end Spool.Roster
