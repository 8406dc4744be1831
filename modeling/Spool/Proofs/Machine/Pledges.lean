import Spool.Proofs.Machine.View
import Spool.Proofs.Pool

/-!
# Results that are pledged

A task that stands for work done elsewhere gets a result from a background call, from a call that has come back, or
from a task of another process. Each such task is pledged one result, and a pledge is redeemed once. What a running
task does keeps its roster in order, and leaves alone what is pledged to others.
-/

namespace Spool

/-- The tasks of a process among those that a result is pledged to. -/
def due (id : ProcessId) (pledges : List RemoteLink) : List TaskId :=
  (pledges.filter fun link => link.process = id).map RemoteLink.task

section
variable {id : ProcessId} {A B : List RemoteLink}

theorem due_append (id : ProcessId) (A B : List RemoteLink) : due id (A ++ B) = due id A ++ due id B := by
  simp [due]

theorem due_cons_self (id : ProcessId) (t : TaskId) (A : List RemoteLink) : due id (⟨id, t⟩ :: A) = t :: due id A := by
  simp [due]

theorem due_cons_of_ne {x : ProcessId} (hx : x ≠ id) (t : TaskId) (A : List RemoteLink) :
    due x (⟨id, t⟩ :: A) = due x A := by
  simp [due, Ne.symm hx]

theorem due_perm (id : ProcessId) (h : A.Perm B) : (due id A).Perm (due id B) := (h.filter _).map _

theorem due_sublist (id : ProcessId) (h : A.Sublist B) : (due id A).Sublist (due id B) := (h.filter _).map _

theorem due_own (id : ProcessId) (ts : List TaskId) : due id (ts.map (⟨id, ·⟩)) = ts := by
  induction ts with
  | nil => rfl
  | cons t rest ih => rw [List.map_cons, due_cons_self, ih]

theorem mem_due {t : TaskId} : t ∈ due id A ↔ ⟨id, t⟩ ∈ A := by
  simp only [due, List.mem_map, List.mem_filter, decide_eq_true_eq]
  constructor
  · rintro ⟨⟨process, task⟩, ⟨hmem, rfl⟩, rfl⟩
    exact hmem
  · exact fun h => ⟨_, ⟨h, rfl⟩, rfl⟩

end

/-! ## Results for other processes -/

namespace Standing

variable {s : Standing}

theorem due_of_unfinished (hs : ¬ s.state.isFinished) : s.due = s.remote.toList := by
  simp [due, pending, hs]

theorem due_wake (hs : ¬ s.state.isFinished) : s.wake.due = s.due := by
  rw [due_of_unfinished hs, due_of_unfinished (s := s.wake) (by simp [wake, TaskState.isFinished])]
  rfl

theorem due_park (hs : ¬ s.state.isFinished) (reason : WaitReason) : (s.park reason).due = s.due := by
  rw [due_of_unfinished hs, due_of_unfinished (s := s.park reason) (by simp [park, TaskState.isFinished])]
  rfl

/-- A task that has come to its end owes nothing: its result is on the list. -/
theorem due_conclude {state : TaskState} {v : Value} (h : state.Reaches v) : (s.conclude state v).due = [] := by
  rcases h with rfl | ⟨rfl, hv⟩
  · simp [due, pending, stranded, conclude, TaskState.isFinished]
  · simp [due, pending, stranded, conclude, TaskState.isFinished, Option.isNone_iff_eq_none, Option.isSome_iff_ne_none.1 hv]

/-- A task that fails without an error object still owes its result. -/
theorem due_fail (hs : ¬ s.state.isFinished) {error : Value} (he : error.handle? = none) : (s.fail error).due = s.due := by
  rw [due_of_unfinished hs]
  simp [due, pending, stranded, fail, conclude, he]

end Standing

namespace Roster

variable {r : Roster} {t x : TaskId} {s : Standing}

theorem links_update {f : Standing → Standing} {A B : List RemoteLink} (hs : r.at? t = some s)
    (hf : (A ++ (f s).due).Perm (B ++ s.due)) : (A ++ (r.update t f).links).Perm (B ++ r.links) := by
  have := (Table.perm_flatMap_modify (g := Standing.due) hs hf).append_right (r.outgoing.map Outgoing.link)
  simpa [links, update, List.append_assoc] using this

/-- A change of a row that owes what it has owed. -/
theorem links_update_frame {f : Standing → Standing} (hf : ∀ s, r.at? t = some s → (f s).due = s.due) :
    (r.update t f).links.Perm r.links := by
  cases hs : r.at? t with
  | none => rw [update_eq_self hs]
  | some s => simpa using links_update (A := []) (B := []) hs (by simp [hf s hs])

theorem due_of_unlinked (hs : s.remote = none) : s.due = [] := by
  simp [Standing.due, hs]

theorem links_add (r : Roster) (hs : s.remote = none) : (r.add s).links = r.links := by
  have hdue := due_of_unlinked hs
  simp [links, add, hdue]

theorem links_await (ht : ¬ (r.standingAt t).state.isFinished) (y : TaskId) (delivery : Delivery) (reason : WaitReason) :
    (r.await t y delivery reason).links.Perm r.links := by
  have hy : (r.update y (·.addDependent t delivery)).links.Perm r.links := links_update_frame fun _ _ => rfl
  refine List.Perm.trans ?_ hy
  have hrow : ¬ ((r.update y (·.addDependent t delivery)).standingAt t).state.isFinished :=
    standingAt_update (P := fun s => ¬ s.state.isFinished) ht fun _ hs => hs
  exact links_update_frame (r := r.update y (·.addDependent t delivery)) fun s hs =>
    Standing.due_park (standingAt_of_at? hs ▸ hrow) reason

theorem links_wake (ht : ¬ (r.standingAt t).state.isFinished) : (r.wake t).links.Perm r.links := by
  unfold wake
  rw [if_neg ht]
  exact links_update_frame (r := r) fun s hs => Standing.due_wake (standingAt_of_at? hs ▸ ht)

theorem links_deliver (r : Roster) (failed : Bool) (result : Value) (d : Dependent) :
    (r.deliver failed result d).links.Perm r.links := by
  unfold deliver
  split
  · exact .refl _
  · rename_i hun
    split
    · rename_i hfail
      have hnone : result.handle? = none := by simp_all
      exact links_update_frame fun s hs => Standing.due_fail (standingAt_of_at? hs ▸ hun) hnone
    · exact links_wake hun

theorem links_deliverAll (failed : Bool) (result : Value) (ds : List Dependent) :
    ∀ r : Roster, (ds.foldl (fun r d => r.deliver failed result d) r).links.Perm r.links := by
  induction ds with
  | nil => exact fun r => .refl _
  | cons d rest ih => exact fun r => (ih _).trans (links_deliver r failed result d)

theorem links_clear (r : Roster) (t : TaskId) : (r.clear t).links.Perm r.links := by
  have hready : ∀ m, (r.markReady m).links = r.links := by
    intro m
    cases m <;> rfl
  rw [← hready (r.standingAt t).initializes]
  exact links_update_frame (r := r.markReady _) fun s _ => rfl

/-- Telling those who wait takes nothing from other processes. -/
theorem links_finish (r : Roster) (t : TaskId) : (r.finish t).links.Perm r.links :=
  (links_deliverAll _ _ _ _).trans (links_clear r t)

theorem completions_deliverAll (failed : Bool) (result : Value) (ds : List Dependent) :
    ∀ r : Roster, (ds.foldl (fun r d => r.deliver failed result d) r).completions = r.completions := by
  induction ds with
  | nil => exact fun _ => rfl
  | cons d rest ih =>
      intro r
      rw [List.foldl_cons, ih]
      unfold deliver wake
      split
      · rfl
      · split
        · rfl
        · rfl

theorem completions_finish (r : Roster) (t : TaskId) : (r.finish t).completions = r.completions := by
  unfold finish
  rw [completions_deliverAll]
  unfold clear
  cases (r.standingAt t).initializes <;> rfl

/-- What a process has pledged to others, and the results that have come back to it. -/
def pledges (r : Roster) (id : ProcessId) : List RemoteLink := r.completions.map (fun t => ⟨id, t⟩) ++ r.links

theorem links_owe (r : Roster) (t : TaskId) : (r.owe t).links = r.links ++ (r.standingAt t).remote.toList := by
  simp [owe, links, Function.comp_def]

/-- A task in hand that comes to its end owes another process what it has owed. -/
theorem links_conclude {state : TaskState} {v : Value} (hs : r.at? t = some s) (hun : ¬ s.state.isFinished)
    (h : state.Reaches v) : (r.conclude t state v).links.Perm r.links := by
  have hrow : (s.remote.toList ++ (r.update t (·.conclude state v)).links).Perm ([] ++ r.links) :=
    links_update hs (by simp [Standing.due_conclude h, Standing.due_of_unfinished hun])
  have hremote : ((r.update t (·.conclude state v)).standingAt t).remote = s.remote := by
    have hat : (r.update t (·.conclude state v)).at? t = some (s.conclude state v) := by simp [at?_update, hs]
    rw [standingAt_of_at? hat]
    rfl
  refine (links_finish _ t).trans ?_
  rw [links_owe, hremote]
  exact List.perm_append_comm.trans hrow

/-- A task that no other process waits for may come to any end. -/
theorem links_conclude_unlinked (hs : (r.standingAt t).remote = none) (state : TaskState) (v : Value) :
    (r.conclude t state v).links.Perm r.links := by
  have hremote : ((r.update t (·.conclude state v)).standingAt t).remote = none :=
    standingAt_update (P := fun s => s.remote = none) hs fun _ h => h
  refine (links_finish _ t).trans ?_
  rw [links_owe, hremote, Option.toList_none, List.append_nil]
  refine links_update_frame fun s hat => ?_
  have hnone : s.remote = none := standingAt_of_at? hat ▸ hs
  rw [due_of_unlinked hnone, due_of_unlinked (s := s.conclude state v) hnone]

theorem completions_conclude (r : Roster) (t : TaskId) (state : TaskState) (v : Value) :
    (r.conclude t state v).completions = r.completions :=
  completions_finish _ t

theorem Fledgling.ordered {link : RemoteLink} (hr : r.Fledgling link) : r.Ordered none [] := by
  have h₀ : ({ r with tasks := #[], queue := [] } : Roster).Ordered none [] := .empty rfl rfl hr.waiting hr.ready
  have h₁ := h₀.start (s := { remote := some link }) rfl rfl rfl
  exact h₁.congr hr.tasks hr.queue rfl rfl

theorem Fledgling.pledges {link : RemoteLink} (hr : r.Fledgling link) (id : ProcessId) : r.pledges id = [link] := by
  simp [Roster.pledges, links, hr.completions, hr.outgoing, hr.tasks, Standing.due, Standing.pending, TaskState.isFinished]

end Roster

/-! ## A running process among others -/

def BackgroundCall.link (call : BackgroundCall) : RemoteLink := ⟨call.process, call.carrier⟩

namespace Machine.View

variable {v v' v₁ v₂ v₃ : View} {rest : List RemoteLink} {cur : Option TaskId} {id : ProcessId}

/-- All that is pledged by or to the process, as far as the machine knows. -/
def pledges (v : View) : List RemoteLink :=
  v.pool.jobs.map BackgroundCall.link ++ v.roster.pledges v.id ++ v.nursery.flatMap fun p => p.roster.pledges p.id

/-- The roster is in order, where the rest of the world has pledged `rest`. -/
structure Tidy (rest : List RemoteLink) (cur : Option TaskId) (v : View) : Prop where
  ordered : v.roster.Ordered cur (due v.id (v.pledges ++ rest))
  staffed : v.pool.Staffed
  fledglings : ∀ child ∈ v.nursery, ∃ t, child.roster.Fledgling ⟨v.id, t⟩

/-- Nothing has changed for the other processes. -/
structure Spares (v v' : View) : Prop where
  id : v'.id = v.id
  others : ∀ x, x ≠ v.id → (due x v'.pledges).Perm (due x v.pledges)

theorem Spares.refl (v : View) : v.Spares v := ⟨rfl, fun _ _ => .refl _⟩

theorem Spares.trans (h : v₁.Spares v₂) (h' : v₂.Spares v₃) : v₁.Spares v₃ :=
  ⟨h'.id.trans h.id, fun x hx => (h'.others x (h.id ▸ hx)).trans (h.others x hx)⟩

theorem spares_of_perm (hid : v'.id = v.id) (hp : v'.pledges.Perm v.pledges) : v.Spares v' :=
  ⟨hid, fun x _ => due_perm x hp⟩

/-- A roster with the same pledges. -/
theorem perm_pledges {r : Roster} (hr : (r.pledges v.id).Perm (v.roster.pledges v.id)) :
    ({ v with roster := r } : View).pledges.Perm v.pledges :=
  (hr.append_left _).append_right _

theorem Tidy.perm_rest {rest' : List RemoteLink} (hv : v.Tidy rest cur) (hr : rest.Perm rest') : v.Tidy rest' cur :=
  ⟨hv.ordered.perm (due_perm v.id (hr.append_left _)), hv.staffed, hv.fledglings⟩

theorem Tidy.perm {rest' : List RemoteLink} (hv : v.Tidy rest cur) {r : Roster} {cur' : Option TaskId}
    (hp : (r.pledges v.id).Perm (v.roster.pledges v.id))
    (hr : r.Ordered cur' (due v.id (v.pledges ++ rest'))) : ({ v with roster := r } : View).Tidy rest' cur' :=
  ⟨hr.perm (due_perm v.id ((perm_pledges hp).symm.append_right rest')), hv.staffed, hv.fledglings⟩

/-! ## Moves of a running task -/

theorem perm_start {r : Roster} {s : Standing} (hs : s.remote = none) (id : ProcessId) :
    ((r.start s).pledges id).Perm (r.pledges id) := by
  have hl : (r.start s).links = r.links := Roster.links_add r hs
  unfold Roster.pledges
  rw [hl]
  rfl

theorem Tidy.start (hv : v.Tidy rest cur) {s : Standing} (hs : s.state = .new) (hd : s.dependents = [])
    (hr : s.remote = none) (hi : s.initializes = none) : ({ v with roster := v.roster.start s } : View).Tidy rest cur :=
  hv.perm (perm_start hr v.id) (hv.ordered.start hs hd hi)

theorem perm_await {r : Roster} {t : TaskId} (hun : ¬ (r.standingAt t).state.isFinished) (y : TaskId)
    (delivery : Delivery) (reason : WaitReason) (id : ProcessId) :
    ((r.await t y delivery reason).pledges id).Perm (r.pledges id) :=
  (Roster.links_await hun y delivery reason).append_left _

/-- A task that waits keeps what it owes. -/
theorem Tidy.await (hv : v.Tidy rest (some v.task)) (hun : v.Unfinished) {y : TaskId}
    (hy : ∃ s, v.roster.at? y = some s ∧ (s.state.isFinished → y ∈ v.roster.waiting)) (delivery : Delivery)
    (reason : WaitReason) :
    ({ v with roster := v.roster.await v.task y delivery reason } : View).Tidy rest none ∧
      v.Spares { v with roster := v.roster.await v.task y delivery reason } := by
  have hp := perm_await hun y delivery reason v.id
  exact ⟨hv.perm hp (hv.ordered.await hy delivery reason), spares_of_perm rfl (perm_pledges hp)⟩

/-- One more task stands for work done elsewhere, and one more result is pledged to it. -/
theorem Tidy.carry (hv : v.Tidy rest cur) (hid : v'.id = v.id) (hst : v'.pool.Staffed)
    (hr : v'.roster.tasks = (v.roster.carry v.task).tasks) (hq : v'.roster.queue = v.roster.queue)
    (hw : v'.roster.waiting = (v.roster.carry v.task).waiting) (hm : v'.roster.modules = v.roster.modules)
    (hc : ∀ child ∈ v'.nursery, ∃ t, child.roster.Fledgling ⟨v.id, t⟩)
    (hp : v'.pledges.Perm (⟨v.id, v.roster.next⟩ :: v.pledges)) : v'.Tidy rest cur ∧ v.Spares v' := by
  have hord : v'.roster.Ordered cur (v.roster.next :: due v.id (v.pledges ++ rest)) :=
    (hv.ordered.carry v.task).congr hr hq hw hm
  refine ⟨⟨hord.perm ?_, hst, by rw [hid]; exact hc⟩, hid, fun x hx => ?_⟩
  · rw [hid, ← due_cons_self]
    exact due_perm v.id (hp.symm.append_right rest)
  · have := due_perm x hp
    rwa [due_cons_of_ne hx] at this

theorem perm_carry (r : Roster) (parent : TaskId) (id : ProcessId) : (r.carry parent).pledges id = r.pledges id := by
  have hl : (r.carry parent).links = r.links := Roster.links_add r rfl
  unfold Roster.pledges
  rw [hl]
  rfl

theorem perm_background (hs : v.pool.Staffed) {call : BackgroundCall} (hp : call.process = v.id)
    (hc : call.carrier = v.roster.next) :
    (View.pledges { v with roster := v.roster.launch v.task, pool := v.pool.submit call }).Perm
      (⟨v.id, v.roster.next⟩ :: v.pledges) := by
  have hlink : call.link = ⟨v.id, v.roster.next⟩ := by rw [BackgroundCall.link, hp, hc]
  have hjobs := (hs.jobs_submit call).map BackgroundCall.link
  rw [List.map_cons, hlink] at hjobs
  have hroster : (v.roster.launch v.task).pledges v.id = v.roster.pledges v.id := perm_carry v.roster v.task v.id
  unfold pledges
  rw [hroster, List.append_assoc, List.append_assoc]
  exact hjobs.append_right _

theorem perm_spawn {child : Process} (hc : child.roster.Fledgling ⟨v.id, v.roster.next⟩) :
    (View.pledges { v with
      roster := v.roster.carry v.task
      born := v.born + 1
      nursery := v.nursery ++ [child] }).Perm (⟨v.id, v.roster.next⟩ :: v.pledges) := by
  unfold pledges
  rw [perm_carry, List.flatMap_append, List.flatMap_singleton, hc.pledges, ← List.append_assoc]
  exact List.perm_append_singleton _ _

theorem Tidy.background (hv : v.Tidy rest cur) (call : BackgroundCall) (hp : call.process = v.id)
    (hc : call.carrier = v.roster.next) :
    ({ v with roster := v.roster.launch v.task, pool := v.pool.submit call } : View).Tidy rest cur ∧
      v.Spares { v with roster := v.roster.launch v.task, pool := v.pool.submit call } :=
  hv.carry rfl (hv.staffed.submit call) rfl rfl rfl rfl hv.fledglings (perm_background hv.staffed hp hc)

theorem Tidy.spawn (hv : v.Tidy rest cur) {child : Process} (hc : child.roster.Fledgling ⟨v.id, v.roster.next⟩) :
    ({ v with roster := v.roster.carry v.task, born := v.born + 1, nursery := v.nursery ++ [child] } : View).Tidy rest cur ∧
      v.Spares { v with roster := v.roster.carry v.task, born := v.born + 1, nursery := v.nursery ++ [child] } := by
  refine hv.carry rfl hv.staffed rfl rfl rfl rfl (fun other ho => ?_) (perm_spawn hc)
  rcases List.mem_append.1 ho with ho | ho
  · exact hv.fledglings other ho
  · rw [List.mem_singleton.1 ho]
    exact ⟨_, hc⟩

/-- What a task does while it runs leaves everybody in place. -/
theorem Stirs.tidy {a : Prop} {new : List TaskId} (h : v.Stirs a new v') (hv : v.Tidy rest (some v.task)) :
    v'.Tidy rest (some v'.task) ∧ v.Spares v' := by
  cases h with
  | still => exact ⟨hv, .refl v⟩
  | call _ => exact ⟨hv.start rfl rfl rfl rfl, spares_of_perm rfl (perm_pledges (perm_start rfl v.id))⟩
  | background call hp hc => exact hv.background call hp hc
  | spawn child hc => exact hv.spawn hc

theorem Parks.tidy {known : TaskId → Prop} (h : v.Parks known v') (hv : v.Tidy rest (some v.task)) (hun : v.Unfinished)
    (hknown : ∀ y, known y → y.index < v.roster.tasks.size) : v'.Tidy rest none ∧ v.Spares v' := by
  cases h with
  | call delivery =>
      have hnew := hv.start (s := { parent := some v.task }) rfl rfl rfl rfl
      have hun' : View.Unfinished { v with roster := v.roster.start { parent := some v.task } } :=
        unfinished_add (r := v.roster) (.inl rfl) hun
      have hat := Roster.at?_start v.roster { parent := some v.task }
      obtain ⟨ht, hs⟩ := hnew.await hun' ⟨_, hat, Bool.noConfusion⟩ delivery .onCall
      have hp := perm_start (r := v.roster) (s := { parent := some v.task }) rfl v.id
      have hs₀ : v.Spares { v with roster := v.roster.start { parent := some v.task } } :=
        spares_of_perm rfl (perm_pledges hp)
      exact ⟨ht, hs₀.trans hs⟩
  | background call delivery hp hc =>
      obtain ⟨hnew, hs₁⟩ := hv.background call hp hc
      have hun' : View.Unfinished { v with roster := v.roster.launch v.task, pool := v.pool.submit call } :=
        unfinished_add (r := v.roster) (.inr rfl) hun
      have hat : (v.roster.launch v.task).at? v.roster.next = some (.carrier v.task) := Roster.at?_start v.roster _
      obtain ⟨ht, hs₂⟩ := hnew.await hun' ⟨_, hat, Bool.noConfusion⟩ delivery .onFuture
      exact ⟨ht, hs₁.trans hs₂⟩
  | wait y hy hyun =>
      have hat := Roster.at?_of_index_lt (hknown y hy)
      exact hv.await hun ⟨_, hat, fun h => absurd h hyun⟩ .result .onFuture
  | join m y hm hy =>
      obtain ⟨s, hs, hinit⟩ := (hv.ordered.initializing m y).1 hm
      refine hv.await hun ⟨s, hs, fun hfin => ?_⟩ .keep .onCall
      -- a finished task that still counts as initializing is stranded
      rcases hv.ordered.settled y s hs hfin (.inr (by simp [hinit])) with hcur | hw
      · cases hcur
        exact absurd hfin (Roster.standingAt_of_at? hs ▸ hun)
      · exact hw
  | load m hm =>
      have hat := Roster.at?_start v.roster { parent := some v.task, initializes := some m }
      have hp := perm_start (r := v.roster) (s := { parent := some v.task, initializes := some m }) rfl v.id
      have hnew : ({ v with roster := v.roster.load m v.task } : View).Tidy rest (some v.task) :=
        hv.perm hp (hv.ordered.load rfl rfl rfl (by simp [hm]))
      have hun' : View.Unfinished { v with roster := v.roster.load m v.task } :=
        unfinished_add (r := v.roster) (.inl rfl) hun
      obtain ⟨ht, hs⟩ := hnew.await hun' ⟨_, hat, Bool.noConfusion⟩ .keep .onCall
      have hs₀ : v.Spares { v with roster := v.roster.load m v.task } := spares_of_perm rfl (perm_pledges hp)
      exact ⟨ht, hs₀.trans hs⟩

/-! ## Coming to an end -/

theorem Tidy.wake (hv : v.Tidy rest (some v.task)) (hun : v.Unfinished) :
    ({ v with roster := v.roster.update v.task Standing.wake } : View).Tidy rest (some v.task) ∧
      v.Spares { v with roster := v.roster.update v.task Standing.wake } := by
  have hp : ((v.roster.update v.task Standing.wake).pledges v.id).Perm (v.roster.pledges v.id) :=
    (Roster.links_update_frame fun _ hs => Standing.due_wake (Roster.standingAt_of_at? hs ▸ hun)).append_left _
  refine ⟨hv.perm hp (hv.ordered.updateCurrent (fun _ => rfl) (fun _ => rfl) fun _ => ?_), spares_of_perm rfl (perm_pledges hp)⟩
  simp [Standing.wake]

theorem perm_conclude {r : Roster} {t : TaskId} (ht : t.index < r.tasks.size) (hun : ¬ (r.standingAt t).state.isFinished)
    {state : TaskState} {result : Value} (h : state.Reaches result) (id : ProcessId) :
    ((r.conclude t state result).pledges id).Perm (r.pledges id) := by
  unfold Roster.pledges
  rw [Roster.completions_conclude]
  exact (Roster.links_conclude (Roster.at?_of_index_lt ht) hun h).append_left _

/-- The running task comes to its end, and everybody who has waited for it is told. -/
theorem Tidy.conclude (hv : v.Tidy rest (some v.task)) (hun : v.Unfinished) {state : TaskState} {result : Value}
    (h : state.Reaches result) :
    ({ v with roster := v.roster.conclude v.task state result } : View).Tidy rest none ∧
      v.Spares { v with roster := v.roster.conclude v.task state result } := by
  obtain ⟨s, hs, _⟩ := hv.ordered.inHand v.task rfl
  have hp := perm_conclude (Roster.index_lt_of_at? hs) hun h v.id
  exact ⟨hv.perm hp (hv.ordered.conclude h.isFinished), spares_of_perm rfl (perm_pledges hp)⟩

theorem due_completions {x : ProcessId} (hx : x ≠ id) (ts : List TaskId) : due x (ts.map (⟨id, ·⟩)) = [] := by
  simp [due, Ne.symm hx]

/-- Background calls that have come back are about to be settled. -/
theorem Tidy.takeBack (hv : v.Tidy rest none) :
    View.Tidy (v.roster.completions.map (⟨v.id, ·⟩) ++ rest) none
        { v with roster := { v.roster with completions := [] } } ∧
      v.Spares { v with roster := { v.roster with completions := [] } } := by
  have hp : v.pledges.Perm (v.roster.completions.map (⟨v.id, ·⟩) ++
      View.pledges { v with roster := { v.roster with completions := [] } }) := by
    simp only [pledges, Roster.pledges, List.append_assoc]
    exact List.perm_append_comm_assoc _ _ _
  have hord : ({ v.roster with completions := [] } : Roster).Ordered none (due v.id (v.pledges ++ rest)) :=
    hv.ordered.congr rfl rfl rfl rfl
  refine ⟨⟨hord.perm (due_perm v.id ?_), hv.staffed, hv.fledglings⟩, rfl, fun x hx => ?_⟩
  · rw [← List.append_assoc]
    exact (hp.trans List.perm_append_comm).append_right rest
  · have := due_perm x hp
    rw [due_append, due_completions hx, List.nil_append] at this
    exact this.symm

/-- A background call comes back: the pledge goes from the pool to the process. -/
theorem Tidy.comeBack (hv : v.Tidy rest cur) {pool : Pool BackgroundCall} {call : BackgroundCall}
    (hjobs : (call :: pool.jobs).Perm v.pool.jobs) (hs : pool.Staffed) (hid : call.process = v.id) :
    View.Tidy rest cur
        { v with pool, roster := { v.roster with completions := v.roster.completions ++ [call.carrier] } } ∧
      (View.pledges { v with
        pool
        roster := { v.roster with completions := v.roster.completions ++ [call.carrier] } }).Perm v.pledges := by
  have hlink : call.link = ⟨v.id, call.carrier⟩ := by rw [BackgroundCall.link, hid]
  have hp : (View.pledges { v with
      pool
      roster := { v.roster with completions := v.roster.completions ++ [call.carrier] } }).Perm v.pledges := by
    have hj := (hjobs.map BackgroundCall.link).append_right
      (v.roster.pledges v.id ++ v.nursery.flatMap fun p => p.roster.pledges p.id)
    rw [List.map_cons, hlink] at hj
    simp only [pledges, Roster.pledges, List.map_append, List.map_cons, List.map_nil, List.append_assoc] at hj ⊢
    refine List.Perm.trans ?_ hj
    rw [← List.append_assoc]
    refine List.perm_middle.trans (List.Perm.cons _ ?_)
    simp only [List.append_assoc]
    exact .refl _
  have hord : ({ v.roster with completions := v.roster.completions ++ [call.carrier] } : Roster).Ordered cur
      (due v.id (v.pledges ++ rest)) := hv.ordered.congr rfl rfl rfl rfl
  exact ⟨⟨hord.perm (due_perm v.id (hp.symm.append_right rest)), hs, hv.fledglings⟩, hp⟩

/-- The first result in line leaves, and is on its way. -/
theorem Tidy.send (hv : v.Tidy rest cur) {out : Outgoing} {outgoing : List Outgoing}
    (ho : v.roster.outgoing = out :: outgoing) :
    View.Tidy (rest ++ [out.link]) cur { v with roster := { v.roster with outgoing } } ∧
      v.pledges.Perm (View.pledges { v with roster := { v.roster with outgoing } } ++ [out.link]) := by
  have hp : v.pledges.Perm (View.pledges { v with roster := { v.roster with outgoing } } ++ [out.link]) := by
    simp only [pledges, Roster.pledges, Roster.links, ho, List.map_cons, List.append_assoc, List.cons_append]
    refine ((List.Perm.append_left _ ?_).append_left _).append_left _
    rw [← List.append_assoc]
    exact (List.perm_append_singleton _ _).symm
  have hord : ({ v.roster with outgoing } : Roster).Ordered cur (due v.id (v.pledges ++ rest)) :=
    hv.ordered.congr rfl rfl rfl rfl
  refine ⟨⟨hord.perm (due_perm v.id ?_), hv.staffed, hv.fledglings⟩, hp⟩
  refine (hp.append_right rest).trans ?_
  rw [List.append_assoc]
  exact List.perm_append_comm.append_left _

/-- A task that stands for work done elsewhere gets what it was pledged. -/
theorem Tidy.settle {t : TaskId} (hv : v.Tidy (⟨v.id, t⟩ :: rest) none) (ht : (v.roster.standingAt t).remote = none)
    {state : TaskState} (hfin : state.isFinished) (result : Value) :
    ({ v with roster := v.roster.conclude t state result } : View).Tidy rest none ∧
      v.Spares { v with roster := v.roster.conclude t state result } := by
  have hp : ((v.roster.conclude t state result).pledges v.id).Perm (v.roster.pledges v.id) := by
    unfold Roster.pledges
    rw [Roster.completions_conclude]
    exact (Roster.links_conclude_unlinked ht state result).append_left _
  have hdue : (due v.id (v.pledges ++ ⟨v.id, t⟩ :: rest)).Perm (t :: due v.id (v.pledges ++ rest)) := by
    rw [← due_cons_self]
    exact due_perm v.id List.perm_middle
  exact ⟨hv.perm hp ((hv.ordered.perm hdue).settle hfin), spares_of_perm rfl (perm_pledges hp)⟩

end Machine.View

end Spool
