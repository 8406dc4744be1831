import Mathlib.Logic.Relation
import Spool.Proofs.Machine.View

/-!
# Processes by themselves

What a task can do in a process that has nothing to do with others: it calls functions, waits for calls and for the top
levels of modules, and comes to its end. Each of these is a change of the roster, and what all of them keep is kept by
the whole run of the process.
-/

namespace Spool.Roster

variable {r r' : Roster} {cur : Option TaskId} {t x y : TaskId} {s : Standing} {state : TaskState} {v : Value}

/-- A task that has nothing to do with other processes, and whose failure can be told. -/
structure Own (t : TaskId) (s : Standing) : Prop where
  unlinked : s.remote = none
  unstranded : ¬ s.stranded
  older : ∀ u, s.parent = some u → u.index < t.index

/-- Everybody is in place, and nobody has to do with other processes. -/
structure Plain (r : Roster) (cur : Option TaskId) : Prop where
  ordered : r.Ordered cur []
  own : ∀ t s, r.at? t = some s → Own t s

/-- How a task comes to wait for another one of the same process. -/
inductive Rests (r : Roster) (t : TaskId) : Roster → Prop where
  | call (delivery : Delivery) : Rests r t ((r.start { parent := some t }).await t r.next delivery .onCall)
  /-- For the top level of a module that another task has begun to load. -/
  | join (m : ModuleId) (y : TaskId) : r.modules.get? m = some (.initializing y) → y ∉ r.ancestry t →
      Rests r t (r.await t y .keep .onCall)
  | load (m : ModuleId) : r.modules.get? m = none → Rests r t ((r.load m t).await t r.next .keep .onCall)

/-- A task goes on after a call, which takes `async` functions. -/
def Calls (async : Prop) (t : TaskId) (r r' : Roster) : Prop := async ∧ r' = r.start { parent := some t }

/-- The turn of a task that has been taken from the queue. -/
inductive Turn (async : Prop) (t : TaskId) (r : Roster) : Roster → Prop where
  | rests {r₁ r₂ : Roster} : Relation.ReflTransGen (Calls async t) (r.update t Standing.wake) r₁ → r₁.Rests t r₂ →
      Turn async t r r₂
  | ends {r₁ : Roster} {state : TaskState} {v : Value} :
      Relation.ReflTransGen (Calls async t) (r.update t Standing.wake) r₁ → state.Reaches v →
      Turn async t r (r₁.conclude t state v)

/-! ## What is known of the tasks -/

theorem Plain.not_stranded (hr : r.Plain cur) (t : TaskId) : ¬ r.Stranded t := by
  rintro ⟨s, hs, hstr⟩
  exact (hr.own t s hs).unstranded hstr

theorem Plain.waits (hr : r.Plain none) (ht : t ∈ r.waiting) : r.Waits t := by
  rcases hr.ordered.books t ht with h | h | h
  · exact h
  · exact absurd h (hr.not_stranded t)
  · cases h

/-- A task that somebody waits for, or that runs the top level of a module, has not come to its end. -/
theorem Plain.unfinished (hr : r.Plain cur) (hs : r.at? t = some s) (hp : s.dependents ≠ [] ∨ s.initializes ≠ none)
    (ht : cur ≠ some t) : ¬ s.state.isFinished := by
  intro hfin
  have hw := (hr.ordered.settled t s hs hfin hp).resolve_left ht
  rcases hr.ordered.books t hw with ⟨s', hs', hstate⟩ | h | h
  · cases hs.symm.trans hs'
    rw [hstate] at hfin
    cases hfin
  · exact hr.not_stranded t h
  · exact ht h

theorem Plain.at?_inHand (hr : r.Plain (some t)) : ∃ s, r.at? t = some s := by
  obtain ⟨s, hs, _⟩ := hr.ordered.inHand t rfl
  exact ⟨s, hs⟩

/-! ## What each change keeps -/

section
variable {P : TaskId → Standing → Prop}

theorem forall_update (hr : ∀ t s, r.at? t = some s → P t s) {f : Standing → Standing}
    (hf : ∀ s, r.at? t = some s → P t s → P t (f s)) : ∀ x s, (r.update t f).at? x = some s → P x s := by
  intro x s hs
  rw [at?_update] at hs
  split at hs
  · subst x
    obtain ⟨s₀, h₀, rfl⟩ := Option.map_eq_some_iff.1 hs
    exact hf s₀ h₀ (hr t s₀ h₀)
  · exact hr x s hs

theorem forall_add (hr : ∀ t s, r.at? t = some s → P t s) (hs : P r.next s) :
    ∀ x sx, (r.add s).at? x = some sx → P x sx := by
  intro x sx hx
  rw [at?_add] at hx
  split at hx
  · cases hx
    subst x
    exact hs
  · exact hr x sx hx

theorem forall_await (hr : ∀ t s, r.at? t = some s → P t s) {delivery : Delivery} {reason : WaitReason}
    (hy : ∀ s, P y s → P y (s.addDependent t delivery)) (ht : ∀ s, P t s → P t (s.park reason)) :
    ∀ x s, (r.await t y delivery reason).at? x = some s → P x s :=
  forall_update (r := r.update y _) (forall_update hr fun s _ => hy s) fun s _ => ht s

theorem forall_wake (hr : ∀ t s, r.at? t = some s → P t s)
    (hw : ∀ t s, ¬ s.state.isFinished → P t s → P t s.wake) (x : TaskId) : ∀ t s, (r.wake x).at? t = some s → P t s := by
  unfold wake
  split
  · exact hr
  · rename_i hun
    exact forall_update hr fun s hs => hw x s (standingAt_of_at? hs ▸ hun)

theorem forall_wakeAll (hw : ∀ t s, ¬ s.state.isFinished → P t s → P t s.wake) (xs : List TaskId) :
    ∀ r : Roster, (∀ t s, r.at? t = some s → P t s) → ∀ t s, (xs.foldl Roster.wake r).at? t = some s → P t s := by
  induction xs with
  | nil => exact fun _ hr => hr
  | cons x rest ih => exact fun r hr => ih (r.wake x) (forall_wake hr hw x)

theorem forall_clear (hr : ∀ t s, r.at? t = some s → P t s) (hc : ∀ s, r.at? t = some s → P t s → P t s.clear) :
    ∀ x s, (r.clear t).at? x = some s → P x s := by
  intro x s hs
  rw [at?_clear] at hs
  split at hs
  · subst x
    obtain ⟨s₀, h₀, rfl⟩ := Option.map_eq_some_iff.1 hs
    exact hc s₀ h₀ (hr t s₀ h₀)
  · exact hr x s hs

end

/-- Whoever is woken comes into the queue, and nothing else changes. -/
theorem wakeAll_frame (xs : List TaskId) : ∀ r : Roster, (xs.foldl Roster.wake r).modules = r.modules ∧
    (xs.foldl Roster.wake r).inFlight = r.inFlight ∧ (xs.foldl Roster.wake r).tasks.size = r.tasks.size ∧
    (xs.foldl Roster.wake r).queue.length ≤ r.queue.length + xs.length := by
  induction xs with
  | nil => exact fun _ => ⟨rfl, rfl, rfl, Nat.le_refl _⟩
  | cons x rest ih =>
      intro r
      have hone : (r.wake x).modules = r.modules ∧ (r.wake x).inFlight = r.inFlight ∧
          (r.wake x).tasks.size = r.tasks.size ∧ (r.wake x).queue.length ≤ r.queue.length + 1 := by
        unfold Roster.wake
        split <;> simp [update]
      obtain ⟨hm, hi, hs, hq⟩ := ih (r.wake x)
      refine ⟨hm.trans hone.1, hi.trans hone.2.1, hs.trans hone.2.2.1, ?_⟩
      have := hone.2.2.2
      simp only [List.foldl_cons, List.length_cons]
      omega

theorem deliver_eq_wake {failed : Bool} (hv : failed → v.handle?.isSome) (d : Dependent) :
    r.deliver failed v d = r.wake d.task := by
  unfold deliver
  split
  · rename_i hfin
    rw [wake, if_pos hfin]
  · rw [if_neg]
    intro h
    simp only [Bool.and_eq_true, Option.isNone_iff_eq_none] at h
    simp [h.2] at hv
    simp [hv] at h

/-- Those who wait for a task that has come to its end are woken. -/
theorem conclude_eq (hs : r.at? t = some s) (hr : s.remote = none) (h : state.Reaches v) :
    r.conclude t state v = s.waiters.foldl wake ((r.update t (·.conclude state v)).clear t) := by
  have hrow : (r.update t (·.conclude state v)).standingAt t = s.conclude state v := by
    apply standingAt_of_at?
    rw [at?_update, if_pos rfl, hs]
    rfl
  have hfailed : decide (state = .error) = true → v.handle?.isSome := by
    rcases h with rfl | ⟨_, hv⟩
    · simp
    · exact fun _ => hv
  have hwake : (fun (r : Roster) (d : Dependent) => r.deliver (state = .error) v d) = fun r d => r.wake d.task := by
    funext r d
    exact deliver_eq_wake hfailed d
  rw [conclude, owe_of_unlinked (by rw [hrow]; exact hr), finish, hrow, Standing.waiters, List.foldl_map, ← hwake]
  rfl

theorem Own.congr {s' : Standing} (h : Own t s) (hremote : s'.remote = s.remote) (hparent : s'.parent = s.parent)
    (hstr : ¬ s'.stranded) : Own t s' :=
  ⟨hremote.trans h.unlinked, hstr, fun u hu => h.older u (hparent ▸ hu)⟩

theorem own_new (ht : t.index < x.index) (m : Option ModuleId) : Own x { parent := some t, initializes := m } := by
  refine ⟨rfl, by simp [Standing.stranded], fun u hu => ?_⟩
  cases hu
  exact ht

theorem Plain.dequeue {queue : List TaskId} (hr : r.Plain none) (hq : r.queue = t :: queue) :
    ({ r with queue } : Roster).Plain (some t) :=
  ⟨hr.ordered.dequeue hq, hr.own⟩

theorem Plain.wake (hr : r.Plain (some t)) : (r.update t Standing.wake).Plain (some t) := by
  refine ⟨hr.ordered.updateCurrent (fun _ => rfl) (fun _ => rfl) fun _ => by simp [Standing.wake], ?_⟩
  exact forall_update hr.own fun s _ h => h.congr rfl rfl (by simp [Standing.stranded, Standing.wake])

theorem Plain.start (hr : r.Plain (some t)) : (r.start { parent := some t }).Plain (some t) := by
  obtain ⟨s, hs⟩ := hr.at?_inHand
  exact ⟨hr.ordered.start rfl rfl rfl, forall_add hr.own (own_new (index_lt_of_at? hs) none)⟩

theorem Plain.load (hr : r.Plain (some t)) {m : ModuleId} (hm : r.modules.get? m = none) :
    (r.load m t).Plain (some t) := by
  obtain ⟨s, hs⟩ := hr.at?_inHand
  exact ⟨hr.ordered.load rfl rfl rfl (by simp [hm]), forall_add hr.own (own_new (index_lt_of_at? hs) (some m))⟩

theorem Plain.await (hr : r.Plain (some t)) (hy : ∃ s, r.at? y = some s ∧ ¬ s.state.isFinished) (delivery : Delivery)
    (reason : WaitReason) : (r.await t y delivery reason).Plain none := by
  obtain ⟨s, hs, hun⟩ := hy
  refine ⟨hr.ordered.await ⟨s, hs, fun h => absurd h hun⟩ delivery reason, ?_⟩
  refine forall_await hr.own (fun s h => h.congr rfl rfl h.unstranded) fun s h => h.congr rfl rfl ?_
  simp [Standing.stranded, Standing.park]

theorem Plain.rests (hr : r.Plain (some t)) (hun : ¬ (r.standingAt t).state.isFinished) (h : r.Rests t r') :
    r'.Plain none := by
  cases h with
  | call delivery => exact hr.start.await ⟨_, at?_start r _, Bool.noConfusion⟩ delivery .onCall
  | join m y hm _ =>
      obtain ⟨s, hs, hinit⟩ := (hr.ordered.initializing m y).1 hm
      refine hr.await ⟨s, hs, fun hfin => ?_⟩ .keep .onCall
      refine hr.unfinished hs (.inr (by simp [hinit])) ?_ hfin
      rintro ⟨rfl⟩
      exact hun (standingAt_of_at? hs ▸ hfin)
  | load m hm =>
      have hnew := at?_start r { parent := some t, initializes := some m }
      exact (hr.load hm).await ⟨_, hnew, Bool.noConfusion⟩ .keep .onCall

theorem not_stranded_conclude (h : state.Reaches v) (s : Standing) : ¬ (s.conclude state v).stranded := by
  rcases h with rfl | ⟨rfl, hv⟩
  · simp [Standing.stranded, Standing.conclude]
  · simp [Standing.stranded, Standing.conclude, Option.isSome_iff_ne_none.1 hv]

theorem Plain.conclude (hr : r.Plain (some t)) (h : state.Reaches v) : (r.conclude t state v).Plain none := by
  refine ⟨hr.ordered.conclude h.isFinished, ?_⟩
  obtain ⟨s, hs⟩ := hr.at?_inHand
  have hend : ∀ x s, (r.update t (·.conclude state v)).at? x = some s → Own x s :=
    forall_update hr.own fun s _ hs => hs.congr rfl rfl (not_stranded_conclude h s)
  rw [conclude_eq hs (hr.own t s hs).unlinked h]
  refine forall_wakeAll (fun x s _ hx => hx.congr rfl rfl (by simp [Standing.stranded, Standing.wake])) _ _ ?_
  exact forall_clear hend fun s _ hs => hs.congr rfl rfl hs.unstranded

theorem size_conclude (hr : r.Plain (some t)) (h : state.Reaches v) : (r.conclude t state v).tasks.size = r.tasks.size := by
  obtain ⟨s, hs⟩ := hr.at?_inHand
  have hclear : ((r.update t (·.conclude state v)).clear t).tasks.size = r.tasks.size := by
    unfold clear
    cases ((r.update t (·.conclude state v)).standingAt t).initializes <;> simp [markReady, setModule]
  rw [conclude_eq hs (hr.own t s hs).unlinked h, (wakeAll_frame _ _).2.2.1, hclear]

/-! ## Whole turns -/

theorem eq_of_calls (h : Relation.ReflTransGen (Calls False t) r r') : r' = r := by
  cases h with
  | refl => rfl
  | tail _ hc => exact hc.1.elim

/-- What everything that a task can do keeps. -/
structure Lasts (async : Prop) (I : Roster → Option TaskId → Prop) : Prop where
  dequeue : ∀ {r t queue}, r.Plain none → r.queue = t :: queue → I r none → I { r with queue } (some t)
  wake : ∀ {r t}, r.Plain (some t) → ¬ (r.standingAt t).state.isFinished → I r (some t) →
    I (r.update t Standing.wake) (some t)
  call : ∀ {r t}, async → r.Plain (some t) → I r (some t) → I (r.start { parent := some t }) (some t)
  rests : ∀ {r r' t}, r.Plain (some t) → ¬ (r.standingAt t).state.isFinished → r.Rests t r' → I r (some t) → I r' none
  ends : ∀ {r t state v}, r.Plain (some t) → ¬ (r.standingAt t).state.isFinished → state.Reaches v → I r (some t) →
    I (r.conclude t state v) none

variable {async : Prop} {I : Roster → Option TaskId → Prop}

theorem Lasts.calls (hI : Lasts async I) (hr : r.Plain (some t)) (hun : ¬ (r.standingAt t).state.isFinished)
    (hi : I r (some t)) (h : Relation.ReflTransGen (Calls async t) r r') :
    r'.Plain (some t) ∧ ¬ (r'.standingAt t).state.isFinished ∧ I r' (some t) := by
  induction h with
  | refl => exact ⟨hr, hun, hi⟩
  | tail _ hc ih =>
      obtain ⟨hasync, rfl⟩ := hc
      obtain ⟨hr, hun, hi⟩ := ih
      exact ⟨hr.start, Machine.View.unfinished_add (.inl rfl) hun, hI.call hasync hr hi⟩

/-- The roster in the middle of a turn. -/
theorem Lasts.amid (hI : Lasts async I) {queue : List TaskId} (hr : r.Plain none) (hi : I r none) (hq : r.queue = t :: queue)
    (h : Relation.ReflTransGen (Calls async t) (({ r with queue } : Roster).update t Standing.wake) r') :
    r'.Plain (some t) ∧ ¬ (r'.standingAt t).state.isFinished ∧ I r' (some t) := by
  have hr₁ := hr.dequeue hq
  have hqueued : ¬ (({ r with queue } : Roster).standingAt t).state.isFinished := by
    obtain ⟨⟨s, hs, hstate⟩, _⟩ := hr.ordered.queued t (by simp [hq])
    change ¬ (r.standingAt t).state.isFinished
    rw [standingAt_of_at? hs]
    rcases hstate with h | h <;> simp [h, TaskState.isFinished]
  have hi₁ := hI.wake hr₁ hqueued (hI.dequeue hr hq hi)
  obtain ⟨s, hs⟩ := hr₁.at?_inHand
  have hun : ¬ ((({ r with queue } : Roster).update t Standing.wake).standingAt t).state.isFinished := by
    have hat := at?_update { r with queue } t Standing.wake t
    rw [if_pos rfl, hs] at hat
    rw [standingAt_of_at? hat]
    exact Bool.noConfusion
  exact hI.calls hr₁.wake hun hi₁ h

theorem Lasts.turn (hI : Lasts async I) {queue : List TaskId} (hr : r.Plain none) (hi : I r none)
    (hq : r.queue = t :: queue) (h : Turn async t { r with queue } r') : r'.Plain none ∧ I r' none := by
  cases h with
  | rests hc hrest =>
      obtain ⟨hr₂, hun₂, hi₂⟩ := hI.amid hr hi hq hc
      exact ⟨hr₂.rests hun₂ hrest, hI.rests hr₂ hun₂ hrest hi₂⟩
  | ends hc hreach =>
      obtain ⟨hr₂, hun₂, hi₂⟩ := hI.amid hr hi hq hc
      exact ⟨hr₂.conclude hreach, hI.ends hr₂ hun₂ hreach hi₂⟩

end Spool.Roster
