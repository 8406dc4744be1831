import Spool.Proofs.Process.Ordered

/-!
# What stays

Whatever is done to a roster, no task is lost, none gets another parent or another process to report to, and a task
that has come to its end does not come back. A module stays with the task that runs its top level until it is ready, and
then it is ready for good. What a task owes another process stays owed until it has been sent.
-/

namespace Spool

/-- What is known of a task at some later time. -/
structure Standing.Later (s s' : Standing) : Prop where
  parent : s'.parent = s.parent
  remote : s'.remote = s.remote
  ended : s.state.isFinished → s'.state = s.state ∧ s'.result = s.result

theorem Standing.Later.finished {s s' : Standing} (h : s.Later s') (hs : s.state.isFinished) : s'.state.isFinished := by
  rw [(h.ended hs).1]
  exact hs

theorem Standing.Later.refl (s : Standing) : s.Later s := ⟨rfl, rfl, fun _ => ⟨rfl, rfl⟩⟩

theorem Standing.Later.trans {s₁ s₂ s₃ : Standing} (h : s₁.Later s₂) (h' : s₂.Later s₃) : s₁.Later s₃ :=
  ⟨h'.parent.trans h.parent, h'.remote.trans h.remote, fun hs =>
    ⟨(h'.ended (h.finished hs)).1.trans (h.ended hs).1, (h'.ended (h.finished hs)).2.trans (h.ended hs).2⟩⟩

theorem Standing.Later.of_unfinished {s s' : Standing} (hs : ¬ s.state.isFinished) (hp : s'.parent = s.parent)
    (hr : s'.remote = s.remote) : s.Later s' :=
  ⟨hp, hr, fun h => absurd h hs⟩

namespace Roster

variable {r r₁ r₂ r₃ : Roster} {t : TaskId} {s : Standing}

structure Abides (r r' : Roster) : Prop where
  tasks : ∀ t s, r.at? t = some s → ∃ s', r'.at? t = some s' ∧ s.Later s'
  newcomers : ∀ t s', r'.at? t = some s' → r.at? t = none → s'.remote = none
  modules : ∀ m state, r.modules.get? m = some state →
    r'.modules.get? m = some state ∨ r'.modules.get? m = some .ready

theorem Abides.refl (r : Roster) : r.Abides r :=
  ⟨fun _ s hs => ⟨s, hs, .refl s⟩, fun _ _ hs hnone => by simp [hs] at hnone, fun _ _ h => .inl h⟩

theorem Abides.trans (h : r₁.Abides r₂) (h' : r₂.Abides r₃) : r₁.Abides r₃ := by
  constructor
  case tasks =>
    intro t s hs
    obtain ⟨s₂, hs₂, hl⟩ := h.tasks t s hs
    obtain ⟨s₃, hs₃, hl'⟩ := h'.tasks t s₂ hs₂
    exact ⟨s₃, hs₃, hl.trans hl'⟩
  case newcomers =>
    intro t s₃ hs₃ hnone
    cases hs₂ : r₂.at? t with
    | none => exact h'.newcomers t s₃ hs₃ hs₂
    | some s₂ =>
        obtain ⟨s, hs, hl⟩ := h'.tasks t s₂ hs₂
        cases hs₃.symm.trans hs
        exact hl.remote.trans (h.newcomers t s₂ hs₂ hnone)
  case modules =>
    intro m state hm
    rcases h.modules m state hm with hm | hm
    · exact h'.modules m state hm
    · exact .inr ((h'.modules m .ready hm).elim id id)

theorem Abides.of_eq (ht : r₂.tasks = r₁.tasks) (hm : r₂.modules = r₁.modules) : r₁.Abides r₂ := by
  have hat : r₂.at? = r₁.at? := by
    funext t
    rw [at?, at?, ht]
  refine ⟨fun t s hs => ⟨s, hat ▸ hs, .refl s⟩, fun t s hs hnone => ?_, fun _ _ h => .inl (hm ▸ h)⟩
  rw [hat, hnone] at hs
  cases hs

/-- A task owes a result to another process. -/
def Owes (r : Roster) (t : TaskId) (link : RemoteLink) : Prop :=
  (∃ s, r.at? t = some s ∧ s.remote = some link ∧ s.pending) ∨ ⟨t, link⟩ ∈ r.outgoing

/-- No result has been sent meanwhile. -/
structure Upholds (r r' : Roster) : Prop extends Abides r r' where
  owes : ∀ t link, r.Owes t link → r'.Owes t link

theorem Upholds.refl (r : Roster) : r.Upholds r := ⟨.refl r, fun _ _ h => h⟩

theorem Upholds.trans (h : r₁.Upholds r₂) (h' : r₂.Upholds r₃) : r₁.Upholds r₃ :=
  ⟨h.toAbides.trans h'.toAbides, fun t link ho => h'.owes t link (h.owes t link ho)⟩

theorem Upholds.of_eq (ht : r₂.tasks = r₁.tasks) (hm : r₂.modules = r₁.modules) (ho : r₂.outgoing = r₁.outgoing) :
    r₁.Upholds r₂ := by
  refine ⟨.of_eq ht hm, fun t link h => ?_⟩
  unfold Owes at h ⊢
  rw [at?, ht, ho]
  exact h

theorem Abides.size_le (h : r₁.Abides r₂) : r₁.tasks.size ≤ r₂.tasks.size := by
  refine Nat.le_of_not_lt fun hlt => ?_
  obtain ⟨s, hs, _⟩ := h.tasks ⟨r₂.tasks.size⟩ _ (at?_of_index_lt (t := ⟨r₂.tasks.size⟩) hlt)
  exact Nat.lt_irrefl _ (index_lt_of_at? hs)

theorem Abides.isFinished (h : r₁.Abides r₂) (hs : (r₁.standingAt t).state.isFinished) :
    (r₂.standingAt t).state.isFinished := by
  by_cases hlt : t.index < r₁.tasks.size
  · obtain ⟨s, hs', hl⟩ := h.tasks t _ (at?_of_index_lt hlt)
    rw [standingAt_of_at? hs']
    exact hl.finished hs
  · have hnone : r₁.standingAt t = default := by
      simp [standingAt, Array.getD_eq_getD_getElem?, Nat.le_of_not_lt hlt]
    rw [hnone] at hs
    cases hs

theorem abides_update {f : Standing → Standing} (hf : ∀ s, r.at? t = some s → s.Later (f s)) : r.Abides (r.update t f) := by
  refine ⟨fun x s hs => ?_, fun x s hs hnone => ?_, fun _ _ h => .inl h⟩
  · rw [at?_update, hs]
    split
    · rename_i htx
      exact ⟨f s, rfl, hf s (htx ▸ hs)⟩
    · exact ⟨s, rfl, .refl s⟩
  · rw [at?_update, hnone] at hs
    split at hs <;> cases hs

theorem upholds_update {f : Standing → Standing} (hf : ∀ s, r.at? t = some s → s.Later (f s) ∧ (s.pending → (f s).pending)) :
    r.Upholds (r.update t f) := by
  refine ⟨abides_update fun s hs => (hf s hs).1, fun x link h => ?_⟩
  rcases h with ⟨s, hs, hremote, hpending⟩ | h
  · refine .inl ?_
    rw [at?_update, hs]
    split
    · rename_i htx
      obtain ⟨hlater, hstays⟩ := hf s (htx ▸ hs)
      exact ⟨f s, rfl, hlater.remote.trans hremote, hstays hpending⟩
    · exact ⟨s, rfl, hremote, hpending⟩
  · exact .inr h

/-- A task that has not ended is made to do something else. -/
theorem upholds_update_unfinished {f : Standing → Standing} (ht : ¬ (r.standingAt t).state.isFinished)
    (hp : ∀ s, (f s).parent = s.parent) (hr : ∀ s, (f s).remote = s.remote) (hpending : ∀ s, (f s).pending) :
    r.Upholds (r.update t f) :=
  upholds_update fun s hs => ⟨.of_unfinished (standingAt_of_at? hs ▸ ht) (hp s) (hr s), fun _ => hpending s⟩

theorem upholds_add (r : Roster) (hremote : s.remote = none) : r.Upholds (r.add s) := by
  have hold : ∀ x sx, r.at? x = some sx → (r.add s).at? x = some sx := fun x sx hs => by
    rw [at?_add, if_neg (ne_next_of_at? hs)]
    exact hs
  refine ⟨⟨fun x sx hs => ⟨sx, hold x sx hs, .refl sx⟩, fun x sx hs hnone => ?_, fun _ _ h => .inl h⟩, fun x link h => ?_⟩
  · rw [at?_add, hnone] at hs
    split at hs
    · cases hs
      exact hremote
    · cases hs
  · exact h.imp (fun ⟨sx, hs, hlink⟩ => ⟨sx, hold x sx hs, hlink⟩) fun h => h

theorem upholds_start (r : Roster) (hremote : s.remote = none) : r.Upholds (r.start s) :=
  (upholds_add r hremote).trans (.of_eq rfl rfl rfl)

theorem upholds_setModule {m : ModuleId} {state : ModuleState} (h : r.modules.get? m = none ∨ state = .ready) :
    r.Upholds (r.setModule m state) := by
  refine ⟨⟨fun _ s hs => ⟨s, hs, .refl s⟩, fun _ _ hs hnone => by simp_all [setModule, at?], fun m' state' hm => ?_⟩,
    fun _ _ h => h⟩
  change (r.modules.insert m state).get? m' = _ ∨ (r.modules.insert m state).get? m' = _
  simp only [Bindings.get?_insert]
  grind

theorem upholds_markReady (r : Roster) (m : Option ModuleId) : r.Upholds (r.markReady m) := by
  cases m with
  | none => exact .refl r
  | some m => exact upholds_setModule (.inr rfl)

theorem upholds_park (ht : ¬ (r.standingAt t).state.isFinished) (reason : WaitReason) : r.Upholds (r.park t reason) := by
  have h : r.Upholds (r.update t (·.park reason)) := upholds_update_unfinished ht (fun _ => rfl) (fun _ => rfl) fun _ => rfl
  exact h.trans (.of_eq rfl rfl rfl)

theorem upholds_await (ht : ¬ (r.standingAt t).state.isFinished) (y : TaskId) (delivery : Delivery) (reason : WaitReason) :
    r.Upholds (r.await t y delivery reason) := by
  have hy : r.Upholds (r.update y (·.addDependent t delivery)) :=
    upholds_update fun _ _ => ⟨⟨rfl, rfl, fun _ => ⟨rfl, rfl⟩⟩, fun h => h⟩
  have hun : ¬ ((r.update y (·.addDependent t delivery)).standingAt t).state.isFinished :=
    standingAt_update (P := fun s => ¬ s.state.isFinished) ht fun _ h => h
  exact hy.trans (upholds_park hun reason)

theorem upholds_wake (r : Roster) (t : TaskId) : r.Upholds (r.wake t) := by
  unfold wake
  split
  · exact .refl r
  · rename_i ht
    have h : r.Upholds (r.update t Standing.wake) :=
      upholds_update_unfinished ht (fun _ => rfl) (fun _ => rfl) fun _ => rfl
    exact h.trans (.of_eq rfl rfl rfl)

theorem upholds_deliver (r : Roster) (failed : Bool) (result : Value) (d : Dependent) :
    r.Upholds (r.deliver failed result d) := by
  unfold deliver
  split
  · exact .refl r
  · rename_i ht
    split
    · -- a task that cannot be told keeps what it owes
      rename_i hfail
      have hobject : result.handle? = none := by simp_all
      exact upholds_update_unfinished ht (fun _ => rfl) (fun _ => rfl) fun _ => by
        simp [Standing.pending, Standing.stranded, Standing.fail, Standing.conclude, hobject]
    · exact upholds_wake r d.task

theorem upholds_deliverAll (failed : Bool) (result : Value) (ds : List Dependent) :
    ∀ r : Roster, r.Upholds (ds.foldl (fun r d => r.deliver failed result d) r) := by
  induction ds with
  | nil => exact fun r => .refl r
  | cons d rest ih => exact fun r => (upholds_deliver r failed result d).trans (ih _)

theorem upholds_clear (r : Roster) (t : TaskId) : r.Upholds (r.clear t) := by
  have hcleared : (r.markReady (r.standingAt t).initializes).Upholds
      ((r.markReady (r.standingAt t).initializes).update t Standing.clear) :=
    upholds_update fun _ _ => ⟨⟨rfl, rfl, fun _ => ⟨rfl, rfl⟩⟩, fun h => h⟩
  exact (upholds_markReady r _).trans (hcleared.trans (.of_eq rfl rfl rfl))

theorem upholds_finish (r : Roster) (t : TaskId) : r.Upholds (r.finish t) :=
  (upholds_clear r t).trans (upholds_deliverAll _ _ _ _)

/-- The result of a task that ends is put on the list of those to be sent. -/
theorem upholds_conclude (ht : ¬ (r.standingAt t).state.isFinished) (state : TaskState) (v : Value) :
    r.Upholds (r.conclude t state v) := by
  have hended : r.Upholds ((r.update t (·.conclude state v)).owe t) := by
    have hrows : r.Abides (r.update t (·.conclude state v)) := abides_update fun s hs =>
      .of_unfinished (standingAt_of_at? hs ▸ ht) rfl rfl
    refine ⟨hrows.trans (.of_eq rfl rfl), fun x link h => ?_⟩
    have hat : ((r.update t (·.conclude state v)).owe t).at? x =
        if t = x then (r.at? x).map (·.conclude state v) else r.at? x := at?_update r t _ x
    rcases h with ⟨s, hs, hremote, hpending⟩ | h
    · by_cases htx : t = x
      · subst htx
        have hrow : (r.update t (·.conclude state v)).at? t = some (s.conclude state v) := by
          rw [at?_update, if_pos rfl, hs]
          rfl
        refine .inr (List.mem_append_right _ ?_)
        rw [standingAt_of_at? hrow]
        simp [Standing.conclude, hremote]
      · refine .inl ⟨s, ?_, hremote, hpending⟩
        rw [hat, if_neg htx]
        exact hs
    · exact .inr (List.mem_append_left _ h)
  exact hended.trans (upholds_finish _ t)

end Roster

end Spool
