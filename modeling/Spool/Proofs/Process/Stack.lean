import Spool.Proofs.Process.Plain

/-!
# Call stacks

If every call waits for its result, the tasks of a process that have not ended are a stack: one task can run, its
parent waits for it, the parent of that for the parent, and nobody else waits for anything.
-/

namespace Spool.Roster

variable {r r' r₀ : Roster} {cur : Option TaskId} {t x y : TaskId} {s : Standing} {state : TaskState} {v : Value}

/-! ## Parents -/

def ParentOf (r : Roster) (t u : TaskId) : Prop := (r.standingAt t).parent = some u

theorem ParentOf.at? (h : r.ParentOf t y) : r.at? t = some (r.standingAt t) := by
  apply at?_of_index_lt
  refine Nat.lt_of_not_le fun hle => ?_
  have hnone : r.standingAt t = default := by simp [standingAt, Array.getD_eq_getD_getElem?, hle]
  rw [ParentOf, hnone] at h
  cases h

theorem Plain.parent_lt (hp : r.Plain cur) (h : r.ParentOf t y) : y.index < t.index :=
  (hp.own t _ h.at?).older y h

/-- The tasks that led to a task are found, as there is fuel enough. -/
theorem Plain.mem_ancestryFrom (hp : r.Plain cur) {fuel : Nat} (h : Relation.ReflTransGen r.ParentOf t x)
    (hf : t.index < fuel) : x ∈ r.ancestryFrom fuel t := by
  induction fuel generalizing t with
  | zero => cases hf
  | succ fuel ih =>
      rcases Relation.ReflTransGen.cases_head h with rfl | ⟨u, hu, hux⟩
      · unfold ancestryFrom
        split <;> simp
      · unfold ancestryFrom
        rw [show (r.standingAt t).parent = some u from hu]
        have := hp.parent_lt hu
        exact List.mem_cons_of_mem t (ih hux (by omega))

theorem Plain.mem_ancestry (hp : r.Plain cur) (ht : t.index < r.tasks.size)
    (h : Relation.ReflTransGen r.ParentOf t x) : x ∈ r.ancestry t :=
  hp.mem_ancestryFrom h (Nat.lt_succ_of_lt ht)

/-! ## Stacks -/

/-- One task can run at most, and a task that has not ended is waited for by its parent and by nobody else. -/
structure Stacked (r : Roster) (cur : Option TaskId) : Prop where
  only : ∀ y s, r.at? y = some s → ¬ s.state.isFinished → s.waiters = s.parent.toList
  single : (cur.toList ++ r.queue).length ≤ 1
  idle : r.inFlight = 0

theorem Stacked.queue_eq_nil (hr : r.Stacked (some t)) : r.queue = [] := by
  have := hr.single
  simpa using this

/-- A task that has not ended can run, or its child has not ended. -/
theorem Stacked.exists_child (hr : r.Stacked cur) (hp : r.Plain cur) (hs : r.at? x = some s) (hun : ¬ s.state.isFinished)
    (hrun : x ∉ cur.toList ++ r.queue) (hcur : ∀ t, cur = some t → ¬ (r.standingAt t).state.isFinished) :
    ∃ y sy, r.at? y = some sy ∧ ¬ sy.state.isFinished ∧ r.ParentOf y x := by
  have hwaits : r.Waits x := by
    refine ⟨s, hs, ?_⟩
    have hruns : ¬ r.Runs x := by
      intro h
      rcases hp.ordered.runs x h with h | h
      · exact hrun (List.mem_append_right _ h)
      · exact hrun (List.mem_append_left _ (by simp [h]))
    cases hstate : s.state with
    | waiting => rfl
    | new => exact absurd ⟨s, hs, .inl hstate⟩ hruns
    | running => exact absurd ⟨s, hs, .inr hstate⟩ hruns
    | complete => simp [hstate, TaskState.isFinished] at hun
    | error => simp [hstate, TaskState.isFinished] at hun
  have hmem := (hp.ordered.parked x).2 hwaits
  rw [List.append_nil] at hmem
  obtain ⟨y, sy, hsy, hxy⟩ := mem_waiters.1 hmem
  have huny : ¬ sy.state.isFinished := by
    by_cases hy : cur = some y
    · exact standingAt_of_at? hsy ▸ hcur y hy
    · refine hp.unfinished hsy (.inl fun hnil => ?_) hy
      simp [Standing.waiters, hnil] at hxy
  refine ⟨y, sy, hsy, huny, ?_⟩
  rw [hr.only y sy hsy huny] at hxy
  rw [ParentOf, standingAt_of_at? hsy]
  exact Option.mem_toList.1 hxy

/-- Every task that has not ended has led to the one that can run. -/
theorem Stacked.exists_running (hr : r.Stacked cur) (hp : r.Plain cur)
    (hcur : ∀ t, cur = some t → ¬ (r.standingAt t).state.isFinished) (hs : r.at? x = some s)
    (hun : ¬ s.state.isFinished) : ∃ t ∈ cur.toList ++ r.queue, Relation.ReflTransGen r.ParentOf t x := by
  -- children are younger, and there are only so many tasks
  induction hn : r.tasks.size - x.index using Nat.strong_induction_on generalizing x s with
  | _ n ih =>
      by_cases hrun : x ∈ cur.toList ++ r.queue
      · exact ⟨x, hrun, .refl⟩
      · obtain ⟨y, sy, hsy, huny, hyx⟩ := hr.exists_child hp hs hun hrun hcur
        have hlt := hp.parent_lt hyx
        have hsize := index_lt_of_at? hsy
        obtain ⟨t, ht, hty⟩ := ih (r.tasks.size - y.index) (by omega) hsy huny rfl
        exact ⟨t, ht, hty.tail hyx⟩

/-- What has led to a task that has not ended has not ended. -/
theorem Stacked.unfinished (hr : r.Stacked cur) (hp : r.Plain cur) (ht : ¬ (r.standingAt t).state.isFinished)
    (h : Relation.ReflTransGen r.ParentOf t x) : ¬ (r.standingAt x).state.isFinished := by
  induction h with
  | refl => exact ht
  | @tail a b _ hab ih =>
      have hmem : b ∈ r.waiters := by
        refine mem_waiters.2 ⟨a, _, hab.at?, ?_⟩
        rw [hr.only a _ hab.at? ih, show (r.standingAt a).parent = some b from hab]
        simp
      obtain ⟨s, hs, hstate⟩ := (hp.ordered.parked b).1 (List.mem_append_left _ hmem)
      rw [standingAt_of_at? hs, hstate]
      exact Bool.noConfusion

/-- The parent of a task that has led to the one that can run waits for it, and nobody else does. -/
theorem Stacked.waiters_eq (hr : r.Stacked cur) (hp : r.Plain cur) (ht : ¬ (r.standingAt t).state.isFinished)
    (h : Relation.ReflTransGen r.ParentOf t x) (hxy : r.ParentOf x y) : (r.standingAt x).waiters = [y] := by
  rw [hr.only x _ hxy.at? (hr.unfinished hp ht h), show (r.standingAt x).parent = some y from hxy]
  rfl

/-- Those who are parked are those who have led to the task that can run. -/
theorem Stacked.mem_waiting (hr : r.Stacked none) (hp : r.Plain none) (hq : r.queue = [t]) :
    x ∈ r.waiting ↔ Relation.TransGen r.ParentOf t x := by
  obtain ⟨⟨st, hst, hrun⟩, _⟩ := hp.ordered.queued t (by simp [hq])
  have ht : ¬ (r.standingAt t).state.isFinished := by
    rw [standingAt_of_at? hst]
    rcases hrun with h | h <;> simp [h, TaskState.isFinished]
  constructor
  · intro hx
    obtain ⟨s, hs, hstate⟩ := hp.waits hx
    obtain ⟨t', ht', h⟩ := hr.exists_running hp (by simp) hs (by simp [hstate, TaskState.isFinished])
    cases (by simpa [hq] using ht' : t' = t)
    rcases Relation.reflTransGen_iff_eq_or_transGen.1 h with rfl | h
    · cases hst.symm.trans hs
      rw [hstate] at hrun
      rcases hrun with h | h <;> cases h
    · exact h
  · intro h
    obtain ⟨a, hta, hax⟩ := Relation.TransGen.tail'_iff.1 h
    apply hp.ordered.waits
    rw [← hp.ordered.parked, List.append_nil]
    refine mem_waiters.2 ⟨a, _, hax.at?, ?_⟩
    rw [hr.waiters_eq hp ht hta hax]
    simp

/-- Everybody has come to an end, or there is a task to run. -/
theorem Stacked.cases (hr : r.Stacked none) (hp : r.Plain none) :
    r.queue = [] ∧ (∀ t s, r.at? t = some s → s.state.isFinished) ∨ ∃ t, r.queue = [t] := by
  have hsingle := hr.single
  cases hq : r.queue with
  | nil =>
      refine .inl ⟨rfl, fun t s hs => ?_⟩
      by_contra hun
      obtain ⟨t', ht', _⟩ := hr.exists_running hp (by simp) hs hun
      simp [hq] at ht'
  | cons t rest =>
      rw [hq] at hsingle
      refine .inr ⟨t, ?_⟩
      cases rest with
      | nil => rfl
      | cons _ _ => simp at hsingle

/-! ## What each change keeps -/

theorem Stacked.wake (hr : r.Stacked (some t)) (hun : ¬ (r.standingAt t).state.isFinished) :
    (r.update t Standing.wake).Stacked (some t) :=
  ⟨forall_update hr.only fun _ hs h _ => h (standingAt_of_at? hs ▸ hun), hr.single, hr.idle⟩

/-- A task waits for one that it has just made. -/
theorem Stacked.await (r' : Roster) (hr : r.Stacked (some t)) (hun : ¬ (r.standingAt t).state.isFinished) (hlt : t.index < r.tasks.size)
    {m : Option ModuleId} (hrow : r'.at? = (r.add { parent := some t, initializes := m }).at?)
    (hq : r'.queue = r.queue ++ [r.next]) (hi : r'.inFlight = r.inFlight) (delivery : Delivery) (reason : WaitReason) :
    (r'.await t r.next delivery reason).Stacked none := by
  have ht : t ≠ r.next := ne_next_of_at? (at?_of_index_lt hlt)
  refine ⟨fun x s hs hx => ?_, ?_, hi.trans hr.idle⟩
  · change ((r'.update r.next (·.addDependent t delivery)).update t (·.park reason)).at? x = some s at hs
    rw [at?_update, at?_update, hrow, at?_add] at hs
    by_cases hxt : t = x
    · subst hxt
      rw [if_pos rfl, if_neg (Ne.symm ht), if_neg ht, at?_of_index_lt hlt] at hs
      cases hs
      exact hr.only t (r.standingAt t) (at?_of_index_lt hlt) hun
    · rw [if_neg hxt] at hs
      by_cases hxn : x = r.next
      · subst hxn
        rw [if_pos rfl, if_pos rfl] at hs
        cases hs
        rfl
      · rw [if_neg (Ne.symm hxn), if_neg hxn] at hs
        exact hr.only x s hs hx
  · change (none.toList ++ r'.queue).length ≤ 1
    rw [hq, hr.queue_eq_nil]
    rfl

/-- The task that has begun to load a module is on the stack. -/
theorem Stacked.mem_ancestry (hr : r.Stacked (some t)) (hp : r.Plain (some t))
    (hun : ¬ (r.standingAt t).state.isFinished) {m : ModuleId} (hm : r.modules.get? m = some (.initializing y)) :
    y ∈ r.ancestry t := by
  obtain ⟨s, hs⟩ := hp.at?_inHand
  have hlt := index_lt_of_at? hs
  obtain ⟨sy, hsy, hi⟩ := (hp.ordered.initializing m y).1 hm
  by_cases hty : t = y
  · subst hty
    exact hp.mem_ancestry hlt .refl
  · have huny := hp.unfinished hsy (.inr (by simp [hi])) (by simpa using hty)
    obtain ⟨x, hx, hxy⟩ := hr.exists_running hp (fun x hx => by cases hx; exact hun) hsy huny
    rw [hr.queue_eq_nil] at hx
    cases (by simpa using hx : x = t)
    exact hp.mem_ancestry hlt hxy

theorem Stacked.rests (hr : r.Stacked (some t)) (hp : r.Plain (some t)) (hun : ¬ (r.standingAt t).state.isFinished)
    (h : r.Rests t r') : r'.Stacked none := by
  obtain ⟨s, hs⟩ := hp.at?_inHand
  have hlt := index_lt_of_at? hs
  cases h with
  | call delivery =>
      exact hr.await (r.start { parent := some t }) (m := none) hun hlt rfl rfl rfl delivery .onCall
  | join m y hm hy => exact absurd (hr.mem_ancestry hp hun hm) hy
  | load m hm => exact hr.await (r.load m t) (m := some m) hun hlt rfl rfl rfl .keep .onCall

theorem Stacked.conclude (hr : r.Stacked (some t)) (hp : r.Plain (some t)) (hun : ¬ (r.standingAt t).state.isFinished)
    (h : state.Reaches v) : (r.conclude t state v).Stacked none := by
  obtain ⟨s, hs⟩ := hp.at?_inHand
  rw [standingAt_of_at? hs] at hun
  have honly := hr.only t s hs hun
  have hclear : ((r.update t (·.conclude state v)).clear t).inFlight = r.inFlight ∧
      ((r.update t (·.conclude state v)).clear t).queue = r.queue := by
    unfold clear
    cases ((r.update t (·.conclude state v)).standingAt t).initializes <;> exact ⟨rfl, rfl⟩
  have hended : ∀ sx, (r.update t (·.conclude state v)).at? t = some sx → sx.state.isFinished := by
    intro sx hsx
    rw [at?_update, if_pos rfl, hs] at hsx
    cases hsx
    exact h.isFinished
  obtain ⟨_, hi, _, hq⟩ := wakeAll_frame s.waiters ((r.update t (·.conclude state v)).clear t)
  rw [conclude_eq hs (hp.own t s hs).unlinked h]
  refine ⟨forall_wakeAll (fun _ _ hun h _ => h hun) _ _ (forall_clear ?_ ?_), Nat.le_trans hq ?_, ?_⟩
  · exact forall_update hr.only fun _ _ _ hun' => absurd h.isFinished hun'
  · exact fun sx hsx _ hun' => absurd (hended sx hsx) hun'
  · rw [hclear.2, hr.queue_eq_nil, honly]
    cases s.parent <;> simp
  · exact hi.trans (hclear.1.trans hr.idle)

/-! ## Nobody waits for an old task -/

/-- Nobody has come to wait for a task that was there before. -/
structure Fresh (r₀ r : Roster) : Prop where
  size_le : r₀.tasks.size ≤ r.tasks.size
  rows : ∀ y s, r.at? y = some s → ∀ s₀, r₀.at? y = some s₀ → s.dependents ⊆ s₀.dependents

theorem Fresh.refl (r : Roster) : r.Fresh r := by
  refine ⟨Nat.le_refl _, fun y s hs s₀ hs₀ => ?_⟩
  cases hs.symm.trans hs₀
  exact fun _ h => h

theorem Fresh.not_old (h : r₀.Fresh r) : r₀.at? r.next = none := by
  simp [at?, next, h.size_le]

theorem Fresh.await (r' : Roster) (h : r₀.Fresh r) {m : Option ModuleId}
    (ht : r'.tasks = (r.add { parent := some t, initializes := m }).tasks) (delivery : Delivery) (reason : WaitReason) :
    r₀.Fresh (r'.await t r.next delivery reason) := by
  have hold := h.not_old
  have hat : r'.at? = (r.add { parent := some t, initializes := m }).at? := by
    funext x
    simp [at?, ht]
  refine ⟨?_, forall_await ?_ (fun _ _ s₀ hs₀ => ?_) fun _ hs => hs⟩
  · have hsize : (r'.await t r.next delivery reason).tasks.size = r.tasks.size + 1 := by
      simp [Roster.await, park, ht, add, update]
    rw [hsize]
    exact Nat.le_succ_of_le h.size_le
  · rw [hat]
    exact forall_add h.rows fun s₀ hs₀ => by simp
  · rw [hold] at hs₀
    cases hs₀

theorem Fresh.conclude (h : r₀.Fresh r) (hp : r.Plain (some t)) (hreach : state.Reaches v) :
    r₀.Fresh (r.conclude t state v) := by
  obtain ⟨s, hs⟩ := hp.at?_inHand
  refine ⟨h.size_le.trans_eq (size_conclude hp hreach).symm, ?_⟩
  rw [conclude_eq hs (hp.own t s hs).unlinked hreach]
  refine forall_wakeAll (fun _ _ _ h => h) _ _ (forall_clear (forall_update h.rows fun _ _ h => h) ?_)
  simp [Standing.clear]

theorem lasts_stacked (r₀ : Roster) : Lasts False fun r cur => r.Stacked cur ∧ r₀.Fresh r where
  dequeue _ hq h := ⟨⟨h.1.only, by simpa [hq] using h.1.single, h.1.idle⟩, h.2.size_le, h.2.rows⟩
  wake _ hun h := ⟨h.1.wake hun, by simpa using h.2.size_le, forall_update h.2.rows fun _ _ h => h⟩
  call h := h.elim
  rests hp hun hrest h := by
    refine ⟨h.1.rests hp hun hrest, ?_⟩
    cases hrest with
    | call delivery => exact h.2.await ((_ : Roster).start _) (m := none) rfl delivery .onCall
    | join m y hm hy => exact absurd (h.1.mem_ancestry hp hun hm) hy
    | load m hm => exact h.2.await ((_ : Roster).load m _) (m := some m) rfl .keep .onCall
  ends hp hun hreach h := ⟨h.1.conclude hp hun hreach, h.2.conclude hp hreach⟩

/-! ## New tasks -/

/-- Whoever is not old works for the task that waits. -/
theorem forall_newcomers (h : ∀ y s, r.at? y = some s → r'.tasks.size ≤ y.index → s.parent = some t)
    (x : TaskId) (delivery : Delivery) (reason : WaitReason) :
    ∀ y s, (r.await t x delivery reason).at? y = some s → r'.tasks.size ≤ y.index → s.parent = some t :=
  forall_await (P := fun y s => r'.tasks.size ≤ y.index → s.parent = some t) h (fun _ hs => hs) fun _ hs => hs

/-- A task that is made in a turn works for the task that has had the turn, and that waits now. -/
theorem Turn.newcomer (h : Turn False t r r') (hp : r.Plain (some t)) (hy : r'.at? y = some s)
    (hnew : r.tasks.size ≤ y.index) : s.parent = some t ∧ r'.Waits t := by
  have hold : ∀ z sz, (r.update t Standing.wake).at? z = some sz → r.tasks.size ≤ z.index → sz.parent = some t := by
    intro z sz hz hle
    have hlt := index_lt_of_at? hz
    rw [size_update] at hlt
    omega
  obtain ⟨st, hst⟩ := hp.at?_inHand
  have hlt : t.index < (r.update t Standing.wake).tasks.size := by
    rw [size_update]
    exact index_lt_of_at? hst
  cases h with
  | ends hc hreach =>
      cases eq_of_calls hc
      have hsize := index_lt_of_at? hy
      rw [size_conclude hp.wake hreach, size_update] at hsize
      omega
  | rests hc hrest =>
      cases eq_of_calls hc
      have hadd : ∀ m : Option ModuleId, t.index < ((r.update t Standing.wake).add { parent := some t, initializes := m }).tasks.size := by
        intro m
        simp only [add, Array.size_push]
        exact Nat.lt_succ_of_lt hlt
      have hmade : ∀ (m : Option ModuleId) z sz, ((r.update t Standing.wake).add { parent := some t, initializes := m }).at? z
          = some sz → r.tasks.size ≤ z.index → sz.parent = some t := fun m =>
        forall_add (P := fun z sz => r.tasks.size ≤ z.index → sz.parent = some t) hold fun _ => rfl
      cases hrest with
      | call delivery =>
          exact ⟨forall_newcomers (hmade none) _ _ _ y s hy hnew, waits_await (hadd none) _ _⟩
      | join m x hm hx => exact ⟨forall_newcomers hold _ _ _ y s hy hnew, waits_await hlt _ _⟩
      | load m hm =>
          exact ⟨forall_newcomers (hmade (some m)) _ _ _ y s hy hnew, waits_await (hadd (some m)) _ _⟩

end Spool.Roster
