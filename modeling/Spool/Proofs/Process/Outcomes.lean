import Spool.Proofs.Process.Roster

/-!
# What becomes of those who wait

A task that has come to its end hands its outcome to each task that waits for it. Who gets a result, or an error object
that a context can take, is back in the queue; an error that is no object ends those who wait for it where they stand.
-/

namespace Spool

/-- The outcome of a finished task can be handed to one that waits for it. -/
def Task.Tells (task waiter : Task) : Prop :=
  task.state = .complete ∨ task.register.handle?.isSome ∧ waiter.contexts ≠ []

namespace Process

variable {p p' q : Process} {t x : TaskId} {d e : Dependent} {failed : Bool} {v : Value}

/-- A task that has waited for another one is in the queue again, with the result or the error of the other. -/
structure Resumed (p p' : Process) (t : TaskId) (d : Dependent) : Prop where
  queued : d.task ∈ p'.queue.toList
  unparked : d.task ∉ p'.waiting
  running : (p'.taskAt d.task).state = .running
  result : (p.taskAt t).state = .complete → d.delivery = .result → (p'.taskAt d.task).register = (p.taskAt t).register
  error : (p.taskAt t).state = .error → ∃ c, (p'.taskAt d.task).top? = some c ∧
    (c.index < p'.contexts.size → (p'.contextAt c).error = (p.taskAt t).register.handle?)

/-- A task that has waited for another one has failed, and that is all that has happened to it. -/
structure Abandoned (p p' : Process) (t x : TaskId) : Prop where
  task : p'.taskAt x = { p.taskAt x with state := .error, register := (p.taskAt t).register }
  parked : x ∈ p'.waiting ↔ x ∈ p.waiting
  queued : x ∈ p'.queue.toList ↔ x ∈ p.queue.toList

/-! ## Tasks that are not concerned -/

/-- Nothing has happened to a task. -/
structure Skips (x : TaskId) (p p' : Process) : Prop where
  task : p'.taskAt x = p.taskAt x
  parked : x ∈ p'.waiting ↔ x ∈ p.waiting
  queued : x ∈ p'.queue.toList ↔ x ∈ p.queue.toList

theorem Skips.refl (x : TaskId) (p : Process) : Skips x p p := ⟨rfl, Iff.rfl, Iff.rfl⟩

theorem Skips.trans (h : Skips x p q) (h' : Skips x q p') : Skips x p p' :=
  ⟨h'.task.trans h.task, h'.parked.trans h.parked, h'.queued.trans h.queued⟩

theorem skips_modifyTask (ht : t ≠ x) (p : Process) (f : Task → Task) : Skips x p (p.modifyTask t f) := by
  refine ⟨?_, Iff.rfl, Iff.rfl⟩
  rw [taskAt_modifyTask, if_neg fun h => ht h.1]

theorem skips_wake (ht : t ≠ x) (p : Process) : Skips x p (p.wake t) := by
  unfold wake
  split
  · exact .refl x p
  · refine ⟨(skips_modifyTask ht p _).task, List.mem_erase_of_ne ht.symm, ?_⟩
    simp [ht.symm]

/-- A delivery changes the row of a task, its place, and the error of a context. -/
theorem deliver_induction {P : Process → Prop} (hp : P p) (htask : ∀ q f, P q → P (q.modifyTask d.task f))
    (hcontext : ∀ q c f, P q → P (q.modifyContext c f)) (hwake : ∀ q, P q → P (q.wake d.task)) (failed : Bool) (v : Value) :
    P (p.deliver failed v d) := by
  unfold deliver
  split
  · exact hp
  · split
    · unfold deliverError
      split
      · exact hwake _ (hcontext p _ _ hp)
      · exact htask p _ hp
    · split
      · exact hwake _ (htask p _ hp)
      · exact hwake p hp

theorem skips_deliver (hd : d.task ≠ x) (p : Process) (failed : Bool) (v : Value) :
    Skips x p (p.deliver failed v d) := by
  apply deliver_induction (P := Skips x p) (.refl x p)
  · exact fun q f h => h.trans (skips_modifyTask hd q f)
  · exact fun q c f h => ⟨h.task, h.parked, h.queued⟩
  · exact fun q h => h.trans (skips_wake hd q)

theorem skips_clear (ht : t ≠ x) (p : Process) : Skips x p (p.clear t) := by
  obtain ⟨contexts, free, heq⟩ := clear_eq p t
  refine ⟨?_, ?_, ?_⟩
  · have hget := getElem?_clear p t x
    rw [if_neg ht] at hget
    simp only [taskAt, Array.getD_eq_getD_getElem?, hget]
  · rw [heq]
    exact List.mem_erase_of_ne ht.symm
  · rw [heq]
    rfl

/-! ## Waking -/

structure Awake (p : Process) (x : TaskId) : Prop where
  queued : x ∈ p.queue.toList
  unparked : x ∉ p.waiting
  running : (p.taskAt x).state = .running

theorem Awake.skips (hp : p.Awake x) (h : Skips x p p') : p'.Awake x :=
  ⟨h.queued.2 hp.queued, fun hw => hp.unparked (h.parked.1 hw), h.task ▸ hp.running⟩

theorem wake_eq (ht : ¬ (p.taskAt t).state.isFinished) :
    p.wake t = { p.modifyTask t fun t => { t with state := .running, reason := .notWaiting } with
      waiting := p.waiting.erase t, queue := p.queue.push t } := by
  unfold wake
  rw [if_neg ht]
  rfl

theorem awake_wake (ht : ¬ (p.taskAt t).state.isFinished) (hlt : t.index < p.tasks.size) (hn : p.waiting.Nodup) :
    (p.wake t).Awake t := by
  rw [wake_eq ht]
  refine ⟨by simp, hn.not_mem_erase, ?_⟩
  change ((p.modifyTask t _).taskAt t).state = _
  rw [taskAt_modifyTask, if_pos ⟨rfl, hlt⟩]

theorem register_wake (p : Process) (t x : TaskId) : ((p.wake t).taskAt x).register = (p.taskAt x).register := by
  by_cases ht : (p.taskAt t).state.isFinished
  · simp [wake, ht]
  · rw [wake_eq ht]
    change ((p.modifyTask t _).taskAt x).register = _
    rw [taskAt_modifyTask]
    split <;> rfl

/-! ## Delivering -/

/-- What stays the same of a task that is told the outcome of another one. -/
structure Lasting (p : Process) (x : TaskId) (task : Task) : Prop where
  index_lt : x.index < p.tasks.size
  unfinished : ¬ (p.taskAt x).state.isFinished
  contexts : (p.taskAt x).contexts = task.contexts
  listed : p.waiting.Nodup

theorem nodup_deliver (hn : p.waiting.Nodup) (failed : Bool) (v : Value) (d : Dependent) :
    (p.deliver failed v d).waiting.Nodup := by
  apply deliver_induction (P := fun q => q.waiting.Nodup) hn
  · exact fun q f h => h
  · exact fun q c f h => h
  · intro q h
    unfold wake
    split
    · exact h
    · exact h.erase d.task

theorem size_tasks_deliver (p : Process) (failed : Bool) (v : Value) (d : Dependent) :
    (p.deliver failed v d).tasks.size = p.tasks.size := by
  apply deliver_induction (P := fun q => q.tasks.size = p.tasks.size) rfl
  · exact fun q f h => (Array.size_modify ..).trans h
  · exact fun q c f h => h
  · intro q h
    unfold wake
    split
    · exact h
    · exact (Array.size_modify ..).trans h

/-- A task that can take the outcome is told, and nothing else happens to it. -/
theorem deliver_eq (hun : ¬ (p.taskAt d.task).state.isFinished)
    (htells : failed → v.handle?.isSome ∧ (p.taskAt d.task).contexts ≠ []) :
    (failed = true ∧ ∃ c r, (p.taskAt d.task).top? = some c ∧ v = .object r ∧
      p.deliver failed v d = (p.modifyContext c fun c => { c with error := some r }).wake d.task) ∨
    (failed = false ∧ d.delivery = .result ∧
      p.deliver failed v d = (p.modifyTask d.task fun t => { t with register := v }).wake d.task) ∨
    (failed = false ∧ d.delivery = .keep ∧ p.deliver failed v d = p.wake d.task) := by
  unfold deliver
  rw [if_neg hun]
  cases failed with
  | true =>
      obtain ⟨hv, hc⟩ := htells rfl
      obtain ⟨c, rest, hcs⟩ := List.exists_cons_of_ne_nil hc
      have htop : (p.taskAt d.task).top? = some c := by simp [Task.top?, hcs]
      cases v with
      | object r => exact .inl ⟨rfl, c, r, htop, rfl, by simp [deliverError, htop]⟩
      | none => cases hv
      | scalar s => cases hv
  | false =>
      cases hd : d.delivery with
      | result => exact .inr (.inl ⟨rfl, rfl, rfl⟩)
      | keep => exact .inr (.inr ⟨rfl, rfl, rfl⟩)

/-- A task that cannot take the outcome fails where it stands. -/
theorem deliver_eq_failTask (hun : ¬ (p.taskAt d.task).state.isFinished) (hf : failed)
    (hv : ¬ (v.handle?.isSome ∧ (p.taskAt d.task).contexts ≠ [])) : p.deliver failed v d = p.failTask d.task v := by
  unfold deliver deliverError
  rw [if_neg hun, if_pos hf]
  split
  · rename_i c r htop
    refine absurd ⟨rfl, fun hnil => ?_⟩ hv
    simp [Task.top?, hnil] at htop
  · rfl

theorem top?_deliver (p : Process) (failed : Bool) (v : Value) (d : Dependent) (x : TaskId) :
    ((p.deliver failed v d).taskAt x).top? = (p.taskAt x).top? := by
  rw [Task.top?, contexts_deliver]
  rfl

/-- A task that can be told stays one that can be told. -/
theorem Lasting.deliver {task : Task} (hp : p.Lasting x task) (htells : failed → v.handle?.isSome ∧ task.contexts ≠ [])
    (d : Dependent) : (p.deliver failed v d).Lasting x task ∧ (d.task = x → (p.deliver failed v d).Awake x) := by
  have hlt : x.index < (p.deliver failed v d).tasks.size := (size_tasks_deliver p failed v d).symm ▸ hp.index_lt
  have hcontexts := (contexts_deliver p failed v d x).trans hp.contexts
  have hlisted := nodup_deliver hp.listed failed v d
  by_cases hd : d.task = x
  · subst hd
    have hawake : (p.deliver failed v d).Awake d.task := by
      rcases deliver_eq hp.unfinished fun hf => hp.contexts ▸ htells hf with
        ⟨_, c, r, _, _, heq⟩ | ⟨_, _, heq⟩ | ⟨_, _, heq⟩
      · rw [heq]
        exact awake_wake (p := p.modifyContext _ _) hp.unfinished hp.index_lt hp.listed
      · rw [heq]
        refine awake_wake (p := p.modifyTask d.task _) ?_ (by simpa [modifyTask] using hp.index_lt) hp.listed
        rw [taskAt_modifyTask, if_pos ⟨rfl, hp.index_lt⟩]
        exact hp.unfinished
      · rw [heq]
        exact awake_wake hp.unfinished hp.index_lt hp.listed
    refine ⟨⟨hlt, ?_, hcontexts, hlisted⟩, fun _ => hawake⟩
    rw [hawake.running]
    simp [TaskState.isFinished]
  · refine ⟨⟨hlt, ?_, hcontexts, hlisted⟩, fun h => absurd h hd⟩
    rw [(skips_deliver hd p failed v).task]
    exact hp.unfinished

/-- The task has been told. -/
structure Told (p : Process) (x : TaskId) (failed : Bool) (v : Value) (delivery : Delivery) : Prop where
  awake : p.Awake x
  result : failed = false → delivery = .result → (p.taskAt x).register = v
  error : failed = true → ∀ c, (p.taskAt x).top? = some c → c.index < p.contexts.size → (p.contextAt c).error = v.handle?

theorem contexts_wake (p : Process) (t : TaskId) : (p.wake t).contexts = p.contexts := by
  unfold wake
  split <;> rfl

theorem contextAt_wake (p : Process) (t : TaskId) (c : ContextId) : (p.wake t).contextAt c = p.contextAt c := by
  simp only [contextAt, contexts_wake]

/-- An error that has been noted is noted again, and no other. -/
theorem error_deliver (d : Dependent) {c : ContextId} (hc : (p.contextAt c).error = v.handle?) :
    ((p.deliver true v d).contextAt c).error = v.handle? := by
  unfold deliver
  split
  · exact hc
  · simp only [if_true, deliverError]
    split
    · rw [contextAt_wake, contextAt_modifyContext]
      split
      · rfl
      · exact hc
    · exact hc

theorem size_contexts_deliver (p : Process) (failed : Bool) (v : Value) (d : Dependent) :
    (p.deliver failed v d).contexts.size = p.contexts.size := by
  apply deliver_induction (P := fun q => q.contexts.size = p.contexts.size) rfl
  · exact fun q f h => h
  · exact fun q c f h => (Array.size_modify ..).trans h
  · exact fun q h => (congrArg Array.size (contexts_wake q d.task)).trans h

theorem told_deliver {task : Task} (hp : p.Lasting d.task task)
    (htells : failed → v.handle?.isSome ∧ task.contexts ≠ []) : (p.deliver failed v d).Told d.task failed v d.delivery := by
  refine ⟨(hp.deliver htells d).2 rfl, ?_, ?_⟩
  all_goals
    rcases deliver_eq hp.unfinished fun hf => hp.contexts ▸ htells hf with
      ⟨hf, c, r, htop, rfl, heq⟩ | ⟨hf, hd, heq⟩ | ⟨hf, hd, heq⟩
  · simp [hf]
  · intro _ _
    rw [heq, register_wake, taskAt_modifyTask, if_pos ⟨rfl, hp.index_lt⟩]
  · simp [hd]
  · intro _ c' hc' hlt
    rw [top?_deliver, htop] at hc'
    cases hc'
    rw [size_contexts_deliver] at hlt
    rw [heq, contextAt_wake, contextAt_modifyContext, if_pos ⟨rfl, hlt⟩]
    rfl
  · simp [hf]
  · simp [hf]

theorem Told.deliver {task : Task} {delivery : Delivery} (h : p.Told x failed v delivery) (hp : p.Lasting x task)
    (htells : failed → v.handle?.isSome ∧ task.contexts ≠ []) (d : Dependent) :
    (p.deliver failed v d).Told x failed v delivery := by
  refine ⟨?_, fun hf hd => ?_, fun hf c hc hlt => ?_⟩
  · by_cases hd : d.task = x
    · exact (hp.deliver htells d).2 hd
    · exact h.awake.skips (skips_deliver hd p failed v)
  · by_cases hx : d.task = x
    · subst hx
      rcases deliver_eq hp.unfinished fun hf => hp.contexts ▸ htells hf with
        ⟨hf', _⟩ | ⟨_, _, heq⟩ | ⟨_, _, heq⟩
      · rw [hf] at hf'
        cases hf'
      · rw [heq, register_wake, taskAt_modifyTask, if_pos ⟨rfl, hp.index_lt⟩]
      · rw [heq, register_wake]
        exact h.result hf hd
    · rw [(skips_deliver hx p failed v).task]
      exact h.result hf hd
  · rw [top?_deliver] at hc
    rw [size_contexts_deliver] at hlt
    subst hf
    exact error_deliver d (h.error rfl c hc hlt)

/-- What leads to something in one round of a loop, and lasts in the others, has led to it in the end. -/
theorem foldl_leads {α β : Type} {f : β → α → β} {P Q : β → Prop} {a : α} {l : List α} (ha : a ∈ l)
    (hP : ∀ b a, P b → P (f b a) ∨ Q (f b a)) (hPQ : ∀ b, P b → Q (f b a)) (hQ : ∀ b a, Q b → Q (f b a)) :
    ∀ b, P b → Q (l.foldl f b) := by
  have hstay : ∀ (l : List α) b, Q b → Q (l.foldl f b) := by
    intro l
    induction l with
    | nil => exact fun _ h => h
    | cons a l ih => exact fun b h => ih _ (hQ b a h)
  induction l with
  | nil => cases ha
  | cons a' l ih =>
      intro b hb
      rcases List.mem_cons.1 ha with rfl | ha
      · exact hstay l _ (hPQ b hb)
      · rcases hP b a' hb with h | h
        · exact ih ha _ h
        · exact hstay l _ h

/-! ## Finishing -/

theorem Lasting.clear (ht : t ≠ x) (hlt : x.index < p.tasks.size) (hun : ¬ (p.taskAt x).state.isFinished)
    (hn : p.waiting.Nodup) : (p.clear t).Lasting x (p.taskAt x) := by
  have hskip := skips_clear ht p
  refine ⟨?_, hskip.task ▸ hun, congrArg Task.contexts hskip.task, ?_⟩
  · have hget := getElem?_clear p t x
    rw [if_neg ht, getElem?_of_index_lt hlt] at hget
    exact index_lt_of_getElem? hget
  · obtain ⟨contexts, free, heq⟩ := clear_eq p t
    rw [heq]
    exact hn.erase t

/-- A task that can take the outcome of the one it has waited for gets it. -/
theorem resumed_finish (hfin : (p.taskAt t).state.isFinished) (hn : p.waiting.Nodup) (hd : d ∈ (p.taskAt t).dependents)
    (hlt : d.task.index < p.tasks.size) (hun : ¬ (p.taskAt d.task).state.isFinished)
    (htells : (p.taskAt t).Tells (p.taskAt d.task)) : Resumed p (p.finish t) t d := by
  have hne : t ≠ d.task := by
    rintro rfl
    exact hun hfin
  have htells' : decide ((p.taskAt t).state = .error) = true →
      (p.taskAt t).register.handle?.isSome ∧ (p.taskAt d.task).contexts ≠ [] := by
    intro he
    refine htells.resolve_left fun hc => ?_
    simp [hc] at he
  have htold : (p.finish t).Told d.task ((p.taskAt t).state = .error) (p.taskAt t).register d.delivery ∧
      (p.finish t).Lasting d.task (p.taskAt d.task) := by
    rw [finish_eq]
    apply foldl_leads (P := fun q : Process => q.Lasting d.task (p.taskAt d.task)) (Q := fun q : Process =>
      q.Told d.task ((p.taskAt t).state = .error) (p.taskAt t).register d.delivery ∧
        q.Lasting d.task (p.taskAt d.task)) hd
    · exact fun q e hq => .inl (hq.deliver htells' e).1
    · exact fun q hq => ⟨told_deliver hq htells', (hq.deliver htells' d).1⟩
    · exact fun q e hq => ⟨hq.1.deliver hq.2 htells' e, (hq.2.deliver htells' e).1⟩
    · exact .clear hne hlt hun hn
  obtain ⟨htold, hlast⟩ := htold
  refine ⟨htold.awake.queued, htold.awake.unparked, htold.awake.running, fun hc => ?_, fun he => ?_⟩
  · exact htold.result (by simp [hc])
  · obtain ⟨c, rest, hcs⟩ := List.exists_cons_of_ne_nil (htells' (by simp [he])).2
    have htop : ((p.finish t).taskAt d.task).top? = some c := by simp [Task.top?, hlast.contexts, hcs]
    exact ⟨c, htop, htold.error (by simp [he]) c htop⟩

/-- A task that cannot take the outcome of the one it has waited for fails, and stays where it is. -/
theorem abandoned_finish (hfin : (p.taskAt t).state.isFinished) (hn : p.waiting.Nodup) (hd : d ∈ (p.taskAt t).dependents)
    (hlt : d.task.index < p.tasks.size) (hun : ¬ (p.taskAt d.task).state.isFinished)
    (htells : ¬ (p.taskAt t).Tells (p.taskAt d.task)) : Abandoned p (p.finish t) t d.task := by
  have hne : t ≠ d.task := by
    rintro rfl
    exact hun hfin
  have herror : (p.taskAt t).state = .error := by
    cases hstate : (p.taskAt t).state with
    | complete => exact absurd (.inl hstate) htells
    | error => rfl
    | _ =>
        rw [hstate] at hfin
        cases hfin
  have hself : ∀ q e, Skips d.task p q ∧ d.task.index < q.tasks.size → e.task = d.task →
      Abandoned p (q.deliver ((p.taskAt t).state = .error) (p.taskAt t).register e) t d.task := by
    rintro q e ⟨hq, hlt⟩ he
    rw [deliver_eq_failTask (he ▸ hq.task ▸ hun) (by simp [herror]) fun h => htells (.inr (hq.task ▸ he ▸ h)), he]
    refine ⟨?_, hq.parked, hq.queued⟩
    rw [failTask, taskAt_modifyTask, if_pos ⟨rfl, hlt⟩, hq.task]
  rw [finish_eq]
  apply foldl_leads (P := fun q : Process => Skips d.task p q ∧ d.task.index < q.tasks.size)
    (Q := fun q : Process => Abandoned p q t d.task) hd
  · intro q e hq
    by_cases he : e.task = d.task
    · exact .inr (hself q e hq he)
    · exact .inl ⟨hq.1.trans (skips_deliver he q _ _), (size_tasks_deliver q _ _ e).symm ▸ hq.2⟩
  · exact fun q hq => hself q d hq rfl
  · intro q e hq
    have hskip : Skips d.task q (q.deliver ((p.taskAt t).state = .error) (p.taskAt t).register e) := by
      by_cases he : e.task = d.task
      · unfold deliver
        rw [if_pos]
        · exact .refl _ q
        · rw [he, hq.task]
          rfl
      · exact skips_deliver he q _ _
    exact ⟨hskip.task.trans hq.task, hskip.parked.trans hq.parked, hskip.queued.trans hq.queued⟩
  · exact ⟨skips_clear hne p, (Lasting.clear hne hlt hun hn).index_lt⟩

end Process

end Spool
