import Spool.Proofs.Heap.Gains
import Spool.Proofs.Process.Collect

/-!
# Processes without dangling values

A process is fit if everything is live that its tasks, contexts, futures and closures can still lead to. The
running task counts even when it has just come to its end. Each way of changing a process keeps it fit.
-/

namespace Spool.Process

variable {p p' : Process} {cur : Option TaskId}

/-- Everything in a context and in those around it is live. -/
def Secure (p : Process) (c : ContextId) : Prop :=
  ∀ d, p.Encloses c d → ∀ v ∈ (p.contextAt d).values, p.heap.Valid v

/-- Everything is live that an object keeps alive outside the heap. -/
def Behind (p : Process) : External → Prop
  | .context c => p.Secure c
  | .task t => ∀ task, p.tasks[t.index]? = some task → p.heap.Valid task.register

/-- The task may still run, or runs just now. -/
def Active (cur : Option TaskId) (t : TaskId) (task : Task) : Prop := ¬ task.state.isFinished ∨ cur = some t

structure Fit (p : Process) (cur : Option TaskId) : Prop where
  sound : p.heap.Sound
  values : ∀ t task, p.tasks[t.index]? = some task → Active cur t task → ∀ v ∈ task.values, p.heap.Valid v
  contexts : ∀ t task, p.tasks[t.index]? = some task → Active cur t task → ∀ c ∈ task.contexts, p.Secure c
  exit : ∀ v, p.exitValue = some v → p.heap.Valid v
  entry : ∀ t task, p.entryTask = some t → p.tasks[t.index]? = some task → p.heap.Valid task.register
  behind : ∀ r o x, p.heap.object? r = some o → o.payload.external? = some x → p.Behind x

/-! ## Chains of contexts -/

theorem Secure.values {c : ContextId} (hs : p.Secure c) : ∀ v ∈ (p.contextAt c).values, p.heap.Valid v :=
  hs c (.self c)

theorem Secure.previous {c d : ContextId} (hs : p.Secure c) (hd : (p.contextAt c).previous = some d) : p.Secure d :=
  fun x hx => hs x (.around hd hx)

/-- A set of contexts that is closed under what is around them. -/
theorem secure_of {G : ContextId → Prop} (hv : ∀ c, G c → ∀ v ∈ (p.contextAt c).values, p.heap.Valid v)
    (hp : ∀ c d, G c → (p.contextAt c).previous = some d → G d) {c : ContextId} (hc : G c) : p.Secure c := by
  intro d hd
  induction hd with
  | self c => exact hv c hc
  | around he _ ih => exact ih (hp _ _ hc he)

theorem Secure.congr {c : ContextId} (hs : p.Secure c) (hc : ∀ c, p'.contextAt c = p.contextAt c)
    (hv : ∀ v, p.heap.Valid v → p'.heap.Valid v) : p'.Secure c := by
  refine secure_of (G := p.Secure) (fun c hc' v hm => ?_) (fun c d hc' hd => ?_) hs
  · rw [hc] at hm
    exact hv v (hc'.values v hm)
  · rw [hc] at hd
    exact hc'.previous hd

theorem Behind.congr {x : External} (hb : p.Behind x) (hc : ∀ c, p'.contextAt c = p.contextAt c)
    (ht : p'.tasks = p.tasks) (hv : ∀ v, p.heap.Valid v → p'.heap.Valid v) : p'.Behind x := by
  cases x with
  | context c => exact Secure.congr hb hc hv
  | task t => exact fun task h => hv _ (hb task (ht ▸ h))

/-! ## Parts that do not matter -/

theorem Fit.congr (hp : p.Fit cur) (hh : p'.heap = p.heap) (ht : p'.tasks = p.tasks)
    (hc : p'.contexts = p.contexts) (he : p'.exitValue = p.exitValue) (hn : p'.entryTask = p.entryTask) :
    p'.Fit cur := by
  have hctx : ∀ c, p'.contextAt c = p.contextAt c := fun c => by simp only [contextAt, hc]
  have hv : ∀ v, p.heap.Valid v → p'.heap.Valid v := fun v h => hh ▸ h
  exact
    { sound := hh ▸ hp.sound
      values := fun t task h ha v hm => hv v (hp.values t task (ht ▸ h) ha v hm)
      contexts := fun t task h ha c hm => (hp.contexts t task (ht ▸ h) ha c hm).congr hctx hv
      exit := fun v h => hv v (hp.exit v (he ▸ h))
      entry := fun t task h h' => hv _ (hp.entry t task (hn ▸ h) (ht ▸ h'))
      behind := fun r o x ho hx => (hp.behind r o x (hh ▸ ho) hx).congr hctx ht hv }

/-- A task that is no longer the running one. -/
theorem Fit.idle (hp : p.Fit cur) : p.Fit none := by
  have ha : ∀ t task, Active none t task → Active cur t task := by
    rintro t task (h | h)
    · exact .inl h
    · cases h
  exact ⟨hp.sound, fun t task h h' => hp.values t task h (ha t task h'),
    fun t task h h' => hp.contexts t task h (ha t task h'), hp.exit, hp.entry, hp.behind⟩

/-- A task that is not finished may be taken for the running one. -/
theorem Fit.run (hp : p.Fit none) {t : TaskId} (ht : ∀ task, p.tasks[t.index]? = some task → ¬ task.state.isFinished) :
    p.Fit (some t) := by
  have ha : ∀ x task, p.tasks[x.index]? = some task → Active (some t) x task → Active none x task := by
    rintro x task hx (h | h)
    · exact .inl h
    · cases h
      exact .inl (ht task hx)
  exact ⟨hp.sound, fun x task h h' => hp.values x task h (ha x task h h'),
    fun x task h h' => hp.contexts x task h (ha x task h h'), hp.exit, hp.entry, hp.behind⟩

/-! ## The heap -/

theorem Fit.extend (hp : p.Fit cur) {X : External → Prop} {h' : Heap} (hg : p.heap.Extends X h')
    (hX : ∀ x, X x → p.Behind x) : ({ p with heap := h' } : Process).Fit cur := by
  have hv : ∀ v, p.heap.Valid v → h'.Valid v := fun v => hg.valid
  have hctx : ∀ c, ({ p with heap := h' } : Process).contextAt c = p.contextAt c := fun _ => rfl
  exact
    { sound := hg.sound
      values := fun t task h ha v hm => hv v (hp.values t task h ha v hm)
      contexts := fun t task h ha c hm => (hp.contexts t task h ha c hm).congr hctx hv
      exit := fun v h => hv v (hp.exit v h)
      entry := fun t task h h' => hv _ (hp.entry t task h h')
      behind := fun r o x ho hx => by
        have hb : p.Behind x := by
          rcases hg.external r o x ho hx with hX' | ⟨o₀, ho₀, hx₀⟩
          · exact hX x hX'
          · exact hp.behind r o₀ x ho₀ hx₀
        exact hb.congr hctx rfl hv }

/-- Only root counts have changed. -/
theorem Fit.recounted (hp : p.Fit cur) {count : Handle → Nat} {h' : Heap} (hc : p.heap.Recounted count h') :
    ({ p with heap := h' } : Process).Fit cur :=
  hp.extend (X := Heap.Nowhere) hc.extend fun _ h => h.elim

/-! ## Tasks -/

theorem getElem?_modifyTask (p : Process) (t : TaskId) (f : Task → Task) (x : TaskId) :
    (p.modifyTask t f).tasks[x.index]? = if t = x then p.tasks[x.index]?.map f else p.tasks[x.index]? := by
  simp only [modifyTask, Array.getElem?_modify]
  by_cases h : t = x
  · simp [h]
  · have : t.index ≠ x.index := by
      intro hi
      exact h (by cases t; cases x; simp_all)
    simp [h, this]

theorem Fit.modifyTask (hp : p.Fit cur) {t : TaskId} {f : Task → Task}
    (hv : ∀ task, p.tasks[t.index]? = some task → Active cur t (f task) → ∀ v ∈ (f task).values, p.heap.Valid v)
    (hc : ∀ task, p.tasks[t.index]? = some task → Active cur t (f task) → ∀ c ∈ (f task).contexts, p.Secure c)
    (hr : ∀ task, p.tasks[t.index]? = some task → (f task).register = task.register ∨ p.heap.Valid (f task).register) :
    (p.modifyTask t f).Fit cur := by
  have hctx : ∀ c, (p.modifyTask t f).contextAt c = p.contextAt c := fun _ => rfl
  have hreg : ∀ (x : TaskId) task, (p.modifyTask t f).tasks[x.index]? = some task →
      (∀ old, p.tasks[x.index]? = some old → p.heap.Valid old.register) → p.heap.Valid task.register := by
    intro x task hx hold
    rw [getElem?_modifyTask] at hx
    split at hx
    · rename_i htx
      subst htx
      obtain ⟨old, hget, rfl⟩ := Option.map_eq_some_iff.1 hx
      rcases hr old hget with heq | hval
      · exact heq ▸ hold old hget
      · exact hval
    · exact hold task hx
  refine ⟨hp.sound, fun x task hx ha => ?_, fun x task hx ha c hm => ?_, hp.exit, fun x task he hx => ?_,
    fun r o x ho hx => ?_⟩
  · rw [getElem?_modifyTask] at hx
    split at hx
    · rename_i htx
      subst htx
      obtain ⟨old, hget, rfl⟩ := Option.map_eq_some_iff.1 hx
      exact hv old hget ha
    · exact hp.values x task hx ha
  · refine Secure.congr ?_ hctx (fun _ h => h)
    rw [getElem?_modifyTask] at hx
    split at hx
    · rename_i htx
      subst htx
      obtain ⟨old, hget, rfl⟩ := Option.map_eq_some_iff.1 hx
      exact hc old hget ha c hm
    · exact hp.contexts x task hx ha c hm
  · exact hreg x task hx fun old hold => hp.entry x old he hold
  · have hb := hp.behind r o x ho hx
    cases x with
    | context c => exact Secure.congr hb hctx fun _ h => h
    | task x => exact fun task hget => hreg x task hget hb

/-- A change of a task that nothing here depends on. -/
theorem Fit.modifyTask_frame (hp : p.Fit cur) (t : TaskId) {f : Task → Task}
    (hv : ∀ task, (f task).values = task.values) (hc : ∀ task, (f task).contexts = task.contexts)
    (hs : ∀ task, (f task).state.isFinished = task.state.isFinished) : (p.modifyTask t f).Fit cur := by
  have ha : ∀ task, Active cur t (f task) → Active cur t task := fun task h => by
    simpa [Active, hs] using h
  refine hp.modifyTask (fun task h h' => ?_) (fun task h h' => ?_) (fun task _ => .inl ?_)
  · rw [hv]
    exact hp.values t task h (ha task h')
  · rw [hc]
    exact hp.contexts t task h (ha task h')
  · exact (List.cons.inj (hv task)).1

theorem Fit.newTask (hp : p.Fit cur) (parent : Option TaskId) : (p.newTask parent).2.Fit cur := by
  have hctx : ∀ c, (p.newTask parent).2.contextAt c = p.contextAt c := fun _ => rfl
  have hget : ∀ (t : TaskId) task, (p.newTask parent).2.tasks[t.index]? = some task →
      p.tasks[t.index]? = some task ∨ task = { parent } := by
    intro t task ht
    simp only [Process.newTask, Array.getElem?_push] at ht
    split at ht
    · exact .inr (Option.some.inj ht).symm
    · exact .inl ht
  have hnone : p.heap.Valid .none := fun r hr => by cases hr
  refine ⟨hp.sound, fun t task ht ha => ?_, fun t task ht ha c hc => ?_, hp.exit, fun t task he ht => ?_,
    fun r o x ho hx => ?_⟩
  · rcases hget t task ht with ht | rfl
    · exact hp.values t task ht ha
    · intro v hv
      rw [List.mem_singleton.1 hv]
      exact hnone
  · rcases hget t task ht with ht | rfl
    · exact (hp.contexts t task ht ha c hc).congr hctx fun _ h => h
    · cases hc
  · rcases hget t task ht with ht | rfl
    · exact hp.entry t task he ht
    · exact hnone
  · have hb := hp.behind r o x ho hx
    cases x with
    | context c => exact Secure.congr hb hctx fun _ h => h
    | task t =>
        intro task ht
        rcases hget t task ht with ht | rfl
        · exact hb task ht
        · exact hnone

/-! ## Contexts -/

theorem contextAt_modifyContext (p : Process) (c : ContextId) (f : Context → Context) (x : ContextId) :
    (p.modifyContext c f).contextAt x
      = if c = x ∧ x.index < p.contexts.size then f (p.contextAt x) else p.contextAt x := by
  simp only [contextAt, modifyContext, Array.getD_eq_getD_getElem?, Array.getElem?_modify]
  by_cases h : c = x
  · subst h
    by_cases hlt : c.index < p.contexts.size
    · simp [hlt]
    · simp [hlt]
  · have : c.index ≠ x.index := by
      intro hi
      exact h (by cases c; cases x; simp_all)
    simp [h, this]

/-- Contexts have changed, and those that were secure still are. -/
theorem Fit.contexts_changed (hp : p.Fit cur) (hh : p'.heap = p.heap) (ht : p'.tasks = p.tasks)
    (he : p'.exitValue = p.exitValue) (hn : p'.entryTask = p.entryTask) (hs : ∀ c, p.Secure c → p'.Secure c) :
    p'.Fit cur where
  sound := hh ▸ hp.sound
  values := by
    rw [hh, ht]
    exact hp.values
  contexts t task h ha c hc := hs c (hp.contexts t task (ht ▸ h) ha c hc)
  exit := by
    rw [hh, he]
    exact hp.exit
  entry := by
    rw [hh, ht, hn]
    exact hp.entry
  behind r o x ho hx := by
    have hb := hp.behind r o x (hh ▸ ho) hx
    cases x with
    | context c => exact hs c hb
    | task t =>
        simp only [Behind, hh, ht]
        exact hb

theorem Fit.modifyContext (hp : p.Fit cur) (c : ContextId) {f : Context → Context}
    (hv : ∀ x, ∀ v ∈ (f x).values, v ∈ x.values ∨ p.heap.Valid v) (hf : ∀ x, (f x).previous = x.previous) :
    (p.modifyContext c f).Fit cur := by
  refine hp.contexts_changed rfl rfl rfl rfl fun x hx =>
    secure_of (G := p.Secure) (fun y hy v hm => ?_) (fun y d hy hd => ?_) hx
  · rw [contextAt_modifyContext] at hm
    split at hm
    · rcases hv _ v hm with hm | hval
      · exact hy.values v hm
      · exact hval
    · exact hy.values v hm
  · rw [contextAt_modifyContext] at hd
    refine hy.previous ?_
    split at hd
    · rw [← hf]
      exact hd
    · exact hd

/-- A context that is new, or is used again. -/
theorem newContext_eq (p : Process) (x : Context) :
    (p.newContext x).2.heap = p.heap ∧ (p.newContext x).2.tasks = p.tasks ∧
      (p.newContext x).2.exitValue = p.exitValue ∧ (p.newContext x).2.entryTask = p.entryTask ∧
      (∀ c, (p.newContext x).2.contextAt c = p.contextAt c ∨ (p.newContext x).2.contextAt c = x) ∧
      ((p.newContext x).2.contextAt (p.newContext x).1 = x ∨ (p.newContext x).2.contextAt (p.newContext x).1 = default) := by
  unfold newContext
  cases p.freeContexts with
  | nil =>
      refine ⟨rfl, rfl, rfl, rfl, fun c => ?_, .inl (by simp [contextAt])⟩
      simp only [contextAt, Array.getD_eq_getD_getElem?, Array.getElem?_push]
      split
      · exact .inr rfl
      · exact .inl rfl
  | cons first rest =>
      refine ⟨rfl, rfl, rfl, rfl, fun c => ?_, ?_⟩
      · simp only [contextAt, Array.getD_eq_getD_getElem?, Array.getElem?_setIfInBounds]
        by_cases hi : first.index = c.index
        · by_cases hlt : first.index < p.contexts.size
          · exact .inr (by simp [hi, hi ▸ hlt])
          · exact .inl (by simp [← hi, hlt])
        · exact .inl (by simp [hi])
      · simp only [contextAt, Array.getD_eq_getD_getElem?, Array.getElem?_setIfInBounds]
        by_cases hlt : first.index < p.contexts.size
        · exact .inl (by simp [hlt])
        · exact .inr (by simp [hlt])

theorem Fit.newContext (hp : p.Fit cur) {x : Context} (hv : ∀ v ∈ x.values, p.heap.Valid v)
    (hx : ∀ d, x.previous = some d → p.Secure d) :
    (p.newContext x).2.Fit cur ∧ (p.newContext x).2.Secure (p.newContext x).1 ∧
      ∀ c, p.Secure c → (p.newContext x).2.Secure c := by
  obtain ⟨hheap, htasks, hexit, hentry, hctx, hnew⟩ := newContext_eq p x
  generalize (p.newContext x).1 = new at hnew ⊢
  generalize (p.newContext x).2 = p' at *
  have hsecure : ∀ c, p.Secure c ∨ p'.contextAt c = x ∨ p'.contextAt c = default → p'.Secure c := by
    intro c hc
    refine secure_of (G := fun c => p.Secure c ∨ p'.contextAt c = x ∨ p'.contextAt c = default)
      (fun c hc v hm => ?_) (fun c d hc hd => ?_) hc
    · rw [hheap]
      rcases hc with hc | hc | hc
      · rcases hctx c with he | he
        · exact hc.values v (he ▸ hm)
        · exact hv v (he ▸ hm)
      · exact hv v (hc ▸ hm)
      · have hempty : (default : Context).values = [.none] := rfl
        rw [hc, hempty, List.mem_singleton] at hm
        subst hm
        exact fun r hr => by cases hr
    · left
      rcases hc with hc | hc | hc
      · rcases hctx c with he | he
        · exact hc.previous (he ▸ hd)
        · exact hx d (he ▸ hd)
      · exact hx d (hc ▸ hd)
      · rw [hc] at hd
        cases hd
  exact ⟨hp.contexts_changed hheap htasks hexit hentry fun c hc => hsecure c (.inl hc), hsecure new (.inr hnew),
    fun c hc => hsecure c (.inl hc)⟩

theorem Fit.releaseContext (hp : p.Fit cur) (c : ContextId) : (p.releaseContext c).Fit cur := by
  unfold Process.releaseContext
  split
  · exact hp
  · have hm : (p.modifyContext c fun c => { c with locals := {}, error := none, receiver := .none }).Fit cur := by
      refine hp.modifyContext c (fun x v hv => .inr ?_) fun _ => rfl
      have hnone : v = .none := by simpa [Context.values, Bindings.values] using hv
      subst hnone
      exact fun r hr => by cases hr
    exact hm.congr rfl rfl rfl rfl rfl

theorem Fit.pinFrom (fuel : Nat) (hp : p.Fit cur) (c : ContextId) : (pinFrom fuel c p).Fit cur := by
  induction fuel generalizing c p with
  | zero => exact hp
  | succ fuel ih =>
      unfold Process.pinFrom
      dsimp only
      split
      · exact hp
      · have hm : (p.modifyContext c fun c => { c with pinned := true }).Fit cur :=
          hp.modifyContext c (fun x v hv => .inl hv) fun _ => rfl
        split
        · exact ih hm _
        · exact hm

theorem Fit.pin (hp : p.Fit cur) (c : ContextId) : (p.pin c).Fit cur := hp.pinFrom _ c

/-! ## Collections -/

theorem Encloses.congr {c d : ContextId} (he : p.Encloses c d) (hc : ∀ c, p'.contextAt c = p.contextAt c) :
    p'.Encloses c d := by
  induction he with
  | self c => exact .self c
  | around hd _ ih => exact .around (by rw [hc]; exact hd) ih

theorem external?_eq_context {o : Object} {c : ContextId} (hx : o.payload.external? = some (.context c)) :
    ∃ b, o.payload = .bound b ∧ b.capture = some c := by
  cases hp : o.payload with
  | bound b => exact ⟨b, rfl, by simpa [hp, Payload.external?] using hx⟩
  | future cell =>
      rw [hp] at hx
      simp only [Payload.external?] at hx
      split at hx <;> simp at hx
  | _ => simp [hp, Payload.external?] at hx

theorem external?_eq_task {o : Object} {t : TaskId} (hx : o.payload.external? = some (.task t)) :
    ∃ cell : FutureCell, o.payload = .future cell ∧ cell.memoized = false ∧ cell.task = t := by
  cases hp : o.payload with
  | bound b => simp [hp, Payload.external?] at hx
  | future cell =>
      rw [hp] at hx
      simp only [Payload.external?] at hx
      split at hx
      · cases hx
      · rename_i hm
        exact ⟨cell, rfl, by simpa using hm, by simpa using hx⟩
  | _ => simp [hp, Payload.external?] at hx

theorem mem_tasks {t : TaskId} {task : Task} (ht : p.tasks[t.index]? = some task) : task ∈ p.tasks :=
  Array.mem_of_getElem? ht

/-- All that a fit process leads to is among what the collector keeps. -/
theorem Fit.collect (hp : p.Fit cur) (registry : Registry)
    (hcur : ∀ t task, cur = some t → p.tasks[t.index]? = some task → ¬ task.state.isFinished) :
    (p.collect registry).2.Fit cur := by
  have hc := collection_collect p registry hp.sound.edges
  have hctx : ∀ c, (p.collect registry).2.contextAt c = p.contextAt c := fun _ => rfl
  have hvalid : ∀ v, p.heap.Valid v → (∀ r, v = .object r → p.Reaches r) → (p.collect registry).2.heap.Valid v := by
    intro v hv hr r heq
    obtain ⟨o, ho⟩ := Heap.isLive_iff.1 (hv r heq)
    exact Heap.isLive_of_object? ((hc.survivors r o).2 ⟨ho, hr r heq⟩)
  have hun : ∀ t task, p.tasks[t.index]? = some task → Active cur t task → ¬ task.state.isFinished := by
    rintro t task ht (h | h)
    · exact h
    · exact hcur t task h ht
  have hsec : ∀ c, p.Secure c → (∀ d r, p.Encloses c d → .object r ∈ (p.contextAt d).values → p.Reaches r) →
      (p.collect registry).2.Secure c := by
    intro c hs hr d hd v hv
    have hd' : p.Encloses c d := hd.congr fun _ => rfl
    refine hvalid v (hs d hd' v hv) fun r heq => hr d r hd' (heq ▸ hv)
  refine ⟨hp.sound.collect registry _, fun t task ht ha v hv => ?_, fun t task ht ha c hm => ?_, fun v he => ?_,
    fun t task he ht => ?_, fun r o x ho hx => ?_⟩
  · exact hvalid v (hp.values t task ht ha v hv) fun r heq => .task (mem_tasks ht) (hun t task ht ha) (heq ▸ hv)
  · exact hsec c (hp.contexts t task ht ha c hm) fun d r hd hr => .context (mem_tasks ht) (hun t task ht ha) hm hd hr
  · exact hvalid v (hp.exit v he) fun r heq => .exit (heq ▸ he)
  · exact hvalid _ (hp.entry t task he ht) fun r heq => .entry he ht heq
  · obtain ⟨ho, hreach⟩ := (hc.survivors r o).1 ho
    have hb := hp.behind r o x ho hx
    cases x with
    | context c =>
        obtain ⟨b, hpay, hcap⟩ := external?_eq_context hx
        exact hsec c hb fun d r' hd hr => .captured hreach ho hpay hcap hd hr
    | task t =>
        obtain ⟨cell, hpay, hmem, rfl⟩ := external?_eq_task hx
        exact fun task ht => hvalid _ (hb task ht) fun r' heq => .awaited hreach ho hpay hmem ht heq

end Spool.Process
