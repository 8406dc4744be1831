import Spool.Proofs.Heap.Laws
import Spool.Proofs.Machine.Tickets

/-!
# Laws of processes

A task that has come to its end keeps what it has come to, and the top level of a module stays without variables of its
own, for they are members of the module object. A law of a process is a law of its heap that counts on the first: a future
that has been read refers to a task that is finished, and holds its result.
-/

namespace Spool

/-- A context for the top level of a module has nothing around it, no receiver and no variables. -/
def Context.Bare (c : Context) : Prop :=
  c.kind = .moduleRoot → c.previous = none ∧ c.receiver = .none ∧ c.locals = {}

namespace Process

variable {p p' q : Process} {t x : TaskId} {c : ContextId} {loose : List ContextId}

/-! ## Outcomes -/

/-- What finished tasks have come to stays. -/
structure Heeds (p p' : Process) : Prop where
  id : p'.id = p.id
  outcome : ∀ x, (p.taskAt x).state.isFinished →
    (p'.taskAt x).state = (p.taskAt x).state ∧ (p'.taskAt x).register = (p.taskAt x).register

theorem Heeds.refl (p : Process) : p.Heeds p := ⟨rfl, fun _ _ => ⟨rfl, rfl⟩⟩

theorem Heeds.trans (h : p.Heeds q) (h' : q.Heeds p') : p.Heeds p' := by
  refine ⟨h'.id.trans h.id, fun x hx => ?_⟩
  obtain ⟨hs, hr⟩ := h.outcome x hx
  obtain ⟨hs', hr'⟩ := h'.outcome x (hs ▸ hx)
  exact ⟨hs'.trans hs, hr'.trans hr⟩

theorem heeds_of_eq (hid : p'.id = p.id) (ht : p'.tasks = p.tasks) : p.Heeds p' :=
  ⟨hid, fun x _ => by simp only [taskAt, ht, and_self]⟩

/-- A task that has come to its end does not come back. -/
theorem outcome_of_abides (h : p.roster.Abides p'.roster) (hx : (p.taskAt x).state.isFinished) :
    (p'.taskAt x).state = (p.taskAt x).state ∧ (p'.taskAt x).register = (p.taskAt x).register := by
  have hat : p.roster.at? x = some (p.taskAt x).standing := by
    rw [at?_roster, getElem?_of_index_lt (index_lt_of_isFinished hx)]
    rfl
  obtain ⟨s, hs, hlater⟩ := h.tasks x _ hat
  have hs' : (p'.taskAt x).standing = s := by rw [← standingAt_roster, Roster.standingAt_of_at? hs]
  obtain ⟨hstate, hresult⟩ := hlater.ended hx
  rw [← hs'] at hstate hresult
  have hstate : (p'.taskAt x).state = (p.taskAt x).state := hstate
  refine ⟨hstate, ?_⟩
  simpa [Task.standing, hstate, hx] using hresult

theorem heeds_of_abides (hid : p'.id = p.id) (h : p.roster.Abides p'.roster) : p.Heeds p' :=
  ⟨hid, fun _ hx => outcome_of_abides h hx⟩

/-- Tasks that are finished are left alone. -/
theorem heeds_of_taskAt (hid : p'.id = p.id)
    (h : ∀ x, (p.taskAt x).state.isFinished → x.index < p.tasks.size → p'.taskAt x = p.taskAt x) : p.Heeds p' := by
  refine ⟨hid, fun x hx => ?_⟩
  rw [h x hx (index_lt_of_isFinished hx)]
  exact ⟨rfl, rfl⟩

theorem heeds_modifyTask (p : Process) (t : TaskId) {f : Task → Task}
    (hf : ∀ task, (f task).state = task.state ∧ (f task).register = task.register) : p.Heeds (p.modifyTask t f) := by
  refine ⟨rfl, fun x _ => ?_⟩
  rw [taskAt_modifyTask]
  split
  · exact hf _
  · exact ⟨rfl, rfl⟩

theorem heeds_modifyTask_of_unfinished (ht : ¬ (p.taskAt t).state.isFinished) (f : Task → Task) :
    p.Heeds (p.modifyTask t f) := by
  refine heeds_of_taskAt rfl fun x hx _ => ?_
  rw [taskAt_modifyTask, if_neg]
  rintro ⟨rfl, _⟩
  exact ht hx

theorem heeds_wake (p : Process) (t : TaskId) : p.Heeds (p.wake t) := by
  by_cases ht : (p.taskAt t).state.isFinished
  · unfold wake
    rw [if_pos ht]
    exact .refl p
  · rw [wake_eq ht]
    have hstate := heeds_modifyTask_of_unfinished ht fun t => { t with state := .running, reason := .notWaiting }
    exact hstate.trans (heeds_of_eq rfl rfl)

theorem id_deliver (p : Process) (failed : Bool) (v : Value) (d : Dependent) : (p.deliver failed v d).id = p.id := by
  apply deliver_induction (P := fun q => q.id = p.id) rfl
  · exact fun _ _ h => h
  · exact fun _ _ _ h => h
  · exact fun q h => (heeds_wake q d.task).id.trans h

theorem heeds_deliver (p : Process) (failed : Bool) (v : Value) (d : Dependent) : p.Heeds (p.deliver failed v d) := by
  refine heeds_of_taskAt (id_deliver p failed v d) fun x hx _ => ?_
  by_cases hd : d.task = x
  · unfold deliver
    rw [hd, if_pos hx]
  · exact (skips_deliver hd p failed v).task

theorem heeds_clear (p : Process) (t : TaskId) : p.Heeds (p.clear t) := by
  obtain ⟨contexts, free, heq⟩ := clear_eq p t
  refine ⟨by rw [heq]; rfl, fun x _ => ?_⟩
  by_cases ht : t = x
  · subst ht
    rw [taskAt_clear_self]
    exact ⟨rfl, rfl⟩
  · rw [(skips_clear ht p).task]
    exact ⟨rfl, rfl⟩

theorem heeds_finish (p : Process) (t : TaskId) : p.Heeds (p.finish t) := by
  have hall : ∀ (ds : List Dependent) (q : Process),
      q.Heeds (ds.foldl (fun q d => q.deliver ((p.taskAt t).state = .error) (p.taskAt t).register d) q) := by
    intro ds
    induction ds with
    | nil => exact fun q => .refl q
    | cons d rest ih => exact fun q => (heeds_deliver q _ _ d).trans (ih _)
  rw [finish_eq]
  exact (heeds_clear p t).trans (hall _ _)

theorem heeds_newCarrier (p : Process) (parent : TaskId) : p.Heeds (p.newCarrier parent).2 :=
  heeds_of_taskAt rfl fun _ _ hx => taskAt_newCarrier hx parent

theorem heeds_startCall (p : Process) (registry : Registry) (b : BoundFunction) (start : Nat) (argument : Value)
    (parent : Option TaskId) : p.Heeds (p.startCall registry b start argument parent).2 := by
  refine heeds_of_taskAt ?_ fun _ _ hx => taskAt_startCall hx registry b start argument parent
  obtain ⟨tasks, contexts, free, heq⟩ := startTask_frame p parent argument fun task =>
    { task
      kind := .function
      previous := b.capture
      receiver := b.receiver
      module := (registry.functionAt b.function).module
      function := some b.function
      cursor := start }
  rw [startCall, heq]

theorem heeds_startModule (p : Process) (module : ModuleId) (parent : Option TaskId) :
    p.Heeds (p.startModule module parent).2 := by
  refine heeds_of_taskAt ?_ fun _ _ hx => taskAt_startModule hx module parent
  obtain ⟨tasks, contexts, free, heq⟩ := startTask_frame p parent .none fun task =>
    { task, kind := .moduleRoot, module, cursor := 0 }
  rw [startModule]
  dsimp only
  rw [heq]
  rfl

/-! ## Top levels of modules -/

def Bare (p : Process) : Prop := ∀ c, (p.contextAt c).Bare

theorem bare_of_contexts (hp : p.Bare) (hc : p'.contexts = p.contexts) : p'.Bare := fun c => by
  rw [contextAt, hc]
  exact hp c

theorem bare_of_empty (hc : p.contexts = #[]) : p.Bare := fun c => by
  rw [contextAt, hc]
  exact fun _ => ⟨rfl, rfl, rfl⟩

theorem Bare.modifyContext (hp : p.Bare) (c : ContextId) {f : Context → Context}
    (hf : (p.contextAt c).Bare → (f (p.contextAt c)).Bare) : (p.modifyContext c f).Bare := by
  intro d
  rw [contextAt_modifyContext]
  split
  · rename_i h
    exact h.1 ▸ hf (hp c)
  · exact hp d

theorem Bare.newContext (hp : p.Bare) {x : Context} (hx : x.Bare) : (p.newContext x).2.Bare := by
  obtain ⟨_, _, _, _, hall, _⟩ := newContext_eq p x
  intro c
  rcases hall c with h | h
  · rw [h]
    exact hp c
  · rw [h]
    exact hx

theorem Bare.releaseContext (hp : p.Bare) (c : ContextId) : (p.releaseContext c).Bare := by
  unfold Process.releaseContext
  split
  · exact hp
  · exact bare_of_contexts (hp.modifyContext c (f := fun c => { c with locals := {}, error := none, receiver := .none })
      fun h hroot => ⟨(h hroot).1, rfl, rfl⟩) rfl

theorem Bare.pinFrom (hp : p.Bare) (fuel : Nat) (c : ContextId) : (pinFrom fuel c p).Bare := by
  induction fuel generalizing c p with
  | zero => exact hp
  | succ fuel ih =>
      unfold Process.pinFrom
      dsimp only
      split
      · exact hp
      · have hpinned : (p.modifyContext c fun c => { c with pinned := true }).Bare := hp.modifyContext c fun h => h
        split
        · exact ih hpinned _
        · exact hpinned

theorem Bare.pin (hp : p.Bare) (c : ContextId) : (p.pin c).Bare := hp.pinFrom _ c

theorem Bare.startTask (hp : p.Bare) (parent : Option TaskId) (argument : Value) {context : TaskId → Context}
    (hx : ∀ t, (context t).Bare) : (p.startTask parent argument context).2.Bare := by
  have hnew : ((p.newTask parent).2.newContext (context ⟨p.tasks.size⟩)).2.Bare :=
    (bare_of_contexts hp rfl : (p.newTask parent).2.Bare).newContext (hx _)
  exact bare_of_contexts hnew rfl

theorem Bare.startCall (hp : p.Bare) (registry : Registry) (b : BoundFunction) (start : Nat) (argument : Value)
    (parent : Option TaskId) : (p.startCall registry b start argument parent).2.Bare :=
  hp.startTask parent argument fun _ => nofun

theorem Bare.startModule (hp : p.Bare) (module : ModuleId) (parent : Option TaskId) :
    (p.startModule module parent).2.Bare := by
  let context : TaskId → Context := fun task => { task, kind := .moduleRoot, module, cursor := 0 }
  have hstart : (p.startTask parent .none context).2.Bare := hp.startTask parent .none fun _ _ => ⟨rfl, rfl, rfl⟩
  exact bare_of_contexts hstart rfl

theorem Bare.newCarrier (hp : p.Bare) (parent : TaskId) : (p.newCarrier parent).2.Bare := bare_of_contexts hp rfl

theorem Bare.deliver (hp : p.Bare) (failed : Bool) (v : Value) (d : Dependent) : (p.deliver failed v d).Bare := by
  have hwake : ∀ q : Process, q.Bare → (q.wake d.task).Bare := fun q hq => bare_of_contexts hq (contexts_wake q d.task)
  unfold Process.deliver
  split
  · exact hp
  · split
    · unfold deliverError
      split
      · exact hwake _ (hp.modifyContext _ fun h => h)
      · exact bare_of_contexts hp rfl
    · split
      · exact hwake _ (bare_of_contexts hp rfl)
      · exact hwake _ hp

theorem Bare.finish (hp : p.Bare) (t : TaskId) : (p.finish t).Bare := by
  have hrelease : ∀ (cs : List ContextId) (q : Process), q.Bare → (cs.foldl Process.releaseContext q).Bare := by
    intro cs
    induction cs with
    | nil => exact fun _ hq => hq
    | cons c rest ih => exact fun q hq => ih _ (hq.releaseContext c)
  have hdeliver : ∀ (ds : List Dependent) (q : Process), q.Bare →
      (ds.foldl (fun q d => q.deliver ((p.taskAt t).state = .error) (p.taskAt t).register d) q).Bare := by
    intro ds
    induction ds with
    | nil => exact fun _ hq => hq
    | cons d rest ih => exact fun q hq => ih _ (hq.deliver _ _ d)
  rw [finish_eq]
  exact hdeliver _ _ (hrelease _ _ (bare_of_contexts hp rfl))

/-! ## Scopes -/

/-- Names are looked up in the same contexts as before. -/
structure Scopes (p p' : Process) : Prop where
  tasks : p'.tasks = p.tasks
  size : p'.contexts.size = p.contexts.size
  same : ∀ c, ∃ pinned, p'.contextAt c = { p.contextAt c with pinned }

theorem Scopes.refl (p : Process) : p.Scopes p := ⟨rfl, rfl, fun _ => ⟨_, rfl⟩⟩

theorem Scopes.trans (h : p.Scopes q) (h' : q.Scopes p') : p.Scopes p' := by
  refine ⟨h'.tasks.trans h.tasks, h'.size.trans h.size, fun c => ?_⟩
  obtain ⟨_, hc⟩ := h.same c
  obtain ⟨b, hc'⟩ := h'.same c
  exact ⟨b, by rw [hc', hc]⟩

theorem scopes_pinFrom (fuel : Nat) (c : ContextId) (p : Process) : p.Scopes (pinFrom fuel c p) := by
  induction fuel generalizing c p with
  | zero => exact .refl p
  | succ fuel ih =>
      have hpinned : p.Scopes (p.modifyContext c fun c => { c with pinned := true }) := by
        refine ⟨rfl, Array.size_modify .., fun d => ?_⟩
        rw [contextAt_modifyContext]
        split
        · exact ⟨true, rfl⟩
        · exact ⟨_, rfl⟩
      unfold pinFrom
      dsimp only
      split
      · exact .refl p
      · split
        · exact hpinned.trans (ih _ _)
        · exact hpinned

theorem scopes_pin (c : ContextId) (p : Process) : p.Scopes (p.pin c) := scopes_pinFrom _ c p

section
variable (h : p.Scopes p')
include h

theorem Scopes.chain (c : ContextId) : p'.chain c = p.chain c := by
  have hfrom : ∀ (fuel : Nat) (c : ContextId), p'.chainFrom fuel c = p.chainFrom fuel c := by
    intro fuel
    induction fuel with
    | zero => exact fun _ => rfl
    | succ fuel ih =>
        intro c
        obtain ⟨_, hc⟩ := h.same c
        unfold chainFrom
        simp only [hc, ih]
  rw [Process.chain, Process.chain, h.size, hfrom]

theorem Scopes.taskAt (x : TaskId) : p'.taskAt x = p.taskAt x := by rw [Process.taskAt, h.tasks, Process.taskAt]

theorem Scopes.locals (c : ContextId) : (p'.contextAt c).locals = (p.contextAt c).locals := by
  obtain ⟨_, hc⟩ := h.same c
  rw [hc]

theorem Scopes.receiver (c : ContextId) : (p'.contextAt c).receiver = (p.contextAt c).receiver := by
  obtain ⟨_, hc⟩ := h.same c
  rw [hc]

theorem Scopes.module (c : ContextId) : (p'.contextAt c).module = (p.contextAt c).module := by
  obtain ⟨_, hc⟩ := h.same c
  rw [hc]

theorem Scopes.kind (c : ContextId) : (p'.contextAt c).kind = (p.contextAt c).kind := by
  obtain ⟨_, hc⟩ := h.same c
  rw [hc]

theorem Scopes.local? (c : ContextId) (name : String) : Machine.local? p' c name = Machine.local? p c name := by
  simp only [Machine.local?, h.chain, h.locals]

end

/-- The heap of the process changes as the laws allow. -/
structure Drifts (U : Handle → Prop) (p p' : Process) : Prop where
  id : p'.id = p.id
  heap : ∀ K, Heap.Law U K → K p.heap → K p'.heap
  bare : p.Bare → p'.Bare

theorem Drifts.refl (U : Handle → Prop) (p : Process) : p.Drifts U p := ⟨rfl, fun _ _ h => h, fun h => h⟩

theorem Drifts.trans {U : Handle → Prop} (h : p.Drifts U q) (h' : q.Drifts U p') : p.Drifts U p' :=
  ⟨h'.id.trans h.id, fun K hK hk => h'.heap K hK (h.heap K hK hk), fun hb => h'.bare (h.bare hb)⟩

theorem drifts_of_eq (U : Handle → Prop) (hid : p'.id = p.id) (hheap : p'.heap = p.heap) (hc : p'.contexts = p.contexts) :
    p.Drifts U p' :=
  ⟨hid, fun _ _ h => hheap ▸ h, fun h => bare_of_contexts h hc⟩

theorem drifts_finish (U : Handle → Prop) (p : Process) (t : TaskId) : p.Drifts U (p.finish t) :=
  ⟨(finish_frame p t).1, fun _ _ h => (finish_frame p t).2.2.1.symm ▸ h, fun h => h.finish t⟩

/-! ## Laws -/

/-- What stays true of a process whatever its tasks do. In each process the guarded objects are those whose member `value`
is not written once they are futures that have been read. -/
structure Law (G : ProcessId → Handle → Prop) (K : Process → Prop) : Prop where
  heap : ∀ p : Process, Heap.Law (G p.id) fun h => K { p with heap := h }
  heeds : ∀ {p p' : Process}, p.Heeds p' → p'.heap = p.heap → K p → K p'
  fitting : ∀ {p : Process}, K p → p.heap.Fitting
  memoize : ∀ {p : Process} {r : Handle} {o : Object} {cell : FutureCell}, p.heap.object? r = some o →
    o.payload = .future cell → (p.taskAt cell.task).state.isFinished →
    o.member? "value" = some (p.taskAt cell.task).register → K p →
    K { p with heap := p.heap.setPayload r (.future ⟨cell.task, true⟩) }
  collect : ∀ {p : Process} (registry : Registry), p.heap.Sound → p.heap.Mirrored → K p → K (p.collect registry).2
  seeded : ∀ id settings, K (seeded id settings)

section
variable {G : ProcessId → Handle → Prop} {K : Process → Prop} (hL : Law G K)
include hL

/-- A future is read for the first time when its task is finished. -/
theorem Law.read {r : Handle} {o : Object} {cell : FutureCell} (ho : p.heap.object? r = some o)
    (hp : o.payload = .future cell) (hunread : ¬ cell.memoized) (hfin : (p.taskAt cell.task).state.isFinished)
    (hk : K p) : K { p with heap := ((do
      Heap.setMember r "value" (p.taskAt cell.task).register
      Heap.putPayload r (.future ⟨cell.task, true⟩) : Act Heap Unit) p.heap).2 } := by
  let v := (p.taskAt cell.task).register
  let law : Heap → Prop := fun h => K { p with heap := h }
  have hlaw : Heap.Law (G p.id) law := hL.heap p
  let A : Heap → Prop := fun h => law h ∧ ∀ o, h.object? r = some o → o.payload = .future cell
  let B : Heap → Prop := fun h => law h ∧
    ∀ o, h.object? r = some o → (∃ b, o.payload = .future ⟨cell.task, b⟩) ∧ o.member? "value" = some v
  have hB : Heap.Aloof B := hlaw.toAloof.and (Heap.aloof_at r _)
  have hset : (Heap.setMember r "value" v).wp p.heap (fun _ => B) fun _ h => A h ∨ B h := by
    refine hB.wp_setMember (P := A) (fun h hk => ⟨hlaw.store v (fun _ _ o' ho' => ?_) hk.1, fun o' ho' => ?_⟩)
      ⟨hk, fun o' ho' => Option.some.inj (ho.symm.trans ho') ▸ hp⟩
    · rintro ⟨t, ht⟩
      rw [hk.2 o' ho'] at ht
      cases ht
      exact hunread rfl
    · rcases Heap.object?_of_modifyObject ho' with ⟨_, hne⟩ | ⟨_, o₀, ho₀, rfl⟩
      · exact absurd rfl hne
      · exact ⟨⟨cell.memoized, hk.2 o₀ ho₀⟩, (Bindings.get?_insert ..).trans (if_pos rfl)⟩
  have hput : Preserves B (Heap.putPayload r (.future ⟨cell.task, true⟩)) := by
    refine hB.putPayload r fun h hk => ⟨?_, fun o' ho' => ?_⟩
    · cases hobj : h.object? r with
      | none => exact hlaw.write (fun _ => .future ⟨cell.task, true⟩) (by simp [hobj]) hk.1
      | some o₁ =>
          obtain ⟨⟨b, hb⟩, hvalue⟩ := hk.2 o₁ hobj
          exact @Law.memoize _ _ hL { p with heap := h } _ _ ⟨cell.task, b⟩ hobj hb hfin hvalue hk.1
    · rcases Heap.object?_of_modifyObject ho' with ⟨_, hne⟩ | ⟨_, o₀, ho₀, rfl⟩
      · exact absurd rfl hne
      · exact ⟨⟨true, rfl⟩, (hk.2 o₀ ho₀).2⟩
  have hboth : (do
      Heap.setMember r "value" v
      Heap.putPayload r (.future ⟨cell.task, true⟩) : Act Heap Unit).wp p.heap (fun _ => law) fun _ => law := by
    rw [Act.wp_bind]
    refine Act.wp_mono hset (fun _ h hk => ?_) fun _ h hk => hk.elim (·.1) (·.1)
    exact Act.wp_mono (Act.wp_of_preserves hput hk) (fun _ _ hk => hk.1) fun _ _ hk => hk.1
  exact hboth.state

/-- The heap has changed as the laws allow, and finished tasks have been left alone. -/
theorem Law.drifts {p' : Process} (hd : p.Drifts (G p.id) p') (hh : p.Heeds p') (hk : K p) : K p' :=
  hL.heeds (p := { p with heap := p'.heap }) ⟨hh.id, hh.outcome⟩ rfl (hd.heap _ (hL.heap p) hk)

end

/-- Each object has a payload that its class allows. -/
theorem law_fitting {G : ProcessId → Handle → Prop} : Law G fun p => p.heap.Fitting where
  heap _ := Heap.law_fitting
  heeds _ hheap hk := hheap ▸ hk
  fitting hk := hk
  memoize ho hcell _ _ hk := hk.modifyObject fun o' ho' => by
    cases ho.symm.trans ho'
    exact Payload.fits_of_home (congrArg some ((hk _ _ ho).home _ (by rw [hcell]; rfl)).symm)
  collect registry _ _ hk := hk.collect registry _
  seeded id settings := by
    have hempty : (Heap.new settings).Fitting := fun r o ho => by simp [Heap.object?, Heap.lookup?, Heap.new] at ho
    exact (Heap.aloof_every _).entry _ (fun e => { e with roots := 1 }) (fun _ => rfl)
      (hempty.allocate fun _ => ⟨by simp [Payload.home?], by simp⟩)

end Process

end Spool
