import Spool.Proofs.Process.Arena
import Spool.Proofs.Process.Outcomes

/-!
# What only a task itself changes

While a task does not run, its stack, its contexts and where these stand are left alone. What may change is what it gets
from the task it waits for, the marks that others put on it, and the variables of a context that a closure has captured.
Code that is not the task's own gets at a context through closures only, and at no context that no closure had captured
when the task stopped.
-/

namespace Spool

/-- The context that a closure has been made in. -/
def Payload.capture? : Payload → Option ContextId
  | .bound b => b.capture
  | _ => Option.none

theorem Payload.context?_of_capture? {p : Payload} {c : ContextId} (h : p.capture? = some c) : p.context? = some c := by
  cases p <;> simp_all [capture?, context?]

theorem Payload.capture?_of_isLoose {p : Payload} (hp : p.isLoose) : p.capture? = Option.none := by
  cases p <;> simp_all [isLoose, capture?]

/-- A closure of the heap has been made in the context. -/
def Heap.Captures (h : Heap) (c : ContextId) : Prop := ∃ r o, h.object? r = some o ∧ o.payload.capture? = some c

theorem Heap.Captures.cites {h : Heap} {c : ContextId} (hc : h.Captures c) : h.Cites c := by
  obtain ⟨r, o, ho, hc⟩ := hc
  exact ⟨r, o, ho, Payload.context?_of_capture? hc⟩

theorem Heap.each_captures (h : Heap) : h.Each fun p => ∀ c, p.capture? = some c → h.Captures c :=
  fun r o ho _ hc => ⟨r, o, ho, hc⟩

theorem Heap.Each.captures {h : Heap} {C : ContextId → Prop} (hk : h.Each fun p => ∀ c, p.capture? = some c → C c)
    {c : ContextId} (hc : h.Captures c) : C c := by
  obtain ⟨r, o, ho, hc⟩ := hc
  exact hk r o ho c hc

theorem Heap.loose_captures (h : Heap) (p : Payload) (hp : p.isLoose) : ∀ c, p.capture? = some c → h.Captures c := by
  intro c hc
  rw [Payload.capture?_of_isLoose hp] at hc
  cases hc

/-- What of a task only the task itself changes. -/
def Task.core (t : Task) : Task :=
  { t with state := .new, reason := .toStart, register := .none, dependents := [], observed := false }

/-- What of a context only the task changes on whose stack it is. -/
def Context.core (c : Context) : Context := { c with locals := {}, error := none, pinned := false }

namespace Process

variable {p p' q : Process} {t x : TaskId} {c d : ContextId}

/-- Code that is not the task's own may run in the context: a closure has been made there, or it is the context of
another task. -/
inductive Inlet (p : Process) (x : TaskId) (c : ContextId) : Prop where
  | closure : p.heap.Captures c → Inlet p x c
  | stack {t : TaskId} : t ≠ x → c ∈ (p.taskAt t).contexts → Inlet p x c

/-- A closure has captured the context: it has been made there, or in a context inside it, or a call of it is going on. -/
def Captured (p : Process) (x : TaskId) (d : ContextId) : Prop := ∃ c, p.Inlet x c ∧ p.Encloses c d

/-- All that has happened to a task is what others may do to it. -/
structure Framed (x : TaskId) (p p' : Process) : Prop where
  task : (p'.taskAt x).core = (p.taskAt x).core
  contexts : ∀ c ∈ (p.taskAt x).contexts, (p'.contextAt c).core = (p.contextAt c).core
  /-- An error is delivered to the innermost context. -/
  errors : ∀ c ∈ (p.taskAt x).contexts.tail, (p'.contextAt c).error = (p.contextAt c).error
  locals : ∀ c ∈ (p.taskAt x).contexts, ¬ p.Captured x c → (p'.contextAt c).locals = (p.contextAt c).locals
  captured : ∀ c ∈ (p.taskAt x).contexts, p'.Captured x c → p.Captured x c

theorem Framed.stack (h : Framed x p p') : (p'.taskAt x).contexts = (p.taskAt x).contexts := congrArg (·.contexts) h.task

theorem Framed.refl (x : TaskId) (p : Process) : Framed x p p :=
  ⟨rfl, fun _ _ => rfl, fun _ _ => rfl, fun _ _ _ => rfl, fun _ _ h => h⟩

theorem Framed.trans (h : Framed x p q) (h' : Framed x q p') : Framed x p p' := by
  have hmem : ∀ {c}, c ∈ (p.taskAt x).contexts → c ∈ (q.taskAt x).contexts := fun hc => h.stack.symm ▸ hc
  refine ⟨h'.task.trans h.task, fun c hc => (h'.contexts c (hmem hc)).trans (h.contexts c hc), fun c hc => ?_,
    fun c hc hn => ?_, fun c hc hcap => h.captured c hc (h'.captured c (hmem hc) hcap)⟩
  · exact (h'.errors c (h.stack.symm ▸ hc)).trans (h.errors c hc)
  · exact (h'.locals c (hmem hc) fun hcap => hn (h.captured c hc hcap)).trans (h.locals c hc hn)

/-! ## Ways in -/

theorem Arena.placed_of_inlet (ha : p.Arena []) (hc : p.Inlet x c) : p.Placed c := by
  cases hc with
  | closure h => exact .inr (ha.cited c h.cites)
  | stack _ h => exact .inl (mem_stacked_taskAt h)

/-- What is around a context in its place is what was around it before. -/
theorem Arena.encloses_of (ha : p.Arena []) (hc : p.Placed c)
    (hprev : ∀ d, p.Placed d → (p'.contextAt d).previous = (p.contextAt d).previous) (he : p'.Encloses c d) :
    p.Encloses c d := by
  induction he with
  | self => exact .self _
  | @around c e d hce _ ih =>
      have hpe : (p.contextAt c).previous = some e := hprev c hc ▸ hce
      refine .around hpe (ih ?_)
      rcases hc with hc | hc
      · exact ha.encloses hc (.around hpe (.self e))
      · exact .inr (ha.closed c e hc hpe)

/-- Where a way in is new, it leads to contexts that others could get at before. -/
theorem captured_of (ha : p.Arena [])
    (hprev : ∀ d, p.Placed d → (p'.contextAt d).previous = (p.contextAt d).previous)
    (hinlet : ∀ c, p'.Inlet x c → p.Inlet x c ∨
      c ∉ (p.taskAt x).contexts ∧ ∀ d, (p'.contextAt c).previous = some d → p.Inlet x d) :
    ∀ c ∈ (p.taskAt x).contexts, p'.Captured x c → p.Captured x c := by
  rintro d hd ⟨c, hc, he⟩
  rcases hinlet c hc with hc | ⟨hnot, hnew⟩
  · exact ⟨c, hc, ha.encloses_of (ha.placed_of_inlet hc) hprev he⟩
  · cases he with
    | self => exact absurd hd hnot
    | @around _ e _ hce he =>
        have hin := hnew e hce
        exact ⟨e, hin, ha.encloses_of (ha.placed_of_inlet hin) hprev he⟩

/-! ## Steps that frame a task -/

theorem captured_of_previous (hprev : ∀ d, (p'.contextAt d).previous = (p.contextAt d).previous)
    (hinlet : ∀ c, p'.Inlet x c → p.Inlet x c) (hc : p'.Captured x c) : p.Captured x c := by
  obtain ⟨d, hd, he⟩ := hc
  refine ⟨d, hinlet d hd, ?_⟩
  clear hd
  induction he with
  | self => exact .self _
  | around hde _ ih => exact .around (hprev _ ▸ hde) ih

theorem framed_of_eq (ht : p'.tasks = p.tasks) (hc : p'.contexts = p.contexts)
    (hh : ∀ c, p'.heap.Captures c → p.Inlet x c) : Framed x p p' := by
  have htask : ∀ t, p'.taskAt t = p.taskAt t := fun t => by simp only [taskAt, ht]
  have hcontext : ∀ c, p'.contextAt c = p.contextAt c := fun c => by simp only [contextAt, hc]
  refine ⟨by rw [htask], fun c _ => by rw [hcontext], fun c _ => by rw [hcontext], fun c _ _ => by rw [hcontext],
    fun c _ => captured_of_previous (fun d => by rw [hcontext]) fun d hd => ?_⟩
  cases hd with
  | closure h => exact hh d h
  | stack hne h => exact .stack hne (htask _ ▸ h)

theorem framed_modifyTask (p : Process) (t : TaskId) {f : Task → Task} (hf : t = x → ∀ task, (f task).core = task.core)
    (hsub : ∀ c ∈ (f (p.taskAt t)).contexts, c ∈ (p.taskAt t).contexts) : Framed x p (p.modifyTask t f) := by
  refine ⟨?_, fun _ _ => rfl, fun _ _ => rfl, fun _ _ _ => rfl, fun c _ => captured_of_previous (fun _ => rfl)
    fun d hd => ?_⟩
  · rw [taskAt_modifyTask]
    split
    · rename_i h
      exact hf h.1 _
    · rfl
  · cases hd with
    | closure h => exact .closure h
    | stack hne h =>
        refine .stack hne ?_
        rw [taskAt_modifyTask] at h
        split at h
        · rename_i hz
          obtain ⟨rfl, _⟩ := hz
          exact hsub d h
        · exact h

theorem framed_modifyContext (p : Process) (c : ContextId) {f : Context → Context}
    (hprev : ∀ y, (f y).previous = y.previous)
    (hf : c ∈ (p.taskAt x).contexts → (∀ y, (f y).core = y.core) ∧
      (c ∈ (p.taskAt x).contexts.tail → ∀ y, (f y).error = y.error) ∧ (p.Captured x c ∨ ∀ y, (f y).locals = y.locals)) :
    Framed x p (p.modifyContext c f) := by
  refine ⟨rfl, fun d hd => ?_, fun d hd => ?_, fun d hd hn => ?_, fun d _ => captured_of_previous (fun d => ?_)
    fun d hd => ?_⟩
  · rw [contextAt_modifyContext]
    split
    · rename_i h
      exact (hf (h.1 ▸ hd)).1 _
    · rfl
  · rw [contextAt_modifyContext]
    split
    · rename_i h
      exact (hf (h.1 ▸ List.mem_of_mem_tail hd)).2.1 (h.1 ▸ hd) _
    · rfl
  · rw [contextAt_modifyContext]
    split
    · rename_i h
      exact (hf (h.1 ▸ hd)).2.2.resolve_left (fun hcap => hn (h.1 ▸ hcap)) _
    · rfl
  · rw [contextAt_modifyContext]
    split
    · exact hprev _
    · rfl
  · cases hd with
    | closure h => exact .closure h
    | stack hne h => exact .stack hne h

/-- A context of another task. -/
theorem framed_modifyContext_ne (p : Process) (hc : c ∉ (p.taskAt x).contexts) {f : Context → Context}
    (hprev : ∀ y, (f y).previous = y.previous) : Framed x p (p.modifyContext c f) :=
  framed_modifyContext p c hprev fun h => absurd h hc

theorem framed_pinned {cs : List ContextId} (h : Pinned cs p p') : Framed x p p' := by
  obtain ⟨⟨contexts, rfl⟩, _, hsame, _⟩ := h
  have hat : ∀ d, (({ p with contexts } : Process).contextAt d).core = (p.contextAt d).core ∧
      (({ p with contexts } : Process).contextAt d).error = (p.contextAt d).error ∧
      (({ p with contexts } : Process).contextAt d).locals = (p.contextAt d).locals := by
    intro d
    obtain ⟨b, hb⟩ := hsame d
    rw [hb]
    exact ⟨rfl, rfl, rfl⟩
  refine ⟨rfl, fun d _ => (hat d).1, fun d _ => (hat d).2.1, fun d _ _ => (hat d).2.2, fun d _ =>
    captured_of_previous (fun d => congrArg (·.previous) (hat d).1) fun d hd => ?_⟩
  cases hd with
  | closure h => exact .closure h
  | stack hne h => exact .stack hne h

theorem framed_releaseContext (p : Process) (hc : c ∉ (p.taskAt x).contexts) : Framed x p (p.releaseContext c) := by
  unfold releaseContext
  split
  · exact .refl x p
  · exact (framed_modifyContext_ne p hc (f := fun c => { c with locals := {}, error := none, receiver := .none })
      fun _ => rfl).trans (framed_of_eq rfl rfl fun _ h => .closure h)

theorem framed_releaseAll (cs : List ContextId) : ∀ p : Process, (∀ c ∈ cs, c ∉ (p.taskAt x).contexts) →
    Framed x p (cs.foldl releaseContext p) := by
  induction cs with
  | nil => exact fun p _ => .refl x p
  | cons c rest ih =>
      intro p hcs
      have hfirst := framed_releaseContext p (hcs c List.mem_cons_self)
      refine hfirst.trans (ih _ fun d hd => ?_)
      rw [hfirst.stack]
      exact hcs d (List.mem_cons_of_mem c hd)

/-- A new task runs in a context of its own, or in one inside a context that others get at already. -/
theorem Arena.framed_startTask (ha : p.Arena []) (hx : x.index < p.tasks.size) (parent : Option TaskId) (argument : Value)
    (context : TaskId → Context) (hpin : (context ⟨p.tasks.size⟩).pinned = false)
    (hprev : ∀ d, (context ⟨p.tasks.size⟩).previous = some d → p.heap.Captures d) :
    Framed x p (p.startTask parent argument context).2 := by
  obtain ⟨c, hnot, htask, hat, hold⟩ := ha.started parent argument context hpin
  have hcontext : ∀ d ∈ (p.taskAt x).contexts, (p.startTask parent argument context).2.contextAt d = p.contextAt d :=
    fun d hd => hold d fun h => hnot (h ▸ .inl (mem_stacked_taskAt hd))
  have hheap : (p.startTask parent argument context).2.heap = p.heap := by
    obtain ⟨tasks, contexts, free, heq⟩ := startTask_frame p parent argument context
    rw [heq]
  refine ⟨by rw [taskAt_startTask hx], fun d hd => by rw [hcontext d hd], fun d hd => ?_, fun d hd _ => by rw [hcontext d hd],
    captured_of ha (fun d hd => by rw [hold d fun h => hnot (h ▸ hd)]) fun d hd => ?_⟩
  · rw [hcontext d (List.mem_of_mem_tail hd)]
  · cases hd with
    | closure h => exact .inl (.closure (hheap ▸ h))
    | @stack t hne h =>
        have hlt := index_lt_of_mem h
        rw [size_startTask] at hlt
        rcases Nat.lt_succ_iff_lt_or_eq.1 hlt with hlt | heq
        · exact .inl (.stack hne (taskAt_startTask hlt parent argument context ▸ h))
        · -- the new task
          obtain rfl : t = ⟨p.tasks.size⟩ := by cases t; simp_all
          rw [htask, List.mem_singleton] at h
          subst h
          refine .inr ⟨fun hmem => hnot (.inl (mem_stacked_taskAt hmem)), fun e he => .closure (hprev e ?_)⟩
          rw [← hat]
          exact he

section
variable (ha : p.Arena [])
include ha

/-- The innermost context of another task is inside what others get at. -/
theorem Arena.framed_enter (ht : t ≠ x) {y : Context} (hc : (p.taskAt t).top? = some c) (hpin : y.pinned = false)
    (hprev : y.previous = some c) :
    Framed x p ((p.newContext y).2.modifyTask t fun t => { t with contexts := (p.newContext y).1 :: t.contexts }) := by
  obtain ⟨_, hat, hun, hnot, _⟩ := ha.newContext hpin
  obtain ⟨hheap, htasks, _⟩ := newContext_eq p y
  have hold : ∀ d, p.Placed d → (p.newContext y).2.contextAt d = p.contextAt d := fun d hd =>
    contextAt_newContext p y fun h => (h ▸ hd).elim hnot hun
  have hcontext : ∀ d ∈ (p.taskAt x).contexts, (p.newContext y).2.contextAt d = p.contextAt d := fun d hd =>
    hold d (.inl (mem_stacked_taskAt hd))
  have htask : ∀ z, (p.newContext y).2.taskAt z = p.taskAt z := fun z => by simp only [taskAt, htasks]
  have hrow : ∀ z, z ≠ t → ((p.newContext y).2.modifyTask t fun t =>
      { t with contexts := (p.newContext y).1 :: t.contexts }).taskAt z = p.taskAt z := by
    intro z hz
    rw [taskAt_modifyTask, if_neg fun h => hz h.1.symm, htask]
  refine ⟨by rw [hrow x ht.symm], fun d hd => congrArg Context.core (hcontext d hd), fun d hd => ?_,
    fun d hd _ => congrArg Context.locals (hcontext d hd),
    captured_of ha (fun d hd => congrArg Context.previous (hold d hd)) fun d hd => ?_⟩
  · exact congrArg Context.error (hcontext d (List.mem_of_mem_tail hd))
  · cases hd with
    | closure h => exact .inl (.closure (hheap ▸ h))
    | @stack z hne h =>
        by_cases hz : z = t
        · subst hz
          rw [taskAt_modifyTask, htask] at h
          split at h
          · rcases List.mem_cons.1 h with rfl | h
            · refine .inr ⟨fun hmem => hnot (mem_stacked_taskAt hmem), fun e he => .stack hne ?_⟩
              have hce : (p.newContext y).2.contextAt (p.newContext y).1 = y := hat
              change ((p.newContext y).2.contextAt (p.newContext y).1).previous = some e at he
              rw [hce, hprev] at he
              cases he
              exact mem_of_top? hc
            · exact .inl (.stack hne h)
          · exact .inl (.stack hne h)
        · exact .inl (.stack hne (hrow z hz ▸ h))

omit ha in
theorem framed_wake (p : Process) (t : TaskId) : Framed x p (p.wake t) := by
  unfold wake
  split
  · exact .refl x p
  · exact (framed_modifyTask p t (f := fun t => { t with state := .running, reason := .notWaiting }) (fun _ _ => rfl)
      fun _ hc => hc).trans (framed_of_eq rfl rfl fun _ h => .closure h)

/-- An outcome is delivered to any task. -/
theorem Arena.framed_deliver (failed : Bool) (v : Value) (d : Dependent) : Framed x p (p.deliver failed v d) := by
  unfold Process.deliver
  split
  · exact .refl x p
  · split
    · unfold deliverError failTask
      split
      · rename_i c e htop
        refine (framed_modifyContext p c (f := fun c => { c with error := some e }) (fun _ => rfl) fun hc => ?_).trans
          (framed_wake _ d.task)
        obtain rfl : x = d.task := by
          by_contra hne
          exact ha.disjoint hne (mem_of_top? htop) hc
        refine ⟨fun _ => rfl, fun htail => ?_, .inr fun _ => rfl⟩
        -- the innermost context is on the stack once
        have hget := Array.mem_of_getElem? (getElem?_of_index_lt (index_lt_of_mem hc))
        obtain ⟨outer, hcs⟩ := List.head?_eq_some_iff.1 htop
        have hnodup := (ha.stack hget).1
        rw [hcs] at hnodup htail
        exact absurd htail (List.nodup_cons.1 hnodup).1
      · exact framed_modifyTask p d.task (fun _ _ => rfl) fun _ hc => hc
    · split
      · exact (framed_modifyTask p d.task (f := fun t => { t with register := v }) (fun _ _ => rfl) fun _ hc => hc).trans
          (framed_wake _ d.task)
      · exact framed_wake p d.task

theorem Arena.framed_deliverAll (failed : Bool) (v : Value) (ds : List Dependent) :
    Framed x p (ds.foldl (fun q d => q.deliver failed v d) p) := by
  induction ds generalizing p with
  | nil => exact .refl x p
  | cons d rest ih => exact (ha.framed_deliver failed v d).trans (ih (ha.deliver failed v d))

/-- Another task ends, whoever waits for it. -/
theorem Arena.framed_finish (ht : t ≠ x) : Framed x p (p.finish t) := by
  have hlist : Framed x p (p.unlist t) :=
    (framed_modifyTask p t (f := fun t => { t with dependents := [], initializes := none }) (fun h => absurd h ht)
      fun _ hc => hc).trans (framed_of_eq rfl rfl fun _ h => .closure h)
  have hbare := framed_modifyTask (x := x) (p.unlist t) t (f := fun t => { t with contexts := [] }) (fun h => absurd h ht)
    fun _ hc => absurd hc List.not_mem_nil
  have hcontexts : ((p.unlist t).taskAt t).contexts = (p.taskAt t).contexts := by
    change ((p.modifyTask t _).taskAt t).contexts = _
    rw [taskAt_modifyTask]
    split <;> rfl
  have hclear : Framed x p (p.clear t) := by
    refine (hlist.trans hbare).trans (framed_releaseAll _ _ fun c hc => ?_)
    rw [(hlist.trans hbare).stack]
    exact ha.disjoint ht.symm (hcontexts ▸ hc)
  rw [finish_eq]
  exact hclear.trans ((ha.clear t).framed_deliverAll _ _ _)

end

end Process

end Spool
