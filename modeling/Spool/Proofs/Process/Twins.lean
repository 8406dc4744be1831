import Spool.Proofs.Heap.Twins
import Spool.Proofs.Process.Arena
import Spool.Proofs.Process.Fit
import Spool.Proofs.Process.Schedule

/-!
# Processes up to the names of objects

Twin processes have twin heaps and are otherwise the same, wherever a task can still look. What a finished task has left
behind may have been collected in one of them.
-/

namespace Spool

variable {R R' : Pairing}

/-! ## Tasks and contexts -/

namespace Task

/-- Everything about a task but the values it holds. -/
def bare (t : Task) : Task := { t with stack := [], register := .none }

structure Pairs (R : Pairing) (a b : Task) : Prop where
  register : a.register.Pairs R b.register
  stack : Value.AllPairs R a.stack b.stack

variable {a b : Task}

theorem Pairs.imp (h : a.Pairs R b) (hR : ∀ x y, .object x ∈ a.values → R x y → R' x y) : a.Pairs R' b :=
  ⟨h.register.imp fun x y hx => hR x y (hx ▸ List.mem_cons_self),
    h.stack.imp fun x y hx => hR x y (List.mem_cons_of_mem _ hx)⟩

theorem Pairs.mono (h : a.Pairs R b) (hle : R ≤ R') : a.Pairs R' b := h.imp fun x y _ => hle x y

theorem Pairs.symm (h : a.Pairs R b) : b.Pairs (flip R) a := ⟨h.register.symm, h.stack.symm⟩

end Task

namespace Context

/-- Everything about a context but the values it holds. -/
def bare (c : Context) : Context := { c with receiver := .none, locals := {}, error := none }

structure Pairs (R : Pairing) (c d : Context) : Prop where
  receiver : c.receiver.Pairs R d.receiver
  locals : c.locals.Pairs R d.locals
  error : Option.Rel R c.error d.error

variable {c d : Context}

theorem Pairs.imp (h : c.Pairs R d) (hR : ∀ x y, .object x ∈ c.values → R x y → R' x y) : c.Pairs R' d where
  receiver := h.receiver.imp fun x y hx => hR x y (hx ▸ List.mem_cons_self)
  locals := h.locals.imp fun x y hx => hR x y (List.mem_append_left _ (List.mem_cons_of_mem _ hx))
  error := rel_imp h.error fun x y hx => hR x y (List.mem_append_right _ (by simp [hx]))

theorem Pairs.mono (h : c.Pairs R d) (hle : R ≤ R') : c.Pairs R' d := h.imp fun x y _ => hle x y

theorem Pairs.symm (h : c.Pairs R d) : d.Pairs (flip R) c := ⟨h.receiver.symm, h.locals.symm, rel_flip h.error⟩

theorem Pairs.empty {c d : Context} (hc : c.receiver = .none ∧ c.locals = {} ∧ c.error = none)
    (hd : d.receiver = .none ∧ d.locals = {} ∧ d.error = none) : c.Pairs R d := by
  obtain ⟨hr, hl, he⟩ := hc
  obtain ⟨hr', hl', he'⟩ := hd
  refine ⟨?_, ?_, ?_⟩
  · rw [hr, hr']
    exact .none
  · rw [hl, hl']
    exact .empty
  · rw [he, he']
    exact .none

end Context

namespace Process

variable {p p' q q' : Process} {cur : Option TaskId} {t x : TaskId} {c : ContextId}

/-- Everything about a process but the values in it. -/
def bare (p : Process) : Process :=
  { p with
    heap := default
    tasks := p.tasks.map Task.bare
    contexts := p.contexts.map Context.bare
    exitValue := none
    reflection := none }

theorem taskAt_bare (p : Process) (t : TaskId) : p.bare.taskAt t = (p.taskAt t).bare := by
  simp only [taskAt, bare, Array.getD_eq_getD_getElem?, Array.getElem?_map]
  cases p.tasks[t.index]? <;> rfl

theorem contextAt_bare (p : Process) (c : ContextId) : p.bare.contextAt c = (p.contextAt c).bare := by
  simp only [contextAt, bare, Array.getD_eq_getD_getElem?, Array.getElem?_map]
  cases p.contexts[c.index]? <;> rfl

/-- A context and all around it hold the same values. -/
def Matches (R : Pairing) (p q : Process) (c : ContextId) : Prop := ∃ G : ContextId → Prop, G c ∧
  ∀ d, G d → (p.contextAt d).Pairs R (q.contextAt d) ∧ ∀ e, (p.contextAt d).previous = some e → G e

/-- What an object keeps alive outside the heap is the same. -/
def Shares (R : Pairing) (p q : Process) : External → Prop
  | .context c => Matches R p q c
  | .task t => (p.taskAt t).register.Pairs R (q.taskAt t).register

structure Twin (R : Pairing) (cur : Option TaskId) (p q : Process) : Prop where
  bare : q.bare = p.bare
  heap : p.heap.Twin R q.heap
  tasks : ∀ t, Active cur t (p.taskAt t) → (p.taskAt t).Pairs R (q.taskAt t)
  contexts : ∀ t, Active cur t (p.taskAt t) → ∀ c ∈ (p.taskAt t).contexts, Matches R p q c
  exit : Option.Rel (Value.Pairs R) p.exitValue q.exitValue
  entry : ∀ t, p.entryTask = some t → (p.taskAt t).register.Pairs R (q.taskAt t).register
  behind : ∀ x, p.heap.Keeps R x → Shares R p q x

/-! ## Chains of contexts -/

theorem Matches.pairs (h : Matches R p q c) : (p.contextAt c).Pairs R (q.contextAt c) := by
  obtain ⟨G, hc, hG⟩ := h
  exact (hG c hc).1

theorem Matches.previous (h : Matches R p q c) {d : ContextId} (hd : (p.contextAt c).previous = some d) :
    Matches R p q d := by
  obtain ⟨G, hc, hG⟩ := h
  exact ⟨G, (hG c hc).2 d hd, hG⟩

theorem Matches.encloses (h : Matches R p q c) {d : ContextId} (he : p.Encloses c d) : Matches R p q d := by
  induction he with
  | self c => exact h
  | around hd _ ih => exact ih (h.previous hd)

/-- Other pairs of processes, whose contexts hold the same values where those of the first hold the same. -/
theorem Matches.trans (h : Matches R p q c)
    (hpairs : ∀ d, Matches R p q d → p.Encloses c d → (p'.contextAt d).Pairs R' (q'.contextAt d))
    (hprevious : ∀ d e, Matches R p q d → p.Encloses c d → (p'.contextAt d).previous = some e →
      (p.contextAt d).previous = some e) : Matches R' p' q' c := by
  have hsnoc : ∀ {c d e}, p.Encloses c d → (p.contextAt d).previous = some e → p.Encloses c e := by
    intro c d e hd he
    induction hd with
    | self c => exact .around he (.self e)
    | around hx _ ih => exact .around hx (ih he)
  refine ⟨fun d => Matches R p q d ∧ p.Encloses c d, ⟨h, .self c⟩, fun d hd => ⟨hpairs d hd.1 hd.2, fun e he => ?_⟩⟩
  have he := hprevious d e hd.1 hd.2 he
  exact ⟨hd.1.previous he, hsnoc hd.2 he⟩

theorem Matches.mono (h : Matches R p q c) (hle : R ≤ R') : Matches R' p q c :=
  h.trans (fun _ hd _ => hd.pairs.mono hle) fun _ _ _ _ he => he

theorem Shares.mono {e : External} (h : Shares R p q e) (hle : R ≤ R') : Shares R' p q e := by
  cases e with
  | context c => exact Matches.mono h hle
  | task t => exact Value.Pairs.mono h hle

/-! ## What twins have in common -/

section
variable (hb : q.bare = p.bare)
include hb

theorem bare_taskAt (t : TaskId) : (q.taskAt t).bare = (p.taskAt t).bare := by
  rw [← taskAt_bare, ← taskAt_bare, hb]

theorem bare_contextAt (c : ContextId) : (q.contextAt c).bare = (p.contextAt c).bare := by
  rw [← contextAt_bare, ← contextAt_bare, hb]

theorem previous_eq_of_bare (c : ContextId) : (q.contextAt c).previous = (p.contextAt c).previous :=
  (congrArg Context.previous (bare_contextAt hb c) :)

theorem taskCount_eq_of_bare : q.tasks.size = p.tasks.size := by
  have h := congrArg (fun r : Process => r.tasks.size) hb
  simpa [Process.bare] using h

theorem contextCount_eq_of_bare : q.contexts.size = p.contexts.size := by
  have h := congrArg (fun r : Process => r.contexts.size) hb
  simpa [Process.bare] using h

theorem chain_eq_of_bare (c : ContextId) : q.chain c = p.chain c := by
  have hfrom : ∀ fuel c, q.chainFrom fuel c = p.chainFrom fuel c := by
    intro fuel
    induction fuel with
    | zero => exact fun _ => rfl
    | succ fuel ih =>
        intro c
        simp only [chainFrom, previous_eq_of_bare hb c]
        cases (p.contextAt c).previous with
        | none => rfl
        | some d => exact congrArg (c :: ·) (ih d)
  unfold chain
  rw [contextCount_eq_of_bare hb, hfrom]

theorem ancestry_eq_of_bare (t : TaskId) : q.ancestry t = p.ancestry t := by
  have hparent : ∀ t, (q.taskAt t).parent = (p.taskAt t).parent := fun t =>
    (congrArg Task.parent (bare_taskAt hb t) :)
  have hfrom : ∀ fuel t, q.ancestryFrom fuel t = p.ancestryFrom fuel t := by
    intro fuel
    induction fuel with
    | zero => exact fun _ => rfl
    | succ fuel ih =>
        intro t
        simp only [ancestryFrom, hparent t]
        cases (p.taskAt t).parent with
        | none => rfl
        | some u => exact congrArg (t :: ·) (ih u)
  unfold ancestry
  rw [taskCount_eq_of_bare hb, hfrom]

end

/-! ## Either way round -/

theorem Matches.symm (h : Matches R p q c) (hb : q.bare = p.bare) : Matches (flip R) q p c := by
  obtain ⟨G, hc, hG⟩ := h
  refine ⟨G, hc, fun d hd => ⟨(hG d hd).1.symm, fun e he => (hG d hd).2 e ?_⟩⟩
  rwa [previous_eq_of_bare hb] at he

theorem Active.congr {a b : Task} (h : Active cur t b) (hb : b.bare = a.bare) : Active cur t a := by
  have hs : b.state = a.state := (congrArg Task.state hb :)
  rwa [Active, hs] at h

theorem Twin.symm (hp : p.Twin R cur q) : q.Twin (flip R) cur p where
  bare := hp.bare.symm
  heap := hp.heap.symm
  tasks t ha := (hp.tasks t (ha.congr (bare_taskAt hp.bare t))).symm
  contexts t ha c hc := by
    have hcs : (q.taskAt t).contexts = (p.taskAt t).contexts :=
      (congrArg Task.contexts (bare_taskAt hp.bare t) :)
    exact (hp.contexts t (ha.congr (bare_taskAt hp.bare t)) c (hcs ▸ hc)).symm hp.bare
  exit := rel_imp (rel_flip hp.exit) fun _ _ _ h => h.symm
  entry t he := (hp.entry t ((congrArg Process.entryTask hp.bare).symm.trans he)).symm
  behind x hx := by
    have hk : p.heap.Keeps R x := by
      obtain ⟨b, a, o', hab, ho', hx⟩ := hx
      obtain ⟨o, o₁, ho, ho₁, hpair⟩ := hp.heap.objects hab
      cases ho'.symm.trans ho₁
      exact ⟨a, b, o, hab, ho, hpair.payload.external?.symm.trans hx⟩
    have hs := hp.behind x hk
    cases x with
    | context c => exact Matches.symm hs hp.bare
    | task t => exact Value.Pairs.symm hs

/-! ## Parts that do not matter -/

theorem Twin.congr (hp : p.Twin R cur q) (hb : q'.bare = p'.bare) (hh : p'.heap = p.heap ∧ q'.heap = q.heap)
    (ht : p'.tasks = p.tasks ∧ q'.tasks = q.tasks) (hc : p'.contexts = p.contexts ∧ q'.contexts = q.contexts)
    (he : p'.exitValue = p.exitValue ∧ q'.exitValue = q.exitValue) (hn : p'.entryTask = p.entryTask) :
    p'.Twin R cur q' := by
  obtain ⟨id, heap, tasks, contexts, free, waiting, modules, inFlight, exitValue, reflection, fault, entryTask, uncaught,
    queue, completions, poked, outgoing, phase⟩ := p'
  obtain ⟨id', heap', tasks', contexts', free', waiting', modules', inFlight', exitValue', reflection', fault', entryTask',
    uncaught', queue', completions', poked', outgoing', phase'⟩ := q'
  obtain ⟨rfl, rfl⟩ := hh
  obtain ⟨rfl, rfl⟩ := ht
  obtain ⟨rfl, rfl⟩ := hc
  obtain ⟨rfl, rfl⟩ := he
  cases hn
  exact ⟨hb, hp.heap, hp.tasks, hp.contexts, hp.exit, hp.entry, hp.behind⟩

/-- A change that has nothing to do with values. -/
theorem Twin.books (hp : p.Twin R cur q) (f : Process → Process) (hb : ∀ p, (f p).bare = f p.bare)
    (hf : ∀ p, (f p).heap = p.heap ∧ (f p).tasks = p.tasks ∧ (f p).contexts = p.contexts ∧ (f p).exitValue = p.exitValue ∧
      (f p).entryTask = p.entryTask) : (f p).Twin R cur (f q) := by
  obtain ⟨hh, ht, hc, he, hn⟩ := hf p
  obtain ⟨hh', ht', hc', he', _⟩ := hf q
  exact hp.congr (by rw [hb, hb, hp.bare]) ⟨hh, hh'⟩ ⟨ht, ht'⟩ ⟨hc, hc'⟩ ⟨he, he'⟩ hn

/-- The process exits with values that are the same. -/
theorem Twin.setExit (hp : p.Twin R cur q) {v w : Value} (hv : v.Pairs R w) :
    ({ p with exitValue := some v } : Process).Twin R cur { q with exitValue := some w } :=
  ⟨hp.bare, hp.heap, hp.tasks, hp.contexts, .some hv, hp.entry, hp.behind⟩

/-- A task that is no longer the running one. -/
theorem Twin.idle (hp : p.Twin R cur q) : p.Twin R none q := by
  have ha : ∀ t, Active none t (p.taskAt t) → Active cur t (p.taskAt t) := by
    rintro t (h | h)
    · exact .inl h
    · cases h
  exact ⟨hp.bare, hp.heap, fun t h => hp.tasks t (ha t h), fun t h => hp.contexts t (ha t h), hp.exit, hp.entry, hp.behind⟩

/-- A task that is not finished may be taken for the running one. -/
theorem Twin.run (hp : p.Twin R none q) (ht : ¬ (p.taskAt t).state.isFinished) : p.Twin R (some t) q := by
  have ha : ∀ x, Active (some t) x (p.taskAt x) → Active none x (p.taskAt x) := by
    rintro x (h | h)
    · exact .inl h
    · cases h
      exact .inl ht
  exact ⟨hp.bare, hp.heap, fun x h => hp.tasks x (ha x h), fun x h => hp.contexts x (ha x h), hp.exit, hp.entry, hp.behind⟩

/-! ## The heap -/

/-- The heaps have changed, and more handles name the same object. -/
theorem Twin.heaps (hp : p.Twin R cur q) (hle : R ≤ R') {h k : Heap} (hh : h.Twin R' k)
    (hx : ∀ x, h.Keeps R' x → Shares R p q x ∨ p.heap.Keeps R x) :
    ({ p with heap := h } : Process).Twin R' cur { q with heap := k } where
  bare := hp.bare
  heap := hh
  tasks t ha := (hp.tasks t ha).mono hle
  contexts t ha c hc := (hp.contexts t ha c hc).mono hle
  exit := rel_imp hp.exit fun _ _ _ h => h.mono hle
  entry t ht := (hp.entry t ht).mono hle
  behind x hk := by
    have hs : Shares R p q x := (hx x hk).elim (fun h => h) (hp.behind x)
    exact hs.mono hle

/-! ## Tasks -/

theorem bare_tasks (hb : q.bare = p.bare) {tasks tasks' : Array Task} (h : tasks'.map Task.bare = tasks.map Task.bare) :
    ({ q with tasks := tasks' } : Process).bare = ({ p with tasks := tasks } : Process).bare :=
  ((congrArg (fun r : Process => { r with tasks := tasks'.map Task.bare }) hb :).trans
    (congrArg (fun tasks => { p.bare with tasks }) h :) :)

theorem bare_modifyTask (hb : q.bare = p.bare) (t : TaskId) {f g : Task → Task}
    (hfg : ∀ a b : Task, b.bare = a.bare → (g b).bare = (f a).bare) : (q.modifyTask t g).bare = (p.modifyTask t f).bare := by
  have htasks : (q.tasks.modify t.index g).map Task.bare = (p.tasks.modify t.index f).map Task.bare := by
    have hb : q.tasks.map Task.bare = p.tasks.map Task.bare := congrArg Process.tasks hb
    apply Array.ext_getElem?
    intro i
    have hi := congrArg (·[i]?) hb
    simp only [Array.getElem?_map, Array.getElem?_modify] at hi ⊢
    split
    · cases hp : p.tasks[i]? with
      | none =>
          rw [hp] at hi
          simp only [Option.map_none, Option.map_eq_none_iff] at hi ⊢
          exact hi
      | some a =>
          rw [hp] at hi
          obtain ⟨b, hb, hab⟩ := Option.map_eq_some_iff.1 hi
          rw [hb]
          exact congrArg some (hfg a b hab)
    · exact hi
  exact bare_tasks hb htasks

theorem Twin.modifyTask (hp : p.Twin R cur q) (t : TaskId) {f g : Task → Task}
    (hb : ∀ a b : Task, b.bare = a.bare → (g b).bare = (f a).bare)
    (hv : Active cur t (f (p.taskAt t)) → (f (p.taskAt t)).Pairs R (g (q.taskAt t)))
    (hc : Active cur t (f (p.taskAt t)) → ∀ c ∈ (f (p.taskAt t)).contexts, Matches R p q c)
    (hr : (p.taskAt t).register.Pairs R (q.taskAt t).register →
      (f (p.taskAt t)).register.Pairs R (g (q.taskAt t)).register) : (p.modifyTask t f).Twin R cur (q.modifyTask t g) := by
  -- a task is the changed one on both sides or on neither
  have hcase : ∀ {P : Task → Task → Prop} (x : TaskId), (x = t → P (f (p.taskAt t)) (g (q.taskAt t))) →
      P (p.taskAt x) (q.taskAt x) → P ((p.modifyTask t f).taskAt x) ((q.modifyTask t g).taskAt x) := by
    intro P x hchanged hkept
    rw [taskAt_modifyTask, taskAt_modifyTask, taskCount_eq_of_bare hp.bare]
    split
    · rename_i h
      obtain ⟨rfl, _⟩ := h
      exact hchanged rfl
    · exact hkept
  have hreg : ∀ x, (p.taskAt x).register.Pairs R (q.taskAt x).register →
      ((p.modifyTask t f).taskAt x).register.Pairs R ((q.modifyTask t g).taskAt x).register := by
    intro x h
    refine hcase (P := fun a b => a.register.Pairs R b.register) x ?_ h
    rintro rfl
    exact hr h
  refine ⟨bare_modifyTask hp.bare t hb, hp.heap, fun x => ?_, fun x => ?_, hp.exit, fun x he => hreg x (hp.entry x he),
    fun x hx => ?_⟩
  · refine hcase (P := fun a b => Active cur x a → a.Pairs R b) x ?_ (hp.tasks x)
    rintro rfl
    exact hv
  · refine hcase (P := fun a _ => Active cur x a → ∀ c ∈ a.contexts, Matches R p q c) x ?_ (hp.contexts x)
    rintro rfl
    exact hc
  · have hs := hp.behind x hx
    cases x with
    | context c => exact hs
    | task x => exact hreg x hs

/-- A change of a task that leaves its values alone, and does not bring it back to life. -/
theorem Twin.modifyTask_frame (hp : p.Twin R cur q) (t : TaskId) {f : Task → Task}
    (hb : ∀ a b : Task, b.bare = a.bare → (f b).bare = (f a).bare)
    (hv : ∀ a, (f a).register = a.register ∧ (f a).stack = a.stack ∧ (f a).contexts ⊆ a.contexts)
    (hs : Active cur t (f (p.taskAt t)) → Active cur t (p.taskAt t)) :
    (p.modifyTask t f).Twin R cur (q.modifyTask t f) := by
  refine hp.modifyTask t hb (fun h => ?_) (fun h c hc => ?_) fun h => ?_
  · obtain ⟨hr, hst⟩ := hp.tasks t (hs h)
    refine ⟨?_, ?_⟩
    · rwa [(hv _).1, (hv _).1]
    · rwa [(hv _).2.1, (hv _).2.1]
  · exact hp.contexts t (hs h) c ((hv _).2.2 hc)
  · rwa [(hv _).1, (hv _).1]

theorem taskAt_newTask (p : Process) (parent : Option TaskId) (x : TaskId) :
    (p.newTask parent).2.taskAt x = if x.index = p.tasks.size then { parent } else p.taskAt x := by
  simp only [taskAt, newTask, Array.getD_eq_getD_getElem?, Array.getElem?_push]
  split <;> rfl

theorem Twin.newTask (hp : p.Twin R cur q) (parent : Option TaskId) :
    (p.newTask parent).2.Twin R cur (q.newTask parent).2 ∧ (q.newTask parent).1 = (p.newTask parent).1 := by
  have hsize := taskCount_eq_of_bare hp.bare
  have hreg : ∀ x, (p.taskAt x).register.Pairs R (q.taskAt x).register →
      ((p.newTask parent).2.taskAt x).register.Pairs R ((q.newTask parent).2.taskAt x).register := by
    intro x h
    rw [taskAt_newTask, taskAt_newTask, hsize]
    split
    · exact .none
    · exact h
  refine ⟨⟨?_, hp.heap, fun x ha => ?_, fun x ha c hc => ?_, hp.exit, fun x he => hreg x (hp.entry x he), fun x hx => ?_⟩,
    congrArg TaskId.mk hsize⟩
  · have htasks : (q.tasks.push { parent }).map Task.bare = (p.tasks.push { parent }).map Task.bare := by
      rw [Array.map_push, Array.map_push]
      exact (congrArg (fun r : Process => r.tasks.push ({ parent } : Task).bare) hp.bare :)
    exact bare_tasks hp.bare htasks
  · rw [taskAt_newTask] at ha ⊢
    rw [taskAt_newTask, hsize]
    split
    · exact ⟨.none, .nil⟩
    · rw [if_neg ‹_›] at ha
      exact hp.tasks x ha
  · rw [taskAt_newTask] at ha hc
    split at hc
    · cases hc
    · rw [if_neg ‹_›] at ha
      exact hp.contexts x ha c hc
  · have hs := hp.behind x hx
    cases x with
    | context c => exact hs
    | task x => exact hreg x hs

/-! ## Contexts -/

/-- Contexts have changed, and those that held the same values still do. -/
theorem Twin.contexts_changed (hp : p.Twin R cur q) (hb : q'.bare = p'.bare)
    (hh : p'.heap = p.heap ∧ q'.heap = q.heap) (ht : p'.tasks = p.tasks ∧ q'.tasks = q.tasks)
    (he : p'.exitValue = p.exitValue ∧ q'.exitValue = q.exitValue) (hn : p'.entryTask = p.entryTask)
    (hs : ∀ c, Matches R p q c → Matches R p' q' c) : p'.Twin R cur q' := by
  have htasks : p'.taskAt = p.taskAt ∧ q'.taskAt = q.taskAt := by
    constructor <;> funext t
    · simp only [taskAt, ht.1]
    · simp only [taskAt, ht.2]
  refine ⟨hb, ?_, fun t ha => ?_, fun t ha c hc => ?_, ?_, fun t ht => ?_, fun x hx => ?_⟩
  · rw [hh.1, hh.2]
    exact hp.heap
  · rw [htasks.1] at ha ⊢
    rw [htasks.2]
    exact hp.tasks t ha
  · rw [htasks.1] at ha hc
    exact hs c (hp.contexts t ha c hc)
  · rw [he.1, he.2]
    exact hp.exit
  · rw [htasks.1, htasks.2]
    exact hp.entry t (hn ▸ ht)
  · rw [hh.1] at hx
    have h := hp.behind x hx
    cases x with
    | context c => exact hs c h
    | task t =>
        simp only [Shares, htasks.1, htasks.2]
        exact h

theorem bare_contexts (hb : q.bare = p.bare) {contexts contexts' : Array Context}
    (h : contexts'.map Context.bare = contexts.map Context.bare) :
    ({ q with contexts := contexts' } : Process).bare = ({ p with contexts := contexts } : Process).bare :=
  ((congrArg (fun r : Process => { r with contexts := contexts'.map Context.bare }) hb :).trans
    (congrArg (fun contexts => { p.bare with contexts }) h :) :)

theorem bare_modifyContext (hb : q.bare = p.bare) (c : ContextId) {f g : Context → Context}
    (hfg : ∀ x y : Context, y.bare = x.bare → (g y).bare = (f x).bare) :
    (q.modifyContext c g).bare = (p.modifyContext c f).bare := by
  have hcontexts : (q.contexts.modify c.index g).map Context.bare = (p.contexts.modify c.index f).map Context.bare := by
    have hb : q.contexts.map Context.bare = p.contexts.map Context.bare := congrArg Process.contexts hb
    apply Array.ext_getElem?
    intro i
    have hi := congrArg (·[i]?) hb
    simp only [Array.getElem?_map, Array.getElem?_modify] at hi ⊢
    split
    · cases hp : p.contexts[i]? with
      | none =>
          rw [hp] at hi
          simp only [Option.map_none, Option.map_eq_none_iff] at hi ⊢
          exact hi
      | some x =>
          rw [hp] at hi
          obtain ⟨y, hy, hxy⟩ := Option.map_eq_some_iff.1 hi
          rw [hy]
          exact congrArg some (hfg x y hxy)
    · exact hi
  exact bare_contexts hb hcontexts

theorem Twin.modifyContext (hp : p.Twin R cur q) (c : ContextId) {f g : Context → Context}
    (hb : ∀ x y : Context, y.bare = x.bare → (g y).bare = (f x).bare)
    (hv : (p.contextAt c).Pairs R (q.contextAt c) → (f (p.contextAt c)).Pairs R (g (q.contextAt c)))
    (hf : ∀ x, (f x).previous = x.previous) : (p.modifyContext c f).Twin R cur (q.modifyContext c g) := by
  refine hp.contexts_changed (bare_modifyContext hp.bare c hb) ⟨rfl, rfl⟩ ⟨rfl, rfl⟩ ⟨rfl, rfl⟩ rfl fun x hx =>
    hx.trans (fun d hd _ => ?_) fun d e _ _ he => ?_
  · rw [contextAt_modifyContext, contextAt_modifyContext, contextCount_eq_of_bare hp.bare]
    split
    · rename_i h
      obtain ⟨rfl, _⟩ := h
      exact hv hd.pairs
    · exact hd.pairs
  · change ((p.modifyContext c f).contextAt d).previous = some e at he
    rw [contextAt_modifyContext] at he
    split at he
    · rwa [hf] at he
    · exact he

theorem bare_newContext (hb : q.bare = p.bare) {x y : Context} (hxy : y.bare = x.bare) :
    (q.newContext y).2.bare = (p.newContext x).2.bare ∧ (q.newContext y).1 = (p.newContext x).1 := by
  have hcontexts : q.contexts.map Context.bare = p.contexts.map Context.bare := (congrArg Process.contexts hb :)
  have hfree : q.freeContexts = p.freeContexts := (congrArg Process.freeContexts hb :)
  unfold Process.newContext
  rw [hfree]
  cases p.freeContexts with
  | nil =>
      have hpush : (q.contexts.push y).map Context.bare = (p.contexts.push x).map Context.bare := by
        rw [Array.map_push, Array.map_push, hcontexts, hxy]
      have hnew := congrArg (fun r : Process => { r with freeContexts := [] }) (bare_contexts hb hpush)
      exact ⟨hnew, congrArg ContextId.mk (contextCount_eq_of_bare hb)⟩
  | cons first rest =>
      have hset : (q.contexts.setIfInBounds first.index y).map Context.bare
          = (p.contexts.setIfInBounds first.index x).map Context.bare := by
        rw [Array.map_setIfInBounds, Array.map_setIfInBounds, hcontexts, hxy]
      have hnew := congrArg (fun r : Process => { r with freeContexts := rest }) (bare_contexts hb hset)
      exact ⟨hnew, rfl⟩

theorem contextAt_newContext_self (p : Process) (x : Context) : (p.newContext x).2.contextAt (p.newContext x).1
    = if (p.newContext x).1.index < (p.newContext x).2.contexts.size then x else default := by
  unfold newContext
  cases p.freeContexts with
  | nil => simp [contextAt]
  | cons first rest =>
      by_cases hlt : first.index < p.contexts.size
      · simp [contextAt, Array.getD_eq_getD_getElem?, hlt]
      · simp [contextAt, Array.getD_eq_getD_getElem?, hlt]

theorem Twin.newContext (hp : p.Twin R cur q) {x y : Context} (hb : y.bare = x.bare) (hv : x.Pairs R y)
    (hx : ∀ d, x.previous = some d → Matches R p q d) :
    (p.newContext x).2.Twin R cur (q.newContext y).2 ∧ (q.newContext y).1 = (p.newContext x).1 ∧
      Matches R (p.newContext x).2 (q.newContext y).2 (p.newContext x).1 := by
  obtain ⟨hbare, hid⟩ := bare_newContext hp.bare hb
  obtain ⟨hheap, htasks, hexit, hentry, _⟩ := newContext_eq p x
  obtain ⟨hheap', htasks', hexit', hentry', _⟩ := newContext_eq q y
  have hnew : ∀ d, Matches R p q d ∨ d = (p.newContext x).1 →
      ((p.newContext x).2.contextAt d).Pairs R ((q.newContext y).2.contextAt d) ∧
        ∀ e, ((p.newContext x).2.contextAt d).previous = some e → Matches R p q e := by
    intro d hd
    by_cases hne : d = (p.newContext x).1
    · subst hne
      rw [contextAt_newContext_self, ← hid, contextAt_newContext_self, contextCount_eq_of_bare hbare, hid]
      split
      · exact ⟨hv, hx⟩
      · exact ⟨.empty ⟨rfl, rfl, rfl⟩ ⟨rfl, rfl, rfl⟩, nofun⟩
    · rw [contextAt_newContext p x hne, contextAt_newContext q y (hid ▸ hne)]
      have hold := hd.resolve_right hne
      exact ⟨hold.pairs, fun e he => hold.previous he⟩
  have hmatches : ∀ d, Matches R p q d ∨ d = (p.newContext x).1 → Matches R (p.newContext x).2 (q.newContext y).2 d :=
    fun d hd => ⟨_, hd, fun d hd => ⟨(hnew d hd).1, fun e he => .inl ((hnew d hd).2 e he)⟩⟩
  exact ⟨hp.contexts_changed hbare ⟨hheap, hheap'⟩ ⟨htasks, htasks'⟩ ⟨hexit, hexit'⟩ hentry fun c hc => hmatches c (.inl hc),
    hid, hmatches _ (.inr rfl)⟩

theorem Twin.releaseContext (hp : p.Twin R cur q) (c : ContextId) :
    (p.releaseContext c).Twin R cur (q.releaseContext c) := by
  have hpinned : (q.contextAt c).pinned = (p.contextAt c).pinned :=
    (congrArg Context.pinned (bare_contextAt hp.bare c) :)
  have hfree : q.freeContexts = p.freeContexts := (congrArg Process.freeContexts hp.bare :)
  unfold Process.releaseContext
  rw [hpinned]
  split
  · exact hp
  · have hm := hp.modifyContext c (f := fun c => { c with locals := {}, error := none, receiver := .none })
      (g := fun c => { c with locals := {}, error := none, receiver := .none }) (fun _ _ h => h)
      (fun _ => .empty ⟨rfl, rfl, rfl⟩ ⟨rfl, rfl, rfl⟩) fun _ => rfl
    exact hm.books (fun r => { r with freeContexts := c :: r.freeContexts }) (fun _ => rfl) fun _ =>
      ⟨rfl, rfl, rfl, rfl, rfl⟩

theorem Twin.pinFrom (fuel : Nat) (hp : p.Twin R cur q) (c : ContextId) :
    (pinFrom fuel c p).Twin R cur (pinFrom fuel c q) := by
  induction fuel generalizing c p q with
  | zero => exact hp
  | succ fuel ih =>
      have hpinned : (q.contextAt c).pinned = (p.contextAt c).pinned :=
        (congrArg Context.pinned (bare_contextAt hp.bare c) :)
      unfold Process.pinFrom
      dsimp only
      rw [hpinned, previous_eq_of_bare hp.bare]
      split
      · exact hp
      · have hm := hp.modifyContext c (f := fun c => { c with pinned := true }) (g := fun c => { c with pinned := true })
          (fun _ _ h => (congrArg (fun x : Context => { x with pinned := true }) h :))
          (fun h => ⟨h.receiver, h.locals, h.error⟩) fun _ => rfl
        split
        · exact ih hm _
        · exact hm

theorem Twin.pin (hp : p.Twin R cur q) (c : ContextId) : (p.pin c).Twin R cur (q.pin c) := by
  unfold Process.pin
  rw [contextCount_eq_of_bare hp.bare]
  exact hp.pinFrom _ c

/-! ## Collections -/

/-- Everything that is compared is among what the collector keeps. -/
theorem Twin.collect (hp : p.Twin R cur q) (registry : Registry) (hcur : ∀ t, cur = some t → ¬ (p.taskAt t).state.isFinished) :
    (p.collect registry).2.Twin (R.within p.Reaches) cur q := by
  have hc := collection_collect p registry hp.heap.left.sound.edges
  have hcollect : (p.collect registry).2 = { p with heap := (p.collect registry).2.heap } := rfl
  have hun : ∀ t, Active cur t (p.taskAt t) → ¬ (p.taskAt t).state.isFinished := by
    rintro t (h | h)
    · exact h
    · exact hcur t h
  -- only a task and a context of the tables hold objects
  have htask : ∀ t r, .object r ∈ (p.taskAt t).values → p.tasks[t.index]? = some (p.taskAt t) := fun t r hr =>
    getElem?_of_index_lt (index_lt_of_taskAt (P := fun task => .object r ∈ task.values) hr fun h => by
      cases List.mem_singleton.1 h)
  have hmatches : ∀ c, Matches R p q c → (∀ d r, p.Encloses c d → .object r ∈ (p.contextAt d).values → p.Reaches r) →
      Matches (R.within p.Reaches) (p.collect registry).2 q c := fun c hm hr =>
    hm.trans (fun d hd he => hd.pairs.imp fun x y hx hxy => ⟨hxy, hr d x he hx⟩) fun _ _ _ _ h => h
  have hreg : ∀ t, (p.taskAt t).register.Pairs R (q.taskAt t).register →
      (∀ r, p.tasks[t.index]? = some (p.taskAt t) → (p.taskAt t).register = .object r → p.Reaches r) →
      (p.taskAt t).register.Pairs (R.within p.Reaches) (q.taskAt t).register := fun t h hr =>
    h.imp fun x y hx hxy => ⟨hxy, hr x (htask t x (hx ▸ List.mem_cons_self)) hx⟩
  have hobjects : ∀ {a b}, R.within p.Reaches a b → ∃ o o', (p.collect registry).2.heap.object? a = some o ∧
      q.heap.object? b = some o' ∧ o.Pairs (R.within p.Reaches) o' := by
    rintro a b ⟨hab, hr⟩
    obtain ⟨o, o', ho, ho', hpair⟩ := hp.heap.objects hab
    exact ⟨o, o', (hc.survivors a o).2 ⟨ho, hr⟩, ho', hpair.imp fun x y hx hxy => ⟨hxy, .held hr ho hx⟩⟩
  have hroot : ∀ key r, p.heap.reflection? key = some r → p.Reaches r := fun key r hr =>
    .rooted (hp.heap.left.rooted key r hr)
  have hkey : ∀ key, (p.collect registry).2.heap.reflection? key = p.heap.reflection? key := fun key => by
    rw [Heap.reflection?, Heap.reflection?, hc.reflections]
  refine ⟨hp.bare, ⟨⟨hp.heap.left.sound.collect registry _, fun key r hr => ?_⟩, hp.heap.right, fun h h' => hp.heap.same h.1 h'.1,
    hobjects, fun key => ?_⟩, fun t ha => ?_, fun t ha c hm => ?_, ?_, fun t he => ?_, fun x hx => ?_⟩
  · rw [hkey] at hr
    rw [hc.roots r (hroot key r hr)]
    exact hp.heap.left.rooted key r hr
  · rw [hkey]
    exact rel_imp (hp.heap.reflections key) fun r s hr hrs => ⟨hrs, hroot key r hr⟩
  · exact (hp.tasks t ha).imp fun x y hx hxy => ⟨hxy, .task (mem_tasks (htask t x hx)) (hun t ha) hx⟩
  · refine hmatches c (hp.contexts t ha c hm) fun d r he hr => ?_
    exact .context (mem_tasks (getElem?_of_index_lt (index_lt_of_mem hm))) (hun t ha) hm he hr
  · exact rel_imp hp.exit fun v w hv h => h.imp fun x y hx hxy => ⟨hxy, .exit (hx ▸ hv)⟩
  · exact hreg t (hp.entry t he) fun r ht hr => .entry he ht hr
  · obtain ⟨a, b, o, ⟨hab, hr⟩, ho, hx⟩ := hx
    have ho := ((hc.survivors a o).1 ho).1
    have hs := hp.behind x ⟨a, b, o, hab, ho, hx⟩
    cases x with
    | context c =>
        obtain ⟨f, hpay, hcap⟩ := external?_eq_context hx
        exact hmatches c hs fun d r he hmem => .captured hr ho hpay hcap he hmem
    | task t =>
        obtain ⟨cell, hpay, hmem, rfl⟩ := external?_eq_task hx
        exact hreg _ hs fun r ht heq => .awaited hr ho hpay hmem ht heq

/-- Whether one of them collects its garbage makes no difference. -/
theorem Twin.collect_right (hp : p.Twin R cur q) (registry : Registry) (hcur : ∀ t, cur = some t → ¬ (p.taskAt t).state.isFinished) :
    p.Twin (fun a b => R a b ∧ q.Reaches b) cur (q.collect registry).2 :=
  (hp.symm.collect registry fun t ht => by
    rw [show (q.taskAt t).state = (p.taskAt t).state from (congrArg Task.state (bare_taskAt hp.bare t) :)]
    exact hcur t ht).symm

/-! ## Waking and finishing tasks -/

theorem state_eq_of_bare (hb : q.bare = p.bare) (t : TaskId) : (q.taskAt t).state = (p.taskAt t).state :=
  (congrArg Task.state (bare_taskAt hb t) :)

/-- A task gets a register, and keeps its stack. -/
theorem Twin.setRegister (hp : p.Twin R cur q) (t : TaskId) {f g : Task → Task} {v w : Value} (hv : v.Pairs R w)
    (hb : ∀ a b : Task, b.bare = a.bare → (g b).bare = (f a).bare)
    (hf : ∀ a, (f a).register = v ∧ (f a).stack = a.stack ∧ (f a).contexts ⊆ a.contexts)
    (hg : ∀ b, (g b).register = w ∧ (g b).stack = b.stack)
    (hs : Active cur t (f (p.taskAt t)) → Active cur t (p.taskAt t)) : (p.modifyTask t f).Twin R cur (q.modifyTask t g) := by
  refine hp.modifyTask t hb (fun h => ?_) (fun h c hc => ?_) fun h => ?_
  · refine ⟨?_, ?_⟩
    · rwa [(hf _).1, (hg _).1]
    · rw [(hf _).2.1, (hg _).2]
      exact (hp.tasks t (hs h)).stack
  · exact hp.contexts t (hs h) c ((hf _).2.2 hc)
  · rwa [(hf _).1, (hg _).1]

theorem Twin.enqueue (hp : p.Twin R cur q) (t : TaskId) : (p.enqueue t).Twin R cur (q.enqueue t) := by
  exact hp.books (fun r => { r with queue := r.queue.push t }) (fun _ => rfl) fun _ => ⟨rfl, rfl, rfl, rfl, rfl⟩

theorem Twin.park (hp : p.Twin R cur q) (ht : Active cur t (p.taskAt t)) (reason : WaitReason) :
    (p.park t reason).Twin R cur (q.park t reason) := by
  have hm := hp.modifyTask_frame t (f := (·.park reason)) (fun _ _ h => (congrArg (Task.park · reason) h :))
    (fun _ => ⟨rfl, rfl, List.Subset.refl _⟩) fun _ => ht
  exact hm.books (fun r => { r with waiting := r.waiting.insert t }) (fun _ => rfl) fun _ => ⟨rfl, rfl, rfl, rfl, rfl⟩

theorem Twin.wake (hp : p.Twin R cur q) (t : TaskId) : (p.wake t).Twin R cur (q.wake t) := by
  unfold Process.wake
  rw [state_eq_of_bare hp.bare]
  split
  · exact hp
  · rename_i hun
    have hm := hp.modifyTask_frame t (f := fun t => { t with state := .running, reason := .notWaiting })
      (fun _ _ h => (congrArg (fun a : Task => { a with state := .running, reason := .notWaiting }) h :))
      (fun _ => ⟨rfl, rfl, List.Subset.refl _⟩) fun _ => .inl hun
    exact hm.books (fun r => { r with waiting := r.waiting.erase t, queue := r.queue.push t }) (fun _ => rfl) fun _ =>
      ⟨rfl, rfl, rfl, rfl, rfl⟩

theorem Twin.setError (hp : p.Twin R cur q) (c : ContextId) {e e' : Option Handle} (he : Option.Rel R e e') :
    (p.modifyContext c fun c => { c with error := e }).Twin R cur (q.modifyContext c fun c => { c with error := e' }) :=
  hp.modifyContext c (fun _ _ h => h) (fun h => ⟨h.receiver, h.locals, he⟩) fun _ => rfl

section
variable {v w : Value} (hp : p.Twin R cur q) (hv : v.Pairs R w)
include hp hv

theorem Twin.failTask (t : TaskId) : (p.failTask t v).Twin R cur (q.failTask t w) :=
  hp.setRegister t hv (fun _ _ h => (congrArg (fun a : Task => { a with state := .error }) h :))
    (fun _ => ⟨rfl, rfl, List.Subset.refl _⟩) (fun _ => ⟨rfl, rfl⟩) fun h => h.elim (fun h => absurd rfl h) .inr

theorem Twin.deliverError (t : TaskId) : (p.deliverError t v).Twin R cur (q.deliverError t w) := by
  have htop : (q.taskAt t).top? = (p.taskAt t).top? := (congrArg Task.top? (bare_taskAt hp.bare t) :)
  have hfail := hp.failTask hv t
  unfold Process.deliverError
  rw [htop]
  cases (p.taskAt t).top? with
  | none => exact hfail
  | some c =>
      cases hv with
      | object he => exact (hp.setError c (.some he)).wake t
      | _ => exact hfail

theorem Twin.deliver (failed : Bool) (d : Dependent) : (p.deliver failed v d).Twin R cur (q.deliver failed w d) := by
  unfold Process.deliver
  rw [state_eq_of_bare hp.bare]
  split
  · exact hp
  · split
    · exact hp.deliverError hv d.task
    · cases d.delivery with
      | result =>
          exact (hp.setRegister d.task (f := fun t => { t with register := v }) (g := fun t => { t with register := w }) hv
            (fun _ _ h => h) (fun _ => ⟨rfl, rfl, List.Subset.refl _⟩) (fun _ => ⟨rfl, rfl⟩) fun h => h).wake d.task
      | keep => exact hp.wake d.task

theorem Twin.deliverAll (failed : Bool) (ds : List Dependent) :
    (ds.foldl (fun p d => p.deliver failed v d) p).Twin R cur (ds.foldl (fun q d => q.deliver failed w d) q) := by
  induction ds generalizing p q with
  | nil => exact hp
  | cons d rest ih => exact ih (hp.deliver hv failed d)

end

theorem Twin.markReady (hp : p.Twin R cur q) (m : Option ModuleId) : (p.markReady m).Twin R cur (q.markReady m) := by
  cases m with
  | none => exact hp
  | some m =>
      exact hp.books (fun r => { r with modules := r.modules.insert m .ready }) (fun _ => rfl) fun _ =>
        ⟨rfl, rfl, rfl, rfl, rfl⟩

theorem Twin.releaseAll (cs : List ContextId) (hp : p.Twin R cur q) :
    (cs.foldl Process.releaseContext p).Twin R cur (cs.foldl Process.releaseContext q) := by
  induction cs generalizing p q with
  | nil => exact hp
  | cons c rest ih => exact ih (hp.releaseContext c)

theorem Twin.releaseTask (hp : p.Twin R cur q) (t : TaskId) : (p.releaseTask t).Twin R cur (q.releaseTask t) := by
  have hctx : (q.taskAt t).contexts = (p.taskAt t).contexts := (congrArg Task.contexts (bare_taskAt hp.bare t) :)
  have hm := hp.modifyTask_frame t (f := fun t => { t with contexts := [] })
    (fun _ _ h => (congrArg (fun a : Task => { a with contexts := [] }) h :))
    (fun _ => ⟨rfl, rfl, List.nil_subset _⟩) fun h => h
  unfold Process.releaseTask
  rw [hctx]
  exact hm.releaseAll _

theorem Twin.finish (hp : p.Twin R cur q) (t : TaskId) (hr : (p.taskAt t).register.Pairs R (q.taskAt t).register) :
    (p.finish t).Twin R cur (q.finish t) := by
  have hsame := bare_taskAt hp.bare t
  have hdependents : (q.taskAt t).dependents = (p.taskAt t).dependents := (congrArg Task.dependents hsame :)
  have hinitializes : (q.taskAt t).initializes = (p.taskAt t).initializes := (congrArg Task.initializes hsame :)
  have hclear := hp.modifyTask_frame t (f := fun t => { t with dependents := [], initializes := none })
    (fun _ _ h => (congrArg (fun a : Task => { a with dependents := [], initializes := none }) h :))
    (fun _ => ⟨rfl, rfl, List.Subset.refl _⟩) fun h => h
  have hready := hclear.markReady (p.taskAt t).initializes
  have hleft := hready.books (fun r => { r with waiting := r.waiting.erase t }) (fun _ => rfl) fun _ =>
    ⟨rfl, rfl, rfl, rfl, rfl⟩
  unfold Process.finish
  dsimp only
  rw [hdependents, hinitializes, state_eq_of_bare hp.bare]
  exact (hleft.releaseTask t).deliverAll hr _ _

/-! ## Starting tasks -/

theorem Twin.startTask (hp : p.Twin R cur q) (parent : Option TaskId) {v w : Value} (hv : v.Pairs R w)
    {f g : TaskId → Context} (hb : ∀ t, (g t).bare = (f t).bare) (hfg : ∀ t, (f t).Pairs R (g t))
    (hf : ∀ t d, (f t).previous = some d → Matches R p q d) :
    (p.startTask parent v f).2.Twin R cur (q.startTask parent w g).2 ∧
      (q.startTask parent w g).1 = (p.startTask parent v f).1 := by
  obtain ⟨hnew, ht⟩ := hp.newTask parent
  have ht : (⟨q.tasks.size⟩ : TaskId) = ⟨p.tasks.size⟩ := ht
  obtain ⟨hctx, hc, hmatches⟩ := hnew.newContext (hb ⟨p.tasks.size⟩) (hfg ⟨p.tasks.size⟩) (hf ⟨p.tasks.size⟩)
  refine ⟨?_, ht⟩
  rw [startTask_snd, startTask_snd, ht, hc]
  generalize ((p.newTask parent).2.newContext (f ⟨p.tasks.size⟩)).1 = c at hmatches
  refine hctx.modifyTask _ (fun _ _ h => (congrArg (fun a : Task => { a with contexts := [c] }) h :))
    (fun h => ⟨hv, (hctx.tasks _ h).stack⟩)
    (fun _ d hd => ?_) fun _ => hv
  rw [List.mem_singleton.1 hd]
  exact hmatches

theorem Twin.startCall (hp : p.Twin R cur q) (registry : Registry) (function : FunctionId) (capture : Option ContextId)
    (hcap : ∀ c, capture = some c → Matches R p q c) (start : Nat) (parent : Option TaskId) {v w x y : Value}
    (hv : v.Pairs R w) (hx : x.Pairs R y) :
    (p.startCall registry ⟨function, x, capture⟩ start v parent).2.Twin R cur
        (q.startCall registry ⟨function, y, capture⟩ start w parent).2 ∧
      (q.startCall registry ⟨function, y, capture⟩ start w parent).1
        = (p.startCall registry ⟨function, x, capture⟩ start v parent).1 :=
  hp.startTask parent hv (fun _ => rfl) (fun _ => ⟨hx, .empty, .none⟩) fun _ => hcap

theorem Twin.startModule (hp : p.Twin R cur q) (module : ModuleId) (parent : Option TaskId) :
    (p.startModule module parent).2.Twin R cur (q.startModule module parent).2 ∧
      (q.startModule module parent).1 = (p.startModule module parent).1 := by
  obtain ⟨hstart, ht⟩ := hp.startTask parent .none (f := fun task => { task, kind := .moduleRoot, module, cursor := 0 })
    (g := fun task => { task, kind := .moduleRoot, module, cursor := 0 }) (fun _ => rfl) (fun _ => ⟨.none, .empty, .none⟩)
    (fun _ _ h => by cases h)
  refine ⟨?_, ht⟩
  unfold Process.startModule
  dsimp only
  rw [ht]
  generalize (p.startTask parent .none _).1 = t at *
  have hm := hstart.modifyTask_frame t (f := fun task => { task with initializes := some module })
    (fun _ _ h => (congrArg (fun a : Task => { a with initializes := some module }) h :))
    (fun _ => ⟨rfl, rfl, List.Subset.refl _⟩) fun h => h
  exact hm.books (fun r => { r with modules := r.modules.insert module (.initializing t) }) (fun _ => rfl) fun _ =>
    ⟨rfl, rfl, rfl, rfl, rfl⟩

theorem Twin.newCarrier (hp : p.Twin R cur q) (parent : TaskId) :
    (p.newCarrier parent).2.Twin R cur (q.newCarrier parent).2 ∧ (q.newCarrier parent).1 = (p.newCarrier parent).1 := by
  obtain ⟨hnew, ht⟩ := hp.newTask (some parent)
  refine ⟨?_, ht⟩
  have hat : (p.newTask (some parent)).2.taskAt (p.newTask (some parent)).1 = { parent := some parent } := by
    rw [taskAt_newTask]
    exact if_pos rfl
  have hpark := hnew.park (t := (p.newTask (some parent)).1) (.inl (by rw [hat]; exact Bool.false_ne_true)) .onFuture
  unfold Process.newCarrier
  dsimp only
  rw [ht]
  exact hpark

end Process

end Spool
