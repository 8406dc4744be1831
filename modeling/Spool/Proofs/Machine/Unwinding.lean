import Spool.Proofs.World.Unwinding

/-!
# The contexts that an error leaves

On its way outward an error leaves contexts without a handler. They are given back, except for those that something still
refers to, and the others stay as they are up to the one that has caught the error.
-/

namespace Spool

/-- The context when an error has left it. Something that refers to it finds its variables there. -/
def Context.left (x : Context) : Context :=
  if x.pinned then { x with error := none } else { x with locals := {}, error := none, receiver := .none }

@[simp] theorem Context.pinned_left (x : Context) : x.left.pinned = x.pinned := by
  unfold Context.left
  split <;> rfl

theorem Context.left_of_pinned {x : Context} (h : x.pinned) : x.left = { x with error := none } := if_pos h

theorem Context.left_of_not_pinned {x : Context} (h : x.pinned = false) :
    x.left = { x with locals := {}, error := none, receiver := .none } := if_neg (by simp [h])

namespace Process

variable {c : ContextId}

/-- A change that a context outside of the table would not show. -/
theorem contextAt_modifyContext_of_default {f : Context → Context} (hf : f default = default) (p : Process)
    (c d : ContextId) : (p.modifyContext c f).contextAt d = if c = d then f (p.contextAt d) else p.contextAt d := by
  rw [contextAt_modifyContext]
  by_cases hlt : d.index < p.contexts.size
  · simp [hlt]
  · simp [hlt, contextAt_eq_default (Nat.le_of_not_lt hlt), hf]

theorem releaseContext_of_pinned {p : Process} (h : (p.contextAt c).pinned) : p.releaseContext c = p := if_pos h

theorem releaseContext_of_not_pinned {p : Process} (h : (p.contextAt c).pinned = false) :
    p.releaseContext c = { p.modifyContext c fun c => { c with locals := {}, error := none, receiver := .none } with
      freeContexts := c :: p.freeContexts } := if_neg (by simp [h])

end Process

namespace Machine

variable {m n : Machine} {e : Handle} {c d : ContextId} {cs inner outer : List ContextId} {position : Nat}

/-! ## Leaving one context -/

theorem pinned_modifyContext_error (p : Process) (c : ContextId) :
    ((p.modifyContext c fun c => { c with error := none }).contextAt c).pinned = (p.contextAt c).pinned := by
  rw [Process.contextAt_modifyContext]
  split <;> rfl

theorem contextAt_passing (m : Machine) (c d : ContextId) :
    (m.passing c).process.contextAt d = if c = d then (m.process.contextAt d).left else m.process.contextAt d := by
  have hclear := Process.contextAt_modifyContext_of_default (f := fun c => { c with error := none }) rfl m.process c d
  have hpinned := pinned_modifyContext_error m.process c
  unfold passing
  cases hp : (m.process.contextAt c).pinned with
  | true =>
      rw [Process.releaseContext_of_pinned (hpinned.trans hp)]
      refine hclear.trans ?_
      split
      · rename_i hcd
        rw [Context.left_of_pinned (hcd ▸ hp)]
      · rfl
  | false =>
      rw [Process.releaseContext_of_not_pinned (hpinned.trans hp)]
      refine (Process.contextAt_modifyContext_of_default
        (f := fun c => { c with locals := {}, error := none, receiver := .none }) rfl _ c d).trans ?_
      rw [hclear]
      split
      · rename_i hcd
        rw [Context.left_of_not_pinned (hcd ▸ hp)]
      · rfl

theorem freeContexts_passing (m : Machine) (c : ContextId) : (m.passing c).process.freeContexts
    = if (m.process.contextAt c).pinned then m.process.freeContexts else c :: m.process.freeContexts := by
  have hpinned := pinned_modifyContext_error m.process c
  unfold passing
  cases hp : (m.process.contextAt c).pinned with
  | true =>
      rw [Process.releaseContext_of_pinned (hpinned.trans hp)]
      rfl
  | false =>
      rw [Process.releaseContext_of_not_pinned (hpinned.trans hp)]
      rfl

/-! ## Leaving all contexts without a handler -/

theorem contextAt_passingAll (cs : List ContextId) : ∀ m : Machine, cs.Nodup → ∀ d,
    (m.passingAll cs).process.contextAt d = if d ∈ cs then (m.process.contextAt d).left else m.process.contextAt d := by
  induction cs with
  | nil => exact fun m _ d => (if_neg List.not_mem_nil).symm
  | cons c rest ih =>
      intro m hn d
      obtain ⟨hc, hrest⟩ := List.nodup_cons.1 hn
      refine (ih (m.passing c) hrest d).trans ?_
      rw [contextAt_passing]
      by_cases hcd : c = d
      · subst hcd
        simp [hc]
      · simp [hcd, Ne.symm hcd]

/-- The free ones, the last one left first. -/
theorem freeContexts_passingAll (cs : List ContextId) : ∀ m : Machine, (m.passingAll cs).process.freeContexts
    = (cs.filter fun c => !(m.process.contextAt c).pinned).reverse ++ m.process.freeContexts := by
  induction cs with
  | nil => exact fun _ => rfl
  | cons c rest ih =>
      intro m
      have hpinned : ∀ d, ((m.passing c).process.contextAt d).pinned = (m.process.contextAt d).pinned := by
        intro d
        rw [contextAt_passing]
        split
        · exact Context.pinned_left _
        · rfl
      refine (ih (m.passing c)).trans ?_
      simp only [hpinned, freeContexts_passing]
      cases hp : (m.process.contextAt c).pinned <;> simp [hp]

/-! ## The whole way -/

/-- The error has left the contexts `cs` of the running task and no others, and nothing but its task and contexts has
changed. -/
structure Leaves (m : Machine) (cs : List ContextId) (n : Machine) : Prop where
  /-- A context that nothing refers to is emptied, and can be used again. -/
  emptied : ∀ d ∈ cs, (m.process.contextAt d).pinned = false →
    n.process.contextAt d = { m.process.contextAt d with locals := {}, error := none, receiver := .none } ∧
      n.process.freeContexts.count d = 1
  /-- A context that something refers to keeps its variables. -/
  kept : ∀ d ∈ cs, (m.process.contextAt d).pinned →
    n.process.contextAt d = { m.process.contextAt d with error := none } ∧ d ∉ n.process.freeContexts
  free : ∀ d ∉ cs, n.process.freeContexts.count d = m.process.freeContexts.count d
  tasks : ∀ x, x ≠ m.task → n.process.taskAt x = m.process.taskAt x
  frame : n = { m with process := { m.process with
    tasks := n.process.tasks, contexts := n.process.contexts, freeContexts := n.process.freeContexts } }

theorem taskAt_modifyCurrent_other (m : Machine) (f : Task → Task) {x : TaskId} (hne : x ≠ m.task) :
    (modifyCurrent f m).2.process.taskAt x = m.process.taskAt x := by
  change (m.process.modifyTask m.task f).taskAt x = _
  rw [Process.taskAt_modifyTask, if_neg fun h => hne h.1.symm]

theorem leaves_of_passingAll (hn : cs.Nodup) (hfree : ∀ c ∈ cs, c ∉ m.process.freeContexts)
    (hcontexts : ∀ d ∈ cs, n.process.contextAt d = (m.passingAll cs).process.contextAt d)
    (hlist : n.process.freeContexts = (m.passingAll cs).process.freeContexts)
    (htasks : ∀ x, x ≠ m.task → n.process.taskAt x = m.process.taskAt x)
    (hframe : n = { m with process := { m.process with
      tasks := n.process.tasks, contexts := n.process.contexts, freeContexts := n.process.freeContexts } }) :
    m.Leaves cs n := by
  have hat : ∀ d ∈ cs, n.process.contextAt d = (m.process.contextAt d).left := by
    intro d hd
    rw [hcontexts d hd, contextAt_passingAll cs m hn, if_pos hd]
  have hcount : ∀ d, n.process.freeContexts.count d
      = (cs.filter fun c => !(m.process.contextAt c).pinned).count d + m.process.freeContexts.count d := by
    intro d
    rw [hlist, freeContexts_passingAll, List.count_append, List.count_reverse]
  constructor
  case emptied =>
    intro d hd hp
    refine ⟨(hat d hd).trans (Context.left_of_not_pinned hp), ?_⟩
    have hmem : d ∈ cs.filter fun c => !(m.process.contextAt c).pinned := List.mem_filter.2 ⟨hd, by simp [hp]⟩
    rw [hcount, List.count_eq_one_of_mem (hn.filter _) hmem, List.count_eq_zero_of_not_mem (hfree d hd)]
  case kept =>
    intro d hd hp
    refine ⟨(hat d hd).trans (Context.left_of_pinned hp), ?_⟩
    rw [hlist, freeContexts_passingAll]
    simp [hp, hfree d hd]
  case free =>
    intro d hd
    rw [hcount, List.count_eq_zero_of_not_mem fun h => hd (List.mem_of_mem_filter h), Nat.zero_add]
  case tasks => exact htasks
  case frame => exact hframe

/-- The contexts inside of the nearest handler are left, and the task goes on there. -/
theorem leaves_of_caught (ht : m.task.index < m.process.tasks.size) (hn : (inner ++ c :: outer).Nodup)
    (hfree : ∀ d ∈ inner, d ∉ m.process.freeContexts) (hinner : ∀ d ∈ inner, (m.process.contextAt d).handler = none)
    (hh : (m.process.contextAt c).handler = some position) :
    ∃ n, unwindThrough e (inner ++ c :: outer) m = (true, n) ∧ m.Leaves inner n ∧
      n.current = { m.current with contexts := c :: outer, register := .object e } ∧
      n.process.contextAt c = { m.process.contextAt c with error := none, handler := none, cursor := position } ∧
      ∀ d, d ∉ inner → d ≠ c → n.process.contextAt d = m.process.contextAt d := by
  obtain ⟨hn', -, hdisjoint⟩ := List.nodup_append.1 hn
  have hc : c ∉ inner := fun hmem => hdisjoint c hmem c List.mem_cons_self rfl
  have hat := contextAt_passingAll inner m hn'
  have hrun := unwindThrough_append e (c :: outer) inner m hinner
  have hleaves := fun n => leaves_of_passingAll (m := m) (n := n) hn' hfree
  obtain ⟨contexts, free, hpassed⟩ := m.passingAll_frame inner
  generalize m.passingAll inner = k at hat hrun hpassed hleaves
  have hhandler : (k.process.contextAt c).handler = some position := by rw [hat, if_neg hc, hh]
  have hlt := Process.index_lt_of_handler hhandler
  let n := (modifyCurrent (fun t => { t with contexts := c :: outer, register := .object e }) (k.catching c position)).2
  have hcaught : ∀ d, n.process.contextAt d = if c = d
      then { k.process.contextAt d with error := none, handler := none, cursor := position }
      else k.process.contextAt d := by
    intro d
    refine (Process.contextAt_modifyContext k.process c
      (fun c => { c with error := none, handler := none, cursor := position }) d).trans ?_
    by_cases hcd : c = d
    · subst hcd
      simp [hlt]
    · simp [hcd]
  rw [unwindThrough_cons, hhandler] at hrun
  subst hpassed
  refine ⟨n, hrun, hleaves _ ?_ rfl ?_ rfl, ?_, ?_, ?_⟩
  · intro d hd
    rw [hcaught, if_neg fun hcd => hc (Eq.subst hcd.symm hd)]
  · exact fun x hx => taskAt_modifyCurrent_other _ _ hx
  · exact current_modifyCurrent ht _
  · rw [hcaught, if_pos rfl, hat, if_neg hc]
  · intro d hd hne
    rw [hcaught, if_neg (Ne.symm hne), hat, if_neg hd]

/-- If there is no handler, all contexts are left. -/
theorem leaves_of_unarmed (ht : m.task.index < m.process.tasks.size) (hn : cs.Nodup)
    (hfree : ∀ d ∈ cs, d ∉ m.process.freeContexts) (hcs : ∀ d ∈ cs, (m.process.contextAt d).handler = none) :
    ∃ n, unwindThrough e cs m = (false, n) ∧ m.Leaves cs n ∧
      n.current = { m.current with contexts := [], register := .object e, state := .error } ∧
      ∀ d ∉ cs, n.process.contextAt d = m.process.contextAt d := by
  have hat := contextAt_passingAll cs m hn
  have hrun := unwindThrough_append e [] cs m hcs
  have hleaves := fun n => leaves_of_passingAll (m := m) (n := n) hn hfree
  obtain ⟨contexts, free, hpassed⟩ := m.passingAll_frame cs
  generalize m.passingAll cs = k at hat hrun hpassed hleaves
  rw [List.append_nil] at hrun
  subst hpassed
  refine ⟨_, hrun, hleaves _ (fun _ _ => rfl) rfl ?_ rfl, ?_, ?_⟩
  · exact fun x hx => taskAt_modifyCurrent_other _ _ hx
  · exact current_modifyCurrent ht _
  · intro d hd
    exact (hat d).trans (if_neg hd)

/-- An error leaves the contexts inside of the nearest handler. The task goes on there with the error in its register,
and the contexts around are as they were. If there is no handler, the error leaves all contexts and the task has failed. -/
theorem unwind_exact (hn : m.current.contexts.Nodup) (hfree : ∀ c ∈ m.current.contexts, c ∉ m.process.freeContexts)
    (h : m.Struck e) :
    advance m = unwind e m ∧
      (∀ inner c outer position, m.current.contexts = inner ++ c :: outer →
        (∀ d ∈ inner, (m.process.contextAt d).handler = none) → (m.process.contextAt c).handler = some position →
        ∃ n, unwind e m = (true, n) ∧ m.Leaves inner n ∧
          n.current = { m.current with contexts := c :: outer, register := .object e } ∧
          n.process.contextAt c = { m.process.contextAt c with error := none, handler := none, cursor := position } ∧
          ∀ d, d ∉ inner → d ≠ c → n.process.contextAt d = m.process.contextAt d) ∧
      (m.process.Unarmed m.task → ∃ n, unwind e m = (false, n) ∧ m.Leaves m.current.contexts n ∧
        n.current = { m.current with contexts := [], register := .object e, state := .error } ∧
        ∀ d ∉ m.current.contexts, n.process.contextAt d = m.process.contextAt d) := by
  refine ⟨advance_of_struck h, ?_, fun hun => leaves_of_unarmed h.index_lt hn hfree hun⟩
  intro inner c outer position hcs hinner hh
  rw [show unwind e m = unwindThrough e m.current.contexts m from rfl, hcs]
  rw [hcs] at hn hfree
  exact leaves_of_caught h.index_lt hn (fun d hd => hfree d (List.mem_append_left _ hd)) hinner hh

/-- A task whose innermost context has an error. A closure refers to the context around it, and the outermost one has a
handler. -/
def fleeing : Machine where
  host := {}
  task := ⟨0⟩
  process :=
    { id := ⟨1⟩
      heap := Heap.new {}
      tasks := #[{ state := .running, contexts := [⟨2⟩, ⟨1⟩, ⟨0⟩], stack := [.int 7] }]
      contexts := #[
        { task := ⟨0⟩, kind := .function, module := ⟨0⟩, cursor := 3, handler := some 5 },
        { task := ⟨0⟩, kind := .function, module := ⟨0⟩, cursor := 2, pinned := true },
        { task := ⟨0⟩, kind := .function, module := ⟨0⟩, cursor := 4, error := some ⟨6, 0⟩ },
        default]
      freeContexts := [⟨3⟩] }

theorem unwind_exact_fleeing : ∃ n, unwind ⟨6, 0⟩ fleeing = (true, n) ∧ n.current.contexts = [⟨0⟩] ∧
    n.current.stack = [.int 7] ∧ (n.process.contextAt ⟨0⟩).cursor = 5 ∧
    n.process.freeContexts.count ⟨2⟩ = 1 ∧ ⟨1⟩ ∉ n.process.freeContexts := by
  have h := unwind_exact (m := fleeing) (e := ⟨6, 0⟩) (by decide) (by decide) ⟨⟨2⟩, rfl, rfl⟩
  obtain ⟨n, hrun, hleaves, hcurrent, hcaught, _⟩ := h.2.1 [⟨2⟩, ⟨1⟩] ⟨0⟩ [] 5 rfl (by decide) rfl
  exact ⟨n, hrun, congrArg Task.contexts hcurrent, congrArg Task.stack hcurrent, congrArg Context.cursor hcaught,
    (hleaves.emptied ⟨2⟩ (by decide) rfl).2, (hleaves.kept ⟨1⟩ (by decide) rfl).2⟩

end Machine

end Spool
