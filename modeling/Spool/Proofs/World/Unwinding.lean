import Spool.Proofs.World.CallStack
import Spool.Proofs.World.Suspended

/-!
# The way of an error through a turn

A turn in which an error finds no handler is the last one of its task. The error goes from the contexts of the task to
those who wait for it, and if there is nobody, it is reported.
-/

namespace Spool

/-- A task that has failed with an error object. -/
def Task.failed (e : Handle) (t : Task) : Task := { t with contexts := [], register := .object e, state := .error }

namespace Process

variable {p p' q : Process} {t u x y : TaskId} {c : ContextId} {outer : List ContextId} {below : List TaskId}
  {position : Nat} {e : Handle}

/-! ## The next handler -/

/-- No context of the task has a handler. -/
def Unarmed (p : Process) (t : TaskId) : Prop := ∀ c ∈ (p.taskAt t).contexts, (p.contextAt c).handler = none

/-- The innermost context of the task that has a handler, with the contexts around it. -/
structure Catches (p : Process) (t : TaskId) (c : ContextId) (outer : List ContextId) (position : Nat) : Prop where
  innermost : ∃ inner, (p.taskAt t).contexts = inner ++ c :: outer ∧ ∀ d ∈ inner, (p.contextAt d).handler = none
  armed : (p.contextAt c).handler = some position

theorem unarmed_or_catches (p : Process) (t : TaskId) : p.Unarmed t ∨ ∃ c outer position, p.Catches t c outer position := by
  have hsplit : ∀ cs : List ContextId, (∀ c ∈ cs, (p.contextAt c).handler = none) ∨
      ∃ inner c outer position, cs = inner ++ c :: outer ∧ (∀ d ∈ inner, (p.contextAt d).handler = none) ∧
        (p.contextAt c).handler = some position := by
    intro cs
    induction cs with
    | nil => exact .inl (by simp)
    | cons c rest ih =>
        cases hc : (p.contextAt c).handler with
        | some position => exact .inr ⟨[], c, rest, position, rfl, by simp, hc⟩
        | none =>
            rcases ih with hnone | ⟨inner, d, outer, position, rfl, hinner, hd⟩
            · exact .inl (List.forall_mem_cons.2 ⟨hc, hnone⟩)
            · exact .inr ⟨c :: inner, d, outer, position, rfl, List.forall_mem_cons.2 ⟨hc, hinner⟩, hd⟩
  rcases hsplit (p.taskAt t).contexts with hnone | ⟨inner, c, outer, position, hcs, hinner, hc⟩
  · exact .inl hnone
  · exact .inr ⟨c, outer, position, ⟨inner, hcs, hinner⟩, hc⟩

/-- The way of an error from the task `t` to the task `x`, and the tasks it leaves behind: each of them works for the next
one, and has no handler. -/
inductive Way (p : Process) : TaskId → List TaskId → TaskId → Prop where
  | here (x : TaskId) : Way p x [] x
  | up {t u x : TaskId} {below : List TaskId} : p.Unarmed t → p.ParentOf t u → Way p u below x → Way p t (t :: below) x

/-- A way goes on to a handler or to a task that works for nobody. -/
theorem exists_way (hp : ∀ y u, y.index ≤ t.index → p.ParentOf y u → u.index < y.index) : ∃ below x, p.Way t below x ∧
    ((∃ c outer position, p.Catches x c outer position) ∨ p.Unarmed x ∧ (p.taskAt x).parent = none ∧ x.index ≤ t.index) := by
  -- those a task works for are older
  induction hn : t.index using Nat.strong_induction_on generalizing t with
  | _ n ih =>
      rcases p.unarmed_or_catches t with hun | hcatches
      · cases hparent : (p.taskAt t).parent with
        | none => exact ⟨[], t, .here t, .inr ⟨hun, hparent, Nat.le_of_eq hn⟩⟩
        | some u =>
            have hlt := hp t u (Nat.le_refl _) hparent
            obtain ⟨below, x, hway, hx⟩ := ih u.index (hn ▸ hlt) (fun y v hy hv => hp y v (by omega) hv) rfl
            refine ⟨t :: below, x, .up hun hparent hway, hx.imp_right fun ⟨hunx, hnone, hle⟩ => ⟨hunx, hnone, by omega⟩⟩
      · exact ⟨[], t, .here t, .inl hcatches⟩

/-! ## What a way depends on -/

/-- The task works for the same one, and its stack and its handlers are where they were. -/
structure Charted (x : TaskId) (p p' : Process) : Prop where
  parent : (p'.taskAt x).parent = (p.taskAt x).parent
  contexts : (p'.taskAt x).contexts = (p.taskAt x).contexts
  handlers : ∀ c ∈ (p.taskAt x).contexts, (p'.contextAt c).handler = (p.contextAt c).handler

theorem Charted.trans (h : Charted x p q) (h' : Charted x q p') : Charted x p p' :=
  ⟨h'.parent.trans h.parent, h'.contexts.trans h.contexts, fun c hc =>
    (h'.handlers c (h.contexts ▸ hc)).trans (h.handlers c hc)⟩

theorem charted_of_eq (ht : p'.tasks = p.tasks) (hc : p'.contexts = p.contexts) : Charted x p p' := by
  constructor <;> simp only [taskAt, contextAt, ht, hc, implies_true]

theorem Framed.charted (h : Framed x p p') : Charted x p p' :=
  ⟨congrArg (·.parent) h.task, h.stack, fun c hc => congrArg (·.handler) (h.contexts c hc)⟩

theorem Charted.unarmed (h : Charted x p p') (hx : p.Unarmed x) : p'.Unarmed x := by
  intro c hc
  rw [h.contexts] at hc
  exact (h.handlers c hc).trans (hx c hc)

theorem Charted.catches (h : Charted x p p') (hx : p.Catches x c outer position) : p'.Catches x c outer position := by
  obtain ⟨⟨inner, hcs, hinner⟩, hc⟩ := hx
  have hmem : ∀ d, d ∈ inner ++ c :: outer → (p'.contextAt d).handler = (p.contextAt d).handler := fun d hd =>
    h.handlers d (hcs ▸ hd)
  exact ⟨⟨inner, h.contexts.trans hcs, fun d hd => (hmem d (by simp [hd])).trans (hinner d hd)⟩,
    (hmem c (by simp)).trans hc⟩

/-- Whom a task works for is older. -/
theorem Way.index_le (h : p.Way t below x) (hp : ∀ y u, y.index ≤ t.index → p.ParentOf y u → u.index < y.index) :
    ∀ y ∈ x :: below, y.index ≤ t.index := by
  induction h with
  | here x => simp
  | @up t u x below _ hparent _ ih =>
      have hlt := hp _ _ (Nat.le_refl _) hparent
      have hrest := ih fun y v hy hv => hp y v (by omega) hv
      intro y hy
      rw [List.mem_cons, List.mem_cons] at hy
      rcases hy with rfl | rfl | hy
      · exact Nat.le_trans (hrest y List.mem_cons_self) (Nat.le_of_lt hlt)
      · exact Nat.le_refl _
      · exact Nat.le_trans (hrest y (List.mem_cons_of_mem _ hy)) (Nat.le_of_lt hlt)

/-! ## Tasks that have failed -/

/-- The task has failed with the error object, and has no contexts left. -/
structure Failed (e : Handle) (t : TaskId) (p : Process) : Prop where
  state : (p.taskAt t).state = .error
  register : (p.taskAt t).register = .object e
  contexts : (p.taskAt t).contexts = []

theorem Failed.congr (h : p.Failed e t) (ht : p'.taskAt t = p.taskAt t) : p'.Failed e t :=
  ⟨ht ▸ h.state, ht ▸ h.register, ht ▸ h.contexts⟩

theorem Failed.isFinished (h : p.Failed e t) : (p.taskAt t).state.isFinished := h.state ▸ rfl

section
variable {K : TaskId → Prop}

/-- The end of another task is nothing to one that has failed. -/
theorem Ends.failed (h : p.Ends K t q p') (hne : y ≠ t) (hy : p.Failed e y) : p'.Failed e y := by
  obtain ⟨hrest, hregister, hstate⟩ := h.deeds.others y hne (index_lt_of_isFinished hy.isFinished)
  have hq : q.Failed e y := ⟨hstate.trans hy.state, hregister.trans hy.register, hrest.contexts.trans hy.contexts⟩
  have hpass := omits_finish h.arena hne.symm (h.schedule.not_listed_of_isFinished hq.isFinished)
  refine (hq.congr hpass.task).congr ?_
  simp only [taskAt, h.tasks]

theorem Ends.failed_self (h : p.Ends K t q p') (hstate : (q.taskAt t).state = .error)
    (hregister : (q.taskAt t).register = .object e) : p'.Failed e t := by
  have hself := taskAt_finish_self h.arena (h.schedule.not_listed_of_isFinished h.finished)
  have hrow : p'.taskAt t = (q.taskAt t).cleared := by
    rw [← hself]
    simp only [taskAt, h.tasks]
  exact ⟨hrow ▸ hstate, hrow ▸ hregister, hrow ▸ rfl⟩

/-- Whoever has waited for a task that has failed with an error object gets the object. -/
theorem Ends.alerted (h : p.Ends K t q p') (hstate : (q.taskAt t).state = .error)
    (hregister : (q.taskAt t).register = .object e) {d : Dependent} (hd : d ∈ (q.taskAt t).dependents) :
    ∃ top, Alerted d.task top e p' := by
  have hready := h.schedule.ready d.task (mem_scheduled hd)
  have hne : t ≠ d.task := fun heq => (h.schedule.running t rfl).2 (heq ▸ mem_scheduled hd)
  obtain ⟨q₁, ha₁, hbefore, hafter⟩ := finish_split h.arena hd hne (h.schedule.nodup_dependents t)
  have hrow := hbefore.task ▸ hready.taskAt
  rw [hstate, hregister, decide_eq_true rfl] at hafter
  have htells : true → (Value.object e).handle?.isSome ∧ (q₁.taskAt d.task).contexts ≠ [] := fun _ => ⟨rfl, hrow.2⟩
  rcases deliver_eq hrow.1 htells with
    ⟨_, top, e', htop, he, heq⟩ | ⟨hf, _⟩ | ⟨hf, _⟩
  · cases he
    have hat := contextAt_modifyContext q₁ top (fun c => { c with error := some e }) top
    rw [if_pos ⟨rfl, ha₁.index_lt (mem_of_top? htop)⟩] at hat
    have htold : Alerted d.task top e (q₁.deliver true (.object e) d) := by
      refine ⟨?_, (top?_deliver q₁ true (.object e) d d.task).trans htop, ?_⟩
      · rw [heq, wake_eq (p := q₁.modifyContext top _) hrow.1]
        simp
      · rw [heq, contextAt_wake, hat]
    have hfin := htold.rests hafter.rests (hafter.queued.2 htold.queued)
    exact ⟨top, hfin.congr h.tasks h.contexts (h.queue ▸ hfin.queued)⟩
  · cases hf
  · cases hf

end

end Process

namespace Machine

variable {m n m' : Machine} {r : Registry} {t x : TaskId} {c top : ContextId} {outer : List ContextId} {position : Nat}
  {e : Handle}

/-- The running task has an error to handle. -/
def Struck (m : Machine) (e : Handle) : Prop := ∃ top, m.top? = some top ∧ (m.process.contextAt top).error = some e

theorem Struck.contexts_ne_nil (h : m.Struck e) : m.current.contexts ≠ [] := by
  obtain ⟨top, htop, _⟩ := h
  exact List.ne_nil_of_mem (Process.mem_of_top? htop)

theorem Struck.index_lt (h : m.Struck e) : m.task.index < m.process.tasks.size :=
  Process.index_lt_of_top? h.choose_spec.1

theorem advance_of_struck (h : m.Struck e) : advance m = unwindThrough e m.current.contexts m := by
  obtain ⟨top, htop, he⟩ := h
  have hadv := advancing_advance m
  generalize advance m = result at hadv
  cases hadv with
  | bare hnone => cases htop.symm.trans hnone
  | unwind top' e' htop' he' =>
      cases htop.symm.trans htop'
      cases he.symm.trans he'
      rfl
  | full top' n htop' hnone =>
      cases htop.symm.trans htop'
      cases he.symm.trans hnone
  | ended top' n htop' hnone =>
      cases htop.symm.trans htop'
      cases he.symm.trans hnone
  | due n top' i hdue =>
      cases htop.symm.trans hdue.innermost
      cases he.symm.trans hdue.clear

/-! ## Errors that are caught -/

/-- A context of the task has caught the error. It is the innermost one now, and the task goes on in it at its handler,
which is gone. -/
structure Caught (e : Handle) (x : TaskId) (c : ContextId) (outer : List ContextId) (position : Nat) (m : Machine) : Prop where
  task : m.task = x
  contexts : m.current.contexts = c :: outer
  register : m.register = .object e
  cursor : (m.process.contextAt c).cursor = position
  handler : (m.process.contextAt c).handler = none
  error : (m.process.contextAt c).error = none

theorem caught_unwindThrough (e : Handle) (inner : List ContextId) (m : Machine) (ht : m.task.index < m.process.tasks.size)
    (hinner : ∀ d ∈ inner, (m.process.contextAt d).handler = none) (hh : (m.process.contextAt c).handler = some position) :
    ∃ n, unwindThrough e (inner ++ c :: outer) m = (true, n) ∧ n.Caught e m.task c outer position := by
  have hrun := unwindThrough_append e (c :: outer) inner m hinner
  have hhandler := (handler_passingAll inner c m).trans hh
  obtain ⟨contexts, free, hpassed⟩ := m.passingAll_frame inner
  rw [hpassed] at hrun hhandler
  rw [unwindThrough_cons, hhandler] at hrun
  have hcontext := Process.contextAt_modifyContext { m.process with contexts := contexts, freeContexts := free } c
    (fun c => { c with error := none, handler := none, cursor := position }) c
  rw [if_pos ⟨rfl, Process.index_lt_of_handler hhandler⟩] at hcontext
  have hat := current_modifyCurrent (m := catching { m with process := { m.process with
    contexts := contexts, freeContexts := free } } c position) ht fun t => { t with contexts := c :: outer, register := .object e }
  exact ⟨_, hrun, rfl, congrArg Task.contexts hat, congrArg Task.register hat, congrArg Context.cursor hcontext,
    congrArg Context.handler hcontext, congrArg Context.error hcontext⟩

/-- Nothing but tasks and contexts changes. -/
theorem unwindThrough_frame (e : Handle) (cs : List ContextId) : ∀ m : Machine, ∃ tasks contexts free,
    (unwindThrough e cs m).2 = { m with process := { m.process with
      tasks := tasks, contexts := contexts, freeContexts := free } } := by
  induction cs with
  | nil => exact fun m => ⟨_, m.process.contexts, m.process.freeContexts, rfl⟩
  | cons c outer ih =>
      intro m
      rw [unwindThrough_cons]
      cases (m.process.contextAt c).handler with
      | some position => exact ⟨_, _, m.process.freeContexts, rfl⟩
      | none =>
          obtain ⟨tasks, contexts, free, heq⟩ := ih (m.passing c)
          obtain ⟨contexts', free', hfree⟩ :=
            Process.releaseContext_eq (m.process.modifyContext c fun c => { c with error := none }) c
          refine ⟨tasks, contexts, free, heq.trans ?_⟩
          rw [passing, hfree]
          rfl

/-- The nearest handler gets the error. -/
theorem caught_advance (h : m.Struck e) (hc : m.process.Catches m.task c outer position) :
    ∃ n, advance m = (true, n) ∧ n.Caught e m.task c outer position := by
  obtain ⟨⟨inner, hcs, hinner⟩, hh⟩ := hc
  rw [advance_of_struck h, show m.current.contexts = _ from hcs]
  exact caught_unwindThrough e inner m h.index_lt hinner hh

/-! ## Errors that are not caught -/

theorem unwindThrough_of_unarmed (e : Handle) (cs : List ContextId) (m : Machine)
    (hcs : ∀ c ∈ cs, (m.process.contextAt c).handler = none) : ∃ contexts free, unwindThrough e cs m = (false, { m with
      process := { m.process.modifyTask m.task (Task.failed e) with contexts := contexts, freeContexts := free } }) := by
  have hrun := unwindThrough_append e [] cs m hcs
  obtain ⟨contexts, free, hpassed⟩ := m.passingAll_frame cs
  rw [List.append_nil, hpassed] at hrun
  exact ⟨contexts, free, hrun⟩

/-- The running task has failed with an error that it has not caught. -/
theorem advance_of_unarmed (h : m.Struck e) (hun : m.process.Unarmed m.task) : ∃ contexts free, advance m = (false, { m with
    process := { m.process.modifyTask m.task (Task.failed e) with contexts := contexts, freeContexts := free } }) := by
  rw [advance_of_struck h]
  exact unwindThrough_of_unarmed e m.current.contexts m hun

theorem taskAt_of_unarmed (h : m.Struck e) (hun : m.process.Unarmed m.task) (hstop : advance m = (false, n)) :
    n.process.taskAt m.task = m.current.failed e := by
  obtain ⟨contexts, free, hadv⟩ := advance_of_unarmed h hun
  obtain rfl : _ = n := congrArg Prod.snd (hadv.symm.trans hstop)
  exact current_modifyCurrent h.index_lt (Task.failed e)

/-- The task is finished, and those who have waited for it are told. -/
theorem Ends.conclude {g : Outlook} (h : m.Ends n) (hend : n.Ended g t) : ∃ (state : TaskState) (v : Value), state.Reaches v ∧
    m.Becomes { m.view with roster := m.view.roster.conclude m.task state v } (Machine.conclude n).2 := by
  obtain ⟨state, v, hreach, hlast⟩ := h
  have htask : n.task = m.task := Ends.task ⟨state, v, hreach, hlast⟩
  have hconclude := becomes_conclude hend
  rw [hlast.view, htask] at hconclude
  exact ⟨state, v, hreach, hlast.trans hconclude⟩

theorem conclude_of_unlinked (hfin : m.current.state.isFinished) (hremote : m.current.remote = none) :
    conclude m = finishTask m.task m := by
  rw [conclude_of_finished hfin, hremote]

/-! ## Reports -/

/-- The text of a report depends on the heap and the registry. -/
theorem renderError_congr (hh : m'.process.heap = m.process.heap) (hr : m'.host.registry = m.host.registry) (v : Value) :
    m'.renderError v = m.renderError v := by
  let k : Machine := { m with
    host := { m.host with registry := m'.host.registry }
    process := { m.process with heap := m'.process.heap } }
  have hk : k = m := by
    simp only [k, hh, hr]
  calc m'.renderError v = k.renderError v := rfl
    _ = m.renderError v := by rw [hk]

/-- What is known outside of the end of a task that has failed: a report, or nothing. -/
structure Announces (m : Machine) (e : Handle) (reported : Bool) (m' : Machine) : Prop where
  err : m'.host.err = m.host.err ++ if reported then m.renderError (.object e) else ""
  uncaught : m'.process.uncaught = m.process.uncaught + if reported then 1 else 0

theorem announces_finishTask (hregister : (m.process.taskAt t).register = .object e) :
    m.Announces e (Process.isUnseenFailure (m.process.taskAt t)) (finishTask t m).2 := by
  obtain ⟨_, _, _, _, _, _, hfinish⟩ := Process.finish_changes m.process t
  rw [finishTask_eq, hfinish, hregister]
  cases Process.isUnseenFailure (m.process.taskAt t) with
  | false => exact ⟨(String.append_empty).symm, rfl⟩
  | true =>
      refine ⟨?_, rfl⟩
      rw [if_pos rfl]
      exact congrArg (m.host.err ++ ·) (renderError_congr rfl rfl (.object e))

theorem Going.ended_advance {g : Outlook} (hgo : m.Going g (some t)) (hstop : advance m = (false, n))
    (hfin : (n.process.taskAt t).state.isFinished) : n.Ended g t := by
  have hstopped := advances_advance hgo
  unfold Advances at hstopped
  rw [hstop] at hstopped
  exact hstopped.resolve_left fun hrest => hrest.unfinished hfin

/-- A task that fails is told of to those who wait for it, or reported. -/
theorem ends_of_unarmed (hm : m.Sturdy r) {g : Outlook} (hgo : m.Going g (some t)) (h : m.Struck e) (hun : m.process.Unarmed t)
    (hremote : m.current.remote = none) (hstop : advance m = (false, n)) : ∃ q K,
      m.process.Ends K t q (conclude n).2.process ∧ q.taskAt t = (m.process.taskAt t).failed e ∧
      m.Announces e (Process.isUnseenFailure ((m.process.taskAt t).failed e)) (conclude n).2 := by
  obtain ⟨rfl, _⟩ := hgo.current
  obtain ⟨contexts, free, hadv⟩ := advance_of_unarmed h hun
  have hn : n = { m with process := { m.process.modifyTask m.task (Task.failed e) with
      contexts := contexts, freeContexts := free } } := congrArg Prod.snd (hstop.symm.trans hadv)
  have hrow := taskAt_of_unarmed h hun hstop
  have htask : n.task = m.task := by rw [hn]
  have hfin : (n.process.taskAt m.task).state.isFinished := congrArg (·.state.isFinished) hrow
  have hspares := spares_paces hm (paces_advance hm)
  have hsturdy := sturdy_paces hm (paces_advance hm)
  rw [hstop] at hspares hsturdy
  have hconclude : conclude n = finishTask m.task n := by
    have hcurrent : n.current = m.current.failed e := by
      rw [current, htask]
      exact hrow
    rw [conclude_of_unlinked (congrArg (·.state.isFinished) hcurrent) ((congrArg Task.remote hcurrent).trans hremote), htask]
  have hannounced := announces_finishTask (congrArg Task.register hrow)
  rw [hrow, ← hconclude] at hannounced
  have hends := ends_finishTask hspares hsturdy.firm.arena (hgo.ended_advance hstop hfin).inv.intact.schedule hfin
  rw [← hconclude] at hends
  refine ⟨n.process, _, hends, hrow, ?_, ?_⟩
  · have hsame : n.renderError = m.renderError := funext fun v => renderError_congr (by rw [hn]; rfl) (by rw [hn]) v
    rw [← hsame, show m.host.err = n.host.err by rw [hn]]
    exact hannounced.err
  · rw [show m.process.uncaught = n.process.uncaught by rw [hn]; rfl]
    exact hannounced.uncaught

end Machine

end Spool
