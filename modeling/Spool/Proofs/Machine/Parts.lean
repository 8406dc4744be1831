import Spool.Machine.Tick

/-!
# Parts of longer actions

The ends of some actions have names of their own here, so that each is spoken of once. The equations say what an action does
from a given state on, when its first steps cannot fail.
-/

namespace Spool.Machine

/-! ## Ends of actions -/

/-- The method that the class of a value has, bound to the value. -/
def boundMethod (target : Value) (name : String) : Act Machine Value := do
  let m ← get
  match m.process.heap.classOf? target with
  | none => throw (.noMember "none" name)
  | some c =>
    match m.host.registry.findMethod? c name with
    | some function => newBound { function, receiver := target }
    | none => throw (.noMember (m.typeName target) name)

/-- Puts one class under another. -/
def reparent (c d : ClassId) : Act Machine Value := do
  match (← get).host.registry.rebase c d with
  | .ok registry =>
    modifyHost fun h => { h with registry }
    return .none
  | .error e => throw (.inheritance e.text)

/-- Starts the process that an object stands for, with the function that it holds. -/
def launchEntry (r : Handle) (o : Object) (argument : Value) : Act Machine Value :=
  match o.member? "function" with
  | none => throw (.message "process has no entry function")
  | some callee => do
    let (id, future) ← spawn callee argument
    onHeap (Heap.putPayload r (.process (some id)))
    return future

/-- Does the instruction that a context of the machine has come to. -/
def performNext (m : Machine) (top : ContextId) : StateM Machine Bool :=
  match (m.host.registry.moduleAt (m.process.contextAt top).module).tape.instructions[(m.process.contextAt top).cursor]? with
  | none => do complete; return false
  | some i => perform top (m.process.contextAt top).cursor i

/-! ## Equations -/

/-- The fault becomes an error object first. -/
theorem raise_eq (fault : Fault) (m : Machine) : raise fault m = (match (errorObject fault m).2.top? with
    | some c => modifyProcess fun p => p.modifyContext c fun c => { c with error := some (errorObject fault m).1 }
    | none => modifyCurrent fun t => { t with register := .object (errorObject fault m).1, state := .error } :
      StateM Machine Unit) (errorObject fault m).2 := rfl

theorem perform_eq (top : ContextId) (position : Nat) (i : Instruction) (m : Machine) : perform top position i m =
    (match (step top position i m).1 with
    | .ok .next => do setCursor top (position + 1); return true
    | .ok (.jump target) => do setCursor top target; return true
    | .ok .stay => return true
    | .ok .suspend => do setCursor top (position + 1); return false
    | .ok .finished => do complete; return false
    | .error fault => do raise fault; return true : StateM Machine Bool) (step top position i m).2 := rfl

theorem safepoint_eq (m : Machine) : safepoint m = (match (collectGarbage m).2.process.heap.overLimit? with
    | some fault => do raise fault; return true
    | none => return false : StateM Machine Bool) (collectGarbage m).2 := rfl

theorem advance_eq (m : Machine) : advance m = (match m.top? with
    | none => do complete; return false
    | some top =>
      match (m.process.contextAt top).error with
      | some error => unwind error
      | none => do
        if m.process.heap.shouldCollect then
          if ← safepoint then return true
        performNext m top : StateM Machine Bool) m := rfl

theorem reparent_eq (c d : ClassId) (m : Machine) : reparent c d m = (match m.host.registry.rebase c d with
    | .ok registry => do
      modifyHost fun h => { h with registry }
      return .none
    | .error e => throw (.inheritance e.text) : Act Machine Value) m := rfl

theorem futureGet_object (r : Handle) : futureGet (.object r) = (do
    match ← futureOutcome r with
    | some outcome => return outcome.value
    | none => throw (.message "future is not complete")) := rfl

/-- The task is marked as running before the fault in store is raised. -/
theorem resume_woken (m : Machine) : resume m =
    (match (modifyCurrent (fun t => { t with state := .running, reason := .notWaiting }) m).2.process.fault with
    | some fault => do
      modifyProcess fun p => { p with fault := none }
      raise fault
    | none => return : StateM Machine Unit)
      (modifyCurrent (fun t => { t with state := .running, reason := .notWaiting }) m).2 :=
  rfl

theorem sendResult_eq (link : RemoteLink) (m : Machine) : sendResult link m = (match m.register with
    | .object r => do
      discard (onHeap (Heap.root r)).run
      modifyProcess fun p => { p with outgoing := p.outgoing ++ [⟨m.task, link⟩] }
    | _ => modifyProcess fun p => { p with outgoing := p.outgoing ++ [⟨m.task, link⟩] } : StateM Machine Unit) m := rfl

theorem tidy_collected {m : Machine} (h : m.process.heap.shouldCollect) : tidy m =
    (match (collectGarbage m).2.process.heap.overLimit? with
    | some fault => modifyProcess fun p => { p with fault := some fault }
    | _ => pure () : StateM Machine Unit) (collectGarbage m).2 := by
  unfold tidy
  change (if m.process.heap.shouldCollect then _ else pure () : StateM Machine Unit) m = _
  rw [if_pos h]
  rfl

theorem tidy_eq (m : Machine) : tidy m = (if m.process.heap.shouldCollect then
      match (collectGarbage m).2.process.heap.overLimit? with
      | some fault => ((), { (collectGarbage m).2 with process := { (collectGarbage m).2.process with fault := some fault } })
      | none => ((), (collectGarbage m).2)
    else ((), m)) := by
  split
  · rename_i h
    rw [tidy_collected h]
    cases (collectGarbage m).2.process.heap.overLimit? <;> rfl
  · rename_i h
    unfold tidy
    change (if m.process.heap.shouldCollect then _ else pure () : StateM Machine Unit) m = _
    rw [if_neg h]
    rfl

theorem finishTask_eq (t : TaskId) (m : Machine) : finishTask t m = (if Process.isUnseenFailure (m.process.taskAt t) then
      reportUncaught (m.process.taskAt t).register else pure () : StateM Machine Unit)
        { m with process := m.process.finish t } := rfl

/-! ## A round of the scheduler -/

theorem settleAll_of_nil {m : Machine} (hc : m.process.completions = []) : (settleAll m).2 = m := by
  have hrun : (settleAll m).2 = ((m.process.completions.forM settle : StateM Machine PUnit)
      { m with process := { m.process with completions := [] } }).2 := rfl
  rw [hrun, hc]
  change ({ m with process := { m.process with completions := [] } } : Machine) = m
  rw [← hc]

theorem tick_eq (fuel : Nat) (m : Machine) : tick fuel m = (runNext fuel (settleAll m).2).map fun x =>
    { (tidy x.2).2 with process := { (tidy x.2).2.process with
      phase := phaseAfter (!m.process.completions.isEmpty || x.1) (tidy x.2).2.process } } := rfl

end Spool.Machine
