import Spool.Proofs.Machine.Burdens
import Spool.Proofs.World.Moments
import Spool.Proofs.World.Unwinding

/-!
# Room for a handler

Past the limit a collection moves the mark for the next one up by a quarter of the limit. The error that is raised then
takes up some of that room itself: whether its handler gets to run before the next collection depends on the depth of the
calls.
-/

namespace Spool

/-- What a collection leaves above a count that is past the limit. -/
def HeapSettings.headroom (s : HeapSettings) : Nat := max (s.maxObjects / 4) 1

namespace Machine

variable {m m₁ m₂ n : Machine} {r : Registry} {top c : ContextId} {outer : List ContextId} {position : Nat} {e : Handle}
  {i : Instruction}

/-- How many objects an error of the running task takes. -/
def errorCost (m : Machine) : Nat := 4 * m.stackTrace.length + 3

/-- A collection is due before the next instruction, and it leaves too many objects. -/
structure Strained (m : Machine) (top : ContextId) : Prop where
  innermost : m.top? = some top
  clear : (m.process.contextAt top).error = none
  due : m.process.heap.shouldCollect
  exceeds : m.process.heap.settings.maxObjects < (collectGarbage m).2.process.heap.live

/-! ## Raising the error -/

theorem errorCost_le (m : Machine) : m.errorCost ≤ 4 * traceLimit + 3 := by
  have hlength : m.stackTrace.length ≤ traceLimit := by
    unfold stackTrace
    exact List.length_take_le _ _
  unfold errorCost
  omega

/-- The machine when an error has been made and left with the innermost context. -/
def afflicted (m : Machine) (heap : Heap) (top : ContextId) (e : Handle) : Machine :=
  { m with process := ({ m.process with heap } : Process).modifyContext top fun c => { c with error := some e } }

theorem raise_outOfMemory (hs : m.process.heap.Sound) (htop : m.top? = some top) (live limit : Nat) : ∃ heap e,
    m.process.heap.Adds m.errorCost heap ∧ raise (.outOfMemory live limit) m = ((), m.afflicted heap top e) := by
  have hburden := burdened_newError hs (Fault.outOfMemory live limit).text
  have hrun := raise_eq (.outOfMemory live limit) m
  rw [show errorObject (.outOfMemory live limit) m = newError (Fault.outOfMemory live limit).text m from rfl] at hrun
  generalize newError (Fault.outOfMemory live limit).text m = made at hburden hrun
  obtain ⟨e, k⟩ := made
  obtain ⟨hadds, hrest⟩ := hburden
  dsimp only at hadds hrest hrun
  generalize k.process.heap = heap at hadds hrest
  subst hrest
  rw [show ({ m with process := { m.process with heap } } : Machine).top? = some top from htop] at hrun
  exact ⟨heap, e, hadds, hrun⟩

/-- The error has used up its share of the headroom. -/
theorem safepoint_of_strained (hs : (collectGarbage m).2.process.heap.Sound) (h : m.Strained top) : ∃ heap e,
    safepoint m = (true, m.afflicted heap top e) ∧
      heap.shouldCollect = decide (m.process.heap.settings.headroom ≤ m.errorCost) := by
  obtain ⟨hsettings, hthreshold⟩ := Heap.settled_collect m.process.heap m.host.registry m.process.coreRoots
  have hover := h.exceeds
  have hcollect : (collectGarbage m).2 = { m with process := { m.process with
      heap := (m.process.heap.collect m.host.registry m.process.coreRoots).2 } } := rfl
  rw [hcollect] at hs hover
  generalize (m.process.heap.collect m.host.registry m.process.coreRoots).2 = swept at hsettings hthreshold hs hover hcollect
  dsimp only at hs hover
  have hlimit : swept.overLimit? = some (.outOfMemory swept.live m.process.heap.settings.maxObjects) := by
    unfold Heap.overLimit?
    rw [hsettings, if_pos hover]
  obtain ⟨heap, e, hadds, hraise⟩ := raise_outOfMemory (m := { m with process := { m.process with heap := swept } }) hs
    h.innermost swept.live m.process.heap.settings.maxObjects
  refine ⟨heap, e, ?_, ?_⟩
  · rw [safepoint_eq, hcollect, hlimit]
    exact congrArg (fun x : Unit × Machine => (true, x.2)) hraise
  · have hlive : heap.live = swept.live + m.errorCost := by
      rw [errorCost, ← stackTrace_heap m swept]
      exact hadds.live
    have hmark : heap.threshold = swept.live + m.process.heap.settings.headroom := by
      refine hadds.threshold.trans (hthreshold.trans ?_)
      unfold Heap.settledThreshold HeapSettings.headroom
      rw [if_neg (by omega), if_neg (by omega)]
    unfold Heap.shouldCollect
    rw [hlive, hmark]
    simp

theorem advance_of_safepoint (htop : m.top? = some top) (hclear : (m.process.contextAt top).error = none)
    (hdue : m.process.heap.shouldCollect) (h : safepoint m = (true, n)) : advance m = (true, n) := by
  have hnot : ∀ k, ¬ m.Swept k := by
    rintro k (⟨hcalm, _⟩ | ⟨_, hsafe⟩)
    · rw [hdue] at hcalm
      cases hcalm
    · cases hsafe.symm.trans h
  have hadv := advancing_advance m
  generalize advance m = result at hadv ⊢
  cases hadv with
  | bare hnone => cases htop.symm.trans hnone
  | unwind top' e' htop' he' =>
      cases htop.symm.trans htop'
      cases hclear.symm.trans he'
  | full top' k _ _ hsafe => exact hsafe.symm.trans h
  | ended top' k _ _ hswept => exact absurd hswept (hnot k)
  | due k top' i hi => exact absurd hi.swept (hnot k)

/-! ## From the error to its handler -/

theorem contextAt_afflicted (m : Machine) (heap : Heap) (top : ContextId) (e : Handle) (d : ContextId) :
    (m.afflicted heap top e).process.contextAt d = if top = d ∧ d.index < m.process.contexts.size
      then { m.process.contextAt d with error := some e } else m.process.contextAt d :=
  Process.contextAt_modifyContext { m.process with heap } top (fun c => { c with error := some e }) d

theorem struck_afflicted (htop : m.top? = some top) (hin : top.index < m.process.contexts.size) (heap : Heap) (e : Handle) :
    (m.afflicted heap top e).Struck e := by
  refine ⟨top, htop, ?_⟩
  rw [contextAt_afflicted, if_pos ⟨rfl, hin⟩]

theorem charted_afflicted (m : Machine) (heap : Heap) (top : ContextId) (e : Handle) (x : TaskId) :
    Process.Charted x m.process (m.afflicted heap top e).process := by
  refine ⟨rfl, rfl, fun c _ => ?_⟩
  rw [contextAt_afflicted]
  split <;> rfl

/-- On its way to a handler an error leaves the heap alone. -/
theorem heap_advance_of_struck (h : m.Struck e) : (advance m).2.process.heap = m.process.heap := by
  obtain ⟨_, _, _, hframe⟩ := unwindThrough_frame e m.current.contexts m
  rw [advance_of_struck h, hframe]

theorem Caught.top? {x : TaskId} (h : m.Caught e x c outer position) : m.top? = some c := by
  rw [Machine.top?, Task.top?, h.contexts]
  rfl

end Machine

namespace World

open Machine

variable {w : World} {id : ProcessId} {t : TaskId} {m : Machine} {top c : ContextId} {outer : List ContextId} {position : Nat}

/-- An error for want of room gets to the nearest handler. The first instruction of the handler comes next if the error has
cost less than the headroom, which it always has where the limit is large. Otherwise garbage is collected first, and if
that does not help, there is another error in place of the instruction. -/
theorem handler_runs_iff (hw : w.Arises) (ham : w.Amid id t m) (h : m.Strained top)
    (hc : m.process.Catches t c outer position) :
    ∃ e m₁ m₂, advance m = (true, m₁) ∧ m₁.Struck e ∧ advance m₁ = (true, m₂) ∧ m₂.Caught e t c outer position ∧
      (m.errorCost < m.process.heap.settings.headroom → ∀ i,
        (m₂.host.registry.moduleAt (m₂.process.contextAt c).module).tape.instructions[position]? = some i →
          advance m₂ = perform c position i m₂) ∧
      (m.process.heap.settings.headroom ≤ m.errorCost → m₂.process.heap.shouldCollect ∧
        ∀ n, safepoint m₂ = (true, n) → advance m₂ = (true, n)) ∧
      (4 * (4 * (traceLimit + 1)) ≤ m.process.heap.settings.maxObjects → m.errorCost < m.process.heap.settings.headroom) := by
  obtain ⟨p, _, hgo⟩ := ham.going hw
  obtain rfl := ham.task_eq hw
  obtain ⟨heap, e, hsafe, hcollect⟩ := safepoint_of_strained hgo.collectGarbage.sound h
  have hadv := advance_of_safepoint h.innermost h.clear h.due hsafe
  have hin := (ham.sturdy hw).firm.arena.index_lt (Process.mem_of_top? h.innermost)
  have hstruck := struck_afflicted h.innermost hin heap e
  obtain ⟨m₂, hadv₁, hcaught⟩ := caught_advance hstruck ((charted_afflicted m heap top e m.task).catches hc)
  have hheap : m₂.process.heap = heap := by
    have hsame := heap_advance_of_struck hstruck
    rwa [hadv₁] at hsame
  rw [← hheap] at hcollect
  refine ⟨e, _, m₂, hadv, hstruck, hadv₁, hcaught, fun hroom i hi => ?_, fun hnone => ?_, fun hlarge => ?_⟩
  · have hcalm : m₂.process.heap.shouldCollect = false := by
      rw [hcollect]
      exact decide_eq_false (Nat.not_le_of_lt hroom)
    rw [← hcaught.cursor] at hi ⊢
    exact advance_of_due ⟨hcaught.top?, hcaught.error, .inl ⟨hcalm, rfl⟩, hi⟩
  · have hdue : m₂.process.heap.shouldCollect := by
      rw [hcollect]
      exact decide_eq_true hnone
    exact ⟨hdue, fun n hsafe => advance_of_safepoint hcaught.top? hcaught.error hdue hsafe⟩
  · have hcost := m.errorCost_le
    unfold HeapSettings.headroom
    omega

/-! ## A large and a small heap -/

/-- A program that keeps texts until there is no more room, and is ready for that. -/
def hoarding : CompiledModule :=
  { name := "hoarding"
    tape := { instructions := #[⟨.handler, .scalar (.int 3)⟩, ⟨.push, .text "a"⟩, ⟨.jump, .scalar (.int (-1))⟩,
      ⟨.ret, .scalar (.int 0)⟩] } }

def hoard (settings : HeapSettings) : World :=
  (startMain "hoarding" (register hoarding { host := { heapSettings := settings } }).2).2

/-- The entry task after so many steps of its first turn. -/
def hoarder? (settings : HeapSettings) (steps : Nat) : Option Machine :=
  ((hoard settings).opening? ⟨1⟩).bind fun m => ahead steps (resume m).2

theorem arises_hoard {r : HeapRequest} {settings : HeapSettings} (hr : r.settings = .ok settings) :
    (hoard settings).Arises := by
  have hcreate : create { heap := r } = .ok { host := { heapSettings := settings } } := by
    unfold create
    rw [show ({ heap := r } : MachineRequest).heap.settings = .ok settings from hr]
    rfl
  exact .startMain "hoarding" (.register hoarding (.create hcreate))

theorem amid_hoarder {settings : HeapSettings} {steps : Nat} (hw : (hoard settings).Arises)
    (h : hoarder? settings steps = some m) : (hoard settings).Amid ⟨1⟩ m.task m := by
  obtain ⟨m₀, hopen, hahead⟩ := Option.bind_eq_some_iff.1 h
  have ham : (hoard settings).Amid ⟨1⟩ m₀.task m := .mk (opens_opening hopen) (runs_of_ahead hahead)
  exact ham.task_eq hw ▸ ham

/-- There is room for no more than 32 objects, and the entry task has kept as many texts. -/
def ample : Machine := (hoarder? { maxObjects := 32, threshold := 32 } 64).get (by decide +kernel)

/-- There is room for no more than one object, and the entry task has kept a text. -/
def scant : Machine := (hoarder? { maxObjects := 1, threshold := 0 } 2).get (by decide +kernel)

/-- The next thing is a collection that leaves too much, and the task is ready for an error. -/
def Hoards (m : Machine) : Prop := m.task = ⟨0⟩ ∧ m.current.contexts = [⟨0⟩] ∧ (m.process.contextAt ⟨0⟩).error.isNone ∧
  (m.process.contextAt ⟨0⟩).handler = some 3 ∧ m.process.heap.shouldCollect ∧
  m.process.heap.settings.maxObjects < (collectGarbage m).2.process.heap.live

instance (m : Machine) : Decidable (Hoards m) := inferInstanceAs (Decidable (_ ∧ _))

theorem Hoards.strained (h : Hoards m) : m.Strained ⟨0⟩ :=
  ⟨congrArg List.head? h.2.1, Option.isNone_iff_eq_none.1 h.2.2.1, h.2.2.2.2.1, h.2.2.2.2.2⟩

theorem Hoards.catches (h : Hoards m) : m.process.Catches ⟨0⟩ ⟨0⟩ [] 3 := by
  refine ⟨⟨[], ?_, by simp⟩, h.2.2.2.1⟩
  exact h.1 ▸ h.2.1

theorem handler_runs_iff_ample : ∃ m₁ m₂ i, advance ample = (true, m₁) ∧ advance m₁ = (true, m₂) ∧ i.op = .ret ∧
    advance m₂ = perform ⟨0⟩ 3 i m₂ := by
  have hw : (hoard { maxObjects := 32, threshold := 32 }).Arises :=
    arises_hoard (r := { maxObjects := some 32, threshold := some 32 }) rfl
  have hhoards : Hoards ample := by decide +kernel
  have ham := hhoards.1 ▸ amid_hoarder (m := ample) hw (Option.some_get _).symm
  obtain ⟨e, m₁, m₂, hraise, _, hunwind, _, hnext, _⟩ := handler_runs_iff hw ham hhoards.strained hhoards.catches
  have hop : ((advance (advance ample).2).2.host.registry.moduleAt ((advance (advance ample).2).2.process.contextAt
      ⟨0⟩).module).tape.instructions[3]?.map Instruction.op = some .ret := by decide +kernel
  rw [hraise, hunwind] at hop
  obtain ⟨i, hi, hret⟩ := Option.map_eq_some_iff.1 hop
  exact ⟨m₁, m₂, i, hraise, hunwind, hret, hnext (by decide +kernel) i hi⟩

/-- The error takes seven objects, and there is room for one. The next collection comes before the handler, and its error
finds the handler gone. -/
theorem handler_preempted : ∃ m₁ m₂ m₃ m₄, (hoard { maxObjects := 1, threshold := 0 }).Arises ∧
    (hoard { maxObjects := 1, threshold := 0 }).Amid ⟨1⟩ ⟨0⟩ scant ∧ scant.Strained ⟨0⟩ ∧
    scant.process.Catches ⟨0⟩ ⟨0⟩ [] 3 ∧ advance scant = (true, m₁) ∧ advance m₁ = (true, m₂) ∧
    (m₂.process.contextAt ⟨0⟩).cursor = 3 ∧ advance m₂ = (true, m₃) ∧
    m₃.process.heap.stats.collections = m₂.process.heap.stats.collections + 1 ∧
    (m₃.process.contextAt ⟨0⟩).cursor = 3 ∧ advance m₃ = (false, m₄) ∧ m₄.current.state = .error := by
  have hw : (hoard { maxObjects := 1, threshold := 0 }).Arises := arises_hoard (r := { maxObjects := some 1 }) rfl
  have hhoards : Hoards scant := by decide +kernel
  have ham := hhoards.1 ▸ amid_hoarder (m := scant) hw (Option.some_get _).symm
  have hgoes : (advance scant).1 = true ∧ (advance (advance scant).2).1 = true ∧
      (advance (advance (advance scant).2).2).1 = true ∧ (advance (advance (advance (advance scant).2).2).2).1 = false := by
    decide +kernel
  refine ⟨_, _, _, _, hw, ham, hhoards.strained, hhoards.catches, Prod.ext hgoes.1 rfl, Prod.ext hgoes.2.1 rfl, ?_,
    Prod.ext hgoes.2.2.1 rfl, ?_, ?_, Prod.ext hgoes.2.2.2 rfl, ?_⟩ <;> decide +kernel

end World

end Spool
