import Spool.Proofs.World.Returns

/-!
# Errors that reach those who wait

A task that has waited for a failed one finds the error in its innermost context. At its next turn it carries the error
outward to the nearest handler, unless its process has a fault in store: the fault is raised first, and takes the place of
the error.
-/

namespace Spool

namespace Machine

variable {m m' : Machine} {top c : ContextId} {e : Handle} {r : Registry}

/-! ## The way of an error -/

/-- Where an error `e` gets to on its way through contexts: to the first one with a handler, and else to the end of the
task. -/
inductive Lands (e : Handle) (cs : List ContextId) (m : Machine) : Bool × Machine → Prop where
  | caught {inner outer : List ContextId} {c : ContextId} {position : Nat} {m' : Machine} : cs = inner ++ c :: outer →
      (∀ d ∈ inner, (m.process.contextAt d).handler = none) → (m.process.contextAt c).handler = some position →
      m'.task = m.task → m'.current.contexts = c :: outer → m'.register = .object e →
      (m'.process.contextAt c).cursor = position → (m'.process.contextAt c).error = none → Lands e cs m (true, m')
  | failed {m' : Machine} : (∀ d ∈ cs, (m.process.contextAt d).handler = none) → m'.task = m.task →
      m'.current.state = .error → m'.register = .object e → Lands e cs m (false, m')

theorem Lands.register {cs : List ContextId} {result : Bool × Machine} (h : Lands e cs m result) :
    result.2.register = .object e := by
  cases h with
  | caught _ _ _ _ _ hregister => exact hregister
  | failed _ _ _ hregister => exact hregister

theorem Lands.congr {m₁ : Machine} {cs : List ContextId} {result : Bool × Machine} (h : Lands e cs m₁ result)
    (ht : m₁.task = m.task) (hh : ∀ d, (m₁.process.contextAt d).handler = (m.process.contextAt d).handler) :
    Lands e cs m result := by
  cases h with
  | caught hcs hinner hhandler htask hcontexts hregister hcursor herror =>
      exact .caught hcs (fun d hd => hh d ▸ hinner d hd) (hh _ ▸ hhandler) (htask.trans ht) hcontexts hregister hcursor
        herror
  | failed hnone htask hstate hregister =>
      exact .failed (fun d hd => hh d ▸ hnone d hd) (htask.trans ht) hstate hregister

/-- A context without a handler is passed by. -/
theorem Lands.cons {cs : List ContextId} {result : Bool × Machine} (h : Lands e cs m result)
    (hc : (m.process.contextAt c).handler = none) : Lands e (c :: cs) m result := by
  cases h with
  | caught hcs hinner hhandler htask hcontexts hregister hcursor herror =>
      exact .caught (congrArg (c :: ·) hcs) (List.forall_mem_cons.2 ⟨hc, hinner⟩) hhandler htask hcontexts hregister hcursor
        herror
  | failed hnone htask hstate hregister => exact .failed (List.forall_mem_cons.2 ⟨hc, hnone⟩) htask hstate hregister

theorem lands_unwindThrough (e : Handle) (cs : List ContextId) : ∀ m : Machine, m.task.index < m.process.tasks.size →
    (∀ c ∈ cs, c.index < m.process.contexts.size) → Lands e cs m (unwindThrough e cs m) := by
  induction cs with
  | nil =>
      intro m ht _
      have hat := current_modifyCurrent ht fun t => { t with contexts := [], register := .object e, state := .error }
      exact .failed (by simp) rfl (congrArg Task.state hat) (congrArg Task.register hat)
  | cons c outer ih =>
      intro m ht hcs
      rw [unwindThrough_cons]
      cases hh : (m.process.contextAt c).handler with
      | some position =>
          have hcontext := Process.contextAt_modifyContext m.process c
            (fun c => { c with error := none, handler := none, cursor := position }) c
          rw [if_pos ⟨rfl, hcs c List.mem_cons_self⟩] at hcontext
          have hat := current_modifyCurrent (m := m.catching c position) ht
            fun t => { t with contexts := c :: outer, register := .object e }
          exact .caught (List.nil_append (c :: outer)).symm (by simp) hh rfl (congrArg Task.contexts hat)
            (congrArg Task.register hat) (congrArg Context.cursor hcontext) (congrArg Context.error hcontext)
      | none =>
          have hclear := Process.stands_modifyContext m.process c (f := fun c => { c with error := none }) fun _ => rfl
          have hstands : m.process.Stands (m.passing c).process := hclear.trans (Process.stands_releaseContext _ c)
          refine .cons (.congr (ih (m.passing c) ?_ fun d hd => ?_) rfl fun d => ?_) hh
          · change m.task.index < (Process.releaseContext _ c).tasks.size
            rw [tasks_releaseContext]
            exact ht
          · change d.index < (Process.releaseContext _ c).contexts.size
            rw [size_contexts_releaseContext]
            simpa [Process.modifyContext] using hcs d (List.mem_cons_of_mem c hd)
          · exact Context.handler_eq_of_outline (hstands.outline d)

theorem lands_advance (hm : m.Sturdy r) (htop : m.top? = some top) (he : (m.process.contextAt top).error = some e) :
    Lands e m.current.contexts m (advance m) := by
  have hlands := lands_unwindThrough e m.current.contexts m (Process.index_lt_of_top? htop) fun c hc =>
    hm.firm.arena.index_lt hc
  have hadv := advancing_advance m
  generalize advance m = result at hadv ⊢
  cases hadv with
  | bare hnone => cases htop.symm.trans hnone
  | unwind top' e' htop' he' =>
      cases htop.symm.trans htop'
      cases he.symm.trans he'
      exact hlands
  | full top' n htop' hnone =>
      cases htop.symm.trans htop'
      cases he.symm.trans hnone
  | ended top' n htop' hnone =>
      cases htop.symm.trans htop'
      cases he.symm.trans hnone
  | due n top' i hdue =>
      cases htop.symm.trans hdue.innermost
      cases he.symm.trans hdue.clear

/-- How a task with an error takes its turn. A fault that the process has in store comes first, and takes the place of the
error. -/
structure Faces (m : Machine) (e : Handle) : Prop where
  handled : m.process.fault = none → Lands e m.current.contexts m (advance (resume m).2)
  displaced : ∀ fault, m.process.fault = some fault → Lands (errorObject fault m.relieved).1 (resume m).2.current.contexts
    (resume m).2 (advance (resume m).2)

theorem faces_of_error (hm : m.Sturdy r) (htop : m.top? = some top) (he : (m.process.contextAt top).error = some e) :
    m.Faces e := by
  constructor
  · intro hfault
    rw [resume_eq, hfault]
    have hcontexts : m.marked.current.contexts = m.current.contexts := by
      rw [current_marked (Process.index_lt_of_top? htop)]
    have hlands := lands_advance (hm.does (does_marked m)) (top?_marked htop).1 he
    rw [hcontexts] at hlands
    exact hlands.congr rfl fun _ => rfl
  · intro fault hfault
    obtain ⟨htop', herror⟩ := top?_resume hm htop hfault
    exact lands_advance (sturdy_paces hm (paces_resume hm)) htop' herror

end Machine

namespace World

variable {w w' w₁ w₂ : World} {id : ProcessId} {x : TaskId} {m : Machine} {top : ContextId} {e : Handle}

/-- A task that is in the queue with an error still has it when its turn comes. -/
theorem Holds.alerted (hk : w.Holds id (Process.Alerted x top e)) (hw : w.Arises) (h : w.Opens id x m) :
    m.top? = some top ∧ (m.process.contextAt top).error = some e := by
  obtain ⟨hp, _, _⟩ := h
  have hsettled := hk.settled (Process.lasts_alerted x top e) hw hp
  exact ⟨hsettled.innermost, hsettled.error⟩

/-- An error that is with a task in the queue stays with it until its next turn, whatever happens, and so does the error of
a task that fails in the very round in which the one that has waited for it has its turn. If the process has no fault in
store, the turn begins with this error: the nearest handler gets it, or the task fails with it. -/
theorem delivered_errors_handled (hw : w.Arises) :
    (∀ id x top e w' m, w.Holds id (Process.Alerted x top e) → Idles id x w w' → w'.Opens id x m → m.Faces e) ∧
    ∀ id x top position i n m fuel w₁, w.Parking id x top position i n m → w.step fuel (.tick id) = some w₁ →
      ∃ y d, Machine.Awaits n m i y d ∧ ∀ w₂ m₂ e, Idles id x w₁ w₂ → w₂.Opens id x m₂ →
        (m₂.process.taskAt y).state = .error → (m₂.process.taskAt y).register = .object e → m₂.Faces e := by
  constructor
  · intro id x top e w' m halert hidle hopen
    obtain ⟨hw', halert'⟩ := hidle.holds (Process.lasts_alerted x top e) hw halert
    obtain ⟨htop, herror⟩ := halert'.alerted hw' hopen
    exact Machine.faces_of_error (hopen.sturdy hw') htop herror
  · intro id x top position i n m fuel w₁ hpark hstep
    obtain ⟨y, d, hawaits, hk⟩ := hpark.honours hw hstep
    refine ⟨y, d, hawaits, fun w₂ m₂ e hidle hopen hstate hv => ?_⟩
    obtain ⟨hw₂, hk₂⟩ := hidle.holds (Process.lasts_honoured ⟨x, y, d, top, position + 1, m.register⟩) (hw.step hstep) hk
    rcases hk₂.opens hw₂ hopen with ⟨hcomplete, _⟩ | ⟨e', _, hv', hpoised⟩
    · cases hcomplete.symm.trans hstate
    · cases hv.symm.trans hv'
      have htop : m₂.top? = some top := by
        rw [Machine.top?, Machine.current, hopen.round.1]
        exact hpoised.top
      exact Machine.faces_of_error (hopen.sturdy hw₂) htop hpoised.error

/-- A program that calls a function and is ready for its failure. The function looks up a name that nobody knows. -/
def failing : CompiledModule :=
  { name := "failing"
    tape := { instructions := #[⟨.handler, .scalar (.int 3)⟩, ⟨.callBare, .name "f"⟩, ⟨.ret, .none⟩, ⟨.ret, .none⟩,
      ⟨.load, .name "missing"⟩, ⟨.ret, .none⟩] }
    functions := #[{ name := "f", start := 4 }] }

def risking (settings : HeapSettings) : World :=
  (startMain "failing" (register failing { host := { heapSettings := settings } }).2).2

theorem arises_risking : (risking {}).Arises := .startMain "failing" (.register failing (.create (r := {}) rfl))

/-- The entry task waits for the function. -/
def risked : World := ((risking {}).step 9 (.tick ⟨1⟩)).get (by decide +kernel)

/-- The function has failed, and the entry task is in the queue. -/
def failed : World := (risked.step 9 (.tick ⟨1⟩)).get (by decide +kernel)

/-- The entry task comes to its first turn. -/
def venturing : Machine := ((risking {}).opening? ⟨1⟩).get (by decide +kernel)

/-- The entry task comes to its second turn. -/
def recovering : Machine := (failed.opening? ⟨1⟩).get (by decide +kernel)

theorem recovering_look : recovering.task = ⟨0⟩ ∧ recovering.current.contexts = [⟨0⟩] ∧
    recovering.process.fault.isNone ∧ (recovering.process.taskAt ⟨1⟩).state = .error ∧
    (recovering.process.taskAt ⟨1⟩).register.handle?.isSome := by
  decide +kernel

/-- The entry task is about to call the function. -/
def dialling : Machine := (Machine.advance (Machine.resume venturing).2).2

/-- The entry task has been parked. -/
def ventured : Machine := (Machine.step ⟨0⟩ 1 ⟨.callBare, .name "f"⟩ dialling).2

theorem parking_risking : (risking {}).Parking ⟨1⟩ ⟨0⟩ ⟨0⟩ 1 ⟨.callBare, .name "f"⟩ dialling ventured := by
  have htask : venturing.task = ⟨0⟩ := by decide +kernel
  have hopens : (risking {}).Opens ⟨1⟩ ⟨0⟩ venturing := htask ▸ opens_opening (Option.some_get _).symm
  have hgoes : (Machine.advance (Machine.resume venturing).2).1 = true := by decide +kernel
  exact parking_of_fetches hopens (.single (Prod.ext hgoes rfl)) (by decide +kernel) (by decide +kernel)

theorem awaited_ventured {n : Machine} {y : TaskId} {d : Delivery}
    (h : Machine.Awaits n ventured ⟨.callBare, .name "f"⟩ y d) : y = ⟨1⟩ := by
  have hlisted : ⟨ventured.task, d⟩ ∈ (ventured.process.taskAt y).dependents := by
    cases h with
    | call _ _ _ _ _ _ _ hcalls => exact (Machine.waitsFor_of_calls hcalls).listed
    | store _ _ _ _ hop => cases hop
    | load _ _ _ _ hop => cases hop
    | wait _ _ _ hop => cases hop
  have hlook : ventured.process.tasks.size = 2 ∧ (ventured.process.taskAt ⟨0⟩).dependents = [] := by decide +kernel
  have hlt := Process.index_lt_of_dependents hlisted
  obtain ⟨_ | _ | y⟩ := y
  · rw [hlook.2] at hlisted
    cases hlisted
  · rfl
  · change y + 2 < _ at hlt
    omega

theorem delivered_errors_handled_recovering : failed.Holds ⟨1⟩ (Process.Alerted ⟨0⟩ ⟨0⟩ ⟨4, 0⟩) ∧
    failed.Opens ⟨1⟩ ⟨0⟩ recovering ∧ recovering.process.fault = none ∧
    Machine.Lands ⟨4, 0⟩ [⟨0⟩] recovering (Machine.advance (Machine.resume recovering).2) ∧
    ∃ n m y d e, (risking {}).Parking ⟨1⟩ ⟨0⟩ ⟨0⟩ 1 ⟨.callBare, .name "f"⟩ n m ∧
      Machine.Awaits n m ⟨.callBare, .name "f"⟩ y d ∧ (recovering.process.taskAt y).state = .error ∧
      (recovering.process.taskAt y).register = .object e ∧ recovering.Faces e := by
  have hrisked : (risking {}).step 9 (.tick ⟨1⟩) = some risked := (Option.some_get _).symm
  have hfailed : risked.step 9 (.tick ⟨1⟩) = some failed := (Option.some_get _).symm
  obtain ⟨htask, hcontexts, hnone, hstate, hobject⟩ := recovering_look
  have hopens : failed.Opens ⟨1⟩ ⟨0⟩ recovering := htask ▸ opens_opening (Option.some_get _).symm
  have hfault := Option.isNone_iff_eq_none.1 hnone
  have halert : failed.Holds ⟨1⟩ (Process.Alerted ⟨0⟩ ⟨0⟩ ⟨4, 0⟩) := by decide +kernel
  have hfirst := (delivered_errors_handled ((arises_risking.step hrisked).step hfailed)).1 _ _ _ _ _ _ halert .refl hopens
  have hidle : Idles ⟨1⟩ ⟨0⟩ risked failed := by
    refine .step .refl hfailed ?_
    have hstops : risked.stops (.tick ⟨1⟩) failed = [⟨⟨1⟩, ⟨1⟩, true⟩] := by decide +kernel
    rw [hstops]
    simp
  obtain ⟨y, d, hawaits, hthen⟩ := (delivered_errors_handled arises_risking).2 _ _ _ _ _ _ _ _ _ parking_risking hrisked
  rw [← awaited_ventured hawaits] at hstate hobject
  refine ⟨halert, hopens, hfault, hcontexts ▸ hfirst.handled hfault, dialling, ventured, y, d, ?_⟩
  cases hv : (recovering.process.taskAt y).register with
  | object e => exact ⟨e, parking_risking, hawaits, hstate, rfl, hthen failed recovering e hidle hopens hstate hv⟩
  | _ => simp [hv, Value.handle?] at hobject

/-! ## An error that nobody gets to see -/

/-- The function has failed, and what it has left takes up too much room. -/
def crowded : World :=
  (play 9 (fun _ => true) [.tick ⟨1⟩, .tick ⟨1⟩] (risking { maxObjects := 14, threshold := 7 })).get (by decide +kernel)

/-- The entry task comes to its second turn. -/
def overcome : Machine := (crowded.opening? ⟨1⟩).get (by decide +kernel)

theorem delivered_error_displaced : crowded.Arises ∧
    crowded.Holds ⟨1⟩ (fun p => (p.taskAt ⟨1⟩).state = .error ∧ (p.taskAt ⟨1⟩).register.handle? = some ⟨4, 0⟩) ∧
    crowded.Holds ⟨1⟩ (Process.Alerted ⟨0⟩ ⟨0⟩ ⟨4, 0⟩) ∧ crowded.Opens ⟨1⟩ ⟨0⟩ overcome ∧
    overcome.process.fault.isSome ∧
    (Machine.advance (Machine.resume overcome).2).2.register.handle? = some ⟨15, 0⟩ ∧
    ¬ Machine.Lands ⟨4, 0⟩ overcome.current.contexts overcome (Machine.advance (Machine.resume overcome).2) := by
  have hlook : overcome.task = ⟨0⟩ ∧ overcome.process.fault.isSome ∧
      (Machine.advance (Machine.resume overcome).2).2.register.handle? = some ⟨15, 0⟩ := by decide +kernel
  obtain ⟨htask, hfault, hregister⟩ := hlook
  refine ⟨?_, by decide +kernel, by decide +kernel, htask ▸ opens_opening (Option.some_get _).symm, hfault, hregister,
    fun h => ?_⟩
  · exact Arises.play (.startMain "failing" (.register failing (.create (r := { heap := { maxObjects := some 14 } }) rfl)))
      (Option.some_get _).symm
  · rw [h.register] at hregister
    cases hregister

end World

end Spool
