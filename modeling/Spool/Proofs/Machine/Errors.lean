import Spool.Machine.Future
import Spool.Machine.Trace
import Spool.Proofs.Machine.Basics

/-!
# Error objects and futures

An error object and its trace are made in one go, so nothing of them is lost on the way. A future that is looked at
takes over the result of its task.
-/

namespace Spool.Machine

variable {g : Outlook} {cur : Option TaskId} {m m' : Machine} {t : TaskId} {α : Type}

theorem keeps_mapM {f : α → Act Machine Value}
    (hf : ∀ a m, m.Going g cur → Keeps g cur (f a) m fun v m' => m'.process.heap.Valid v) (xs : List α) :
    ∀ m, m.Going g cur → Keeps g cur (xs.mapM f) m fun vs m' => ∀ v ∈ vs, m'.process.heap.Valid v := by
  induction xs with
  | nil => exact fun m hm => keeps_pure hm fun v hv => by cases hv
  | cons a rest ih =>
      intro m hm
      rw [List.mapM_cons]
      refine (hf a m hm).bind fun v m₁ hm₁ _ hv => (ih m₁ hm₁).bind fun vs m₂ hm₂ hr₂ hvs => ?_
      refine keeps_pure hm₂ fun w hw => ?_
      rcases List.mem_cons.1 hw with rfl | hw
      · exact hr₂.valid _ hv
      · exact hvs w hw

/-! ## Traces -/

theorem keeps_newTraceLine (hm : m.Going g cur) (line : TraceLine) :
    Keeps g cur (newTraceLine line) m fun v m' => m'.process.heap.Valid v := by
  unfold newTraceLine
  refine (kept_newObject hm .stackLine).lift.bind fun r m₁ hm₁ _ hr => ?_
  refine (kept_newText hm₁ line.module).lift.bind fun module m₂ hm₂ hg₂ hmodule => ?_
  refine (kept_newText hm₂ line.function).lift.bind fun function m₃ hm₃ hg₃ hfunction => ?_
  refine (kept_newText hm₃ line.text).lift.bind fun text m₄ hm₄ hg₄ htext => ?_
  have hr₄ : m₄.process.heap.isLive r := hg₄.valid _ (hg₃.valid _ (hg₂.valid _ (valid_object hr))) r rfl
  have hmodule₄ := hg₄.valid _ (hg₃.valid _ hmodule)
  have hfunction₄ := hg₄.valid _ hfunction
  have hsafe : Heap.Safe Heap.Nowhere (do
      Heap.setMember r "module" module
      Heap.setMember r "function" function
      Heap.setMember r "line" (.ofNat line.place.line.toNat)
      Heap.setMember r "col" (.ofNat line.place.column.toNat)
      Heap.setMember r "text" text) m₄.process.heap fun _ _ => True := by
    refine (Heap.safe_setMember hm₄.sound hr₄ _ hmodule₄).bind fun _ h₁ g₁ _ => ?_
    refine (Heap.safe_setMember g₁.sound (g₁.isLive r hr₄) _ (g₁.valid hfunction₄)).bind fun _ h₂ g₂ _ => ?_
    have g₂' := g₁.trans g₂
    refine (Heap.safe_setMember g₂.sound (g₂'.isLive r hr₄) _ valid_scalar).bind fun _ h₃ g₃ _ => ?_
    have g₃' := g₂'.trans g₃
    refine (Heap.safe_setMember g₃.sound (g₃'.isLive r hr₄) _ valid_scalar).bind fun _ h₄ g₄ _ => ?_
    have g₄' := g₃'.trans g₄
    exact Heap.safe_setMember g₄.sound (g₄'.isLive r hr₄) _ (g₄'.valid htext)
  refine (keeps_onHeap hm₄ hsafe fun _ h => h.elim).bind fun _ m₅ hm₅ hg₅ _ => ?_
  exact keeps_pure hm₅ (hg₅.valid _ (valid_object hr₄))

theorem keeps_newTrace (hm : m.Going g cur) :
    Keeps g cur newTrace m fun v m' => m'.process.heap.Valid v := by
  unfold newTrace
  refine keeps_get ?_
  refine (keeps_mapM (fun line m hm => keeps_newTraceLine hm line) _ m hm).bind fun vs m₁ hm₁ _ hvs => ?_
  exact keeps_newArray hm₁ hvs

/-! ## Errors -/

theorem keeps_initError (hm : m.Going g cur) {r : Handle} (hr : m.process.heap.isLive r) {message : Value}
    (hv : m.process.heap.Valid message) : Keeps g cur (initError r message) m fun _ _ => True := by
  unfold initError
  refine (keeps_newTrace hm).bind fun trace m₁ hm₁ hg₁ htrace => ?_
  have hr₁ : m₁.process.heap.isLive r := hg₁.valid _ (valid_object hr) r rfl
  have hsafe : Heap.Safe Heap.Nowhere (do
      Heap.setMember r "message" message
      Heap.setMember r "stacktrace" trace) m₁.process.heap fun _ _ => True := by
    refine (Heap.safe_setMember hm₁.sound hr₁ _ (hg₁.valid _ hv)).bind fun _ h₁ g₁ _ => ?_
    exact Heap.safe_setMember g₁.sound (g₁.isLive r hr₁) _ (g₁.valid htrace)
  exact keeps_onHeap hm₁ hsafe fun _ h => h.elim

theorem kept_newError (hm : m.Going g cur) (message : String) :
    Kept g cur (newError message) m fun r m' => m'.process.heap.isLive r := by
  unfold newError
  refine (kept_newObject hm .error).bind fun r m₁ hm₁ _ hr => ?_
  refine (kept_newText hm₁ message).bind fun text m₂ hm₂ hg₂ ht => ?_
  have hr₂ : m₂.process.heap.isLive r := hg₂.valid _ (valid_object hr) r rfl
  obtain ⟨hm₃, hg₃, _⟩ := (keeps_initError hm₂ hr₂ ht).run
  exact ⟨hm₃, hg₃, hg₃.valid _ (valid_object hr₂) r rfl⟩

theorem kept_errorObject (hm : m.Going g cur) (fault : Fault) :
    Kept g cur (errorObject fault) m fun r m' => m'.process.heap.isLive r := by
  unfold errorObject
  split
  · refine kept_get ?_
    split
    · exact kept_pure hm ‹_›
    · exact kept_newError hm _
  · exact kept_newError hm _

theorem kept_raise (hm : m.Going g (some t)) (fault : Fault) : Kept g (some t) (raise fault) m fun _ _ => True := by
  unfold raise
  refine (kept_errorObject hm fault).bind fun r m₁ hm₁ _ hr => kept_get ?_
  split
  · rename_i c _
    refine kept_modifyContext hm₁ c (fun c => { c with error := some r }) (fun x v hv => ?_) fun _ => rfl
    simp only [Context.values, Option.toList_some, List.map_cons, List.map_nil, List.cons_append, List.mem_cons,
      List.mem_append, List.not_mem_nil, or_false] at hv ⊢
    rcases hv with hv | hv | rfl
    · exact .inl (.inl hv)
    · exact .inl (.inr (.inl hv))
    · exact .inr (valid_object hr)
  · rename_i hnone
    exact absurd (List.head?_eq_none_iff.1 hnone) hm₁.current.2.taskAt.2

/-! ## Futures -/

/-- What the task of a future has come to is kept for it as long as it has not been read. -/
theorem Going.valid_result (hm : m.Going g cur) {r : Handle} {o : Object} {cell : FutureCell}
    (ho : m.process.heap.object? r = some o) (hp : o.payload = .future cell) (hunread : ¬ cell.memoized) :
    m.process.heap.Valid (m.process.taskAt cell.task).register := by
  cases hget : m.process.tasks[cell.task.index]? with
  | none =>
      have hnone : m.process.taskAt cell.task = default := by
        simp [Process.taskAt, Array.getD_eq_getD_getElem?, hget]
      rw [hnone]
      exact valid_none
  | some task =>
      rw [Process.taskAt_of_getElem? hget]
      exact hm.inv.intact.fit.behind r o (.task cell.task) ho (by simp [hp, Payload.external?, hunread]) task hget

theorem keeps_futureOutcome (hm : m.Going g cur) {r : Handle} (hr : m.process.heap.isLive r) :
    Keeps g cur (futureOutcome r) m fun outcome m' =>
      (∀ x ∈ outcome, m'.process.heap.Valid x.value) ∧
      (outcome = none → m' = m ∧ ∀ o cell, m.process.heap.object? r = some o → o.future? = some cell →
        ¬ (m.process.taskAt cell.task).state.isFinished) := by
  unfold futureOutcome
  refine (keeps_fetch hm hr).bind fun o m₁ hm₁ _ ho => ?_
  obtain ⟨rfl, ho⟩ := ho
  split
  · exact keeps_get (keeps_throw hm₁ (by simp))
  · rename_i cell hcell
    have hpay := Object.payload_of_future? hcell
    refine keeps_get ?_
    dsimp only
    split
    · refine keeps_pure hm₁ ⟨fun x hx => ?_, fun h => by cases h⟩
      cases hx
      cases hv : o.member? "value" with
      | none => exact valid_none
      | some v => exact hm₁.valid_of_object ho (List.mem_append_left _ (Bindings.mem_values_of_get? hv))
    · rename_i hmem
      split
      · rename_i hfin
        have hval := hm₁.valid_result ho hpay hmem
        have hsafe : Heap.Safe Heap.Nowhere (do
            Heap.setMember r "value" (m₁.process.taskAt cell.task).register
            Heap.putPayload r (.future ⟨cell.task, true⟩)) m₁.process.heap fun _ _ => True := by
          refine (Heap.safe_setMember hm₁.sound hr _ hval).bind fun _ h₁ g₁ _ => ?_
          exact Heap.safe_putPayload g₁.sound (g₁.isLive r hr) (by simp [Payload.values]) (by simp [Payload.external?])
        refine (keeps_onHeap hm₁ hsafe fun _ h => h.elim).bind fun _ m₂ hm₂ hg₂ _ => ?_
        refine keeps_pure hm₂ ⟨fun x hx => ?_, fun h => by cases h⟩
        cases hx
        exact hg₂.valid _ hval
      · rename_i hun
        refine keeps_pure hm₁ ⟨fun x hx => (by cases hx), fun _ => ⟨rfl, fun o' cell' ho' hcell' => ?_⟩⟩
        cases ho.symm.trans ho'
        cases hcell.symm.trans hcell'
        exact hun

end Spool.Machine
