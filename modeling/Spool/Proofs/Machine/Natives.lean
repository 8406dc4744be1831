import Spool.Machine.Natives
import Spool.Proofs.Machine.Errors
import Spool.Proofs.Machine.Parts
import Spool.Proofs.Machine.Spawn

/-!
# Native functions

A native function that is given live values yields a live value. One of them collects garbage: after it, nothing is
sure to be live but what the process itself needs.
-/

namespace Spool.Machine

variable {g : Outlook} {cur : Option TaskId} {m m' : Machine} {t : TaskId}

theorem kept_modifyHost (hm : m.Going g cur) {f : Host → Host} (hc : (f m.host).registry.Calm)
    (hp : (f m.host).pool = m.host.pool) (hb : (f m.host).born = m.host.born)
    (hn : (f m.host).nursery = m.host.nursery) : Kept g cur (modifyHost f) m fun _ _ => True := by
  have hs := hm.inv.serves
  have hpl : Pledged g { m with host := f m.host } = m.Pledged g := by
    funext t
    simp only [Pledged, hp, hn]
  have hl : ledger g [] { m with host := f m.host } = m.ledger g [] := by
    simp only [ledger, hpl, hp]
  refine ⟨⟨⟨?_, hm.inv.id, ⟨hc, ?_, ?_, ?_, ?_, ?_⟩⟩, hm.running⟩, ⟨rfl, fun _ h => h⟩, trivial⟩
  · change m.process.Intact cur (ledger g [] { m with host := f m.host })
    rw [hl]
    exact hm.inv.intact
  · change ((f m.host).pool.jobs.filter _).Perm _
    rw [hp]
    exact hs.others
  · change (f m.host).born = _ + (f m.host).nursery.length
    rw [hb, hn]
    exact hs.born
  · change ∀ i child, (f m.host).nursery[i]? = some child → _
    rw [hn]
    exact hs.numbers
  · change ∀ child ∈ (f m.host).nursery, _
    rw [hn]
    exact hs.newborn
  · change (f m.host).pool.Staffed
    rw [hp]
    exact hs.staffed

theorem kept_write (hm : m.Going g cur) (f : Host → Host) (hf : ∃ out err, f m.host = { m.host with out, err }) :
    Kept g cur (modifyHost f) m fun _ _ => True := by
  obtain ⟨out, err, heq⟩ := hf
  refine kept_modifyHost hm ?_ ?_ ?_ ?_
  · rw [heq]
    exact hm.inv.serves.calm
  · rw [heq]
  · rw [heq]
  · rw [heq]

/-! ## Texts -/

theorem keeps_asText (hm : m.Going g cur) {v : Value} (hv : m.process.heap.Valid v) :
    Keeps g cur (asText v) m fun v m' => m'.process.heap.Valid v := by
  unfold asText
  refine keeps_get ?_
  split
  · exact keeps_pure hm hv
  · exact (kept_newText hm _).lift

theorem keeps_concat (hm : m.Going g cur) (receiver argument : Value) :
    Keeps g cur (concat receiver argument) m fun v m' => m'.process.heap.Valid v := by
  unfold concat
  refine keeps_get ?_
  split
  · exact (kept_newText hm _).lift
  · exact keeps_throw hm (by simp)

theorem keeps_length (hm : m.Going g cur) {v : Value} (hv : m.process.heap.Valid v) :
    Keeps g cur (length v) m fun v m' => m'.process.heap.Valid v := by
  unfold length
  refine keeps_get ?_
  dsimp only
  split
  · exact keeps_pure hm valid_scalar
  · refine (keeps_fetch hm (hv _ rfl)).bind fun o m₁ hm₁ _ _ => ?_
    split
    · exact keeps_pure hm₁ valid_scalar
    · exact keeps_pure hm₁ valid_scalar
    · exact keeps_pure hm₁ valid_scalar
    · exact keeps_throw hm₁ (by simp)
  · exact keeps_throw hm (by simp)

/-! ## Classes and errors -/

theorem keeps_expectClass (hm : m.Going g cur) {v : Value} (hv : m.process.heap.Valid v) :
    Keeps g cur (expectClass v) m fun _ m' => m' = m := by
  unfold expectClass
  refine keeps_get ?_
  dsimp only
  split
  · refine (keeps_fetch hm (hv _ rfl)).bind fun o m₁ hm₁ _ ho => ?_
    obtain ⟨rfl, _⟩ := ho
    split
    · exact keeps_pure hm₁ rfl
    · exact keeps_throw hm₁ (by simp)
  · exact keeps_throw hm (by simp)

theorem keeps_setSuper (hm : m.Going g cur) {argument : Value} (hv : m.process.heap.Valid argument) :
    Keeps g cur (setSuper argument) m fun v m' => m'.process.heap.Valid v := by
  unfold setSuper
  refine (keeps_expectObject hm hv _).bind fun r m₁ hm₁ _ hr => ?_
  obtain ⟨rfl, _, hl⟩ := hr
  refine (keeps_fetch hm₁ hl).bind fun o m₂ hm₂ _ ho => ?_
  obtain ⟨rfl, ho⟩ := ho
  split
  · rename_i c s hcs
    have hitems : ∀ v ∈ [c, s], m₂.process.heap.Valid v := by
      intro v hv
      refine hm₂.valid_of_object ho (List.mem_append_right _ ?_)
      unfold Object.tuple? at hcs
      split at hcs
      · rename_i items hp
        simp only [Option.map_some, Option.some.injEq] at hcs
        simpa [hp, Payload.values, hcs] using hv
      · cases hcs
    refine (keeps_expectClass hm₂ (hitems c (by simp))).bind fun c m₃ hm₃ _ he => ?_
    subst he
    refine (keeps_expectClass hm₃ (hitems s (by simp))).bind fun s m₄ hm₄ _ he => ?_
    subst he
    refine keeps_get ?_
    split
    · rename_i registry hreb
      refine (kept_modifyHost hm₄ (f := fun h => { h with registry }) ?_ rfl rfl rfl).lift.bind fun _ m₅ hm₅ _ _ =>
        keeps_pure hm₅ valid_none
      exact hm₄.inv.serves.calm.rebase hreb
    · exact keeps_throw hm₄ (by simp)
  · exact keeps_get (keeps_throw hm₂ (by simp))

theorem keeps_errorNew (hm : m.Going g cur) {receiver argument : Value} (hr : m.process.heap.Valid receiver)
    (ha : m.process.heap.Valid argument) :
    Keeps g cur (errorNew receiver argument) m fun v m' => m'.process.heap.Valid v := by
  unfold errorNew
  refine (keeps_expectObject hm hr _).bind fun r m₁ hm₁ _ hl => ?_
  obtain ⟨rfl, rfl, hl⟩ := hl
  have hrest : ∀ (m₂ : Machine) message, m₂.Going g cur → m₁.Grows m₂ → m₂.process.heap.Valid message →
      Keeps g cur (do initError r message; return Value.object r) m₂ fun v m' => m'.process.heap.Valid v := by
    intro m₂ message hm₂ hg₂ hv
    have hl₂ : m₂.process.heap.isLive r := hg₂.valid _ (valid_object hl) r rfl
    exact (keeps_initError hm₂ hl₂ hv).bind fun _ m₃ hm₃ hg₃ _ => keeps_pure hm₃ (hg₃.valid _ (valid_object hl₂))
  split
  · exact (kept_newText hm₁ "").lift.bind fun message m₂ hm₂ hg₂ hv => hrest m₂ message hm₂ hg₂ hv
  · exact (keeps_asText hm₁ ha).bind fun message m₂ hm₂ hg₂ hv => hrest m₂ message hm₂ hg₂ hv

/-! ## Futures, tasks and contexts -/

theorem keeps_futureGet (hm : m.Going g cur) {receiver : Value} (hr : m.process.heap.Valid receiver) :
    Keeps g cur (futureGet receiver) m fun v m' => m'.process.heap.Valid v := by
  unfold futureGet
  refine (keeps_expectObject hm hr _).bind fun r m₁ hm₁ _ hl => ?_
  obtain ⟨rfl, _, hl⟩ := hl
  refine (keeps_futureOutcome hm₁ hl).bind fun outcome m₂ hm₂ _ ho => ?_
  split
  · exact keeps_pure hm₂ (ho.1 _ rfl)
  · exact keeps_throw hm₂ (by simp)

theorem keeps_contextFunction (hm : m.Going g cur) (c : ContextId) :
    Keeps g cur (contextFunction c) m fun v m' => m'.process.heap.Valid v := by
  unfold contextFunction
  refine keeps_get ?_
  split
  · exact keeps_reflectValue hm _
  · exact keeps_pure hm valid_none

/-! ## Processes -/

theorem keeps_newRemote (hm : m.Going g cur) (process : ProcessId) {argument : Value}
    (hv : m.process.heap.Valid argument) :
    Keeps g cur (newRemote process argument) m fun v m' => m'.process.heap.Valid v := by
  unfold newRemote
  refine (keeps_expectObject hm hv _).bind fun r m₁ hm₁ _ _ => ?_
  exact keeps_newHolder hm₁ .remote rfl (by simp [Payload.external?])

theorem keeps_processStart (hm : m.Going g cur) {receiver argument : Value} (hr : m.process.heap.Valid receiver)
    (ha : m.process.heap.Valid argument) :
    Keeps g cur (processStart receiver argument) m fun v m' => m'.process.heap.Valid v := by
  unfold processStart
  refine (keeps_expectObject hm hr _).bind fun r m₁ hm₁ _ hl => ?_
  obtain ⟨rfl, _, hl⟩ := hl
  refine (keeps_fetch hm₁ hl).bind fun o m₂ hm₂ _ ho => ?_
  obtain ⟨rfl, ho⟩ := ho
  have hrest : Keeps g cur (launchEntry r o argument) m₂ fun v m' => m'.process.heap.Valid v := by
    unfold launchEntry
    split
    · exact keeps_throw hm₂ (by simp)
    · rename_i callee hcallee
      have hval : m₂.process.heap.Valid callee :=
        hm₂.valid_of_object ho (List.mem_append_left _ (Bindings.mem_values_of_get? hcallee))
      refine (keeps_spawn hm₂ hval ha).bind fun x m₃ hm₃ hg₃ hx => ?_
      have hl₃ : m₃.process.heap.isLive r := hg₃.valid _ (valid_object hl) r rfl
      have hsafe : Heap.Safe Heap.Nowhere (Heap.putPayload r (.process (some x.1))) m₃.process.heap fun _ _ => True :=
        Heap.safe_putPayload hm₃.sound hl₃ (by simp [Payload.values]) (by simp [Payload.external?])
      exact (keeps_onHeap hm₃ hsafe fun _ h => h.elim).bind fun _ m₄ hm₄ hg₄ _ => keeps_pure hm₄ (hg₄.valid _ hx)
  dsimp only
  split
  · exact (keeps_throw hm₂ (by simp) (P := fun _ _ => False)).bind fun _ _ _ _ h => h.elim
  · exact hrest

/-! ## All together -/

theorem keeps_receiverPayload (hm : m.Going g cur) {receiver : Value} (hr : m.process.heap.Valid receiver)
    (expected : String) : Keeps g cur (receiverPayload receiver expected) m fun _ m' => m' = m := by
  unfold receiverPayload
  refine (keeps_expectObject hm hr _).bind fun r m₁ hm₁ _ hl => ?_
  obtain ⟨rfl, _, hl⟩ := hl
  refine (keeps_fetch hm₁ hl).bind fun o m₂ hm₂ _ ho => ?_
  exact keeps_pure hm₂ ho.1

/-- Native functions other than the one that collects garbage. -/
theorem keeps_runNative (hm : m.Going g (some t)) {receiver argument : Value} (hr : m.process.heap.Valid receiver)
    (ha : m.process.heap.Valid argument) {body : Native} (hb : body ≠ .collect) :
    Keeps g (some t) (runNative receiver argument body) m fun v m' => m'.process.heap.Valid v := by
  cases body with
  | print => exact keeps_get ((kept_write hm _ ⟨_, _, rfl⟩).lift.bind fun _ m₁ hm₁ _ _ => keeps_pure hm₁ valid_none)
  | println => exact keeps_get ((kept_write hm _ ⟨_, _, rfl⟩).lift.bind fun _ m₁ hm₁ _ _ => keeps_pure hm₁ valid_none)
  | errorln => exact keeps_get ((kept_write hm _ ⟨_, _, rfl⟩).lift.bind fun _ m₁ hm₁ _ _ => keeps_pure hm₁ valid_none)
  | str => exact keeps_asText hm ha
  | len => exact keeps_length hm ha
  | setSuper => exact keeps_setSuper hm ha
  | remote => exact keeps_get (keeps_newRemote hm _ ha)
  | currentTask => exact keeps_get (keeps_newHolder hm .task rfl (by simp [Payload.external?]))
  | currentContext =>
      refine keeps_get ?_
      split
      · refine (kept_pin hm _).lift.bind fun _ m₁ hm₁ _ _ => ?_
        exact keeps_newHolder hm₁ .context rfl (by simp [Payload.external?])
      · exact keeps_pure hm valid_none
  | ownLen => exact keeps_length hm hr
  | concat => exact keeps_concat hm receiver argument
  | arrayPush =>
      refine (keeps_expectObject hm hr _).bind fun r m₁ hm₁ _ hl => ?_
      obtain ⟨rfl, _, hl⟩ := hl
      refine (keeps_onHeap (X := Heap.Nowhere) hm₁ (Heap.safe_arrayPush hm₁.sound hl ha) fun _ h => h.elim).bind
        fun n m₂ hm₂ _ _ => keeps_pure hm₂ valid_scalar
  | arrayPop =>
      refine (keeps_expectObject hm hr _).bind fun r m₁ hm₁ _ hl => ?_
      obtain ⟨rfl, _, hl⟩ := hl
      refine (keeps_onHeap (X := Heap.Nowhere) hm₁ (Heap.safe_arrayPop hm₁.sound hl) fun _ h => h.elim).bind
        fun old m₂ hm₂ _ hold => ?_
      split
      · exact keeps_pure hm₂ (hold _ rfl)
      · exact keeps_throw hm₂ (by simp)
  | errorNew => exact keeps_errorNew hm hr ha
  | futureIsComplete =>
      refine (keeps_expectObject hm hr _).bind fun r m₁ hm₁ _ hl => ?_
      obtain ⟨rfl, _, hl⟩ := hl
      exact (keeps_futureOutcome hm₁ hl).bind fun outcome m₂ hm₂ _ _ => keeps_pure hm₂ valid_ofBool
  | futureGet => exact keeps_futureGet hm hr
  | taskId =>
      refine (keeps_receiverPayload hm hr _).bind fun payload m₁ hm₁ _ _ => ?_
      split
      · exact keeps_pure hm₁ valid_scalar
      · exact keeps_pure hm₁ valid_none
  | taskState =>
      refine (keeps_receiverPayload hm hr _).bind fun payload m₁ hm₁ _ _ => ?_
      split
      · exact keeps_get (kept_newText hm₁ _).lift
      · exact keeps_pure hm₁ valid_none
  | contextModule =>
      refine (keeps_receiverPayload hm hr _).bind fun payload m₁ hm₁ _ _ => ?_
      split
      · exact keeps_get (keeps_reflectValue hm₁ _)
      · exact keeps_pure hm₁ valid_none
  | contextFunction =>
      refine (keeps_receiverPayload hm hr _).bind fun payload m₁ hm₁ _ _ => ?_
      split
      · exact keeps_contextFunction hm₁ _
      · exact keeps_pure hm₁ valid_none
  | processNew =>
      refine (keeps_expectObject hm hr _).bind fun r m₁ hm₁ _ hl => ?_
      obtain ⟨rfl, _, hl⟩ := hl
      exact (keeps_setMember hm₁ hl _ ha).bind fun _ m₂ hm₂ hg₂ _ => keeps_pure hm₂ (hg₂.valid _ hr)
  | processStart => exact keeps_processStart hm hr ha
  | processNumber =>
      refine (keeps_receiverPayload hm hr _).bind fun payload m₁ hm₁ _ _ => ?_
      split
      · exact keeps_pure hm₁ valid_scalar
      · exact keeps_pure hm₁ valid_none
  | pair =>
      refine keeps_newTuple hm fun v hv => ?_
      simp only [List.mem_cons, List.not_mem_nil, or_false] at hv
      rcases hv with rfl | rfl
      · exact hr
      · exact ha
  | lost => exact keeps_newRemote hm _ ha
  | collect => exact absurd rfl hb

end Spool.Machine
