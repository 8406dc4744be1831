import Spool.Machine.Step
import Spool.Proofs.Machine.Call
import Spool.Proofs.Machine.Names

/-!
# Instructions never meet a dead handle

Each instruction takes live values from the register, the stack, the contexts and the heap, and leaves the machine
going or the task parked.
-/

namespace Spool

theorem Process.Fit.setExit {p : Process} {cur : Option TaskId} (hp : p.Fit cur) {v : Value} (hv : p.heap.Valid v) :
    ({ p with exitValue := some v } : Process).Fit cur where
  sound := hp.sound
  values := hp.values
  contexts t task h ha c hc := (hp.contexts t task h ha c hc).congr (fun _ => rfl) fun _ h => h
  exit w hw := by
    cases hw
    exact hv
  entry := hp.entry
  behind r o x ho hx := (hp.behind r o x ho hx).congr (fun _ => rfl) rfl fun _ h => h

theorem Scalar.arithmetic_ne_stale (op : Op) (a b : Scalar) : Scalar.arithmetic op a b ≠ .error .stale := by
  unfold Scalar.arithmetic
  split
  · split
    · simp
    · split <;> simp [Scalar.unsupported]
  · split <;> simp [Scalar.unsupported]

namespace Machine

variable {g : Outlook} {cur : Option TaskId} {m m' : Machine} {t : TaskId} {α β : Type} {v : Value}

/-- Where an instruction leaves the machine. -/
def Reached (g : Outlook) (t : TaskId) : Flow → Machine → Prop
  | .suspend, m => m.Resting g t
  | _, m => m.Going g (some t)

/-- An instruction that never meets a dead handle. -/
def Steps (g : Outlook) (t : TaskId) (act : Act Machine Flow) (m : Machine) : Prop :=
  act.wp m (Reached g t) (fun e m' => m'.Going g (some t) ∧ e ≠ .stale)

theorem Keeps.steps {act : Act Machine α} {k : α → Act Machine Flow} {P : α → Machine → Prop}
    (ha : Keeps g (some t) act m P)
    (hk : ∀ a m', m'.Going g (some t) → m.Grows m' → P a m' → Steps g t (k a) m') : Steps g t (act >>= k) m := by
  unfold Steps
  rw [Act.wp_bind]
  exact Act.wp_mono ha (fun a m₁ h => hk a m₁ h.1 h.2.1 h.2.2) fun _ _ h => ⟨h.1, h.2.2⟩

theorem steps_get {k : Machine → Act Machine Flow} (hk : Steps g t (k m) m) : Steps g t (get >>= k) m := by
  unfold Steps
  rw [Act.wp_bind]
  exact hk

theorem steps_pure (hm : m.Going g (some t)) {flow : Flow} (hf : flow ≠ .suspend) : Steps g t (pure flow) m := by
  cases flow with
  | suspend => exact absurd rfl hf
  | _ => exact hm

theorem steps_throw (hm : m.Going g (some t)) {e : Fault} (he : e ≠ .stale) : Steps g t (throw e) m :=
  ⟨hm, he⟩

theorem steps_accept (hm : m.Going g (some t)) (hv : m.process.heap.Valid v) : Steps g t (accept (.value v)) m :=
  (kept_setRegister hm hv).lift.steps fun _ _ hm₁ _ _ => steps_pure hm₁ (by simp)

theorem Replies.steps {act : Act Machine Reply} (ha : Replies g t v act m) : Steps g t (act >>= accept) m := by
  unfold Steps
  rw [Act.wp_bind]
  refine Act.wp_mono ha (fun reply m₁ hdone => ?_) fun _ _ h => h
  obtain ⟨hr, _⟩ := hdone
  cases reply with
  | value w => exact steps_accept hr.1 hr.2
  | parked => exact hr

/-! ## Operands -/

theorem keeps_jumpTarget (hm : m.Going g cur) (position : Nat) (operand : Operand) :
    Keeps g cur (jumpTarget position operand) m fun _ _ => True := by
  unfold jumpTarget
  dsimp only
  split
  · split
    · exact keeps_throw hm (by simp)
    · exact keeps_pure hm trivial
  · exact keeps_throw hm (by simp)

theorem keeps_nameOperand (hm : m.Going g cur) (position : Nat) (operand : Operand) :
    Keeps g cur (nameOperand position operand) m fun _ m' => m' = m := by
  unfold nameOperand
  split
  · exact keeps_pure hm rfl
  · exact keeps_throw hm (by simp)

theorem keeps_operandValue (hm : m.Going g (some t)) (operand : Operand) :
    Keeps g (some t) (operandValue operand) m fun v m' => m'.process.heap.Valid v := by
  cases operand with
  | none => exact keeps_pure hm valid_none
  | scalar s => exact keeps_pure hm valid_scalar
  | text s => exact (kept_newText hm s).lift
  | name name => exact keeps_resolve hm name

theorem keeps_operandOr (hm : m.Going g (some t)) (operand : Operand) {other : Act Machine Value}
    (ho : Keeps g (some t) other m fun v m' => m'.process.heap.Valid v) :
    Keeps g (some t) (operandOr operand other) m fun v m' => m'.process.heap.Valid v := by
  unfold operandOr
  split
  · exact ho
  · exact keeps_operandValue hm operand

theorem keeps_namedOr (hm : m.Going g (some t)) (operand : Operand) {other : Act Machine Value}
    (ho : Keeps g (some t) other m fun v m' => m'.process.heap.Valid v) :
    Keeps g (some t) (namedOr operand other) m fun v m' => m'.process.heap.Valid v := by
  unfold namedOr
  split
  · exact keeps_resolve hm _
  · exact ho

theorem keeps_readRegister (hm : m.Going g (some t)) :
    Keeps g (some t) readRegister m fun v m' => m' = m ∧ v = m.register ∧ m.process.heap.Valid v :=
  keeps_get (keeps_pure hm ⟨rfl, rfl, hm.valid_register⟩)

theorem keeps_register (hm : m.Going g (some t)) :
    Keeps g (some t) readRegister m fun v m' => m'.process.heap.Valid v :=
  (keeps_readRegister hm).mono fun _ _ _ hr h => hr.valid _ h.2.2

/-! ## Operators -/

theorem keeps_textOperator (hm : m.Going g cur) (op : Op) (lhs rhs : Value) :
    Keeps g cur (textOperator op lhs rhs) m fun v m' => m'.process.heap.Valid v := by
  unfold textOperator
  refine keeps_get ?_
  dsimp only
  split
  · split
    · exact (kept_newText hm _).lift
    · split
      · exact keeps_pure hm valid_ofBool
      · exact keeps_throw hm (by simp)
  · exact keeps_throw hm (by simp)

theorem keeps_scalarOperator (hm : m.Going g cur) (op : Op) (a b : Scalar) :
    Keeps g cur (ExceptT.mk (pure (scalarOperator op a b)) : Act Machine Value) m fun v m' => m'.process.heap.Valid v := by
  unfold scalarOperator
  refine keeps_mk hm (fun v hv => ?_) ?_
  · split at hv
    · cases hv
      exact valid_ofBool
    · cases hx : Scalar.arithmetic op a b with
      | ok s =>
          rw [hx] at hv
          cases hv
          exact valid_scalar
      | error e =>
          rw [hx] at hv
          cases hv
  · split
    · simp
    · intro h
      cases hx : Scalar.arithmetic op a b with
      | ok s =>
          rw [hx] at h
          cases h
      | error e =>
          rw [hx] at h
          cases h
          exact Scalar.arithmetic_ne_stale op a b hx

theorem valid_generalOperator {op : Op} {lhs rhs : Value} (hl : m.process.heap.Valid lhs)
    (hr : m.process.heap.Valid rhs) (hv : m.generalOperator op lhs rhs = some v) : m.process.heap.Valid v := by
  unfold generalOperator at hv
  split at hv
  · cases hv
    exact valid_ofBool
  · cases hv
    exact valid_ofBool
  · cases hv
    exact valid_ofBool
  · cases hv
    exact valid_ofBool
  · split at hv
    · cases hv
      split
      · exact hr
      · exact hl
    · cases hv
  · cases hv

theorem keeps_binary (hm : m.Going g cur) (op : Op) {lhs rhs : Value} (hl : m.process.heap.Valid lhs)
    (hr : m.process.heap.Valid rhs) : Keeps g cur (binary op lhs rhs) m fun v m' => m'.process.heap.Valid v := by
  unfold binary
  refine keeps_get ?_
  split
  · exact keeps_pure hm (valid_generalOperator hl hr ‹_›)
  · split
    · exact keeps_scalarOperator hm op _ _
    · exact keeps_textOperator hm op lhs rhs

theorem keeps_increase (hm : m.Going g (some t)) (op : Op) (operand : Operand) (delta : Int64) :
    Keeps g (some t) (increase op operand delta) m fun _ _ => True := by
  unfold increase
  refine (keeps_namedOr hm operand (keeps_register hm)).bind fun old m₁ hm₁ _ _ => ?_
  split
  · refine (keeps_mk hm₁ (P := fun _ _ => True) (fun _ _ => trivial) (Scalar.arithmetic_ne_stale _ _ _)).bind
      fun s m₂ hm₂ _ _ => ?_
    dsimp only
    split
    · exact (keeps_assign hm₂ _ valid_scalar).bind fun _ m₃ hm₃ _ _ => (kept_setRegister hm₃ valid_scalar).lift
    · exact (kept_setRegister hm₂ valid_scalar).lift
  · exact keeps_get (keeps_throw hm₁ (by simp))

/-! ## Arrays and tuples -/

theorem keeps_slotGet (hm : m.Going g cur) {r : Handle} (hr : m.process.heap.isLive r) (i : Int64) :
    Keeps g cur (look fun h => h.slotGet r i) m fun v m' => m'.process.heap.Valid v := by
  obtain ⟨o, ho⟩ := Heap.isLive_iff.1 hr
  refine keeps_look hm (fun v hv => ?_) (Heap.slotGet_ne_stale hr i)
  obtain ⟨items, hp, hitem⟩ := Heap.slotGet_ok ho hv
  refine hm.valid_of_object ho (List.mem_append_right _ ?_)
  have hmem := Array.mem_of_getElem? hitem
  rcases hp with hp | hp
  · simpa [hp, Payload.values] using hmem
  · simpa [hp, Payload.values] using hmem

theorem keeps_byteAt (hm : m.Going g cur) (s : String) (i : Int64) :
    Keeps g cur (ExceptT.mk (pure (byteAt s i)) : Act Machine Value) m fun v m' => m'.process.heap.Valid v := by
  unfold byteAt
  refine keeps_mk hm (fun v hv => ?_) ?_
  · split at hv
    · cases hv
      exact valid_scalar
    · cases hv
  · split <;> simp

theorem keeps_fastIndex (hm : m.Going g cur) {collection : Value} (hc : m.process.heap.Valid collection)
    (index : Value) : Keeps g cur (fastIndex collection index) m Found := by
  unfold fastIndex
  split
  · rename_i r i _
    have hl := hc r rfl
    refine (keeps_fetch hm hl).bind fun o m₁ hm₁ _ ho => ?_
    obtain ⟨rfl, _⟩ := ho
    split
    · exact Keeps.map (keeps_slotGet hm₁ hl i) fun _ _ hv => found_some hv
    · exact Keeps.map (keeps_slotGet hm₁ hl i) fun _ _ hv => found_some hv
    · exact Keeps.map (keeps_byteAt hm₁ _ i) fun _ _ hv => found_some hv
    · exact keeps_pure hm₁ found_none
  · exact keeps_pure hm found_none

theorem keeps_slotSet (hm : m.Going g cur) {r : Handle} (hr : m.process.heap.isLive r) (i : Int64)
    (hv : m.process.heap.Valid v) : Keeps g cur (onHeap (Heap.slotSet r i v)) m fun _ _ => True :=
  keeps_onHeap (X := Heap.Nowhere) hm (Heap.safe_slotSet hm.sound hr i hv) fun _ h => h.elim

theorem keeps_fastStore (hm : m.Going g cur) {collection : Value} (hc : m.process.heap.Valid collection)
    (index : Value) (hv : m.process.heap.Valid v) :
    Keeps g cur (fastStore collection index v) m fun _ _ => True := by
  unfold fastStore
  split
  · rename_i r i _
    have hl := hc r rfl
    refine (keeps_fetch hm hl).bind fun o m₁ hm₁ _ ho => ?_
    obtain ⟨rfl, _⟩ := ho
    split
    · exact (keeps_slotSet hm₁ hl i hv).bind fun _ m₂ hm₂ _ _ => keeps_pure hm₂ trivial
    · exact (keeps_slotSet hm₁ hl i hv).bind fun _ m₂ hm₂ _ _ => keeps_pure hm₂ trivial
    · exact keeps_pure hm₁ trivial
  · exact keeps_pure hm trivial

theorem keeps_arguments (hm : m.Going g cur) (hv : m.process.heap.Valid v) :
    Keeps g cur (arguments v) m fun vs m' => ∀ w ∈ vs, m'.process.heap.Valid w := by
  unfold arguments
  split
  · exact keeps_pure hm fun w hw => by cases hw
  · rename_i r
    refine (keeps_fetch hm (hv r rfl)).bind fun o m₁ hm₁ _ ho => ?_
    obtain ⟨rfl, ho⟩ := ho
    refine keeps_pure hm₁ fun w hw => ?_
    cases htuple : o.tuple? with
    | none =>
        rw [htuple] at hw
        rw [List.mem_singleton.1 hw]
        exact hv
    | some items =>
        rw [htuple] at hw
        refine hm₁.valid_of_object ho (List.mem_append_right _ ?_)
        unfold Object.tuple? at htuple
        split at htuple
        · rename_i hp
          cases htuple
          simpa [hp, Payload.values] using hw
        · cases htuple
  · exact keeps_pure hm fun w hw => by
      rw [List.mem_singleton.1 hw]
      exact hv

theorem keeps_element (hm : m.Going g (some t)) (operand : Operand) :
    Keeps g (some t) (element operand) m Found := by
  unfold element argumentAt
  refine (keeps_peek hm 0).bind fun v m₁ hm₁ _ hv => ?_
  refine (keeps_arguments hm₁ hv).bind fun items m₂ hm₂ _ hitems => keeps_pure hm₂ fun w hw => ?_
  split at hw
  · cases hw
  · exact hitems w (List.mem_of_getElem? hw)

/-! ## Blocks -/

theorem kept_setContexts (hm : m.Going g (some t)) {f : List ContextId → List ContextId} (hne : ∀ cs, f cs ≠ [])
    (hs : ∀ cs, ∀ c ∈ f cs, c ∈ cs ∨ m.process.Secure c) :
    Kept g (some t) (modifyCurrent fun t => { t with contexts := f t.contexts }) m fun _ _ => True := by
  obtain ⟨rfl, hr⟩ := hm.current
  refine ⟨hm.update ?_ rfl rfl fun t ht => ?_, ⟨rfl, fun _ h => h⟩, trivial⟩
  · exact hm.inv.intact.modifyTask (fun _ => rfl) (fun _ _ => ⟨rfl, rfl, fun _ _ => ⟨rfl, rfl⟩⟩) (fun _ => rfl)
      (fun _ _ h => absurd rfl h) (fun _ _ _ h => .inl h) (fun _ _ => hs _) fun _ _ => .inl rfl
  · cases ht
    exact hr.modifyTask (fun _ => rfl) fun _ _ => hne _

theorem kept_newContext (hm : m.Going g cur) {x : Context} (hv : ∀ v ∈ x.values, m.process.heap.Valid v)
    (hx : ∀ d, x.previous = some d → m.process.Secure d) :
    Kept g cur (updateProcess fun p => p.newContext x) m fun c m' => m'.process.Secure c := by
  obtain ⟨hp, hnew, _⟩ := hm.inv.intact.newContext hv hx
  obtain ⟨contexts, free, heq⟩ := Process.newContext_frame m.process x
  have hrun : (updateProcess fun p => p.newContext x) m
      = ((m.process.newContext x).1, { m with process := (m.process.newContext x).2 }) := rfl
  unfold Kept
  rw [hrun]
  rw [heq] at hp hnew ⊢
  exact ⟨hm.update hp rfl rfl fun x hx => (hm.running x hx).2, ⟨rfl, fun _ h => h⟩, hnew⟩

theorem kept_openBlock (hm : m.Going g (some t)) {top : ContextId} (htop : m.top? = some top) (position : Nat) :
    Kept g (some t) (openBlock top position) m fun _ _ => True := by
  unfold openBlock
  refine kept_get ((kept_newContext hm (fun v hv => ?_) fun d hd => ?_).bind fun c m₁ hm₁ _ hc => ?_)
  · have : v = (m.process.contextAt top).receiver := by simpa [Context.values, Bindings.values] using hv
    rw [this]
    exact hm.valid_receiver htop
  · cases hd
    exact hm.secure_top htop
  · refine kept_setContexts hm₁ (f := fun cs => c :: cs) (fun _ => by simp) fun cs d hd => ?_
    rcases List.mem_cons.1 hd with rfl | hd
    · exact .inr hc
    · exact .inl hd

theorem kept_setCursor (hm : m.Going g cur) (c : ContextId) (position : Nat) :
    Kept g cur (setCursor c position) m fun _ _ => True :=
  kept_modifyContext hm c (fun c => { c with cursor := position }) (fun _ _ h => .inl h) fun _ => rfl


theorem kept_releaseContext (hm : m.Going g cur) (c : ContextId) :
    Kept g cur (modifyProcess fun p => p.releaseContext c) m fun _ _ => True := by
  obtain ⟨contexts, free, heq⟩ := Process.releaseContext_eq m.process c
  refine (kept_modifyProcess hm (hm.inv.intact.releaseContext c) ?_ ?_ ?_ fun x hx => ?_).mono fun _ _ _ _ _ => trivial
  · rw [heq]
  · rw [heq]
  · rw [heq]
  · rw [heq]
    exact (hm.running x hx).2

theorem keeps_closeBlock (hm : m.Going g (some t)) (top : ContextId) (position : Nat) :
    Keeps g (some t) (closeBlock top position) m fun _ _ => True := by
  unfold closeBlock
  refine keeps_get ?_
  split
  · rename_i outer rest _ hcs
    have hsec : ∀ c ∈ outer :: rest, m.process.Secure c := fun c hc => hm.secure c (by rw [hcs]; exact List.mem_cons_of_mem _ hc)
    refine (kept_setContexts hm (f := fun _ => outer :: rest) (fun _ => by simp) fun _ c hc => .inr (hsec c hc)).lift.bind
      fun _ m₁ hm₁ _ _ => ?_
    refine (kept_releaseContext hm₁ top).lift.bind fun _ m₂ hm₂ _ _ => ?_
    exact (kept_setCursor hm₂ outer _).lift
  · exact keeps_throw hm (by simp)

/-! ## Storing -/

/-- No task has changed. -/
def Unmoved (m m' : Machine) : Prop := m'.process.tasks = m.process.tasks ∧ m'.task = m.task

theorem Unmoved.register {m m' : Machine} (hu : m.Unmoved m') : m'.register = m.register := by
  simp only [Machine.register, current, Process.taskAt, hu.1, hu.2]

theorem Keeps.unmoved {act : Act Machine α} {P : α → Machine → Prop} (ha : Keeps g cur act m P)
    (hu : Preserves m.Unmoved act) : Keeps g cur act m fun a m' => P a m' ∧ m.Unmoved m' := by
  have := hu m ⟨rfl, rfl⟩
  unfold Keeps Act.wp at ha ⊢
  rcases hx : act m with ⟨_ | a, m'⟩
  · rw [hx] at ha
    exact ha
  · rw [hx] at ha this
    exact ⟨ha.1, ha.2.1, ha.2.2, this⟩

theorem unmoved_onHeap (act : Act Heap α) : Preserves m.Unmoved (onHeap act) := fun _ h => h

theorem unmoved_look (f : Heap → Except Fault α) : Preserves m.Unmoved (look f) := fun _ h => h

theorem unmoved_lift {act : StateM Machine α} (ha : ∀ s : Machine, s.Unmoved (act s).2) :
    Preserves m.Unmoved (liftM act : Act Machine α) := fun s hs =>
  ⟨(ha s).1.trans hs.1, (ha s).2.trans hs.2⟩

theorem unmoved_map {act : Act Machine α} {f : α → β} (ha : Preserves m.Unmoved act) : Preserves m.Unmoved (f <$> act) :=
  preserves_bind ha fun _ => preserves_pure _

theorem unmoved_newBound (b : BoundFunction) : Preserves m.Unmoved (newBound b) := by
  unfold newBound
  have hnew : Preserves m.Unmoved (do
      let r ← newObject .functionRef
      discard <| onHeap (Heap.replacePayload r (.bound b))
      return .object r : Act Machine Value) := by
    refine preserves_bind (unmoved_lift fun _ => ⟨rfl, rfl⟩) fun r => ?_
    exact preserves_bind (unmoved_map (unmoved_onHeap _)) fun _ => preserves_pure _
  split
  · rename_i c _
    refine preserves_bind (unmoved_lift fun s => ⟨?_, rfl⟩) fun _ => hnew
    obtain ⟨contexts, heq⟩ := Process.pinFrom_eq s.process.contexts.size c s.process
    change (s.process.pin c).tasks = _
    rw [Process.pin, heq]
  · exact hnew

theorem unmoved_moduleMember (module : ModuleId) (name : String) : Preserves m.Unmoved (moduleMember module name) := by
  unfold moduleMember
  refine preserves_bind (unmoved_onHeap _) fun object => preserves_bind (unmoved_look _) fun v => ?_
  split
  · exact preserves_pure _
  · refine preserves_get fun s _ => ?_
    dsimp only
    split
    · split
      · exact preserves_bind (unmoved_newBound _) fun _ => preserves_pure _
      · exact preserves_bind (unmoved_map (unmoved_onHeap _)) fun _ => preserves_pure _
    · split
      · exact preserves_bind (unmoved_map (unmoved_onHeap _)) fun _ => preserves_pure _
      · exact preserves_pure _

theorem unmoved_getMember (target : Value) (name : String) : Preserves m.Unmoved (getMember target name) := by
  have hmethod : Preserves m.Unmoved (boundMethod target name) := by
    unfold boundMethod
    refine preserves_get fun s _ => ?_
    split
    · exact preserves_throw _
    · split
      · exact unmoved_newBound _
      · exact preserves_throw _
  have hcontent : ∀ r, Preserves m.Unmoved (contentMember r name) := by
    intro r
    unfold contentMember
    refine preserves_bind (unmoved_look _) fun o => ?_
    split
    · exact preserves_pure _
    · split
      · exact unmoved_moduleMember _ name
      · refine preserves_get fun s _ => ?_
        split
        · exact preserves_bind (unmoved_map (unmoved_onHeap _)) fun _ => preserves_pure _
        · exact preserves_pure _
      · exact preserves_pure _
  unfold getMember
  split
  · refine preserves_bind (hcontent _) fun v => ?_
    split
    · exact preserves_pure _
    · exact hmethod
  · exact hmethod

theorem unmoved_fastStore (collection index v : Value) : Preserves m.Unmoved (fastStore collection index v) := by
  unfold fastStore
  split
  · refine preserves_bind (unmoved_look _) fun o => ?_
    split
    · exact preserves_bind (unmoved_onHeap _) fun _ => preserves_pure _
    · exact preserves_bind (unmoved_onHeap _) fun _ => preserves_pure _
    · exact preserves_pure _
  · exact preserves_pure _

/-- The register of a task that may be parked is set. -/
theorem Resting.setRegister (hm : m.Resting g t) (hv : m.process.heap.Valid v) : (setRegister v m).2.Resting g t := by
  obtain ⟨hinv, rfl, hun⟩ := hm
  refine ⟨hinv.update (hinv.intact.setRegister hv hun) rfl rfl, rfl, ?_⟩
  change ¬ ((m.process.modifyTask m.task _).taskAt m.task).state.isFinished
  rw [Process.taskAt_modifyTask]
  split
  · exact hun
  · exact hun

theorem steps_store (hm : m.Going g (some t)) : Steps g t store m := by
  unfold store
  refine (keeps_pop hm).steps fun i m₁ hm₁ _ hi => (keeps_pop hm₁).steps fun collection m₂ hm₂ hr₂ hc => ?_
  refine (keeps_readRegister hm₂).steps fun v m₃ hm₃ hr₃ hv => ?_
  obtain ⟨rfl, hreg, hv⟩ := hv
  have hi₂ := hr₂.valid i hi
  refine ((keeps_fastStore hm₃ hc i hv).unmoved (unmoved_fastStore _ _ _)).steps fun stored m₄ hm₄ hr₄ hdone => ?_
  obtain ⟨_, hu₄⟩ := hdone
  split
  · exact steps_pure hm₄ (by simp)
  refine ((keeps_getMember hm₄ (hr₄.valid _ hc) "__set__").unmoved (unmoved_getMember _ _)).steps
    fun method m₅ hm₅ hr₅ hdone => ?_
  obtain ⟨hmethod, hu₅⟩ := hdone
  have hpair : ∀ w ∈ [i, v], m₅.process.heap.Valid w := by
    intro w hw
    simp only [List.mem_cons, List.not_mem_nil, or_false] at hw
    rcases hw with rfl | rfl
    · exact hr₅.valid _ (hr₄.valid _ hi₂)
    · exact hr₅.valid _ (hr₄.valid _ hv)
  refine ((keeps_newTuple hm₅ hpair).unmoved (unmoved_map (unmoved_onHeap _))).steps fun pair m₆ hm₆ hr₆ hdone => ?_
  obtain ⟨hp, hu₆⟩ := hdone
  -- no matter what the call does to the heap, the value is in the register all the while
  have hsame : v = m₆.register := by
    rw [hu₆.register, hu₅.register, hu₄.register]
    exact hreg
  have hcall := replies_call hm₆ (hr₆.valid _ hmethod) hp .keep
  rw [← hsame] at hcall
  unfold Steps
  rw [Act.wp_bind]
  refine Act.wp_mono hcall (fun reply m₇ hdone => ?_) fun _ _ h => h
  obtain ⟨hreply, hv₇⟩ := hdone
  cases reply with
  | value w => exact (kept_setRegister hreply.1 hv₇).lift.steps fun _ m₈ hm₈ _ _ => steps_pure hm₈ (by simp)
  | parked => exact Resting.setRegister hreply hv₇

/-! ## One instruction -/

theorem Keeps.yields {act : Act Machine Value} (ha : Keeps g (some t) act m fun v m' => m'.process.heap.Valid v) :
    Steps g t (act >>= fun v => accept (.value v)) m :=
  ha.steps fun _ _ hm₁ _ hv => steps_accept hm₁ hv

theorem keeps_returnValue (hm : m.Going g (some t)) (operand : Operand) :
    Keeps g (some t) (returnValue operand) m fun v m' => m'.process.heap.Valid v := by
  unfold returnValue
  refine (keeps_operandOr hm operand (keeps_register hm)).bind fun v m₁ hm₁ _ hv => ?_
  exact (kept_setRegister hm₁ hv).lift.bind fun _ m₂ hm₂ hr₂ _ => keeps_pure hm₂ (hr₂.valid _ hv)

theorem steps_jumpWhen (hm : m.Going g (some t)) (truth : Bool) (position : Nat) (operand : Operand) :
    Steps g t (jumpWhen truth position operand) m := by
  unfold jumpWhen
  refine (keeps_register hm).steps fun v m₁ hm₁ _ _ => ?_
  split
  · exact (keeps_jumpTarget hm₁ position operand).steps fun _ m₂ hm₂ _ _ => steps_pure hm₂ (by simp)
  · exact steps_pure hm₁ (by simp)

theorem steps_index (hm : m.Going g (some t)) : Steps g t index m := by
  unfold index
  refine (keeps_pop hm).steps fun collection m₁ hm₁ _ hc => ?_
  refine (keeps_readRegister hm₁).steps fun i m₂ hm₂ _ hi => ?_
  obtain ⟨rfl, _, hi⟩ := hi
  refine (keeps_fastIndex hm₂ hc i).steps fun found m₃ hm₃ hr₃ hf => ?_
  split
  · exact steps_accept hm₃ (hf _ rfl)
  · refine (keeps_getMember hm₃ (hr₃.valid _ hc) "__index__").steps fun method m₄ hm₄ hr₄ hmethod => ?_
    exact (replies_call hm₄ hmethod (hr₄.valid _ (hr₃.valid _ hi)) .result).steps

theorem steps_isA (hm : m.Going g (some t)) (operand : Operand) :
    Steps g t (do
      let v ← match operand with
        | .name _ => readRegister
        | _ => pop
      let c ← expectClass (← namedOr operand readRegister)
      (do return .ofBool ((← get).isInstance v c) : Act Machine Value) >>= fun v => accept (.value v)) m := by
  have hrest : ∀ v m₁, m₁.Going g (some t) → Steps g t (do
      let c ← expectClass (← namedOr operand readRegister)
      (do return .ofBool ((← get).isInstance v c) : Act Machine Value) >>= fun v => accept (.value v)) m₁ := by
    intro v m₁ hm₁
    refine (keeps_namedOr hm₁ operand (keeps_register hm₁)).steps fun c m₂ hm₂ _ hc => ?_
    refine (keeps_expectClass hm₂ hc).steps fun c m₃ hm₃ _ _ => ?_
    exact Keeps.yields (keeps_get (keeps_pure hm₃ valid_ofBool))
  dsimp only
  split
  · exact (keeps_register hm).steps fun v m₁ hm₁ _ _ => hrest v m₁ hm₁
  · exact (keeps_pop hm).steps fun v m₁ hm₁ _ _ => hrest v m₁ hm₁

theorem steps_binary (hm : m.Going g (some t)) (op : Op) (operand : Operand) :
    Steps g t (if operand.isNone then do
        let lhs ← pop
        (do binary op lhs (← readRegister)) >>= fun v => accept (.value v)
      else do
        let lhs ← readRegister
        (do binary op lhs (← operandValue operand)) >>= fun v => accept (.value v)) m := by
  split
  · refine (keeps_pop hm).steps fun lhs m₁ hm₁ _ hl => Keeps.yields ?_
    exact (keeps_register hm₁).bind fun rhs m₂ hm₂ hr₂ hr => keeps_binary hm₂ op (hr₂.valid _ hl) hr
  · refine (keeps_register hm).steps fun lhs m₁ hm₁ _ hl => Keeps.yields ?_
    exact (keeps_operandValue hm₁ operand).bind fun rhs m₂ hm₂ hr₂ hr => keeps_binary hm₂ op (hr₂.valid _ hl) hr

theorem steps_raise (hm : m.Going g (some t)) :
    Steps g t (do
      let v ← readRegister
      let m ← get
      if m.isInstance v .error then throw (.raised (← expectObject v "Error"))
      throw (.notAnError (m.typeName v))) m := by
  refine (keeps_readRegister hm).steps fun v m₁ hm₁ _ hv => steps_get ?_
  obtain ⟨rfl, _, hv⟩ := hv
  dsimp only
  split
  · refine (keeps_expectObject hm₁ hv "Error").steps fun r m₂ hm₂ _ _ => ?_
    exact (keeps_throw hm₂ (by simp) (P := fun _ _ => False)).steps fun _ _ _ _ h => h.elim
  · exact steps_throw hm₁ (by simp)

theorem kept_setExit (hm : m.Going g cur) (hv : m.process.heap.Valid v) :
    Kept g cur (modifyProcess fun p => { p with exitValue := some v }) m fun _ _ => True :=
  (kept_modifyProcess hm (hm.inv.intact.refit (hm.inv.intact.fit.setExit hv) rfl rfl rfl rfl rfl rfl rfl) rfl rfl rfl
    fun x hx => (hm.running x hx).2).mono fun _ _ _ _ _ => trivial

/-- No instruction of a machine that is going meets a dead handle. -/
theorem steps_step (hm : m.Going g (some t)) {top : ContextId} (htop : m.top? = some top) (position : Nat)
    (i : Instruction) : Steps g t (step top position i) m := by
  obtain ⟨op, operand⟩ := i
  have hname := keeps_nameOperand hm position operand
  unfold step
  cases op with
  | nop => exact steps_pure hm (by simp)
  | load => exact Keeps.yields (keeps_operandOr hm operand (keeps_pop hm))
  | push =>
      refine (keeps_operandOr hm operand (keeps_register hm)).steps fun v m₁ hm₁ _ hv => ?_
      exact (kept_push hm₁ hv).lift.steps fun _ m₂ hm₂ _ _ => steps_pure hm₂ (by simp)
  | peek => exact Keeps.yields (keeps_peek hm _)
  | dup =>
      refine (keeps_peek hm 0).steps fun v m₁ hm₁ _ hv => ?_
      exact (kept_push hm₁ hv).lift.steps fun _ m₂ hm₂ _ _ => steps_pure hm₂ (by simp)
  | pushNone => exact (kept_push hm valid_none).lift.steps fun _ m₁ hm₁ _ _ => steps_pure hm₁ (by simp)
  | clear => exact steps_accept hm valid_none
  | setField =>
      refine hname.steps fun name m₁ hm₁ _ _ => (keeps_pop hm₁).steps fun target m₂ hm₂ _ htarget => ?_
      refine (keeps_readRegister hm₂).steps fun v m₃ hm₃ _ hv => ?_
      obtain ⟨rfl, _, hv⟩ := hv
      exact (keeps_setField hm₃ htarget name hv).steps fun _ m₄ hm₄ _ _ => steps_pure hm₄ (by simp)
  | bind =>
      refine hname.steps fun name m₁ hm₁ _ _ => (keeps_register hm₁).steps fun v m₂ hm₂ _ hv => ?_
      exact (keeps_bind hm₂ name hv).steps fun _ m₃ hm₃ _ _ => steps_pure hm₃ (by simp)
  | assign =>
      refine hname.steps fun name m₁ hm₁ _ _ => (keeps_register hm₁).steps fun v m₂ hm₂ _ hv => ?_
      exact (keeps_assign hm₂ name hv).steps fun _ m₃ hm₃ _ _ => steps_pure hm₃ (by simp)
  | member =>
      refine hname.steps fun name m₁ hm₁ _ _ => (keeps_register hm₁).steps fun v m₂ hm₂ _ hv => ?_
      exact Keeps.yields (keeps_getMember hm₂ hv name)
  | memberPush =>
      refine hname.steps fun name m₁ hm₁ _ _ => (keeps_register hm₁).steps fun v m₂ hm₂ _ hv => ?_
      refine (keeps_getMember hm₂ hv name).steps fun w m₃ hm₃ _ hw => ?_
      exact (kept_push hm₃ hw).lift.steps fun _ m₄ hm₄ hr₄ _ => steps_accept hm₄ (hr₄.valid _ hw)
  | call =>
      refine (keeps_namedOr hm operand (keeps_pop hm)).steps fun callee m₁ hm₁ _ hc => ?_
      refine (keeps_register hm₁).steps fun v m₂ hm₂ hr₂ hv => ?_
      exact (replies_call hm₂ (hr₂.valid _ hc) hv .result).steps
  | callBare =>
      refine (keeps_namedOr hm operand (keeps_register hm)).steps fun callee m₁ hm₁ _ hc => ?_
      exact (replies_call hm₁ hc valid_none .result).steps
  | jump => exact (keeps_jumpTarget hm position operand).steps fun _ m₁ hm₁ _ _ => steps_pure hm₁ (by simp)
  | jumpIf => exact steps_jumpWhen hm true position operand
  | jumpUnless => exact steps_jumpWhen hm false position operand
  | handler =>
      refine (keeps_jumpTarget hm position operand).steps fun target m₁ hm₁ _ _ => ?_
      refine Kept.lift (kept_modifyContext hm₁ top (fun c => { c with handler := some target }) (fun _ _ h => .inl h)
        fun _ => rfl) |>.steps fun _ m₂ hm₂ _ _ => steps_pure hm₂ (by simp)
  | ret =>
      refine (Keeps.discard (keeps_returnValue hm operand) (Q := fun _ _ => True) fun _ _ _ => trivial).steps
        fun _ m₁ hm₁ _ _ => steps_pure hm₁ (by simp)
  | exit =>
      refine (keeps_returnValue hm operand).steps fun v m₁ hm₁ _ hv => ?_
      exact (kept_setExit hm₁ hv).lift.steps fun _ m₂ hm₂ _ _ => steps_pure hm₂ (by simp)
  | openBlock => exact (kept_openBlock hm htop position).lift.steps fun _ m₁ hm₁ _ _ => steps_pure hm₁ (by simp)
  | closeBlock => exact (keeps_closeBlock hm top position).steps fun _ m₁ hm₁ _ _ => steps_pure hm₁ (by simp)
  | array => exact Keeps.yields ((keeps_popMany hm _).bind fun vs m₁ hm₁ _ hvs => keeps_newArray hm₁ hvs)
  | tuple => exact Keeps.yields ((keeps_popMany hm _).bind fun vs m₁ hm₁ _ hvs => keeps_newTuple hm₁ hvs)
  | index => exact steps_index hm
  | store => exact steps_store hm
  | element =>
      refine (keeps_element hm operand).steps fun found m₁ hm₁ _ hf => ?_
      split
      · exact steps_accept hm₁ (hf _ rfl)
      · exact steps_throw hm₁ (by simp)
  | elementOr =>
      refine (keeps_element hm operand).steps fun found m₁ hm₁ _ hf => ?_
      split
      · exact steps_accept hm₁ (hf _ rfl)
      · exact steps_pure hm₁ (by simp)
  | length =>
      refine Keeps.yields ((keeps_peek hm 0).bind fun v m₁ hm₁ _ hv => ?_)
      exact (keeps_arguments hm₁ hv).bind fun vs m₂ hm₂ _ _ => keeps_pure hm₂ valid_scalar
  | not => exact Keeps.yields ((keeps_register hm).bind fun v m₁ hm₁ _ _ => keeps_pure hm₁ valid_ofBool)
  | inc => exact (keeps_increase hm .inc operand 1).steps fun _ m₁ hm₁ _ _ => steps_pure hm₁ (by simp)
  | dec => exact (keeps_increase hm .dec operand (-1)).steps fun _ m₁ hm₁ _ _ => steps_pure hm₁ (by simp)
  | isA => exact steps_isA hm operand
  | loadModule => exact hname.steps fun name m₁ hm₁ _ _ => (replies_loadModule hm₁ name).steps
  | raise => exact steps_raise hm
  | wait =>
      refine (keeps_register hm).steps fun v m₁ hm₁ _ hv => (replies_wait hm₁ hv).steps
  | _ => exact steps_binary hm _ operand

end Machine

end Spool
