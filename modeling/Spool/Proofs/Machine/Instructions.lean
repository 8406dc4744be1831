import Spool.Proofs.Machine.Suspensions

/-!
# What instructions do

An instruction of a tape without flaws is never malformed, and its jumps stay on the tape. But for those that open and
close blocks it is a row of deeds. One that parks its task waits for a task it has called or found at work, and what it
keeps in the register says which.
-/

namespace Spool.Machine

variable {m m₁ m₂ m' n : Machine} {α β : Type} {y : TaskId} {i : Instruction} {top : ContextId} {position size : Nat}

/-- What an instruction calls. -/
def callee (i : Instruction) : Act Machine Value :=
  match i.op with
  | .call => namedOr i.operand pop
  | .callBare => namedOr i.operand readRegister
  | .index => do getMember (← pop) "__index__"
  | _ => return .none

/-- What the instruction waits for that has parked its task. -/
inductive Awaits (m m' : Machine) (i : Instruction) (y : TaskId) : Delivery → Prop where
  | call (n : Machine) (r : Handle) (o : Object) (d : Delivery) : i.op = .call ∨ i.op = .callBare ∨ i.op = .index →
      callee i m = (.ok (.object r), n) → n.process.heap.object? r = some o → Calls n m' .result y o.payload d →
      Awaits m m' i y d
  /-- What the method of the collection does with the register does not matter. -/
  | store (n n' : Machine) (r : Handle) (o : Object) : i.op = .store → n.process.heap.object? r = some o →
      Calls n n' .keep y o.payload .keep → m'.register = m.register → m'.WaitsFor y .keep → Awaits m m' i y .keep
  | load (name : String) (module : ModuleId) (n : Machine) (r : Handle) : i.op = .loadModule → i.operand = .name name →
      onRegistry (m.host.library.resolve name) m = (.ok module, n) → (moduleObject module n).1 = .ok r →
      m'.register = .object r → m'.process.modules.get? module = some (.initializing y) →
      (y.index < m'.process.tasks.size → m'.WaitsFor y .keep) → Awaits m m' i y .keep
  | wait (r : Handle) (o : Object) (cell : FutureCell) : i.op = .wait → m.register = .object r →
      m.process.heap.object? r = some o → o.future? = some cell → ¬ cell.memoized → cell.task = y →
      ¬ (m.process.taskAt y).state.isFinished →
      (y.index < m.process.tasks.size → m'.WaitsFor y .result) → Awaits m m' i y .result

/-- The instruction ends on the tape; where it parks the task, with `Q`. -/
def Goes (size : Nat) (Q : Machine → Prop) (flow : Flow) (m : Machine) : Prop :=
  (∀ target, flow = .jump target → target ≤ size) ∧ (flow = .suspend → Q m)

section
variable {Q : Machine → Prop}

theorem goes_next : Goes size Q .next m := ⟨nofun, nofun⟩

theorem goes_finished : Goes size Q .finished m := ⟨nofun, nofun⟩

theorem goes_jump {target : Nat} (ht : target ≤ size) : Goes size Q (.jump target) m :=
  ⟨fun _ h => by cases h; exact ht, nofun⟩

theorem behaves_accept {reply : Reply} (hr : reply = .parked → Q m) : Behaves (accept reply) m (Goes size Q) := by
  cases reply with
  | value v => exact (decent_setRegister v m).bind fun _ _ _ => behaves_pure goes_next
  | parked => exact behaves_pure ⟨nofun, fun _ => hr rfl⟩

theorem behaves_value (v : Value) : Behaves (accept (.value v)) m (Goes size Q) := behaves_accept nofun

theorem behaves_yields {act : Act Machine Value} (ha : Decent act) :
    Behaves (do accept (.value (← act))) m (Goes size Q) :=
  (ha m).bind fun v _ _ => behaves_value v

end

/-! ## Operands -/

theorem behaves_nameOperand (hf : i.flaw? position size = none) (hi : i.op.shape = .identifier) :
    Behaves (nameOperand position i.operand) m fun name m' => m = m' ∧ i.operand = .name name := by
  unfold Instruction.flaw? at hf
  rw [hi] at hf
  cases ho : i.operand with
  | name name => exact behaves_pure ⟨rfl, rfl⟩
  | none => simp [ho] at hf
  | scalar s => simp [ho] at hf
  | text s => simp [ho] at hf

theorem behaves_jumpTarget (hf : i.flaw? position size = none) (hi : i.op.isJump) :
    Behaves (jumpTarget position i.operand) m fun target m' => m = m' ∧ target ≤ size := by
  have hshape : i.op.shape = .offset := by
    unfold Op.isJump at hi
    split at hi <;> simp_all [Op.shape]
  unfold Instruction.flaw? at hf
  rw [hshape] at hf
  unfold jumpTarget
  cases hk : i.operand.int? with
  | none => simp [hk] at hf
  | some k =>
      simp only [hk, hi, if_true] at hf
      split at hf
      · cases hf
      split at hf
      · cases hf
      · rename_i hrange
        simp only [Bool.or_eq_true, decide_eq_true_eq, not_or, Int.not_lt] at hrange
        simp only [Option.map_some]
        rw [if_neg (Int.not_lt.2 hrange.1)]
        refine behaves_pure ⟨rfl, ?_⟩
        omega

theorem decent_operandValue (operand : Operand) : Decent (operandValue operand) := by
  cases operand with
  | none => exact decent_pure _
  | scalar s => exact decent_pure _
  | text s => exact decent_newText s
  | name name => exact decent_resolve name

theorem decent_operandOr (operand : Operand) {other : Act Machine Value} (ho : Decent other) :
    Decent (operandOr operand other) := by
  unfold operandOr
  split
  · exact ho
  · exact decent_operandValue operand

theorem decent_namedOr (operand : Operand) {other : Act Machine Value} (ho : Decent other) :
    Decent (namedOr operand other) := by
  cases operand with
  | name name => exact decent_resolve name
  | none => exact ho
  | scalar s => exact ho
  | text s => exact ho

theorem decent_readRegister : Decent readRegister := decent_get fun _ => behaves_pure trivial

theorem behaves_readRegister : Behaves readRegister m fun v m' => m = m' ∧ v = m.register :=
  behaves_get (behaves_pure ⟨rfl, rfl⟩)

/-! ## Operators -/

theorem decent_textOperator (op : Op) (lhs rhs : Value) : Decent (textOperator op lhs rhs) := by
  unfold textOperator
  refine decent_get fun m => ?_
  dsimp only
  split
  · split
    · exact decent_newText _ m
    · split
      · exact behaves_pure trivial
      · exact behaves_throw (by simp [Fault.isMalformed])
  · exact behaves_throw (by simp [Fault.isMalformed])

theorem decent_binary (op : Op) (lhs rhs : Value) : Decent (binary op lhs rhs) := by
  unfold binary
  refine decent_get fun m => ?_
  split
  · exact behaves_pure trivial
  · split
    · refine decent_mk (fun e he => ?_) m
      unfold scalarOperator at he
      split at he
      · cases he
      · rename_i a b _ _
        cases ha : Scalar.arithmetic op a b with
        | ok s => simp [ha, Except.map] at he
        | error e' =>
            simp only [ha, Except.map] at he
            cases he
            exact Scalar.not_malformed_arithmetic ha
    · exact decent_textOperator op lhs rhs m

theorem decent_increase (op : Op) (operand : Operand) (delta : Int64) : Decent (increase op operand delta) := by
  unfold increase
  refine (decent_namedOr operand decent_readRegister).bind fun old => ?_
  split
  · refine (decent_mk fun _ => Scalar.not_malformed_arithmetic).bind fun s => ?_
    dsimp only
    split
    · exact (decent_assign _ _).bind fun _ => decent_setRegister _
    · exact decent_setRegister _
  · exact decent_refuse fun _ => by simp [Fault.isMalformed]

/-! ## Arrays and tuples -/

/-- Where there is no item to be found, nothing has been done. -/
theorem behaves_fastIndex (collection index : Value) :
    Behaves (fastIndex collection index) m fun found m' => found = none → m = m' := by
  unfold fastIndex
  split
  · refine (behaves_fetch _).bind ?_
    rintro o _ ⟨rfl, _⟩
    split
    · exact (decent_look (fun _ _ => Heap.not_malformed_slotGet) _).map fun _ _ _ => nofun
    · exact (decent_look (fun _ _ => Heap.not_malformed_slotGet) _).map fun _ _ _ => nofun
    · refine (decent_mk (fun e he => ?_) _).map fun _ _ _ => nofun
      unfold byteAt at he
      split at he
      · cases he
      · cases he
        simp [Fault.isMalformed]
    · exact behaves_pure fun _ => rfl
  · exact behaves_pure fun _ => rfl

theorem decent_slotSet (r : Handle) (k : Int64) (v : Value) : Decent (onHeap (Heap.slotSet r k v)) :=
  decent_onHeap (fun _ hQ => Heap.each_slotSet hQ r k v) (Heap.not_malformed_slotSet r k v)

theorem decent_fastStore (collection index v : Value) : Decent (fastStore collection index v) := by
  unfold fastStore
  split
  · refine (decent_fetch _).bind fun o => ?_
    split
    · exact (decent_slotSet _ _ v).bind fun _ => decent_pure _
    · exact (decent_slotSet _ _ v).bind fun _ => decent_pure _
    · exact decent_pure _
  · exact decent_pure _

theorem decent_arguments (v : Value) : Decent (arguments v) := by
  cases v with
  | none => exact decent_pure _
  | scalar s => exact decent_pure _
  | object r => exact (decent_fetch r).bind fun _ => decent_pure _

theorem decent_element (operand : Operand) : Decent (element operand) :=
  (decent_peek 0).bind fun v => (decent_arguments v).bind fun _ => decent_pure _

theorem decent_returnValue (operand : Operand) : Decent (returnValue operand) :=
  (decent_operandOr operand decent_readRegister).bind fun v => (decent_setRegister v).bind fun _ => decent_pure _

/-! ## One instruction -/

section
variable {Q : Machine → Prop}

theorem behaves_jumpWhen (truth : Bool) {operand : Operand}
    (htarget : Behaves (jumpTarget position operand) m fun target m' => m = m' ∧ target ≤ size) :
    Behaves (jumpWhen truth position operand) m (Goes size Q) := by
  refine behaves_readRegister.bind ?_
  rintro v _ ⟨rfl, rfl⟩
  split
  · refine htarget.bind ?_
    rintro target _ ⟨rfl, hle⟩
    exact behaves_pure (goes_jump hle)
  · exact behaves_pure goes_next

theorem behaves_operator (op : Op) (operand : Operand) :
    Behaves (if operand.isNone then do
        let lhs ← pop
        (do binary op lhs (← readRegister)) >>= fun v => accept (.value v)
      else do
        let lhs ← readRegister
        (do binary op lhs (← operandValue operand)) >>= fun v => accept (.value v)) m (Goes size Q) := by
  split
  · refine (decent_pop m).bind fun lhs m₁ _ => ?_
    exact behaves_yields (decent_readRegister.bind fun rhs => decent_binary op lhs rhs)
  · refine (decent_readRegister m).bind fun lhs m₁ _ => ?_
    exact behaves_yields ((decent_operandValue operand).bind fun rhs => decent_binary op lhs rhs)

theorem behaves_isA (operand : Operand) :
    Behaves (do
      let v ← match operand with
        | .name _ => readRegister
        | _ => pop
      let c ← expectClass (← namedOr operand readRegister)
      (do return .ofBool ((← get).isInstance v c) : Act Machine Value) >>= fun v => accept (.value v)) m
      (Goes size Q) := by
  have hrest : ∀ v m₁, Behaves (do
      let c ← expectClass (← namedOr operand readRegister)
      (do return .ofBool ((← get).isInstance v c) : Act Machine Value) >>= fun v => accept (.value v)) m₁
      (Goes size Q) := by
    intro v m₁
    refine (decent_namedOr operand decent_readRegister m₁).bind fun c m₂ _ => (decent_expectClass c m₂).bind fun c m₃ _ => ?_
    exact behaves_yields (decent_get fun _ => behaves_pure trivial)
  dsimp only
  split
  · exact (decent_readRegister m).bind fun v m₁ _ => hrest v m₁
  · exact (decent_pop m).bind fun v m₁ _ => hrest v m₁

theorem behaves_raise :
    Behaves (do
      let v ← readRegister
      let m ← get
      if m.isInstance v .error then throw (.raised (← expectObject v "Error"))
      throw (.notAnError (m.typeName v))) m (Goes size Q) := by
  refine (decent_readRegister m).bind fun v m₁ _ => behaves_get ?_
  dsimp only
  split
  · refine (decent_expectObject v "Error" m₁).bind fun r m₂ _ => ?_
    refine Behaves.bind (behaves_throw (P := fun _ _ => False) ?_) fun _ _ h => h.elim
    simp [Fault.isMalformed]
  · exact behaves_throw (by simp [Fault.isMalformed])

end

section
variable (ht : m.task.index < m.process.tasks.size) (ha : m.process.Arena [])
include ht ha

theorem behaves_calling {act : Act Machine Value} (hact : callee i = act) (hd : Decent act)
    (hop : i.op = .call ∨ i.op = .callBare ∨ i.op = .index) (argument : Machine → Value) :
    Behaves (do accept (← call (← act) (argument (← get)) .result)) m (Goes size fun m' => ∃ y d, Awaits m m' i y d) := by
  subst hact
  refine (hd m).eq.then fun callee n hn h => ?_
  obtain ⟨-, heq⟩ := h
  have hn' : n.task.index < n.process.tasks.size := (task_does hn) ▸ Nat.lt_of_lt_of_le ht (size_does hn)
  refine behaves_get ((behaves_call hn' (arena_does ha hn) callee _ .result).bind fun reply m' h => ?_)
  refine behaves_accept fun hparked => ?_
  obtain ⟨r, o, y, d, rfl, ho, hcall⟩ := h hparked
  exact ⟨y, d, .call n r o d hop heq ho hcall⟩

theorem behaves_index (hop : i.op = .index) :
    Behaves index m (Goes size fun m' => ∃ y d, Awaits m m' i y d) := by
  refine (decent_pop m).eq.then fun collection m₁ hd₁ hpop => ?_
  refine behaves_readRegister.bind ?_
  rintro key _ ⟨rfl, rfl⟩
  refine (behaves_fastIndex collection m₁.register).then fun found m₂ hd₂ hfound => ?_
  cases found with
  | some v => exact behaves_value v
  | none =>
      cases hfound rfl
      refine (decent_getMember collection "__index__" m₁).eq.then fun method n hd₃ hget => ?_
      have hd := hd₁.trans hd₃
      have hn : n.task.index < n.process.tasks.size := (task_does hd) ▸ Nat.lt_of_lt_of_le ht (size_does hd)
      have hcallee : callee i m = (.ok method, n) := by
        simp only [callee, hop]
        exact (Act.bind_ok hpop.2).trans hget.2
      refine (behaves_call hn (arena_does ha hd) method _ .result).bind fun reply m' h => behaves_accept fun hparked => ?_
      obtain ⟨r, o, y, d, rfl, ho, hcall⟩ := h hparked
      exact ⟨y, d, .call n r o d (.inr (.inr hop)) hcallee ho hcall⟩

theorem behaves_store (hop : i.op = .store) :
    Behaves store m (Goes size fun m' => ∃ y d, Awaits m m' i y d) := by
  have hpop : ∀ m : Machine, Behaves pop m fun _ m' => m'.register = m.register := fun m => by
    unfold pop
    refine behaves_get ?_
    split
    · rename_i rest _
      refine Behaves.bind (behaves_lift (does_modifyCurrent (f := fun t => { t with stack := rest })
        (fun _ => ⟨_, _, _, _, rfl⟩) m)
        (P := fun _ m' => m'.register = m.register) ?_) fun _ _ h => behaves_pure h
      change ((m.process.modifyTask m.task fun t => { t with stack := rest }).taskAt m.task).register = _
      rw [Process.taskAt_modifyTask]
      split <;> rfl
    · exact behaves_throw (by simp [Fault.isMalformed])
  refine (hpop m).then fun key m₁ hd₁ h₁ => (hpop m₁).then fun collection m₂ hd₂ h₂ => ?_
  have hv : m₂.register = m.register := h₂.trans h₁
  refine behaves_readRegister.bind ?_
  rintro v _ ⟨rfl, rfl⟩
  rw [hv]
  refine Behaves.then (decent_fastStore collection key m.register m₂) fun stored m₃ hd₃ _ => ?_
  split
  · exact behaves_pure goes_next
  refine Behaves.then (decent_getMember collection "__set__" m₃) fun method m₄ hd₄ _ => ?_
  refine Behaves.then (decent_newTuple _ m₄) fun pair n hd₅ _ => ?_
  have hd := hd₁.trans (hd₂.trans (hd₃.trans (hd₄.trans hd₅)))
  have hn : n.task.index < n.process.tasks.size := (task_does hd) ▸ Nat.lt_of_lt_of_le ht (size_does hd)
  refine (behaves_call hn (arena_does ha hd) method pair .keep).then fun reply n' hd₆ h => ?_
  have hn' : n'.task.index < n'.process.tasks.size := (task_does hd₆) ▸ Nat.lt_of_lt_of_le hn (size_does hd₆)
  refine Behaves.bind (behaves_lift (does_setRegister m.register n')
    (P := fun _ m' => m' = (setRegister m.register n').2) rfl) ?_
  rintro _ _ rfl
  cases reply with
  | value v => exact behaves_pure goes_next
  | parked =>
      obtain ⟨r, o, y, d, rfl, ho, hcall⟩ := h rfl
      obtain rfl : d = .keep := (delivery_eq_of_calls hcall).elim id id
      refine behaves_pure ⟨fun _ h => (by cases h), fun _ => ⟨y, .keep, .store n n' r o hop ho hcall (register_setRegister hn' _) ?_⟩⟩
      exact waitsFor_setRegister (waitsFor_of_calls hcall) _

/-- What an instruction does that neither opens nor closes a block. -/
theorem behaves_step (hf : i.flaw? position size = none) (htop : m.top? = some top) (hsize : size ≤ m.room top)
    (hopen : i.op ≠ .openBlock) (hclose : i.op ≠ .closeBlock) :
    Behaves (step top position i) m (Goes size fun m' => ∃ y d, Awaits m m' i y d) := by
  have hname : i.op.shape = .identifier → Behaves (nameOperand position i.operand) m fun name m' =>
      m = m' ∧ i.operand = .name name := behaves_nameOperand hf
  have htarget : i.op.isJump → Behaves (jumpTarget position i.operand) m fun target m' => m = m' ∧ target ≤ size :=
    behaves_jumpTarget hf
  obtain ⟨op, operand⟩ := i
  unfold step
  cases op with
  | nop => exact behaves_pure goes_next
  | load => exact behaves_yields (decent_operandOr operand decent_pop)
  | push =>
      refine (decent_operandOr operand decent_readRegister m).bind fun v m₁ _ => ?_
      exact (decent_push v m₁).bind fun _ _ _ => behaves_pure goes_next
  | peek => exact behaves_yields (decent_peek _)
  | dup => exact (decent_peek 0 m).bind fun v m₁ _ => (decent_push v m₁).bind fun _ _ _ => behaves_pure goes_next
  | pushNone => exact (decent_push .none m).bind fun _ _ _ => behaves_pure goes_next
  | clear => exact behaves_value .none
  | setField =>
      refine (hname rfl).bind ?_
      rintro name _ ⟨rfl, _⟩
      refine (decent_pop m).bind fun target m₁ _ => (decent_readRegister m₁).bind fun v m₂ _ => ?_
      exact (decent_setField target name v m₂).bind fun _ _ _ => behaves_pure goes_next
  | bind =>
      refine (hname rfl).bind ?_
      rintro name _ ⟨rfl, _⟩
      exact (decent_readRegister m).bind fun v m₁ _ => (decent_bind name v m₁).bind fun _ _ _ => behaves_pure goes_next
  | assign =>
      refine (hname rfl).bind ?_
      rintro name _ ⟨rfl, _⟩
      exact (decent_readRegister m).bind fun v m₁ _ => (decent_assign name v m₁).bind fun _ _ _ => behaves_pure goes_next
  | member =>
      refine (hname rfl).bind ?_
      rintro name _ ⟨rfl, _⟩
      exact (decent_readRegister m).bind fun v m₁ _ => behaves_yields (decent_getMember v name)
  | memberPush =>
      refine (hname rfl).bind ?_
      rintro name _ ⟨rfl, _⟩
      refine (decent_readRegister m).bind fun v m₁ _ => (decent_getMember v name m₁).bind fun w m₂ _ => ?_
      exact (decent_push w m₂).bind fun _ _ _ => behaves_value w
  | call =>
      exact behaves_calling (i := ⟨.call, operand⟩) ht ha rfl (decent_namedOr operand decent_pop) (.inl rfl)
        fun m => m.register
  | callBare =>
      exact behaves_calling (i := ⟨.callBare, operand⟩) ht ha rfl (decent_namedOr operand decent_readRegister)
        (.inr (.inl rfl)) fun _ => .none
  | jump =>
      refine (htarget rfl).bind ?_
      rintro target _ ⟨rfl, hle⟩
      exact behaves_pure (goes_jump hle)
  | jumpIf => exact behaves_jumpWhen true (htarget rfl)
  | jumpUnless => exact behaves_jumpWhen false (htarget rfl)
  | handler =>
      refine (htarget rfl).bind ?_
      rintro target _ ⟨rfl, hle⟩
      refine Behaves.bind (behaves_lift (Stroke.handle top target htop (Nat.le_trans hle hsize)).does (P := fun _ _ => True)
        trivial) fun _ _ _ => behaves_pure goes_next
  | ret => exact ((decent_returnValue operand).discard m).bind fun _ _ _ => behaves_pure goes_finished
  | exit =>
      refine (decent_returnValue operand m).bind fun v m₁ _ => ?_
      refine Behaves.bind (behaves_lift (Stroke.books { m₁.process with exitValue := some v } rfl rfl rfl rfl rfl rfl
        fun _ h => h).does
        (P := fun _ _ => True) trivial) fun _ _ _ => behaves_pure goes_finished
  | openBlock => exact absurd rfl hopen
  | closeBlock => exact absurd rfl hclose
  | array => exact behaves_yields ((decent_popMany _).bind decent_newArray)
  | tuple => exact behaves_yields ((decent_popMany _).bind decent_newTuple)
  | index => exact behaves_index ht ha rfl
  | store => exact behaves_store ht ha rfl
  | element =>
      refine (decent_element operand m).bind fun found m₁ _ => ?_
      split
      · exact behaves_value _
      · exact behaves_throw (by simp [Fault.isMalformed])
  | elementOr =>
      refine (decent_element operand m).bind fun found m₁ _ => ?_
      split
      · exact behaves_value _
      · exact behaves_pure goes_next
  | length => exact behaves_yields ((decent_peek 0).bind fun v => (decent_arguments v).bind fun _ => decent_pure _)
  | not => exact behaves_yields (decent_readRegister.bind fun _ => decent_pure _)
  | inc => exact (decent_increase .inc operand 1 m).bind fun _ _ _ => behaves_pure goes_next
  | dec => exact (decent_increase .dec operand (-1) m).bind fun _ _ _ => behaves_pure goes_next
  | isA => exact behaves_isA operand
  | loadModule =>
      refine (hname rfl).bind ?_
      rintro name _ ⟨rfl, hoperand⟩
      refine (behaves_loadModule ht name).bind fun reply m' h => behaves_accept fun hparked => ?_
      obtain ⟨module, n, hresolve, _, hwaiting⟩ := h
      obtain ⟨r, y, hobject, hregister, hmodule, hwaits⟩ := hwaiting hparked
      exact ⟨y, .keep, .load name module n r rfl hoperand hresolve hobject hregister hmodule hwaits⟩
  | raise => exact behaves_raise
  | wait =>
      refine behaves_readRegister.bind ?_
      rintro v _ ⟨rfl, rfl⟩
      refine (behaves_wait ht m.register).bind fun reply m' h => behaves_accept fun hparked => ?_
      obtain ⟨r, o, cell, hregister, ho, hcell, hmemo, hopen, hwaits⟩ := h hparked
      exact ⟨cell.task, .result, .wait r o cell rfl hregister ho hcell hmemo rfl hopen hwaits⟩
  | _ => exact behaves_operator _ operand

end

/-- An instruction that loads a module is done at once if the module is ready, or if its top level has led here. -/
theorem imported_step (ht : m.task.index < m.process.tasks.size) (top : ContextId) (position : Nat) {operand : Operand}
    {flow : Flow} (h : step top position ⟨.loadModule, operand⟩ m = (.ok flow, m')) (hflow : flow ≠ .suspend) :
    ∃ name module n, operand.name? = some name ∧ onRegistry (m.host.library.resolve name) m = (.ok module, n) ∧
      m'.process.Imported m'.task module := by
  have hstep : step top position ⟨.loadModule, operand⟩ m =
      (do accept (← loadModule (← nameOperand position operand)) : Act Machine Flow) m := rfl
  rw [hstep] at h
  cases hname : operand.name? with
  | none =>
      unfold nameOperand at h
      rw [hname] at h
      cases h
  | some name =>
      unfold nameOperand at h
      rw [hname] at h
      have hload : (do accept (← loadModule name) : Act Machine Flow).wp m (fun flow m' => flow ≠ .suspend →
          ∃ module n, onRegistry (m.host.library.resolve name) m = (.ok module, n) ∧ m'.process.Imported m'.task module)
          fun _ _ => True := by
        rw [Act.wp_bind]
        refine Act.wp_mono (behaves_loadModule ht name) ?_ fun _ _ _ => trivial
        rintro reply m₁ ⟨_, module, n, hresolve, himported, _⟩
        cases reply with
        | value v => exact fun _ => ⟨module, n, hresolve, (himported nofun).modifyTask _ fun _ => rfl⟩
        | parked => exact fun h => absurd rfl h
      obtain ⟨module, n, hresolve, himported⟩ := hload.ok h hflow
      exact ⟨name, module, n, rfl, hresolve, himported⟩

end Spool.Machine
