import Spool.Machine.Natives
import Spool.Machine.Step
import Spool.Proofs.Machine.Parts
import Spool.Proofs.Registry.Seeds

/-!
# Actions that leave tasks and contexts alone

Looking up names, making objects and working on texts, arrays and errors touch nothing but the heap, but for a closure
that keeps its context. So what the laws of heaps keep true, and pinning a context, stays true whatever such an action
does.
-/

namespace Spool.Machine

/-- What stays true of a machine whatever is done to its heap by the laws, and when a context is pinned. -/
structure Glance (U : Handle → Prop) (P : Machine → Prop) : Prop where
  seeded : ∀ {m}, P m → m.host.registry.Seeded
  heap : ∀ {α : Type} {act : Act Heap α} {m : Machine},
    (∀ K, Heap.Law U K → K m.process.heap → K (act m.process.heap).2) → P m → P (onHeap act m).2
  pin : ∀ {m : Machine} c, P m → P { m with process := m.process.pin c }

namespace Glance

variable {U : Handle → Prop} {P P' : Machine → Prop} {m : Machine} {α β : Type}

section
variable (hP : Glance U P)
include hP

theorem onHeap {act : Act Heap α} (ha : ∀ K, Heap.Law U K → Preserves K act) : Preserves P (onHeap act) :=
  fun _ hm => hP.heap (fun K hK => ha K hK _) hm

omit hP in
theorem look (f : Heap → Except Fault α) : Preserves P (look f) := fun _ h => h

omit hP in
theorem fetch (r : Handle) : Preserves P (fetch r) := look _

omit hP in
theorem expectObject (v : Value) (expected : String) : Preserves P (expectObject v expected) := by
  cases v with
  | object r => exact preserves_pure _
  | none => exact preserves_get fun _ _ => preserves_throw _
  | scalar s => exact preserves_get fun _ _ => preserves_throw _

/-! ## New objects -/

theorem allocate {c : ClassId} {x : Payload} (hx : x.Fits c) (ho : x.isOrdinary) (hm : P m) : P (allocate c x m).2 :=
  (hP.onHeap fun _ hK _ hk => hK.create hx ho hk : Preserves P (Machine.onHeap (Heap.create c x))) m hm

theorem newObject (c : ClassId) (hm : P m) : P (newObject c m).2 := by
  have hseed := c.fits_seed
  rw [← hP.seeded hm] at hseed
  exact hP.allocate hseed.1 hseed.2 hm

theorem newText (s : String) (hm : P m) : P (newText s m).2 := hP.allocate (Payload.fits_of_home rfl) rfl hm

omit hP in
theorem lift {act : StateM Machine α} (ha : ∀ m, P m → P (act m).2) : Preserves P (liftM act : Act Machine α) := ha

theorem newArray (items : List Value) : Preserves P (newArray items) :=
  preserves_map (hP.onHeap fun _ hK => hK.createWith (Payload.fits_of_home rfl) rfl rfl rfl)

theorem newTuple (items : List Value) : Preserves P (newTuple items) :=
  preserves_map (hP.onHeap fun _ hK => hK.createWith (Payload.fits_of_home rfl) rfl rfl rfl)

theorem newHolder {c : ClassId} {x : Payload} (hx : x.home? = some c) (ho : x.isOrdinary) : Preserves P (newHolder c x) := by
  intro m hm
  change P ((do
    Machine.onHeap (Heap.putPayload (Machine.newObject c m).1 x)
    return .object (Machine.newObject c m).1 : Act Machine Value) (Machine.newObject c m).2).2
  refine holds_bind ?_ fun _ => preserves_pure _
  exact hP.heap (fun _ hK hk => hK.putPayload (Heap.admits_allocate_self _ c _ hx ho) hk) (hP.newObject c hm)

theorem newBound (b : BoundFunction) : Preserves P (newBound b) := by
  have hnew : Preserves P (do
      let r ← Machine.newObject .functionRef
      discard <| Machine.onHeap (Heap.replacePayload r (.bound b))
      return .object r : Act Machine Value) := by
    intro m hm
    change P ((do
      discard <| Machine.onHeap (Heap.replacePayload (Machine.newObject .functionRef m).1 (.bound b))
      return .object (Machine.newObject .functionRef m).1 : Act Machine Value) (Machine.newObject .functionRef m).2).2
    refine holds_bind (holds_discard ?_) fun _ => preserves_pure _
    exact hP.heap (fun _ hK hk => hK.replacePayload (Heap.admits_allocate_self _ _ _ rfl rfl) hk) (hP.newObject _ hm)
  unfold Machine.newBound
  split
  · exact preserves_bind (lift fun _ hm => hP.pin _ hm) fun _ => hnew
  · exact hnew

theorem reflect (key : Reflected) : Preserves P (reflect key) :=
  preserves_map (hP.onHeap fun _ hK _ hk => hK.reflect key hk)

theorem moduleObject (module : ModuleId) : Preserves P (moduleObject module) := hP.onHeap fun _ hK _ hk => hK.reflect _ hk

/-! ## Names -/

theorem moduleMember (module : ModuleId) (name : String) : Preserves P (moduleMember module name) := by
  unfold Machine.moduleMember
  refine preserves_bind (hP.moduleObject module) fun object => preserves_bind (look _) fun v => ?_
  split
  · exact preserves_pure _
  · refine preserves_get fun s _ => ?_
    dsimp only
    split
    · split
      · exact preserves_bind (hP.newBound _) fun _ => preserves_pure _
      · exact preserves_bind (hP.reflect _) fun _ => preserves_pure _
    · split
      · exact preserves_bind (hP.reflect _) fun _ => preserves_pure _
      · exact preserves_pure _

theorem receiverMember (receiver : Value) (name : String) : Preserves P (receiverMember receiver name) := by
  unfold Machine.receiverMember
  split
  · refine preserves_bind (look _) fun v => ?_
    split
    · exact preserves_pure _
    · refine preserves_bind (look _) fun c => preserves_get fun s _ => ?_
      split
      · exact preserves_bind (hP.newBound _) fun _ => preserves_pure _
      · exact preserves_pure _
  · exact preserves_pure _

theorem resolve (name : String) : Preserves P (resolve name) := by
  unfold Machine.resolve
  refine preserves_get fun s _ => ?_
  split
  · exact preserves_throw _
  · dsimp only
    split
    · exact preserves_pure _
    · split
      · exact preserves_pure _
      · refine preserves_bind (hP.receiverMember _ name) fun v => ?_
        split
        · exact preserves_pure _
        · refine preserves_bind (hP.moduleMember _ name) fun v => ?_
          split
          · exact preserves_pure _
          · split
            · refine preserves_bind (hP.moduleMember _ name) fun v => ?_
              split
              · exact preserves_pure _
              · exact preserves_throw _
            · exact preserves_throw _

theorem contentMember (r : Handle) (name : String) : Preserves P (contentMember r name) := by
  unfold Machine.contentMember
  refine preserves_bind (fetch r) fun o => ?_
  split
  · exact preserves_pure _
  · split
    · exact hP.moduleMember _ name
    · refine preserves_get fun s _ => ?_
      split
      · exact preserves_bind (hP.reflect _) fun _ => preserves_pure _
      · exact preserves_pure _
    · exact preserves_pure _

theorem getMember (target : Value) (name : String) : Preserves P (getMember target name) := by
  have hmethod : Preserves P (boundMethod target name) := by
    unfold boundMethod
    refine preserves_get fun s _ => ?_
    split
    · exact preserves_throw _
    · split
      · exact hP.newBound _
      · exact preserves_throw _
  unfold Machine.getMember
  split
  · refine preserves_bind (hP.contentMember _ name) fun v => ?_
    split
    · exact preserves_pure _
    · exact hmethod
  · exact hmethod

/-! ## Errors -/

theorem setMember (r : Handle) {name : String} (hn : name ≠ "value") (v : Value) :
    Preserves P (Machine.onHeap (Heap.setMember r name v)) :=
  hP.onHeap fun _ hK => hK.setMember (fun h => absurd h hn) v

theorem newTraceLine (line : TraceLine) : Preserves P (newTraceLine line) := by
  have hset : ∀ (r : Handle) (name : String) (v : Value), name ≠ "value" → ∀ K, Heap.Law U K →
      Preserves K (Heap.setMember r name v) := fun r name v hn K hK => hK.setMember (fun h => absurd h hn) v
  unfold Machine.newTraceLine
  refine preserves_bind (lift fun _ => hP.newObject _) fun r => ?_
  refine preserves_bind (lift fun _ => hP.newText _) fun module => ?_
  refine preserves_bind (lift fun _ => hP.newText _) fun function => ?_
  refine preserves_bind (lift fun _ => hP.newText _) fun text => ?_
  refine preserves_bind (hP.onHeap fun K hK => ?_) fun _ => preserves_pure _
  refine preserves_bind (hset _ _ _ (by decide) K hK) fun _ => preserves_bind (hset _ _ _ (by decide) K hK) fun _ => ?_
  refine preserves_bind (hset _ _ _ (by decide) K hK) fun _ => preserves_bind (hset _ _ _ (by decide) K hK) fun _ => ?_
  exact hset _ _ _ (by decide) K hK

theorem newTrace : Preserves P newTrace :=
  preserves_get fun _ _ => preserves_bind (preserves_mapM hP.newTraceLine _) fun _ => hP.newArray _

theorem initError (r : Handle) (message : Value) : Preserves P (initError r message) := by
  unfold Machine.initError
  refine preserves_bind hP.newTrace fun trace => hP.onHeap fun K hK => ?_
  exact preserves_bind (hK.setMember (fun h => absurd h (by decide)) _) fun _ =>
    hK.setMember (fun h => absurd h (by decide)) _

theorem newError (message : String) (hm : P m) : P (newError message m).2 :=
  hP.initError _ _ _ (hP.newText _ (hP.newObject _ hm))

theorem errorObject (fault : Fault) (hm : P m) : P (errorObject fault m).2 := by
  unfold Machine.errorObject
  split
  · rename_i r
    change P ((if m.process.heap.isLive r then pure r else Machine.newError _ : StateM Machine Handle) m).2
    split
    · exact hm
    · exact hP.newError _ hm
  · exact hP.newError _ hm

/-! ## Native functions -/

theorem asText (v : Value) : Preserves P (asText v) := by
  unfold Machine.asText
  refine preserves_get fun s _ => ?_
  split
  · exact preserves_pure _
  · exact lift fun _ => hP.newText _

theorem concat (receiver argument : Value) : Preserves P (concat receiver argument) := by
  unfold Machine.concat
  refine preserves_get fun s _ => ?_
  split
  · exact lift fun _ => hP.newText _
  · exact preserves_throw _

omit hP in
theorem length (v : Value) : Preserves P (length v) := by
  unfold Machine.length
  refine preserves_get fun s _ => ?_
  split
  · exact preserves_pure _
  · refine preserves_bind (fetch _) fun o => ?_
    split
    · exact preserves_pure _
    · exact preserves_pure _
    · exact preserves_pure _
    · exact preserves_throw _
  · exact preserves_throw _

omit hP in
theorem expectClass (v : Value) : Preserves P (expectClass v) := by
  unfold Machine.expectClass
  refine preserves_get fun s _ => ?_
  split
  · refine preserves_bind (fetch _) fun o => ?_
    split
    · exact preserves_pure _
    · exact preserves_throw _
  · exact preserves_throw _

theorem errorNew (receiver argument : Value) : Preserves P (errorNew receiver argument) := by
  unfold Machine.errorNew
  refine preserves_bind (expectObject _ _) fun r => ?_
  split
  · exact preserves_bind (lift fun _ => hP.newText _) fun _ => preserves_bind (hP.initError r _) fun _ =>
      preserves_pure _
  · exact preserves_bind (hP.asText _) fun _ => preserves_bind (hP.initError r _) fun _ => preserves_pure _

theorem taskState (t : TaskId) : Preserves P (taskState t) :=
  preserves_get fun _ _ => lift fun _ => hP.newText _

theorem contextFunction (c : ContextId) : Preserves P (contextFunction c) := by
  unfold Machine.contextFunction
  refine preserves_get fun s _ => ?_
  split
  · exact hP.reflect _
  · exact preserves_pure _

theorem newRemote (process : ProcessId) (argument : Value) : Preserves P (newRemote process argument) :=
  preserves_bind (expectObject _ _) fun _ => hP.newHolder rfl rfl

omit hP in
theorem receiverPayload (receiver : Value) (expected : String) : Preserves P (receiverPayload receiver expected) :=
  preserves_bind (expectObject _ _) fun r => preserves_bind (fetch r) fun _ => preserves_pure _

/-! ## Operands -/

omit hP in
theorem jumpTarget (position : Nat) (operand : Operand) : Preserves P (jumpTarget position operand) := by
  unfold Machine.jumpTarget
  dsimp only
  split
  · split
    · exact preserves_throw _
    · exact preserves_pure _
  · exact preserves_throw _

omit hP in
theorem nameOperand (position : Nat) (operand : Operand) : Preserves P (nameOperand position operand) := by
  unfold Machine.nameOperand
  split
  · exact preserves_pure _
  · exact preserves_throw _

theorem operandValue (operand : Operand) : Preserves P (operandValue operand) := by
  cases operand with
  | none => exact preserves_pure _
  | scalar s => exact preserves_pure _
  | text s => exact lift fun _ => hP.newText s
  | name name => exact hP.resolve name

theorem operandOr (operand : Operand) {other : Act Machine Value} (ho : Preserves P other) :
    Preserves P (operandOr operand other) := by
  unfold Machine.operandOr
  split
  · exact ho
  · exact hP.operandValue operand

theorem namedOr (operand : Operand) {other : Act Machine Value} (ho : Preserves P other) :
    Preserves P (namedOr operand other) := by
  unfold Machine.namedOr
  split
  · exact hP.resolve _
  · exact ho

omit hP in
theorem readRegister : Preserves P readRegister := preserves_get fun _ _ => preserves_pure _

omit hP in
theorem peek (depth : Nat) : Preserves P (peek depth) := by
  unfold Machine.peek
  refine preserves_get fun s _ => ?_
  split
  · exact preserves_pure _
  · exact preserves_throw _

theorem textOperator (op : Op) (lhs rhs : Value) : Preserves P (textOperator op lhs rhs) := by
  unfold Machine.textOperator
  refine preserves_get fun s _ => ?_
  dsimp only
  split
  · split
    · exact lift fun _ => hP.newText _
    · split
      · exact preserves_pure _
      · exact preserves_throw _
  · exact preserves_throw _

theorem binary (op : Op) (lhs rhs : Value) : Preserves P (binary op lhs rhs) := by
  unfold Machine.binary
  refine preserves_get fun s _ => ?_
  split
  · exact preserves_pure _
  · split
    · exact preserves_mk _
    · exact hP.textOperator op lhs rhs

omit hP in
theorem fastIndex (collection index : Value) : Preserves P (fastIndex collection index) := by
  unfold Machine.fastIndex
  split
  · refine preserves_bind (fetch _) fun o => ?_
    split
    · exact preserves_map (look _)
    · exact preserves_map (look _)
    · exact preserves_map (preserves_mk _)
    · exact preserves_pure _
  · exact preserves_pure _

theorem fastStore (collection index v : Value) : Preserves P (fastStore collection index v) := by
  have hset : ∀ r i, Preserves P (Machine.onHeap (Heap.slotSet r i v)) := fun r i => hP.onHeap fun _ hK => hK.slotSet r i v
  unfold Machine.fastStore
  split
  · refine preserves_bind (fetch _) fun o => ?_
    split
    · exact preserves_bind (hset _ _) fun _ => preserves_pure _
    · exact preserves_bind (hset _ _) fun _ => preserves_pure _
    · exact preserves_pure _
  · exact preserves_pure _

omit hP in
theorem arguments (v : Value) : Preserves P (arguments v) := by
  unfold Machine.arguments
  split
  · exact preserves_pure _
  · exact preserves_bind (fetch _) fun _ => preserves_pure _
  · exact preserves_pure _

omit hP in
theorem element (operand : Operand) : Preserves P (element operand) :=
  preserves_bind (peek 0) fun v => preserves_bind (arguments v) fun _ => preserves_pure _

/-! ## Objects of a class -/

/-- The fields of a new object are set, whatever they are called. -/
theorem instantiate (c : ClassId) : Preserves P (instantiate c) := by
  have hset : ∀ r name, Preserves (fun m => P m ∧ m.process.heap.Unread r)
      (Machine.onHeap (Heap.setMember r name .none)) := fun r name m hm =>
    ⟨hP.heap (fun _ hK hk => hK.setMember_of_unread hm.2 hk name .none) hm.1,
      (Heap.law_unread_at (G := U) r).setMember_of_unread hm.2 hm.2 name .none⟩
  have hfields : ∀ (r : Handle) (names : List String), Preserves (fun m => P m ∧ m.process.heap.Unread r) (do
      for name in names do
        if (← Machine.look fun h => h.member r name).isNone then
          Machine.onHeap (Heap.setMember r name .none)
      return r : Act Machine Handle) := by
    intro r names
    refine preserves_bind (preserves_forIn (fun name _ => ?_) _ _) fun _ => preserves_pure _
    refine preserves_bind (look _) fun v => ?_
    split
    · exact preserves_bind (hset r name) fun _ => preserves_pure _
    · exact preserves_pure _
  intro m hm
  refine (hfields _ _ (Machine.newObject c m).2 ⟨hP.newObject c hm, fun o ho => ?_⟩).1
  rw [Heap.object?_allocate_self _ _ _ ho]
  refine Payload.not_memoized_of_isOrdinary ?_
  have hseed := c.fits_seed
  rw [← hP.seeded hm] at hseed
  exact hseed.2

end

end Glance

end Spool.Machine
