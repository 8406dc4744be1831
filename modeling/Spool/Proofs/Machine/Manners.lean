import Spool.Machine.Call
import Spool.Proofs.Machine.Deeds
import Spool.Proofs.Machine.Moves

/-!
# What actions are made of

The actions that an instruction is put together from, from names and errors to native functions and new processes, are
rows of deeds, and end in no malformed instruction.
-/

namespace Spool

/-! ## Heaps -/

namespace Heap

theorem not_malformed_arrayPush (r : Handle) (v : Value) (h : Heap) :
    (arrayPush r v).wp h (fun _ _ => True) fun e _ => ¬ e.isMalformed := by
  have hstore := Machine.not_malformed_of_staleOnly (staleOnly_requireStorable v) h
  simp only [arrayPush, Act.wp_bind]
  refine Act.wp_mono hstore (fun _ h₁ _ => ?_) fun _ _ h => h
  refine Act.wp_mono (Machine.not_malformed_of_staleOnly (staleOnly_entry r) h₁) (fun e h₂ _ => ?_) fun _ _ h => h
  split
  · simp [notA, Fault.isMalformed]
  · simp only [Act.wp_bind, Act.wp_modify, Act.wp_pure]
    exact Machine.not_malformed_of_staleOnly (staleOnly_link r v) _

theorem not_malformed_arrayPop (r : Handle) (h : Heap) :
    (arrayPop r).wp h (fun _ _ => True) fun e _ => ¬ e.isMalformed := by
  simp only [arrayPop, Act.wp_bind]
  refine Act.wp_mono (Machine.not_malformed_of_staleOnly (staleOnly_entry r) h) (fun e h₁ _ => ?_) fun _ _ h => h
  split
  · simp [notA, Fault.isMalformed]
  · simp only [Act.wp_bind, Act.wp_modify, Act.wp_pure]
    exact Machine.not_malformed_of_staleOnly (staleOnly_unlink r _) _

theorem not_malformed_fetch {h : Heap} {r : Handle} {e : Fault} (he : h.fetch r = .error e) : ¬ e.isMalformed := by
  unfold fetch at he
  cases ho : h.object? r <;> simp [ho] at he
  simp [← he, Fault.isMalformed]

theorem not_malformed_itemAt {items : Array Value} {i : Int64} {e : Fault} (he : itemAt items i = .error e) :
    ¬ e.isMalformed := by
  unfold itemAt at he
  split at he <;> simp at he
  simp [← he, Fault.isMalformed]

theorem not_malformed_slotGet {h : Heap} {r : Handle} {i : Int64} {e : Fault} (he : h.slotGet r i = .error e) :
    ¬ e.isMalformed := by
  cases ho : h.object? r with
  | none =>
      simp only [slotGet, fetch, ho] at he
      cases he
      simp [Fault.isMalformed]
  | some o =>
      rw [slotGet_eq ho] at he
      split at he
      · exact not_malformed_itemAt he
      · exact not_malformed_itemAt he
      · cases he
        simp [notA, Fault.isMalformed]

theorem not_malformed_slotSet (r : Handle) (i : Int64) (v : Value) (h : Heap) :
    (slotSet r i v).wp h (fun _ _ => True) fun e _ => ¬ e.isMalformed := by
  simp only [slotSet, Act.wp_bind]
  refine Act.wp_mono (Machine.not_malformed_of_staleOnly (staleOnly_requireStorable v) h) (fun _ h₁ _ => ?_) fun _ _ h => h
  rw [Act.wp_mk_getThe]
  cases hx : h₁.slotGet r i with
  | error e => exact not_malformed_slotGet hx
  | ok old =>
      simp only [Act.wp_modify]
      exact Machine.not_malformed_of_staleOnly (staleOnly_relink r old v) _

end Heap

theorem Scalar.not_malformed_arithmetic {op : Op} {a b : Scalar} {e : Fault} (he : arithmetic op a b = .error e) :
    ¬ e.isMalformed := by
  unfold arithmetic at he
  split at he
  · split at he
    · cases he
      simp [Fault.isMalformed]
    · split at he <;> simp at he
      simp [← he, unsupported, Fault.isMalformed]
  · split at he <;> simp at he
    simp [← he, unsupported, Fault.isMalformed]

namespace Process

theorem pinned_mono_pinFrom (fuel : Nat) : ∀ (p : Process) (c d : ContextId), (p.contextAt d).pinned →
    ((pinFrom fuel c p).contextAt d).pinned := by
  induction fuel with
  | zero => exact fun _ _ _ h => h
  | succ fuel ih =>
      intro p c d hd
      have hmark : ((p.modifyContext c fun c => { c with pinned := true }).contextAt d).pinned := by
        rw [contextAt_modifyContext]
        split
        · rfl
        · exact hd
      unfold pinFrom
      dsimp only
      split
      · exact hd
      · split
        · exact ih _ _ d hmark
        · exact hmark

theorem size_contexts_pinFrom (fuel : Nat) : ∀ (p : Process) (c : ContextId),
    (pinFrom fuel c p).contexts.size = p.contexts.size := by
  induction fuel with
  | zero => exact fun _ _ => rfl
  | succ fuel ih =>
      intro p c
      have hmark : (p.modifyContext c fun c => { c with pinned := true }).contexts.size = p.contexts.size := by
        simp [modifyContext]
      unfold pinFrom
      dsimp only
      split
      · rfl
      · split
        · exact (ih _ _).trans hmark
        · exact hmark

theorem pinned_pin_self {p : Process} {c : ContextId} (hc : c.index < p.contexts.size) : ((p.pin c).contextAt c).pinned := by
  unfold pin
  cases hsize : p.contexts.size with
  | zero => omega
  | succ fuel =>
      have hmark : ((p.modifyContext c fun c => { c with pinned := true }).contextAt c).pinned := by
        rw [contextAt_modifyContext, if_pos ⟨rfl, hc⟩]
      unfold pinFrom
      dsimp only
      split
      · assumption
      · split
        · exact pinned_mono_pinFrom fuel _ _ c hmark
        · exact hmark

end Process

namespace Machine

variable {m m₁ m₂ m' : Machine} {α β : Type}

/-! ## Parts of the machine -/

theorem decent_setMember (r : Handle) (name : String) (v : Value) : Decent (onHeap (Heap.setMember r name v)) :=
  decent_onHeap (fun _ _ => Heap.each_setMember r name v) (not_malformed_of_staleOnly (Heap.staleOnly_setMember r name v))

theorem decent_root (r : Handle) : Decent (onHeap (Heap.root r)) :=
  decent_onHeap (fun _ _ => Heap.each_root r) (not_malformed_of_staleOnly (Heap.staleOnly_root r))

theorem behaves_putPayload (r : Handle) {payload : Payload} (hp : m.Granted payload) :
    Behaves (onHeap (Heap.putPayload r payload)) m fun _ _ => True :=
  (behaves_onHeap (Heap.each_putPayload r hp) (not_malformed_of_staleOnly (Heap.staleOnly_putPayload r payload) _)).mono
    fun _ _ _ => trivial

theorem decent_putPayload (r : Handle) {payload : Payload} (hp : payload.context? = none) :
    Decent (onHeap (Heap.putPayload r payload)) := fun m => behaves_putPayload r (m.granted_of_context?_eq_none hp)

theorem decent_createWith (c : ClassId) {seed payload : Payload} (hs : seed.isLoose) (hp : payload.isLoose) :
    Decent (onHeap (Heap.createWith c seed payload)) := by
  refine decent_onHeap (fun Q hQ => Heap.each_createWith c (hQ _ hs) (hQ _ hp)) (not_malformed_of_staleOnly ?_)
  exact (Heap.staleOnly_create c seed).bind fun r => (Heap.staleOnly_replacePayload r payload).discard.bind fun _ =>
    Act.staleOnly_pure _

theorem decent_newArray (items : List Value) : Decent (newArray items) := (decent_createWith .array rfl rfl).map

theorem decent_newTuple (items : List Value) : Decent (newTuple items) := (decent_createWith .tuple rfl rfl).map

theorem decent_reflect (key : Reflected) : Decent (reflect key) :=
  (decent_onHeap (fun _ hQ => Heap.each_reflect hQ key) (not_malformed_of_staleOnly (Heap.staleOnly_reflect key))).map

theorem decent_moduleObject (module : ModuleId) : Decent (moduleObject module) :=
  decent_onHeap (fun _ hQ => Heap.each_reflect hQ _) (not_malformed_of_staleOnly (Heap.staleOnly_reflect _))

theorem does_allocate (c : ClassId) {payload : Payload} (hp : payload.context? = none) (m : Machine) :
    m.Does (allocate c payload m).2 :=
  (Stroke.heap (m.process.heap.allocate c payload).2 ((each_granted m).allocate c (m.granted_of_context?_eq_none hp))).does

theorem does_newObject (c : ClassId) (m : Machine) : m.Does (newObject c m).2 :=
  does_allocate c (Payload.context?_of_isLoose (m.host.registry.isLoose_seed c)) m

theorem does_newText (s : String) (m : Machine) : m.Does (newText s m).2 := does_allocate .string rfl m

theorem decent_newObject (c : ClassId) : Decent (liftM (newObject c) : Act Machine Handle) := decent_lift (does_newObject c)

theorem decent_newText (s : String) : Decent (liftM (newText s) : Act Machine Value) := decent_lift (does_newText s)

theorem decent_newHolder (c : ClassId) {payload : Payload} (hp : payload.context? = none) : Decent (newHolder c payload) :=
  (decent_newObject c).bind fun r => (decent_putPayload r hp).bind fun _ => decent_pure _

/-- Another task is watched. -/
theorem behaves_newFuture {t : TaskId} (ht : (m.process.taskAt t).contexts = [] ∨ m.host.registry.HasAsync) :
    Behaves (newFuture t) m fun _ _ => True :=
  Behaves.bind (P := fun _ _ => True) (behaves_lift (Stroke.watch t ht).does trivial) fun _ m' _ =>
    decent_newHolder .future rfl m'

/-- What an action does with the innermost context when that stays. -/
theorem behaves_pin {c : ContextId} (hc : m.top? = some c) {k : Act Machine α}
    (hk : ∀ m', m'.Closes c → Behaves k m' fun _ _ => True) :
    Behaves (do liftM (modifyProcess fun p => p.pin c); k) m fun _ _ => True := by
  refine Behaves.bind (P := fun _ m' => m'.Closes c) (behaves_lift (Stroke.pin c hc).does ?_) fun _ m' hm' => hk m' hm'
  obtain ⟨contexts, heq⟩ := Process.pinFrom_eq m.process.contexts.size c m.process
  have hpin : m.process.pin c = { m.process with contexts } := heq
  have hsize : (m.process.pin c).contexts.size = m.process.contexts.size := Process.size_contexts_pinFrom _ m.process c
  refine ⟨?_, fun hlt => ?_⟩
  · change ((m.process.pin c).taskAt m.task).top? = some c
    rw [hpin]
    exact hc
  · apply Process.pinned_pin_self
    rw [← hsize]
    exact hlt

theorem behaves_newObject (class_ : ClassId) {c : ContextId} (hc : m.Closes c) :
    Behaves (liftM (newObject class_) : Act Machine Handle) m fun _ m' => m'.Closes c :=
  behaves_lift (does_newObject class_ m) hc

/-- A function reference is made where the function stands. -/
theorem behaves_newBound {b : BoundFunction} (hb : ∀ c, b.capture = some c → m.top? = some c) :
    Behaves (newBound b) m fun _ _ => True := by
  have hwrite : ∀ (r : Handle) (m' : Machine), m'.Granted (.bound b) →
      Behaves (do
        discard <| onHeap (Heap.replacePayload r (.bound b))
        return .object r : Act Machine Value) m' fun _ _ => True := by
    intro r m' hm'
    have hheap := (behaves_onHeap (Heap.each_replacePayload r hm')
      (not_malformed_of_staleOnly (Heap.staleOnly_replacePayload r _) _))
    unfold Behaves at hheap ⊢
    rw [Act.wp_bind, Act.wp_discard]
    exact Act.wp_mono hheap (fun _ _ h => ⟨h.1, trivial⟩) fun _ _ h => h
  unfold newBound
  cases hc : b.capture with
  | some c =>
      refine behaves_pin (hb c hc) fun m₁ hm₁ => (behaves_newObject .functionRef hm₁).bind fun r m₂ hm₂ => hwrite r m₂ ⟨?_, ?_⟩
      · intro x hx
        cases hc.symm.trans hx
        exact .inr hm₂
      · intro x hx
        cases hc.symm.trans hx
        exact .inr hm₂.1
  | none =>
      exact (behaves_lift (P := fun _ _ => True) (does_newObject .functionRef m) trivial).bind fun r m₁ _ =>
        hwrite r m₁ (m₁.granted_of_context?_eq_none hc)

theorem decent_newBound {b : BoundFunction} (hb : b.capture = none) : Decent (newBound b) := fun m =>
  behaves_newBound fun c hc => by
    rw [hb] at hc
    cases hc

theorem does_collectGarbage (m : Machine) : m.Does (collectGarbage m).2 :=
  (Stroke.heap (m.process.heap.collect m.host.registry m.process.coreRoots).2 ((each_granted m).collect _ _)).does

theorem behaves_fetch (r : Handle) : Behaves (fetch r) m fun o m' => m = m' ∧ m.process.heap.object? r = some o := by
  refine behaves_look (fun o ho => ⟨rfl, ?_⟩) fun _ => Heap.not_malformed_fetch
  unfold Heap.fetch at ho
  cases hx : m.process.heap.object? r <;> simp_all

theorem decent_fetch (r : Handle) : Decent (fetch r) := fun _ => (behaves_fetch r).mono fun _ _ _ => trivial

theorem decent_member (r : Handle) (name : String) : Decent (look fun h => h.member r name) := by
  refine decent_look fun h e he => ?_
  unfold Heap.member at he
  cases ho : h.fetch r with
  | ok o => simp [ho, Except.map] at he
  | error e' =>
      simp only [ho, Except.map] at he
      cases he
      exact Heap.not_malformed_fetch ho

theorem decent_classOf (r : Handle) : Decent (look fun h => h.classOf r) := by
  refine decent_look fun h e he => ?_
  unfold Heap.classOf at he
  cases ho : h.fetch r with
  | ok o => simp [ho, Except.map] at he
  | error e' =>
      simp only [ho, Except.map] at he
      cases he
      exact Heap.not_malformed_fetch ho

/-- A fault that comes with the types of values. -/
theorem decent_refuse {k : Machine → Fault} (hk : ∀ m, ¬ (k m).isMalformed) :
    Decent (do throw (k (← get)) : Act Machine α) :=
  decent_get fun m => behaves_throw (hk m)

theorem decent_expectObject (v : Value) (expected : String) : Decent (expectObject v expected) := by
  cases v with
  | object r => exact decent_pure r
  | none => exact decent_refuse fun _ => by simp [Fault.isMalformed]
  | scalar s => exact decent_refuse fun _ => by simp [Fault.isMalformed]

theorem decent_onRegistry {act : Registry.Entry α} (ha : ∀ P, Registry.Lasting P → Preserves P act) :
    Decent (onRegistry act) := by
  intro m
  have hdone : m.Does { m with host := { m.host with registry := (act m.host.registry).2 } } :=
    (Stroke.host { m.host with registry := (act m.host.registry).2 } (Registry.leads_of_lasting ha _) fun _ hc =>
      .inl hc).does
  have hrun : onRegistry act m = ((act m.host.registry).1.mapError HostError.toFault,
    { m with host := { m.host with registry := (act m.host.registry).2 } }) := rfl
  unfold Behaves Act.wp
  rw [hrun]
  cases (act m.host.registry).1 with
  | ok a => exact ⟨hdone, trivial⟩
  | error e => exact ⟨hdone, e.isMalformed_toFault⟩

/-! ## The running task -/

theorem does_modifyCurrent {f : Task → Task}
    (hf : ∀ task, ∃ state reason stack register, f task = { task with state, reason, stack, register }) (m : Machine) :
    m.Does (modifyCurrent f m).2 :=
  (Stroke.own f hf).does

theorem decent_modifyCurrent {f : Task → Task}
    (hf : ∀ task, ∃ state reason stack register, f task = { task with state, reason, stack, register }) :
    Decent (liftM (modifyCurrent f) : Act Machine Unit) :=
  decent_lift (does_modifyCurrent hf)

theorem decent_setRegister (v : Value) : Decent (liftM (setRegister v) : Act Machine Unit) :=
  decent_modifyCurrent fun _ => ⟨_, _, _, _, rfl⟩

theorem decent_push (v : Value) : Decent (liftM (push v) : Act Machine Unit) := decent_modifyCurrent fun _ => ⟨_, _, _, _, rfl⟩

theorem decent_pop : Decent pop := by
  unfold pop
  refine decent_get fun m => ?_
  split
  · rename_i rest _
    exact (decent_modifyCurrent (f := fun t => { t with stack := rest }) fun _ => ⟨_, _, _, _, rfl⟩).bind (fun _ => decent_pure _) m
  · exact behaves_throw (by simp [Fault.isMalformed])

theorem decent_popMany (count : Nat) : Decent (popMany count) := by
  have htake : ∀ stack : List Value, Decent (do
      modifyCurrent fun t => { t with stack := t.stack.drop count }
      return (stack.take count).reverse : Act Machine (List Value)) := fun stack =>
    (decent_modifyCurrent (f := fun t => { t with stack := t.stack.drop count }) fun _ => ⟨_, _, _, _, rfl⟩).bind fun _ =>
      decent_pure _
  unfold popMany
  refine decent_get fun m => ?_
  dsimp only
  split
  · exact Decent.bind (decent_throw (by simp [Fault.isMalformed])) (fun _ => htake _) m
  · exact htake _ m

theorem decent_peek (depth : Nat) : Decent (peek depth) := by
  unfold peek
  refine decent_get fun m => ?_
  split
  · exact behaves_pure trivial
  · exact behaves_throw (by simp [Fault.isMalformed])

/-! ## Names -/

theorem decent_moduleMember (module : ModuleId) (name : String) : Decent (moduleMember module name) := by
  unfold moduleMember
  refine (decent_moduleObject module).bind fun object => (decent_member object name).bind fun v => ?_
  split
  · exact decent_pure _
  · refine decent_get fun m => ?_
    dsimp only
    split
    · split
      · exact (behaves_newBound fun _ hc => hc).bind fun _ _ _ => behaves_pure trivial
      · exact ((decent_reflect _).bind fun _ => decent_pure _) m
    · split
      · exact ((decent_reflect _).bind fun _ => decent_pure _) m
      · exact behaves_pure trivial

theorem decent_receiverMember (receiver : Value) (name : String) : Decent (receiverMember receiver name) := by
  cases receiver with
  | none => exact decent_pure _
  | scalar s => exact decent_pure _
  | object r =>
      refine (decent_member r name).bind fun v => ?_
      split
      · exact decent_pure _
      · refine (decent_classOf r).bind fun c => decent_get fun m => ?_
        split
        · exact ((decent_newBound rfl).bind fun _ => decent_pure _) m
        · exact behaves_pure trivial

theorem decent_resolve (name : String) : Decent (resolve name) := by
  have hunknown : Decent (throw (.unknownName name) : Act Machine Value) := decent_throw (by simp [Fault.isMalformed])
  unfold resolve
  refine decent_get fun m => ?_
  split
  · exact hunknown m
  · dsimp only
    split
    · exact behaves_pure trivial
    · split
      · exact behaves_pure trivial
      · refine (decent_receiverMember _ name).bind (fun v => ?_) m
        split
        · exact decent_pure _
        · refine (decent_moduleMember _ name).bind fun v => ?_
          split
          · exact decent_pure _
          · split
            · refine (decent_moduleMember .builtins name).bind fun v => ?_
              split
              · exact decent_pure _
              · exact hunknown
            · exact hunknown

/-- A variable of a context around the innermost one gets a value. -/
theorem behaves_setLocal {c top : ContextId} (htop : m.top? = some top) (hc : m.process.Encloses top c) (name : String)
    (v : Value) : Behaves (liftM (setLocal c name v) : Act Machine Unit) m fun _ _ => True :=
  behaves_lift (Stroke.assign c top (fun l => l.insert name v) htop hc).does trivial

theorem decent_bind (name : String) (v : Value) : Decent (bind name v) := by
  unfold bind
  refine decent_get fun m => ?_
  split
  · exact behaves_throw (by simp [Fault.isMalformed])
  · rename_i top htop
    dsimp only
    split
    · exact (decent_moduleObject _).bind (fun r => decent_setMember r name v) m
    · exact behaves_setLocal htop (.self top) name v

theorem decent_assign (name : String) (v : Value) : Decent (assign name v) := by
  have hmodule : ∀ module : ModuleId, Decent (do
      let object ← moduleObject module
      if (← look fun h => h.member object name).isSome then
        onHeap (Heap.setMember object name v)
      else bind name v) := by
    intro module
    refine (decent_moduleObject module).bind fun r => (decent_member r name).bind fun w => ?_
    split
    · exact decent_setMember r name v
    · exact decent_bind name v
  unfold assign
  refine decent_get fun m => ?_
  split
  · exact behaves_throw (by simp [Fault.isMalformed])
  · rename_i top htop
    dsimp only
    split
    · rename_i c hc
      have hchain : c ∈ m.process.chain top := List.mem_of_find?_eq_some hc
      exact (behaves_setLocal htop (Process.encloses_of_mem_chainFrom hchain) name v).bind fun _ _ _ => behaves_pure trivial
    · split
      · refine (decent_member _ name).bind (fun w => ?_) m
        split
        · exact (decent_setMember _ name v).bind fun _ => decent_pure _
        · exact hmodule _
      · exact hmodule _ m

theorem decent_contentMember (r : Handle) (name : String) : Decent (contentMember r name) := by
  unfold contentMember
  refine (decent_fetch r).bind fun o => ?_
  split
  · exact decent_pure _
  · split
    · exact decent_moduleMember _ name
    · refine decent_get fun m => ?_
      split
      · exact (decent_reflect _).bind (fun _ => decent_pure _) m
      · exact behaves_pure trivial
    · exact decent_pure _

theorem decent_getMember (target : Value) (name : String) : Decent (getMember target name) := by
  have hmethod : Decent (boundMethod target name) := by
    unfold boundMethod
    refine decent_get fun m => ?_
    split
    · exact behaves_throw (by simp [Fault.isMalformed])
    · split
      · exact decent_newBound rfl m
      · exact behaves_throw (by simp [Fault.isMalformed])
  cases target with
  | none => exact hmethod
  | scalar s => exact hmethod
  | object r =>
      refine (decent_contentMember r name).bind fun v => ?_
      split
      · exact decent_pure _
      · exact hmethod

theorem decent_setField (target : Value) (name : String) (v : Value) : Decent (setMember target name v) :=
  (decent_expectObject target _).bind fun r => decent_setMember r name v

/-! ## Errors and futures -/

theorem decent_newTraceLine (line : TraceLine) : Decent (newTraceLine line) := by
  unfold newTraceLine
  refine (decent_newObject _).bind fun r => (decent_newText _).bind fun module => (decent_newText _).bind fun function => ?_
  refine (decent_newText _).bind fun text => ?_
  refine (decent_onHeap (fun Q _ => ?_) (not_malformed_of_staleOnly ?_)).bind fun _ => decent_pure _
  · refine preserves_bind (Heap.each_setMember r _ _) fun _ => preserves_bind (Heap.each_setMember r _ _) fun _ => ?_
    refine preserves_bind (Heap.each_setMember r _ _) fun _ => preserves_bind (Heap.each_setMember r _ _) fun _ => ?_
    exact Heap.each_setMember r _ _
  · refine (Heap.staleOnly_setMember r _ _).bind fun _ => (Heap.staleOnly_setMember r _ _).bind fun _ => ?_
    refine (Heap.staleOnly_setMember r _ _).bind fun _ => (Heap.staleOnly_setMember r _ _).bind fun _ => ?_
    exact Heap.staleOnly_setMember r _ _

theorem decent_newTrace : Decent newTrace :=
  decent_get fun m => ((decent_mapM decent_newTraceLine _).bind fun _ => decent_newArray _) m

theorem decent_initError (r : Handle) (message : Value) : Decent (initError r message) := by
  refine decent_newTrace.bind fun trace => decent_onHeap (fun Q _ => ?_) (not_malformed_of_staleOnly ?_)
  · exact preserves_bind (Heap.each_setMember r _ _) fun _ => Heap.each_setMember r _ _
  · exact (Heap.staleOnly_setMember r _ _).bind fun _ => Heap.staleOnly_setMember r _ _

/-- What an action does even if it ends in a fault. -/
theorem Decent.does {act : Act Machine α} (ha : Decent act) (m : Machine) : m.Does (act m).2 :=
  Act.wp.state (P := m.Does) (Act.wp_mono (ha m) (fun _ _ h => h.1) fun _ _ h => h.1)

theorem does_newError (message : String) (m : Machine) : m.Does (newError message m).2 :=
  ((does_newObject .error m).trans (does_newText message _)).trans ((decent_initError _ _).does _)

theorem does_errorObject (fault : Fault) (m : Machine) : m.Does (errorObject fault m).2 := by
  unfold errorObject
  split
  · rename_i r
    change m.Does ((if m.process.heap.isLive r then pure r else newError _ : StateM Machine Handle) m).2
    split
    · exact .refl m
    · exact does_newError _ m
  · exact does_newError _ m

theorem decent_memoize (future : Handle) (t : TaskId) (v : Value) : Decent (memoize future t v) := by
  intro m
  refine (behaves_onHeap ?_ (not_malformed_of_staleOnly ?_ _)).mono fun _ _ _ => trivial
  · exact preserves_bind (Heap.each_setMember future _ v) fun _ =>
      Heap.each_putPayload future (m.granted_of_context?_eq_none rfl)
  · exact (Heap.staleOnly_setMember future _ v).bind fun _ => Heap.staleOnly_putPayload future _

theorem decent_futureOutcome (future : Handle) : Decent (futureOutcome future) := by
  unfold futureOutcome
  refine (decent_fetch future).bind fun o => ?_
  split
  · exact decent_refuse fun _ => by simp [Fault.isMalformed]
  · refine decent_get fun m => ?_
    dsimp only
    split
    · exact behaves_pure trivial
    · split
      · exact ((decent_memoize future _ _).bind fun _ => decent_pure _) m
      · exact behaves_pure trivial

end Machine

end Spool
