import Spool.Proofs.Machine.Manners

/-!
# What instructions are made of

Native functions, new processes, calls and instructions are rows of deeds; only opening and closing a block is more.
An instruction of a checked tape never turns out to be malformed, and its jumps stay on the tape.
-/

namespace Spool

/-! ## New processes -/

/-- No payload of the heap refers to a context. -/
def Heap.Unbound (h : Heap) : Prop := h.Each fun p => p.context? = none

theorem Heap.Unbound.not_cites {h : Heap} (hh : h.Unbound) (c : ContextId) : ¬ h.Cites c := by
  rintro ⟨r, o, ho, hc⟩
  rw [hh r o ho] at hc
  cases hc

namespace Process

variable {p : Process}

theorem unbound_seeded (id : ProcessId) (settings : HeapSettings) : (seeded id settings).heap.Unbound := by
  have hmade : ((Heap.new settings).allocate .process (.process (some id))).2.Unbound :=
    (Heap.each_new settings).allocate .process rfl
  exact hmade.modifyEntry_frame (f := fun e => { e with roots := 1 }) _ fun _ => rfl

theorem arena_seeded (id : ProcessId) (settings : HeapSettings) {heap : Heap} (hh : heap.Unbound) :
    ({ seeded id settings with heap } : Process).Arena [] :=
  arena_of_empty rfl rfl rfl hh.not_cites

theorem unspoilt_seeded (registry : Registry) (id : ProcessId) (settings : HeapSettings) {heap : Heap} (hh : heap.Unbound) :
    ({ seeded id settings with heap } : Process).Unspoilt registry :=
  ⟨arena_seeded id settings hh, fun _ => onTape_of_empty rfl rfl⟩

end Process

namespace Machine

variable {m m₁ m₂ m' : Machine} {α β : Type}

theorem each_pack {Q : Payload → Prop} (hQ : ∀ p, p.isLoose → Q p) (source : Heap) (receiver argument : Value)
    (object : Handle) : Preserves (Copier.Each Q source) (pack source receiver argument object) := by
  refine preserves_bind (Copier.each_copy hQ _) fun _ => preserves_bind (Copier.each_copy hQ _) fun _ => ?_
  refine preserves_bind (preserves_mk _) fun o => preserves_bind (Copier.each_mapM (fun e => ?_) _) fun _ => preserves_pure _
  exact preserves_bind (Copier.each_copy hQ _) fun _ => preserves_pure _

theorem each_unpackModule {Q : Payload → Prop} (hQ : ∀ p, p.isLoose → Q p) (module : ModuleId)
    (globals : List (String × Value)) : Preserves (Heap.Each Q) (unpackModule module globals) := by
  refine preserves_bind (Heap.each_reflect hQ _) fun r => ?_
  refine preserves_bind (preserves_forIn (fun e _ => ?_) _ _) fun _ => preserves_pure _
  exact preserves_bind (Heap.each_setMember r _ _) fun _ => preserves_pure _

theorem unbound_furnish {heap : Heap} (hh : heap.Unbound) (source : Heap) (registry : Registry) (module : ModuleId)
    (receiver argument : Value) (object : Handle) :
    (furnish source registry module receiver argument object heap).2.Unbound := by
  have hQ : ∀ p : Payload, p.isLoose → p.context? = none := fun p => Payload.context?_of_isLoose
  have hpack := each_pack hQ source receiver argument object _ (Copier.each_start source hh registry)
  rcases hx : pack source receiver argument object (Copier.new source heap registry) with ⟨e | b, c⟩
  · rw [hx] at hpack
    simp only [furnish, hx]
    exact hpack.target
  · rw [hx] at hpack
    simp only [furnish, hx]
    exact each_unpackModule hQ module b.globals c.target hpack.target

theorem unspoilt_launch {child : Process} {registry : Registry} (hc : child.Unspoilt registry) {function : FunctionId}
    {start : Nat} (hs : (registry.functionAt function).kind = .user start) (baggage : Baggage) (link : RemoteLink) :
    (launch child registry function start baggage link).Unspoilt registry := by
  have hmade : ({ child with modules := child.modules.insert (registry.functionAt function).module .ready } :
      Process).Arena [] := hc.arena.congr rfl rfl rfl rfl
  have harena := hmade.startCall registry (b := { function, receiver := baggage.receiver }) start baggage.argument none
    fun _ h => by cases h
  constructor
  · have hlink := harena.modifyTask_frame (f := fun t => { t with remote := some link }) ⟨child.tasks.size⟩ fun _ => rfl
    exact hlink.congr rfl rfl rfl rfl
  · intro hr
    have hready : ({ child with modules := child.modules.insert (registry.functionAt function).module .ready } :
        Process).OnTape registry := (hc.onTape hr).stands (Process.stands_of_eq rfl rfl)
    have htape := hready.startCall hmade hr
      (b := { function, receiver := baggage.receiver }) hs baggage.argument none
    have hlink := htape.stands (Process.stands_modifyTask_frame _ ⟨child.tasks.size⟩
      (f := fun t => { t with remote := some link }) fun _ => rfl)
    exact hlink.stands (Process.stands_of_eq rfl rfl)

theorem decent_entryPoint (callee : Value) : Decent (entryPoint callee) := by
  refine (decent_expectObject callee _).bind fun r => (decent_fetch r).bind fun o => ?_
  split
  · exact decent_pure _
  · exact decent_pure _
  · exact decent_refuse fun _ => by simp [Fault.isMalformed]

theorem decent_spawn (callee argument : Value) : Decent (spawn callee argument) := by
  unfold spawn
  refine (decent_entryPoint callee).bind fun b => decent_get fun m => ?_
  dsimp only
  split
  · rename_i start hs
    refine Behaves.bind (behaves_onHeap (Heap.each_reflect (fun p hp => m.granted_of_context?_eq_none
      (Payload.context?_of_isLoose hp)) _) (not_malformed_of_staleOnly (Heap.staleOnly_reflect _) _)) ?_
    rintro object _ ⟨h, rfl⟩
    refine Behaves.bind (P := fun child m' => child = m.host.newProcess.1 ∧
      m' = { m with process := { m.process with heap := h }, host := m.host.newProcess.2 })
      ⟨?_, rfl, rfl⟩ ?_
    · exact (Stroke.host (m := { m with process := { m.process with heap := h } }) m.host.newProcess.2 (.refl _) fun _ hc =>
        .inl hc).does
    rintro _ _ ⟨rfl, rfl⟩
    refine Behaves.bind (P := fun carrier m' => m'.host = m.host.newProcess.2 ∧
      (m'.process.taskAt carrier).contexts = [])
      (behaves_lift Stroke.carry.does ⟨rfl, Process.contexts_newCarrier _ _⟩) ?_
    rintro carrier m₁ ⟨hm₁, hbare⟩
    refine behaves_get ?_
    have hchild := unbound_furnish (Process.unbound_seeded ⟨m.host.born + 1⟩ m.host.heapSettings) m₁.process.heap
      m.host.registry (m.host.registry.functionAt b.function).module b.receiver argument object
    have hfurnish := staleOnly_furnish m₁.process.heap m.host.registry (m.host.registry.functionAt b.function).module
      b.receiver argument object m.host.newProcess.1.heap
    have hregistry : m₁.host.registry = m.host.registry := by rw [hm₁]; rfl
    have hadopt : ∀ child : Process, child.Unspoilt m.host.registry →
        m₁.Does { m₁ with host := { m₁.host with nursery := m₁.host.nursery ++ [child] } } := by
      intro child hc
      refine (Stroke.host { m₁.host with nursery := m₁.host.nursery ++ [child] } (.refl _) fun x hx => ?_).does
      rcases List.mem_append.1 hx with hx | hx
      · exact .inl hx
      · cases List.mem_singleton.1 hx
        exact .inr (hregistry ▸ hc)
    change (furnish _ _ _ _ _ _ m.host.newProcess.1.heap).2.Unbound at hchild
    unfold Act.wp at hfurnish
    rcases hx : furnish m₁.process.heap m.host.registry (m.host.registry.functionAt b.function).module b.receiver argument
      object m.host.newProcess.1.heap with ⟨e | baggage, heap⟩
    · rw [hx] at hchild hfurnish
      have hun := Process.unspoilt_seeded m.host.registry ⟨m.host.born + 1⟩ m.host.heapSettings hchild
      refine Behaves.bind (P := fun _ _ => True) (behaves_lift (hadopt _ hun) trivial) fun _ _ _ => behaves_throw ?_
      have he : e = .stale := hfurnish
      simp [he, Fault.isMalformed]
    · rw [hx] at hchild
      have hun := unspoilt_launch (Process.unspoilt_seeded m.host.registry ⟨m.host.born + 1⟩ m.host.heapSettings hchild)
        hs baggage ⟨m₁.process.id, carrier⟩
      refine Behaves.bind (P := fun _ m₂ => (m₂.process.taskAt carrier).contexts = [])
        (behaves_lift (hadopt _ hun) hbare) fun _ m₂ hbare => ?_
      exact (behaves_newFuture (.inl hbare)).bind fun _ _ _ => behaves_pure trivial
  · exact behaves_throw (by simp [Fault.isMalformed])

/-! ## Native functions -/

theorem decent_write (f : Host → Host) (hf : ∀ h : Host, (f h).registry = h.registry ∧ (f h).nursery = h.nursery) :
    Decent (liftM (modifyHost f) : Act Machine Unit) := by
  refine decent_lift fun m => (Stroke.host (f m.host) ?_ fun child hc => .inl ((hf m.host).2 ▸ hc)).does
  rw [(hf m.host).1]
  exact .refl _

theorem decent_asText (v : Value) : Decent (asText v) := by
  unfold asText
  refine decent_get fun m => ?_
  split
  · exact behaves_pure trivial
  · exact decent_newText _ m

theorem decent_concat (receiver argument : Value) : Decent (concat receiver argument) := by
  unfold concat
  refine decent_get fun m => ?_
  split
  · exact decent_newText _ m
  · exact behaves_throw (by simp [Fault.isMalformed])

theorem decent_length (v : Value) : Decent (length v) := by
  unfold length
  refine decent_get fun m => ?_
  split
  · exact behaves_pure trivial
  · refine (decent_fetch _).bind (fun o => ?_) m
    split
    · exact decent_pure _
    · exact decent_pure _
    · exact decent_pure _
    · exact decent_throw (by simp [Fault.isMalformed])
  · exact behaves_throw (by simp [Fault.isMalformed])

theorem decent_expectClass (v : Value) : Decent (expectClass v) := by
  unfold expectClass
  refine decent_get fun m => ?_
  split
  · refine (decent_fetch _).bind (fun o => ?_) m
    split
    · exact decent_pure _
    · exact decent_throw (by simp [Fault.isMalformed])
  · exact behaves_throw (by simp [Fault.isMalformed])

theorem decent_setSuper (argument : Value) : Decent (setSuper argument) := by
  unfold setSuper
  refine (decent_expectObject _ _).bind fun r => (decent_fetch r).bind fun o => ?_
  split
  · refine (decent_expectClass _).bind fun c => (decent_expectClass _).bind fun d => decent_get fun m => ?_
    cases h : m.host.registry.rebase c d with
    | error e => exact behaves_throw (by simp [Fault.isMalformed])
    | ok registry =>
        have hd : m.Does { m with host := { m.host with registry } } :=
          (Stroke.host { m.host with registry } (Registry.leads_rebase h) fun _ hc => .inl hc).does
        exact Behaves.bind (P := fun _ _ => True) (behaves_lift hd trivial) fun _ _ _ => behaves_pure trivial
  · exact decent_refuse fun _ => by simp [Fault.isMalformed]

theorem decent_errorNew (receiver argument : Value) : Decent (errorNew receiver argument) := by
  unfold errorNew
  refine (decent_expectObject _ _).bind fun r => ?_
  split
  · exact (decent_newText _).bind fun _ => (decent_initError r _).bind fun _ => decent_pure _
  · exact (decent_asText _).bind fun _ => (decent_initError r _).bind fun _ => decent_pure _

theorem decent_futureGet (receiver : Value) : Decent (futureGet receiver) := by
  unfold futureGet
  refine (decent_expectObject _ _).bind fun r => (decent_futureOutcome r).bind fun o => ?_
  split
  · exact decent_pure _
  · exact decent_throw (by simp [Fault.isMalformed])

theorem decent_taskState (t : TaskId) : Decent (taskState t) := decent_get fun m => decent_newText _ m

theorem decent_contextFunction (c : ContextId) : Decent (contextFunction c) := by
  unfold contextFunction
  refine decent_get fun m => ?_
  split
  · exact decent_reflect _ m
  · exact behaves_pure trivial

theorem decent_newRemote (process : ProcessId) (argument : Value) : Decent (newRemote process argument) :=
  (decent_expectObject _ _).bind fun _ => decent_newHolder .remote rfl

theorem decent_processStart (receiver argument : Value) : Decent (processStart receiver argument) := by
  have hstart : ∀ (r : Handle) (o : Object), Decent (launchEntry r o argument) := by
    intro r o
    unfold launchEntry
    split
    · exact decent_throw (by simp [Fault.isMalformed])
    · exact (decent_spawn _ argument).bind fun _ => (decent_putPayload r rfl).bind fun _ => decent_pure _
  unfold processStart
  refine (decent_expectObject _ _).bind fun r => (decent_fetch r).bind fun o => ?_
  dsimp only
  split
  · exact Decent.bind (decent_throw (by simp [Fault.isMalformed])) fun _ => hstart r o
  · exact hstart r o

theorem decent_receiverPayload (receiver : Value) (expected : String) : Decent (receiverPayload receiver expected) :=
  (decent_expectObject _ _).bind fun r => (decent_fetch r).bind fun _ => decent_pure _

theorem decent_runNative (receiver argument : Value) (body : Native) : Decent (runNative receiver argument body) := by
  have hwrite : ∀ f : Host → Host, (∀ h : Host, (f h).registry = h.registry ∧ (f h).nursery = h.nursery) →
      Decent (do modifyHost f; return .none : Act Machine Value) := fun f hf =>
    (decent_write f hf).bind fun _ => decent_pure _
  have hpayload : ∀ (expected : String) (k : Payload → Act Machine Value), (∀ p, Decent (k p)) →
      Decent (receiverPayload receiver expected >>= k) := fun expected k hk =>
    (decent_receiverPayload receiver expected).bind hk
  cases body with
  | print => exact decent_get fun m => hwrite (Host.writeOut (m.argumentText argument)) (fun _ => ⟨rfl, rfl⟩) m
  | println => exact decent_get fun m => hwrite (Host.writeOut (m.argumentText argument ++ "\n")) (fun _ => ⟨rfl, rfl⟩) m
  | errorln => exact decent_get fun m => hwrite (Host.writeErr (m.errorText argument)) (fun _ => ⟨rfl, rfl⟩) m
  | str => exact decent_asText argument
  | len => exact decent_length argument
  | setSuper => exact decent_setSuper argument
  | remote => exact decent_get fun m => decent_newRemote _ argument m
  | currentTask => exact decent_get fun m => decent_newHolder .task rfl m
  | currentContext =>
      refine decent_get fun m => ?_
      split
      · rename_i c hc
        refine behaves_pin hc fun m₁ hm₁ => (behaves_newObject .context hm₁).bind fun r m₂ hm₂ => ?_
        refine (behaves_putPayload r ⟨fun x hx => ?_, fun x hx => ?_⟩).bind fun _ _ _ => behaves_pure trivial
        · cases hx
          exact .inr hm₂
        · cases hx
      · exact behaves_pure trivial
  | ownLen => exact decent_length receiver
  | concat => exact decent_concat receiver argument
  | arrayPush =>
      refine (decent_expectObject _ _).bind fun r => Decent.bind ?_ fun _ => decent_pure _
      exact decent_onHeap (fun _ hQ => Heap.each_arrayPush hQ r argument) (Heap.not_malformed_arrayPush r argument)
  | arrayPop =>
      refine (decent_expectObject _ _).bind fun r => Decent.bind ?_ fun v => ?_
      · exact decent_onHeap (fun _ hQ => Heap.each_arrayPop hQ r) (Heap.not_malformed_arrayPop r)
      · split
        · exact decent_pure _
        · exact decent_throw (by simp [Fault.isMalformed])
  | errorNew => exact decent_errorNew receiver argument
  | futureIsComplete =>
      exact (decent_expectObject _ _).bind fun r => (decent_futureOutcome r).bind fun _ => decent_pure _
  | futureGet => exact decent_futureGet receiver
  | taskId =>
      refine hpayload _ _ fun p => ?_
      split <;> exact decent_pure _
  | taskState =>
      refine hpayload _ _ fun p => ?_
      split
      · exact decent_taskState _
      · exact decent_pure _
  | contextModule =>
      refine hpayload _ _ fun p => ?_
      split
      · exact decent_get fun m => decent_reflect _ m
      · exact decent_pure _
  | contextFunction =>
      refine hpayload _ _ fun p => ?_
      split
      · exact decent_contextFunction _
      · exact decent_pure _
  | processNew =>
      refine (decent_expectObject _ _).bind fun r => ?_
      exact (decent_setMember r _ argument).bind fun _ => decent_pure _
  | processStart => exact decent_processStart receiver argument
  | processNumber =>
      refine hpayload _ _ fun p => ?_
      split <;> exact decent_pure _
  | pair => exact decent_newTuple _
  | lost => exact decent_newRemote _ argument
  | collect => exact (decent_lift does_collectGarbage).bind fun _ => decent_pure _

end Machine

end Spool
