import Spool.Proofs.Machine.Lawful
import Spool.Proofs.Machine.Step

/-!
# Writing members of a guarded object

An instruction writes a member of an object because the object is its target, or because the object holds the names that
the instruction gives values to: those of a module, or those of the receiver. As long as no instruction writes the member
`value` of a guarded future that has been read so, the process keeps to its law.
-/

namespace Spool.Machine

/-- The object holds the names of the module that the innermost context is of. -/
def Homes (m : Machine) (r : Handle) : Prop :=
  ∃ top, m.top? = some top ∧ m.process.heap.reflection? (.ofModule (m.process.contextAt top).module) = some r

/-- A name that is bound becomes a member of the object. -/
def Binds (m : Machine) (r : Handle) : Prop :=
  m.Homes r ∧ ∃ top, m.top? = some top ∧ (m.process.contextAt top).kind = .moduleRoot

/-- A name that is given a value may be a member of the object. -/
def Assigns (m : Machine) (name : String) (r : Handle) : Prop :=
  ∃ top, m.top? = some top ∧ local? m.process top name = none ∧
    ((m.process.contextAt top).receiver = .object r ∨ m.Homes r)

/-- The instruction writes the member of that name of the object. -/
inductive Stores (m : Machine) (i : Instruction) (name : String) (r : Handle) : Prop where
  | field : i.op = .setField → i.operand.name? = some name → m.current.stack.head? = some (.object r) → Stores m i name r
  | bind : i.op = .bind → i.operand.name? = some name → m.Binds r → Stores m i name r
  | assign : i.op = .assign → i.operand.name? = some name → m.Assigns name r → Stores m i name r
  | increase : i.op = .inc ∨ i.op = .dec → i.operand.name? = some name → m.Assigns name r → Stores m i name r
  | load : i.op = .loadModule → i.operand.name? = some name → m.Homes r → Stores m i name r

variable {G : ProcessId → Handle → Prop} {K : Process → Prop} {id : ProcessId} {m m₀ m' : Machine} {t : TaskId}
  {α β : Type} {name : String} {r : Handle}

/-- What a task does before it writes a member. -/
structure Follows (K : Process → Prop) (id : ProcessId) (m₀ m : Machine) : Prop where
  busy : m.Busy K id
  task : m.task = m₀.task
  scopes : m₀.process.Scopes m.process
  reflected : ∀ key r, m.process.heap.reflection? key = some r →
    m₀.process.heap.reflection? key = some r ∨ m.process.heap.Unread r
  unread : ∀ r, m₀.process.heap.Unread r → m.process.heap.Unread r

theorem Busy.follows (hm : m.Busy K id) : Follows K id m m := ⟨hm, rfl, .refl _, fun _ _ => .inl, fun _ h => h⟩

theorem Follows.top? (hm : Follows K id m₀ m) : m.top? = m₀.top? := by
  rw [Machine.top?, Machine.top?, current, current, hm.task, hm.scopes.taskAt]

theorem wp_onHeap {act : Act Heap α} {Q : α → Machine → Prop} {E : Fault → Machine → Prop}
    (h : act.wp m.process.heap (fun a heap => Q a { m with process := { m.process with heap } })
      fun e heap => E e { m with process := { m.process with heap } }) : (onHeap act).wp m Q E := by
  have hrun : onHeap act m = ((act m.process.heap).1,
      { m with process := { m.process with heap := (act m.process.heap).2 } }) := rfl
  unfold Act.wp at *
  rw [hrun]
  rcases hx : act m.process.heap with ⟨_ | _, heap⟩
  · rw [hx] at h
    exact h
  · rw [hx] at h
    exact h

theorem wp_look {f : Heap → Except Fault α} {Q : α → Machine → Prop} {E : Fault → Machine → Prop} (hQ : ∀ a, Q a m)
    (hE : ∀ e, E e m) : (look f).wp m Q E := by
  have hrun : look f m = (f m.process.heap, m) := rfl
  unfold Act.wp
  rw [hrun]
  cases f m.process.heap with
  | error e => exact hE e
  | ok a => exact hQ a

/-- No context around holds the name. -/
theorem local?_eq_none {p : Process} {top : ContextId}
    (h : (p.chain top).find? (fun c => (p.contextAt c).locals.contains name) = none) : local? p top name = none := by
  refine List.findSome?_eq_none_iff.2 fun c hc => ?_
  have hnot := List.find?_eq_none.1 h c hc
  simpa [Bindings.contains] using hnot

section
variable (hL : Process.Law G K)
include hL

theorem glance_follows (m₀ : Machine) : Glance (G id) (Follows K id m₀) where
  seeded hm := hm.busy.seeded
  heap ha hm := ⟨(glance_busy hL).heap ha hm.busy, hm.task, hm.scopes.trans ⟨rfl, rfl, fun _ => ⟨_, rfl⟩⟩,
    ha _ (Heap.law_reflected _) hm.reflected, fun r hu => ha _ (Heap.law_unread_at r) (hm.unread r hu)⟩
  pin {m} c hm := by
    have hheap : (m.process.pin c).heap = m.process.heap := by
      obtain ⟨contexts, heq⟩ : ∃ contexts, m.process.pin c = { m.process with contexts := contexts } :=
        Process.pinFrom_eq _ c m.process
      rw [heq]
    exact ⟨(glance_busy hL).pin c hm.busy, hm.task, hm.scopes.trans (Process.scopes_pin c _), hheap ▸ hm.reflected,
      hheap ▸ hm.unread⟩

/-! ## Names -/

theorem Busy.setMember (hm : m.Busy K id) (hu : name = "value" → G id r → m.process.heap.Unread r) (v : Value) :
    (onHeap (Heap.setMember r name v) m).2.Busy K id :=
  (glance_busy hL).heap (fun _ hK hk => hK.setMember_guarded hu hk v) hm

/-- The object of a module is there already, or it is no future that has been read. -/
theorem Follows.wp_moduleObject (hm : Follows K id m₀ m) {top : ContextId} (htop : m.top? = some top) :
    (moduleObject (m.process.contextAt top).module).wp m
      (fun r m' => Follows K id m₀ m' ∧ m'.process.contexts = m.process.contexts ∧ m'.top? = m.top? ∧
        (m₀.Homes r ∨ m'.process.heap.Unread r))
      fun _ m' => m'.Busy K id := by
  have hkeep := Act.wp_of_preserves ((glance_follows hL m₀).moduleObject (m.process.contextAt top).module) hm
  have hframe : (moduleObject (m.process.contextAt top).module).wp m
      (fun r m' => m'.process.contexts = m.process.contexts ∧ m'.top? = m.top? ∧
        (m₀.Homes r ∨ m'.process.heap.Unread r)) fun _ _ => True := by
    refine wp_onHeap (Act.wp_mono (Heap.wp_reflect_unread _) (fun r h hr => ⟨rfl, rfl, ?_⟩) fun _ _ _ => trivial)
    rcases hr with ⟨hr, rfl⟩ | hu
    · refine (hm.reflected _ r hr).imp_left fun hr => ⟨top, hm.top? ▸ htop, ?_⟩
      rw [← hm.scopes.module]
      exact hr
    · exact .inr hu
  exact Act.wp_mono (Act.wp_and hkeep hframe) (fun _ _ h => h) fun _ _ h => h.1.busy

theorem Follows.bind (hm : Follows K id m₀ m)
    (hspare : name = "value" → ∀ r, G id r → m₀.Binds r → m₀.process.heap.Unread r) (v : Value) :
    (bind name v m).2.Busy K id := by
  have hkeep : (Machine.bind name v).wp m (fun _ => Busy K id) fun _ => Busy K id := by
    unfold Machine.bind
    rw [Act.wp_bind, Act.wp_get]
    cases htop : m.top? with
    | none => exact hm.busy
    | some top =>
        dsimp only
        split
        · rename_i hkind
          rw [Act.wp_bind]
          refine Act.wp_mono (hm.wp_moduleObject hL htop) (fun r m₁ h => ?_) fun _ _ h => h
          obtain ⟨hm₁, _, _, hr⟩ := h
          refine .of_state (hm₁.busy.setMember hL (fun hn hg => hr.elim (fun hhome => hm₁.unread r ?_) fun h => h) v)
          rw [hm.scopes.kind] at hkind
          exact hspare hn r hg ⟨hhome, top, hm.top? ▸ htop, hkind⟩
        · rename_i hkind
          exact hm.busy.modifyContext hL top fun _ h => absurd h hkind
  exact hkeep.state

theorem Follows.assign (hm : Follows K id m₀ m)
    (hspare : name = "value" → ∀ r, G id r → m₀.Assigns name r → m₀.process.heap.Unread r) (v : Value) :
    (assign name v m).2.Busy K id := by
  have hkeep : (Machine.assign name v).wp m (fun _ => Busy K id) fun _ => Busy K id := by
    unfold Machine.assign
    rw [Act.wp_bind, Act.wp_get]
    cases htop : m.top? with
    | none => exact hm.busy
    | some top =>
        dsimp only
        split
        · rename_i c hc
          have hcontains : (m.process.contextAt c).locals.contains name := by simpa using List.find?_some hc
          refine hm.busy.modifyContext hL c fun hbare hkind => ?_
          rw [(hbare hkind).2.2] at hcontains
          cases hcontains
        · rename_i hnone
          have hnone : local? m₀.process top name = none := by
            rw [← hm.scopes.local?]
            exact local?_eq_none (Option.eq_none_iff_forall_ne_some.2 hnone)
          have hmodule : (do
              let object ← moduleObject (m.process.contextAt top).module
              if (← look fun h => h.member object name).isSome then onHeap (Heap.setMember object name v)
              else Machine.bind name v : Act Machine Unit).wp m (fun _ => Busy K id) fun _ => Busy K id := by
            rw [Act.wp_bind]
            refine Act.wp_mono (hm.wp_moduleObject hL htop) (fun r m₁ h => ?_) fun _ _ h => h
            obtain ⟨hm₁, _, _, hr⟩ := h
            rw [Act.wp_bind]
            refine wp_look (fun x => ?_) fun _ => hm₁.busy
            split
            · refine .of_state (hm₁.busy.setMember hL (fun hn hg => hr.elim (fun hhome => hm₁.unread r ?_) fun h => h) v)
              exact hspare hn r hg ⟨top, hm.top? ▸ htop, hnone, .inr hhome⟩
            · refine .of_state (hm₁.bind hL (fun hn r hg hbinds => ?_) v)
              exact hspare hn r hg ⟨top, hm.top? ▸ htop, hnone, .inr hbinds.1⟩
          split
          · rename_i r hrec
            rw [Act.wp_bind]
            refine wp_look (fun x => ?_) fun _ => hm.busy
            split
            · refine .of_state (holds_bind (hm.busy.setMember hL (fun hn hg => ?_) v) fun _ => preserves_pure _)
              rw [hm.scopes.receiver] at hrec
              exact hm.unread r (hspare hn r hg ⟨top, hm.top? ▸ htop, hnone, .inl hrec⟩)
            · exact hmodule
          · exact hmodule
  exact hkeep.state

theorem Busy.increase (hm : m.Busy K id) {operand : Operand}
    (hspare : operand.name? = some "value" → ∀ r, G id r → m.Assigns "value" r → m.process.heap.Unread r) (op : Op) (delta : Int64) :
    (increase op operand delta m).2.Busy K id := by
  have hset : Preserves (Follows K id m) (namedOr operand readRegister) :=
    (glance_follows hL m).namedOr operand Glance.readRegister
  have hkeep : (Machine.increase op operand delta).wp m (fun _ => Busy K id) fun _ => Busy K id := by
    unfold Machine.increase
    rw [Act.wp_bind]
    refine Act.wp_mono (Act.wp_of_preserves hset hm.follows) (fun old m₁ hm₁ => ?_) fun _ _ h => h.busy
    split
    · rename_i s
      rw [Act.wp_bind, Act.wp_mk]
      cases Scalar.arithmetic .add s (.int delta) with
      | error e => exact hm₁.busy
      | ok new =>
          dsimp only
          split
          · rename_i name
            refine .of_state (holds_bind (hm₁.assign hL (fun hn r hg => ?_) _) fun _ =>
              Glance.lift fun _ => busy_setRegister hL _)
            subst hn
            exact hspare rfl r hg
          · exact .of_state (busy_setRegister hL _ hm₁.busy)
    · exact hm₁.busy
  exact hkeep.state

theorem busy_startModule (module : ModuleId) (hm : m.Busy K id) :
    (updateProcess (fun p => p.startModule module (some m.task)) m).2.Busy K id := by
  have hat := Process.taskAt_startModule hm.running module (some m.task)
  have hsize : m.process.tasks.size ≤ (m.process.startModule module (some m.task)).2.tasks.size :=
    size_startModule m.process module _ ▸ Nat.le_succ _
  exact hm.process hL (Process.heeds_startModule _ module (some m.task)) (Process.heap_startModule _ module _)
    (hm.bare.startModule module (some m.task)) hsize (hat ▸ hm.unfinished)

/-- What is left to do when a module is bound. -/
theorem Busy.enterModule (hm : m.Busy K id) (module : ModuleId) (loaded : Value) : ((do
    let m ← get
    match m.process.modules.get? module with
    | some .ready => return .value loaded
    | some (.initializing t) =>
      if (m.process.ancestry m.task).elem t then return .value loaded
      setRegister loaded
      await t .keep .onCall
    | none =>
      let t ← updateProcess (α := TaskId) fun p => p.startModule module (some m.task)
      setRegister loaded
      enqueue t
      await t .keep .onCall : Act Machine Reply) m).2.Busy K id := by
  have hawait : ∀ t, Preserves (Busy K id) (do
      setRegister loaded
      await t .keep .onCall : Act Machine Reply) := fun t =>
    preserves_bind (Glance.lift fun _ => busy_setRegister hL _) fun _ => Glance.lift fun _ => busy_await hL t .keep _
  refine (Act.wp_bind.2 (Act.wp_get.2 ?_) : Act.wp _ m (fun _ => Busy K id) fun _ => Busy K id).state
  split
  · exact hm
  · split
    · exact hm
    · exact .of_state (hawait _ m hm)
  · refine .of_state (holds_bind (busy_startModule hL module hm) fun t => ?_)
    exact preserves_bind (Glance.lift fun _ => busy_setRegister hL _) fun _ =>
      preserves_bind (Glance.lift fun _ => busy_enqueue hL t) fun _ => Glance.lift fun _ => busy_await hL t .keep _

omit hL in
theorem follows_onRegistry {act : Registry.Entry α} (ha : Preserves Registry.Seeded act) :
    Preserves (Follows K id m₀) (onRegistry act) := fun _ hm =>
  ⟨⟨⟨hm.busy.id, ha _ hm.busy.seeded, hm.busy.law, hm.busy.bare, hm.busy.nursery⟩, hm.busy.running, hm.busy.unfinished⟩,
    hm.task, hm.scopes, hm.reflected, hm.unread⟩

theorem Busy.loadModule (hm : m.Busy K id)
    (hspare : name = "value" → ∀ r, G id r → m.Homes r → m.process.heap.Unread r) :
    (loadModule name m).2.Busy K id := by
  have hkeep : (Machine.loadModule name).wp m (fun _ => Busy K id) fun _ => Busy K id := by
    unfold Machine.loadModule
    rw [Act.wp_bind, Act.wp_get, Act.wp_bind]
    have hresolve := follows_onRegistry (Registry.preserves_resolve Registry.lasting_seeded m.host.library name) _ hm.follows
    refine Act.wp_mono (Act.wp.of_state hresolve) (fun module m₁ hm₁ => ?_) fun _ _ h => h.busy
    rw [Act.wp_bind]
    refine Act.wp_mono (Act.wp_of_preserves ((glance_follows hL m).moduleObject module) hm₁) (fun object m₂ hm₂ => ?_)
      fun _ _ h => h.busy
    rw [Act.wp_bind, Act.wp_get]
    cases htop : m₂.top? with
    | none => exact hm₂.busy
    | some top =>
        dsimp only
        rw [Act.wp_bind, Act.wp_get, Act.wp_bind]
        refine Act.wp_mono (hm₂.wp_moduleObject hL htop) (fun importer m₃ h => ?_) fun _ _ h => h
        obtain ⟨hm₃, _, _, hr⟩ := h
        rw [Act.wp_bind]
        have hspared : name = "value" → G id importer → m₃.process.heap.Unread importer := fun hn hg =>
          hr.elim (fun hhome => hm₃.unread _ (hspare hn importer hg hhome)) fun h => h
        refine Act.wp_mono (Act.wp.of_state (hm₃.busy.setMember hL hspared (.object object))) (fun _ m₄ hm₄ => ?_) fun _ _ h => h
        exact .of_state (hm₄.enterModule hL module _)
  exact hkeep.state

/-! ## Blocks -/

theorem busy_setCursor (c : ContextId) (position : Nat) (hm : m.Busy K id) : (setCursor c position m).2.Busy K id :=
  hm.modifyContext hL c fun h => h

theorem Busy.newContext (hm : m.Busy K id) {c : Context} (hc : c.Bare) :
    ({ m with process := (m.process.newContext c).2 } : Machine).Busy K id := by
  obtain ⟨_, _, heq⟩ := Process.newContext_frame m.process c
  have hbare := hm.bare.newContext hc
  rw [heq] at hbare ⊢
  exact hm.contexts hL rfl rfl rfl hbare

theorem busy_releaseContext (c : ContextId) (hm : m.Busy K id) :
    ({ m with process := m.process.releaseContext c } : Machine).Busy K id := by
  obtain ⟨_, _, heq⟩ := Process.releaseContext_eq m.process c
  have hbare := hm.bare.releaseContext c
  rw [heq] at hbare ⊢
  exact hm.contexts hL rfl rfl rfl hbare

theorem busy_openBlock (top : ContextId) (position : Nat) (hm : m.Busy K id) : (openBlock top position m).2.Busy K id := by
  let around := m.process.contextAt top
  let block : Context :=
    { task := m.task, kind := .block, previous := some top, receiver := around.receiver
      module := around.module, function := around.function, cursor := position + 1 }
  have hblock : block.Bare := nofun
  exact (hm.newContext hL hblock).modifyCurrent hL (f := fun t =>
    { t with contexts := (m.process.newContext block).1 :: t.contexts }) fun _ h => h

theorem busy_closeBlock (top : ContextId) (position : Nat) : Preserves (Busy K id) (closeBlock top position) := by
  unfold closeBlock
  refine preserves_get fun m _ => ?_
  split
  · refine preserves_bind (Glance.lift fun m hm => ?_) fun _ => preserves_bind (Glance.lift fun m hm => ?_) fun _ =>
      Glance.lift fun _ => busy_setCursor hL _ _
    · exact hm.modifyCurrent hL (f := fun t => { t with contexts := _ }) fun _ h => h
    · exact busy_releaseContext hL top hm
  · exact preserves_throw _

/-! ## One instruction -/

theorem busy_accept (reply : Reply) : Preserves (Busy K id) (accept reply) := by
  cases reply with
  | value v => exact preserves_bind (Glance.lift fun _ => busy_setRegister hL v) fun _ => preserves_pure _
  | parked => exact preserves_pure _

omit hL in
theorem busy_jumpWhen (truth : Bool) (position : Nat) (operand : Operand) :
    Preserves (Busy K id) (jumpWhen truth position operand) := by
  unfold jumpWhen
  refine preserves_bind Glance.readRegister fun v => ?_
  split
  · exact preserves_bind (Glance.jumpTarget _ _) fun _ => preserves_pure _
  · exact preserves_pure _

theorem Busy.index (hm : m.Busy K id) (hgo : m.Going g (some t)) : (Machine.index m).2.Busy K id := by
  have hG : Glance (G id) (Busy K id) := glance_busy hL
  unfold Machine.index
  refine hm.after (busy_pop hL) (keeps_pop hgo) fun collection m₁ hm₁ hgo₁ _ hc => ?_
  refine hm₁.after Glance.readRegister (keeps_readRegister hgo₁) fun i m₂ hm₂ hgo₂ _ hi => ?_
  obtain ⟨rfl, _, hi⟩ := hi
  refine hm₂.after (Glance.fastIndex collection i) (keeps_fastIndex hgo₂ hc i) fun v m₃ hm₃ hgo₃ hr₃ _ => ?_
  cases v with
  | some v => exact busy_accept hL _ _ hm₃
  | none =>
      refine hm₃.after (hG.getMember _ _) (keeps_getMember hgo₃ (hr₃.valid _ hc) _) fun method m₄ hm₄ hgo₄ _ _ => ?_
      exact holds_bind (hm₄.call hL hgo₄ method i .result) fun _ => busy_accept hL _

theorem Busy.store (hm : m.Busy K id) (hgo : m.Going g (some t)) : (Machine.store m).2.Busy K id := by
  have hG : Glance (G id) (Busy K id) := glance_busy hL
  unfold Machine.store
  refine hm.after (busy_pop hL) (keeps_pop hgo) fun i m₁ hm₁ hgo₁ _ hi => ?_
  refine hm₁.after (busy_pop hL) (keeps_pop hgo₁) fun collection m₂ hm₂ hgo₂ hr₂ hc => ?_
  refine hm₂.after Glance.readRegister (keeps_readRegister hgo₂) fun v m₃ hm₃ hgo₃ hr₃ hv => ?_
  obtain ⟨rfl, _, hv⟩ := hv
  refine hm₃.after (hG.fastStore collection i v) (keeps_fastStore hgo₃ hc i hv) fun stored m₄ hm₄ hgo₄ hr₄ _ => ?_
  cases stored with
  | true => exact hm₄
  | false =>
      refine hm₄.after (hG.getMember _ _) (keeps_getMember hgo₄ (hr₄.valid _ hc) _) fun method m₅ hm₅ hgo₅ hr₅ _ => ?_
      have hpair : ∀ w ∈ [i, v], m₅.process.heap.Valid w := fun w hw => by
        refine hr₅.valid w (hr₄.valid w ?_)
        rcases List.mem_pair.1 hw with rfl | rfl
        · exact hr₂.valid _ hi
        · exact hv
      refine hm₅.after (hG.newTuple _) (keeps_newTuple hgo₅ hpair) fun pair m₆ hm₆ hgo₆ _ _ => ?_
      refine holds_bind (hm₆.call hL hgo₆ method pair .keep) fun reply =>
        preserves_bind (Glance.lift fun _ => busy_setRegister hL v) fun _ => ?_
      cases reply with
      | value _ => exact preserves_pure _
      | parked => exact preserves_pure _

theorem busy_returnValue (operand : Operand) : Preserves (Busy K id) (returnValue operand) :=
  preserves_bind ((glance_busy hL).operandOr operand Glance.readRegister) fun v =>
    preserves_bind (Glance.lift fun _ => busy_setRegister hL v) fun _ => preserves_pure _

omit hL in
theorem Busy.named (hm : m.Busy K id) {position : Nat} {operand : Operand} {k : String → Act Machine α}
    (hk : ∀ name, operand.name? = some name → (k name m).2.Busy K id) :
    ((nameOperand position operand >>= k) m).2.Busy K id := by
  unfold nameOperand
  cases hn : operand.name? with
  | none => exact hm
  | some name => exact hk name hn

/-- The target is on top of the stack. -/
theorem Busy.setField (hm : m.Busy K id)
    (hspare : name = "value" → ∀ r, G id r → m.current.stack.head? = some (.object r) → m.process.heap.Unread r) : ((do
      let target ← pop
      Machine.setMember target name (← readRegister)
      return .next : Act Machine Flow) m).2.Busy K id := by
  have hkeep : (do
      let target ← pop
      Machine.setMember target name (← readRegister)
      return .next : Act Machine Flow).wp m (fun _ => Busy K id) fun _ => Busy K id := by
    rw [Act.wp_bind]
    unfold pop
    rw [Act.wp_bind, Act.wp_get]
    cases hstack : m.current.stack with
    | nil => exact hm
    | cons target rest =>
        have hpopped : (Machine.modifyCurrent (fun t => { t with stack := rest }) m).2.Busy K id :=
          hm.modifyCurrent hL (f := fun t => { t with stack := rest }) fun _ h => h
        unfold readRegister
        simp only [Act.wp_bind, Act.wp_lift, Act.wp_pure, Act.wp_get]
        have hheap : (Machine.modifyCurrent (fun t => { t with stack := rest }) m).2.process.heap = m.process.heap := rfl
        generalize (Machine.modifyCurrent (fun t => { t with stack := rest }) m).2 = m₁ at hpopped hheap ⊢
        refine .of_state ?_
        cases target with
        | none => exact hpopped
        | scalar s => exact hpopped
        | object r =>
            refine hpopped.setMember hL (fun hn hg => hheap ▸ hspare hn r hg ?_) _
            rw [hstack]
            rfl
  exact hkeep.state

theorem busy_isA (operand : Operand) : Preserves (Busy K id) (do
    let v ← match operand with
      | .name _ => readRegister
      | _ => pop
    let c ← expectClass (← namedOr operand readRegister)
    (do return .ofBool ((← get).isInstance v c) : Act Machine Value) >>= fun v => accept (.value v)) := by
  have hrest : ∀ v, Preserves (Busy K id) (do
      let c ← expectClass (← namedOr operand readRegister)
      (do return .ofBool ((← get).isInstance v c) : Act Machine Value) >>= fun v => accept (.value v)) := fun v =>
    preserves_bind ((glance_busy hL).namedOr operand Glance.readRegister) fun _ => preserves_bind (Glance.expectClass _)
      fun _ => preserves_bind (preserves_get fun _ _ => preserves_pure _) fun _ => busy_accept hL _
  dsimp only
  split
  · exact preserves_bind Glance.readRegister fun v => hrest v
  · exact preserves_bind (busy_pop hL) fun v => hrest v

theorem busy_binary (op : Op) (operand : Operand) : Preserves (Busy K id) (if operand.isNone then do
      let lhs ← pop
      (do binary op lhs (← readRegister)) >>= fun v => accept (.value v)
    else do
      let lhs ← readRegister
      (do binary op lhs (← operandValue operand)) >>= fun v => accept (.value v)) := by
  have hG : Glance (G id) (Busy K id) := glance_busy hL
  split
  · refine preserves_bind (busy_pop hL) fun lhs => preserves_bind ?_ fun _ => busy_accept hL _
    exact preserves_bind Glance.readRegister fun _ => hG.binary op lhs _
  · refine preserves_bind Glance.readRegister fun lhs => preserves_bind ?_ fun _ => busy_accept hL _
    exact preserves_bind (hG.operandValue operand) fun _ => hG.binary op lhs _

theorem Busy.step (hm : m.Busy K id) (hgo : m.Going g (some t)) {i : Instruction}
    (hspare : ∀ r, G id r → m.Stores i "value" r → m.process.heap.Unread r) (top : ContextId) (position : Nat) :
    (step top position i m).2.Busy K id := by
  have hG : Glance (G id) (Busy K id) := glance_busy hL
  obtain ⟨op, operand⟩ := i
  have hname : Preserves (Busy K id) (nameOperand position operand) := Glance.nameOperand _ _
  have hread : Preserves (Busy K id) readRegister := Glance.readRegister
  have hpop : Preserves (Busy K id) pop := busy_pop hL
  have hnext : Preserves (Busy K id) (pure Flow.next : Act Machine Flow) := preserves_pure _
  have hpush : ∀ v, Preserves (Busy K id) (push v : Act Machine Unit) := fun v => Glance.lift fun _ => busy_push hL v
  have hyields : ∀ {act : Act Machine Value}, Preserves (Busy K id) act →
      Preserves (Busy K id) (act >>= fun v => accept (.value v)) := fun h => preserves_bind h fun _ => busy_accept hL _
  have hreply : ∀ {act : Act Machine Reply}, Preserves (Busy K id) act → Preserves (Busy K id) (act >>= accept) := fun h =>
    preserves_bind h fun _ => busy_accept hL _
  unfold Machine.step
  cases op with
  | nop => exact hm
  | load => exact hyields (hG.operandOr operand hpop) m hm
  | push => exact preserves_bind (hG.operandOr operand hread) (fun v => preserves_bind (hpush v) fun _ => hnext) m hm
  | peek => exact hyields (Glance.peek _) m hm
  | dup => exact preserves_bind (Glance.peek 0) (fun v => preserves_bind (hpush v) fun _ => hnext) m hm
  | pushNone => exact preserves_bind (hpush .none) (fun _ => hnext) m hm
  | clear => exact busy_accept hL _ m hm
  | setField =>
      refine hm.named fun name hn => hm.setField hL fun h r hg hr => hspare r hg (.field rfl ?_ hr)
      exact h ▸ hn
  | bind =>
      refine hm.named fun name hn => ?_
      have hbound := hm.follows.bind hL (fun h r hg hr => hspare r hg (.bind rfl (h ▸ hn) hr)) m.register
      exact (holds_bind hbound fun _ => hnext : Busy K id ((Machine.bind name m.register >>= fun _ => pure Flow.next) m).2)
  | assign =>
      refine hm.named fun name hn => ?_
      have hset := hm.follows.assign hL (fun h r hg hr => hspare r hg (.assign rfl (h ▸ hn) (h ▸ hr))) m.register
      exact (holds_bind hset fun _ => hnext : Busy K id ((Machine.assign name m.register >>= fun _ => pure Flow.next) m).2)
  | member => exact preserves_bind hname (fun name => preserves_bind hread fun _ => hyields (hG.getMember _ name)) m hm
  | memberPush =>
      refine preserves_bind hname (fun name => preserves_bind hread fun _ => ?_) m hm
      exact preserves_bind (hG.getMember _ name) fun v => preserves_bind (hpush v) fun _ => busy_accept hL _
  | call =>
      refine hm.after (hG.namedOr operand hpop) (keeps_namedOr hgo operand (keeps_pop hgo)) fun callee m₁ hm₁ hgo₁ _ _ => ?_
      refine hm₁.after hread (keeps_register hgo₁) fun argument m₂ hm₂ hgo₂ _ _ => ?_
      exact holds_bind (hm₂.call hL hgo₂ callee argument .result) fun _ => busy_accept hL _
  | callBare =>
      refine hm.after (hG.namedOr operand hread) (keeps_namedOr hgo operand (keeps_register hgo))
        fun callee m₁ hm₁ hgo₁ _ _ => ?_
      exact holds_bind (hm₁.call hL hgo₁ callee .none .result) fun _ => busy_accept hL _
  | jump => exact preserves_bind (Glance.jumpTarget _ _) (fun _ => preserves_pure _) m hm
  | jumpIf => exact busy_jumpWhen true position operand m hm
  | jumpUnless => exact busy_jumpWhen false position operand m hm
  | handler =>
      refine preserves_bind (Glance.jumpTarget _ _) (fun target => ?_) m hm
      exact preserves_bind (Glance.lift fun _ hm => hm.modifyContext hL top fun h => h) fun _ => hnext
  | ret => exact preserves_bind (preserves_discard (busy_returnValue hL operand)) (fun _ => preserves_pure _) m hm
  | exit =>
      refine preserves_bind (busy_returnValue hL operand) (fun v => ?_) m hm
      refine preserves_bind (Glance.lift fun m hm => ?_) fun _ => preserves_pure _
      exact hm.contexts hL rfl rfl rfl (Process.bare_of_contexts hm.bare rfl)
  | openBlock => exact preserves_bind (Glance.lift fun _ => busy_openBlock hL top position) (fun _ => preserves_pure _) m hm
  | closeBlock => exact preserves_bind (busy_closeBlock hL top position) (fun _ => preserves_pure _) m hm
  | array => exact hyields (preserves_bind (busy_popMany hL _) fun _ => hG.newArray _) m hm
  | tuple => exact hyields (preserves_bind (busy_popMany hL _) fun _ => hG.newTuple _) m hm
  | index => exact hm.index hL hgo
  | store => exact hm.store hL hgo
  | element =>
      refine preserves_bind (Glance.element operand) (fun v => ?_) m hm
      split
      · exact busy_accept hL _
      · exact preserves_throw _
  | elementOr =>
      refine preserves_bind (Glance.element operand) (fun v => ?_) m hm
      split
      · exact busy_accept hL _
      · exact hnext
  | length =>
      exact hyields (preserves_bind (Glance.peek 0) fun _ => preserves_bind (Glance.arguments _) fun _ =>
        preserves_pure _) m hm
  | not => exact hyields (preserves_bind hread fun _ => preserves_pure _) m hm
  | inc =>
      exact holds_bind (hm.increase hL (fun hn r hg hr => hspare r hg (.increase (.inl rfl) hn hr)) .inc 1) fun _ => hnext
  | dec =>
      exact holds_bind (hm.increase hL (fun hn r hg hr => hspare r hg (.increase (.inr rfl) hn hr)) .dec (-1)) fun _ => hnext
  | isA => exact busy_isA hL operand m hm
  | loadModule =>
      refine hm.named fun name hn => holds_bind (hm.loadModule hL fun h r hg hr => ?_) (busy_accept hL)
      exact hspare r hg (.load rfl (h ▸ hn) hr)
  | raise =>
      refine preserves_bind hread (fun v => preserves_get fun _ _ => ?_) m hm
      dsimp only
      split
      · exact preserves_bind (Glance.expectObject _ _) fun _ => preserves_bind (preserves_throw _) fun _ => preserves_throw _
      · exact preserves_throw _
  | wait => exact preserves_bind hread (fun _ => hreply (busy_wait hL _)) m hm
  | _ => exact busy_binary hL _ operand m hm

end

end Spool.Machine
