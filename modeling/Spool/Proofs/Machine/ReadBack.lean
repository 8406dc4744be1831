import Spool.Proofs.Machine.Guarded
import Spool.Proofs.Machine.Suspensions

/-!
# Reading back what has been assigned

Names are looked up in one order and assigned in another. Both look at the variables of the contexts first, then at the
members of the receiver and then at those of the module. A lookup also finds the methods of the receiver before it comes to
the module; nothing can be assigned to those.
-/

namespace Spool

namespace Process

variable {p : Process} {c top : ContextId} {name : String} {v : Value}

/-- The contexts around a context are those its links lead to. -/
theorem chain_congr {q : Process} (hsize : q.contexts.size = p.contexts.size)
    (hprevious : ∀ d, (q.contextAt d).previous = (p.contextAt d).previous) (top : ContextId) : q.chain top = p.chain top := by
  have hfrom : ∀ (fuel : Nat) (d : ContextId), q.chainFrom fuel d = p.chainFrom fuel d := by
    intro fuel
    induction fuel with
    | zero => exact fun _ => rfl
    | succ fuel ih =>
        intro d
        unfold chainFrom
        simp only [hprevious, ih]
  rw [chain, chain, hfrom, hsize]

theorem chain_store (p : Process) (c : ContextId) (name : String) (v : Value) (top : ContextId) :
    (p.modifyContext c fun c => { c with locals := c.locals.insert name v }).chain top = p.chain top := by
  refine chain_congr (Array.size_modify ..) (fun d => ?_) top
  rw [contextAt_modifyContext]
  split <;> rfl

theorem local?_of_contexts {q : Process} (h : q.contexts = p.contexts) (top : ContextId) (name : String) :
    Machine.local? q top name = Machine.local? p top name := by
  have hat : ∀ d, q.contextAt d = p.contextAt d := fun d => by rw [contextAt, h, contextAt]
  unfold Machine.local?
  rw [chain_congr (congrArg Array.size h) fun d => congrArg Context.previous (hat d)]
  simp only [hat]

/-- The nearest context that holds the name, or is to hold it, has the new value. -/
theorem local?_store {before after : List ContextId} (hchain : p.chain top = before ++ c :: after)
    (hbefore : ∀ d ∈ before, (p.contextAt d).locals.get? name = none) (hlt : c.index < p.contexts.size) :
    Machine.local? (p.modifyContext c fun c => { c with locals := c.locals.insert name v }) top name = some v := by
  have hat : ∀ d, ((p.modifyContext c fun c => { c with locals := c.locals.insert name v }).contextAt d).locals.get? name =
      if c = d ∧ d.index < p.contexts.size then some v else (p.contextAt d).locals.get? name := fun d => by
    rw [contextAt_modifyContext]
    split
    · exact (Bindings.get?_insert ..).trans (if_pos rfl)
    · rfl
  unfold Machine.local?
  rw [chain_store, hchain]
  clear hchain
  induction before with
  | nil => rw [List.nil_append, List.findSome?_cons, hat, if_pos ⟨rfl, hlt⟩]
  | cons d rest ih =>
      have hrest := ih fun x hx => hbefore x (List.mem_cons_of_mem _ hx)
      rw [List.cons_append, List.findSome?_cons, hat]
      split
      · rename_i b hb
        split at hb
        · exact hb.symm
        · cases (hbefore d List.mem_cons_self).symm.trans hb
      · exact hrest

theorem index_lt_of_contains (h : (p.contextAt c).locals.contains name) : c.index < p.contexts.size := by
  refine Nat.lt_of_not_le fun hle => ?_
  rw [contextAt, Array.getD_eq_getD_getElem?, Array.getElem?_eq_none hle] at h
  cases h

theorem chain_eq_cons (h : c.index < p.contexts.size) : ∃ rest, p.chain c = c :: rest := by
  unfold chain
  cases hsize : p.contexts.size with
  | zero => omega
  | succ n =>
      unfold chainFrom
      split
      · exact ⟨_, rfl⟩
      · exact ⟨[], rfl⟩

theorem local?_of_bare (hc : (p.contextAt c).previous = none) (hl : (p.contextAt c).locals = {}) :
    Machine.local? p c name = none := by
  refine List.findSome?_eq_none_iff.2 fun d hd => ?_
  have hself : d = c := by
    unfold chain at hd
    cases hsize : p.contexts.size with
    | zero => simp [hsize, chainFrom] at hd
    | succ n => simpa [hsize, chainFrom, hc] using hd
  rw [hself, hl]
  rfl

end Process

namespace Machine

variable {m m' : Machine} {g : Outlook} {t : TaskId} {name : String} {v : Value} {top : ContextId} {r : Handle} {α : Type}

/-! ## Where a name is read from -/

/-- The receiver has neither a member nor a method of that name. -/
def Ignores (m : Machine) (receiver : Value) (name : String) : Prop :=
  ∀ r, receiver = .object r → ∃ o, m.process.heap.object? r = some o ∧ o.member? name = none ∧
    m.host.registry.findMethod? o.ofClass name = none

/-- The module has a variable of that name. -/
def HasVariable (m : Machine) (module : ModuleId) (name : String) (v : Value) : Prop :=
  ∃ r o, m.process.heap.reflection? (.ofModule module) = some r ∧ m.process.heap.object? r = some o ∧ o.member? name = some v

/-- What stands for the name is a variable of a context, a member of the receiver or a variable of the module. -/
inductive Reads (m : Machine) (name : String) (v : Value) : Prop where
  | inner (top : ContextId) : m.top? = some top → local? m.process top name = some v → Reads m name v
  | own (top : ContextId) (r : Handle) (o : Object) : m.top? = some top → local? m.process top name = none →
      (m.process.contextAt top).receiver = .object r → m.process.heap.object? r = some o → o.member? name = some v →
      Reads m name v
  | outer (top : ContextId) : m.top? = some top → local? m.process top name = none →
      m.Ignores (m.process.contextAt top).receiver name → m.HasVariable (m.process.contextAt top).module name v →
      Reads m name v

/-- A method of the receiver is what stands for the name. -/
structure Masks (m : Machine) (name : String) (top : ContextId) (r : Handle) (f : FunctionId) : Prop where
  inner : m.top? = some top
  unbound : local? m.process top name = none
  receiver : (m.process.contextAt top).receiver = .object r
  method : ∃ o, m.process.heap.object? r = some o ∧ o.member? name = none ∧
    m.host.registry.findMethod? o.ofClass name = some f

/-- A variable of the module is out of sight, for a method of the receiver stands for its name. -/
def Eclipsed (m : Machine) (name : String) (v : Value) : Prop :=
  ∃ top r f, m.Masks name top r f ∧ m.HasVariable (m.process.contextAt top).module name v

theorem HasVariable.valid {module : ModuleId} (h : m.HasVariable module name v) (hs : m.process.heap.Sound) :
    m.process.heap.Valid v := by
  obtain ⟨r, o, _, ho, hmember⟩ := h
  exact Heap.valid_of_mem_values hs.edges ho (List.mem_append_left _ (Bindings.mem_values_of_get? hmember))

theorem get_eq (m : Machine) : (get : Act Machine Machine) m = (.ok m, m) := rfl

theorem look_eq {f : Heap → Except Fault α} {a : α} (h : f m.process.heap = .ok a) : look f m = (.ok a, m) := by
  have hrun : look f m = (f m.process.heap, m) := rfl
  rw [hrun, h]

theorem member_eq {o : Object} (ho : m.process.heap.object? r = some o) :
    look (fun h => h.member r name) m = (.ok (o.member? name), m) :=
  look_eq (by simp [Heap.member, Heap.fetch, ho, Except.map])

theorem classOf_eq {o : Object} (ho : m.process.heap.object? r = some o) :
    look (fun h => h.classOf r) m = (.ok o.ofClass, m) :=
  look_eq (by simp [Heap.classOf, Heap.fetch, ho, Except.map])

theorem receiverMember_of_ignores {receiver : Value} (h : m.Ignores receiver name) :
    receiverMember receiver name m = (.ok none, m) := by
  cases receiver with
  | none => rfl
  | scalar s => rfl
  | object r =>
      obtain ⟨o, ho, hmember, hmethod⟩ := h r rfl
      unfold receiverMember
      dsimp only
      rw [Act.bind_ok (member_eq ho), hmember]
      dsimp only
      rw [Act.bind_ok (classOf_eq ho), Act.bind_ok (get_eq m), hmethod]
      rfl

theorem moduleMember_of_hasVariable {module : ModuleId} (h : m.HasVariable module name v) :
    moduleMember module name m = (.ok (some v), m) := by
  obtain ⟨r, o, hr, ho, hmember⟩ := h
  have hobject : moduleObject module m = (.ok r, m) := by
    have hrun : Heap.reflect (.ofModule module) m.process.heap = (.ok r, m.process.heap) := by
      have hget : (getThe Heap : Act Heap Heap) m.process.heap = (.ok m.process.heap, m.process.heap) := rfl
      unfold Heap.reflect
      rw [Act.bind_ok hget, hr]
      rfl
    unfold moduleObject onHeap
    rw [hrun]
  unfold moduleMember
  rw [Act.bind_ok hobject, Act.bind_ok (member_eq ho), hmember]
  rfl

/-- What stands for the name is found, and nothing changes. -/
theorem Reads.resolve (h : m.Reads name v) (hname : name ≠ "self") : resolve name m = (.ok v, m) := by
  unfold Machine.resolve
  rw [Act.bind_ok (get_eq m)]
  cases h with
  | inner top htop hlocal =>
      simp only [htop, if_neg hname, hlocal]
      rfl
  | own top r o htop hlocal hreceiver ho hmember =>
      have hrun : receiverMember (.object r) name m = (.ok (some v), m) := by
        unfold receiverMember
        dsimp only
        rw [Act.bind_ok (member_eq ho), hmember]
        rfl
      simp only [htop, if_neg hname, hlocal, hreceiver]
      rw [Act.bind_ok hrun]
      rfl
  | outer top htop hlocal hignores hvariable =>
      simp only [htop, if_neg hname, hlocal]
      rw [Act.bind_ok (receiverMember_of_ignores hignores)]
      dsimp only
      rw [Act.bind_ok (moduleMember_of_hasVariable hvariable)]
      rfl

theorem top?_setRegister (m : Machine) (v : Value) : (setRegister v m).2.top? = m.top? := by
  change ((setRegister v m).2.process.taskAt m.task).top? = (m.process.taskAt m.task).top?
  rw [taskAt_setRegister]
  split <;> rfl

theorem Reads.setRegister (h : m.Reads name v) (w : Value) : (setRegister w m).2.Reads name v := by
  have hlocal : ∀ top, local? (Machine.setRegister w m).2.process top name = local? m.process top name := fun top =>
    Process.local?_of_contexts (by rfl) top name
  cases h with
  | inner top htop hread => exact .inner top ((top?_setRegister m w).trans htop) ((hlocal top).trans hread)
  | own top r o htop hnone hreceiver ho hmember =>
      exact .own top r o ((top?_setRegister m w).trans htop) ((hlocal top).trans hnone) hreceiver ho hmember
  | outer top htop hnone hignores hvariable =>
      exact .outer top ((top?_setRegister m w).trans htop) ((hlocal top).trans hnone) hignores hvariable

/-! ## Writing members -/

/-- The machine with another heap. -/
def withHeap (m : Machine) (heap : Heap) : Machine := { m with process := { m.process with heap } }

theorem local?_withHeap (m : Machine) (heap : Heap) (top : ContextId) (name : String) :
    local? (m.withHeap heap).process top name = local? m.process top name :=
  Process.local?_of_contexts (by rfl) top name

/-- Where names are bound as they should be: edges are recorded, top levels have no variables of their own, and the innermost
context is there. -/
structure Grounded (m : Machine) : Prop where
  sound : m.process.heap.Sound
  bare : m.process.Bare
  inner : ∀ top, m.top? = some top → top.index < m.process.contexts.size

theorem Grounded.withHeap (hm : m.Grounded) {heap : Heap} (hs : heap.Sound) : (m.withHeap heap).Grounded :=
  ⟨hs, hm.bare, hm.inner⟩

/-- The object of a module is there, or it is made and has no members. -/
theorem wp_moduleObject (hs : m.process.heap.Sound) (module : ModuleId) :
    (moduleObject module).wp m (fun r m' => ∃ heap, m' = m.withHeap heap ∧ heap.Sound ∧
      heap.reflection? (.ofModule module) = some r ∧ (∀ x o, m.process.heap.object? x = some o → heap.object? x = some o) ∧
      (heap = m.process.heap ∨ m.process.heap.reflection? (.ofModule module) = none ∧
        ∃ o, heap.object? r = some o ∧ o.members = {})) fun _ _ => False := by
  refine wp_onHeap (Act.wp_mono (Heap.wp_reflect hs _) (fun r h hr => ?_) fun _ _ => False.elim)
  rcases hr with ⟨hr, rfl⟩ | ⟨hnone, hr⟩
  · exact ⟨_, rfl, hs, hr, fun _ _ ho => ho, .inl rfl⟩
  · refine ⟨h, rfl, hr.sound, ?_, fun x o ho => ?_, .inr ⟨hnone, _, (hr.object? r).trans (if_pos rfl), rfl⟩⟩
    · rw [Heap.reflection?, hr.reflections]
      exact (Bindings.get?_insert ..).trans (if_pos rfl)
    · rw [hr.object?, if_neg]
      · exact ho
      · rintro rfl
        cases hr.fresh.symm.trans ho

theorem wp_storeMember (hs : m.process.heap.Sound) (r : Handle) (name : String) (v : Value) :
    (onHeap (Heap.setMember r name v)).wp m (fun _ m' => ∃ heap o, m' = m.withHeap heap ∧ heap.Sound ∧
      m.process.heap.object? r = some o ∧ (∀ x, heap.object? x =
        if x = r then some { o with members := o.members.insert name v } else m.process.heap.object? x) ∧
      heap.reflections = m.process.heap.reflections) fun _ _ => True := by
  refine wp_onHeap (Act.wp_mono (Heap.wp_setMember hs r name v) (fun _ h hdone => ?_) fun _ _ _ => trivial)
  obtain ⟨_, o, ho, hw⟩ := hdone
  exact ⟨h, o, rfl, hw.sound, ho, hw.puts.object?, hw.puts.reflections⟩

/-- A variable of the module gets a value. -/
theorem wp_storeVariable (hs : m.process.heap.Sound) {module : ModuleId}
    (hr : m.process.heap.reflection? (.ofModule module) = some r) (name : String) (v : Value) :
    (onHeap (Heap.setMember r name v)).wp m (fun _ m' => ∃ heap, m' = m.withHeap heap ∧ heap.Sound ∧
      m'.HasVariable module name v ∧ ∀ x, x ≠ r → heap.object? x = m.process.heap.object? x) fun _ _ => True := by
  refine Act.wp_mono (wp_storeMember hs r name v) (fun _ m' h => ?_) fun _ _ _ => trivial
  obtain ⟨heap, o, rfl, hs', ho, hobject, hreflections⟩ := h
  refine ⟨heap, rfl, hs', ⟨r, _, ?_, (hobject r).trans (if_pos rfl), (Bindings.get?_insert ..).trans (if_pos rfl)⟩, fun x hx =>
    (hobject x).trans (if_neg hx)⟩
  change heap.reflections.get? _ = some r
  rw [hreflections]
  exact hr

/-! ## Binding and assigning -/

/-- What has been bound is what stands for the name. -/
theorem wp_bind_reads (hm : m.Grounded) (name : String) (v : Value) :
    (bind name v).wp m (fun _ m' => m'.Reads name v ∧ m'.process.heap.Sound) fun _ _ => True := by
  unfold bind
  rw [Act.wp_bind, Act.wp_get]
  cases htop : m.top? with
  | none => trivial
  | some top =>
      dsimp only
      split
      · rename_i hkind
        obtain ⟨hprevious, hreceiver, hlocals⟩ := hm.bare top hkind
        have hlocal : local? m.process top name = none := Process.local?_of_bare hprevious hlocals
        rw [Act.wp_bind]
        refine Act.wp_mono (wp_moduleObject hm.sound _) (fun r m₁ h => ?_) fun _ _ => False.elim
        obtain ⟨heap, rfl, hs, hr, _⟩ := h
        refine Act.wp_mono (wp_storeVariable hs hr name v) (fun _ m₂ h => ?_) fun _ _ _ => trivial
        obtain ⟨heap', rfl, hs', hvariable, _⟩ := h
        refine ⟨.outer top htop ?_ (fun x hx => nomatch hreceiver.symm.trans hx) hvariable, hs'⟩
        rw [local?_withHeap, local?_withHeap]
        exact hlocal
      · obtain ⟨rest, hchain⟩ := Process.chain_eq_cons (hm.inner top htop)
        exact ⟨.inner top htop (@Process.local?_store _ _ _ _ _ [] _ hchain (by simp) (hm.inner top htop)), hm.sound⟩

/-- Where a new value of a variable can be seen. -/
structure Assigned (m : Machine) (name : String) (v : Value) (m' : Machine) : Prop where
  reads : (∀ u, ¬ m.Eclipsed name u) → m'.Reads name v
  eclipsed : ∀ u, m.Eclipsed name u → m'.Eclipsed name v
  sound : m'.process.heap.Sound

theorem wp_member {Q : Option Value → Machine → Prop} (hQ : ∀ o, m.process.heap.object? r = some o → Q (o.member? name) m) :
    (look fun h => h.member r name).wp m Q fun _ _ => True := by
  cases ho : m.process.heap.object? r with
  | some o => exact Act.wp_of_eq_ok (member_eq ho) (hQ o ho)
  | none =>
      have hrun : look (fun h => h.member r name) m = (.error .stale, m) := by
        change (m.process.heap.member r name, m) = _
        rw [Heap.member, Heap.fetch, ho]
        rfl
      unfold Act.wp
      rw [hrun]
      trivial

/-- Neither the contexts nor the receiver hold the name: it is for the module. -/
theorem wp_assign_module (hm : m.Grounded) {top : ContextId} (htop : m.top? = some top)
    (hlocal : local? m.process top name = none)
    (hown : ∀ r, (m.process.contextAt top).receiver = .object r → ∃ o, m.process.heap.object? r = some o ∧ o.member? name = none)
    (v : Value) : (do
      let object ← moduleObject (m.process.contextAt top).module
      if (← look fun h => h.member object name).isSome then onHeap (Heap.setMember object name v)
      else bind name v : Act Machine Unit).wp m (fun _ m' => m.Assigned name v m') fun _ _ => True := by
  rw [Act.wp_bind]
  refine Act.wp_mono (wp_moduleObject hm.sound _) (fun r m₁ h => ?_) fun _ _ => False.elim
  obtain ⟨heap, rfl, hs, hr, hkeep, hnew⟩ := h
  rw [Act.wp_bind]
  refine wp_member fun o ho => ?_
  cases hmember : o.member? name with
  | some u =>
      obtain rfl : heap = m.process.heap := by
        refine hnew.resolve_right ?_
        rintro ⟨_, o', ho', hempty⟩
        cases ho.symm.trans ho'
        rw [Object.member?, hempty] at hmember
        cases hmember
      have hvariable : m.HasVariable (m.process.contextAt top).module name u := ⟨r, o, hr, ho, hmember⟩
      refine Act.wp_mono (wp_storeVariable hs hr name v) (fun _ m₂ h => ?_) fun _ _ _ => trivial
      obtain ⟨heap', rfl, hs', hvariable', hothers⟩ := h
      have hsame : ∀ x o', m.process.heap.object? x = some o' → o'.member? name = none → heap'.object? x = some o' := by
        intro x o' ho' hnone
        refine (hothers x ?_).trans ho'
        rintro rfl
        cases ho.symm.trans ho'
        cases hmember.symm.trans hnone
      have hlocal' : local? ((m.withHeap m.process.heap).withHeap heap').process top name = none := by
        rw [local?_withHeap, local?_withHeap]
        exact hlocal
      refine ⟨fun hseen => .outer top htop hlocal' (fun x hx => ?_) hvariable', fun u' h => ?_, hs'⟩
      · obtain ⟨o', ho', hnone⟩ := hown x hx
        refine ⟨o', hsame x o' ho' hnone, hnone, Option.eq_none_iff_forall_ne_some.2 fun f hf => ?_⟩
        exact hseen u ⟨top, x, f, ⟨htop, hlocal, hx, o', ho', hnone, hf⟩, hvariable⟩
      · obtain ⟨_, x, f, ⟨htop', _, hx, o', ho', hnone, hf⟩, _⟩ := h
        cases htop.symm.trans htop'
        exact ⟨top, x, f, ⟨htop, hlocal', hx, o', hsame x o' ho' hnone, hnone, hf⟩, hvariable'⟩
  | none =>
      refine Act.wp_mono (wp_bind_reads (hm.withHeap hs) name v) (fun _ m₂ h => ?_) fun _ _ _ => trivial
      obtain ⟨hreads, hs'⟩ := h
      refine ⟨fun _ => hreads, fun u h => ?_, hs'⟩
      exfalso
      obtain ⟨_, _, _, hmasks, r', o', hr', ho', hu⟩ := h
      cases htop.symm.trans hmasks.inner
      rcases hnew with rfl | ⟨hnone, _⟩
      · cases hr.symm.trans hr'
        cases ho.symm.trans ho'
        cases hmember.symm.trans hu
      · cases hnone.symm.trans hr'

/-- What has been assigned is what stands for the name, unless it is out of sight; then it stays so. -/
theorem wp_assign_reads (hm : m.Grounded) (name : String) (v : Value) :
    (assign name v).wp m (fun _ m' => m.Assigned name v m') fun _ _ => True := by
  unfold assign
  rw [Act.wp_bind, Act.wp_get]
  cases htop : m.top? with
  | none => trivial
  | some top =>
      dsimp only
      split
      · rename_i c hc
        have hheld : (m.process.contextAt c).locals.contains name := by simpa using List.find?_some hc
        obtain ⟨_, before, after, hchain, hbefore⟩ := List.find?_eq_some_iff_append.1 hc
        have hnone : ∀ d ∈ before, (m.process.contextAt d).locals.get? name = none := fun d hd => by
          simpa [Bindings.contains] using hbefore d hd
        have hread := @Process.local?_store _ _ _ _ v _ _ hchain hnone (Process.index_lt_of_contains hheld)
        refine ⟨fun _ => .inner top htop hread, fun u h => ?_, hm.sound⟩
        obtain ⟨_, _, _, hmasks, _⟩ := h
        cases htop.symm.trans hmasks.inner
        have habsent := List.findSome?_eq_none_iff.1 hmasks.unbound c (List.mem_of_find?_eq_some hc)
        rw [Bindings.contains, habsent] at hheld
        cases hheld
      · rename_i hnone
        have hlocal : local? m.process top name = none := local?_eq_none (Option.eq_none_iff_forall_ne_some.2 hnone)
        split
        · rename_i r hreceiver
          rw [Act.wp_bind]
          refine wp_member fun o ho => ?_
          cases hmember : o.member? name with
          | some u =>
              rw [if_pos Option.isSome_some, Act.wp_bind]
              refine Act.wp_mono (wp_storeMember hm.sound r name v) (fun _ m₁ h => ?_) fun _ _ _ => trivial
              obtain ⟨heap, o', rfl, hs', ho', hobject, _⟩ := h
              cases ho.symm.trans ho'
              refine ⟨fun _ => .own top r _ htop ?_ hreceiver ((hobject r).trans (if_pos rfl)) ?_, fun u' h => ?_, hs'⟩
              · rw [local?_withHeap]
                exact hlocal
              · exact (Bindings.get?_insert ..).trans (if_pos rfl)
              · obtain ⟨_, _, _, ⟨htop', _, hreceiver', o', ho', hnone', _⟩, _⟩ := h
                cases htop.symm.trans htop'
                cases hreceiver.symm.trans hreceiver'
                cases ho.symm.trans ho'
                cases hmember.symm.trans hnone'
          | none =>
              refine wp_assign_module hm htop hlocal (fun x hx => ?_) v
              cases hreceiver.symm.trans hx
              exact ⟨o, ho, hmember⟩
        · rename_i hreceiver
          exact wp_assign_module hm htop hlocal (fun x hx => absurd hx (hreceiver x)) v

/-! ## Looking a name up -/

/-- In the second machine there is an object that was not live in the first, a reference to a function. -/
def MakesReference (m : Machine) (b : BoundFunction) (r : Handle) (m' : Machine) : Prop :=
  m.process.heap.object? r = none ∧ ∃ o, m'.process.heap.object? r = some o ∧ o.payload = .bound b

/-- A reference to a function is a new object, and for a live receiver it can be made. -/
theorem wp_newBound (hs : m.process.heap.Sound) (b : BoundFunction) :
    (newBound b).wp m (fun u m' => ∃ r, u = .object r ∧ m.MakesReference b r m') fun _ _ =>
      ¬ m.process.heap.Valid b.receiver := by
  have hnew : ∀ m₁ : Machine, m₁.process.heap = m.process.heap →
      (do
        let r ← newObject .functionRef
        discard <| onHeap (Heap.replacePayload r (.bound b))
        return .object r : Act Machine Value).wp m₁
        (fun u m' => ∃ r, u = .object r ∧ m.MakesReference b r m') fun _ _ => ¬ m.process.heap.Valid b.receiver := by
    intro m₁ hheap
    obtain ⟨hfresh, hw⟩ := hs.allocate .functionRef (Copier.edges_seed m₁.host.registry .functionRef)
    rw [← hheap] at hfresh hw
    simp only [Act.wp_bind, Act.wp_lift, Act.wp_discard, Act.wp_pure]
    refine wp_onHeap (Act.wp_mono (Heap.wp_replacePayload hw.sound _ (.bound b)) (fun _ h₂ hdone => ?_)
      fun _ _ herror hvalid => ?_)
    · obtain ⟨_, o, _, _, hw₂⟩ := hdone
      exact ⟨_, rfl, hheap ▸ hfresh, _, hw₂.puts.self, rfl⟩
    · refine herror.2.2 ⟨Heap.isLive_of_object? hw.puts.self, fun v hv x hx => ?_⟩
      cases List.mem_singleton.1 hv
      exact hw.puts.isLive (hheap ▸ hvalid x hx)
  unfold newBound
  dsimp only
  split
  · rename_i c _
    rw [Act.wp_bind]
    obtain ⟨contexts, heq⟩ : ∃ contexts, m.process.pin c = { m.process with contexts } := Process.pinFrom_eq _ c m.process
    exact hnew { m with process := m.process.pin c } (by rw [heq])
  · exact hnew m rfl

/-- Where a method stands for the name, what is found is a new reference to it. -/
theorem Masks.resolve {f : FunctionId} (h : m.Masks name top r f) (hs : m.process.heap.Sound) (hname : name ≠ "self") :
    ∃ x m', resolve name m = (.ok (.object x), m') ∧ m.MakesReference { function := f, receiver := .object r } x m' := by
  obtain ⟨o, hobject, hmember, hmethod⟩ := h.method
  have hwp : (Machine.resolve name).wp m
      (fun u m' => ∃ x, u = .object x ∧ m.MakesReference { function := f, receiver := .object r } x m') fun _ _ => False := by
    unfold Machine.resolve receiverMember
    rw [Act.wp_bind, Act.wp_get]
    simp only [h.inner, if_neg hname, h.unbound, h.receiver, Act.wp_bind]
    refine Act.wp_of_eq_ok (member_eq hobject) ?_
    rw [hmember]
    simp only [Act.wp_bind]
    refine Act.wp_of_eq_ok (classOf_eq hobject) ?_
    simp only [Act.wp_get, hmethod, Act.wp_bind]
    refine Act.wp_mono (wp_newBound hs _) (fun _ _ h => h) fun _ _ hdead => hdead fun x hx => ?_
    cases hx
    exact Heap.isLive_of_object? hobject
  rcases hrun : Machine.resolve name m with ⟨e | u, m'⟩
  · exact (hwp.error (congrArg Prod.fst hrun)).elim
  · obtain ⟨x, rfl, hx⟩ := hwp.ok hrun
    exact ⟨x, m', rfl, hx⟩

/-- Objects are added to the heap at most. -/
def Adds (m m' : Machine) : Prop :=
  ∃ heap, m' = m.withHeap heap ∧ heap.Sound ∧ ∀ x o, m.process.heap.object? x = some o → heap.object? x = some o

theorem Adds.trans {m₁ : Machine} (h : m.Adds m₁) (h' : m₁.Adds m') : m.Adds m' := by
  obtain ⟨_, rfl, _, hkeep⟩ := h
  obtain ⟨heap, rfl, hs, hkeep'⟩ := h'
  exact ⟨heap, rfl, hs, fun x o ho => hkeep' x o (hkeep x o ho)⟩

theorem Adds.grounded (h : m.Adds m') (hm : m.Grounded) : m'.Grounded := by
  obtain ⟨heap, rfl, hs, _⟩ := h
  exact hm.withHeap hs

theorem Adds.ignores (h : m.Adds m') {receiver : Value} (hi : m.Ignores receiver name) : m'.Ignores receiver name := by
  obtain ⟨heap, rfl, _, hkeep⟩ := h
  intro r hr
  obtain ⟨o, ho, hmember, hmethod⟩ := hi r hr
  exact ⟨o, hkeep r o ho, hmember, hmethod⟩

/-- No method of the receiver stands for the name. -/
def Unmasked (m : Machine) (name : String) : Prop := ∀ top r f, ¬ m.Masks name top r f

theorem Unmasked.not_eclipsed (h : m.Unmasked name) (u : Value) : ¬ m.Eclipsed name u := by
  rintro ⟨top, r, f, hmasks, _⟩
  exact h top r f hmasks

/-- A receiver that has nothing of that name does not have a method of that name either. -/
theorem Adds.unmasked (h : m.Adds m') (htop : m.top? = some top) (hi : m.Ignores (m.process.contextAt top).receiver name) :
    m'.Unmasked name := by
  have hi' := h.ignores hi
  obtain ⟨heap, rfl, _, _⟩ := h
  intro top' r f hmasks
  cases htop.symm.trans hmasks.inner
  obtain ⟨o, ho, _, hmethod⟩ := hmasks.method
  obtain ⟨o', ho', _, hnone⟩ := hi' r hmasks.receiver
  cases ho.symm.trans ho'
  cases hmethod.symm.trans hnone

/-- What a lookup has found is an object, or nothing has happened but that objects have been added. -/
theorem wp_moduleMember (hs : m.process.heap.Sound) (module : ModuleId) (name : String) :
    (moduleMember module name).wp m (fun u m' => (∃ r, u = some (.object r)) ∨ m.Adds m') fun _ _ => True := by
  have hany : ∀ {β : Type} (act : Act Machine β) (m : Machine), act.wp m (fun _ _ => True) fun _ _ => True := fun act m =>
    Act.wp_of_preserves (fun _ _ => trivial) trivial
  unfold moduleMember
  rw [Act.wp_bind]
  refine Act.wp_mono (wp_moduleObject hs module) (fun object m₁ h => ?_) fun _ _ => False.elim
  obtain ⟨heap, rfl, hs₁, _, hkeep, _⟩ := h
  have hadds : m.Adds (m.withHeap heap) := ⟨heap, rfl, hs₁, hkeep⟩
  rw [Act.wp_bind]
  refine wp_look (fun u => ?_) fun _ => trivial
  cases u with
  | some u => exact .inr hadds
  | none =>
      simp only [Act.wp_bind, Act.wp_get]
      split
      · rename_i f _
        split
        · rw [Act.wp_bind]
          refine Act.wp_mono (wp_newBound (m := m.withHeap heap) hs₁ _) (fun u _ h => ?_) fun _ _ _ => trivial
          obtain ⟨r, rfl, _⟩ := h
          exact .inl ⟨r, rfl⟩
        · simp only [reflect, Act.wp_map, Act.wp_bind]
          exact Act.wp_mono (hany _ _) (fun r _ _ => .inl ⟨r, rfl⟩) fun _ _ _ => trivial
      · split
        · simp only [reflect, Act.wp_map, Act.wp_bind]
          exact Act.wp_mono (hany _ _) (fun r _ _ => .inl ⟨r, rfl⟩) fun _ _ _ => trivial
        · exact .inr hadds

theorem wp_receiverMember (hs : m.process.heap.Sound) (receiver : Value) (name : String) :
    (receiverMember receiver name).wp m (fun u m' => (∃ r, u = some (.object r)) ∨ m' = m ∧
      ((∃ r o, receiver = .object r ∧ m.process.heap.object? r = some o ∧ u.isSome ∧ o.member? name = u) ∨
        u = none ∧ m.Ignores receiver name)) fun _ _ => True := by
  cases receiver with
  | none => exact .inr ⟨rfl, .inr ⟨rfl, nofun⟩⟩
  | scalar s => exact .inr ⟨rfl, .inr ⟨rfl, nofun⟩⟩
  | object r =>
      unfold receiverMember
      dsimp only
      rw [Act.wp_bind]
      refine wp_member fun o hobject => ?_
      cases hmember : o.member? name with
      | some u => exact .inr ⟨rfl, .inl ⟨r, o, rfl, hobject, rfl, hmember⟩⟩
      | none =>
          simp only [Act.wp_bind]
          refine Act.wp_of_eq_ok (classOf_eq hobject) ?_
          simp only [Act.wp_get]
          split
          · rw [Act.wp_bind]
            refine Act.wp_mono (wp_newBound hs _) (fun u _ h => ?_) fun _ _ _ => trivial
            obtain ⟨x, rfl, _⟩ := h
            exact .inl ⟨x, rfl⟩
          · rename_i hmethod
            refine .inr ⟨rfl, .inr ⟨rfl, fun x hx => ?_⟩⟩
            cases hx
            exact ⟨o, hobject, hmember, hmethod⟩

/-- Where no object is found for the name, no method of the receiver stands for it. -/
theorem wp_resolve_unmasked (hm : m.Grounded) (hname : name ≠ "self") :
    (resolve name).wp m (fun u m' => (∃ r, u = .object r) ∨ m'.Grounded ∧ m'.Unmasked name) fun _ _ => True := by
  unfold resolve
  rw [Act.wp_bind, Act.wp_get]
  cases htop : m.top? with
  | none => trivial
  | some top =>
      simp only [if_neg hname]
      cases hlocal : local? m.process top name with
      | some u =>
          refine .inr ⟨hm, fun top' r f hmasks => ?_⟩
          cases htop.symm.trans hmasks.inner
          cases hlocal.symm.trans hmasks.unbound
      | none =>
          dsimp only
          rw [Act.wp_bind]
          refine Act.wp_mono (wp_receiverMember hm.sound _ name) (fun u m₁ h => ?_) fun _ _ _ => trivial
          rcases h with ⟨r, rfl⟩ | ⟨rfl, ⟨r, o, hreceiver, ho, hsome, hmember⟩ | ⟨rfl, hignores⟩⟩
          · exact .inl ⟨r, rfl⟩
          · obtain ⟨v, rfl⟩ := Option.isSome_iff_exists.1 hsome
            refine .inr ⟨hm, fun top' x f hmasks => ?_⟩
            cases htop.symm.trans hmasks.inner
            cases hreceiver.symm.trans hmasks.receiver
            obtain ⟨o', ho', hnone, _⟩ := hmasks.method
            cases ho.symm.trans ho'
            cases hmember.symm.trans hnone
          · have hdone : ∀ {m' : Machine}, m₁.Adds m' → m'.Grounded ∧ m'.Unmasked name := fun h =>
              ⟨h.grounded hm, h.unmasked htop hignores⟩
            dsimp only
            rw [Act.wp_bind]
            refine Act.wp_mono (wp_moduleMember hm.sound _ name) (fun u m₂ h => ?_) fun _ _ _ => trivial
            cases u with
            | some u =>
                refine h.imp (fun ⟨r, hr⟩ => ⟨r, Option.some.inj hr⟩) hdone
            | none =>
                have hadds : m₁.Adds m₂ := h.resolve_left nofun
                dsimp only
                split
                · rw [Act.wp_bind]
                  refine Act.wp_mono (wp_moduleMember (hadds.grounded hm).sound _ name) (fun u m₃ h => ?_) fun _ _ _ => trivial
                  cases u with
                  | some u =>
                      exact h.imp (fun ⟨r, hr⟩ => ⟨r, Option.some.inj hr⟩) fun h => hdone (hadds.trans h)
                  | none => trivial
                · trivial

/-- What has been added to a variable can be read from it. -/
theorem wp_increase_reads (hm : m.Grounded) (hname : name ≠ "self") (op : Op) (delta : Int64) :
    (increase op (.name name) delta).wp m (fun _ m' => ∃ s new, (resolve name m).1 = .ok (.scalar s) ∧
      Scalar.arithmetic .add s (.int delta) = .ok new ∧ m'.Reads name (.scalar new)) fun _ _ => True := by
  unfold increase namedOr
  rw [Act.wp_bind]
  change (resolve name).wp m _ _
  rcases hrun : resolve name m with ⟨e | u, m₁⟩
  · unfold Act.wp
    rw [hrun]
    trivial
  · refine Act.wp_of_eq_ok hrun ?_
    have hfound := (wp_resolve_unmasked hm hname).ok hrun
    cases u with
    | none => trivial
    | object r => trivial
    | scalar s =>
        obtain ⟨hm₁, hunmasked⟩ := hfound.resolve_left nofun
        dsimp only
        rw [Act.wp_bind, Act.wp_mk]
        cases hsum : Scalar.arithmetic .add s (.int delta) with
        | error e => trivial
        | ok new =>
            dsimp only
            rw [Act.wp_bind]
            refine Act.wp_mono (wp_assign_reads hm₁ name (.scalar new)) (fun _ m₂ h => ?_) fun _ _ _ => trivial
            exact ⟨s, new, rfl, hsum, (h.reads hunmasked.not_eclipsed).setRegister _⟩

end Machine

end Spool
