import Mathlib.Data.List.Find
import Spool.Machine.Call
import Spool.Proofs.Heap.Copy
import Spool.Proofs.Heap.Futures
import Spool.Proofs.Machine.Parts
import Spool.Proofs.Process.Twins

/-!
# Machines up to the names of objects

Two machines that differ in the names of their objects do the same. Every action is compared with itself: run on twins
with values that are the same, it leaves twins behind, and what it yields is the same again.
-/

namespace Spool

namespace Registry

/-- No function tells how many objects a collection has reclaimed. -/
def Discreet (r : Registry) : Prop := ∀ f ∈ r.functions, f.kind ≠ .native .collect

theorem Discreet.addFunction {r : Registry} (hr : r.Discreet) {f : Function} (hf : f.kind ≠ .native .collect) :
    (r.addFunction f).2.Discreet := by
  intro g hg
  rw [functions_addFunction] at hg
  rcases Array.mem_push.1 hg with hg | rfl
  · exact hr g hg
  · exact hf

theorem lasting_discreet : Lasting Discreet where
  addClass hr _ _ := hr
  setSuperclass hr _ _ := hr
  addModule hr _ h := by
    unfold Registry.addModule at h
    split at h
    · cases h
    · cases h
      exact hr
  addFunction hr hf _ := hr.addFunction (by simp [hf])

theorem Discreet.rebase {r r' : Registry} (hr : r.Discreet) {c s : ClassId} (h : r.rebase c s = .ok r') : r'.Discreet := by
  unfold Registry.rebase at h
  split at h
  · cases h
  · cases h
    exact hr

theorem Discreet.addNatives (functions : List (Option ClassId × String × FunctionKind × Flags)) :
    ∀ {r : Registry}, r.Discreet → (∀ f ∈ functions, f.2.2.1 ≠ .native .collect) → ∀ module,
      (r.addNatives module functions).Discreet := by
  induction functions with
  | nil => exact fun hr _ _ => hr
  | cons x rest ih =>
      intro r hr hx module
      exact ih (hr.addFunction (hx x List.mem_cons_self)) (fun f hf => hx f (List.mem_cons_of_mem x hf)) module

theorem discreet_initial : initial.Discreet := by
  have hclasses : ∀ (classes : List (String × List String × Hooks)) (r : Registry), r.Discreet →
      (classes.foldl addBuiltin r).Discreet := by
    intro classes
    induction classes with
    | nil => exact fun _ hr => hr
    | cons c rest ih => exact fun r hr => ih _ hr
  rw [initial_eq]
  exact Discreet.addNatives _ (hclasses _ _ (by simp [Discreet])) (by decide) _

theorem Discreet.kind_functionAt {r : Registry} (hr : r.Discreet) (f : FunctionId) :
    (r.functionAt f).kind ≠ .native .collect := by
  unfold functionAt
  rw [Array.getD_eq_getD_getElem?]
  cases hf : r.functions[f.index]? with
  | none => exact nofun
  | some g => exact hr g (Array.mem_of_getElem? hf)

end Registry

/-- Hosts that are the same, but for their pools and for what they give to new processes. -/
structure Host.Agrees (h k : Host) : Prop where
  registry : k.registry = h.registry
  discreet : h.registry.Discreet
  library : k.library = h.library
  out : k.out = h.out
  err : k.err = h.err

namespace Machine

variable {R R' : Pairing} {m k : Machine} {α β γ δ : Type}

/-- The running tasks of twin processes, and what they share with other processes. -/
structure Twin (R : Pairing) (m k : Machine) : Prop extends Host.Agrees m.host k.host where
  process : m.process.Twin R (some m.task) k.process
  task : k.task = m.task

/-- Two actions have left twins behind, and their outcomes are the same. -/
def Meets (R : Pairing) (A : Pairing → α → β → Prop) (x : Except Fault α × Machine) (y : Except Fault β × Machine) : Prop :=
  ∃ R', R ≤ R' ∧ x.2.Twin R' y.2 ∧ Concurs R' (A R') x.1 y.1

/-- Two actions do the same on twins. -/
def Tallies (R : Pairing) (A : Pairing → α → β → Prop) (act : Act Machine α) (act' : Act Machine β) : Prop :=
  ∀ R' m k, R ≤ R' → m.Twin R' k → Meets R' A (act m) (act' k)

/-- What is yielded is equal. -/
abbrev Same {α : Type} : Pairing → α → α → Prop := fun _ a b => b = a

/-- Nothing is said about what is yielded. -/
abbrev Any {α β : Type} : Pairing → α → β → Prop := fun _ _ _ => True

variable {A : Pairing → α → β → Prop} {B : Pairing → γ → δ → Prop} {act : Act Machine α} {act' : Act Machine β}
  {f : α → Act Machine γ} {g : β → Act Machine δ}

/-! ## Putting actions together -/

theorem Meets.mono {x : Except Fault α × Machine} {y : Except Fault β × Machine} (h : Meets R' A x y) (hle : R ≤ R') :
    Meets R A x y := by
  obtain ⟨R₁, hle₁, ht, hc⟩ := h
  exact ⟨R₁, hle.trans hle₁, ht, hc⟩

theorem Tallies.mono (h : Tallies R A act act') (hle : R ≤ R') : Tallies R' A act act' :=
  fun R₁ m k hle₁ ht => h R₁ m k (hle.trans hle₁) ht

theorem Twin.pure (ht : m.Twin R k) {a : α} {b : β} (h : A R a b) :
    Meets R A ((Pure.pure a : Act Machine α) m) ((Pure.pure b : Act Machine β) k) :=
  ⟨R, le_refl R, ht, .ok h⟩

theorem Twin.throw (ht : m.Twin R k) {e e' : Fault} (h : e.Pairs R e') :
    Meets R A ((MonadExcept.throw e : Act Machine α) m) ((MonadExcept.throw e' : Act Machine β) k) :=
  ⟨R, le_refl R, ht, .error h⟩

theorem Meets.bind (h : Meets R A (act m) (act' k)) (hk : ∀ R' a b m' k', R ≤ R' → m'.Twin R' k' → A R' a b →
    act m = (.ok a, m') → act' k = (.ok b, k') → Meets R' B (f a m') (g b k')) :
    Meets R B ((act >>= f) m) ((act' >>= g) k) := by
  have hx : (act >>= f) m = ExceptT.bindCont f (act m).1 (act m).2 := rfl
  have hy : (act' >>= g) k = ExceptT.bindCont g (act' k).1 (act' k).2 := rfl
  obtain ⟨R₁, hle, ht, hc⟩ := h
  rw [hx, hy]
  rcases hm : act m with ⟨x, m'⟩
  rcases hk' : act' k with ⟨y, k'⟩
  rw [hm, hk'] at ht hc
  cases hc with
  | ok ha => exact (hk R₁ _ _ m' k' hle ht ha hm hk').mono hle
  | error he => exact ⟨R₁, hle, ht, .error he⟩

theorem Tallies.bind (h : Tallies R A act act') (hk : ∀ R' a b, R ≤ R' → A R' a b → Tallies R' B (f a) (g b)) :
    Tallies R B (act >>= f) (act' >>= g) := fun R₁ m k hle ht =>
  (h R₁ m k hle ht).bind fun R₂ a b m' k' hle₂ ht₂ hab _ _ => hk R₂ a b (hle.trans hle₂) hab R₂ m' k' (le_refl R₂) ht₂

theorem tallies_pure {a : α} {b : β} (h : ∀ R', R ≤ R' → A R' a b) : Tallies R A (Pure.pure a) (Pure.pure b) :=
  fun R' _ _ hle ht => ht.pure (h R' hle)

theorem tallies_same (a : α) : Tallies R Same (Pure.pure a) (Pure.pure a) := tallies_pure fun _ _ => rfl

theorem tallies_throw {e e' : Fault} (h : e.Pairs R e') :
    Tallies R A (MonadExcept.throw e) (MonadExcept.throw e') := fun _ _ _ hle ht => ht.throw (h.mono hle)

/-- A fault that has nothing to do with handles. -/
theorem tallies_refuse {e : Fault} (he : ∀ r, e ≠ .raised r) :
    Tallies R A (MonadExcept.throw e) (MonadExcept.throw e) := tallies_throw (.same e he)

theorem tallies_get {f : Machine → Act Machine γ} {g : Machine → Act Machine δ}
    (h : ∀ R' m k, R ≤ R' → m.Twin R' k → Meets R' B (f m m) (g k k)) : Tallies R B (get >>= f) (get >>= g) :=
  fun R' m k hle ht => h R' m k hle ht

/-- An action that only looks at the machine, and then goes on. -/
theorem Tallies.run (h : Tallies R A act act') (ht : m.Twin R k) : Meets R A (act m) (act' k) := h R m k (le_refl R) ht

theorem Meets.map {f : α → γ} {g : β → δ} (h : Meets R A (act m) (act' k)) (hfg : ∀ R' a b, A R' a b → B R' (f a) (g b)) :
    Meets R B ((f <$> act) m) ((g <$> act') k) := by
  rw [← bind_pure_comp, ← bind_pure_comp]
  exact h.bind fun R₂ a b _ _ _ ht₂ hab _ _ => ht₂.pure (hfg R₂ a b hab)

theorem Tallies.map {f : α → γ} {g : β → δ} (h : Tallies R A act act') (hfg : ∀ R' a b, A R' a b → B R' (f a) (g b)) :
    Tallies R B (f <$> act) (g <$> act') := fun R' m k hle ht => (h R' m k hle ht).map hfg

theorem Meets.discard (h : Meets R A (act m) (act' k)) : Meets R Any (discard act m) (discard act' k) := by
  change Meets R Any (Functor.mapConst PUnit.unit act m) (Functor.mapConst PUnit.unit act' k)
  rw [LawfulFunctor.map_const]
  exact h.map fun _ _ _ _ => trivial

theorem Tallies.discard (h : Tallies R A act act') : Tallies R Any (discard act) (discard act') := fun R' m k hle ht =>
  (h R' m k hle ht).discard

theorem tallies_look {f g : Heap → Except Fault α} {A : Pairing → α → α → Prop}
    (h : ∀ R' h k, R ≤ R' → Heap.Twin R' h k → Concurs R' (A R') (f h) (g k)) : Tallies R A (look f) (look g) :=
  fun R' m k hle ht => ⟨R', le_refl R', ht, h R' m.process.heap k.process.heap hle ht.process.heap⟩

/-- What a change of the machine that cannot fail yields. -/
def Joins (R : Pairing) (A : Pairing → α → β → Prop) (x : α × Machine) (y : β × Machine) : Prop :=
  ∃ R', R ≤ R' ∧ x.2.Twin R' y.2 ∧ A R' x.1 y.1

theorem Joins.lift {act : StateM Machine α} {act' : StateM Machine β} (h : Joins R A (act m) (act' k)) :
    Meets R A ((liftM act : Act Machine α) m) ((liftM act' : Act Machine β) k) := by
  obtain ⟨R', hle, ht, ha⟩ := h
  exact ⟨R', hle, ht, .ok ha⟩

theorem Meets.joins {act : StateM Machine α} {act' : StateM Machine β}
    (h : Meets R A ((liftM act : Act Machine α) m) ((liftM act' : Act Machine β) k)) : Joins R A (act m) (act' k) := by
  obtain ⟨R', hle, ht, hc⟩ := h
  have hc : Concurs R' (A R') (.ok (act m).1) (.ok (act' k).1) := hc
  cases hc with | ok ha => exact ⟨R', hle, ht, ha⟩

/-! ## The heap -/

/-- What an object keeps alive outside the heap is the same in both processes. -/
theorem Twin.onHeap (ht : m.Twin R k) {act : Act Heap α} {act' : Act Heap β}
    (h : Heap.Meets (Process.Shares R m.process k.process) R A m.process.heap k.process.heap (act m.process.heap)
      (act' k.process.heap)) : Meets R A (Machine.onHeap act m) (Machine.onHeap act' k) := by
  obtain ⟨R', hle, hheap, hc, hx⟩ := h.meets
  exact ⟨R', hle, ⟨ht.toAgrees, ht.process.heaps hle hheap hx, ht.task⟩, hc⟩

theorem tallies_onHeap {act : Act Heap α} {act' : Act Heap β}
    (h : ∀ X R' h k, R ≤ R' → Heap.Twin R' h k → Heap.Meets X R' A h k (act h) (act' k)) :
    Tallies R A (Machine.onHeap act) (Machine.onHeap act') := fun R' m k hle ht =>
  ht.onHeap (h _ R' m.process.heap k.process.heap hle ht.process.heap)

theorem onHeap_bind (act : Act Heap α) (f : α → Act Heap γ) : onHeap (act >>= f) = onHeap act >>= fun a => onHeap (f a) := by
  funext m
  have hx : (act >>= f) m.process.heap = ExceptT.bindCont f (act m.process.heap).1 (act m.process.heap).2 := rfl
  have hy : (onHeap act >>= fun a => onHeap (f a)) m
      = ExceptT.bindCont (fun a => onHeap (f a)) (onHeap act m).1 (onHeap act m).2 := rfl
  rw [hy]
  unfold onHeap
  rw [hx]
  rcases act m.process.heap with ⟨_ | _, _⟩ <;> rfl

section
variable {a b : Handle} {v w : Value}

theorem tallies_setMember (hab : R a b) (name : String) (hv : v.Pairs R w) :
    Tallies R Any (onHeap (Heap.setMember a name v)) (onHeap (Heap.setMember b name w)) :=
  tallies_onHeap fun _ _ _ _ hle ht => ht.setMember (hle _ _ hab) name (hv.mono hle)

theorem tallies_putPayload (hab : R a b) {x y : Payload} (hxy : x.Pairs R y) (hx : x.external? = none) :
    Tallies R Any (onHeap (Heap.putPayload a x)) (onHeap (Heap.putPayload b y)) :=
  tallies_onHeap fun _ _ _ _ hle ht => ht.putPayload (hle _ _ hab) (hxy.mono hle) fun e he => by
    rw [hx] at he
    cases he

theorem tallies_reflect (key : Reflected) : Tallies R Value.Pairs (reflect key) (reflect key) :=
  (tallies_onHeap (A := fun R => R) fun _ _ _ _ _ ht => ht.reflect key).map fun _ _ _ => .object

theorem tallies_moduleObject (module : ModuleId) : Tallies R (fun R => R) (moduleObject module) (moduleObject module) :=
  tallies_onHeap fun _ _ _ _ _ ht => ht.reflect _

theorem tallies_newArray {vs ws : List Value} (h : Value.AllPairs R vs ws) :
    Tallies R Value.Pairs (newArray vs) (newArray ws) :=
  (tallies_onHeap (A := fun R => R) fun _ _ _ _ hle ht => ht.createWith .array rfl
    (.array (h.mono hle)) nofun).map fun _ _ _ => .object

theorem tallies_newTuple {vs ws : List Value} (h : Value.AllPairs R vs ws) :
    Tallies R Value.Pairs (newTuple vs) (newTuple ws) :=
  (tallies_onHeap (A := fun R => R) fun _ _ _ _ hle ht => ht.createWith .tuple rfl
    (.tuple (h.mono hle)) nofun).map fun _ _ _ => .object

theorem tallies_fetch (hab : R a b) : Tallies R Object.Pairs (fetch a) (fetch b) :=
  tallies_look fun _ _ _ hle ht => by
    obtain ⟨o, o', ho, ho', hp⟩ := ht.fetch (hle _ _ hab)
    rw [ho, ho']
    exact .ok hp

theorem tallies_member (hab : R a b) (name : String) :
    Tallies R (fun R => Option.Rel (Value.Pairs R)) (look fun h => h.member a name) (look fun h => h.member b name) :=
  tallies_look fun _ _ _ hle ht => by
    obtain ⟨v, w, hv, hw, hp⟩ := ht.member (hle _ _ hab) name
    rw [hv, hw]
    exact .ok hp

theorem tallies_classOf (hab : R a b) : Tallies R Same (look fun h => h.classOf a) (look fun h => h.classOf b) :=
  tallies_look fun _ _ _ hle ht => by
    obtain ⟨o, o', ho, ho', hp⟩ := ht.fetch (hle _ _ hab)
    simp only [Heap.classOf, ho, ho', Except.map]
    exact .ok hp.ofClass

end

/-! ## New objects -/

theorem Twin.allocate (ht : m.Twin R k) (c : ClassId) {x : Payload} (hx : x.edges = []) (hp : ∀ R, x.Pairs R x)
    (he : x.external? = none) : Joins R (fun R => R) (Machine.allocate c x m) (Machine.allocate c x k) := by
  have hrun : ∀ n : Machine, (liftM (Machine.allocate c x) : Act Machine Handle) n = Machine.onHeap (Heap.create c x) n :=
    fun _ => rfl
  refine Meets.joins ?_
  rw [hrun, hrun]
  refine ht.onHeap (ht.process.heap.allocate c hx hp fun e hext => ?_)
  rw [he] at hext
  cases hext

theorem pairs_seed (r : Registry) (c : ClassId) (R : Pairing) : (r.seed c).Pairs R (r.seed c) := by
  unfold Registry.seed
  split
  · rename_i s _
    cases s with
    | plain => exact .none
    | text => exact .text ""
    | array => exact .array .nil
    | tuple => exact .tuple .nil
    | process => exact .process none
  · exact .none

theorem Twin.newObject (ht : m.Twin R k) (c : ClassId) :
    Joins R (fun R => R) (Machine.newObject c m) (Machine.newObject c k) := by
  have hrun : ∀ n : Machine, Machine.newObject c n = Machine.allocate c (n.host.registry.seed c) n := fun _ => rfl
  rw [hrun, hrun, ht.registry]
  exact ht.allocate c (Copier.edges_seed _ c) (pairs_seed _ c) (Copier.external?_seed _ c)

theorem tallies_newObject (c : ClassId) : Tallies R (fun R => R) (liftM (newObject c)) (liftM (newObject c)) :=
  fun _ _ _ _ ht => (ht.newObject c).lift

theorem Twin.newText (ht : m.Twin R k) (s : String) : Joins R Value.Pairs (Machine.newText s m) (Machine.newText s k) := by
  obtain ⟨R', hle, ht', hab⟩ := ht.allocate .string (x := .text s) rfl (fun _ => .text s) rfl
  exact ⟨R', hle, ht', .object hab⟩

theorem tallies_newText (s : String) : Tallies R Value.Pairs (liftM (newText s)) (liftM (newText s)) :=
  fun _ _ _ _ ht => (ht.newText s).lift

theorem tallies_newHolder (c : ClassId) {x y : Payload} (hxy : x.Pairs R y) (hx : x.external? = none) :
    Tallies R Value.Pairs (newHolder c x) (newHolder c y) :=
  (tallies_newObject c).bind fun _ _ _ hle hab => (tallies_putPayload hab (hxy.mono hle) hx).bind fun _ _ _ hle' _ =>
    tallies_pure fun _ hle'' => .object (hle'' _ _ (hle' _ _ hab))

/-! ## Looking at values -/

section
variable {v w : Value}

theorem Twin.typeName (ht : m.Twin R k) (hv : v.Pairs R w) : k.typeName w = m.typeName v := by
  unfold Machine.typeName
  rw [ht.registry]
  exact ht.process.heap.typeName hv _

theorem Twin.isInstance (ht : m.Twin R k) (hv : v.Pairs R w) (c : ClassId) : k.isInstance w c = m.isInstance v c := by
  unfold Machine.isInstance
  rw [ht.registry]
  exact ht.process.heap.isInstance hv _ c

theorem Twin.display (ht : m.Twin R k) (hv : v.Pairs R w) : k.display w = m.display v := by
  unfold Machine.display
  rw [ht.registry]
  exact ht.process.heap.display hv _

theorem Twin.text? (ht : m.Twin R k) (hv : v.Pairs R w) : k.text? w = m.text? v := ht.process.heap.text? hv

theorem tallies_expectObject (hv : v.Pairs R w) (expected : String) :
    Tallies R (fun R => R) (expectObject v expected) (expectObject w expected) := by
  have hrefuse : ∀ {v w : Value}, v.Pairs R w → Tallies R (fun R => R)
      (do throw (.type expected ((← get).typeName v)) : Act Machine Handle)
      (do throw (.type expected ((← get).typeName w))) := fun hv =>
    tallies_get fun R' m k hle ht => by
      rw [ht.typeName (hv.mono hle)]
      exact ht.throw (.same _ nofun)
  cases hv with
  | object hab => exact tallies_pure fun _ hle => hle _ _ hab
  | none => exact hrefuse .none
  | scalar s => exact hrefuse (.scalar s)

end

/-! ## The running task -/

theorem Twin.update (ht : m.Twin R k) {p q : Process} (hp : p.Twin R' (some m.task) q) :
    ({ m with process := p } : Machine).Twin R' { k with process := q } :=
  ⟨ht.toAgrees, hp, ht.task⟩

theorem Twin.active (_ : m.Twin R k) (task : Task) : Process.Active (some m.task) m.task task := .inr rfl

theorem Twin.current (ht : m.Twin R k) : m.current.Pairs R k.current := by
  unfold Machine.current
  rw [ht.task]
  exact ht.process.tasks m.task (ht.active _)

theorem Twin.bare_current (ht : m.Twin R k) : k.current.bare = m.current.bare := by
  unfold Machine.current
  rw [ht.task]
  exact Process.bare_taskAt ht.process.bare m.task

theorem Twin.contexts (ht : m.Twin R k) : k.current.contexts = m.current.contexts :=
  (congrArg Task.contexts ht.bare_current :)

theorem Twin.top? (ht : m.Twin R k) : k.top? = m.top? := (congrArg Task.top? ht.bare_current :)

theorem Twin.matches (ht : m.Twin R k) {c : ContextId} (hc : c ∈ m.current.contexts) :
    Process.Matches R m.process k.process c :=
  ht.process.contexts m.task (ht.active _) c hc

theorem Twin.matches_top (ht : m.Twin R k) {c : ContextId} (hc : m.top? = some c) :
    Process.Matches R m.process k.process c :=
  ht.matches (List.mem_of_mem_head? hc)

theorem Twin.bare_contextAt (ht : m.Twin R k) (c : ContextId) :
    (k.process.contextAt c).bare = (m.process.contextAt c).bare :=
  Process.bare_contextAt ht.process.bare c

theorem Twin.modifyCurrent (ht : m.Twin R k) {f g : Task → Task}
    (hb : ∀ a b : Task, b.bare = a.bare → (g b).bare = (f a).bare) (hv : (f m.current).Pairs R (g k.current))
    (hc : (f m.current).contexts ⊆ m.current.contexts) :
    Joins R Any (Machine.modifyCurrent f m) (Machine.modifyCurrent g k) := by
  refine ⟨R, le_refl R, ht.update ?_, trivial⟩
  unfold Machine.current at hv hc
  rw [ht.task] at hv ⊢
  exact ht.process.modifyTask m.task hb (fun _ => hv) (fun _ c h => ht.matches (hc h)) fun _ => hv.register

theorem Twin.setRegister (ht : m.Twin R k) {v w : Value} (hv : v.Pairs R w) :
    Joins R Any (Machine.setRegister v m) (Machine.setRegister w k) :=
  ht.modifyCurrent (fun _ _ h => h) ⟨hv, ht.current.stack⟩ (List.Subset.refl _)

theorem tallies_setRegister {v w : Value} (hv : v.Pairs R w) :
    Tallies R Any (liftM (setRegister v)) (liftM (setRegister w)) :=
  fun _ _ _ hle ht => (ht.setRegister (hv.mono hle)).lift

theorem tallies_push {v w : Value} (hv : v.Pairs R w) : Tallies R Any (liftM (push v)) (liftM (push w)) :=
  fun _ _ _ hle ht => Joins.lift (ht.modifyCurrent (fun _ _ h => h)
    ⟨ht.current.register, .cons (hv.mono hle) ht.current.stack⟩ (List.Subset.refl _))

theorem tallies_pop : Tallies R Value.Pairs pop pop := by
  refine tallies_get fun R' m k _ ht => ?_
  have hs := ht.current.stack
  generalize m.current.stack = s at hs
  generalize k.current.stack = s' at hs
  cases hs with
  | nil => exact ht.throw (.same _ nofun)
  | cons hv hrest =>
      refine Meets.bind (Joins.lift (ht.modifyCurrent (fun _ _ h => h) ⟨ht.current.register, hrest⟩ (List.Subset.refl _)))
        fun R₁ _ _ m' k' hle ht' _ _ _ => ht'.pure (hv.mono hle)

theorem tallies_popMany (count : Nat) : Tallies R Value.AllPairs (popMany count) (popMany count) := by
  refine tallies_get fun R' m k _ ht => ?_
  have hs := ht.current.stack
  have hdrop : Joins R' Any (Machine.modifyCurrent (fun t => { t with stack := t.stack.drop count }) m)
      (Machine.modifyCurrent (fun t => { t with stack := t.stack.drop count }) k) :=
    ht.modifyCurrent (fun _ _ h => h) ⟨ht.current.register, List.forall₂_drop count hs⟩ (List.Subset.refl _)
  rw [hs.length_eq]
  split
  · exact ht.throw (.same _ nofun)
  · exact hdrop.lift.bind fun _ _ _ _ _ hle ht' _ _ _ =>
      ht'.pure (List.rel_reverse (List.forall₂_take count (hs.mono hle)))

theorem tallies_peek (depth : Nat) : Tallies R Value.Pairs (peek depth) (peek depth) := by
  refine tallies_get fun R' m k _ ht => ?_
  have hs := rel_getElem? ht.current.stack depth
  generalize m.current.stack[depth]? = x at hs
  generalize k.current.stack[depth]? = y at hs
  cases hs with
  | none => exact ht.throw (.same _ nofun)
  | some hv => exact ht.pure hv

/-! ## Objects that keep something alive outside the heap -/

theorem Twin.modifyProcess (ht : m.Twin R k) {f g : Process → Process}
    (h : (f m.process).Twin R (some m.task) (g k.process)) :
    Joins R Any (Machine.modifyProcess f m) (Machine.modifyProcess g k) :=
  ⟨R, le_refl R, ht.update h, trivial⟩

theorem Twin.newHolder (ht : m.Twin R k) (c : ClassId) {x y : Payload} (hxy : x.Pairs R y)
    (hx : ∀ e, x.external? = some e → Process.Shares R m.process k.process e) :
    Meets R Value.Pairs (Machine.newHolder c x m) (Machine.newHolder c y k) := by
  refine Meets.bind (ht.newObject c).lift fun R₁ a b m₁ k₁ hle ht₁ hab hm hk => ?_
  have hput := ht₁.onHeap (ht₁.process.heap.putPayload hab (hxy.mono hle) fun e he => ?_)
  · exact hput.bind fun R₂ _ _ _ _ hle₂ ht₂ _ _ _ => ht₂.pure (.object (hle₂ _ _ hab))
  · -- a new object is no change outside the heap
    obtain rfl : (Machine.newObject c m).2 = m₁ := congrArg Prod.snd hm
    obtain rfl : (Machine.newObject c k).2 = k₁ := congrArg Prod.snd hk
    have hs := (hx e he).mono hle
    cases e <;> exact hs

/-- A future for a task whose result is the same. -/
theorem Twin.newFuture (ht : m.Twin R k) {t : TaskId}
    (hr : (m.process.taskAt t).register.Pairs R (k.process.taskAt t).register) :
    Meets R Value.Pairs (Machine.newFuture t m) (Machine.newFuture t k) := by
  have hwatch := ht.process.modifyTask_frame t (f := fun t => { t with observed := true })
    (fun _ _ h => (congrArg (fun a : Task => { a with observed := true }) h :))
    (fun _ => ⟨rfl, rfl, List.Subset.refl _⟩) fun h => h
  refine Meets.bind (ht.modifyProcess hwatch).lift fun R₁ _ _ m₁ k₁ hle ht₁ _ hm hk => ?_
  refine ht₁.newHolder .future (.future _) fun e he => ?_
  cases he
  obtain rfl : (Machine.modifyProcess (fun p => p.modifyTask t fun t => { t with observed := true }) m).2 = m₁ :=
    congrArg Prod.snd hm
  obtain rfl : (Machine.modifyProcess (fun p => p.modifyTask t fun t => { t with observed := true }) k).2 = k₁ :=
    congrArg Prod.snd hk
  change ((m.process.modifyTask t _).taskAt t).register.Pairs R₁ ((k.process.modifyTask t _).taskAt t).register
  rw [Process.taskAt_modifyTask, Process.taskAt_modifyTask, Process.taskCount_eq_of_bare ht.process.bare]
  split <;> exact hr.mono hle

theorem Twin.pin (ht : m.Twin R k) (c : ContextId) :
    Joins R Any (Machine.modifyProcess (fun p => p.pin c) m) (Machine.modifyProcess (fun p => p.pin c) k) :=
  ht.modifyProcess (ht.process.pin c)

theorem top?_pin (m : Machine) (c : ContextId) : (modifyProcess (fun p => p.pin c) m).2.top? = m.top? := by
  obtain ⟨contexts, heq⟩ := Process.pinFrom_eq m.process.contexts.size c m.process
  have hpin : m.process.pin c = { m.process with contexts } := heq
  change ((m.process.pin c).taskAt m.task).top? = _
  rw [hpin]
  rfl

/-- A function reference closes over the innermost context, or over none. -/
theorem meets_newBound (ht : m.Twin R k) (f : FunctionId) (capture : Option ContextId) {v w : Value} (hv : v.Pairs R w)
    (hc : ∀ c, capture = some c → m.top? = some c) :
    Meets R Value.Pairs (newBound ⟨f, v, capture⟩ m) (newBound ⟨f, w, capture⟩ k) := by
  have hwrite : ∀ {R₁ : Pairing} {m₁ k₁ : Machine}, R ≤ R₁ → m₁.Twin R₁ k₁ → (∀ c, capture = some c → m₁.top? = some c) →
      Meets R₁ Value.Pairs
        ((do
          let r ← newObject .functionRef
          discard <| onHeap (Heap.replacePayload r (.bound ⟨f, v, capture⟩))
          return .object r : Act Machine Value) m₁)
        ((do
          let r ← newObject .functionRef
          discard <| onHeap (Heap.replacePayload r (.bound ⟨f, w, capture⟩))
          return .object r : Act Machine Value) k₁) := by
    intro R₁ m₁ k₁ hle ht₁ hc₁
    refine Meets.bind (ht₁.newObject .functionRef).lift fun R₂ a b m₂ k₂ hle₂ ht₂ hab hm _ => ?_
    obtain rfl : (newObject .functionRef m₁).2 = m₂ := congrArg Prod.snd hm
    have hput := ht₂.onHeap
      (ht₂.process.heap.replacePayload hab (.bound f capture (hv.mono (hle.trans hle₂))) fun e he => ?_)
    · exact hput.discard.bind fun R₃ _ _ _ _ hle₃ ht₃ _ _ _ => ht₃.pure (.object (hle₃ _ _ hab))
    · cases capture with
      | none => cases he
      | some c =>
          cases he
          exact ht₂.matches_top (hc₁ c rfl)
  unfold newBound
  cases capture with
  | none => exact hwrite (le_refl R) ht hc
  | some c =>
      refine Meets.bind (ht.pin c).lift fun R₁ _ _ m₁ k₁ hle ht₁ _ hm _ => hwrite hle ht₁ fun d hd => ?_
      obtain rfl : (modifyProcess (fun p => p.pin c) m).2 = m₁ := congrArg Prod.snd hm
      rw [top?_pin]
      exact hc d hd

end Machine

end Spool
