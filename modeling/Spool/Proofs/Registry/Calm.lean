import Spool.Library
import Spool.Registry.Builtins
import Spool.Proofs.Act
import Spool.Proofs.Bindings

/-!
# Methods that collect no garbage

An object that is being made is in nobody's hands but the constructor's. A constructor that runs inline must not
collect garbage, and no method does: the function that collects is free. Whatever is registered leaves it so.
-/

namespace Spool

/-- Whatever the action does, the state stays good. -/
def Preserves {ε σ α : Type} (P : σ → Prop) (act : ExceptT ε (StateM σ) α) : Prop := ∀ s, P s → P (act s).2

section
variable {ε σ α β : Type} {P : σ → Prop}

theorem preserves_pure (a : α) : Preserves P (pure a : ExceptT ε (StateM σ) α) := fun _ h => h

theorem preserves_throw (e : ε) : Preserves P (throw e : ExceptT ε (StateM σ) α) := fun _ h => h

theorem preserves_mk (x : Except ε α) : Preserves P (ExceptT.mk (pure x) : ExceptT ε (StateM σ) α) := fun _ h => h

theorem preserves_modify {f : σ → σ} (hf : ∀ s, P s → P (f s)) :
    Preserves P (modify f : ExceptT ε (StateM σ) PUnit) := hf

/-- The first action has left the state good, and the second one leaves it so. -/
theorem holds_bind {act : ExceptT ε (StateM σ) α} {k : α → ExceptT ε (StateM σ) β} {s : σ} (ha : P (act s).2)
    (hk : ∀ a, Preserves P (k a)) : P ((act >>= k) s).2 := by
  have h : (act >>= k) s = ExceptT.bindCont k (act s).1 (act s).2 := rfl
  rw [h]
  cases hr : (act s).1 with
  | error e => exact ha
  | ok a => exact hk a _ ha

theorem holds_discard {act : ExceptT ε (StateM σ) α} {s : σ} (ha : P (act s).2) : P (discard act s).2 := by
  change P (Functor.mapConst PUnit.unit act s).2
  rw [LawfulFunctor.map_const, Function.comp_apply, ← bind_pure_comp]
  exact holds_bind ha fun _ => preserves_pure _

theorem preserves_bind {act : ExceptT ε (StateM σ) α} {k : α → ExceptT ε (StateM σ) β} (ha : Preserves P act)
    (hk : ∀ a, Preserves P (k a)) : Preserves P (act >>= k) := fun _ hs => holds_bind (ha _ hs) hk

theorem preserves_map {f : α → β} {act : ExceptT ε (StateM σ) α} (ha : Preserves P act) : Preserves P (f <$> act) := by
  rw [← bind_pure_comp]
  exact preserves_bind ha fun _ => preserves_pure _

theorem preserves_discard {act : ExceptT ε (StateM σ) α} (ha : Preserves P act) : Preserves P (discard act) :=
  fun _ hs => holds_discard (ha _ hs)

/-- An action that looks at the state first. -/
theorem preserves_get {k : σ → ExceptT ε (StateM σ) β} (hk : ∀ s, P s → Preserves P (k s)) :
    Preserves P (get >>= k) := fun s hs => hk s hs s hs

theorem preserves_forIn_mem {f : α → PUnit → ExceptT ε (StateM σ) (ForInStep PUnit)} (xs : List α) (b : PUnit)
    (hf : ∀ a ∈ xs, ∀ b, Preserves P (f a b)) : Preserves P (forIn xs b f) := by
  induction xs generalizing b with
  | nil => exact preserves_pure b
  | cons a rest ih =>
      rw [List.forIn_cons]
      refine preserves_bind (hf a List.mem_cons_self b) fun step => ?_
      cases step with
      | done b => exact preserves_pure b
      | yield b => exact ih b fun a ha => hf a (List.mem_cons_of_mem _ ha)

theorem preserves_mapM {f : α → ExceptT ε (StateM σ) β} (hf : ∀ a, Preserves P (f a)) (xs : List α) :
    Preserves P (xs.mapM f) := by
  induction xs with
  | nil => exact preserves_pure _
  | cons a rest ih =>
      rw [List.mapM_cons]
      exact preserves_bind (hf a) fun _ => preserves_bind ih fun _ => preserves_pure _

theorem preserves_forIn {f : α → PUnit → ExceptT ε (StateM σ) (ForInStep PUnit)} (hf : ∀ a b, Preserves P (f a b))
    (xs : List α) (b : PUnit) : Preserves P (forIn xs b f) :=
  preserves_forIn_mem xs b fun a _ => hf a

end

theorem Act.wp_of_preserves {σ α : Type} {P : σ → Prop} {act : Act σ α} {s : σ} (ha : Preserves P act) (hs : P s) :
    act.wp s (fun _ => P) fun _ => P :=
  .of_state (ha s hs)

/-- A module that has passed the check has a tape without flaws, and its functions start on the tape. -/
theorem CompiledModule.of_validate (m : CompiledModule) {u : Unit} (h : m.validate = .ok u) :
    m.tape.flaw? = none ∧ ∀ d ∈ m.functions, d.start < m.tape.size := by
  have hflaw : m.flaw? = none := by
    unfold validate at h
    split at h
    · cases h
    · assumption
  simp only [flaw?, Option.orElse_eq_orElse, Option.orElse_eq_or, Option.or_eq_none_iff, List.findSome?_eq_none_iff,
    Array.mem_toList_iff] at hflaw
  refine ⟨hflaw.1, fun d hd => Nat.lt_of_not_le fun hle => ?_⟩
  have := hflaw.2.1 d hd
  simp [functionFlaw?, hle] at this

namespace Registry

variable {r : Registry}

/-- The function collects no garbage. -/
def Quiet (r : Registry) (f : FunctionId) : Prop :=
  f.index < r.functions.size ∧ (r.functionAt f).kind ≠ .native .collect

/-- No method collects garbage. -/
def Calm (r : Registry) : Prop := ∀ c ∈ r.classes, ∀ f ∈ c.methods.values, r.Quiet f

theorem Calm.findMethod? (hr : r.Calm) {c : ClassId} {name : String} {f : FunctionId}
    (hf : r.findMethod? c name = some f) : (r.functionAt f).kind ≠ .native .collect := by
  obtain ⟨c', _, hown⟩ := List.exists_of_findSome?_eq_some hf
  have hmem := Bindings.mem_values_of_get? hown
  unfold classAt at hmem
  rw [Array.getD_eq_getD_getElem?] at hmem
  cases hc : r.classes[c'.index]? with
  | none =>
      rw [hc] at hmem
      cases hmem
  | some cls =>
      rw [hc] at hmem
      exact (hr cls (Array.mem_of_getElem? hc) f hmem).2

/-! ## Adding entries -/

/-- Classes keep their methods, functions stay. -/
theorem Calm.congr {r' : Registry} (hr : r.Calm) (hf : r'.functions = r.functions)
    (hc : ∀ c' ∈ r'.classes, c'.methods.values = [] ∨ ∃ c ∈ r.classes, c'.methods = c.methods) : r'.Calm := by
  intro c' hc' f hm
  rcases hc c' hc' with he | ⟨c, hmem, heq⟩
  · rw [he] at hm
    cases hm
  · rw [heq] at hm
    unfold Quiet functionAt
    rw [hf]
    exact hr c hmem f hm

theorem Calm.addModule (hr : r.Calm) {name : String} {tape : Tape} {m : ModuleId} {r' : Registry}
    (h : r.addModule name tape = .ok (m, r')) : r'.Calm := by
  unfold Registry.addModule at h
  split at h
  · cases h
  · cases h
    exact hr

theorem Calm.addClass (hr : r.Calm) {c : Class} (hc : c.methods = {}) : (r.addClass c).2.Calm := by
  refine hr.congr rfl fun c' hm => ?_
  rcases Array.mem_push.1 hm with hm | rfl
  · exact .inr ⟨c', hm, rfl⟩
  · exact .inl (by rw [hc]; rfl)

theorem Calm.setSuperclass (hr : r.Calm) (c s : ClassId) : (r.setSuperclass c s).Calm := by
  refine hr.congr rfl fun c' hm => .inr ?_
  obtain ⟨i, hi⟩ := Array.mem_iff_getElem?.1 hm
  simp only [Registry.setSuperclass, Array.getElem?_modify] at hi
  split at hi
  · obtain ⟨old, hold, rfl⟩ := Option.map_eq_some_iff.1 hi
    exact ⟨old, Array.mem_of_getElem? hold, rfl⟩
  · exact ⟨c', Array.mem_of_getElem? hi, rfl⟩

theorem Calm.rebase (hr : r.Calm) {c s : ClassId} {r' : Registry} (h : r.rebase c s = .ok r') : r'.Calm := by
  unfold Registry.rebase at h
  split at h
  · cases h
  · cases h
    exact hr.setSuperclass c s

theorem Quiet.push {r' : Registry} {f : FunctionId} (hf : r.Quiet f) {g : Function}
    (hpush : r'.functions = r.functions.push g) : r'.Quiet f := by
  refine ⟨by rw [hpush, Array.size_push]; exact Nat.lt_succ_of_lt hf.1, ?_⟩
  have : r'.functionAt f = r.functionAt f := by
    simp only [functionAt, hpush, Array.getD_eq_getD_getElem?, Array.getElem?_push, if_neg (Nat.ne_of_lt hf.1)]
  rw [this]
  exact hf.2

theorem Calm.addFunction (hr : r.Calm) {f : Function} (hf : f.owner ≠ none → f.kind ≠ .native .collect) :
    (r.addFunction f).2.Calm := by
  unfold Registry.addFunction
  dsimp only
  split
  · rename_i c howner
    intro c' hm g hg
    obtain ⟨i, hi⟩ := Array.mem_iff_getElem?.1 hm
    simp only [Array.getElem?_modify] at hi
    split at hi
    · obtain ⟨cls, hcls, rfl⟩ := Option.map_eq_some_iff.1 hi
      have hin : g = ⟨r.functions.size⟩ ∨ g ∈ cls.methods.values := by
        have := (cls.methods.values_insert_perm f.name ⟨r.functions.size⟩).mem_iff (a := g)
        have hg' := this.1 (List.mem_append_right _ hg)
        simpa using hg'
      rcases hin with rfl | hg
      · refine ⟨by simp, ?_⟩
        simp only [functionAt, Array.getD_eq_getD_getElem?, Array.getElem?_push, if_pos]
        exact hf (by simp [howner])
      · exact Quiet.push (hr cls (Array.mem_of_getElem? hcls) g hg) rfl
    · exact Quiet.push (hr c' (Array.mem_of_getElem? hi) g hg) rfl
  · intro c' hm g hg
    exact Quiet.push (hr c' hm g hg) rfl

theorem Calm.addNatives {functions : List (Option ClassId × String × FunctionKind × Flags)}
    (hf : ∀ x ∈ functions, x.1 ≠ none → x.2.2.1 ≠ .native .collect) :
    ∀ {r : Registry}, r.Calm → ∀ module, (r.addNatives module functions).Calm := by
  induction functions with
  | nil => exact fun hr _ => hr
  | cons x rest ih =>
      intro r hr module
      exact ih (fun y hy => hf y (List.mem_cons_of_mem x hy))
        (hr.addFunction (hf x List.mem_cons_self)) module

/-! ## What a machine starts with -/

/-- Adds a class of the language; the first one is the root of the others. -/
def addBuiltin (r : Registry) (c : String × List String × Hooks) : Registry :=
  (r.addClass { name := c.1, module := .builtins, superclass := if r.classes.isEmpty then none else some .object,
                fields := c.2.1, hooks := c.2.2 }).2

theorem initial_eq : initial =
    (Builtins.classes.foldl addBuiltin { modules := #[{ name := "builtins" }] }).addNatives .builtins Builtins.functions :=
  rfl

theorem calm_initial : initial.Calm := by
  rw [initial_eq]
  refine Calm.addNatives (by decide) (List.foldlRecOn _ _ (fun c hc => ?_) fun r hr c _ => hr.addClass rfl) _
  exact absurd hc (Array.not_mem_empty c)

theorem Calm.addHostModule (hr : r.Calm) : r.addHostModule.Calm := by
  unfold Registry.addHostModule
  split
  · rename_i module r' h
    refine Calm.addNatives (fun x hx => ?_) ((hr.addModule h).addClass rfl) module
    simp only [hostFunctions, List.mem_cons, List.not_mem_nil, or_false] at hx
    rcases hx with rfl | rfl | rfl | rfl | rfl | rfl | rfl | rfl | rfl | rfl | rfl <;> simp
  · exact hr

/-! ## Registering modules -/

/-- What is left of a registration when the classes are there. -/
def enterMembers (m : CompiledModule) (module : ModuleId) (builtins : Option ModuleId) (ids : List ClassId) :
    Entry ModuleId := do
  for (d, c) in m.classes.toList.zip ids do
    wireSuperclass module builtins d c
  for d in m.functions do
    enterFunction module d
  return module

section
variable {m : CompiledModule} {builtins : Option ModuleId} {root : ClassId} {r r' : Registry} {module : ModuleId}
  {e : HostError}

theorem register_of_validate_error (hv : m.validate = .error e) : register m builtins root r = (.error e, r) := by
  unfold register
  rw [hv]
  rfl

theorem register_of_addModule_error {u : Unit} (hv : m.validate = .ok u) (ha : r.addModule m.name m.tape = .error e) :
    register m builtins root r = (.error e, r) := by
  have hrun : ∀ k : Registry → Entry ModuleId, ((ExceptT.mk (pure (.ok u)) : Entry Unit) >>= fun _ => get >>= k) r = k r r :=
    fun _ => rfl
  unfold register
  rw [hv, hrun, ha]
  rfl

theorem register_of_addModule {u : Unit} (hv : m.validate = .ok u) (ha : r.addModule m.name m.tape = .ok (module, r')) :
    register m builtins root r = enterMembers m module builtins (enterClasses module root m.classes.toList r').1
      (enterClasses module root m.classes.toList r').2 := by
  have hrun : ∀ k : Registry → Entry ModuleId, ((ExceptT.mk (pure (.ok u)) : Entry Unit) >>= fun _ => get >>= k) r = k r r :=
    fun _ => rfl
  unfold register
  rw [hv, hrun, ha]
  rfl

end

/-- What stays true of a registry whatever is done to its classes. -/
structure Abiding (P : Registry → Prop) : Prop where
  addClass : ∀ {r c}, P r → c.methods = {} → c.hooks = {} → P (r.addClass c).2
  setSuperclass : ∀ {r}, P r → ∀ c s, P (r.setSuperclass c s)

/-- What stays true of a registry whatever modules are registered. They have been checked before: a tape has no flaw,
and a function starts on the tape of its module. -/
structure Lasting (P : Registry → Prop) : Prop extends Abiding P where
  addModule : ∀ {r r' name tape m}, P r → tape.flaw? = none → r.addModule name tape = .ok (m, r') → P r'
  addFunction : ∀ {r f start}, P r → f.kind = .user start → start < (r.moduleAt f.module).tape.size →
    P (r.addFunction f).2

theorem lasting_calm : Lasting Calm where
  addModule hr _ h := hr.addModule h
  addClass hr hc _ := hr.addClass hc
  setSuperclass hr c s := hr.setSuperclass c s
  addFunction hr hf _ := hr.addFunction fun _ => by simp [hf]

theorem tape_moduleAt_modify (modules : Array Module) (i : Nat) {f : Module → Module} (hf : ∀ m, (f m).tape = m.tape)
    (j : Nat) : ((modules.modify i f).getD j default).tape = (modules.getD j default).tape := by
  simp only [Array.getD_eq_getD_getElem?, Array.getElem?_modify]
  split
  · cases modules[j]? <;> simp [hf]
  · rfl

theorem tape_addFunction (r : Registry) (f : Function) (m : ModuleId) :
    ((r.addFunction f).2.moduleAt m).tape = (r.moduleAt m).tape := by
  unfold Registry.addFunction
  dsimp only
  split
  · rfl
  · refine tape_moduleAt_modify r.modules f.module.index ?_ m.index
    exact fun _ => rfl

theorem tape_addClass (r : Registry) (c : Class) (m : ModuleId) :
    ((r.addClass c).2.moduleAt m).tape = (r.moduleAt m).tape := by
  refine tape_moduleAt_modify r.modules c.module.index ?_ m.index
  exact fun _ => rfl

/-- The module has this tape. -/
def HasTape (m : ModuleId) (tape : Tape) (r : Registry) : Prop := (r.moduleAt m).tape = tape

theorem Abiding.hasTape {P : Registry → Prop} (hP : Abiding P) (m : ModuleId) (tape : Tape) :
    Abiding fun r => P r ∧ r.HasTape m tape where
  addClass hr hc hh := ⟨hP.addClass hr.1 hc hh, (tape_addClass _ _ m).trans hr.2⟩
  setSuperclass hr c s := ⟨hP.setSuperclass hr.1 c s, hr.2⟩

theorem hasTape_addModule {r r' : Registry} {name : String} {tape : Tape} {m : ModuleId}
    (h : r.addModule name tape = .ok (m, r')) : r'.HasTape m tape := by
  unfold Registry.addModule at h
  split at h
  · cases h
  · cases h
    simp [HasTape, moduleAt, Array.getD_eq_getD_getElem?]

section
variable {P : Registry → Prop} (hP : Abiding P)
include hP

theorem preserves_wireSuperclass (module : ModuleId) (builtins : Option ModuleId) (d : ClassDef) (c : ClassId) :
    Preserves P (wireSuperclass module builtins d c) := by
  unfold wireSuperclass
  split
  · exact preserves_pure _
  · refine preserves_get fun r _ => ?_
    split
    · exact preserves_throw _
    · rename_i s _
      have hset : Preserves P (modify fun r => r.setSuperclass c s : Entry Unit) :=
        preserves_modify fun r hr => hP.setSuperclass hr c s
      dsimp only
      split
      · exact preserves_bind (preserves_throw _) fun _ => hset
      · exact hset

theorem preserves_enterClasses (module : ModuleId) (root : ClassId) (defs : List ClassDef) :
    ∀ r : Registry, P r → P (enterClasses module root defs r).2 := by
  unfold enterClasses
  induction defs with
  | nil => exact fun r hr => hr
  | cons d rest ih =>
      intro r hr
      rw [List.mapM_cons]
      exact ih _ (hP.addClass hr rfl rfl)

end

section
variable {P : Registry → Prop} (hP : Lasting P)
include hP

theorem preserves_enterFunction (module : ModuleId) {tape : Tape} {d : FunctionDef} (hd : d.start < tape.size) :
    Preserves (fun r => P r ∧ r.HasTape module tape) (enterFunction module d) := by
  unfold enterFunction
  have hadd : ∀ owner : Option ClassId, Preserves (fun r => P r ∧ r.HasTape module tape) (modify fun r =>
      (r.addFunction { name := d.name, module, kind := .user d.start, flags := d.flags, owner }).2 : Entry Unit) := by
    refine fun owner => preserves_modify fun r hr => ⟨hP.addFunction hr.1 rfl ?_, (tape_addFunction r _ module).trans hr.2⟩
    change d.start < (r.moduleAt module).tape.size
    rw [show (r.moduleAt module).tape = tape from hr.2]
    exact hd
  split
  · exact preserves_bind (preserves_pure _) hadd
  · refine preserves_get fun r _ => ?_
    split
    · exact preserves_bind (preserves_pure _) hadd
    · exact preserves_bind (preserves_throw _) hadd

theorem preserves_enterMembers {m : CompiledModule} (hm : ∀ d ∈ m.functions, d.start < m.tape.size) (module : ModuleId)
    (builtins : Option ModuleId) (ids : List ClassId) :
    Preserves (fun r => P r ∧ r.HasTape module m.tape) (enterMembers m module builtins ids) := by
  have hboth := hP.toAbiding.hasTape module m.tape
  refine preserves_bind (preserves_forIn (fun x _ => ?_) _ _) fun _ => ?_
  · exact preserves_bind (preserves_wireSuperclass hboth module builtins x.1 x.2) fun _ => preserves_pure _
  · refine preserves_bind ?_ fun _ => preserves_pure _
    rw [← Array.forIn_toList]
    refine preserves_forIn_mem _ _ fun d hd _ => ?_
    exact preserves_bind (preserves_enterFunction hP module (hm d (Array.mem_toList_iff.1 hd))) fun _ => preserves_pure _

theorem preserves_register (m : CompiledModule) (builtins : Option ModuleId) (root : ClassId) :
    Preserves P (register m builtins root) := by
  intro r hr
  cases hv : m.validate with
  | error e =>
      rw [register_of_validate_error hv]
      exact hr
  | ok u =>
      obtain ⟨htape, hfunctions⟩ := m.of_validate hv
      cases ha : r.addModule m.name m.tape with
      | error e =>
          rw [register_of_addModule_error hv ha]
          exact hr
      | ok added =>
          obtain ⟨module, r'⟩ := added
          rw [register_of_addModule hv ha]
          have hentered : P r' ∧ r'.HasTape module m.tape := ⟨hP.addModule hr htape ha, hasTape_addModule ha⟩
          exact (preserves_enterMembers hP hfunctions module builtins _ _
            (preserves_enterClasses (hP.toAbiding.hasTape module m.tape) module root _ r' hentered)).1

theorem preserves_resolve (l : Library) (name : String) : Preserves P (l.resolve name) := by
  unfold Library.resolve
  refine preserves_get fun r _ => ?_
  split
  · exact preserves_pure _
  · split
    · exact preserves_bind (preserves_mk _) fun _ => preserves_bind (preserves_mk _) fun _ => preserves_register hP _ _ _
    · exact preserves_throw _

theorem preserves_loadFile (l : Library) (path : String) : Preserves P (l.loadFile path) := by
  unfold Library.loadFile
  split
  · exact preserves_bind (preserves_mk _) fun _ => preserves_bind (preserves_mk _) fun _ => preserves_register hP _ _ _
  · exact preserves_throw _

end

/-! ## Async functions -/

/-- Some function of a program is async. -/
def HasAsync (r : Registry) : Prop := ∃ f ∈ r.functions, (∃ start, f.kind = .user start) ∧ f.flags.async

theorem hasAsync_iff {r : Registry} : r.HasAsync ↔
    r.functions.any fun f => (match f.kind with | .user _ => true | _ => false) && f.flags.async := by
  simp only [HasAsync, Array.any_eq_true', Bool.and_eq_true]
  refine exists_congr fun f => and_congr_right fun _ => and_congr_left fun _ => ?_
  cases f.kind <;> simp

instance decidableHasAsync (r : Registry) : Decidable r.HasAsync := decidable_of_iff _ hasAsync_iff.symm

theorem functions_addFunction (r : Registry) (f : Function) :
    (r.addFunction f).2.functions = r.functions.push { f with flags := f.flags.union (impliedFlags f.kind) } := by
  unfold Registry.addFunction
  dsimp only
  split <;> rfl

theorem HasAsync.addFunction {r : Registry} (hr : r.HasAsync) (f : Function) : (r.addFunction f).2.HasAsync := by
  obtain ⟨g, hg, hasync⟩ := hr
  refine ⟨g, ?_, hasync⟩
  rw [functions_addFunction]
  exact Array.mem_push_of_mem _ hg

/-- Functions are never taken away. -/
theorem lasting_hasAsync : Lasting HasAsync where
  addModule hr _ h := by
    unfold Registry.addModule at h
    split at h
    · cases h
    · cases h
      exact hr
  addClass hr _ _ := hr
  setSuperclass hr _ _ := hr
  addFunction hr _ _ := hr.addFunction _

end Registry

end Spool
