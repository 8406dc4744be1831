import Spool.Proofs.Registry.Calm

/-!
# Which modules can be found

A module can be found by its name as soon as it has been added, and that is before its classes get their superclasses.
So a registration that fails there leaves a module behind that the next search finds; every other failure leaves
nothing.
-/

namespace Spool

/-- Failures that come to light when a module has been added already. -/
inductive HostError.Late : HostError → Prop
  | unknownSuperclass (className superName : String) : Late (.unknownSuperclass className superName)
  | inheritanceCycle (className : String) : Late (.inheritanceCycle className)

/-! ## What an action may fail with -/

/-- The action keeps the state good, and fails only in ways that are known. -/
def Guards {ε σ α : Type} (P : σ → Prop) (E : ε → Prop) (act : ExceptT ε (StateM σ) α) : Prop :=
  ∀ s, P s → P (act s).2 ∧ ∀ e, (act s).1 = .error e → E e

section
variable {ε σ α β : Type} {P : σ → Prop} {E : ε → Prop}

theorem guards_pure (a : α) : Guards P E (pure a : ExceptT ε (StateM σ) α) :=
  fun _ h => ⟨h, fun _ he => nomatch he⟩

theorem guards_throw {e : ε} (he : E e) : Guards P E (throw e : ExceptT ε (StateM σ) α) := by
  refine fun _ h => ⟨h, fun e' he' => ?_⟩
  cases he'
  exact he

theorem guards_modify {f : σ → σ} (hf : ∀ s, P s → P (f s)) : Guards P E (modify f : ExceptT ε (StateM σ) PUnit) :=
  fun s h => ⟨hf s h, fun _ he => nomatch he⟩

theorem guards_bind {act : ExceptT ε (StateM σ) α} {k : α → ExceptT ε (StateM σ) β} (ha : Guards P E act)
    (hk : ∀ a, Guards P E (k a)) : Guards P E (act >>= k) := by
  intro s hs
  have h : (act >>= k) s = ExceptT.bindCont k (act s).1 (act s).2 := rfl
  obtain ⟨hgood, herr⟩ := ha s hs
  rw [h]
  cases hr : (act s).1 with
  | error e =>
      refine ⟨hgood, fun e' he' => ?_⟩
      cases he'
      exact herr e hr
  | ok a => exact hk a _ hgood

theorem guards_get {k : σ → ExceptT ε (StateM σ) β} (hk : ∀ s, P s → Guards P E (k s)) : Guards P E (get >>= k) :=
  fun s hs => hk s hs s hs

/-- Every answer of the action is this one. -/
def Answers {ε σ α : Type} (a : α) (act : ExceptT ε (StateM σ) α) : Prop := ∀ s b, (act s).1 = .ok b → b = a

theorem answers_pure (a : α) : Answers a (pure a : ExceptT ε (StateM σ) α) := by
  intro s b h
  cases h
  rfl

theorem answers_bind {a : β} {act : ExceptT ε (StateM σ) α} {k : α → ExceptT ε (StateM σ) β}
    (hk : ∀ x, Answers a (k x)) : Answers a (act >>= k) := by
  intro s b hb
  have h : (act >>= k) s = ExceptT.bindCont k (act s).1 (act s).2 := rfl
  rw [h] at hb
  cases hr : (act s).1 with
  | error e =>
      rw [hr] at hb
      cases hb
  | ok x =>
      rw [hr] at hb
      exact hk x _ b hb

theorem guards_forIn {f : α → PUnit → ExceptT ε (StateM σ) (ForInStep PUnit)} (xs : List α) (b : PUnit)
    (hf : ∀ a ∈ xs, ∀ b, Guards P E (f a b)) : Guards P E (forIn xs b f) := by
  induction xs generalizing b with
  | nil => exact guards_pure b
  | cons a rest ih =>
      rw [List.forIn_cons]
      refine guards_bind (hf a List.mem_cons_self b) fun step => ?_
      cases step with
      | done b => exact guards_pure b
      | yield b => exact ih b fun a ha => hf a (List.mem_cons_of_mem _ ha)

end

namespace CompiledModule

theorem Tape.not_late_of_flaw? {t : Tape} {e : HostError} (h : t.flaw? = some e) : ¬ e.Late := by
  have hfrom : ∀ (is : List Instruction) (start : Nat), Tape.flawFrom? t.size start is = some e → ¬ e.Late := by
    intro is
    induction is with
    | nil => exact fun _ h => nomatch h
    | cons i rest ih =>
        intro start h
        simp only [Tape.flawFrom?] at h
        split at h
        · cases h
          exact fun hl => nomatch hl
        · cases h
          exact fun hl => nomatch hl
        · exact ih _ h
  unfold Tape.flaw? at h
  split at h
  · rename_i flaw hflaw
    cases h
    exact hfrom _ _ hflaw
  · split at h
    · cases h
      exact fun hl => nomatch hl
    · cases h

variable (m : CompiledModule)

theorem not_late_of_functionFlaw? {f : FunctionDef} {e : HostError} (h : m.functionFlaw? f = some e) : ¬ e.Late := by
  unfold functionFlaw? at h
  split at h
  · cases h
    exact fun hl => nomatch hl
  · split at h
    · split at h
      · cases h
      · cases h
        exact fun hl => nomatch hl
    · cases h

theorem not_late_of_classFlaw? {c : ClassDef} {e : HostError} (h : m.classFlaw? c = some e) : ¬ e.Late := by
  unfold classFlaw? at h
  split at h
  · cases h
    exact fun hl => nomatch hl
  · cases h

/-- The check of a module comes before anything is added. -/
theorem not_late_of_validate {e : HostError} (h : m.validate = .error e) : ¬ e.Late := by
  have hflaw : m.flaw? = some e := by
    unfold validate at h
    split at h
    · rename_i flaw hflaw
      rw [hflaw]
      exact congrArg some (Except.error.inj h)
    · cases h
  simp only [flaw?, Option.orElse_eq_orElse, Option.orElse_eq_or, Option.or_eq_some_iff] at hflaw
  rcases hflaw with h | ⟨_, h | ⟨_, h⟩⟩
  · exact Tape.not_late_of_flaw? h
  · obtain ⟨f, _, hf⟩ := List.exists_of_findSome?_eq_some h
    exact m.not_late_of_functionFlaw? hf
  · obtain ⟨c, _, hc⟩ := List.exists_of_findSome?_eq_some h
    exact m.not_late_of_classFlaw? hc

/-- The methods of a module that has passed the check belong to its own classes. -/
theorem owner_of_validate {u : Unit} (h : m.validate = .ok u) {d : FunctionDef} (hd : d ∈ m.functions) {owner : String}
    (ho : d.owner = some owner) : ∃ c ∈ m.classes.toList, c.name = owner := by
  have hflaw : m.flaw? = none := by
    unfold validate at h
    split at h
    · cases h
    · assumption
  simp only [flaw?, Option.orElse_eq_orElse, Option.orElse_eq_or, Option.or_eq_none_iff, List.findSome?_eq_none_iff,
    Array.mem_toList_iff] at hflaw
  have hnone := hflaw.2.1 d hd
  simp only [functionFlaw?, ho] at hnone
  split at hnone
  · cases hnone
  · split at hnone
    · rename_i hany
      obtain ⟨c, hc, hname⟩ := Array.any_eq_true'.1 hany
      exact ⟨c, Array.mem_toList_iff.2 hc, of_decide_eq_true hname⟩
    · cases hnone

end CompiledModule

namespace Registry

/-! ## The names of the modules -/

/-- The names of the modules, in the order in which they were added. -/
def names (r : Registry) : List String := r.modules.toList.map Module.name

theorem length_names (r : Registry) : r.names.length = r.modules.size := by simp [names]

theorem moduleNamed?_eq (r : Registry) (name : String) :
    r.moduleNamed? name = (r.names.findIdx? fun n => n = name).map ModuleId.mk := by
  rw [moduleNamed?, names, List.findIdx?_map]
  obtain ⟨modules⟩ := r.modules
  rw [List.findIdx?_toArray]
  rfl

theorem moduleNamed?_eq_none {r : Registry} {name : String} : r.moduleNamed? name = none ↔ name ∉ r.names := by
  rw [moduleNamed?_eq, Option.map_eq_none_iff, List.findIdx?_eq_none_iff]
  constructor
  · intro h hmem
    simpa using h name hmem
  · intro h n hn
    have hne : n ≠ name := fun he => h (he ▸ hn)
    simpa using hne

theorem index_lt_of_moduleNamed? {r : Registry} {name : String} {id : ModuleId} (h : r.moduleNamed? name = some id) :
    id.index < r.modules.size := by
  rw [moduleNamed?_eq] at h
  obtain ⟨i, hi, rfl⟩ := Option.map_eq_some_iff.1 h
  rw [← length_names]
  exact (List.findIdx?_eq_some_iff_findIdx_eq.1 hi).1

theorem names_modify (modules : Array Module) (i : Nat) {f : Module → Module} (hf : ∀ m, (f m).name = m.name) :
    (modules.modify i f).toList.map Module.name = modules.toList.map Module.name := by
  apply List.ext_getElem
  · simp
  · intro j hj _
    simp only [List.getElem_map, Array.getElem_toList, Array.getElem_modify]
    split
    · exact hf _
    · rfl

theorem names_addFunction (r : Registry) (f : Function) : (r.addFunction f).2.names = r.names := by
  unfold addFunction
  dsimp only
  split
  · rfl
  · refine names_modify r.modules f.module.index ?_
    exact fun _ => rfl

theorem names_addClass (r : Registry) (c : Class) : (r.addClass c).2.names = r.names := by
  refine names_modify r.modules c.module.index ?_
  exact fun _ => rfl

theorem names_addModule {r r' : Registry} {name : String} {tape : Tape} {m : ModuleId}
    (h : r.addModule name tape = .ok (m, r')) : m = ⟨r.modules.size⟩ ∧ name ∉ r.names ∧ r'.names = r.names ++ [name] := by
  unfold addModule at h
  split at h
  · cases h
  · rename_i hnone
    cases h
    exact ⟨rfl, moduleNamed?_eq_none.1 hnone, by simp [names]⟩

/-! ## The classes of a module -/

/-- One of the module's classes has this name. -/
def HasClass (module : ModuleId) (name : String) (r : Registry) : Prop :=
  ∃ c ∈ (r.moduleAt module).classes, ∃ cls, r.classes[c.index]? = some cls ∧ cls.name = name

theorem HasClass.isSome {module : ModuleId} {name : String} {r : Registry} (h : r.HasClass module name) :
    (r.classNamed? module name).isSome := by
  obtain ⟨c, hc, cls, hcls, hname⟩ := h
  rw [classNamed?, Array.find?_isSome]
  exact ⟨c, hc, by simp [className, classAt, Array.getD_eq_getD_getElem?, hcls, hname]⟩

theorem HasClass.addClass {module : ModuleId} {name : String} {r : Registry} (h : r.HasClass module name) (d : Class) :
    (r.addClass d).2.HasClass module name := by
  obtain ⟨c, hc, cls, hcls, hname⟩ := h
  refine ⟨c, ?_, cls, ?_, hname⟩
  · simp only [Registry.addClass, moduleAt, Array.getD_eq_getD_getElem?, Array.getElem?_modify] at hc ⊢
    split
    · cases hm : r.modules[module.index]? with
      | none => simp [hm, default, instInhabitedModule.default] at hc
      | some m =>
          rw [hm] at hc
          exact Array.mem_push_of_mem _ hc
    · exact hc
  · simp only [Registry.addClass, Array.getElem?_push]
    rw [if_neg (Nat.ne_of_lt (Array.getElem?_eq_some_iff.1 hcls).1)]
    exact hcls

/-- What a class is called does not change. -/
theorem HasClass.of_modify {module : ModuleId} {name : String} {r r' : Registry} (h : r.HasClass module name)
    {i : Nat} {f : Class → Class} (hf : ∀ c, (f c).name = c.name) (hclasses : r'.classes = r.classes.modify i f)
    (hmodule : (r'.moduleAt module).classes = (r.moduleAt module).classes) : r'.HasClass module name := by
  obtain ⟨c, hc, cls, hcls, hname⟩ := h
  refine ⟨c, hmodule ▸ hc, ?_⟩
  rw [hclasses, Array.getElem?_modify, hcls]
  split
  · exact ⟨f cls, rfl, (hf cls).trans hname⟩
  · exact ⟨cls, rfl, hname⟩

theorem HasClass.setSuperclass {module : ModuleId} {name : String} {r : Registry} (h : r.HasClass module name)
    (c s : ClassId) : (r.setSuperclass c s).HasClass module name := by
  refine h.of_modify (i := c.index) (f := fun c => { c with superclass := some s }) ?_ rfl rfl
  exact fun _ => rfl

theorem HasClass.addFunction {module : ModuleId} {name : String} {r : Registry} (h : r.HasClass module name)
    (f : Function) : (r.addFunction f).2.HasClass module name := by
  unfold Registry.addFunction
  dsimp only
  split
  · refine h.of_modify (i := _) (f := fun c => { c with methods := c.methods.insert f.name ⟨r.functions.size⟩ }) ?_ rfl rfl
    exact fun _ => rfl
  · obtain ⟨c, hc, hcls⟩ := h
    refine ⟨c, ?_, hcls⟩
    simp only [moduleAt, Array.getD_eq_getD_getElem?, Array.getElem?_modify] at hc ⊢
    split
    · cases hm : r.modules[module.index]? with
      | none => simp [hm, default, instInhabitedModule.default] at hc
      | some m =>
          rw [hm] at hc
          exact hc
    · exact hc

/-! ## How a registration ends -/

/-- A module has been added, and these of its classes. -/
structure Entered (module : ModuleId) (ns : List String) (defs : List ClassDef) (r : Registry) : Prop where
  names : r.names = ns
  classes : ∀ d ∈ defs, r.HasClass module d.name

theorem enterClasses_entered {module : ModuleId} (root : ClassId) {ns : List String} (hmodule : module.index < ns.length) :
    ∀ (defs done : List ClassDef) (r : Registry), Entered module ns done r →
      Entered module ns (done ++ defs) (enterClasses module root defs r).2 := by
  unfold enterClasses
  intro defs
  induction defs with
  | nil =>
      intro done r hr
      rw [List.append_nil]
      exact hr
  | cons d rest ih =>
      intro done r hr
      rw [List.mapM_cons, List.append_cons done]
      refine ih (done ++ [d]) _ ⟨(names_addClass r _).trans hr.names, fun d' hd' => ?_⟩
      rcases List.mem_append.1 hd' with hd' | hd'
      · exact (hr.classes d' hd').addClass _
      · rw [List.mem_singleton.1 hd']
        have hlt : module.index < r.modules.size := by
          rw [← length_names, hr.names]
          exact hmodule
        refine ⟨⟨r.classes.size⟩, ?_, ?_⟩
        · simp [moduleAt, hlt, Array.getElem_modify]
        · exact ⟨_, Array.getElem?_push_size, rfl⟩

theorem guards_wireSuperclass {module : ModuleId} {ns : List String} {defs : List ClassDef} (builtins : Option ModuleId)
    (d : ClassDef) (c : ClassId) : Guards (Entered module ns defs) HostError.Late (wireSuperclass module builtins d c) := by
  unfold wireSuperclass
  split
  · exact guards_pure _
  · refine guards_get fun r _ => ?_
    split
    · exact guards_throw (.unknownSuperclass _ _)
    · rename_i s _
      have hset : Guards (Entered module ns defs) HostError.Late (modify fun r => r.setSuperclass c s : Entry Unit) :=
        guards_modify fun r hr => ⟨hr.names, fun d hd => (hr.classes d hd).setSuperclass c s⟩
      dsimp only
      split
      · exact guards_bind (guards_throw (.inheritanceCycle _)) fun _ => hset
      · exact hset

/-- The class of a method is there, so functions are entered without fail. -/
theorem guards_enterFunction {module : ModuleId} {ns : List String} {defs : List ClassDef} {d : FunctionDef}
    (hd : ∀ owner, d.owner = some owner → ∃ c ∈ defs, c.name = owner) :
    Guards (Entered module ns defs) HostError.Late (enterFunction module d) := by
  unfold enterFunction
  have hadd : ∀ owner : Option ClassId, Guards (Entered module ns defs) HostError.Late (modify fun r =>
      (r.addFunction { name := d.name, module, kind := .user d.start, flags := d.flags, owner }).2 : Entry Unit) :=
    fun owner => guards_modify fun r hr =>
      ⟨(names_addFunction r _).trans hr.names, fun c hc => (hr.classes c hc).addFunction _⟩
  split
  · exact guards_bind (guards_pure _) hadd
  · rename_i owner howner
    refine guards_get fun r hr => ?_
    obtain ⟨c, hc, hname⟩ := hd owner howner
    have hsome := (hr.classes c hc).isSome
    rw [hname] at hsome
    split
    · exact guards_bind (guards_pure _) hadd
    · rename_i hnone
      rw [hnone] at hsome
      cases hsome

/-- How the registration of a module may end: refused before anything was added, complete, or broken off with the module
added. -/
inductive Registers (m : CompiledModule) (r : Registry) : Except HostError ModuleId × Registry → Prop
  | refused {e : HostError} : ¬ e.Late → Registers m r (.error e, r)
  | complete {r' : Registry} : r'.names = r.names ++ [m.name] → m.name ∉ r.names →
      Registers m r (.ok ⟨r.modules.size⟩, r')
  | broken {e : HostError} {r' : Registry} : e.Late → r'.names = r.names ++ [m.name] → m.name ∉ r.names →
      Registers m r (.error e, r')

/-- Only a superclass can still be wrong then. -/
theorem guards_enterMembers {m : CompiledModule} {u : Unit} (hv : m.validate = .ok u) (module : ModuleId)
    (builtins : Option ModuleId) (ids : List ClassId) (ns : List String) :
    Guards (Entered module ns m.classes.toList) HostError.Late (enterMembers m module builtins ids) := by
  refine guards_bind (guards_forIn _ _ fun x _ _ => ?_) fun _ => guards_bind ?_ fun _ => guards_pure _
  · exact guards_bind (guards_wireSuperclass builtins x.1 x.2) fun _ => guards_pure _
  · rw [← Array.forIn_toList]
    refine guards_forIn _ _ fun d hd _ => guards_bind (guards_enterFunction fun owner ho => ?_) fun _ => guards_pure _
    exact m.owner_of_validate hv (Array.mem_toList_iff.1 hd) ho

theorem registers_register (m : CompiledModule) (builtins : Option ModuleId) (root : ClassId) (r : Registry) :
    Registers m r (register m builtins root r) := by
  cases hv : m.validate with
  | error e =>
      rw [register_of_validate_error hv]
      exact .refused (m.not_late_of_validate hv)
  | ok u =>
      cases ha : r.addModule m.name m.tape with
      | error e =>
          rw [register_of_addModule_error hv ha]
          refine .refused fun hl => ?_
          unfold addModule at ha
          split at ha
          · cases ha
            cases hl
          · cases ha
      | ok added =>
          obtain ⟨module, r'⟩ := added
          obtain ⟨rfl, hnew, hnames⟩ := names_addModule ha
          have hentered : Entered ⟨r.modules.size⟩ (r.names ++ [m.name]) m.classes.toList
              (enterClasses ⟨r.modules.size⟩ root m.classes.toList r').2 :=
            enterClasses_entered root (by simp [length_names]) m.classes.toList [] r' ⟨hnames, fun _ h => by cases h⟩
          rw [register_of_addModule hv ha]
          generalize (enterClasses ⟨r.modules.size⟩ root m.classes.toList r').1 = ids
          obtain ⟨hgood, herr⟩ := guards_enterMembers hv ⟨r.modules.size⟩ builtins ids _ _ hentered
          have hok : Answers ⟨r.modules.size⟩ (enterMembers m ⟨r.modules.size⟩ builtins ids) :=
            answers_bind fun _ => answers_bind fun _ => answers_pure _
          specialize hok (enterClasses ⟨r.modules.size⟩ root m.classes.toList r').2
          generalize enterMembers m ⟨r.modules.size⟩ builtins ids _ = answer at hgood herr hok ⊢
          obtain ⟨result, r''⟩ := answer
          cases result with
          | error e => exact .broken (herr e rfl) hgood.names hnew
          | ok id =>
              rw [hok id rfl]
              exact .complete hgood.names hnew

end Registry

end Spool
