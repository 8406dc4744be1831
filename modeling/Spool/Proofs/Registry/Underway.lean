import Mathlib.Data.List.Find
import Spool.Proofs.Registry.Hierarchy
import Spool.Proofs.Registry.Published

/-!
# A module on its way into the registry

The classes of a module are entered under the root, get their superclasses one after the other, and then come the
functions. What the registry looks like after each of these pieces follows from what it was before and from the tables
of the module. Classes and functions from before stay as they are.
-/

namespace Spool

namespace CompiledModule

/-- The position of the first class with a name. -/
def position? (m : CompiledModule) (name : String) : Option Nat := m.classes.findIdx? fun d => d.name = name

theorem getElem?_of_position? {m : CompiledModule} {name : String} {i : Nat} (h : m.position? name = some i) :
    ∃ d, m.classes[i]? = some d ∧ d.name = name ∧ (m.classes.find? fun c => c.name = name) = some d := by
  obtain ⟨hlt, hname, hfirst⟩ := Array.findIdx?_eq_some_iff_getElem.1 h
  refine ⟨m.classes[i], by simp [hlt], of_decide_eq_true hname, ?_⟩
  exact Array.find?_eq_some_iff_getElem.2 ⟨hname, i, hlt, rfl, fun j hj => by simpa using hfirst j hj⟩

theorem position?_of_find? {m : CompiledModule} {name : String} {d : ClassDef}
    (h : (m.classes.find? fun c => c.name = name) = some d) :
    ∃ i, m.position? name = some i ∧ m.classes[i]? = some d ∧ d.name = name := by
  cases hp : m.position? name with
  | none =>
    obtain ⟨hname, i, hlt, rfl, _⟩ := Array.find?_eq_some_iff_getElem.1 h
    exact absurd hname (by simpa using Array.findIdx?_eq_none_iff.1 hp m.classes[i] (Array.getElem_mem hlt))
  | some i =>
    obtain ⟨d', hd', hname, hfind⟩ := getElem?_of_position? hp
    cases h.symm.trans hfind
    exact ⟨i, rfl, hd', hname⟩

end CompiledModule

namespace Registry

variable (r : Registry) (m : CompiledModule) (builtins : Option ModuleId) (root : ClassId)

/-- Where a class of a module will be that is registered next. -/
def place (i : Nat) : ClassId := ⟨r.classes.size + i⟩

/-- The superclass of a class: the root if it names none, otherwise a class of the module or else of the builtins. -/
def superclassFor (d : ClassDef) : Option ClassId :=
  match d.superName with
  | none => some root
  | some n => (m.position? n).map r.place <|> builtins.bind fun b => r.classNamed? b n

def ownerFor (d : FunctionDef) : Option ClassId := d.owner.bind fun n => (m.position? n).map r.place

/-- Functions under their names; `none` owns the free ones. -/
def table (fs : List FunctionDef) (owner : Option ClassId) : Bindings String FunctionId :=
  .ofList (fs.zipIdx.filterMap fun (d, k) =>
    if r.ownerFor m d = owner then some (d.name, ⟨r.functions.size + k⟩) else none)

/-- A registration on its way: so many classes have got their superclasses, and these functions are there. -/
def underway (wired : Nat) (fs : List FunctionDef) : Registry where
  classes := r.classes ++ m.classes.mapIdx fun i d =>
    { name := d.name
      module := ⟨r.modules.size⟩
      superclass := if i < wired then r.superclassFor m builtins root d else some root
      fields := d.fields
      methods := r.table m fs (some (r.place i)) }
  functions := r.functions ++ (fs.map fun d =>
    { name := d.name, module := ⟨r.modules.size⟩, kind := .user d.start, flags := d.flags, owner := r.ownerFor m d }).toArray
  modules := r.modules.push
    { name := m.name
      tape := m.tape
      classes := (Array.range m.classes.size).map r.place
      functions := r.table m fs none }

/-! ## Entering the classes -/

theorem modify_push {α : Type} (xs : Array α) (x : α) (f : α → α) : (xs.push x).modify xs.size f = xs.push (f x) := by
  refine Array.ext_getElem? fun i => ?_
  rw [Array.getElem?_modify, Array.getElem?_push, Array.getElem?_push]
  by_cases hi : i = xs.size
  · simp [hi]
  · simp [hi, Ne.symm hi]

theorem underway_addClass (classes : Array ClassDef) (d : ClassDef) :
    (r.underway { m with classes } builtins root 0 []).addClass
        { name := d.name, module := ⟨r.modules.size⟩, superclass := some root, fields := d.fields } =
      (r.place classes.size, r.underway { m with classes := classes.push d } builtins root 0 []) := by
  refine Prod.ext ?_ ?_
  · simp [addClass, underway, place]
  · simp only [addClass, underway, Registry.mk.injEq, modify_push]
    refine ⟨?_, rfl, ?_⟩
    · simp [Array.mapIdx_push, table, Bindings.ofList]
    · simp [Array.range_succ, place, table]

theorem enterClasses_underway (rest : List ClassDef) : ∀ classes : Array ClassDef,
    enterClasses ⟨r.modules.size⟩ root rest (r.underway { m with classes } builtins root 0 []) =
      ((List.range' classes.size rest.length).map r.place,
        r.underway { m with classes := classes ++ rest.toArray } builtins root 0 []) := by
  have hpure : ∀ (ids : List ClassId) (s : Registry), (pure ids : StateM Registry (List ClassId)) s = (ids, s) :=
    fun _ _ => rfl
  unfold enterClasses
  induction rest with
  | nil =>
      intro classes
      rw [List.mapM_nil, hpure]
      simp
  | cons d rest ih =>
      intro classes
      have hrun : ∀ {α β : Type} (act : StateM Registry α) (k : α → StateM Registry β) (s : Registry),
        (act >>= k) s = k (act s).1 (act s).2 := fun _ _ _ => rfl
      have hstep : ∀ (f : Registry → ClassId × Registry) (s : Registry), (modifyGet f : StateM Registry ClassId) s = f s :=
        fun _ _ => rfl
      rw [List.mapM_cons, hrun, hrun, hstep, underway_addClass, ih]
      rw [hpure]
      simp [List.range'_succ]

/-! ## What the classes of the module are called -/

section
variable {r m builtins root} {n : Nat} {fs : List FunctionDef} {c : ClassId} {i : Nat}

theorem classAt_underway (hc : r.Contains c) : (r.underway m builtins root n fs).classAt c = r.classAt c := by
  simp only [classAt, underway, Array.getD_eq_getD_getElem?]
  rw [Array.getElem?_append_left hc]

theorem classAt_underway_place (hi : i < m.classes.size) : (r.underway m builtins root n fs).classAt (r.place i) =
    { name := m.classes[i].name
      module := ⟨r.modules.size⟩
      superclass := if i < n then r.superclassFor m builtins root m.classes[i] else some root
      fields := m.classes[i].fields
      methods := r.table m fs (some (r.place i)) } := by
  simp [classAt, underway, place, Array.getD_eq_getD_getElem?, hi]

theorem moduleAt_underway {b : ModuleId} (hb : b ≠ ⟨r.modules.size⟩) :
    (r.underway m builtins root n fs).moduleAt b = r.moduleAt b := by
  have hne : b.index ≠ r.modules.size := fun h => hb (congrArg ModuleId.mk h)
  simp [moduleAt, underway, Array.getD_eq_getD_getElem?, Array.getElem?_push, hne]

theorem classNamed?_underway_self (name : String) :
    (r.underway m builtins root n fs).classNamed? ⟨r.modules.size⟩ name = (m.position? name).map r.place := by
  have hmodule : ((r.underway m builtins root n fs).moduleAt ⟨r.modules.size⟩).classes =
      (Array.range m.classes.size).map r.place := by
    simp [moduleAt, underway, Array.getD_eq_getD_getElem?]
  have hname : ∀ (i : Nat) (hi : i < m.classes.size),
      (r.underway m builtins root n fs).className (r.place i) = m.classes[i].name :=
    fun i hi => by rw [className, classAt_underway_place hi]
  rw [classNamed?, hmodule, Array.find?_map]
  congr 1
  ext i
  rw [CompiledModule.position?, Array.findIdx?_eq_some_iff_getElem, Array.find?_range_eq_some]
  simp only [Function.comp_apply, Array.mem_range]
  constructor
  · rintro ⟨hi, hlt, hfirst⟩
    refine ⟨hlt, by rwa [hname i hlt] at hi, fun j hj => ?_⟩
    have hlater := hfirst j hj
    rw [hname j (hj.trans hlt)] at hlater
    simpa using hlater
  · rintro ⟨hlt, hi, hfirst⟩
    refine ⟨by rwa [hname i hlt], hlt, fun j hj => ?_⟩
    rw [hname j (hj.trans hlt)]
    simpa using hfirst j hj

theorem classNamed?_underway (hr : r.Hierarchical) {b : ModuleId} (hb : b ≠ ⟨r.modules.size⟩) (name : String) :
    (r.underway m builtins root n fs).classNamed? b name = r.classNamed? b name := by
  rw [classNamed?, moduleAt_underway hb, classNamed?, ← Array.find?_toList, ← Array.find?_toList]
  refine List.find?_congr fun c hc => ?_
  rw [className, className, classAt_underway (hr.listed b c (Array.mem_toList_iff.1 hc))]

theorem superNamed?_underway (hr : r.Hierarchical) (name : String) :
    (r.underway m builtins root n fs).superNamed? ⟨r.modules.size⟩ builtins name =
      ((m.position? name).map r.place <|> builtins.bind fun b => r.classNamed? b name) := by
  rw [superNamed?, classNamed?_underway_self]
  cases hp : m.position? name with
  | some i => rfl
  | none =>
    cases builtins with
    | none => rfl
    | some b =>
      change (r.underway m (some b) root n fs).classNamed? b name = r.classNamed? b name
      by_cases hb : b = ⟨r.modules.size⟩
      · subst hb
        rw [classNamed?_underway_self, hp]
        simp [classNamed?, moduleAt, Array.getD_eq_getD_getElem?]
        rfl
      · exact classNamed?_underway hr hb name

/-! ## Superclasses -/

theorem getElem?_underway_new (j : Nat) : (r.underway m builtins root n fs).classes[r.classes.size + j]? =
    m.classes[j]?.map fun d =>
      { name := d.name
        module := ⟨r.modules.size⟩
        superclass := if j < n then r.superclassFor m builtins root d else some root
        fields := d.fields
        methods := r.table m fs (some (r.place j)) } := by
  rw [underway, Array.getElem?_append_right (Nat.le_add_right _ _)]
  simp

theorem eq_of_tables {r r' : Registry} (hclasses : r.classes = r'.classes) (hfunctions : r.functions = r'.functions)
    (hmodules : r.modules = r'.modules) : r = r' := by
  cases r
  cases hclasses
  cases hfunctions
  cases hmodules
  rfl

/-- The classes from before are where they were, and the module's own follow. -/
theorem ext_underway {xs ys : Array Class} (hold : ∀ j < r.classes.size, xs[j]? = ys[j]?)
    (hnew : ∀ j, xs[r.classes.size + j]? = ys[r.classes.size + j]?) : xs = ys := by
  refine Array.ext_getElem? fun j => ?_
  by_cases hj : j < r.classes.size
  · exact hold j hj
  · have := hnew (j - r.classes.size)
    rwa [Nat.add_sub_cancel' (Nat.le_of_not_lt hj)] at this

theorem underway_setSuperclass {s : ClassId} (hi : i < m.classes.size)
    (hs : r.superclassFor m builtins root m.classes[i] = some s) :
    (r.underway m builtins root i fs).setSuperclass (r.place i) s = r.underway m builtins root (i + 1) fs := by
  refine eq_of_tables (ext_underway (r := r) (fun j hj => ?_) fun j => ?_) rfl rfl
  · rw [setSuperclass, Array.getElem?_modify, if_neg (by simp [place]; omega)]
    simp [underway, Array.getElem?_append_left hj]
  · rw [setSuperclass, Array.getElem?_modify, getElem?_underway_new, getElem?_underway_new]
    by_cases hj : i = j
    · subst hj
      simp [place, hi, hs]
    · have hlt : j < i ↔ j < i + 1 := by omega
      simp [place, hj, hlt]

theorem underway_succ_of_root (hi : i < m.classes.size)
    (hs : r.superclassFor m builtins root m.classes[i] = some root) :
    r.underway m builtins root i fs = r.underway m builtins root (i + 1) fs := by
  simp only [underway, Registry.mk.injEq, and_true, Array.append_right_inj]
  refine Array.ext_getElem? fun j => ?_
  by_cases hj : i = j
  · subst hj
    simp [hi, hs]
  · have hlt : j < i ↔ j < i + 1 := by omega
    simp [hlt]

theorem wireSuperclass_underway (hr : r.Hierarchical) (hi : i < m.classes.size) :
    wireSuperclass ⟨r.modules.size⟩ builtins m.classes[i] (r.place i) (r.underway m builtins root i fs) =
      match r.superclassFor m builtins root m.classes[i] with
      | none => (.error (.unknownSuperclass m.classes[i].name (m.classes[i].superName.getD "")), r.underway m builtins root i fs)
      | some s =>
        if m.classes[i].superName.isSome ∧ (s = r.place i ∨ (r.underway m builtins root i fs).inherits s (r.place i)) then
          (.error (.inheritanceCycle m.classes[i].name), r.underway m builtins root i fs)
        else (.ok (), r.underway m builtins root (i + 1) fs) := by
  unfold wireSuperclass superclassFor
  cases hn : m.classes[i].superName with
  | none =>
    simp
    rw [← underway_succ_of_root hi]
    rfl
    simp [superclassFor, hn]
  | some name =>
    have hrun : ∀ (k : Registry → Entry Unit) (s : Registry), (get >>= k) s = k s s := fun _ _ => rfl
    simp only
    rw [hrun, superNamed?_underway hr]
    cases hs : ((m.position? name).map r.place <|> builtins.bind fun b => r.classNamed? b name) with
    | none => rfl
    | some s =>
      simp
      split
      · rfl
      · rw [← underway_setSuperclass hi (s := s)]
        rfl
        simp [superclassFor, hn, hs]

/-! ## Functions -/

theorem table_append (d : FunctionDef) (owner : Option ClassId) : r.table m (fs ++ [d]) owner =
    if r.ownerFor m d = owner then (r.table m fs owner).insert d.name ⟨r.functions.size + fs.length⟩
    else r.table m fs owner := by
  unfold table
  rw [List.zipIdx_append, List.filterMap_append]
  by_cases h : r.ownerFor m d = owner <;> simp [h, Bindings.ofList, List.foldl_append]

theorem place_of_ownerFor {d : FunctionDef} (h : r.ownerFor m d = some c) : ∃ i, c = r.place i := by
  obtain ⟨name, _, h⟩ := Option.bind_eq_some_iff.1 h
  obtain ⟨i, _, h⟩ := Option.map_eq_some_iff.1 h
  exact ⟨i, h.symm⟩

theorem underway_addFunction (d : FunctionDef) : ((r.underway m builtins root n fs).addFunction
      { name := d.name, module := ⟨r.modules.size⟩, kind := .user d.start, flags := d.flags, owner := r.ownerFor m d }).2 =
    r.underway m builtins root n (fs ++ [d]) := by
  have hflags : d.flags.union (impliedFlags (.user d.start)) = d.flags := by simp [Flags.union, impliedFlags]
  unfold addFunction
  simp only [hflags]
  cases ho : r.ownerFor m d with
  | none =>
    refine eq_of_tables ?_ ?_ ?_
    · simp [underway, table_append, ho]
    · simp [underway, ho]
    · simp [underway, table_append, ho, modify_push]
  | some c =>
    obtain ⟨i, rfl⟩ := place_of_ownerFor ho
    refine eq_of_tables (ext_underway (r := r) (fun j hj => ?_) fun j => ?_) ?_ ?_
    · rw [Array.getElem?_modify, if_neg (by simp [place]; omega)]
      simp [underway, Array.getElem?_append_left hj]
    · rw [Array.getElem?_modify, getElem?_underway_new, getElem?_underway_new]
      by_cases hj : i = j
      · subst hj
        cases hi : m.classes[i]? <;> simp [place, table_append, ho, underway]
      · have hne : (r.place i).index ≠ r.classes.size + j := by simp [place, hj]
        have hne' : r.place i ≠ r.place j := fun h => hne (congrArg ClassId.index h)
        simp [hne, hne', table_append, ho]
    · simp [underway, ho]
    · simp [underway, table_append, ho]

theorem enterFunction_underway {d : FunctionDef} (ho : d.owner.isSome → (r.ownerFor m d).isSome) :
    enterFunction ⟨r.modules.size⟩ d (r.underway m builtins root n fs) =
      (.ok (), r.underway m builtins root n (fs ++ [d])) := by
  rw [← underway_addFunction]
  unfold enterFunction
  unfold ownerFor at ho ⊢
  cases hd : d.owner with
  | none => rfl
  | some name =>
    have hrun : ∀ (k : Registry → Entry Unit) (s : Registry), (get >>= k) s = k s s := fun _ _ => rfl
    simp only
    rw [hrun, classNamed?_underway_self]
    rw [hd] at ho
    cases hp : m.position? name with
    | none => simp [hp] at ho
    | some i =>
      rw [Option.bind_some, hp]
      rfl

/-! ## The whole registration -/

theorem run_bind {α β : Type} (act : Entry α) (k : α → Entry β) (s : Registry) :
    (act >>= k) s = match act s with
      | (.ok a, s') => k a s'
      | (.error e, s') => (.error e, s') := by
  change ExceptT.bindCont k (act s).1 (act s).2 = _
  obtain ⟨result, s'⟩ := act s
  cases result <;> rfl

theorem enterFunctions_underway (ho : ∀ d ∈ m.functions, d.owner.isSome → (r.ownerFor m d).isSome) :
    ∀ (rest done : List FunctionDef), (∀ d ∈ rest, d ∈ m.functions) →
      rest.foldlM (fun _ d => enterFunction ⟨r.modules.size⟩ d) PUnit.unit (r.underway m builtins root n done) =
        (.ok ⟨⟩, r.underway m builtins root n (done ++ rest)) := by
  intro rest
  induction rest with
  | nil =>
    intro done _
    rw [List.foldlM_nil, List.append_nil]
    rfl
  | cons d rest ih =>
    intro done hmem
    rw [List.foldlM_cons, run_bind, enterFunction_underway (ho d (hmem d List.mem_cons_self))]
    rw [show done ++ d :: rest = done ++ [d] ++ rest by simp]
    exact ih (done ++ [d]) fun d' hd' => hmem d' (List.mem_cons_of_mem d hd')

theorem ownerFor_isSome {u : Unit} (hv : m.validate = .ok u) : ∀ d ∈ m.functions, d.owner.isSome → (r.ownerFor m d).isSome := by
  intro d hd ho
  obtain ⟨owner, howner⟩ := Option.isSome_iff_exists.1 ho
  obtain ⟨c, hc, hname⟩ := m.owner_of_validate hv hd howner
  have hfound : (m.position? owner).isSome := by
    rw [CompiledModule.position?, Array.findIdx?_isSome]
    exact Array.any_eq_true'.2 ⟨c, Array.mem_toList_iff.1 hc, by simpa using hname⟩
  simpa [ownerFor, howner] using hfound

theorem addModule_eq (hm : r.moduleNamed? m.name = none) :
    r.addModule m.name m.tape = .ok (⟨r.modules.size⟩, r.underway { m with classes := #[] } builtins root 0 []) := by
  unfold addModule
  rw [hm]
  have hrange : (Array.range 0).map r.place = #[] := by simp
  simp [underway, table, Bindings.ofList, hrange]

end

end Registry

end Spool
