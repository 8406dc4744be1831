import Spool.Proofs.Registry.Underway

/-!
# Which modules can be registered

Superclasses are wired one after the other, and a cycle is looked for each time, while the classes that come later are
still under the root. The order does not matter: the last wire of a cycle finds it, and a cycle that is found is one of the
definitions. So a module is registered exactly if it is well formed, its name is free, its superclasses are there and no
definition stands under itself; and then the registry has the module's tables.
-/

namespace Spool

namespace CompiledModule

variable (m : CompiledModule)

/-- The first class of the module with the name of the superclass of another. -/
def Under (d e : ClassDef) : Prop := ∃ n, d.superName = some n ∧ (m.classes.find? fun c => c.name = n) = some e

/-- The positions of the functions with an owner and a name. -/
def positions (owner : Option String) (name : String) : List Nat :=
  (m.functions.toList.zipIdx.filter fun (d, _) => d.owner = owner ∧ d.name = name).map Prod.snd

theorem validate_eq_ok {m : CompiledModule} : m.validate = .ok () ↔ m.tape.flaw? = none ∧
    (∀ d ∈ m.functions, d.start < m.tape.size ∧ ∀ owner, d.owner = some owner → ∃ c ∈ m.classes, c.name = owner) ∧
    ∀ c ∈ m.classes, c.start ≤ c.stop ∧ c.stop ≤ m.tape.size := by
  have hflaw : m.validate = .ok () ↔ m.flaw? = none := by
    unfold validate
    cases m.flaw? <;> simp
  have hfunction : ∀ d : FunctionDef, m.functionFlaw? d = none ↔
      d.start < m.tape.size ∧ ∀ owner, d.owner = some owner → ∃ c ∈ m.classes, c.name = owner := by
    intro d
    unfold functionFlaw?
    by_cases hd : d.start ≥ m.tape.size
    · simp [hd]
    · rw [if_neg hd]
      cases d.owner with
      | none => simp [Nat.lt_of_not_le hd]
      | some owner =>
        have hany : m.classes.any (fun c => c.name = owner) = true ↔ ∃ c ∈ m.classes, c.name = owner := by
          rw [Array.any_eq_true']
          simp only [decide_eq_true_eq]
        simp [← hany, Nat.lt_of_not_le hd]
  have hclass : ∀ c : ClassDef, m.classFlaw? c = none ↔ c.start ≤ c.stop ∧ c.stop ≤ m.tape.size := by
    intro c
    unfold classFlaw?
    simp
  rw [hflaw]
  simp only [flaw?, Option.orElse_eq_orElse, Option.orElse_eq_or, Option.or_eq_none_iff, List.findSome?_eq_none_iff,
    Array.mem_toList_iff, hfunction, hclass]

/-- What is asked of a module that is to be registered. -/
structure Admissible (m : CompiledModule) (builtins : Option ModuleId) (r : Registry) : Prop where
  valid : m.validate = .ok ()
  fresh : r.moduleNamed? m.name = none
  supers : ∀ d ∈ m.classes, ∀ n, d.superName = some n →
    (∃ c ∈ m.classes, c.name = n) ∨ ∃ b, builtins = some b ∧ (r.classNamed? b n).isSome
  acyclic : ∀ d, ¬ Relation.TransGen m.Under d d

/-- The same module with its classes in another order. Classes that share a name keep the first among them. -/
structure Rearranges (m' m : CompiledModule) : Prop where
  name : m'.name = m.name
  tape : m'.tape = m.tape
  functions : m'.functions = m.functions
  classes : m'.classes.toList.Perm m.classes.toList
  first : ∀ n, (m'.classes.find? fun c => c.name = n) = m.classes.find? fun c => c.name = n

theorem Rearranges.admissible {m' m : CompiledModule} (h : m'.Rearranges m) (builtins : Option ModuleId)
    (r : Registry) : m'.Admissible builtins r ↔ m.Admissible builtins r := by
  have hmem : ∀ c, c ∈ m'.classes ↔ c ∈ m.classes := fun c => by
    rw [← Array.mem_toList_iff, ← Array.mem_toList_iff, h.classes.mem_iff]
  have hunder : m'.Under = m.Under := by
    funext d e
    simp only [Under, h.first]
  have hvalid : m'.validate = .ok () ↔ m.validate = .ok () := by
    simp only [validate_eq_ok, h.tape, h.functions, hmem]
  constructor
  · rintro ⟨hv, hf, hs, hc⟩
    refine ⟨hvalid.1 hv, h.name ▸ hf, ?_, hunder ▸ hc⟩
    simpa only [hmem] using hs
  · rintro ⟨hv, hf, hs, hc⟩
    refine ⟨hvalid.2 hv, h.name ▸ hf, ?_, hunder ▸ hc⟩
    simpa only [hmem] using hs

end CompiledModule

namespace Registry

variable {r : Registry} {m : CompiledModule} {builtins : Option ModuleId} {root : ClassId} {n : Nat}
  {fs : List FunctionDef}

/-! ## Superclasses, one after the other -/

/-- Nothing is wrong with the superclass of a class when its turn comes. -/
def Fits (r : Registry) (m : CompiledModule) (builtins : Option ModuleId) (root : ClassId) (i : Nat) (d : ClassDef) : Prop :=
  ∃ s, r.superclassFor m builtins root d = some s ∧
    (d.superName.isSome → ¬ (s = r.place i ∨ (r.underway m builtins root i []).inherits s (r.place i)))

theorem wireSuperclass_of_fits (hr : r.Hierarchical) (hi : i < m.classes.size)
    (h : r.Fits m builtins root i m.classes[i]) :
    wireSuperclass ⟨r.modules.size⟩ builtins m.classes[i] (r.place i) (r.underway m builtins root i []) =
      (.ok (), r.underway m builtins root (i + 1) []) := by
  obtain ⟨s, hs, hfree⟩ := h
  rw [wireSuperclass_underway hr hi, hs]
  exact if_neg fun hb => hfree hb.1 hb.2

theorem wireSuperclass_of_not_fits (hr : r.Hierarchical) (hi : i < m.classes.size)
    (h : ¬ r.Fits m builtins root i m.classes[i]) : ∃ e s', e.Late ∧
    wireSuperclass ⟨r.modules.size⟩ builtins m.classes[i] (r.place i) (r.underway m builtins root i []) = (.error e, s') := by
  rw [wireSuperclass_underway hr hi]
  cases hs : r.superclassFor m builtins root m.classes[i] with
  | none => exact ⟨_, _, .unknownSuperclass _ _, rfl⟩
  | some s =>
    dsimp only
    by_cases hb : m.classes[i].superName.isSome ∧
        (s = r.place i ∨ (r.underway m builtins root i []).inherits s (r.place i))
    · rw [if_pos hb]
      exact ⟨_, _, .inheritanceCycle _, rfl⟩
    · exact absurd ⟨s, hs, fun hn hbad => hb ⟨hn, hbad⟩⟩ h

/-- The superclasses of the classes from a position on. -/
def wireFrom (r : Registry) (m : CompiledModule) (builtins : Option ModuleId) (i : Nat) : Entry PUnit :=
  ((m.classes.toList.drop i).zip ((List.range' i (m.classes.size - i)).map r.place)).foldlM
    (fun _ x => wireSuperclass ⟨r.modules.size⟩ builtins x.1 x.2) ⟨⟩

theorem wireFrom_succ (hi : i < m.classes.size) : r.wireFrom m builtins i = (do
    wireSuperclass ⟨r.modules.size⟩ builtins m.classes[i] (r.place i)
    r.wireFrom m builtins (i + 1)) := by
  have hdrop : m.classes.toList.drop i = m.classes[i] :: m.classes.toList.drop (i + 1) := by
    rw [List.drop_eq_getElem_cons (by simpa using hi)]
    simp
  have hrange : List.range' i (m.classes.size - i) = i :: List.range' (i + 1) (m.classes.size - (i + 1)) := by
    rw [show m.classes.size - i = m.classes.size - (i + 1) + 1 by omega, List.range'_succ]
  rw [wireFrom, hdrop, hrange, List.map_cons, List.zip_cons_cons, List.foldlM_cons]
  rfl

/-- The classes get their superclasses one after the other, up to the first that does not fit. -/
theorem wireFrom_underway (hr : r.Hierarchical) (hi : i ≤ m.classes.size) :
    (r.wireFrom m builtins i (r.underway m builtins root i []) = (.ok ⟨⟩, r.underway m builtins root m.classes.size []) ∧
      ∀ j (hj : j < m.classes.size), i ≤ j → r.Fits m builtins root j m.classes[j]) ∨
    (∃ e s', e.Late ∧ r.wireFrom m builtins i (r.underway m builtins root i []) = (.error e, s')) ∧
      ∃ j, ∃ hj : j < m.classes.size, ¬ r.Fits m builtins root j m.classes[j] := by
  induction hn : m.classes.size - i generalizing i with
  | zero =>
    have he : i = m.classes.size := by omega
    subst he
    refine .inl ⟨?_, fun j hj hle => absurd hj (Nat.not_lt.2 hle)⟩
    have hdone : m.classes.toList.drop m.classes.size = [] := by simp
    rw [wireFrom, hdone, List.zip_nil_left, List.foldlM_nil]
    rfl
  | succ k ih =>
    have hlt : i < m.classes.size := by omega
    rw [wireFrom_succ hlt, run_bind]
    by_cases hfits : r.Fits m builtins root i m.classes[i]
    · rw [wireSuperclass_of_fits hr hlt hfits]
      refine (ih hlt (by omega)).imp_left fun h => ⟨h.1, fun j hj hle => ?_⟩
      rcases Nat.eq_or_lt_of_le hle with rfl | hlater
      · exact hfits
      · exact h.2 j hj hlater
    · obtain ⟨e, s', hlate, hwire⟩ := wireSuperclass_of_not_fits hr hlt hfits
      rw [hwire]
      exact .inr ⟨⟨e, s', hlate, rfl⟩, i, hlt, hfits⟩

theorem register_eq {u : Unit} (hv : m.validate = .ok u) (hm : r.moduleNamed? m.name = none) :
    register m builtins root r = (do
      r.wireFrom m builtins 0
      m.functions.toList.foldlM (fun _ d => enterFunction ⟨r.modules.size⟩ d) PUnit.unit
      return ⟨r.modules.size⟩ : Entry ModuleId) (r.underway m builtins root 0 []) := by
  rw [register_of_addModule hv (@addModule_eq r m builtins root hm), enterClasses_underway]
  simp [enterMembers, wireFrom]

/-- How a registration ends, and why. -/
inductive Outcome (m : CompiledModule) (builtins : Option ModuleId) (root : ClassId) (r : Registry) :
    Except HostError ModuleId × Registry → Prop
  | refused {e : HostError} {r' : Registry} : m.validate = .error e → Outcome m builtins root r (.error e, r')
  | duplicate {id : ModuleId} {r' : Registry} : m.validate = .ok () → r.moduleNamed? m.name = some id →
      Outcome m builtins root r (.error (.duplicateModule m.name), r')
  | broken {e : HostError} {r' : Registry} {i : Nat} (hi : i < m.classes.size) : m.validate = .ok () →
      r.moduleNamed? m.name = none → ¬ r.Fits m builtins root i m.classes[i] → e.Late →
      Outcome m builtins root r (.error e, r')
  | complete : m.validate = .ok () → r.moduleNamed? m.name = none →
      (∀ i (hi : i < m.classes.size), r.Fits m builtins root i m.classes[i]) →
      Outcome m builtins root r (.ok ⟨r.modules.size⟩, r.underway m builtins root m.classes.size m.functions.toList)

theorem outcome_register (hr : r.Hierarchical) : Outcome m builtins root r (register m builtins root r) := by
  cases hv : m.validate with
  | error e =>
    rw [register_of_validate_error hv]
    exact .refused hv
  | ok u =>
    cases hm : r.moduleNamed? m.name with
    | some id =>
      have hadd : r.addModule m.name m.tape = .error (.duplicateModule m.name) := by
        unfold addModule
        rw [hm]
      rw [register_of_addModule_error hv hadd]
      exact .duplicate hv hm
    | none =>
      rw [register_eq hv hm, run_bind]
      rcases @wireFrom_underway r m builtins root 0 hr (Nat.zero_le _) with
        ⟨hwire, hfits⟩ | ⟨⟨e, s', hlate, hwire⟩, i, hi, hbad⟩
      · rw [hwire]
        dsimp only
        rw [run_bind, enterFunctions_underway (ownerFor_isSome hv) _ _ fun d hd => Array.mem_toList_iff.1 hd]
        exact .complete hv hm fun i hi => hfits i hi (Nat.zero_le i)
      · rw [hwire]
        exact .broken hi hv hm hbad hlate

/-! ## Cycles -/

theorem place_inj {i j : Nat} (h : r.place i = r.place j) : i = j := by
  have := congrArg ClassId.index h
  simpa [place] using this

theorem not_contains_place (r : Registry) (i : Nat) : ¬ r.Contains (r.place i) := Nat.not_lt.2 (Nat.le_add_right _ _)

/-- A class of the module comes to stand only under the one that its definition means. -/
theorem under_of_superclassFor (hr : r.Hierarchical) (hroot : r.Contains root) {d : ClassDef} {j : Nat}
    (h : r.superclassFor m builtins root d = some (r.place j)) : ∃ e, m.classes[j]? = some e ∧ m.Under d e := by
  unfold superclassFor at h
  split at h
  · cases h
    exact absurd hroot (r.not_contains_place j)
  · rename_i name hname
    rw [Option.orElse_eq_orElse, Option.orElse_eq_or, Option.or_eq_some_iff] at h
    rcases h with h | ⟨_, h⟩
    · obtain ⟨j', hp, hj⟩ := Option.map_eq_some_iff.1 h
      cases place_inj hj
      obtain ⟨e, he, _, hfind⟩ := CompiledModule.getElem?_of_position? hp
      exact ⟨e, he, name, hname, hfind⟩
    · obtain ⟨b, _, h⟩ := Option.bind_eq_some_iff.1 h
      exact absurd (classNamed?_contains hr h) (r.not_contains_place j)

theorem superclassFor_of_under {d e : ClassDef} (h : m.Under d e) :
    ∃ j, m.position? e.name = some j ∧ m.classes[j]? = some e ∧ r.superclassFor m builtins root d = some (r.place j) := by
  obtain ⟨name, hname, hfind⟩ := h
  obtain ⟨j, hj, he, rfl⟩ := CompiledModule.position?_of_find? hfind
  refine ⟨j, hj, he, ?_⟩
  simp [superclassFor, hname, hj]

/-- Whoever stands under a class of the module is a class of the module too. -/
theorem under_of_extends (hr : r.Hierarchical) (hroot : r.Contains root) {x : ClassId} {j : Nat}
    (h : (r.underway m builtins root n fs).Extends x (r.place j)) :
    ∃ i d e, x = r.place i ∧ m.classes[i]? = some d ∧ m.classes[j]? = some e ∧ m.Under d e := by
  by_cases hx : r.Contains x
  · unfold Extends at h
    rw [classAt_underway hx] at h
    exact absurd (hr.closed x _ h) (r.not_contains_place j)
  · obtain ⟨i, rfl⟩ : ∃ i, x = r.place i :=
      ⟨x.index - r.classes.size, congrArg ClassId.mk (Nat.add_sub_cancel' (Nat.le_of_not_lt hx)).symm⟩
    by_cases hi : i < m.classes.size
    · unfold Extends at h
      rw [classAt_underway_place hi] at h
      dsimp only at h
      split at h
      · obtain ⟨e, he, hunder⟩ := under_of_superclassFor hr hroot h
        exact ⟨i, _, e, rfl, by simp [hi], he, hunder⟩
      · cases h
        exact absurd hroot (r.not_contains_place j)
    · have hc := h.contains
      simp [Contains, underway, place] at hc
      omega

/-- A way up to a class of the module leads through the classes of the module alone. -/
theorem under_of_reflTransGen (hr : r.Hierarchical) (hroot : r.Contains root) {x : ClassId} {j : Nat} {e : ClassDef}
    (he : m.classes[j]? = some e) (h : Relation.ReflTransGen (r.underway m builtins root n fs).Extends x (r.place j)) :
    ∃ i d, x = r.place i ∧ m.classes[i]? = some d ∧ Relation.ReflTransGen m.Under d e := by
  induction h using Relation.ReflTransGen.head_induction_on with
  | refl => exact ⟨j, e, rfl, he, .refl⟩
  | head hxy _ ih =>
    obtain ⟨i, d, rfl, hd, hup⟩ := ih
    obtain ⟨i', d', d'', rfl, hd', hd'', hunder⟩ := under_of_extends hr hroot hxy
    cases hd''.symm.trans hd
    exact ⟨i', d', rfl, hd', .head hunder hup⟩

theorem fits_of_acyclic (hr : r.Hierarchical) (hroot : r.Contains root) (hi : i < m.classes.size)
    (hw : (r.underway m builtins root i []).Hierarchical) (hsome : (r.superclassFor m builtins root m.classes[i]).isSome)
    (hcycle : ∀ d, ¬ Relation.TransGen m.Under d d) : r.Fits m builtins root i m.classes[i] := by
  obtain ⟨s, hs⟩ := Option.isSome_iff_exists.1 hsome
  refine ⟨s, hs, fun _ hbad => ?_⟩
  have hup : Relation.ReflTransGen (r.underway m builtins root i []).Extends s (r.place i) := by
    rcases hbad with rfl | hbad
    · exact .refl
    · exact hw.inherits_iff.1 hbad
  obtain ⟨j, d, rfl, hd, hdi⟩ := under_of_reflTransGen hr hroot (Array.getElem?_eq_getElem hi) hup
  obtain ⟨e, he, hunder⟩ := under_of_superclassFor hr hroot hs
  cases he.symm.trans hd
  exact hcycle _ (.head' hunder hdi)

theorem hierarchical_underway (hr : r.Hierarchical) (hroot : r.Contains root) (hm : r.moduleNamed? m.name = none) :
    ∀ i ≤ m.classes.size, (∀ j (hj : j < m.classes.size), j < i → r.Fits m builtins root j m.classes[j]) →
      (r.underway m builtins root i []).Hierarchical := by
  intro i
  induction i with
  | zero =>
    intro _ _
    have hempty : (r.underway { m with classes := #[] } builtins root 0 []).Hierarchical := hr.addModule (addModule_eq hm)
    have hentered := hierarchical_enterClasses ⟨r.modules.size⟩ root m.classes.toList _ hempty
      (by simpa [Contains, underway] using hroot)
    rw [enterClasses_underway] at hentered
    simpa using hentered
  | succ i ih =>
    intro hi hfits
    have hstep := hierarchical_wireSuperclass ⟨r.modules.size⟩ builtins m.classes[i] (r.place i) _
      (ih (Nat.le_of_succ_le hi) fun j hj hlt => hfits j hj (Nat.lt_succ_of_lt hlt))
    rw [wireSuperclass_of_fits hr hi (hfits i hi (Nat.lt_succ_self i))] at hstep
    exact hstep

theorem extends_of_under {d e : ClassDef} {i : Nat} (hd : m.classes[i]? = some d) (h : m.Under d e) :
    ∃ j, m.position? e.name = some j ∧ m.classes[j]? = some e ∧
      (r.underway m builtins root m.classes.size fs).Extends (r.place i) (r.place j) := by
  obtain ⟨j, hj, he, hs⟩ := @superclassFor_of_under r m builtins root _ _ h
  obtain ⟨hi, rfl⟩ := Array.getElem?_eq_some_iff.1 hd
  refine ⟨j, hj, he, ?_⟩
  unfold Extends
  rw [classAt_underway_place hi]
  exact (if_pos hi).trans hs

theorem transGen_extends_of_under {d e : ClassDef} {i : Nat} (hd : m.classes[i]? = some d)
    (h : Relation.TransGen m.Under d e) : ∃ j, m.position? e.name = some j ∧ m.classes[j]? = some e ∧
      Relation.TransGen (r.underway m builtins root m.classes.size fs).Extends (r.place i) (r.place j) := by
  induction h with
  | single hde =>
    obtain ⟨j, hj, he, hext⟩ := extends_of_under hd hde
    exact ⟨j, hj, he, .single hext⟩
  | tail _ hyz ih =>
    obtain ⟨j, _, hy, hup⟩ := ih
    obtain ⟨k, hk, hz, hext⟩ := extends_of_under hy hyz
    exact ⟨k, hk, hz, hup.tail hext⟩

theorem acyclic_under (hw : (r.underway m builtins root m.classes.size fs).Acyclic) (d : ClassDef) :
    ¬ Relation.TransGen m.Under d d := by
  intro h
  -- the class is the first of its name, since another stands under it
  obtain ⟨e, _, hed⟩ := Relation.TransGen.tail'_iff.1 h
  obtain ⟨i, hi, hd, _⟩ := @superclassFor_of_under r m builtins root _ _ hed
  obtain ⟨j, hj, _, hup⟩ := @transGen_extends_of_under r m builtins root fs _ _ _ hd h
  cases hi.symm.trans hj
  exact hw _ hup

theorem superclassFor_isSome_iff {d : ClassDef} : (r.superclassFor m builtins root d).isSome ↔ ∀ n, d.superName = some n →
    (∃ c ∈ m.classes, c.name = n) ∨ ∃ b, builtins = some b ∧ (r.classNamed? b n).isSome := by
  unfold superclassFor
  cases hd : d.superName with
  | none => simp
  | some name =>
    have hfound : (m.position? name).isSome ↔ ∃ c ∈ m.classes, c.name = name := by
      rw [CompiledModule.position?, Array.findIdx?_isSome, Array.any_eq_true']
      simp only [decide_eq_true_eq]
    simp only [Option.orElse_eq_orElse, Option.orElse_eq_or, Option.isSome_or, Option.isSome_map, Option.isSome_bind,
      Bool.or_eq_true, hfound, Option.some.injEq, forall_eq']
    cases builtins <;> simp

theorem admissible_iff_fits (hr : r.Hierarchical) (hroot : r.Contains root) (hv : m.validate = .ok ())
    (hm : r.moduleNamed? m.name = none) :
    m.Admissible builtins r ↔ ∀ i (hi : i < m.classes.size), r.Fits m builtins root i m.classes[i] := by
  constructor
  · intro h i hi
    induction i using Nat.strong_induction_on with
    | _ i ih =>
      refine fits_of_acyclic hr hroot hi (hierarchical_underway hr hroot hm i (Nat.le_of_lt hi) fun j hj hlt => ih j hlt hj) ?_
        h.acyclic
      exact superclassFor_isSome_iff.2 (h.supers _ (Array.getElem_mem hi))
  · intro h
    refine ⟨hv, hm, fun d hd => ?_, @acyclic_under r m builtins root [] ?_⟩
    · obtain ⟨i, hi, rfl⟩ := Array.mem_iff_getElem.1 hd
      obtain ⟨s, hs, _⟩ := h i hi
      exact superclassFor_isSome_iff.1 (Option.isSome_of_eq_some hs)
    · exact (hierarchical_underway hr hroot hm m.classes.size (Nat.le_refl _) fun j hj _ => h j hj).acyclic

/-! ## Tables -/

theorem get?_ofList {κ ν : Type} [DecidableEq κ] (entries : List (κ × ν)) (k : κ) :
    (Bindings.ofList entries).get? k = ((entries.filter fun e => e.1 = k).getLast?).map Prod.snd := by
  induction entries using List.reverseRecOn with
  | nil => rfl
  | append_singleton entries e ih =>
    have hstep : Bindings.ofList (entries ++ [e]) = (Bindings.ofList entries).insert e.1 e.2 := by
      simp [Bindings.ofList, List.foldl_append]
    rw [hstep, Bindings.get?_insert, ih, List.filter_append]
    by_cases h : e.1 = k <;> simp [h]

theorem get?_table {owner : Option ClassId} {name : String} {o : Option String}
    (ho : ∀ d ∈ m.functions, r.ownerFor m d = owner ↔ d.owner = o) :
    (r.table m m.functions.toList owner).get? name = (m.positions o name).getLast?.map fun k => ⟨r.functions.size + k⟩ := by
  have hentries : (m.functions.toList.zipIdx.filterMap fun (d, k) =>
        if r.ownerFor m d = owner then some (d.name, (⟨r.functions.size + k⟩ : FunctionId)) else none).filter
        (fun e => e.1 = name) =
      (m.functions.toList.zipIdx.filter fun (d, _) => d.owner = o ∧ d.name = name).map
        fun (d, k) => (d.name, ⟨r.functions.size + k⟩) := by
    rw [List.filter_filterMap, ← List.filterMap_eq_map', ← List.filterMap_eq_filter, List.filterMap_filterMap]
    refine List.filterMap_congr fun x hx => ?_
    have howner := ho x.1 (Array.mem_toList_iff.1 (List.fst_mem_of_mem_zipIdx hx))
    by_cases h : x.1.owner = o <;> by_cases hname : x.1.name = name <;> simp [howner, h, hname, Option.guard]
  rw [table, get?_ofList, hentries, CompiledModule.positions, List.getLast?_map, List.getLast?_map, Option.map_map,
    Option.map_map]
  rfl

theorem table_of_ne {fs : List FunctionDef} {owner : Option ClassId} (ho : ∀ d ∈ fs, r.ownerFor m d ≠ owner) :
    r.table m fs owner = {} := by
  have hentries : (fs.zipIdx.filterMap fun (d, k) =>
      if r.ownerFor m d = owner then some (d.name, (⟨r.functions.size + k⟩ : FunctionId)) else none) = [] := by
    refine List.filterMap_eq_nil_iff.2 fun x hx => ?_
    exact if_neg (ho x.1 (List.fst_mem_of_mem_zipIdx hx))
  rw [table, hentries]
  rfl

/-- What a registered module leaves in a registry. -/
structure Mirrors (m : CompiledModule) (builtins : Option ModuleId) (root : ClassId) (r : Registry) (module : ModuleId)
    (r' : Registry) : Prop where
  identity : module = ⟨r.modules.size⟩
  modules : r'.modules = r.modules.push (r'.moduleAt module)
  named : (r'.moduleAt module).name = m.name ∧ (r'.moduleAt module).tape = m.tape
  listed : (r'.moduleAt module).classes = (Array.range m.classes.size).map r.place
  free : ∀ name, (r'.moduleAt module).functions.get? name =
    (m.positions none name).getLast?.map fun k => ⟨r.functions.size + k⟩
  size : r'.classes.size = r.classes.size + m.classes.size
  old : ∀ c, r.Contains c → r'.classAt c = r.classAt c
  classes : ∀ i d, m.classes[i]? = some d → (r'.classAt (r.place i)).name = d.name ∧
    (r'.classAt (r.place i)).module = module ∧ (r'.classAt (r.place i)).fields = d.fields ∧
    (r'.classAt (r.place i)).hooks = {} ∧ (r'.classAt (r.place i)).superclass = r.superclassFor m builtins root d
  methods : ∀ i d name, m.classes[i]? = some d → r'.ownMethod? (r.place i) name =
    if m.position? d.name = some i then (m.positions (some d.name) name).getLast?.map fun k => ⟨r.functions.size + k⟩
    else none
  functions : r'.functions = r.functions ++ m.functions.map fun d =>
    { name := d.name, module, kind := .user d.start, flags := d.flags, owner := r.ownerFor m d }

theorem ownerFor_eq_place {d : FunctionDef} {i : Nat} {c : ClassDef} (hc : m.classes[i]? = some c)
    (hi : m.position? c.name = some i) : r.ownerFor m d = some (r.place i) ↔ d.owner = some c.name := by
  unfold ownerFor
  constructor
  · intro h
    obtain ⟨name, hname, h⟩ := Option.bind_eq_some_iff.1 h
    obtain ⟨j, hj, hplace⟩ := Option.map_eq_some_iff.1 h
    cases place_inj hplace
    obtain ⟨c', hc', rfl, _⟩ := CompiledModule.getElem?_of_position? hj
    cases hc.symm.trans hc'
    exact hname
  · intro h
    simp [h, hi]

theorem ownerFor_ne_place {d : FunctionDef} {i : Nat} {c : ClassDef} (hc : m.classes[i]? = some c)
    (hi : m.position? c.name ≠ some i) : r.ownerFor m d ≠ some (r.place i) := by
  unfold ownerFor
  intro h
  obtain ⟨name, _, h⟩ := Option.bind_eq_some_iff.1 h
  obtain ⟨j, hj, hplace⟩ := Option.map_eq_some_iff.1 h
  cases place_inj hplace
  obtain ⟨c', hc', rfl, _⟩ := CompiledModule.getElem?_of_position? hj
  cases hc.symm.trans hc'
  exact hi hj

theorem mirrors_underway {u : Unit} (hv : m.validate = .ok u) : Mirrors m builtins root r ⟨r.modules.size⟩
    (r.underway m builtins root m.classes.size m.functions.toList) := by
  have hmodule : (r.underway m builtins root m.classes.size m.functions.toList).moduleAt ⟨r.modules.size⟩ =
      { name := m.name, tape := m.tape, classes := (Array.range m.classes.size).map r.place,
        functions := r.table m m.functions.toList none } := by
    simp [moduleAt, underway, Array.getD_eq_getD_getElem?]
  constructor
  case identity => rfl
  case modules => rw [hmodule]; rfl
  case named => rw [hmodule]; exact ⟨rfl, rfl⟩
  case listed => rw [hmodule]
  case free =>
    intro name
    rw [hmodule]
    refine get?_table fun d hd => ?_
    cases ho : d.owner with
    | none => simp [ownerFor, ho]
    | some owner =>
      have hsome := ownerFor_isSome (r := r) hv d hd (by simp [ho])
      simp [Option.ne_none_iff_isSome.2 hsome]
  case size => simp [underway]
  case old => exact fun c hc => classAt_underway hc
  case classes =>
    intro i d hd
    obtain ⟨hi, rfl⟩ := Array.getElem?_eq_some_iff.1 hd
    rw [classAt_underway_place hi]
    exact ⟨rfl, rfl, rfl, rfl, if_pos hi⟩
  case methods =>
    intro i d name hd
    obtain ⟨hi, rfl⟩ := Array.getElem?_eq_some_iff.1 hd
    rw [ownMethod?, classAt_underway_place hi]
    by_cases hp : m.position? m.classes[i].name = some i
    · rw [if_pos hp]
      exact get?_table fun d' _ => ownerFor_eq_place hd hp
    · rw [if_neg hp, table_of_ne fun d' _ => ownerFor_ne_place hd hp]
      rfl
  case functions =>
    rw [underway, ← Array.toList_map, Array.toArray_toList]

/-! ## The theorem -/

theorem register_ok_iff (hr : r.Hierarchical) (hroot : r.Contains root) :
    (∃ module, (register m builtins root r).1 = .ok module) ↔ m.Admissible builtins r := by
  have hend := @outcome_register r m builtins root hr
  generalize register m builtins root r = ending at hend ⊢
  cases hend with
  | refused hv => exact ⟨fun ⟨_, hok⟩ => (nomatch hok), fun h => nomatch hv.symm.trans h.valid⟩
  | duplicate hv hm => exact ⟨fun ⟨_, hok⟩ => (nomatch hok), fun h => nomatch hm.symm.trans h.fresh⟩
  | broken hi hv hm hbad hlate =>
    exact ⟨fun ⟨_, hok⟩ => (nomatch hok), fun h => absurd ((admissible_iff_fits hr hroot hv hm).1 h _ hi) hbad⟩
  | complete hv hm hfits => exact ⟨fun _ => (admissible_iff_fits hr hroot hv hm).2 hfits, fun _ => ⟨_, rfl⟩⟩

theorem register_ne_malformed (hr : r.Hierarchical) (hvalid : m.validate = .ok ()) (reason : String) :
    (register m builtins root r).1 ≠ .error (.malformedModule reason) := by
  have hend := @outcome_register r m builtins root hr
  generalize register m builtins root r = ending at hend ⊢
  cases hend with
  | refused hv => exact nomatch hv.symm.trans hvalid
  | duplicate _ _ => exact fun h => nomatch h
  | broken _ _ _ _ hlate =>
    intro h
    cases h
    cases hlate
  | complete _ _ _ => exact fun h => nomatch h

theorem mirrors_register (hr : r.Hierarchical) {module : ModuleId} (hok : (register m builtins root r).1 = .ok module) :
    Mirrors m builtins root r module (register m builtins root r).2 := by
  have hend := @outcome_register r m builtins root hr
  generalize register m builtins root r = ending at hend hok ⊢
  cases hend with
  | refused _ | duplicate _ _ | broken _ _ _ _ _ => cases hok
  | complete hv _ _ =>
    cases hok
    exact mirrors_underway hv

/-- A module can be registered exactly if it passes the check, its name is free, its superclasses are classes of its own
or of the builtins, and none of its definitions stands under itself; in which order they come makes no difference. The
class of a method is always found. A module that has been registered has the tables it was compiled with: the classes with
their fields and superclasses, and with the last of the methods of each name at the first class of theirs. -/
theorem register_exact {r : Registry} (hr : r.Grown) {root : ClassId} (hroot : r.Contains root) (m : CompiledModule)
    (builtins : Option ModuleId) :
    ((∃ module, (register m builtins root r).1 = .ok module) ↔ m.Admissible builtins r) ∧
    (∀ m' : CompiledModule, m'.Rearranges m → ((∃ module, (register m' builtins root r).1 = .ok module) ↔
      ∃ module, (register m builtins root r).1 = .ok module)) ∧
    (m.validate = .ok () → ∀ reason, (register m builtins root r).1 ≠ .error (.malformedModule reason)) ∧
    ∀ module, (register m builtins root r).1 = .ok module →
      Mirrors m builtins root r module (register m builtins root r).2 := by
  have hh := hr.hierarchical
  refine ⟨register_ok_iff hh hroot, fun m' hm' => ?_, fun hv => register_ne_malformed hh hv, fun _ => mirrors_register hh⟩
  rw [register_ok_iff hh hroot, register_ok_iff hh hroot]
  exact hm'.admissible builtins r

/-- Two classes have one name, and each class stands under one that comes later or before. -/
def twins : CompiledModule :=
  { name := "twins"
    tape := { instructions := #[⟨.nop, .none⟩, ⟨.ret, .none⟩] }
    functions := #[{ name := "area", start := 0, owner := some "Square" }, { name := "main", start := 0 },
      { name := "area", start := 1, owner := some "Square" }]
    classes := #[{ name := "Square", superName := some "Shape", start := 0, stop := 1 },
      { name := "Square", superName := some "Square", fields := ["side"], start := 0, stop := 1 },
      { name := "Shape", superName := some "Array", start := 0, stop := 1 }] }

/-- The same classes, the last one first, and with one more that closes a cycle. -/
def knot : CompiledModule :=
  { twins with
    classes := #[{ name := "Array", superName := some "Square", start := 0, stop := 1 },
      { name := "Shape", superName := some "Array", start := 0, stop := 1 },
      { name := "Square", superName := some "Shape", start := 0, stop := 1 },
      { name := "Square", superName := some "Square", fields := ["side"], start := 0, stop := 1 }] }

theorem register_exact_twins : initial.Grown ∧ initial.Contains .object ∧ twins.Admissible (some .builtins) initial ∧
    ¬ knot.Admissible (some .builtins) initial ∧
    Mirrors twins (some .builtins) .object initial ⟨1⟩ (register twins (some .builtins) .object initial).2 := by
  have hroot : initial.Contains .object := by decide +kernel
  obtain ⟨haccept, _, _, hmirrors⟩ := register_exact grown_initial hroot twins (some .builtins)
  have hmodule : (register twins (some .builtins) .object initial).1.toOption = some ⟨1⟩ := by decide +kernel
  have hrefused : (register knot (some .builtins) .object initial).1.toOption = none := by decide +kernel
  have hok : (register twins (some .builtins) .object initial).1 = .ok ⟨1⟩ := by
    cases h : (register twins (some .builtins) .object initial).1 with
    | error e => rw [h] at hmodule; cases hmodule
    | ok id => rw [h] at hmodule; cases hmodule; rfl
  refine ⟨grown_initial, hroot, haccept.1 ⟨_, hok⟩, fun hknot => ?_, hmirrors _ hok⟩
  obtain ⟨id, hid⟩ := (register_exact grown_initial hroot knot (some .builtins)).1.2 hknot
  rw [hid] at hrefused
  cases hrefused

end Registry

end Spool
