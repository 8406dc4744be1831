import Mathlib.Data.List.Chain
import Mathlib.Data.List.Nodup
import Mathlib.Data.List.Perm.Subperm
import Mathlib.Logic.Relation
import Spool.Proofs.Registry.Calm

/-!
# The class hierarchy

A class may get another superclass at any time, and the classes of a module get theirs one after the other, while other
classes of the module are still under the root. Each of these changes is made only if the class is not above its new
superclass. So there is never a cycle, and the chain of a class, on which methods are looked up, is the whole way up.
-/

namespace Spool

namespace Registry

variable {r r' : Registry} {c s a b x y : ClassId} {name : String} {l : List ClassId}

def Contains (r : Registry) (c : ClassId) : Prop := c.index < r.classes.size

instance (r : Registry) (c : ClassId) : Decidable (r.Contains c) := inferInstanceAs (Decidable (c.index < r.classes.size))

/-- The second class is the superclass of the first. -/
def Extends (r : Registry) (c s : ClassId) : Prop := (r.classAt c).superclass = some s

/-- No class is above itself. -/
def Acyclic (r : Registry) : Prop := ∀ c, ¬ Relation.TransGen r.Extends c c

/-- A walk from class to superclass that has come to its end, and the classes it has passed. Nothing bounds its length. -/
inductive Ascent (r : Registry) : ClassId → List ClassId → Prop where
  | top {c : ClassId} : (r.classAt c).superclass = none → Ascent r c [c]
  | up {c s : ClassId} {l : List ClassId} : r.Extends c s → Ascent r s l → Ascent r c (c :: l)

/-- What a method's name stands for in a class: its own method, or else whatever the name stands for in the superclass. -/
inductive Means (r : Registry) (name : String) : ClassId → Option FunctionId → Prop where
  | own {c : ClassId} {f : FunctionId} : r.ownMethod? c name = some f → Means r name c (some f)
  | inherited {c s : ClassId} {f : Option FunctionId} : r.ownMethod? c name = none → r.Extends c s → Means r name s f →
      Means r name c f
  | nothing {c : ClassId} : r.ownMethod? c name = none → (r.classAt c).superclass = none → Means r name c none

theorem superclass_of_not_contains (h : ¬ r.Contains c) : (r.classAt c).superclass = none := by
  have hnone : r.classes[c.index]? = none := Array.getElem?_eq_none (Nat.le_of_not_lt h)
  simp [classAt, Array.getD_eq_getD_getElem?, hnone]
  rfl

theorem Extends.contains (h : r.Extends c s) : r.Contains c := by
  by_contra hc
  cases (superclass_of_not_contains hc).symm.trans h

/-! ## Chains -/

theorem chainFrom_succ_of_extends (h : r.Extends c s) (fuel : Nat) : r.chainFrom (fuel + 1) c = c :: r.chainFrom fuel s := by
  rw [chainFrom, show (r.classAt c).superclass = some s from h]

theorem chainFrom_succ_of_top (h : (r.classAt c).superclass = none) (fuel : Nat) : r.chainFrom (fuel + 1) c = [c] := by
  rw [chainFrom, h]

theorem isChain_chainFrom (r : Registry) (fuel : Nat) : ∀ c, (r.chainFrom fuel c).IsChain r.Extends ∧
    ∀ d ∈ (r.chainFrom fuel c).head?, d = c := by
  induction fuel with
  | zero => exact fun c => ⟨.nil, fun d hd => nomatch hd⟩
  | succ fuel ih =>
      intro c
      cases hc : (r.classAt c).superclass with
      | none =>
          rw [chainFrom_succ_of_top hc]
          exact ⟨.singleton c, by simp⟩
      | some s =>
          rw [chainFrom_succ_of_extends hc]
          obtain ⟨hchain, hhead⟩ := ih s
          refine ⟨List.isChain_cons.2 ⟨fun d hd => ?_, hchain⟩, by simp⟩
          rw [hhead d hd]
          exact hc

/-- A chain is the whole way up, or as long as it may be. -/
theorem ascent_or_length (r : Registry) (fuel : Nat) : ∀ c, r.Ascent c (r.chainFrom fuel c) ∨
    (r.chainFrom fuel c).length = fuel := by
  induction fuel with
  | zero => exact fun c => .inr rfl
  | succ fuel ih =>
      intro c
      cases hc : (r.classAt c).superclass with
      | none =>
          rw [chainFrom_succ_of_top hc]
          exact .inl (.top hc)
      | some s =>
          rw [chainFrom_succ_of_extends hc]
          exact (ih s).imp (.up hc) (congrArg Nat.succ)

theorem Acyclic.nodup (hr : r.Acyclic) (h : l.IsChain r.Extends) : l.Nodup := by
  have hpairs : l.Pairwise (Relation.TransGen r.Extends) :=
    List.isChain_iff_pairwise.1 (h.imp fun _ _ => Relation.TransGen.single)
  refine hpairs.imp fun {x y} hxy heq => ?_
  exact hr x (heq ▸ hxy)

/-- The registry has no cycle, and no class is put under one that is not there. -/
structure Hierarchical (r : Registry) : Prop where
  acyclic : r.Acyclic
  closed : ∀ c s, r.Extends c s → r.Contains s
  listed : ∀ (m : ModuleId) c, c ∈ (r.moduleAt m).classes → r.Contains c

theorem Hierarchical.length_le (hr : r.Hierarchical) (h : l.IsChain r.Extends) (hl : ∀ d ∈ l.head?, r.Contains d) :
    l.length ≤ r.classes.size := by
  have hall : ∀ d ∈ l, r.Contains d := by
    cases l with
    | nil => simp
    | cons d rest =>
        intro e he
        rcases List.mem_cons.1 he with rfl | he
        · exact hl _ rfl
        · obtain ⟨i, hi, rfl⟩ := List.mem_iff_getElem.1 he
          exact hr.closed _ _ (List.isChain_iff_getElem.1 h i (by simpa using hi))
  have hnodup : (l.map ClassId.index).Nodup :=
    List.Nodup.map (fun _ _ heq => congrArg ClassId.mk heq) (hr.acyclic.nodup h)
  have hsub : l.map ClassId.index ⊆ List.range r.classes.size := by
    intro i hi
    obtain ⟨d, hd, rfl⟩ := List.mem_map.1 hi
    exact List.mem_range.2 (hall d hd)
  simpa using (List.subperm_of_subset hnodup hsub).length_le

theorem Hierarchical.length_chain_le (hr : r.Hierarchical) (hc : r.Contains c) : (r.chain c).length ≤ r.classes.size := by
  obtain ⟨hchain, hhead⟩ := r.isChain_chainFrom (r.classes.size + 1) c
  exact hr.length_le hchain fun d hd => hhead d hd ▸ hc

/-- The walk up from a class ends, and the chain is what it has passed. -/
theorem Hierarchical.ascent (hr : r.Hierarchical) (c : ClassId) : r.Ascent c (r.chain c) := by
  rcases r.ascent_or_length (r.classes.size + 1) c with h | h
  · exact h
  · by_cases hc : r.Contains c
    · have hle := hr.length_chain_le hc
      have heq : (r.chain c).length = r.classes.size + 1 := h
      omega
    · have htop := superclass_of_not_contains hc
      rw [chain, chainFrom_succ_of_top htop]
      exact .top htop

theorem Ascent.unique {l' : List ClassId} (h : r.Ascent c l) (h' : r.Ascent c l') : l = l' := by
  induction h generalizing l' with
  | top hc =>
      cases h' with
      | top _ => rfl
      | up hs _ => cases hc.symm.trans hs
  | up hs _ ih =>
      cases h' with
      | top hc => cases hc.symm.trans hs
      | up hs' hl' =>
          cases hs.symm.trans hs'
          rw [ih hl']

theorem Ascent.mem_iff (h : r.Ascent c l) : a ∈ l ↔ Relation.ReflTransGen r.Extends c a := by
  induction h with
  | top hc =>
      rw [List.mem_singleton, Relation.ReflTransGen.cases_head_iff]
      constructor
      · exact fun ha => .inl ha.symm
      · rintro (rfl | ⟨s, hs, _⟩)
        · rfl
        · cases hc.symm.trans hs
  | @up c s l hs _ ih =>
      rw [List.mem_cons, ih, Relation.ReflTransGen.cases_head_iff (a := c)]
      refine or_congr eq_comm ⟨fun ha => ⟨s, hs, ha⟩, ?_⟩
      rintro ⟨s', hs', ha⟩
      cases hs.symm.trans hs'
      exact ha

theorem Ascent.means (h : r.Ascent c l) (name : String) : r.Means name c (l.findSome? fun d => r.ownMethod? d name) := by
  induction h with
  | @top c hc =>
      rw [List.findSome?_singleton]
      cases hown : r.ownMethod? c name with
      | none => exact .nothing hown hc
      | some f => exact .own hown
  | @up c s l hs _ ih =>
      rw [List.findSome?_cons]
      cases hown : r.ownMethod? c name with
      | none => exact .inherited hown hs ih
      | some f => exact .own hown

theorem Hierarchical.inherits_iff (hr : r.Hierarchical) : r.inherits c a ↔ Relation.ReflTransGen r.Extends c a := by
  rw [inherits, List.elem_iff]
  exact (hr.ascent c).mem_iff

/-! ## Changing a superclass -/

theorem classAt_setSuperclass (r : Registry) (c s d : ClassId) : (r.setSuperclass c s).classAt d =
    if c = d ∧ r.Contains d then { r.classAt d with superclass := some s } else r.classAt d := by
  simp only [classAt, setSuperclass, Array.getD_eq_getD_getElem?, Array.getElem?_modify]
  by_cases hcd : c = d
  · subst hcd
    by_cases hc : r.Contains c
    · simp [hc, Array.getElem?_eq_getElem (show c.index < r.classes.size from hc)]
    · simp [hc, Array.getElem?_eq_none (Nat.le_of_not_lt hc)]
  · have hindex : c.index ≠ d.index := fun h => hcd (congrArg ClassId.mk h)
    simp [hcd, hindex]

theorem extends_setSuperclass (h : (r.setSuperclass c s).Extends x y) : x = c ∧ y = s ∨ r.Extends x y := by
  unfold Extends at h ⊢
  rw [classAt_setSuperclass] at h
  split at h
  · rename_i hx
    exact .inl ⟨hx.1.symm, (Option.some.inj h).symm⟩
  · exact .inr h

theorem Extends.setSuperclass (h : r.Extends x y) (hx : x ≠ c) (s : ClassId) : (r.setSuperclass c s).Extends x y := by
  unfold Extends
  rw [classAt_setSuperclass, if_neg fun hc => hx hc.1.symm]
  exact h

/-- A way up after the change is one from before, or leads through the new superclass. -/
theorem transGen_setSuperclass (hs : ¬ Relation.ReflTransGen r.Extends s c)
    (h : Relation.TransGen (r.setSuperclass c s).Extends x y) : Relation.TransGen r.Extends x y ∨
      Relation.ReflTransGen r.Extends x c ∧ Relation.ReflTransGen r.Extends s y := by
  induction h with
  | single hxy =>
      rcases extends_setSuperclass hxy with ⟨rfl, rfl⟩ | hxy
      · exact .inr ⟨.refl, .refl⟩
      · exact .inl (.single hxy)
  | tail _ hyz ih =>
      rcases extends_setSuperclass hyz with ⟨rfl, rfl⟩ | hyz
      · rcases ih with hxc | ⟨_, hsc⟩
        · exact .inr ⟨hxc.to_reflTransGen, .refl⟩
        · exact absurd hsc hs
      · rcases ih with hxy | ⟨hxc, hsy⟩
        · exact .inl (hxy.tail hyz)
        · exact .inr ⟨hxc, hsy.tail hyz⟩

theorem Acyclic.setSuperclass (hr : r.Acyclic) (hs : ¬ Relation.ReflTransGen r.Extends s c) :
    (r.setSuperclass c s).Acyclic := by
  intro x hx
  rcases transGen_setSuperclass hs hx with hold | ⟨hxc, hsx⟩
  · exact hr x hold
  · exact hs (hsx.trans hxc)

/-- A way up to a class does not depend on the superclass of that class. -/
theorem reflTransGen_setSuperclass (h : Relation.ReflTransGen r.Extends x c) (s : ClassId) :
    Relation.ReflTransGen (r.setSuperclass c s).Extends x c := by
  induction h using Relation.ReflTransGen.head_induction_on with
  | refl => exact .refl
  | @head x y hxy _ ih =>
      by_cases hx : x = c
      · rw [hx]
      · exact .head (hxy.setSuperclass hx s) ih

theorem acyclic_setSuperclass_iff (hr : r.Acyclic) (hc : r.Contains c) :
    (r.setSuperclass c s).Acyclic ↔ ¬ Relation.ReflTransGen r.Extends s c := by
  refine ⟨fun h hs => h c ?_, hr.setSuperclass⟩
  have hedge : (r.setSuperclass c s).Extends c s := by
    unfold Extends
    rw [classAt_setSuperclass, if_pos ⟨rfl, hc⟩]
  exact .head' hedge (reflTransGen_setSuperclass hs s)

theorem contains_setSuperclass (r : Registry) (c s d : ClassId) : (r.setSuperclass c s).Contains d ↔ r.Contains d := by
  simp [Contains, Registry.setSuperclass]

theorem Hierarchical.setSuperclass (hr : r.Hierarchical) (hs : r.Contains s) (hcs : ¬ r.inherits s c) :
    (r.setSuperclass c s).Hierarchical where
  acyclic := hr.acyclic.setSuperclass fun h => hcs (hr.inherits_iff.2 h)
  closed x y h := by
    rw [contains_setSuperclass]
    rcases extends_setSuperclass h with ⟨_, rfl⟩ | h
    · exact hs
    · exact hr.closed x y h
  listed m d hd := (contains_setSuperclass r c s d).2 (hr.listed m d hd)

theorem Hierarchical.rebase (hr : r.Hierarchical) (hs : r.Contains s) (h : r.rebase c s = .ok r') : r'.Hierarchical := by
  unfold Registry.rebase at h
  split at h
  · cases h
  · cases h
    exact hr.setSuperclass hs ‹_›

/-! ## Adding entries -/

theorem hierarchical_empty : ({} : Registry).Hierarchical where
  acyclic c h := by
    obtain ⟨s, hs, _⟩ := Relation.TransGen.head'_iff.1 h
    exact absurd hs.contains (Nat.not_lt_zero _)
  closed c s h := absurd h.contains (Nat.not_lt_zero _)
  listed m c h := absurd h (Array.not_mem_empty c)

/-- The same classes stand under the same ones, and modules list no others. -/
theorem Hierarchical.congr (hr : r.Hierarchical) (hsize : r'.classes.size = r.classes.size)
    (hsuper : ∀ c, (r'.classAt c).superclass = (r.classAt c).superclass)
    (hmodules : ∀ m c, c ∈ (r'.moduleAt m).classes → c ∈ (r.moduleAt m).classes) : r'.Hierarchical := by
  have hextends : r'.Extends = r.Extends := by
    funext c s
    simp only [Extends, hsuper]
  have hhas : ∀ c, r'.Contains c ↔ r.Contains c := fun c => by simp only [Contains, hsize]
  exact ⟨fun c h => hr.acyclic c (hextends ▸ h), fun c s h => (hhas s).2 (hr.closed c s (hextends ▸ h)),
    fun m c h => (hhas c).2 (hr.listed m c (hmodules m c h))⟩

theorem Hierarchical.addModule (hr : r.Hierarchical) {tape : Tape} {m : ModuleId}
    (h : r.addModule name tape = .ok (m, r')) : r'.Hierarchical := by
  unfold Registry.addModule at h
  split at h
  · cases h
  · cases h
    refine hr.congr rfl (fun _ => rfl) fun m c hc => ?_
    simp only [moduleAt, Array.getD_eq_getD_getElem?, Array.getElem?_push] at hc ⊢
    split at hc
    · exact absurd hc (Array.not_mem_empty c)
    · exact hc

theorem Hierarchical.addFunction (hr : r.Hierarchical) (f : Function) : (r.addFunction f).2.Hierarchical := by
  unfold Registry.addFunction
  dsimp only
  split
  · refine hr.congr (by simp) (fun c => ?_) fun _ _ h => h
    simp only [classAt, Array.getD_eq_getD_getElem?, Array.getElem?_modify]
    split
    · cases r.classes[c.index]? <;> rfl
    · rfl
  · refine hr.congr rfl (fun _ => rfl) fun m c hc => ?_
    simp only [moduleAt, Array.getD_eq_getD_getElem?, Array.getElem?_modify] at hc ⊢
    split at hc
    · cases hm : r.modules[m.index]? <;> simpa [hm] using hc
    · exact hc

theorem contains_addClass (r : Registry) (cls : Class) (d : ClassId) :
    (r.addClass cls).2.Contains d ↔ r.Contains d ∨ d = ⟨r.classes.size⟩ := by
  obtain ⟨d⟩ := d
  simp only [Contains, addClass, Array.size_push, ClassId.mk.injEq]
  omega

theorem classAt_addClass (r : Registry) (cls : Class) (d : ClassId) :
    (r.addClass cls).2.classAt d = if d = ⟨r.classes.size⟩ then cls else r.classAt d := by
  obtain ⟨d⟩ := d
  simp only [classAt, addClass, Array.getD_eq_getD_getElem?, Array.getElem?_push, ClassId.mk.injEq]
  split <;> rfl

theorem Hierarchical.addClass (hr : r.Hierarchical) {cls : Class} (hs : ∀ s, cls.superclass = some s → r.Contains s) :
    (r.addClass cls).2.Hierarchical := by
  have hold : ∀ {x y}, (r.addClass cls).2.Extends x y → r.Contains y ∧ (x = ⟨r.classes.size⟩ ∨ r.Extends x y) := by
    intro x y h
    unfold Extends at h
    rw [classAt_addClass] at h
    split at h
    · exact ⟨hs y h, .inl ‹_›⟩
    · exact ⟨hr.closed x y h, .inr h⟩
  -- no class is under the new one
  have hpath : ∀ {x y}, r.Contains x → Relation.TransGen (r.addClass cls).2.Extends x y → Relation.TransGen r.Extends x y := by
    intro x y hx h
    induction h using Relation.TransGen.head_induction_on with
    | single hxy =>
        rcases (hold hxy).2 with rfl | hxy
        · exact absurd hx (Nat.lt_irrefl _)
        · exact .single hxy
    | head hxy _ ih =>
        obtain ⟨hy, rfl | hxy⟩ := hold hxy
        · exact absurd hx (Nat.lt_irrefl _)
        · exact .head hxy (ih hy)
  constructor
  · intro c h
    obtain ⟨d, _, hdc⟩ := Relation.TransGen.tail'_iff.1 h
    have hc := (hold hdc).1
    exact hr.acyclic c (hpath hc h)
  · exact fun c s h => (contains_addClass r cls s).2 (.inl (hold h).1)
  · intro m d hd
    rw [contains_addClass]
    simp only [moduleAt, Registry.addClass, Array.getD_eq_getD_getElem?, Array.getElem?_modify] at hd
    have hlisted := hr.listed m d
    simp only [moduleAt, Array.getD_eq_getD_getElem?] at hlisted
    split at hd
    · cases hm : r.modules[m.index]? with
      | none =>
          rw [hm] at hd
          exact absurd hd (Array.not_mem_empty d)
      | some module =>
          simp only [hm, Option.map_some, Option.getD_some, Array.mem_push] at hd hlisted
          exact hd.imp_left hlisted
    · exact .inl (hlisted hd)

/-! ## Registering a module -/

theorem classNamed?_contains (hr : r.Hierarchical) {m : ModuleId} (h : r.classNamed? m name = some c) : r.Contains c :=
  hr.listed m c (Array.mem_of_find?_eq_some h)

theorem superNamed?_contains (hr : r.Hierarchical) {module : ModuleId} {builtins : Option ModuleId}
    (h : r.superNamed? module builtins name = some s) : r.Contains s := by
  unfold superNamed? at h
  rw [Option.orElse_eq_orElse, Option.orElse_eq_or, Option.or_eq_some_iff] at h
  rcases h with h | ⟨_, h⟩
  · exact classNamed?_contains hr h
  · obtain ⟨b, _, h⟩ := Option.bind_eq_some_iff.1 h
    exact classNamed?_contains hr h

/-- A class gets its superclass only if it is not above it. -/
theorem hierarchical_wireSuperclass (module : ModuleId) (builtins : Option ModuleId) (d : ClassDef) (c : ClassId) :
    Preserves Hierarchical (wireSuperclass module builtins d c) := by
  unfold wireSuperclass
  split
  · exact preserves_pure _
  · rename_i superName _
    intro r hr
    have hrun : ∀ k : Registry → Entry Unit, (get >>= k) r = k r r := fun _ => rfl
    rw [hrun]
    cases hs : r.superNamed? module builtins superName with
    | none => exact hr
    | some s =>
        dsimp only
        by_cases hcycle : (decide (s = c) || r.inherits s c) = true
        · rw [if_pos hcycle]
          exact hr
        · rw [if_neg hcycle]
          rw [Bool.or_eq_true, not_or] at hcycle
          exact hr.setSuperclass (superNamed?_contains hr hs) hcycle.2

theorem hierarchical_enterClasses (module : ModuleId) (root : ClassId) (defs : List ClassDef) :
    ∀ r : Registry, r.Hierarchical → r.Contains root → (enterClasses module root defs r).2.Hierarchical := by
  unfold enterClasses
  induction defs with
  | nil => exact fun r hr _ => hr
  | cons d rest ih =>
      intro r hr hroot
      rw [List.mapM_cons]
      refine ih _ (hr.addClass fun s hs => ?_) ((contains_addClass r _ root).2 (.inl hroot))
      cases hs
      exact hroot

theorem hierarchical_enterFunction (module : ModuleId) (d : FunctionDef) :
    Preserves Hierarchical (enterFunction module d) := by
  unfold enterFunction
  have hadd : ∀ owner : Option ClassId, Preserves Hierarchical (modify fun r =>
      (r.addFunction { name := d.name, module, kind := .user d.start, flags := d.flags, owner }).2 : Entry Unit) :=
    fun owner => preserves_modify fun r hr => hr.addFunction _
  split
  · exact preserves_bind (preserves_pure _) hadd
  · refine preserves_get fun r _ => ?_
    split
    · exact preserves_bind (preserves_pure _) hadd
    · exact preserves_bind (preserves_throw _) hadd

/-- Once the classes are there the root does not matter. -/
theorem hierarchical_enterMembers (m : CompiledModule) (module : ModuleId) (builtins : Option ModuleId)
    (ids : List ClassId) : Preserves Hierarchical (enterMembers m module builtins ids) := by
  refine preserves_bind (preserves_forIn (fun x _ => ?_) _ _) fun _ => ?_
  · exact preserves_bind (hierarchical_wireSuperclass module builtins x.1 x.2) fun _ => preserves_pure _
  · refine preserves_bind ?_ fun _ => preserves_pure _
    rw [← Array.forIn_toList]
    exact preserves_forIn (fun d _ => preserves_bind (hierarchical_enterFunction module d) fun _ => preserves_pure _) _ _

/-- A registration keeps the hierarchy, wherever it breaks off. -/
theorem hierarchical_register (m : CompiledModule) (builtins : Option ModuleId) {root : ClassId} (hr : r.Hierarchical)
    (hroot : r.Contains root) : (register m builtins root r).2.Hierarchical := by
  cases hv : m.validate with
  | error e =>
      rw [register_of_validate_error hv]
      exact hr
  | ok u =>
      cases hadd : r.addModule m.name m.tape with
      | error e =>
          rw [register_of_addModule_error hv hadd]
          exact hr
      | ok added =>
          obtain ⟨module, r'⟩ := added
          have hroot' : r'.Contains root := by
            unfold addModule at hadd
            split at hadd
            · cases hadd
            · cases hadd
              exact hroot
          rw [register_of_addModule hv hadd]
          exact hierarchical_enterMembers m module builtins _ _
            (hierarchical_enterClasses module root _ r' (hr.addModule hadd) hroot')

/-! ## Changes -/

/-- A call that changes a registry. -/
inductive Change where
  | addModule (name : String) (tape : Tape)
  | addClass (name : String) (module : ModuleId) (superclass : Option ClassId) (fields : List String) (hooks : Hooks)
  | addFunction (f : Function)
  | register (m : CompiledModule) (builtins : Option ModuleId) (root : ClassId)
  | rebase (c s : ClassId)

/-- What the call leaves behind, also if it fails. -/
def change (r : Registry) : Change → Registry
  | .addModule name tape =>
    match r.addModule name tape with
    | .ok (_, r') => r'
    | .error _ => r
  | .addClass name module superclass fields hooks => (r.addClass { name, module, superclass, fields, hooks }).2
  | .addFunction f => (r.addFunction f).2
  | .register m builtins root => (register m builtins root r).2
  | .rebase c s =>
    match r.rebase c s with
    | .ok r' => r'
    | .error _ => r

/-- The classes under which the call puts others are there. -/
def Change.Grounded (r : Registry) : Change → Prop
  | .addClass _ _ superclass _ _ => ∀ s ∈ superclass, r.Contains s
  | .register _ _ root => r.Contains root
  | .rebase _ s => r.Contains s
  | _ => True

/-- Registries that such calls can make, one after the other. -/
inductive Grown : Registry → Prop where
  | empty : Grown {}
  | change {r : Registry} {a : Change} : Grown r → a.Grounded r → Grown (r.change a)

theorem Hierarchical.change (hr : r.Hierarchical) {a : Change} (ha : a.Grounded r) : (r.change a).Hierarchical := by
  cases a with
  | addModule name tape =>
      simp only [Registry.change]
      cases hadd : r.addModule name tape with
      | error e => exact hr
      | ok added => exact hr.addModule hadd
  | addClass name module superclass fields hooks => exact hr.addClass fun s hs => ha s hs
  | addFunction f => exact hr.addFunction f
  | register m builtins root => exact hierarchical_register m builtins hr ha
  | rebase c s =>
      simp only [Registry.change]
      cases hbase : r.rebase c s with
      | error e => exact hr
      | ok r' => exact hr.rebase ha hbase

theorem Grown.hierarchical (h : r.Grown) : r.Hierarchical := by
  induction h with
  | empty => exact hierarchical_empty
  | change _ ha ih => exact ih.change ha

/-- Whatever calls have made a registry, successful or not: no class is above itself. The walk up from a class ends without
a bound, and passes the classes of its chain, which is never longer than there are classes. A class inherits from itself and
from those above it, and the nearest class on the way up that has a method of its own has the say. A class is refused a
superclass if that would close a cycle; otherwise its superclass changes, and nothing else. -/
theorem hierarchy_exact (hr : r.Grown) : r.Acyclic ∧
    (∀ c, r.Contains c → (∀ l, r.Ascent c l ↔ l = r.chain c) ∧ (r.chain c).length ≤ r.classes.size) ∧
    (∀ c a, r.inherits c a ↔ Relation.ReflTransGen r.Extends c a) ∧
    (∀ c name, r.Means name c (r.findMethod? c name)) ∧
    ∀ c s, r.Contains c → r.Contains s →
      ((∃ e, r.rebase c s = .error e) ↔ ¬ (r.setSuperclass c s).Acyclic) ∧
      (∀ e, r.rebase c s = .error e → e = .inheritanceCycle (r.className c) ∧ r.change (.rebase c s) = r) ∧
      ∀ r', r.rebase c s = .ok r' → r.change (.rebase c s) = r' ∧ r'.classAt c = { r.classAt c with superclass := some s } ∧
        (∀ d, d ≠ c → r'.classAt d = r.classAt d) ∧ r'.classes.size = r.classes.size ∧ r'.functions = r.functions ∧
        r'.modules = r.modules := by
  have hh := hr.hierarchical
  refine ⟨hh.acyclic, fun c hc => ⟨fun l => ⟨fun h => h.unique (hh.ascent c), fun h => h ▸ hh.ascent c⟩, hh.length_chain_le hc⟩,
    fun c a => hh.inherits_iff, fun c name => (hh.ascent c).means name, fun c s hc hs => ⟨?_, fun e he => ?_, fun r' hok => ?_⟩⟩
  · rw [acyclic_setSuperclass_iff hh.acyclic hc, not_not, ← hh.inherits_iff]
    unfold rebase
    by_cases hcycle : r.inherits s c = true
    · simp [hcycle]
    · simp [hcycle]
  · have hchange : r.change (.rebase c s) = r := by simp only [change, he]
    refine ⟨?_, hchange⟩
    unfold rebase at he
    split at he
    · cases he
      rfl
    · cases he
  · have hchange : r.change (.rebase c s) = r' := by simp only [change, hok]
    unfold rebase at hok
    split at hok
    · cases hok
    · cases hok
      refine ⟨hchange, ?_, fun d hd => ?_, by simp [setSuperclass], rfl, rfl⟩
      · rw [classAt_setSuperclass, if_pos ⟨rfl, hc⟩]
      · rw [classAt_setSuperclass, if_neg fun h => hd h.1.symm]

theorem grown_addNatives (module : ModuleId) : ∀ (functions : List (Option ClassId × String × FunctionKind × Flags))
    {r : Registry}, r.Grown → (r.addNatives module functions).Grown := by
  intro functions
  induction functions with
  | nil => exact fun hr => hr
  | cons x rest ih => exact fun hr => ih (.change (a := .addFunction _) hr trivial)

/-- What a machine starts with has been made by such calls. -/
theorem Grown.addBuiltin (hr : r.Grown) (c : String × List String × Hooks) : (r.addBuiltin c).Grown := by
  refine .change (a := .addClass c.1 .builtins (if r.classes.isEmpty then none else some .object) c.2.1 c.2.2) hr
    fun s hs => ?_
  split at hs
  · cases hs
  · rename_i hsome
    cases hs
    exact Nat.pos_of_ne_zero fun h => hsome (Array.isEmpty_iff_size_eq_zero.2 h)

theorem grown_initial : initial.Grown := by
  have hmodule : ({} : Registry).change (.addModule "builtins" {}) = { modules := #[{ name := "builtins" }] } := by
    simp [change, addModule, moduleNamed?]
  rw [initial_eq]
  exact grown_addNatives _ _ (List.foldlRecOn _ _ (hmodule ▸ .change .empty trivial) fun r hr c _ => hr.addBuiltin c)

/-- A class stands under one that comes after it in the module. -/
def shapes : CompiledModule :=
  { name := "shapes"
    tape := { instructions := #[⟨.ret, .none⟩] }
    functions := #[{ name := "area", start := 0, owner := some "Shape" }]
    classes := #[{ name := "Square", superName := some "Shape", start := 0, stop := 1 },
      { name := "Shape", start := 0, stop := 1 }, { name := "Round", start := 0, stop := 1 }] }

/-- The registry that a machine starts with, and the module. -/
def drawn : Registry := (register shapes (some .builtins) .object initial).2

theorem hierarchy_exact_drawn : drawn.Grown ∧ drawn.Ascent ⟨18⟩ [⟨18⟩, ⟨19⟩, .object] ∧
    Relation.ReflTransGen drawn.Extends ⟨18⟩ ⟨19⟩ ∧ ¬ Relation.ReflTransGen drawn.Extends ⟨18⟩ ⟨20⟩ ∧
    drawn.Means "area" ⟨18⟩ (some ⟨27⟩) ∧ drawn.Contains ⟨19⟩ ∧ drawn.Contains ⟨18⟩ ∧
    ¬ (drawn.setSuperclass ⟨19⟩ ⟨18⟩).Acyclic ∧ (drawn.setSuperclass ⟨19⟩ ⟨20⟩).Acyclic := by
  have hgrown : drawn.Grown :=
    .change (a := .register shapes (some .builtins) .object) grown_initial (show initial.Contains .object by decide +kernel)
  have hhas : drawn.Contains ⟨18⟩ ∧ drawn.Contains ⟨19⟩ ∧ drawn.Contains ⟨20⟩ := by decide +kernel
  obtain ⟨_, hwalk, hinherits, hmeans, hrebase⟩ := hierarchy_exact hgrown
  refine ⟨hgrown, ((hwalk ⟨18⟩ hhas.1).1 _).2 (by decide +kernel), (hinherits _ _).1 (by decide +kernel),
    fun h => absurd ((hinherits _ _).2 h) (by decide +kernel), ?_, hhas.2.1, hhas.1, ?_, ?_⟩
  · have hfound : drawn.findMethod? ⟨18⟩ "area" = some ⟨27⟩ := by decide +kernel
    exact hfound ▸ hmeans ⟨18⟩ "area"
  · refine (hrebase ⟨19⟩ ⟨18⟩ hhas.2.1 hhas.1).1.1 ⟨.inheritanceCycle "Shape", ?_⟩
    have hcycle : drawn.inherits ⟨18⟩ ⟨19⟩ = true ∧ drawn.className ⟨19⟩ = "Shape" := by decide +kernel
    rw [rebase, if_pos hcycle.1, hcycle.2]
  · by_contra hcycle
    obtain ⟨e, he⟩ := (hrebase ⟨19⟩ ⟨20⟩ hhas.2.1 hhas.2.2).1.2 hcycle
    have hfree : drawn.inherits ⟨20⟩ ⟨19⟩ = false := by decide +kernel
    rw [rebase, hfree] at he
    cases he

end Registry

end Spool
