import Spool.Proofs.Heap.Laws
import Spool.Proofs.Registry.Checked

/-!
# What new objects start with

The hook that gives a new object its payload belongs to the class alone: only four of the builtin classes have one, and
neither registering modules nor changing superclasses adds any.
-/

namespace Spool.Registry

variable {r r' : Registry}

theorem seed_congr (hc : ∀ c, (r'.classAt c).hooks = (r.classAt c).hooks) (c : ClassId) : r'.seed c = r.seed c := by
  unfold seed
  rw [hc]

theorem Seeded.congr (hr : r.Seeded) (hc : ∀ c, (r'.classAt c).hooks = (r.classAt c).hooks) : r'.Seeded := fun c =>
  (seed_congr hc c).trans (hr c)

theorem hooks_classAt_modify (classes : Array Class) (i : Nat) {f : Class → Class} (hf : ∀ c, (f c).hooks = c.hooks)
    (j : Nat) : ((classes.modify i f).getD j default).hooks = (classes.getD j default).hooks := by
  simp only [Array.getD_eq_getD_getElem?, Array.getElem?_modify]
  split
  · cases classes[j]? <;> simp [hf]
  · rfl

/-- A class that is not there has no hooks either. -/
theorem Seeded.addClass (hr : r.Seeded) {c : Class} (hc : c.hooks = {}) : (r.addClass c).2.Seeded := by
  refine hr.congr fun d => ?_
  simp only [classAt, Registry.addClass, Array.getD_eq_getD_getElem?, Array.getElem?_push]
  split
  · rename_i hd
    rw [hd, Array.getElem?_eq_none (Nat.le_refl _)]
    exact hc
  · rfl

theorem Seeded.setSuperclass (hr : r.Seeded) (c s : ClassId) : (r.setSuperclass c s).Seeded :=
  hr.congr fun d => hooks_classAt_modify r.classes c.index (f := fun c => { c with superclass := some s }) (fun _ => rfl) d.index

theorem Seeded.addFunction (hr : r.Seeded) (f : Function) : (r.addFunction f).2.Seeded := by
  unfold Registry.addFunction
  dsimp only
  split
  · rename_i c _
    exact hr.congr fun d => hooks_classAt_modify r.classes c.index
      (f := fun c => { c with methods := c.methods.insert f.name ⟨r.functions.size⟩ }) (fun _ => rfl) d.index
  · exact hr.congr fun _ => rfl

theorem Seeded.addModule (hr : r.Seeded) {name : String} {tape : Tape} {m : ModuleId}
    (h : r.addModule name tape = .ok (m, r')) : r'.Seeded := by
  unfold Registry.addModule at h
  split at h
  · cases h
  · cases h
    exact hr.congr fun _ => rfl

theorem Seeded.rebase (hr : r.Seeded) {c s : ClassId} (h : r.rebase c s = .ok r') : r'.Seeded := by
  unfold Registry.rebase at h
  split at h
  · cases h
  · cases h
    exact hr.setSuperclass c s

theorem lasting_seeded : Lasting Seeded where
  addClass hr _ hc := hr.addClass hc
  setSuperclass hr c s := hr.setSuperclass c s
  addModule hr _ h := hr.addModule h
  addFunction hr _ _ := hr.addFunction _

theorem Seeded.addNatives (functions : List (Option ClassId × String × FunctionKind × Flags)) :
    ∀ {r : Registry}, r.Seeded → ∀ module, (r.addNatives module functions).Seeded := by
  induction functions with
  | nil => exact fun hr _ => hr
  | cons x rest ih => exact fun hr module => ih (hr.addFunction _) module

theorem Seeded.addHostModule (hr : r.Seeded) : r.addHostModule.Seeded := by
  unfold Registry.addHostModule
  split
  · rename_i module r' h
    exact Seeded.addNatives _ ((hr.addModule h).addClass rfl) module
  · exact hr

theorem seed_eq (r : Registry) (c : ClassId) : r.seed c = ((r.classAt c).hooks.onCreate.getD .plain).payload := by
  unfold seed
  cases (r.classAt c).hooks.onCreate <;> rfl

/-- A registry whose classes have the hooks of the builtin classes. -/
theorem seeded_of_hooks (h : r.classes.map Class.hooks = (Builtins.classes.map fun c => c.2.2).toArray) : r.Seeded := by
  have hfew : ∀ i < 18, ((Builtins.classes.map fun c => c.2.2)[i]?.getD ({} : Hooks)).onCreate.getD .plain = ClassId.seed ⟨i⟩ := by
    decide
  intro c
  have hhooks : (r.classAt c).hooks = (Builtins.classes.map fun c => c.2.2)[c.index]?.getD {} := by
    have hat := congrArg (fun hooks : Array Hooks => hooks[c.index]?) h
    simp only [Array.getElem?_map, List.getElem?_toArray] at hat
    rw [classAt, Array.getD_eq_getD_getElem?, ← hat]
    cases r.classes[c.index]? <;> rfl
  rw [seed_eq, hhooks]
  by_cases hc : c.index < 18
  · exact congrArg Seed.payload (hfew c.index hc)
  · have hnone : (Builtins.classes.map fun c => c.2.2)[c.index]? = none :=
      List.getElem?_eq_none (Nat.le_of_not_lt hc)
    have hne : ∀ i < 18, c ≠ ⟨i⟩ := fun i hi h => hc (h ▸ hi)
    have hplain : c.seed = .plain := by
      simp [ClassId.seed, ClassId.string, ClassId.array, ClassId.tuple, ClassId.process, hne]
    rw [hplain, hnone]
    rfl

theorem seeded_initial : initial.Seeded := by
  have hclasses : ∀ (classes : List (String × List String × Hooks)) (r : Registry),
      (classes.foldl addBuiltin r).classes.map Class.hooks =
        r.classes.map Class.hooks ++ (classes.map fun c => c.2.2).toArray := by
    intro classes
    induction classes with
    | nil => simp
    | cons c rest ih => exact fun r => (ih _).trans (by simp [addBuiltin, addClass])
  have hbuiltin := hclasses Builtins.classes { modules := #[{ name := "builtins" }] }
  rw [initial_eq]
  exact Seeded.addNatives _ (seeded_of_hooks (hbuiltin.trans (by simp))) _

end Spool.Registry
