import Spool.Proofs.Registry.Calm

/-!
# Checked registries

Nothing gets into a registry without a check: its tapes have no flaws, and its functions start on the tapes of their
modules. Tapes are never taken away or changed, so a position that is on a tape stays there.
-/

namespace Spool

namespace Tape

theorem flaw?_of_flawFrom? {size : Nat} : ∀ {start : Nat} {is : List Instruction}, flawFrom? size start is = none →
    ∀ (k : Nat) i, is[k]? = some i → i.flaw? (start + k) size = none := by
  intro start is
  induction is generalizing start with
  | nil => simp
  | cons first rest ih =>
      intro h k i hi
      cases hf : first.flaw? start size with
      | some flaw => cases flaw <;> simp [flawFrom?, hf] at h
      | none =>
          simp only [flawFrom?, hf] at h
          cases k with
          | zero =>
              cases hi
              exact hf
          | succ k =>
              have := ih h k i hi
              rwa [Nat.add_right_comm] at this

/-- On a tape without flaws no instruction has one. -/
theorem flaw?_of_getElem? {t : Tape} (ht : t.flaw? = none) {k : Nat} {i : Instruction}
    (hi : t.instructions[k]? = some i) : i.flaw? k t.size = none := by
  cases hf : flawFrom? t.size 0 t.instructions.toList with
  | some flaw => simp [flaw?, hf] at ht
  | none =>
      have := flaw?_of_flawFrom? hf k i (by simpa using hi)
      rwa [Nat.zero_add] at this

end Tape

namespace Registry

variable {r r' r₁ r₂ r₃ : Registry}

/-- A module that is not there has no instructions, so its tape has no flaw. -/
structure Checked (r : Registry) : Prop where
  tapes : ∀ m, (r.moduleAt m).tape.flaw? = none
  starts : ∀ f ∈ r.functions, ∀ start, f.kind = .user start → start < (r.moduleAt f.module).tape.size

/-- A function that is not there passes for one that starts where there is nothing. -/
theorem Checked.start_le (hr : r.Checked) {f : FunctionId} {start : Nat} (hf : (r.functionAt f).kind = .user start) :
    start ≤ (r.moduleAt (r.functionAt f).module).tape.size := by
  unfold functionAt at hf ⊢
  rw [Array.getD_eq_getD_getElem?] at hf ⊢
  cases hg : r.functions[f.index]? with
  | none =>
      rw [hg] at hf
      cases hf
      exact Nat.zero_le _
  | some function =>
      rw [hg] at hf
      exact Nat.le_of_lt (hr.starts function (Array.mem_of_getElem? hg) start hf)

/-! ## Adding entries -/

/-- The tapes are there as they were; a module that was not there may have one. -/
def Longer (r r' : Registry) : Prop := ∀ m, (r.moduleAt m).tape = {} ∨ (r'.moduleAt m).tape = (r.moduleAt m).tape

theorem Longer.refl (r : Registry) : r.Longer r := fun _ => .inr rfl

theorem Longer.trans (h : r₁.Longer r₂) (h' : r₂.Longer r₃) : r₁.Longer r₃ := by
  intro m
  rcases h m with hempty | hsame
  · exact .inl hempty
  · exact (h' m).imp (hsame ▸ ·) (·.trans hsame)

theorem Longer.of_eq (h : ∀ m, (r'.moduleAt m).tape = (r.moduleAt m).tape) : r.Longer r' := fun m => .inr (h m)

theorem Longer.size_le (h : r.Longer r') (m : ModuleId) : (r.moduleAt m).tape.size ≤ (r'.moduleAt m).tape.size := by
  rcases h m with hempty | hsame
  · rw [hempty]
    exact Nat.zero_le _
  · exact Nat.le_of_eq (congrArg Tape.size hsame.symm)

/-- A tape with an instruction stays as it is. -/
theorem Longer.tape_eq (h : r.Longer r') {m : ModuleId} {k : Nat} {i : Instruction}
    (hi : (r.moduleAt m).tape.instructions[k]? = some i) : (r'.moduleAt m).tape = (r.moduleAt m).tape := by
  refine (h m).resolve_left fun hempty => ?_
  rw [hempty] at hi
  cases hi

/-- A module that is not there has an empty tape. -/
theorem tape_addModule {name : String} {tape : Tape} {m : ModuleId} (h : r.addModule name tape = .ok (m, r'))
    (k : ModuleId) : (r'.moduleAt k).tape = (r.moduleAt k).tape ∨
      (r.moduleAt k).tape = {} ∧ ((r'.moduleAt k).tape = tape ∨ (r'.moduleAt k).tape = {}) := by
  unfold Registry.addModule at h
  split at h
  · cases h
  · cases h
    simp only [moduleAt, Array.getD_eq_getD_getElem?, Array.getElem?_push]
    split
    · rename_i hk
      exact .inr ⟨by simp [hk, default, instInhabitedModule.default], .inl rfl⟩
    · exact .inl rfl

theorem longer_addModule {name : String} {tape : Tape} {m : ModuleId} (h : r.addModule name tape = .ok (m, r')) :
    r.Longer r' := by
  intro k
  rcases tape_addModule h k with heq | ⟨hempty, _⟩
  · exact .inr heq
  · exact .inl hempty

theorem lasting_longer (r : Registry) : Lasting r.Longer where
  addClass {r' c} hr _ _ := hr.trans (.of_eq (tape_addClass r' c))
  setSuperclass hr _ _ := hr
  addModule hr _ h := hr.trans (longer_addModule h)
  addFunction {r' f _} hr _ _ := hr.trans (.of_eq (tape_addFunction r' f))

theorem Checked.addClass (hr : r.Checked) (c : Class) : (r.addClass c).2.Checked := by
  constructor
  · intro m
    rw [tape_addClass]
    exact hr.tapes m
  · intro f hf start hkind
    rw [tape_addClass]
    exact hr.starts f hf start hkind

theorem Checked.addModule (hr : r.Checked) {name : String} {tape : Tape} {m : ModuleId} (ht : tape.flaw? = none)
    (h : r.addModule name tape = .ok (m, r')) : r'.Checked := by
  have hfunctions : r'.functions = r.functions := by
    unfold Registry.addModule at h
    split at h
    · cases h
    · cases h
      rfl
  constructor
  · intro k
    rcases tape_addModule h k with heq | ⟨_, heq | heq⟩
    · rw [heq]
      exact hr.tapes k
    · rw [heq]
      exact ht
    · rw [heq]
      rfl
  · intro f hf start hkind
    rw [hfunctions] at hf
    exact Nat.lt_of_lt_of_le (hr.starts f hf start hkind) ((longer_addModule h).size_le f.module)

theorem Checked.addFunction (hr : r.Checked) {f : Function}
    (hf : ∀ start, f.kind = .user start → start < (r.moduleAt f.module).tape.size) : (r.addFunction f).2.Checked := by
  constructor
  · intro m
    rw [tape_addFunction]
    exact hr.tapes m
  · intro g hg start hkind
    rw [tape_addFunction]
    rw [functions_addFunction] at hg
    rcases Array.mem_push.1 hg with hg | rfl
    · exact hr.starts g hg start hkind
    · exact hf start hkind

theorem lasting_checked : Lasting Checked where
  addClass {_ c} hr _ _ := hr.addClass c
  setSuperclass hr _ _ := ⟨hr.tapes, hr.starts⟩
  addModule hr ht h := hr.addModule ht h
  addFunction hr hkind hstart := hr.addFunction fun _ h => by
    cases hkind.symm.trans h
    exact hstart

/-! ## What a machine starts with -/

theorem Checked.addNatives {functions : List (Option ClassId × String × FunctionKind × Flags)}
    (hf : ∀ x ∈ functions, ∀ start, x.2.2.1 ≠ .user start) :
    ∀ {r : Registry}, r.Checked → ∀ module, (r.addNatives module functions).Checked := by
  induction functions with
  | nil => exact fun hr _ => hr
  | cons x rest ih =>
      intro r hr module
      have hx := hf x List.mem_cons_self
      exact ih (fun y hy => hf y (List.mem_cons_of_mem x hy)) (hr.addFunction fun start h => absurd h (hx start)) module

theorem checked_initial : initial.Checked := by
  rw [initial_eq]
  apply Checked.addNatives
  · simp [Builtins.functions]
  · refine List.foldlRecOn _ _ ?_ fun r hr c _ => hr.addClass _
    constructor
    · intro m
      simp only [moduleAt, Array.getD_eq_getD_getElem?]
      cases m.index <;> rfl
    · simp

theorem Checked.addHostModule (hr : r.Checked) : r.addHostModule.Checked := by
  unfold Registry.addHostModule
  split
  · rename_i module r' h
    apply Checked.addNatives
    · simp [hostFunctions]
    · exact (hr.addModule rfl h).addClass _
  · exact hr

/-! ## From one registry to a later one -/

/-- What was checked is checked, what was on a tape is on it, and functions are still there. -/
structure Leads (r r' : Registry) : Prop where
  checked : r.Checked → r'.Checked
  longer : r.Longer r'
  async : r.HasAsync → r'.HasAsync

theorem Leads.refl (r : Registry) : r.Leads r := ⟨fun h => h, .refl r, fun h => h⟩

theorem Leads.trans (h : r₁.Leads r₂) (h' : r₂.Leads r₃) : r₁.Leads r₃ :=
  ⟨fun hr => h'.checked (h.checked hr), h.longer.trans h'.longer, fun ha => h'.async (h.async ha)⟩

/-- Registering modules leads on. -/
theorem leads_of_lasting {α : Type} {act : Entry α} (ha : ∀ P, Lasting P → Preserves P act) (r : Registry) :
    r.Leads (act r).2 :=
  ⟨ha _ lasting_checked r, ha _ (lasting_longer r) r (Leads.refl r).longer, ha _ lasting_hasAsync r⟩

theorem leads_rebase {c s : ClassId} (h : r.rebase c s = .ok r') : r.Leads r' := by
  unfold Registry.rebase at h
  split at h
  · cases h
  · cases h
    exact ⟨fun hr => ⟨hr.tapes, hr.starts⟩, .of_eq fun _ => rfl, fun h => h⟩

theorem longer_addNatives (module : ModuleId) (functions : List (Option ClassId × String × FunctionKind × Flags)) :
    ∀ r : Registry, r.Longer (r.addNatives module functions) := by
  induction functions with
  | nil => exact fun r => .refl r
  | cons x rest ih => exact fun r => Longer.trans (.of_eq (tape_addFunction r _)) (ih _)

theorem HasAsync.addNatives (module : ModuleId) (functions : List (Option ClassId × String × FunctionKind × Flags)) :
    ∀ {r : Registry}, r.HasAsync → (r.addNatives module functions).HasAsync := by
  induction functions with
  | nil => exact fun hr => hr
  | cons x rest ih => exact fun hr => ih (hr.addFunction _)

theorem HasAsync.addHostModule (hr : r.HasAsync) : r.addHostModule.HasAsync := by
  unfold Registry.addHostModule
  split
  · rename_i module r' h
    unfold Registry.addModule at h
    split at h
    · cases h
    · cases h
      exact HasAsync.addNatives _ _ hr
  · exact hr

theorem leads_addHostModule (r : Registry) : r.Leads r.addHostModule := by
  refine ⟨Checked.addHostModule, ?_, HasAsync.addHostModule⟩
  unfold Registry.addHostModule
  split
  · rename_i module r' h
    have hclass : r'.Longer (r'.addClass { name := "Job", module, superclass := some .object }).2 := .of_eq (tape_addClass _ _)
    exact ((longer_addModule h).trans hclass).trans (longer_addNatives module _ _)
  · exact .refl r

end Registry

end Spool
