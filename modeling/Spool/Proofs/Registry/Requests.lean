import Mathlib.Control.Monad.Basic
import Spool.Proofs.Registry.Published

/-!
# Requests for modules

Modules are registered by hand, found by name, or loaded from a file, one request after the other. What a search finds
is the builtins or comes from one of the registrations before.
-/

namespace Spool

theorem ok_of_bind {ε α β : Type} {x : Except ε α} {k : α → Except ε β} {b : β} (h : x >>= k = .ok b) :
    ∃ a, x = .ok a ∧ k a = .ok b := by
  cases x with
  | error e => cases h
  | ok a => exact ⟨a, rfl, h⟩

/-! ## The name of an assembled module -/

namespace Builder

theorem name_endClass (b : Builder) : b.endClass.name = b.name := by
  unfold endClass
  split <;> rfl

theorem name_finish {b : Builder} {m : CompiledModule} (h : b.finish = .ok m) : m.name = b.name := by
  unfold finish draft at h
  obtain ⟨_, hdraft, h⟩ := ok_of_bind h
  obtain ⟨_, _, h⟩ := ok_of_bind h
  cases h
  obtain ⟨instructions, _, hdraft⟩ := ok_of_bind hdraft
  cases hdraft
  exact b.name_endClass

end Builder

namespace Assembler

theorem name_label (a : Assembler) (name : String) : (a.label name).2.builder.name = a.builder.name := by
  unfold label
  split <;> rfl

theorem name_define {a a' : Assembler} {name : String} (h : a.define name = .ok a') :
    a'.builder.name = a.builder.name := by
  unfold define at h
  split at h
  · cases h
  · cases h
    exact name_label _ _

theorem name_jumpTo {a a' : Assembler} {line : Nat} {op : Op} {target : List Char}
    (h : a.jumpTo line op target = .ok a') : a'.builder.name = a.builder.name := by
  unfold jumpTo at h
  split at h
  · cases h
  · split at h
    · cases h
    · cases h
      exact name_label _ _

theorem name_instruction {a a' : Assembler} {line : Nat} {op : Op} {text : List Char}
    (h : a.instruction line op text = .ok a') : a'.builder.name = a.builder.name := by
  unfold instruction at h
  split at h
  · exact name_jumpTo h
  · obtain ⟨_, _, h⟩ := ok_of_bind h
    split at h
    · cases h
      rfl
    · cases h

theorem name_beginClass {a a' : Assembler} {words : List (List Char)} (h : a.beginClass words = .ok a') :
    a'.builder.name = a.builder.name := by
  unfold beginClass at h
  split at h
  · cases h
  · obtain ⟨_, _, h⟩ := ok_of_bind h
    obtain ⟨_, _, h⟩ := ok_of_bind h
    obtain ⟨_, _, h⟩ := ok_of_bind h
    cases h
    rfl

theorem name_directive {a a' : Assembler} {name : String} {words : List (List Char)}
    (h : a.directive name words = .ok a') : a'.builder.name = a.builder.name := by
  unfold directive at h
  split at h
  · obtain ⟨_, _, h⟩ := ok_of_bind h
    obtain ⟨_, _, h⟩ := ok_of_bind h
    cases h
    rfl
  · exact name_beginClass h
  · unfold endClass at h
    split at h
    · cases h
      exact a.builder.name_endClass
    · cases h
  · cases h

theorem name_statement {a a' : Assembler} {line : Nat} {s : Statement} (h : a.statement line s = .ok a') :
    a'.builder.name = a.builder.name := by
  unfold statement at h
  split at h
  · cases h
    rfl
  · exact name_define h
  · exact name_directive h
  · split at h
    · cases h
    · exact (name_instruction h :)

theorem name_lines {file : String} : ∀ {texts : List String} {line : Nat} {a a' : Assembler},
    lines file line texts a = .ok a' → a'.builder.name = a.builder.name := by
  intro texts
  induction texts with
  | nil =>
      intro line a a' h
      cases h
      rfl
  | cons text rest ih =>
      intro line a a' h
      simp only [lines] at h
      split at h
      · rename_i a₁ hstatement
        exact (ih h).trans (name_statement hstatement)
      · cases h

end Assembler

theorem name_assemble {name file source : String} {m : CompiledModule} (h : assemble name file source = .ok m) :
    m.name = name := by
  unfold assemble at h
  obtain ⟨a, hlines, h⟩ := ok_of_bind h
  unfold Assembler.finish at h
  split at h
  · cases h
  · exact (Builder.name_finish h).trans (Assembler.name_lines hlines)

/-! ## Requests -/

inductive Request where
  | register (m : CompiledModule)
  | resolve (name : String)
  | loadFile (path : String)

/-- How far a request comes without touching the registry. -/
inductive Prospect where
  | found (id : ModuleId)
  | refused (e : HostError)
  | registers (m : CompiledModule)

/-- One registration, with the number of the module if it is added. -/
structure Attempt where
  module : CompiledModule
  id : ModuleId
  result : Except HostError ModuleId

/-- The attempt has left its module in the registry: it is complete, or broken off. -/
def Attempt.Leaves (a : Attempt) : Prop := a.result = .ok a.id ∨ ∃ e, a.result = .error e ∧ e.Late

namespace Library

def answer (l : Library) : Request → Registry.Entry ModuleId
  | .register m => register m
  | .resolve name => l.resolve name
  | .loadFile path => l.loadFile path

def prospectFile (l : Library) (name path : String) : Prospect :=
  match l.readSource path with
  | .error e => .refused e
  | .ok source =>
    match assemble name path source with
    | .error e => .refused e
    | .ok m => .registers m

def prospect (l : Library) (r : Registry) : Request → Prospect
  | .register m => .registers m
  | .resolve name =>
    match r.moduleNamed? name with
    | some id => .found id
    | none =>
      match l.fileFor? name with
      | some path => l.prospectFile name path
      | none => .refused (.moduleNotFound name)
  | .loadFile path =>
    match Path.stem? path with
    | some name => l.prospectFile name path
    | none => .refused (.moduleNotFound path)

/-- What a prospect comes to. -/
def settle (r : Registry) : Prospect → Except HostError ModuleId × Registry
  | .found id => (.ok id, r)
  | .refused e => (.error e, r)
  | .registers m => register m r

variable (l : Library)

theorem registerFile_eq (name path : String) (r : Registry) :
    l.registerFile name path r = settle r (l.prospectFile name path) := by
  unfold registerFile prospectFile
  cases l.readSource path with
  | error e => rfl
  | ok source =>
      dsimp only
      cases h : assemble name path source with
      | error e =>
          change (ExceptT.mk (pure (assemble name path source)) >>= register) r = _
          rw [h]
          rfl
      | ok m =>
          change (ExceptT.mk (pure (assemble name path source)) >>= register) r = _
          rw [h]
          rfl

theorem answer_eq (q : Request) (r : Registry) : l.answer q r = settle r (l.prospect r q) := by
  cases q with
  | register m => rfl
  | resolve name =>
      simp only [prospect]
      change (match r.moduleNamed? name with
        | some m => pure m
        | none => match l.fileFor? name with
          | some path => l.registerFile name path
          | none => throw (.moduleNotFound name) : Registry.Entry ModuleId) r = _
      cases r.moduleNamed? name with
      | some id => rfl
      | none =>
          cases l.fileFor? name with
          | some path => exact l.registerFile_eq name path r
          | none => rfl
  | loadFile path =>
      simp only [answer, loadFile, prospect]
      cases Path.stem? path with
      | some name => exact l.registerFile_eq name path r
      | none => rfl

/-- The registry after some requests. -/
def after (r : Registry) (qs : List Request) : Registry := qs.foldl (fun r q => (l.answer q r).2) r

def attempt? (r : Registry) (q : Request) : Option Attempt :=
  match l.prospect r q with
  | .registers m => some ⟨m, ⟨r.modules.size⟩, (register m r).1⟩
  | _ => none

/-- The registrations that some requests have led to. -/
def attempts : Registry → List Request → List Attempt
  | _, [] => []
  | r, q :: qs => (l.attempt? r q).toList ++ attempts (l.answer q r).2 qs

theorem registers (m : CompiledModule) (r : Registry) : Registry.Registers m r (register m r) :=
  Registry.registers_register m (some .builtins) .object r

/-! ## Where modules come from -/

/-- Every module but the builtins was left by one of these attempts. -/
def Accounts (as : List Attempt) (r : Registry) : Prop :=
  ∀ i < r.modules.size, i = 0 ∨ ∃ a ∈ as, a.id = ⟨i⟩ ∧ a.Leaves

theorem accounts_initial : Accounts [] Registry.initial := by
  have hsize : Registry.initial.modules.size = 1 := by decide +kernel
  intro i hi
  exact .inl (by omega)

theorem Accounts.mono {as bs : List Attempt} {r : Registry} (h : Accounts as r) (hsub : as ⊆ bs) : Accounts bs r := by
  intro i hi
  rcases h i hi with h0 | ⟨a, ha, hid⟩
  · exact .inl h0
  · exact .inr ⟨a, hsub ha, hid⟩

theorem size_of_names {r r' : Registry} {name : String} (h : r'.names = r.names ++ [name]) :
    r'.modules.size = r.modules.size + 1 := by
  rw [← Registry.length_names, h, List.length_append, Registry.length_names]
  rfl

theorem Accounts.grow {as : List Attempt} {r r' : Registry} (h : Accounts as r) {name : String}
    (hnames : r'.names = r.names ++ [name]) {a : Attempt} (hid : a.id = ⟨r.modules.size⟩) (ha : a.Leaves) :
    Accounts (as ++ [a]) r' := by
  intro i hi
  rw [size_of_names hnames] at hi
  rcases Nat.lt_succ_iff_lt_or_eq.1 hi with hlt | rfl
  · exact h.mono (List.subset_append_left as [a]) i hlt
  · exact .inr ⟨a, by simp, hid, ha⟩

theorem Accounts.answer {as : List Attempt} {r : Registry} (h : Accounts as r) (q : Request) :
    Accounts (as ++ (l.attempt? r q).toList) (l.answer q r).2 := by
  rw [l.answer_eq, attempt?]
  cases l.prospect r q with
  | found id => exact h.mono (List.subset_append_left _ _)
  | refused e => exact h.mono (List.subset_append_left _ _)
  | registers m =>
      have hreg := registers m r
      simp only [settle]
      generalize register m r = answer at hreg ⊢
      cases hreg with
      | refused _ => exact h.mono (List.subset_append_left _ _)
      | complete hnames _ => exact h.grow hnames rfl (.inl rfl)
      | broken hlate hnames _ => exact h.grow hnames rfl (.inr ⟨_, rfl, hlate⟩)

theorem Accounts.after {as : List Attempt} {r : Registry} (h : Accounts as r) (qs : List Request) :
    Accounts (as ++ l.attempts r qs) (l.after r qs) := by
  induction qs generalizing as r with
  | nil => exact h.mono (List.subset_append_left _ _)
  | cons q qs ih =>
      have := ih (h.answer l q)
      rwa [List.append_assoc] at this

/-! ## Searching -/

/-- How a search may end. -/
inductive Resolves (name : String) (r : Registry) : Except HostError ModuleId × Registry → Prop
  | found {id : ModuleId} : r.moduleNamed? name = some id → Resolves name r (.ok id, r)
  | refused {e : HostError} : Resolves name r (.error e, r)
  | registered {m : CompiledModule} {answer : Except HostError ModuleId × Registry} : m.name = name →
      Registry.Registers m r answer → Resolves name r answer

theorem resolves_resolve (name : String) (r : Registry) : Resolves name r (l.resolve name r) := by
  have heq : l.resolve name r = _ := l.answer_eq (.resolve name) r
  rw [heq]
  simp only [prospect]
  cases hnamed : r.moduleNamed? name with
  | some id => exact .found hnamed
  | none =>
      cases l.fileFor? name with
      | none => exact .refused
      | some path =>
          simp only [prospectFile]
          cases l.readSource path with
          | error e => exact .refused
          | ok source =>
              dsimp only
              cases hm : assemble name path source with
              | error e => exact .refused
              | ok m => exact .registered (name_assemble hm) (registers m r)

/-- What a search answers is in the registry that it leaves. -/
theorem lt_size_of_resolve {r : Registry} {name : String} {id : ModuleId} (h : (l.resolve name r).1 = .ok id) :
    id.index < (l.resolve name r).2.modules.size := by
  have hres := l.resolves_resolve name r
  generalize l.resolve name r = answer at hres h ⊢
  cases hres with
  | found hnamed =>
      cases h
      exact Registry.index_lt_of_moduleNamed? hnamed
  | refused => cases h
  | registered _ hreg =>
      cases hreg with
      | refused _ => cases h
      | complete hnames _ =>
          cases h
          rw [size_of_names hnames]
          exact Nat.lt_succ_self _
      | broken _ _ _ => cases h

theorem resolve_of_moduleNamed? {r : Registry} {name : String} {id : ModuleId} (h : r.moduleNamed? name = some id) :
    l.resolve name r = (.ok id, r) := by
  have heq : l.resolve name r = _ := l.answer_eq (.resolve name) r
  rw [heq]
  simp only [prospect, h, settle]

theorem moduleNamed?_of_names {r r' : Registry} {name : String} (h : r'.names = r.names ++ [name])
    (hnew : name ∉ r.names) : r'.moduleNamed? name = some ⟨r.modules.size⟩ := by
  have hnone : r.names.findIdx? (fun n => n = name) = none := by
    have h := Registry.moduleNamed?_eq_none.2 hnew
    rwa [Registry.moduleNamed?_eq, Option.map_eq_none_iff] at h
  rw [Registry.moduleNamed?_eq, h, List.findIdx?_append, hnone]
  simp [Registry.length_names]

/-- A search that fails fails again, unless it has left a module of that name; the next search finds that. -/
theorem resolve_again {r : Registry} {name : String} {e : HostError} (h : (l.resolve name r).1 = .error e) :
    l.resolve name (l.resolve name r).2 = l.resolve name r ∨
      e.Late ∧ (l.resolve name (l.resolve name r).2).1 = .ok ⟨r.modules.size⟩ := by
  have hres := l.resolves_resolve name r
  have hsame : (l.resolve name r).2 = r → l.resolve name (l.resolve name r).2 = l.resolve name r :=
    fun heq => by rw [heq]
  generalize hanswer : l.resolve name r = answer at hres h hsame ⊢
  cases hres with
  | found hnamed => cases h
  | refused => exact .inl (hsame rfl)
  | registered hname hreg =>
      cases hreg with
      | refused _ => exact .inl (hsame rfl)
      | complete hnames _ => cases h
      | broken hlate hnames hnew =>
          cases h
          rw [hname] at hnames hnew
          exact .inr ⟨hlate, congrArg Prod.fst (l.resolve_of_moduleNamed? (moduleNamed?_of_names hnames hnew))⟩

/-- After any requests, what a search finds is the builtins, or a module that was registered completely, or one whose
registration was broken off at a superclass. And a search that fails fails again, unless it has just broken off such a
registration itself. -/
theorem resolve_finds_registered (qs : List Request) (name : String) :
    let r := l.after .initial qs
    (∀ id, (l.resolve name r).1 = .ok id → id = .builtins ∨ ∃ a ∈ l.attempts .initial (qs ++ [.resolve name]),
      a.id = id ∧ (a.result = .ok id ∨ ∃ e, a.result = .error e ∧ e.Late)) ∧
    ∀ e, (l.resolve name r).1 = .error e → l.resolve name (l.resolve name r).2 = l.resolve name r ∨
      e.Late ∧ (l.resolve name (l.resolve name r).2).1 = .ok ⟨r.modules.size⟩ := by
  refine ⟨fun id hid => ?_, fun e he => l.resolve_again he⟩
  have haccounts := accounts_initial.after l (qs ++ [.resolve name])
  have hafter : l.after .initial (qs ++ [.resolve name]) = (l.resolve name (l.after .initial qs)).2 :=
    List.foldl_append
  rw [hafter] at haccounts
  rcases haccounts id.index (l.lt_size_of_resolve hid) with h0 | ⟨a, ha, haid, hleaves⟩
  · exact .inl (congrArg ModuleId.mk h0)
  · have hid : a.id = id := haid
    refine .inr ⟨a, ha, hid, ?_⟩
    rw [← hid]
    exact hleaves

/-- A module with one class. -/
def sampleModule (superName : Option String) : CompiledModule :=
  { name := "sample"
    tape := { instructions := #[⟨.ret, .none⟩] }
    classes := #[{ name := "A", superName, start := 0, stop := 1 }] }

/-- A module that was registered is found, and one that is nowhere is missed again. -/
theorem resolve_finds_registered_sample :
    (∃ a ∈ attempts {} .initial [.register (sampleModule none), .resolve "sample"],
      a.id = ⟨1⟩ ∧ (a.result = .ok ⟨1⟩ ∨ ∃ e, a.result = .error e ∧ e.Late)) ∧
      resolve {} "other" (resolve {} "other" (after {} .initial [])).2 = resolve {} "other" (after {} .initial []) := by
  constructor
  · have hfound := (resolve_finds_registered {} [.register (sampleModule none)] "sample").1 ⟨1⟩ (by decide +kernel)
    exact hfound.resolve_left (by decide)
  · have hagain := (resolve_finds_registered {} [] "other").2 (.moduleNotFound "other") (by decide +kernel)
    exact hagain.resolve_right fun hlate => nomatch hlate.1

/-- The class of this module has a superclass that is nowhere. Its registration fails, and the search for it finds
it all the same. -/
theorem broken_module_found :
    (resolve {} "sample" (after {} .initial [.register (sampleModule (some "Nope"))])).1 = .ok ⟨1⟩ ∧
      ∀ a ∈ attempts {} .initial [.register (sampleModule (some "Nope")), .resolve "sample"], a.result ≠ .ok a.id := by
  decide +kernel

end Library

end Spool
