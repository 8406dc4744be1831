import Mathlib.Data.List.Forall2
import Mathlib.Data.Option.Basic
import Mathlib.Order.Basic
import Spool.Heap.Inspect
import Spool.Proofs.Heap.Faults

/-!
# Values up to the names of objects

Two heaps can hold the same objects under different handles. A pairing says which handles name the same object. Values,
payloads, objects and outcomes are the same if they differ in paired handles only.
-/

namespace Spool

/-- Which handle of one heap names the object that a handle of the other names. -/
abbrev Pairing := Handle → Handle → Prop

namespace Pairing

/-- Two handles more name the same object. -/
def link (R : Pairing) (a b : Handle) : Pairing := fun x y => R x y ∨ x = a ∧ y = b

/-- Only some handles of the first heap are paired. -/
def within (R : Pairing) (K : Handle → Prop) : Pairing := fun x y => R x y ∧ K x

variable {R R' : Pairing} {a b : Handle} {K : Handle → Prop}

theorem le_link (R : Pairing) (a b : Handle) : R ≤ R.link a b := fun _ _ h => .inl h

theorem link_self (R : Pairing) (a b : Handle) : R.link a b a b := .inr ⟨rfl, rfl⟩

end Pairing

variable {R R' : Pairing} {a b : Handle} {v w : Value}

/-! ## Lists of pairs -/

section
variable {α β : Type} {S : α → β → Prop} {xs : List α} {ys : List β}

theorem rel_getElem? (h : List.Forall₂ S xs ys) (i : Nat) : Option.Rel S xs[i]? ys[i]? := by
  induction h generalizing i with
  | nil => exact .none
  | cons hxy _ ih =>
      cases i with
      | zero => exact .some hxy
      | succ i => exact ih i

theorem rel_set (h : List.Forall₂ S xs ys) (i : Nat) {x : α} {y : β} (hxy : S x y) :
    List.Forall₂ S (xs.set i x) (ys.set i y) := by
  induction h generalizing i with
  | nil => exact .nil
  | cons hab hrest ih =>
      cases i with
      | zero => exact .cons hxy hrest
      | succ i => exact .cons hab (ih i)

theorem rel_flip {x : Option α} {y : Option β} (h : Option.Rel S x y) : Option.Rel (flip S) y x := by
  cases h with
  | some h => exact .some h
  | none => exact .none

theorem rel_imp {S' : α → β → Prop} {x : Option α} {y : Option β} (h : Option.Rel S x y)
    (hS : ∀ a b, x = some a → S a b → S' a b) : Option.Rel S' x y := by
  cases h with
  | some h => exact .some (hS _ _ rfl h)
  | none => exact .none

theorem rel_cases {x : Option α} {y : Option β} (h : Option.Rel S x y) :
    x = none ∧ y = none ∨ ∃ a b, x = some a ∧ y = some b ∧ S a b := by
  cases h with
  | none => exact .inl ⟨rfl, rfl⟩
  | some h => exact .inr ⟨_, _, rfl, rfl, h⟩

theorem rel_isSome {x : Option α} {y : Option β} (h : Option.Rel S x y) : y.isSome = x.isSome := by
  cases h <;> rfl

theorem rel_bind {γ δ : Type} {T : γ → δ → Prop} {x : Option α} {y : Option β} {f : α → Option γ} {g : β → Option δ}
    (h : Option.Rel S x y) (hfg : ∀ a b, S a b → Option.Rel T (f a) (g b)) : Option.Rel T (x.bind f) (y.bind g) := by
  cases h with
  | some h => exact hfg _ _ h
  | none => exact .none

theorem rel_filterMap {γ δ : Type} {T : γ → δ → Prop} {f : α → Option γ} {g : β → Option δ} (h : List.Forall₂ S xs ys)
    (hfg : ∀ a b, S a b → Option.Rel T (f a) (g b)) : List.Forall₂ T (xs.filterMap f) (ys.filterMap g) := by
  induction h with
  | nil => exact .nil
  | @cons a b _ _ hab _ ih =>
      rw [List.filterMap_cons, List.filterMap_cons]
      rcases rel_cases (hfg a b hab) with ⟨hx, hy⟩ | ⟨c, d, hx, hy, hcd⟩
      · rw [hx, hy]
        exact ih
      · rw [hx, hy]
        exact .cons hcd ih

theorem map_eq_of_rel {γ : Type} {f : α → γ} {g : β → γ} (h : List.Forall₂ S xs ys) (hfg : ∀ a b, S a b → g b = f a) :
    ys.map g = xs.map f := by
  induction h with
  | nil => rfl
  | cons hab _ ih => rw [List.map_cons, List.map_cons, hfg _ _ hab, ih]

end

/-! ## Values -/

namespace Value

inductive Pairs (R : Pairing) : Value → Value → Prop where
  | none : Pairs R none none
  | scalar (s : Scalar) : Pairs R (scalar s) (scalar s)
  | object {a b : Handle} : R a b → Pairs R (object a) (object b)

theorem Pairs.imp (h : v.Pairs R w) (hR : ∀ a b, v = .object a → R a b → R' a b) : v.Pairs R' w := by
  cases h with
  | none => exact .none
  | scalar s => exact .scalar s
  | object h => exact .object (hR _ _ rfl h)

theorem Pairs.mono (h : v.Pairs R w) (hle : R ≤ R') : v.Pairs R' w := h.imp fun a b _ => hle a b

theorem Pairs.symm (h : v.Pairs R w) : w.Pairs (flip R) v := by
  cases h with
  | none => exact .none
  | scalar s => exact .scalar s
  | object h => exact .object h

theorem pairs_ofBool (b : Bool) : (ofBool b).Pairs R (ofBool b) := by
  cases b with
  | true => exact .scalar _
  | false => exact .none

section
variable (h : v.Pairs R w)
include h

theorem Pairs.isTrue : w.isTrue = v.isTrue := by cases h <;> rfl

theorem Pairs.isNone : w.isNone = v.isNone := by cases h <;> rfl

theorem Pairs.scalar? : w.scalar? = v.scalar? := by cases h <;> rfl

theorem Pairs.int? : w.int? = v.int? := by cases h <;> rfl

theorem Pairs.handle? : Option.Rel R v.handle? w.handle? := by
  cases h with
  | none => exact .none
  | scalar s => exact .none
  | object h => exact .some h

end

end Value

/-- Lists of values that are the same one by one. -/
abbrev Value.AllPairs (R : Pairing) : List Value → List Value → Prop := List.Forall₂ (Value.Pairs R)

theorem Value.AllPairs.imp {vs ws : List Value} (h : AllPairs R vs ws)
    (hR : ∀ a b, .object a ∈ vs → R a b → R' a b) : AllPairs R' vs ws := by
  induction h with
  | nil => exact .nil
  | cons hv _ ih =>
      refine .cons (hv.imp fun a b ha => hR a b ?_) (ih fun a b ha => hR a b (List.mem_cons_of_mem _ ha))
      rw [ha]
      exact List.mem_cons_self

theorem Value.AllPairs.mono {vs ws : List Value} (h : AllPairs R vs ws) (hle : R ≤ R') : AllPairs R' vs ws :=
  h.imp fun a b _ => hle a b

theorem Value.AllPairs.symm {vs ws : List Value} (h : AllPairs R vs ws) : AllPairs (flip R) ws vs :=
  List.Forall₂.flip (List.Forall₂.imp (fun _ _ => Value.Pairs.symm) h)

/-- Bindings that bind the same names to the same values. -/
def Bindings.Pairs (R : Pairing) (b b' : Bindings String Value) : Prop :=
  ∀ name, Option.Rel (Value.Pairs R) (b.get? name) (b'.get? name)

namespace Bindings

variable {b b' : Bindings String Value}

theorem Pairs.imp (h : b.Pairs R b') (hR : ∀ x y, .object x ∈ b.values → R x y → R' x y) : b.Pairs R' b' :=
  fun name => rel_imp (h name) fun _ _ hv hp => hp.imp fun x y hx => hR x y (hx ▸ mem_values_of_get? hv)

theorem Pairs.symm (h : b.Pairs R b') : b'.Pairs (flip R) b := fun name =>
  rel_imp (rel_flip (h name)) fun _ _ _ hp => hp.symm

theorem Pairs.empty : ({} : Bindings String Value).Pairs R {} := fun _ => .none

theorem Pairs.insert (h : b.Pairs R b') (name : String) (hv : v.Pairs R w) :
    (b.insert name v).Pairs R (b'.insert name w) := by
  intro x
  rw [get?_insert, get?_insert]
  split
  · exact .some hv
  · exact h x

theorem Pairs.contains (h : b.Pairs R b') (name : String) : b'.contains name = b.contains name :=
  rel_isSome (h name)

end Bindings

/-! ## Objects -/

namespace Payload

/-- Payloads that are the same. Nobody looks at the handle of an object of another process. -/
inductive Pairs (R : Pairing) : Payload → Payload → Prop where
  | none : Pairs R none none
  | text (s : String) : Pairs R (text s) (text s)
  | array {xs ys : Array Value} : Value.AllPairs R xs.toList ys.toList → Pairs R (array xs) (array ys)
  | tuple {xs ys : Array Value} : Value.AllPairs R xs.toList ys.toList → Pairs R (tuple xs) (tuple ys)
  | ofClass (c : ClassId) : Pairs R (ofClass c) (ofClass c)
  | ofModule (m : ModuleId) : Pairs R (ofModule m) (ofModule m)
  | ofFunction (f : FunctionId) : Pairs R (ofFunction f) (ofFunction f)
  | bound (f : FunctionId) {v w : Value} (capture : Option ContextId) : v.Pairs R w →
      Pairs R (bound ⟨f, v, capture⟩) (bound ⟨f, w, capture⟩)
  | future (cell : FutureCell) : Pairs R (future cell) (future cell)
  | task (t : TaskId) : Pairs R (task t) (task t)
  | context (c : ContextId) : Pairs R (context c) (context c)
  | process (p : Option ProcessId) : Pairs R (process p) (process p)
  | remote (p : ProcessId) (a b : Handle) : Pairs R (remote ⟨p, a⟩) (remote ⟨p, b⟩)

variable {x y : Payload}

theorem Pairs.imp (h : x.Pairs R y) (hR : ∀ a b, .object a ∈ x.values → R a b → R' a b) : x.Pairs R' y := by
  cases h with
  | array h => exact .array (h.imp hR)
  | tuple h => exact .tuple (h.imp hR)
  | bound f capture h => exact .bound f capture (h.imp fun a b ha => hR a b (ha ▸ List.mem_cons_self))
  | none => exact .none
  | text s => exact .text s
  | ofClass c => exact .ofClass c
  | ofModule m => exact .ofModule m
  | ofFunction f => exact .ofFunction f
  | future cell => exact .future cell
  | task t => exact .task t
  | context c => exact .context c
  | process p => exact .process p
  | remote p a b => exact .remote p a b

theorem Pairs.mono (h : x.Pairs R y) (hle : R ≤ R') : x.Pairs R' y := h.imp fun a b _ => hle a b

theorem Pairs.symm (h : x.Pairs R y) : y.Pairs (flip R) x := by
  cases h with
  | array h => exact .array h.symm
  | tuple h => exact .tuple h.symm
  | bound f capture h => exact .bound f capture h.symm
  | none => exact .none
  | text s => exact .text s
  | ofClass c => exact .ofClass c
  | ofModule m => exact .ofModule m
  | ofFunction f => exact .ofFunction f
  | future cell => exact .future cell
  | task t => exact .task t
  | context c => exact .context c
  | process p => exact .process p
  | remote p a b => exact .remote p b a

theorem Pairs.external? (h : x.Pairs R y) : y.external? = x.external? := by cases h <;> rfl

theorem Pairs.values (h : x.Pairs R y) : Value.AllPairs R x.values y.values := by
  cases h with
  | array h => exact h
  | tuple h => exact h
  | bound f capture h => exact .cons h .nil
  | _ => exact .nil

/-- A payload that holds no values. -/
theorem pairs_of_plain (hx : x.carriesValues = false) : x.Pairs R x := by
  cases x with
  | array items => cases hx
  | tuple items => cases hx
  | bound b => cases hx
  | none => exact .none
  | text s => exact .text s
  | ofClass c => exact .ofClass c
  | ofModule m => exact .ofModule m
  | ofFunction f => exact .ofFunction f
  | future cell => exact .future cell
  | task t => exact .task t
  | context c => exact .context c
  | process p => exact .process p
  | remote r => exact .remote r.process r.object r.object

theorem rel_back? {xs ys : Array Value} (h : Value.AllPairs R xs.toList ys.toList) :
    Option.Rel (Value.Pairs R) xs.back? ys.back? := by
  have hsize : ys.size = xs.size := by simpa using h.length_eq.symm
  have hget := rel_getElem? h (xs.size - 1)
  simp only [Array.getElem?_toList] at hget
  simpa only [Array.back?, hsize] using hget

theorem Pairs.pushItem (h : x.Pairs R y) (hv : v.Pairs R w) : (Heap.pushItem v x).Pairs R (Heap.pushItem w y) := by
  have hsame := h
  cases h with
  | array h =>
      refine .array ?_
      simp only [Array.toList_push]
      exact List.rel_append h (.cons hv .nil)
  | _ => exact hsame

theorem Pairs.popItem (h : x.Pairs R y) : (Heap.popItem x).Pairs R (Heap.popItem y) := by
  have hsame := h
  cases h with
  | array h =>
      refine .array ?_
      simp only [Array.toList_pop, List.dropLast_eq_take, h.length_eq]
      exact List.forall₂_take _ h
  | _ => exact hsame

theorem Pairs.storeItem (h : x.Pairs R y) (index : Nat) (hv : v.Pairs R w) :
    (Heap.storeItem index v x).Pairs R (Heap.storeItem index w y) := by
  have hsame := h
  cases h with
  | array h =>
      refine .array ?_
      simpa only [Array.toList_setIfInBounds] using rel_set h index hv
  | tuple h =>
      refine .tuple ?_
      simpa only [Array.toList_setIfInBounds] using rel_set h index hv
  | _ => exact hsame

theorem external?_pushItem (v : Value) (x : Payload) : (Heap.pushItem v x).external? = x.external? := by
  cases x <;> rfl

theorem external?_popItem (x : Payload) : (Heap.popItem x).external? = x.external? := by
  cases x <;> rfl

theorem external?_storeItem (index : Nat) (v : Value) (x : Payload) :
    (Heap.storeItem index v x).external? = x.external? := by
  cases x <;> rfl

end Payload

namespace Object

structure Pairs (R : Pairing) (o o' : Object) : Prop where
  ofClass : o'.ofClass = o.ofClass
  members : o.members.Pairs R o'.members
  payload : o.payload.Pairs R o'.payload

variable {o o' : Object}

theorem Pairs.imp (h : o.Pairs R o') (hR : ∀ a b, .object a ∈ o.values → R a b → R' a b) : o.Pairs R' o' :=
  ⟨h.ofClass, h.members.imp fun a b ha => hR a b (List.mem_append_left _ ha),
    h.payload.imp fun a b ha => hR a b (List.mem_append_right _ ha)⟩

theorem Pairs.mono (h : o.Pairs R o') (hle : R ≤ R') : o.Pairs R' o' := h.imp fun a b _ => hle a b

theorem Pairs.symm (h : o.Pairs R o') : o'.Pairs (flip R) o := ⟨h.ofClass.symm, h.members.symm, h.payload.symm⟩

theorem Pairs.member? (h : o.Pairs R o') (name : String) :
    Option.Rel (Value.Pairs R) (o.member? name) (o'.member? name) := h.members name

theorem Pairs.text? (h : o.Pairs R o') : o'.text? = o.text? := by
  obtain ⟨c, members, x⟩ := o
  obtain ⟨c', members', y⟩ := o'
  obtain ⟨_, _, hp⟩ := h
  cases hp <;> rfl

theorem Pairs.future? (h : o.Pairs R o') : o'.future? = o.future? := by
  obtain ⟨c, members, x⟩ := o
  obtain ⟨c', members', y⟩ := o'
  obtain ⟨_, _, hp⟩ := h
  cases hp <;> rfl

theorem Pairs.tuple? (h : o.Pairs R o') :
    Option.Rel (fun xs ys => Value.AllPairs R xs.toList ys.toList) o.tuple? o'.tuple? := by
  obtain ⟨c, members, x⟩ := o
  obtain ⟨c', members', y⟩ := o'
  obtain ⟨_, _, hp⟩ := h
  cases hp with
  | tuple h => exact .some h
  | _ => exact .none

theorem Pairs.array? (h : o.Pairs R o') :
    Option.Rel (fun xs ys => Value.AllPairs R xs.toList ys.toList) o.array? o'.array? := by
  obtain ⟨c, members, x⟩ := o
  obtain ⟨c', members', y⟩ := o'
  obtain ⟨_, _, hp⟩ := h
  cases hp with
  | array h => exact .some h
  | _ => exact .none

end Object

/-! ## Outcomes -/

/-- Faults that are the same. Only the message about an object of the wrong kind names a slot of the heap. -/
inductive Fault.Pairs (R : Pairing) : Fault → Fault → Prop where
  | same (e : Fault) : (∀ r, e ≠ .raised r) → Pairs R e e
  | raised {a b : Handle} : R a b → Pairs R (.raised a) (.raised b)
  | slot {a b : Handle} (expected : String) : R a b → Pairs R (Heap.notA a expected) (Heap.notA b expected)

theorem Fault.Pairs.mono {e f : Fault} (h : e.Pairs R f) (hle : R ≤ R') : e.Pairs R' f := by
  cases h with
  | same e he => exact .same e he
  | raised h => exact .raised (hle _ _ h)
  | slot expected h => exact .slot expected (hle _ _ h)

/-- Outcomes that are the same: what the one yields is `A` to what the other yields, or both are faults. -/
inductive Concurs {α β : Type} (R : Pairing) (A : α → β → Prop) : Except Fault α → Except Fault β → Prop where
  | ok {a : α} {b : β} : A a b → Concurs R A (.ok a) (.ok b)
  | error {e f : Fault} : e.Pairs R f → Concurs R A (.error e) (.error f)

end Spool
