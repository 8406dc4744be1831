import Spool.Proofs.Registry.Requests

/-!
# What the assembler does with a line

A statement that is accepted does one of seven things. It is said here with all that has been checked before it is done.

A name gets a label when it is first met, be it in a jump or where it is defined, and the label is bound where the name is
defined. No two names share a label, so binding one moves no other. Filling in the jumps changes their operands only.
-/

namespace Spool

namespace Assembler

/-! ## Labels -/

section
variable {names : Bindings String Nat} {places : Array (Option Nat)} {name : String} {label : Nat}

/-- Every name that has been met has a label of its own. -/
structure Numbered (names : Bindings String Nat) (places : Array (Option Nat)) : Prop where
  lt : ∀ {name label}, names.get? name = some label → label < places.size
  unique : ∀ {name name' label}, names.get? name = some label → names.get? name' = some label → name = name'

/-- The position that the label of a name is bound to, once it is. -/
def bound? (names : Bindings String Nat) (places : Array (Option Nat)) (name : String) : Option Nat :=
  (names.get? name).bind fun label => places[label]?.join

theorem Numbered.insert (hn : Numbered names places) (name : String) :
    Numbered (names.insert name places.size) (places.push none) where
  lt {n l} h := by
    rw [Bindings.get?_insert] at h
    split at h
    · cases h
      simp
    · rw [Array.size_push]
      exact Nat.lt_succ_of_lt (hn.lt h)
  unique {n n' l} h h' := by
    rw [Bindings.get?_insert] at h h'
    split at h <;> split at h'
    · exact ‹name = n› ▸ ‹name = n'›
    · cases h
      exact absurd (hn.lt h') (Nat.lt_irrefl _)
    · cases h'
      exact absurd (hn.lt h) (Nat.lt_irrefl _)
    · exact hn.unique h h'

/-- A new label is bound to nothing. -/
theorem bound?_insert (hfree : names.get? name = none) (n : String) :
    bound? (names.insert name places.size) (places.push none) n = bound? names places n := by
  unfold bound?
  rw [Bindings.get?_insert]
  split
  · rename_i hname
    simp [← hname, hfree]
  · refine congrArg _ (funext fun l => ?_)
    rw [Array.getElem?_push]
    split
    · rename_i hl
      simp [hl]
    · rfl

theorem Numbered.bind (hn : Numbered names places) (label : Nat) (position : Option Nat) :
    Numbered names (places.setIfInBounds label position) where
  lt h := by simpa using hn.lt h
  unique h h' := hn.unique h h'

theorem bound?_bind (hn : Numbered names places) (hlabel : names.get? name = some label) (position : Nat) (n : String) :
    bound? names (places.setIfInBounds label (some position)) n =
      if n = name then some position else bound? names places n := by
  unfold bound?
  by_cases hname : n = name
  · subst hname
    simp [hlabel, hn.lt hlabel]
  · rw [if_neg hname]
    cases hl : names.get? n with
    | none => rfl
    | some l =>
        have hne : label ≠ l := fun h => hname (hn.unique hl (h ▸ hlabel))
        simp [hne]

/-! ## Asking for a label -/

/-- The name has the label, all other names keep theirs, and no label is bound. -/
structure Labels (a : Assembler) (name : String) (label : Nat) (names : Bindings String Nat)
    (places : Array (Option Nat)) : Prop where
  get? : names.get? name = some label
  kept : ∀ {n l}, a.labels.get? n = some l → names.get? n = some l
  bound? : ∀ n, bound? names places n = Assembler.bound? a.labels a.builder.labels n
  numbered : Numbered a.labels a.builder.labels → Numbered names places

theorem label_eq (a : Assembler) (name : String) : ∃ label names places,
    a.label name = (label, { a with builder := { a.builder with labels := places }, labels := names }) ∧
      Labels a name label names places := by
  unfold Assembler.label
  cases hname : a.labels.get? name with
  | some label => exact ⟨label, a.labels, a.builder.labels, rfl, hname, id, fun _ => rfl, id⟩
  | none =>
      refine ⟨a.builder.labels.size, a.labels.insert name a.builder.labels.size, a.builder.labels.push none, rfl, ?_⟩
      refine ⟨by simp [Bindings.get?_insert], fun {n l} h => ?_, bound?_insert hname, fun hn => hn.insert name⟩
      rw [Bindings.get?_insert, if_neg, h]
      rintro rfl
      cases h.symm.trans hname

end

/-! ## Statements -/

/-- What each line can do to the assembler. -/
inductive Takes (a : Assembler) (n : Nat) : Statement → Assembler → Prop
  | blank : Takes a n .blank a
  | label {name : List Char} {label : Nat} {a' : Assembler} (hfresh : String.ofList name ∉ a.defined)
      (hlabel : ({ a with defined := String.ofList name :: a.defined } : Assembler).label (String.ofList name) = (label, a')) :
      Takes a n (.label name) { a' with builder := a'.builder.bindLabel label }
  | function {name : List Char} {words : List (List Char)} {flags : Flags} (hname : isIdentifier name)
      (hflags : readFlags words = .ok flags) :
      Takes a n (.directive "func".toList (name :: words))
        { a with builder := a.builder.function (String.ofList name) flags }
  | beginClass {name : List Char} {words rest : List (List Char)} {superName : Option String} {fields : List String}
      (hopen : a.builder.openClass = none) (hname : isIdentifier name) (hsuper : readSuper words = .ok (superName, rest))
      (hfields : readFields rest = .ok fields) :
      Takes a n (.directive "class".toList (name :: words))
        { a with builder := a.builder.beginClass (String.ofList name) superName fields }
  | endClass {words : List (List Char)} {c : Nat} (hopen : a.builder.openClass = some c) :
      Takes a n (.directive "end".toList words) { a with builder := a.builder.endClass }
  | jump {word target : List Char} {op : Op} {column label : Nat} {a' : Assembler}
      (hop : Op.ofName? (String.ofList word) = some op) (hjump : op.isJump)
      (hlabel : ({ a with builder := a.builder.locate n column, used := a.used.push (String.ofList target, n) } :
        Assembler).label (String.ofList target) = (label, a')) :
      Takes a n (.instruction word ('@' :: target) column) { a' with builder := a'.builder.jump op label }
  | plain {word text : List Char} {op : Op} {operand : Operand} {column : Nat}
      (hop : Op.ofName? (String.ofList word) = some op) (htext : text.head? ≠ some '@')
      (hread : Literal.read text = .ok operand) (hfits : Literal.fits op.shape operand) :
      Takes a n (.instruction word text column) { a with builder := (a.builder.locate n column).emit op operand }

variable {a a' : Assembler} {n : Nat}

theorem takes_define {name : List Char} (h : a.define (String.ofList name) = .ok a') : Takes a n (.label name) a' := by
  unfold define at h
  split at h
  · cases h
  · rename_i hfresh
    cases h
    exact .label (by simpa using hfresh) rfl

theorem readName_eq_ok {missing : AssemblyError} {words rest : List (List Char)} {name : String}
    (h : readName missing words = .ok (name, rest)) :
    ∃ word, words = word :: rest ∧ isIdentifier word ∧ name = String.ofList word := by
  unfold readName at h
  split at h
  · split at h
    · rename_i hid
      cases h
      exact ⟨_, rfl, hid, rfl⟩
    · cases h
  · cases h

theorem takes_directive {name : List Char} {words : List (List Char)}
    (h : a.directive (String.ofList name) words = .ok a') : Takes a n (.directive name words) a' := by
  unfold directive at h
  split at h
  · rename_i hname
    obtain ⟨⟨fname, rest⟩, hread, h⟩ := ok_of_bind h
    obtain ⟨flags, hflags, h⟩ := ok_of_bind h
    obtain ⟨word, rfl, hid, rfl⟩ := readName_eq_ok hread
    cases h
    rw [← String.toList_ofList (l := name), hname]
    exact .function hid hflags
  · rename_i hname
    unfold beginClass at h
    split at h
    · cases h
    · rename_i hopen
      obtain ⟨⟨cname, rest⟩, hread, h⟩ := ok_of_bind h
      obtain ⟨⟨superName, rest'⟩, hsuper, h⟩ := ok_of_bind h
      obtain ⟨fields, hfields, h⟩ := ok_of_bind h
      obtain ⟨word, rfl, hid, rfl⟩ := readName_eq_ok hread
      cases h
      rw [← String.toList_ofList (l := name), hname]
      exact .beginClass (by simpa [Builder.hasOpenClass] using hopen) hid hsuper hfields
  · rename_i hname
    unfold endClass at h
    split at h
    · rename_i hopen
      cases h
      obtain ⟨c, hc⟩ := Option.isSome_iff_exists.1 hopen
      rw [← String.toList_ofList (l := name), hname]
      exact .endClass hc
    · cases h
  · cases h

theorem takes_instruction {word text : List Char} {op : Op} {column : Nat} (hop : Op.ofName? (String.ofList word) = some op)
    (h : ({ a with builder := a.builder.locate n column } : Assembler).instruction n op text = .ok a') :
    Takes a n (.instruction word text column) a' := by
  unfold instruction at h
  split at h
  · unfold jumpTo at h
    split at h
    · cases h
    · rename_i hjump
      split at h
      · cases h
      · cases h
        exact .jump hop (by simpa using hjump) rfl
  · rename_i hat
    obtain ⟨operand, hread, h⟩ := ok_of_bind h
    split at h
    · rename_i hfits
      cases h
      refine .plain hop (fun hhead => ?_) hread hfits
      obtain ⟨target, rfl⟩ := List.head?_eq_some_iff.1 hhead
      exact hat target rfl
    · cases h

theorem takes_statement {s : Statement} (h : a.statement n s = .ok a') : Takes a n s a' := by
  unfold statement at h
  split at h
  · cases h
    exact .blank
  · exact takes_define h
  · exact takes_directive h
  · split at h
    · cases h
    · rename_i hop
      exact takes_instruction hop h

end Assembler

/-! ## Filling in the jumps -/

namespace Builder

theorem resolve_eq_ok {labels : Array (Option Nat)} : ∀ {jumps : List (Nat × Nat)} {instructions out : Array Instruction},
    (jumps.map Prod.fst).Nodup → resolve labels jumps instructions = .ok out →
    out.size = instructions.size ∧ (∀ i, i ∉ jumps.map Prod.fst → out[i]? = instructions[i]?) ∧
    ∀ position label, (position, label) ∈ jumps → ∃ target, labels[label]? = some (some target) ∧
      out[position]? = instructions[position]?.map fun i =>
        { i with operand := .scalar (.int (Int64.ofInt ((target : Int) - position))) } := by
  intro jumps
  induction jumps with
  | nil =>
      intro instructions out _ h
      cases h
      simp
  | cons jump rest ih =>
      intro instructions out hnodup h
      obtain ⟨position, label⟩ := jump
      simp only [List.map_cons, List.nodup_cons] at hnodup
      unfold resolve at h
      split at h
      · cases h
      · rename_i target htarget
        obtain ⟨hsize, hothers, hjumps⟩ := ih hnodup.2 h
        refine ⟨by rw [hsize, Array.size_modify], fun i hi => ?_, fun p l hp => ?_⟩
        · simp only [List.map_cons, List.mem_cons, not_or] at hi
          rw [hothers i hi.2, Array.getElem?_modify, if_neg (Ne.symm hi.1)]
        · rcases List.mem_cons.1 hp with heq | hrest
          · cases heq
            refine ⟨target, Option.join_eq_some_iff.1 htarget, ?_⟩
            rw [hothers position hnodup.1, Array.getElem?_modify, if_pos rfl]
          · obtain ⟨t, ht, hout⟩ := hjumps p l hrest
            refine ⟨t, ht, ?_⟩
            have hne : position ≠ p := by
              rintro rfl
              exact hnodup.1 (List.mem_map.2 ⟨_, hrest, rfl⟩)
            rw [hout, Array.getElem?_modify, if_neg hne]

end Builder

end Spool
