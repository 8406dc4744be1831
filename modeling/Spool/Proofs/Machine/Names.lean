import Spool.Machine.Names
import Spool.Proofs.Machine.Basics
import Spool.Proofs.Machine.Parts

/-!
# Names lead to live values

What a name stands for is found in a context, an object or a module, and is live. A name is bound to live values
only.
-/

namespace Spool.Machine

variable {g : Outlook} {m m' : Machine} {t : TaskId}

/-- A value that may be missing. -/
def Found (v : Option Value) (m : Machine) : Prop := ∀ w ∈ v, m.process.heap.Valid w

theorem found_none {m : Machine} : Found none m := fun _ h => by cases h

theorem found_some {m : Machine} {v : Value} (hv : m.process.heap.Valid v) : Found (some v) m := fun _ h => by
  cases h
  exact hv

/-! ## Looking up -/

theorem valid_local? (hm : m.Going g (some t)) {top : ContextId} (ht : m.top? = some top) {name : String} {v : Value}
    (hv : local? m.process top name = some v) : m.process.heap.Valid v := by
  obtain ⟨c, hc, hget⟩ := List.exists_of_findSome?_eq_some hv
  refine hm.secure_top ht c (Process.encloses_of_mem_chainFrom hc) v ?_
  have := Bindings.mem_values_of_get? hget
  simp [Context.values, this]

theorem keeps_moduleMember (hm : m.Going g (some t)) (module : ModuleId) (name : String) :
    Keeps g (some t) (moduleMember module name) m Found := by
  unfold moduleMember
  refine (keeps_reflect hm (.ofModule module)).bind fun object m₁ hm₁ _ hl => ?_
  refine (keeps_member hm₁ hl name).bind fun v m₂ hm₂ _ hv => ?_
  obtain ⟨rfl, hv⟩ := hv
  split
  · exact keeps_pure hm₂ hv
  · refine keeps_get ?_
    dsimp only
    split
    · split
      · refine (keeps_newBound hm₂ ?_ fun c hc => ?_).bind fun v m₃ hm₃ _ hv => keeps_pure hm₃ (found_some hv)
        · dsimp only
          split
          · exact hm₂.valid_receiver ‹_›
          · exact valid_none
        · exact List.mem_of_mem_head? hc
      · exact (keeps_reflectValue hm₂ _).bind fun v m₃ hm₃ _ hv => keeps_pure hm₃ (found_some hv)
    · split
      · exact (keeps_reflectValue hm₂ _).bind fun v m₃ hm₃ _ hv => keeps_pure hm₃ (found_some hv)
      · exact keeps_pure hm₂ found_none

theorem keeps_receiverMember (hm : m.Going g (some t)) {receiver : Value} (hr : m.process.heap.Valid receiver)
    (name : String) : Keeps g (some t) (receiverMember receiver name) m Found := by
  unfold receiverMember
  split
  · rename_i r
    have hl := hr r rfl
    refine (keeps_member hm hl name).bind fun v m₁ hm₁ _ hv => ?_
    obtain ⟨rfl, hv⟩ := hv
    split
    · exact keeps_pure hm₁ hv
    · have hclass : Keeps g (some t) (look fun h => h.classOf r) m₁ fun _ m' => m' = m₁ := by
        obtain ⟨o, ho⟩ := Heap.isLive_iff.1 hl
        have hf : m₁.process.heap.classOf r = .ok o.ofClass := by
          simp [Heap.classOf, Heap.fetch, ho]
          rfl
        exact keeps_look hm₁ (fun _ _ => rfl) (by simp [hf])
      refine hclass.bind fun c m₂ hm₂ _ he => ?_
      subst he
      refine keeps_get ?_
      split
      · exact (keeps_newBound hm₂ hr fun c hc => by cases hc).bind fun v m₃ hm₃ _ hv => keeps_pure hm₃ (found_some hv)
      · exact keeps_pure hm₂ found_none
  · exact keeps_pure hm found_none

theorem keeps_resolve (hm : m.Going g (some t)) (name : String) :
    Keeps g (some t) (resolve name) m fun v m' => m'.process.heap.Valid v := by
  unfold resolve
  refine keeps_get ?_
  split
  · exact keeps_throw hm (by simp)
  · rename_i top htop
    dsimp only
    split
    · exact keeps_pure hm (hm.valid_receiver htop)
    · split
      · exact keeps_pure hm (valid_local? hm htop ‹_›)
      · refine (keeps_receiverMember hm (hm.valid_receiver htop) name).bind fun v m₁ hm₁ _ hv => ?_
        split
        · exact keeps_pure hm₁ (hv _ rfl)
        · refine (keeps_moduleMember hm₁ _ name).bind fun v m₂ hm₂ _ hv => ?_
          split
          · exact keeps_pure hm₂ (hv _ rfl)
          · split
            · refine (keeps_moduleMember hm₂ _ name).bind fun v m₃ hm₃ _ hv => ?_
              split
              · exact keeps_pure hm₃ (hv _ rfl)
              · exact keeps_throw hm₃ (by simp)
            · exact keeps_throw hm₂ (by simp)

/-! ## Binding -/

theorem kept_setLocal (hm : m.Going g (some t)) (c : ContextId) (name : String) {v : Value}
    (hv : m.process.heap.Valid v) : Kept g (some t) (setLocal c name v) m fun _ _ => True := by
  refine kept_modifyContext hm c (fun c => { c with locals := c.locals.insert name v }) (fun x w hw => ?_) fun _ => rfl
  have hmem : w = v ∨ w ∈ x.locals.values → w ∈ x.values ∨ m.process.heap.Valid w := by
    rintro (rfl | hw)
    · exact .inr hv
    · exact .inl (by simp [Context.values, hw])
  simp only [Context.values, List.cons_append, List.mem_cons, List.mem_append] at hw
  rcases hw with rfl | hw | hw
  · exact .inl (by simp [Context.values])
  · refine hmem ?_
    have := (x.locals.values_insert_perm name v).mem_iff (a := w)
    have hw' := this.1 (List.mem_append_right _ hw)
    simpa using hw'
  · exact .inl (by simp only [Context.values, List.cons_append, List.mem_cons, List.mem_append]; exact .inr (.inr hw))

theorem keeps_bind (hm : m.Going g (some t)) (name : String) {v : Value} (hv : m.process.heap.Valid v) :
    Keeps g (some t) (bind name v) m fun _ _ => True := by
  unfold bind
  refine keeps_get ?_
  split
  · exact keeps_throw hm (by simp)
  · dsimp only
    split
    · refine (keeps_reflect hm _).bind fun object m₁ hm₁ hr₁ hl => ?_
      exact keeps_setMember hm₁ hl name (hr₁.valid v hv)
    · exact (kept_setLocal hm _ name hv).lift

theorem keeps_assign (hm : m.Going g (some t)) (name : String) {v : Value} (hv : m.process.heap.Valid v) :
    Keeps g (some t) (assign name v) m fun _ _ => True := by
  have hmodule : ∀ (m₁ : Machine) (module : ModuleId), m₁.Going g (some t) → m₁.process.heap.Valid v →
      Keeps g (some t) (do
        let object ← moduleObject module
        if (← look fun h => h.member object name).isSome then
          onHeap (Heap.setMember object name v)
        else bind name v) m₁ fun _ _ => True := by
    intro m₁ module hm₁ hv₁
    refine (keeps_reflect hm₁ _).bind fun object m₂ hm₂ hr₂ hl => ?_
    refine (keeps_member hm₂ hl name).bind fun w m₃ hm₃ _ hw => ?_
    obtain ⟨rfl, _⟩ := hw
    split
    · exact keeps_setMember hm₃ hl name (hr₂.valid v hv₁)
    · exact keeps_bind hm₃ name (hr₂.valid v hv₁)
  unfold assign
  refine keeps_get ?_
  split
  · exact keeps_throw hm (by simp)
  · rename_i top htop
    dsimp only
    split
    · exact (kept_setLocal hm _ name hv).lift.bind fun _ m₁ hm₁ _ _ => keeps_pure hm₁ trivial
    · split
      · rename_i r hrec
        have hl : m.process.heap.isLive r := hm.valid_receiver htop r hrec
        refine (keeps_member hm hl name).bind fun w m₁ hm₁ _ hw => ?_
        obtain ⟨rfl, _⟩ := hw
        split
        · exact (keeps_setMember hm₁ hl name hv).bind fun _ m₂ hm₂ _ _ => keeps_pure hm₂ trivial
        · exact hmodule m₁ _ hm₁ hv
      · exact hmodule m _ hm hv

/-! ## Members -/

theorem keeps_contentMember (hm : m.Going g (some t)) {r : Handle} (hr : m.process.heap.isLive r) (name : String) :
    Keeps g (some t) (contentMember r name) m Found := by
  unfold contentMember
  refine (keeps_fetch hm hr).bind fun o m₁ hm₁ _ ho => ?_
  obtain ⟨rfl, ho⟩ := ho
  split
  · rename_i v hv
    refine keeps_pure hm₁ (found_some (hm₁.valid_of_object ho ?_))
    exact List.mem_append_left _ (Bindings.mem_values_of_get? hv)
  · split
    · exact keeps_moduleMember hm₁ _ name
    · refine keeps_get ?_
      split
      · exact (keeps_reflectValue hm₁ _).bind fun v m₂ hm₂ _ hv => keeps_pure hm₂ (found_some hv)
      · exact keeps_pure hm₁ found_none
    · exact keeps_pure hm₁ found_none

theorem keeps_getMember (hm : m.Going g (some t)) {target : Value} (hv : m.process.heap.Valid target) (name : String) :
    Keeps g (some t) (getMember target name) m fun v m' => m'.process.heap.Valid v := by
  have hmethod : ∀ m₁ : Machine, m₁.Going g (some t) → m₁.process.heap.Valid target →
      Keeps g (some t) (boundMethod target name) m₁ fun v m' => m'.process.heap.Valid v := by
    intro m₁ hm₁ hv₁
    unfold boundMethod
    refine keeps_get ?_
    split
    · exact keeps_throw hm₁ (by simp)
    · split
      · exact keeps_newBound hm₁ hv₁ fun c hc => by cases hc
      · exact keeps_throw hm₁ (by simp)
  unfold getMember
  split
  · rename_i r
    refine (keeps_contentMember hm (hv r rfl) name).bind fun v m₁ hm₁ hr₁ hf => ?_
    split
    · exact keeps_pure hm₁ (hf _ rfl)
    · exact hmethod m₁ hm₁ (hr₁.valid _ hv)
  · exact hmethod m hm hv

theorem keeps_setField (hm : m.Going g (some t)) {target : Value} (ht : m.process.heap.Valid target) (name : String)
    {v : Value} (hv : m.process.heap.Valid v) : Keeps g (some t) (setMember target name v) m fun _ _ => True := by
  unfold setMember
  refine (keeps_expectObject hm ht _).bind fun r m₁ hm₁ _ hr => ?_
  obtain ⟨rfl, _, hl⟩ := hr
  exact keeps_setMember hm₁ hl name hv

end Spool.Machine
