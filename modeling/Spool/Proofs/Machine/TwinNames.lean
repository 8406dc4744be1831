import Spool.Proofs.Machine.Twins

/-!
# Names, errors and futures of twins

A name stands for the same on both sides, an error has the same message and the same trace, and a future the same outcome.
No text that a program can write shows a handle, but for the message about an object of the wrong kind.
-/

namespace Spool

/-- The message names a slot of the heap. -/
def Fault.NamesSlot (e : Fault) : Prop := ∃ r expected, e = Heap.notA r expected

namespace Machine

variable {R R' : Pairing} {m k : Machine} {α β : Type}

/-! ## Names -/

section
variable {S : α → β → Prop} {x : Option α} {y : Option β}

theorem rel_findSome? {ι : Type} {l : List ι} {f : ι → Option α} {g : ι → Option β} (h : ∀ i ∈ l, Option.Rel S (f i) (g i)) :
    Option.Rel S (l.findSome? f) (l.findSome? g) := by
  induction l with
  | nil => exact .none
  | cons i rest ih =>
      rw [List.findSome?_cons, List.findSome?_cons]
      have hi := h i List.mem_cons_self
      generalize f i = x at hi
      generalize g i = y at hi
      cases hi with
      | some hab => exact .some hab
      | none => exact ih fun j hj => h j (List.mem_cons_of_mem i hj)

end

/-- The local variables around a context are the same. -/
theorem rel_local? {p q : Process} (hb : q.bare = p.bare) {top : ContextId} (hm : Process.Matches R p q top)
    (name : String) :
    Option.Rel (Value.Pairs R) (local? p top name) (local? q top name) := by
  unfold local?
  rw [Process.chain_eq_of_bare hb]
  exact rel_findSome? fun c hc => (hm.encloses (Process.encloses_of_mem_chainFrom hc)).pairs.locals name

theorem tallies_some {v w : Value} (h : v.Pairs R w) :
    Tallies R (fun R => Option.Rel (Value.Pairs R)) (Pure.pure (some v)) (Pure.pure (some w)) :=
  tallies_pure fun _ hle => .some (h.mono hle)

theorem tallies_none : Tallies R (fun R => Option.Rel (Value.Pairs R)) (Pure.pure none) (Pure.pure none) :=
  tallies_pure fun _ _ => .none

theorem tallies_moduleMember (module : ModuleId) (name : String) :
    Tallies R (fun R => Option.Rel (Value.Pairs R)) (moduleMember module name) (moduleMember module name) := by
  refine (tallies_moduleObject module).bind fun R₁ a b _ hab => (tallies_member hab name).bind fun R₂ v w _ hvw => ?_
  cases hvw with
  | some h => exact tallies_some h
  | none =>
      refine tallies_get fun R₃ m k _ ht => ?_
      dsimp only
      rw [ht.registry, ht.top?]
      cases (m.host.registry.moduleAt module).functions.get? name with
      | some function =>
          by_cases hanon : (m.host.registry.functionAt function).flags.anon
          · simp only [hanon, if_true]
            -- the receiver is that of the innermost context, if there is one
            cases htop : m.top? with
            | none =>
                exact (meets_newBound ht _ none .none fun _ h => by cases h).bind fun _ _ _ _ _ _ ht' h _ _ =>
                  ht'.pure (.some h)
            | some c =>
                exact (meets_newBound ht _ (some c) (ht.matches_top htop).pairs.receiver fun _ h => htop.trans h).bind
                  fun _ _ _ _ _ _ ht' h _ _ => ht'.pure (.some h)
          · simp only [hanon]
            exact ((tallies_reflect _).bind fun _ _ _ _ h => tallies_some h).run ht
      | none =>
          cases m.host.registry.classNamed? module name with
          | some c => exact ((tallies_reflect _).bind fun _ _ _ _ h => tallies_some h).run ht
          | none => exact ht.pure .none

theorem tallies_receiverMember {v w : Value} (hv : v.Pairs R w) (name : String) :
    Tallies R (fun R => Option.Rel (Value.Pairs R)) (receiverMember v name) (receiverMember w name) := by
  cases hv with
  | none => exact tallies_none
  | scalar s => exact tallies_none
  | object hab =>
      refine (tallies_member hab name).bind fun R₁ x y hle hxy => ?_
      cases hxy with
      | some h => exact tallies_some h
      | none =>
          refine (tallies_classOf (hle _ _ hab)).bind fun R₂ c d hle₂ hcd => tallies_get fun R₃ m k hle₃ ht => ?_
          rw [ht.registry, hcd]
          cases m.host.registry.findMethod? c name with
          | some function =>
              exact (meets_newBound ht function none (.object (hle₃ _ _ (hle₂ _ _ (hle _ _ hab)))) nofun).bind
                fun _ _ _ _ _ _ ht' h _ _ => ht'.pure (.some h)
          | none => exact ht.pure .none

theorem tallies_resolve (name : String) : Tallies R Value.Pairs (resolve name) (resolve name) := by
  have hunknown : ∀ {R : Pairing}, Tallies R Value.Pairs (throw (.unknownName name) : Act Machine Value)
      (throw (.unknownName name)) := tallies_refuse nofun
  refine tallies_get fun R₁ m k _ ht => ?_
  dsimp only
  rw [ht.top?]
  cases htop : m.top? with
  | none => exact hunknown.run ht
  | some top =>
      have hpairs := (ht.matches_top htop).pairs
      have hmodule : (k.process.contextAt top).module = (m.process.contextAt top).module :=
        (congrArg Context.module (ht.bare_contextAt top) :)
      have hlocal := rel_local? ht.process.bare (ht.matches_top htop) name
      dsimp only
      rw [hmodule]
      generalize local? m.process top name = x at hlocal
      generalize local? k.process top name = y at hlocal
      split
      · exact ht.pure hpairs.receiver
      · cases hlocal with
        | some h => exact ht.pure h
        | none =>
            refine Tallies.run ((tallies_receiverMember hpairs.receiver name).bind fun R₂ v w _ hvw => ?_) ht
            cases hvw with
            | some h => exact tallies_pure fun _ hle => h.mono hle
            | none =>
                refine (tallies_moduleMember _ name).bind fun R₃ v w _ hvw => ?_
                cases hvw with
                | some h => exact tallies_pure fun _ hle => h.mono hle
                | none =>
                    dsimp only
                    split
                    · refine (tallies_moduleMember .builtins name).bind fun R₄ v w _ hvw => ?_
                      cases hvw with
                      | some h => exact tallies_pure fun _ hle => h.mono hle
                      | none => exact hunknown
                    · exact hunknown

section
variable {v w : Value} (hv : v.Pairs R w)
include hv

theorem tallies_setLocal (c : ContextId) (name : String) :
    Tallies R Any (liftM (setLocal c name v)) (liftM (setLocal c name w)) := fun _ _ _ hle ht =>
  Joins.lift (ht.modifyProcess (ht.process.modifyContext c (fun _ _ h => h)
    (fun h => ⟨h.receiver, h.locals.insert name (hv.mono hle), h.error⟩) fun _ => rfl))

theorem tallies_bind (name : String) : Tallies R Any (Machine.bind name v) (Machine.bind name w) := by
  refine tallies_get fun R₁ m k hle ht => ?_
  rw [ht.top?]
  cases htop : m.top? with
  | none => exact ht.throw (.same _ nofun)
  | some top =>
      have hbare := ht.bare_contextAt top
      have hkind : (k.process.contextAt top).kind = (m.process.contextAt top).kind := (congrArg Context.kind hbare :)
      have hmodule : (k.process.contextAt top).module = (m.process.contextAt top).module :=
        (congrArg Context.module hbare :)
      dsimp only
      rw [hkind, hmodule]
      split
      · exact ((tallies_moduleObject _).bind fun R₂ a b hle₂ hab =>
          tallies_setMember hab name (hv.mono (hle.trans hle₂))).run ht
      · exact (tallies_setLocal (hv.mono hle) top name).run ht

theorem tallies_assign (name : String) : Tallies R Any (assign name v) (assign name w) := by
  have hmodule : ∀ {R' : Pairing} (module : ModuleId), R ≤ R' → Tallies R' Any (do
        let object ← moduleObject module
        if (← look fun h => h.member object name).isSome then
          onHeap (Heap.setMember object name v)
        else Machine.bind name v : Act Machine Unit) (do
        let object ← moduleObject module
        if (← look fun h => h.member object name).isSome then
          onHeap (Heap.setMember object name w)
        else Machine.bind name w : Act Machine Unit) := by
    intro R' module hle
    refine (tallies_moduleObject module).bind fun R₁ a b hle₁ hab => (tallies_member hab name).bind fun R₂ x y hle₂ hxy => ?_
    have hv₂ := hv.mono (hle.trans (hle₁.trans hle₂))
    rw [rel_isSome hxy]
    split
    · exact tallies_setMember (hle₂ _ _ hab) name hv₂
    · exact tallies_bind hv₂ name
  refine tallies_get fun R₁ m k hle ht => ?_
  rw [ht.top?]
  cases htop : m.top? with
  | none => exact ht.throw (.same _ nofun)
  | some top =>
      have hmatches := ht.matches_top htop
      have hsame : (k.process.contextAt top).module = (m.process.contextAt top).module :=
        (congrArg Context.module (ht.bare_contextAt top) :)
      have hfind : (k.process.chain top).find? (fun c => (k.process.contextAt c).locals.contains name)
          = (m.process.chain top).find? fun c => (m.process.contextAt c).locals.contains name := by
        rw [Process.chain_eq_of_bare ht.process.bare]
        refine List.find?_congr fun c hc => ?_
        exact (hmatches.encloses (Process.encloses_of_mem_chainFrom hc)).pairs.locals.contains name
      dsimp only
      rw [hfind, hsame]
      cases (m.process.chain top).find? fun c => (m.process.contextAt c).locals.contains name with
      | some c =>
          exact ((tallies_setLocal (hv.mono hle) c name).bind fun _ _ _ _ _ => tallies_pure fun _ _ => trivial).run ht
      | none =>
          have hreceiver := hmatches.pairs.receiver
          generalize (m.process.contextAt top).receiver = x at hreceiver
          generalize (k.process.contextAt top).receiver = y at hreceiver
          cases hreceiver with
          | object hab =>
              refine Tallies.run ((tallies_member hab name).bind fun R₂ x y hle₂ hxy => ?_) ht
              rw [rel_isSome hxy]
              split
              · exact (tallies_setMember (hle₂ _ _ hab) name (hv.mono (hle.trans hle₂))).bind fun _ _ _ _ _ =>
                  tallies_pure fun _ _ => trivial
              · exact hmodule _ (hle.trans hle₂)
          | none => exact (hmodule _ hle).run ht
          | scalar s => exact (hmodule _ hle).run ht

end

theorem tallies_contentMember {a b : Handle} (hab : R a b) (name : String) :
    Tallies R (fun R => Option.Rel (Value.Pairs R)) (contentMember a name) (contentMember b name) := by
  refine (tallies_fetch hab).bind fun R₁ o o' _ ho => ?_
  have hmember := ho.member? name
  generalize o.member? name = x at hmember
  generalize o'.member? name = y at hmember
  cases hmember with
  | some h => exact tallies_some h
  | none =>
      have hp := ho.payload
      generalize o.payload = x at hp
      generalize o'.payload = y at hp
      cases hp with
      | ofModule module => exact tallies_moduleMember module name
      | ofClass c =>
          refine tallies_get fun R₂ m k _ ht => ?_
          rw [ht.registry]
          cases m.host.registry.findMethod? c name with
          | some f => exact ((tallies_reflect _).bind fun _ _ _ _ h => tallies_some h).run ht
          | none => exact ht.pure .none
      | _ => exact tallies_none

theorem tallies_getMember {v w : Value} (hv : v.Pairs R w) (name : String) :
    Tallies R Value.Pairs (getMember v name) (getMember w name) := by
  have hmethod : ∀ {R' : Pairing}, R ≤ R' → Tallies R' Value.Pairs (boundMethod v name) (boundMethod w name) := by
    intro R' hle
    refine tallies_get fun R₂ m k hle₂ ht => ?_
    have hv₂ := hv.mono (hle.trans hle₂)
    rw [ht.process.heap.classOf? hv₂]
    cases m.process.heap.classOf? v with
    | none => exact ht.throw (.same _ nofun)
    | some c =>
        dsimp only
        rw [ht.registry, ht.typeName hv₂]
        cases m.host.registry.findMethod? c name with
        | some f => exact meets_newBound ht f none hv₂ nofun
        | none => exact ht.throw (.same _ nofun)
  cases hv with
  | none => exact hmethod (le_refl R)
  | scalar s => exact hmethod (le_refl R)
  | object hab =>
      refine (tallies_contentMember hab name).bind fun R₁ x y hle hxy => ?_
      cases hxy with
      | some h => exact tallies_pure fun _ hle => h.mono hle
      | none => exact hmethod hle

theorem tallies_setField {v w x y : Value} (hv : v.Pairs R w) (name : String) (hx : x.Pairs R y) :
    Tallies R Any (setMember v name x) (setMember w name y) :=
  (tallies_expectObject hv _).bind fun _ _ _ hle hab => tallies_setMember hab name (hx.mono hle)

/-! ## Loops -/

theorem tallies_mapM {γ δ : Type} {S : Pairing → γ → δ → Prop} (hS : ∀ {R R' : Pairing} {c d}, R ≤ R' → S R c d → S R' c d)
    {f : α → Act Machine γ} {g : α → Act Machine δ} (xs : List α) (h : ∀ a ∈ xs, Tallies R S (f a) (g a)) :
    Tallies R (fun R => List.Forall₂ (S R)) (xs.mapM f) (xs.mapM g) := by
  induction xs with
  | nil => exact tallies_pure fun _ _ => .nil
  | cons a rest ih =>
      rw [List.mapM_cons, List.mapM_cons]
      have hrest := ih fun b hb => h b (List.mem_cons_of_mem a hb)
      refine (h a List.mem_cons_self).bind fun R₁ c d hle hcd => (hrest.mono hle).bind fun R₂ cs ds hle₂ hcs => ?_
      exact tallies_pure fun R₃ hle₃ => .cons (hS (hle₂.trans hle₃) hcd) (hcs.imp fun _ _ => hS hle₃)

/-! ## Errors -/

theorem Twin.traceLine (ht : m.Twin R k) (innermost : Bool) (t : TaskId) :
    k.traceLine innermost t = m.traceLine innermost t := by
  have htop : (k.process.taskAt t).top? = (m.process.taskAt t).top? :=
    (congrArg Task.top? (Process.bare_taskAt ht.process.bare t) :)
  have hcontext : ∀ c, (k.process.contextAt c).cursor = (m.process.contextAt c).cursor ∧
      (k.process.contextAt c).module = (m.process.contextAt c).module ∧
      (k.process.contextAt c).function = (m.process.contextAt c).function := fun c =>
    ⟨(congrArg Context.cursor (ht.bare_contextAt c) :), (congrArg Context.module (ht.bare_contextAt c) :),
      (congrArg Context.function (ht.bare_contextAt c) :)⟩
  unfold Machine.traceLine
  rw [htop, ht.registry]
  cases (m.process.taskAt t).top? with
  | none => rfl
  | some c =>
      obtain ⟨hcursor, hmodule, hfunction⟩ := hcontext c
      simp only [Option.map_some, hcursor, hmodule, hfunction]

theorem Twin.stackTrace (ht : m.Twin R k) : k.stackTrace = m.stackTrace := by
  unfold Machine.stackTrace
  simp only [ht.task, Process.ancestry_eq_of_bare ht.process.bare, ht.traceLine]

theorem tallies_newTraceLine (line : TraceLine) : Tallies R Value.Pairs (newTraceLine line) (newTraceLine line) := by
  unfold newTraceLine
  simp only [onHeap_bind]
  refine (tallies_newObject _).bind fun R₁ a b _ hab => (tallies_newText _).bind fun R₂ module module' h₂ hmodule => ?_
  refine (tallies_newText _).bind fun R₃ function function' h₃ hfunction => ?_
  refine (tallies_newText _).bind fun R₄ text text' h₄ htext => ?_
  have hab := (h₂.trans (h₃.trans h₄)) _ _ hab
  have hmodule := hmodule.mono (h₃.trans h₄)
  have hfunction := hfunction.mono h₄
  have hset : ∀ {R' : Pairing} (name : String) {v w : Value}, R₄ ≤ R' → v.Pairs R₄ w →
      Tallies R' Any (onHeap (Heap.setMember a name v)) (onHeap (Heap.setMember b name w)) := fun name _ _ hle hv =>
    tallies_setMember (hle _ _ hab) name (hv.mono hle)
  refine Tallies.bind (A := Any) ?_ fun R₅ _ _ h₅ _ => tallies_pure fun _ hle => .object (hle _ _ (h₅ _ _ hab))
  refine (hset _ (le_refl R₄) hmodule).bind fun R₅ _ _ h₅ _ => (hset _ h₅ hfunction).bind fun R₆ _ _ h₆ _ => ?_
  refine (hset _ (h₅.trans h₆) (.scalar _)).bind fun R₇ _ _ h₇ _ => ?_
  refine (hset _ (h₅.trans (h₆.trans h₇)) (.scalar _)).bind fun R₈ _ _ h₈ _ => ?_
  exact hset _ (h₅.trans (h₆.trans (h₇.trans h₈))) htext

theorem tallies_newTrace : Tallies R Value.Pairs newTrace newTrace :=
  tallies_get fun R₁ m k _ ht => by
    rw [ht.stackTrace]
    exact ((tallies_mapM (fun hle h => h.mono hle) _ fun line _ => tallies_newTraceLine line).bind
      fun R₂ vs ws _ h => tallies_newArray h).run ht

theorem tallies_initError {a b : Handle} {v w : Value} (hab : R a b) (hv : v.Pairs R w) :
    Tallies R Any (initError a v) (initError b w) := by
  unfold initError
  simp only [onHeap_bind]
  refine tallies_newTrace.bind fun R₁ x y h₁ hxy => ?_
  refine (tallies_setMember (h₁ _ _ hab) _ (hv.mono h₁)).bind fun R₂ _ _ h₂ _ => ?_
  exact tallies_setMember (h₂ _ _ (h₁ _ _ hab)) _ (hxy.mono h₂)

theorem Twin.newError (ht : m.Twin R k) (message : String) :
    Joins R (fun R => R) (Machine.newError message m) (Machine.newError message k) := by
  obtain ⟨R₁, h₁, ht₁, hab⟩ := ht.newObject .error
  obtain ⟨R₂, h₂, ht₂, hv⟩ := ht₁.newText message
  obtain ⟨R₃, h₃, ht₃, _⟩ := (tallies_initError (h₂ _ _ hab) hv).run ht₂
  exact ⟨R₃, h₁.trans (h₂.trans h₃), ht₃, h₃ _ _ (h₂ _ _ hab)⟩

/-- Errors that are the same, if their messages name no slot. -/
theorem Twin.errorObject (ht : m.Twin R k) {e e' : Fault} (he : e.Pairs R e') (hs : ¬ e.NamesSlot) :
    Joins R (fun R => R) (Machine.errorObject e m) (Machine.errorObject e' k) := by
  cases he with
  | @raised a b hab =>
      obtain ⟨hl, hr⟩ := ht.process.heap.isLive hab
      have hrun : ∀ (n : Machine) (r : Handle), n.process.heap.isLive r → Machine.errorObject (.raised r) n = (r, n) := by
        intro n r hr
        change (if n.process.heap.isLive r then Pure.pure r else Machine.newError _ : StateM Machine Handle) n = _
        rw [if_pos hr]
        rfl
      rw [hrun m a hl, hrun k b hr]
      exact ⟨R, le_refl R, ht, hab⟩
  | slot expected hab => exact absurd ⟨_, _, rfl⟩ hs
  | same e he =>
      have hrun : Machine.errorObject e = Machine.newError e.text := by
        unfold Machine.errorObject
        split
        · exact absurd rfl (he _)
        · rfl
      rw [hrun]
      exact ht.newError _

theorem Twin.raise (ht : m.Twin R k) {e e' : Fault} (he : e.Pairs R e') (hs : ¬ e.NamesSlot) :
    Joins R Any (Machine.raise e m) (Machine.raise e' k) := by
  obtain ⟨R₁, h₁, ht₁, hab⟩ := ht.errorObject he hs
  rw [raise_eq, raise_eq, ht₁.top?]
  cases htop : (Machine.errorObject e m).2.top? with
  | some c =>
      obtain ⟨R₂, h₂, ht₂, _⟩ := ht₁.modifyProcess
        (f := fun p => p.modifyContext c fun c => { c with error := some (Machine.errorObject e m).1 })
        (g := fun p => p.modifyContext c fun c => { c with error := some (Machine.errorObject e' k).1 })
        (ht₁.process.setError c (.some hab))
      exact ⟨R₂, h₁.trans h₂, ht₂, trivial⟩
  | none =>
      obtain ⟨R₂, h₂, ht₂, _⟩ := ht₁.modifyCurrent (f := fun t => { t with register := .object _, state := .error })
        (g := fun t => { t with register := .object _, state := .error })
        (fun _ _ h => (congrArg (fun a : Task => { a with state := .error }) h :))
        ⟨.object hab, ht₁.current.stack⟩ (List.Subset.refl _)
      exact ⟨R₂, h₁.trans h₂, ht₂, trivial⟩

/-! ## Reporting -/

theorem Twin.object? (ht : m.Twin R k) {a b : Handle} (hab : R a b) :
    Option.Rel (Object.Pairs R) (m.process.heap.object? a) (k.process.heap.object? b) := by
  obtain ⟨o, o', ho, ho', hp⟩ := ht.process.heap.objects hab
  rw [ho, ho']
  exact .some hp

theorem Twin.memberText (ht : m.Twin R k) {o o' : Object} (ho : o.Pairs R o') (name : String) :
    k.memberText o' name = m.memberText o name := by
  have hmember := ho.member? name
  unfold Machine.memberText
  rcases rel_cases hmember with ⟨hx, hy⟩ | ⟨v, w, hx, hy, hv⟩
  · rw [hx, hy]
    rfl
  · rw [hx, hy]
    exact congrArg (fun s : String => (some s).getD "") (ht.display hv)

theorem Twin.frameText (ht : m.Twin R k) {o o' : Object} (ho : o.Pairs R o') : k.frameText o' = m.frameText o := by
  unfold Machine.frameText
  simp only [ht.memberText ho]

theorem Twin.frames (ht : m.Twin R k) {o o' : Object} (ho : o.Pairs R o') :
    List.Forall₂ (Object.Pairs R) (m.frames o) (k.frames o') := by
  have hhandle : ∀ v w : Value, v.Pairs R w → Option.Rel (Object.Pairs R) (v.handle?.bind m.process.heap.object?)
      (w.handle?.bind k.process.heap.object?) := fun v w hv => rel_bind hv.handle? fun _ _ => ht.object?
  have htrace := rel_bind (rel_bind (ho.member? "stacktrace") fun _ _ hv => hv.handle?) fun _ _ => ht.object?
  unfold Machine.frames
  refine rel_filterMap ?_ hhandle
  rcases rel_cases (rel_bind htrace fun _ _ h => h.array?) with ⟨hx, hy⟩ | ⟨xs, ys, hx, hy, h⟩
  · rw [hx, hy]
    exact .nil
  · rw [hx, hy]
    exact h

theorem Twin.renderError (ht : m.Twin R k) {v w : Value} (hv : v.Pairs R w) : k.renderError w = m.renderError v := by
  have hself := hv
  unfold Machine.renderError
  cases hv with
  | object hab =>
      obtain ⟨o, o', ho, ho', hp⟩ := ht.process.heap.objects hab
      simp only [ho, ho', ht.typeName hself, ht.memberText hp, map_eq_of_rel (ht.frames hp) fun _ _ => ht.frameText]
  | none => simp only [ht.display hself]
  | scalar s => simp only [ht.display hself]

theorem Twin.writeErr (ht : m.Twin R k) (s : String) :
    ({ m with host := m.host.writeErr s } : Machine).Twin R { k with host := k.host.writeErr s } :=
  ⟨⟨ht.registry, ht.discreet, ht.library, ht.out, congrArg (· ++ s) ht.err⟩, ht.process, ht.task⟩

theorem Twin.writeOut (ht : m.Twin R k) (s : String) :
    ({ m with host := m.host.writeOut s } : Machine).Twin R { k with host := k.host.writeOut s } :=
  ⟨⟨ht.registry, ht.discreet, ht.library, congrArg (· ++ s) ht.out, ht.err⟩, ht.process, ht.task⟩

theorem Twin.reportUncaught (ht : m.Twin R k) {v w : Value} (hv : v.Pairs R w) :
    (Machine.reportUncaught v m).2.Twin R (Machine.reportUncaught w k).2 := by
  have hrun : ∀ (n : Machine) (x : Value), (Machine.reportUncaught x n).2 =
      { n with
        host := n.host.writeErr (n.renderError x)
        process := { n.process with uncaught := n.process.uncaught + 1 } } :=
    fun _ _ => rfl
  rw [hrun, hrun, ht.renderError hv]
  exact (ht.writeErr _).update (ht.process.books (fun p => { p with uncaught := p.uncaught + 1 }) (fun _ => rfl) fun _ =>
    ⟨rfl, rfl, rfl, rfl, rfl⟩)

/-! ## Futures -/

/-- Outcomes that are the same. -/
structure Outcome.Pairs (R : Pairing) (x y : Outcome) : Prop where
  value : x.value.Pairs R y.value
  failed : y.failed = x.failed

theorem tallies_memoize {a b : Handle} (hab : R a b) (task : TaskId) {v w : Value} (hv : v.Pairs R w) :
    Tallies R Any (memoize a task v) (memoize b task w) := by
  unfold memoize
  rw [onHeap_bind, onHeap_bind]
  exact (tallies_setMember hab _ hv).bind fun R₁ _ _ hle _ => tallies_putPayload (hle _ _ hab) (.future _) rfl

theorem eq_of_fetch {r : Handle} {o : Object} {m' : Machine} (h : fetch r m = (.ok o, m')) :
    m' = m ∧ m.process.heap.object? r = some o := by
  have hrun : fetch r m = (m.process.heap.fetch r, m) := rfl
  rw [hrun] at h
  obtain ⟨ho, rfl⟩ := Prod.mk.inj h
  refine ⟨rfl, ?_⟩
  unfold Heap.fetch at ho
  cases hx : m.process.heap.object? r with
  | none => simp [hx] at ho
  | some x =>
      simp only [hx] at ho
      cases ho
      rfl

theorem tallies_futureOutcome {a b : Handle} (hab : R a b) :
    Tallies R (fun R => Option.Rel (Outcome.Pairs R)) (futureOutcome a) (futureOutcome b) := by
  intro R₁ m k hle ht
  have hab := hle _ _ hab
  refine ((tallies_fetch hab).run ht).bind fun R₂ o o' m₁ k₁ hle₂ ht₂ ho hm hk => ?_
  obtain ⟨rfl, hobject⟩ := eq_of_fetch hm
  obtain ⟨rfl, _⟩ := eq_of_fetch hk
  have hab₂ := hle₂ _ _ hab
  rw [ho.future?]
  cases hf : o.future? with
  | none =>
      refine tallies_get (f := fun n => MonadExcept.throw (Fault.type "Future" (n.typeName (.object a))))
        (g := fun n => MonadExcept.throw (Fault.type "Future" (n.typeName (.object b)))) (R := R₂)
        (fun R₃ m k hle₃ ht₃ => ?_)
        R₂ m₁ k₁ (le_refl R₂) ht₂
      rw [ht₃.typeName (.object (hle₃ _ _ hab₂))]
      exact ht₃.throw (.same _ nofun)
  | some cell =>
      have hpay := Object.payload_of_future? hf
      have hstate := Process.state_eq_of_bare ht₂.process.bare cell.task
      change Meets R₂ _ ((if cell.memoized then _ else _ : Act Machine (Option Outcome)) m₁)
        ((if cell.memoized then _ else _ : Act Machine (Option Outcome)) k₁)
      rw [hstate]
      by_cases hmem : cell.memoized
      · rw [if_pos hmem, if_pos hmem]
        refine ht₂.pure (.some ⟨?_, rfl⟩)
        rcases rel_cases (ho.member? "value") with ⟨hx, hy⟩ | ⟨v, w, hx, hy, hv⟩
        · rw [hx, hy]
          exact .none
        · rw [hx, hy]
          exact hv
      · have hreg : (m₁.process.taskAt cell.task).register.Pairs R₂ (k₁.process.taskAt cell.task).register := by
          refine ht₂.process.behind (.task cell.task) ⟨a, b, o, hab₂, hobject, ?_⟩
          rw [hpay]
          simp [Payload.external?, hmem]
        rw [if_neg hmem, if_neg hmem]
        split
        · exact ((tallies_memoize hab₂ cell.task hreg).run ht₂).bind fun R₃ _ _ _ _ hle₃ ht₃ _ _ _ =>
            ht₃.pure (.some ⟨hreg.mono hle₃, rfl⟩)
        · exact ht₂.pure .none

end Machine

end Spool
