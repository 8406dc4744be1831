import Mathlib.Data.Set.Finite.Basic
import Mathlib.Order.WellFounded
import Spool.Proofs.Process.Plain

/-!
# Why a task waits

In a process by itself a task waits for a task that it has made, or for the top level of a module. So a circle of
tasks that wait for each other takes a module that a task waits for without having begun to load it.
-/

namespace Spool.Roster

variable {r r' : Roster} {t x y : TaskId} {s : Standing} {state : TaskState} {v : Value}

/-- Each task that somebody waits for was made by that task, or runs the top level of a module that is not ready. -/
structure Accounted (r : Roster) : Prop where
  edges : ∀ y s, r.at? y = some s → ∀ x ∈ s.waiters, s.parent = some x ∨ s.initializes ≠ none
  initial : ∀ y s, r.at? y = some s → ∀ m, ¬ s.state.isFinished → s.initializes = some m →
    r.modules.get? m = some (.initializing y)

theorem Accounted.wake (hr : r.Accounted) (hun : ¬ (r.standingAt t).state.isFinished) :
    (r.update t Standing.wake).Accounted :=
  ⟨forall_update hr.edges fun _ _ h => h,
    forall_update hr.initial fun _ hs h m _ hi => h m (standingAt_of_at? hs ▸ hun) hi⟩

theorem Accounted.start (hr : r.Accounted) (t : TaskId) : (r.start { parent := some t }).Accounted :=
  ⟨forall_add hr.edges (by simp [Standing.waiters]), forall_add hr.initial (by simp)⟩

theorem Accounted.load (hr : r.Accounted) {m : ModuleId} (hm : r.modules.get? m = none) (t : TaskId) :
    (r.load m t).Accounted := by
  refine ⟨forall_add hr.edges (by simp [Standing.waiters]), ?_⟩
  change ∀ y s, (r.add { parent := some t, initializes := some m }).at? y = some s → ∀ m', _ → _ →
    (r.modules.insert m (.initializing r.next)).get? m' = _
  refine forall_add (fun y s hs m' hun hi => ?_) fun m' _ hi => ?_
  · have hm' := hr.initial y s hs m' hun hi
    have hne : m ≠ m' := by
      rintro rfl
      rw [hm] at hm'
      cases hm'
    rw [Bindings.get?_insert, if_neg (by simpa using hne)]
    exact hm'
  · cases hi
    rw [Bindings.get?_insert, if_pos rfl]

theorem Accounted.await (hr : r.Accounted) (hun : ¬ (r.standingAt t).state.isFinished)
    (hy : ∀ s, r.at? y = some s → s.parent = some t ∨ s.initializes ≠ none) (delivery : Delivery) (reason : WaitReason) :
    (r.await t y delivery reason).Accounted := by
  have h₁ : (r.update y (·.addDependent t delivery)).Accounted := by
    refine ⟨forall_update hr.edges fun s hs h x hx => ?_, forall_update hr.initial fun _ _ h => h⟩
    simp only [Standing.addDependent, Standing.waiters, List.map_append, List.mem_append, List.map_cons, List.map_nil,
      List.mem_singleton] at hx
    rcases hx with hx | rfl
    · exact h x hx
    · exact hy s hs
  have hun' : ¬ ((r.update y (·.addDependent t delivery)).standingAt t).state.isFinished :=
    standingAt_update (P := fun s => ¬ s.state.isFinished) hun fun _ h => h
  exact ⟨forall_update h₁.edges fun _ _ h => h,
    forall_update h₁.initial fun s hs h m _ hi => h m (standingAt_of_at? hs ▸ hun') hi⟩

theorem Accounted.rests (hr : r.Accounted) (hp : r.Plain (some t)) (hun : ¬ (r.standingAt t).state.isFinished)
    (h : r.Rests t r') : r'.Accounted := by
  cases h with
  | call delivery =>
      refine (hr.start t).await (Machine.View.unfinished_add (.inl rfl) hun) (fun s hs => ?_) delivery .onCall
      cases (at?_start r _).symm.trans hs
      exact .inl rfl
  | join m y hm _ =>
      refine hr.await hun (fun s hs => ?_) .keep .onCall
      obtain ⟨s', hs', hi⟩ := (hp.ordered.initializing m y).1 hm
      cases hs.symm.trans hs'
      exact .inr (by simp [hi])
  | load m hm =>
      refine (hr.load hm t).await (Machine.View.unfinished_add (.inl rfl) hun) (fun s hs => ?_) .keep .onCall
      cases (at?_start r { parent := some t, initializes := some m }).symm.trans hs
      exact .inl rfl

/-- The module of a task that has come to its end is ready, and no other task runs its top level. -/
theorem Accounted.clear (hr : r.Accounted)
    (hother : ∀ y s, r.at? y = some s → ¬ s.state.isFinished → ∀ m, s.initializes = some m →
      (r.standingAt t).initializes ≠ some m) : (r.clear t).Accounted := by
  refine ⟨forall_clear hr.edges (by simp [Standing.clear, Standing.waiters]), fun y s hs m hun hi => ?_⟩
  rw [at?_clear] at hs
  split at hs
  · obtain ⟨s₀, _, rfl⟩ := Option.map_eq_some_iff.1 hs
    cases hi
  · have hm := hr.initial y s hs m hun hi
    have hne := hother y s hs hun m hi
    change (r.markReady (r.standingAt t).initializes).modules.get? m = _
    cases hinit : (r.standingAt t).initializes with
    | none => exact hm
    | some m' =>
        rw [hinit] at hne
        simp only [markReady, setModule, Bindings.get?_insert]
        rw [if_neg (by simpa using hne)]
        exact hm

theorem Accounted.conclude (hr : r.Accounted) (hp : r.Plain (some t)) (hun : ¬ (r.standingAt t).state.isFinished)
    (h : state.Reaches v) : (r.conclude t state v).Accounted := by
  obtain ⟨s, hs⟩ := hp.at?_inHand
  rw [standingAt_of_at? hs] at hun
  have hrow : (r.update t (·.conclude state v)).standingAt t = s.conclude state v := by
    apply standingAt_of_at?
    rw [at?_update, if_pos rfl, hs]
    rfl
  have h₁ : (r.update t (·.conclude state v)).Accounted := by
    refine ⟨forall_update hr.edges fun _ _ h => h, forall_update hr.initial fun _ _ _ _ hun' => ?_⟩
    exact absurd h.isFinished hun'
  have h₂ : ((r.update t (·.conclude state v)).clear t).Accounted := by
    refine h₁.clear fun y sy hy huny m hi hm => ?_
    -- both tasks would run the same top level
    have hrow₂ := h₁.initial y sy hy m huny hi
    have hown := hr.initial t s hs m hun (by rw [hrow] at hm; exact hm)
    have hty : t = y := by
      cases hown.symm.trans hrow₂
      rfl
    subst hty
    rw [standingAt_of_at? hy] at hrow
    rw [hrow] at huny
    exact huny h.isFinished
  rw [conclude_eq hs (hp.own t s hs).unlinked h]
  refine ⟨forall_wakeAll (fun _ _ _ h => h) _ _ h₂.edges, ?_⟩
  rw [(wakeAll_frame _ _).1]
  exact forall_wakeAll (fun _ _ hun h m _ hi => h m hun hi) _ _ h₂.initial

theorem lasts_accounted (async : Prop) : Lasts async fun r _ => r.Accounted where
  dequeue _ _ h := ⟨h.edges, h.initial⟩
  wake _ hun h := h.wake hun
  call _ _ h := h.start _
  rests hp hun hrest h := h.rests hp hun hrest
  ends hp hun hreach h := h.conclude hp hun hreach

/-! ## Circles -/

/-- A task is on the list of another one. -/
def WaitsOn (r : Roster) (x y : TaskId) : Prop := ∃ s, r.at? y = some s ∧ x ∈ s.waiters

/-- Who always has somewhere to go comes back to where he was. -/
theorem exists_circle {α : Type} {R : α → α → Prop} {l : List α} (hl : l ≠ []) (hR : ∀ a ∈ l, ∃ b ∈ l, R a b) :
    ∃ a ∈ l, Relation.TransGen R a a := by
  by_contra hno
  let Q : { a // a ∈ l } → { a // a ∈ l } → Prop := fun a b => Relation.TransGen R b.1 a.1
  have : IsTrans _ Q := ⟨fun a b c hab hbc => hbc.trans hab⟩
  have : Std.Irrefl Q := ⟨fun a ha => hno ⟨a.1, a.2, ha⟩⟩
  have : Finite { a // a ∈ l } := l.finite_toSet.to_subtype
  have hwf : WellFounded Q := Finite.wellFounded_of_trans_of_irrefl Q
  obtain ⟨a, rest, rfl⟩ := List.exists_cons_of_ne_nil hl
  obtain ⟨m, _, hm⟩ := hwf.has_min Set.univ ⟨⟨a, List.mem_cons_self⟩, trivial⟩
  obtain ⟨b, hb, hmb⟩ := hR m.1 m.2
  exact hm ⟨b, hb⟩ trivial (.single hmb)

/-- A task that is parked waits for one that is parked, if no task can run. -/
theorem Plain.exists_waitsOn (hp : r.Plain none) (hq : r.queue = []) (ht : t ∈ r.waiting) :
    ∃ y ∈ r.waiting, r.WaitsOn t y := by
  have hmem := (hp.ordered.parked t).2 (hp.waits ht)
  rw [List.append_nil] at hmem
  obtain ⟨y, s, hs, hty⟩ := mem_waiters.1 hmem
  refine ⟨y, hp.ordered.waits y ⟨s, hs, ?_⟩, s, hs, hty⟩
  have hun : ¬ s.state.isFinished := by
    refine hp.unfinished hs (.inl fun hnil => ?_) (by simp)
    simp [Standing.waiters, hnil] at hty
  have hruns : ¬ r.Runs y := by
    intro h
    have := hp.ordered.runs y h
    simp [hq] at this
  cases hstate : s.state with
  | waiting => rfl
  | new => exact absurd ⟨s, hs, .inl hstate⟩ hruns
  | running => exact absurd ⟨s, hs, .inr hstate⟩ hruns
  | complete => simp [hstate, TaskState.isFinished] at hun
  | error => simp [hstate, TaskState.isFinished] at hun

/-- Tasks are younger than those that have made them, so not all of a circle can have been made by the one before. -/
theorem Plain.exists_joined {cur : Option TaskId} (hp : r.Plain cur) {c d : TaskId}
    (h : Relation.TransGen r.WaitsOn c d) (hback : Relation.ReflTransGen r.WaitsOn d c) :
    (∃ t y, r.WaitsOn t y ∧ (r.standingAt y).parent ≠ some t ∧ Relation.TransGen r.WaitsOn y t) ∨ c.index < d.index := by
  have hedge : ∀ {a b}, r.WaitsOn a b → Relation.ReflTransGen r.WaitsOn b a →
      (∃ t y, r.WaitsOn t y ∧ (r.standingAt y).parent ≠ some t ∧ Relation.TransGen r.WaitsOn y t) ∨
        a.index < b.index := by
    intro a b hab hba
    by_cases hparent : (r.standingAt b).parent = some a
    · obtain ⟨s, hs, _⟩ := hab
      rw [standingAt_of_at? hs] at hparent
      exact .inr ((hp.own b s hs).older a hparent)
    · refine .inl ⟨a, b, hab, hparent, ?_⟩
      rcases Relation.reflTransGen_iff_eq_or_transGen.1 hba with rfl | h
      · exact .single hab
      · exact h
  induction h with
  | single hcd => exact hedge hcd hback
  | tail hcb hbd ih =>
      rcases ih (hback.head hbd) with h | hlt
      · exact .inl h
      · rcases hedge hbd (hback.trans hcb.to_reflTransGen) with h | hlt'
        · exact .inl h
        · exact .inr (Nat.lt_trans hlt hlt')

/-- If nobody can run and somebody is parked, some task waits for the top level of a module that another task has begun
to load, and that waits for the task in turn. -/
theorem Accounted.exists_circle (ha : r.Accounted) (hp : r.Plain none) (hq : r.queue = []) (hw : r.waiting ≠ []) :
    ∃ t y m, r.WaitsOn t y ∧ (r.standingAt y).parent ≠ some t ∧ r.modules.get? m = some (.initializing y) ∧
      Relation.TransGen r.WaitsOn y t := by
  obtain ⟨c, _, hc⟩ := Roster.exists_circle hw fun t ht => hp.exists_waitsOn hq ht
  rcases hp.exists_joined hc .refl with ⟨t, y, hty, hparent, hback⟩ | hlt
  · obtain ⟨s, hs, hmem⟩ := hty
    rw [standingAt_of_at? hs] at hparent
    obtain ⟨m, hm⟩ := Option.ne_none_iff_exists'.1 ((ha.edges y s hs t hmem).resolve_left hparent)
    have hun := hp.unfinished hs (.inr (by simp [hm])) (by simp)
    exact ⟨t, y, m, ⟨s, hs, hmem⟩, standingAt_of_at? hs ▸ hparent, ha.initial y s hs m hun hm, hback⟩
  · exact absurd hlt (Nat.lt_irrefl _)

end Spool.Roster
