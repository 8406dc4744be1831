import Spool.Fault

/-!
# Outcomes of actions

`Act.wp act s Q E` says that `act`, begun in state `s`, either returns a value and a state with `Q` or ends in a
fault and a state with `E`. The equations below take it apart along the ways of putting actions together, so
that a proof about an action follows its text.
-/

namespace Spool.Act

variable {σ α β : Type}

def wp (act : Act σ α) (s : σ) (Q : α → σ → Prop) (E : Fault → σ → Prop) : Prop :=
  match act s with
  | (.ok a, s') => Q a s'
  | (.error e, s') => E e s'

theorem wp_mono {act : Act σ α} {s : σ} {Q Q' : α → σ → Prop} {E E' : Fault → σ → Prop} (h : act.wp s Q E)
    (hQ : ∀ a s', Q a s' → Q' a s') (hE : ∀ e s', E e s' → E' e s') : act.wp s Q' E' := by
  unfold wp at h ⊢
  split
  · rename_i a s' hs
    rw [hs] at h
    exact hQ a s' h
  · rename_i e s' hs
    rw [hs] at h
    exact hE e s' h

theorem wp_and {act : Act σ α} {s : σ} {Q Q' : α → σ → Prop} {E E' : Fault → σ → Prop} (h : act.wp s Q E)
    (h' : act.wp s Q' E') : act.wp s (fun a s' => Q a s' ∧ Q' a s') fun e s' => E e s' ∧ E' e s' := by
  unfold wp at *
  rcases hs : act s with ⟨_ | _, s'⟩
  · rw [hs] at h h'
    exact ⟨h, h'⟩
  · rw [hs] at h h'
    exact ⟨h, h'⟩

theorem wp_of_eq_ok {act : Act σ α} {s s' : σ} {a : α} {Q : α → σ → Prop} {E : Fault → σ → Prop}
    (h : act s = (.ok a, s')) (hQ : Q a s') : act.wp s Q E := by
  simpa [wp, h] using hQ

theorem wp.ok {act : Act σ α} {s s' : σ} {Q : α → σ → Prop} {E : Fault → σ → Prop} (h : act.wp s Q E) {a : α}
    (ha : act s = (.ok a, s')) : Q a s' := by
  unfold wp at h
  rw [ha] at h
  exact h

theorem wp.error {act : Act σ α} {s : σ} {Q : α → σ → Prop} {E : Fault → σ → Prop} (h : act.wp s Q E) {e : Fault}
    (he : (act s).1 = .error e) : E e (act s).2 := by
  unfold wp at h
  rcases hx : act s with ⟨_ | a, s'⟩
  · rw [hx] at h he
    cases he
    exact h
  · rw [hx] at he
    cases he

/-- What holds at both ends holds of the state an action leaves behind. -/
theorem wp.state {act : Act σ α} {s : σ} {P : σ → Prop} (h : act.wp s (fun _ => P) (fun _ => P)) :
    P (act s).2 := by
  unfold wp at h
  rcases hs : act s with ⟨_ | _, s'⟩ <;> simpa [hs] using h

theorem wp.of_state {act : Act σ α} {s : σ} {P : σ → Prop} (h : P (act s).2) : act.wp s (fun _ => P) fun _ => P := by
  unfold wp
  rcases hs : act s with ⟨_ | _, s'⟩ <;> simpa [hs] using h

/-- What is known of the value or of the fault is known of what the action returns. -/
theorem wp.fst {act : Act σ α} {s : σ} {x : Except Fault α} (h : act.wp s (fun a _ => .ok a = x) fun e _ => .error e = x) :
    (act s).1 = x := by
  unfold wp at h
  rcases hs : act s with ⟨_ | _, s'⟩ <;> simpa [hs] using h

/-! ## Putting actions together -/

section
variable {s : σ} {Q : α → σ → Prop} {E : Fault → σ → Prop}

@[simp] theorem wp_pure {a : α} : (pure a : Act σ α).wp s Q E ↔ Q a s := Iff.rfl

@[simp] theorem wp_throw {e : Fault} : (throw e : Act σ α).wp s Q E ↔ E e s := Iff.rfl

@[simp] theorem wp_modifyGet {f : σ → α × σ} : (modifyGet f : Act σ α).wp s Q E ↔ Q (f s).1 (f s).2 := Iff.rfl

@[simp] theorem wp_lift {act : StateM σ α} : (liftM act : Act σ α).wp s Q E ↔ Q (act s).1 (act s).2 := Iff.rfl

@[simp] theorem wp_mk {x : Except Fault α} :
    Act.wp (ExceptT.mk (pure x) : Act σ α) s Q E ↔ (match x with | .ok a => Q a s | .error e => E e s) := by
  cases x <;> rfl

/-- A look at the state that may fail. -/
@[simp] theorem wp_mk_get {f : σ → Except Fault α} :
    Act.wp (ExceptT.mk (do return f (← get)) : Act σ α) s Q E
      ↔ (match f s with | .ok a => Q a s | .error e => E e s) := by
  change Act.wp (ExceptT.mk (fun s => (f s, s)) : Act σ α) s Q E ↔ _
  unfold wp ExceptT.mk
  cases h : f s <;> simp [h]

@[simp] theorem wp_mk_getThe {f : σ → Except Fault α} :
    Act.wp (ExceptT.mk (do return f (← getThe σ)) : Act σ α) s Q E
      ↔ (match f s with | .ok a => Q a s | .error e => E e s) :=
  wp_mk_get

@[simp] theorem wp_get {Q : σ → σ → Prop} : (get : Act σ σ).wp s Q E ↔ Q s s := Iff.rfl

@[simp] theorem wp_getThe {Q : σ → σ → Prop} : (getThe σ : Act σ σ).wp s Q E ↔ Q s s := Iff.rfl

@[simp] theorem wp_modify {f : σ → σ} {Q : Unit → σ → Prop} : (modify f : Act σ Unit).wp s Q E ↔ Q () (f s) :=
  Iff.rfl

@[simp] theorem wp_bind {act : Act σ α} {k : α → Act σ β} {Q : β → σ → Prop} :
    (act >>= k).wp s Q E ↔ act.wp s (fun a s' => (k a).wp s' Q E) E := by
  have h : (act >>= k) s = ExceptT.bindCont k (act s).1 (act s).2 := rfl
  unfold wp
  rw [h]
  rcases act s with ⟨_ | _, _⟩ <;> rfl

theorem bind_ok {act : Act σ α} {k : α → Act σ β} {s s' : σ} {a : α} (h : act s = (.ok a, s')) :
    (act >>= k) s = k a s' := by
  change ExceptT.bindCont k (act s).1 (act s).2 = _
  rw [h]
  rfl

@[simp] theorem wp_map {f : α → β} {act : Act σ α} {Q : β → σ → Prop} :
    (f <$> act).wp s Q E ↔ act.wp s (fun a s' => Q (f a) s') E := by
  rw [← bind_pure_comp, wp_bind]
  rfl

@[simp] theorem wp_discard {act : Act σ α} {Q : PUnit → σ → Prop} :
    (discard act).wp s Q E ↔ act.wp s (fun _ s' => Q PUnit.unit s') E := by
  change (Functor.mapConst PUnit.unit act).wp s Q E ↔ _
  rw [LawfulFunctor.map_const]
  exact wp_map

@[simp] theorem wp_ite {c : Prop} [Decidable c] {x y : Act σ α} :
    (if c then x else y).wp s Q E ↔ if c then x.wp s Q E else y.wp s Q E := by
  split <;> rfl

end

/-! ## Loops -/

/-- A loop keeps what its body keeps, as it goes down its list. -/
theorem wp_forIn_step {I : List α → σ → Prop} {f : α → PUnit → Act σ (ForInStep PUnit)} {xs : List α} {s : σ}
    {Q : PUnit → σ → Prop} {E : Fault → σ → Prop} (hs : I xs s)
    (hf : ∀ a rest s, I (a :: rest) s →
      (f a PUnit.unit).wp s (fun step s' => step = .yield PUnit.unit ∧ I rest s') E)
    (hQ : ∀ s, I [] s → Q PUnit.unit s) : (forIn xs PUnit.unit f).wp s Q E := by
  induction xs generalizing s with
  | nil => exact hQ s hs
  | cons a rest ih =>
    simp only [List.forIn_cons, wp_bind]
    refine wp_mono (hf a rest s hs) (fun step s' h => ?_) (fun _ _ h => h)
    obtain ⟨rfl, h⟩ := h
    exact ih h

theorem wp_forIn {I : List α → σ → Prop} {f : α → Act σ PUnit} {xs : List α} {s : σ} {Q : PUnit → σ → Prop}
    {E : Fault → σ → Prop} (hs : I xs s)
    (hf : ∀ a rest s, I (a :: rest) s → (f a).wp s (fun _ s' => I rest s') E)
    (hQ : ∀ s, I [] s → Q PUnit.unit s) :
    (forIn xs PUnit.unit fun a _ => do f a; pure (ForInStep.yield PUnit.unit)).wp s Q E := by
  refine wp_forIn_step hs (fun a rest s h => ?_) hQ
  simp only [wp_bind, wp_pure, true_and]
  exact hf a rest s h

end Spool.Act
