import Spool.Proofs.Machine.Moves
import Spool.Proofs.Machine.TwinNames

/-!
# Native functions and calls of twins

A native function does the same on both sides, and so does whatever a task starts by a call. The start of another process
is not followed: its heap would have to be compared too.
-/

namespace Spool.Machine

variable {R R' : Pairing} {m k : Machine} {α β γ δ : Type} {v w x y : Value} {A : Pairing → α → β → Prop}
  {B : Pairing → γ → δ → Prop} {act : Act Machine α} {act' : Act Machine β} {f : α → Act Machine γ} {g : β → Act Machine δ}

theorem eq_of_lift {act : StateM Machine α} {a : α} {m' : Machine} (h : (liftM act : Act Machine α) m = (.ok a, m')) :
    (act m).1 = a ∧ (act m).2 = m' := by
  obtain ⟨ha, hm⟩ := Prod.mk.inj h
  exact ⟨Except.ok.inj ha, hm⟩

theorem meets_get {f : Machine → Act Machine γ} {g : Machine → Act Machine δ} (h : Meets R B (f m m) (g k k)) :
    Meets R B ((get >>= f) m) ((get >>= g) k) := h

theorem nursery_get {f : Machine → Act Machine γ} (h : ((get >>= f) m).2.host.nursery = []) :
    (f m m).2.host.nursery = [] := h

/-! ## Texts -/

theorem Twin.argumentText (ht : m.Twin R k) (hv : v.Pairs R w) : k.argumentText w = m.argumentText v := by
  have htuple := rel_bind (rel_bind hv.handle? fun _ _ => ht.object?) fun _ _ h => h.tuple?
  unfold Machine.argumentText
  rcases rel_cases htuple with ⟨hx, hy⟩ | ⟨xs, ys, hx, hy, h⟩
  · rw [hx, hy]
    exact ht.display hv
  · rw [hx, hy]
    exact congrArg (String.intercalate " ") (map_eq_of_rel h fun _ _ => ht.display)

theorem Twin.errorText (ht : m.Twin R k) (hv : v.Pairs R w) : k.errorText w = m.errorText v := by
  unfold Machine.errorText
  rw [ht.isInstance hv, ht.renderError hv, ht.argumentText hv]

section
variable (hv : v.Pairs R w)
include hv

theorem tallies_asText : Tallies R Value.Pairs (asText v) (asText w) :=
  tallies_get fun R₁ m k hle ht => by
    rw [ht.text? (hv.mono hle), ht.display (hv.mono hle)]
    split
    · exact ht.pure (hv.mono hle)
    · exact (tallies_newText _).run ht

theorem tallies_concat (hx : x.Pairs R y) : Tallies R Value.Pairs (concat v x) (concat w y) :=
  tallies_get fun R₁ m k hle ht => by
    rw [ht.text? (hv.mono hle), ht.display (hx.mono hle), ht.typeName (hv.mono hle)]
    cases m.text? v with
    | some s => exact (tallies_newText _).run ht
    | none => exact ht.throw (.same _ nofun)

theorem tallies_length : Tallies R Value.Pairs (length v) (length w) := by
  refine tallies_get fun R₁ m k hle ht => ?_
  have hself := hv
  rw [ht.typeName (hself.mono hle)]
  cases hv with
  | none => exact ht.pure (.scalar _)
  | scalar s => exact ht.throw (.same _ nofun)
  | object hab =>
      refine Tallies.run ((tallies_fetch (hle _ _ hab)).bind fun R₂ o o' _ ho => ?_) ht
      have hp := ho.payload
      generalize o.payload = p at hp
      generalize o'.payload = q at hp
      cases hp with
      | text s => exact tallies_pure fun _ _ => .scalar _
      | @array xs ys h =>
          have hsize : ys.size = xs.size := by simpa using h.length_eq.symm
          dsimp only
          rw [hsize]
          exact tallies_pure fun _ _ => .scalar _
      | @tuple xs ys h =>
          have hsize : ys.size = xs.size := by simpa using h.length_eq.symm
          dsimp only
          rw [hsize]
          exact tallies_pure fun _ _ => .scalar _
      | _ => exact tallies_refuse nofun

/-! ## Classes and errors -/

theorem tallies_expectClass : Tallies R Same (expectClass v) (expectClass w) := by
  refine tallies_get fun R₁ m k hle ht => ?_
  have hself := hv
  rw [ht.typeName (hself.mono hle)]
  cases hv with
  | none => exact ht.throw (.same _ nofun)
  | scalar s => exact ht.throw (.same _ nofun)
  | object hab =>
      refine Tallies.run ((tallies_fetch (hle _ _ hab)).bind fun R₂ o o' _ ho => ?_) ht
      have hp := ho.payload
      generalize o.payload = p at hp
      generalize o'.payload = q at hp
      cases hp with
      | ofClass c => exact tallies_same c
      | _ => exact tallies_refuse nofun

end

theorem Twin.withRegistry (ht : m.Twin R k) {r : Registry} (hr : r.Discreet) :
    ({ m with host := { m.host with registry := r } } : Machine).Twin R { k with host := { k.host with registry := r } } :=
  ⟨⟨rfl, hr, ht.library, ht.out, ht.err⟩, ht.process, ht.task⟩

theorem tallies_reparent (c d : ClassId) : Tallies R Value.Pairs (reparent c d) (reparent c d) := by
  intro R₁ m k _ ht
  rw [reparent_eq, reparent_eq, ht.registry]
  cases hr : m.host.registry.rebase c d with
  | error e => exact ht.throw (.same _ nofun)
  | ok registry => exact ⟨R₁, le_refl R₁, ht.withRegistry (ht.discreet.rebase hr), .ok .none⟩

theorem tallies_setSuper (hv : v.Pairs R w) : Tallies R Value.Pairs (setSuper v) (setSuper w) := by
  refine (tallies_expectObject hv _).bind fun R₁ a b h₁ hab => (tallies_fetch hab).bind fun R₂ o o' h₂ ho => ?_
  have hv := hv.mono (h₁.trans h₂)
  have hrefuse : ∀ {R' : Pairing}, R₂ ≤ R' → Tallies R' Value.Pairs
      (do throw (.type "(class, superclass)" ((← get).typeName v)) : Act Machine Value)
      (do throw (.type "(class, superclass)" ((← get).typeName w))) := fun hle =>
    tallies_get fun R₃ m k hle' ht => by
      rw [ht.typeName (hv.mono (hle.trans hle'))]
      exact ht.throw (.same _ nofun)
  have hlist : Option.Rel (Value.AllPairs R₂) (o.tuple?.map Array.toList) (o'.tuple?.map Array.toList) := by
    rcases rel_cases ho.tuple? with ⟨hx, hy⟩ | ⟨xs, ys, hx, hy, h⟩
    · rw [hx, hy]
      exact .none
    · rw [hx, hy]
      exact .some h
  generalize o.tuple?.map Array.toList = xs at hlist
  generalize o'.tuple?.map Array.toList = ys at hlist
  rcases hlist with @⟨xs, ys, h⟩ | _
  · -- a pair and nothing else stands for a class and its superclass
    cases h with
    | nil => exact hrefuse (le_refl R₂)
    | cons hc h =>
        cases h with
        | nil => exact hrefuse (le_refl R₂)
        | cons hs h =>
            cases h with
            | cons _ _ => exact hrefuse (le_refl R₂)
            | nil =>
                refine (tallies_expectClass hc).bind fun R₃ c c' h₃ hsame => ?_
                cases hsame
                refine (tallies_expectClass (hs.mono h₃)).bind fun R₄ d d' _ hsame => ?_
                cases hsame
                exact tallies_reparent c d
  · exact hrefuse (le_refl R₂)

theorem tallies_errorNew (hv : v.Pairs R w) (hx : x.Pairs R y) :
    Tallies R Value.Pairs (errorNew v x) (errorNew w y) := by
  refine (tallies_expectObject hv _).bind fun R₁ a b h₁ hab => ?_
  have hx := hx.mono h₁
  have hdone : ∀ {R' : Pairing} {message message' : Value}, R₁ ≤ R' → message.Pairs R' message' →
      Tallies R' Value.Pairs (do initError a message; return v : Act Machine Value) (do initError b message'; return w) :=
    fun hle hm => (tallies_initError (hle _ _ hab) hm).bind fun _ _ _ hle' _ => tallies_pure fun _ hle'' =>
      hv.mono (h₁.trans (hle.trans (hle'.trans hle'')))
  rw [hx.isNone]
  split
  · exact (tallies_newText "").bind fun _ _ _ hle hm => hdone hle hm
  · exact (tallies_asText hx).bind fun _ _ _ hle hm => hdone hle hm

/-! ## Futures, tasks and contexts -/

theorem tallies_futureGet (hv : v.Pairs R w) : Tallies R Value.Pairs (futureGet v) (futureGet w) := by
  refine (tallies_expectObject hv _).bind fun R₁ a b h₁ hab => (tallies_futureOutcome hab).bind fun R₂ o o' h₂ ho => ?_
  cases ho with
  | none => exact tallies_refuse nofun
  | some h => exact tallies_pure fun _ hle => h.value.mono hle

theorem tallies_taskState (t : TaskId) : Tallies R Value.Pairs (taskState t) (taskState t) :=
  tallies_get fun R₁ m k _ ht => by
    rw [Process.state_eq_of_bare ht.process.bare]
    exact (tallies_newText _).run ht

theorem tallies_contextFunction (c : ContextId) : Tallies R Value.Pairs (contextFunction c) (contextFunction c) := by
  refine tallies_get fun R₁ m k _ ht => ?_
  have hfunction : (k.process.contextAt c).function = (m.process.contextAt c).function :=
    (congrArg Context.function (ht.bare_contextAt c) :)
  rw [hfunction]
  cases (m.process.contextAt c).function with
  | some f => exact (tallies_reflect _).run ht
  | none => exact ht.pure .none

theorem tallies_newRemote (process : ProcessId) (hv : v.Pairs R w) :
    Tallies R Value.Pairs (newRemote process v) (newRemote process w) :=
  (tallies_expectObject hv _).bind fun _ _ _ _ _ => tallies_newHolder .remote (.remote _ _ _) rfl

theorem tallies_receiverPayload (hv : v.Pairs R w) (expected : String) :
    Tallies R Payload.Pairs (receiverPayload v expected) (receiverPayload w expected) :=
  (tallies_expectObject hv _).bind fun _ _ _ _ hab => (tallies_fetch hab).bind fun _ _ _ _ ho =>
    tallies_pure fun _ hle => ho.payload.mono hle

/-! ## Actions that start no process -/

/-- Two actions do the same on twins, if the first of them starts no process. -/
def Tracks (R : Pairing) (A : Pairing → α → β → Prop) (act : Act Machine α) (act' : Act Machine β) : Prop :=
  ∀ R' m k, R ≤ R' → m.Twin R' k → (act m).2.host.nursery = [] → Meets R' A (act m) (act' k)

theorem Tallies.tracks (h : Tallies R A act act') : Tracks R A act act' := fun R' m k hle ht _ => h R' m k hle ht

theorem Tracks.mono (h : Tracks R A act act') (hle : R ≤ R') : Tracks R' A act act' :=
  fun R₁ m k hle₁ ht => h R₁ m k (hle.trans hle₁) ht

theorem tracks_get {f : Machine → Act Machine γ} {g : Machine → Act Machine δ}
    (h : ∀ R' m k, R ≤ R' → m.Twin R' k → (f m m).2.host.nursery = [] → Meets R' B (f m m) (g k k)) :
    Tracks R B (get >>= f) (get >>= g) := fun R' m k hle ht hn => h R' m k hle ht hn

theorem nursery_bind {a : α} {m' : Machine} (hm : act m = (.ok a, m')) (hn : ((act >>= f) m).2.host.nursery = []) :
    (f a m').2.host.nursery = [] := by
  rwa [Act.bind_ok hm] at hn

theorem state_discard (act : Act Machine α) (m : Machine) : (discard act m).2 = (act m).2 := by
  refine Act.wp.state (P := fun s => s = (act m).2) (Act.wp_discard.2 ?_)
  exact Act.wp.of_state (P := fun s => s = (act m).2) rfl

theorem Tracks.discard (h : Tracks R A act act') : Tracks R Any (discard act) (discard act') := by
  intro R' m k hle ht hn
  rw [state_discard] at hn
  exact (h R' m k hle ht hn).discard

/-- What comes before starts no process. -/
theorem Tallies.tracks_bind (h : Tallies R A act act') (hk : ∀ R' a b, R ≤ R' → A R' a b → Tracks R' B (f a) (g b)) :
    Tracks R B (act >>= f) (act' >>= g) := fun R₁ m k hle ht hn =>
  (h R₁ m k hle ht).bind fun R₂ a b m' k' hle₂ ht₂ hab hm _ =>
    hk R₂ a b (hle.trans hle₂) hab R₂ m' k' (le_refl R₂) ht₂ (nursery_bind hm hn)

/-- What comes after starts no process. -/
theorem Tracks.bind (h : Tracks R A act act') (hf : ∀ a s, (f a s).2.host.nursery = s.host.nursery)
    (hk : ∀ R' a b, R ≤ R' → A R' a b → Tallies R' B (f a) (g b)) : Tracks R B (act >>= f) (act' >>= g) := by
  intro R₁ m k hle ht hn
  have hbefore : (act m).2.host.nursery = [] := by
    change (ExceptT.bindCont f (act m).1 (act m).2).2.host.nursery = [] at hn
    rcases hm : act m with ⟨e | a, m'⟩
    · rwa [hm] at hn
    · rw [hm] at hn
      exact (hf a m').symm.trans hn
  exact (h R₁ m k hle ht hbefore).bind fun R₂ a b m' k' hle₂ ht₂ hab _ _ =>
    hk R₂ a b (hle.trans hle₂) hab R₂ m' k' (le_refl R₂) ht₂

theorem nursery_of_steady (h : ∀ s, Preserves (Steady s) act) (s : Machine) : (act s).2.host.nursery = s.host.nursery :=
  (h s s (.refl s)).nursery

/-! ## Processes -/

theorem tallies_entryPoint (hv : v.Pairs R w) :
    Tallies R (fun _ (b b' : BoundFunction) => b'.function = b.function) (entryPoint v) (entryPoint w) := by
  refine (tallies_expectObject hv _).bind fun R₁ a b h₁ hab => (tallies_fetch hab).bind fun R₂ o o' h₂ ho => ?_
  have hv := hv.mono (h₁.trans h₂)
  have hrefuse : Tallies R₂ (fun _ (b b' : BoundFunction) => b'.function = b.function)
      (do throw (.notCallable ((← get).typeName v)) : Act Machine BoundFunction)
      (do throw (.notCallable ((← get).typeName w))) := tallies_get fun R₃ m k hle ht => by
    rw [ht.typeName (hv.mono hle)]
    exact ht.throw (.same _ nofun)
  have hp := ho.payload
  generalize o.payload = p at hp
  generalize o'.payload = q at hp
  cases hp with
  | ofFunction f => exact tallies_pure fun _ _ => rfl
  | bound f capture h => exact tallies_pure fun _ _ => rfl
  | _ => exact hrefuse

/-- Makes a process and puts it into the nursery, with the object that stands for the module of its first function. -/
def rear (registry : Registry) (module : ModuleId) (b : BoundFunction) (start : Nat) (argument : Value) (object : Handle) :
    Act Machine (ProcessId × Value) := do
  let child ← modifyGet fun m =>
    let (child, host) := m.host.newProcess
    (child, { m with host })
  let carrier ← newCarrier
  let m ← get
  let (baggage, heap) := furnish m.process.heap registry module b.receiver argument object child.heap
  let child := { child with heap }
  let child := match baggage with
    | .ok baggage => launch child registry b.function start baggage ⟨m.process.id, carrier⟩
    | .error _ => child
  modifyHost fun h => { h with nursery := h.nursery ++ [child] }
  match baggage with
  | .ok _ => return (child.id, ← newFuture carrier)
  | .error e => throw e

theorem nursery_rear (registry : Registry) (module : ModuleId) (b : BoundFunction) (start : Nat) (argument : Value)
    (object : Handle) (m : Machine) : (rear registry module b start argument object m).2.host.nursery ≠ [] := by
  have hgrown : ∀ t s s', Heralds t s s' → s.host.nursery ≠ [] → s'.host.nursery ≠ [] := fun t s s' h hs => by
    rwa [show s'.host.nursery = s.host.nursery from congrArg View.nursery h.view]
  refine Act.wp.state (P := fun s : Machine => s.host.nursery ≠ []) ?_
  simp only [rear, Act.wp_bind, Act.wp_modifyGet, Act.wp_lift, Act.wp_get]
  generalize furnish _ _ _ _ _ _ _ = result
  rcases result with ⟨e | baggage, heap⟩
  · simp only [Act.wp_bind, Act.wp_lift]
    exact List.append_ne_nil_of_right_ne_nil _ (List.cons_ne_nil _ _)
  · simp only [Act.wp_bind, Act.wp_lift]
    refine Act.wp_mono (Act.wp_of_preserves (heralds_newFuture _) ⟨rfl, fun _ _ h => h, fun h => h⟩) (fun _ s h => ?_)
      fun _ s h => ?_
    · exact hgrown _ _ s h (List.append_ne_nil_of_right_ne_nil _ (List.cons_ne_nil _ _))
    · exact hgrown _ _ s h (List.append_ne_nil_of_right_ne_nil _ (List.cons_ne_nil _ _))

/-- Starts a bound function as a process, if it is one of a program. -/
def launchBound (b : BoundFunction) (argument : Value) (registry : Registry) : Act Machine (ProcessId × Value) :=
  match (registry.functionAt b.function).kind with
  | .user start => do
    let object ← moduleObject (registry.functionAt b.function).module
    rear registry (registry.functionAt b.function).module b start argument object
  | _ => throw (.message "a process must start with a user-defined function")

theorem spawn_eq (callee argument : Value) : spawn callee argument = (do
    let b ← entryPoint callee
    let m ← get
    launchBound b argument m.host.registry) := rfl

theorem tracks_spawn (hv : v.Pairs R w) (x y : Value) :
    Tracks R (fun R a b => b.1 = a.1 ∧ a.2.Pairs R b.2) (spawn v x) (spawn w y) := by
  rw [spawn_eq, spawn_eq]
  refine (tallies_entryPoint hv).tracks_bind fun R₁ b b' _ hb => tracks_get fun R₂ m k _ ht hn => ?_
  rw [ht.registry]
  unfold launchBound at hn ⊢
  rw [hb]
  cases hkind : (m.host.registry.functionAt b.function).kind with
  | native body => exact ht.throw (.same _ nofun)
  | background body => exact ht.throw (.same _ nofun)
  | user start =>
      rw [hkind] at hn
      refine Tallies.tracks_bind (tallies_moduleObject _) (fun R₃ object object' _ _ => ?_) R₂ m k (le_refl R₂) ht hn
      exact fun R₄ m₁ k₁ _ _ hn₁ => (nursery_rear _ _ _ _ _ _ _ hn₁).elim

theorem tracks_processStart (hv : v.Pairs R w) (x y : Value) :
    Tracks R Value.Pairs (processStart v x) (processStart w y) := by
  have hstart : ∀ {R₁ : Pairing} {a b : Handle} {o o' : Object}, R ≤ R₁ → R₁ a b → o.Pairs R₁ o' →
      Tracks R₁ Value.Pairs (launchEntry a o x) (launchEntry b o' y) := by
    intro R₁ a b o o' hle hab ho
    unfold launchEntry
    rcases rel_cases (ho.member? "function") with ⟨hm, hm'⟩ | ⟨callee, callee', hm, hm', hcallee⟩
    · rw [hm, hm']
      exact (tallies_refuse (by simp)).tracks
    · rw [hm, hm']
      refine (tracks_spawn hcallee x y).bind (fun p => nursery_of_steady fun s => ?_) fun R₂ p q h₂ hpq => ?_
      · exact preserves_bind (steady_onHeap fun _ => Heap.knows_putPayload a (by simp [Payload.external?])) fun _ =>
          preserves_pure _
      obtain ⟨hid, hfuture⟩ := hpq
      dsimp only
      rw [hid]
      exact (tallies_putPayload (h₂ _ _ hab) (.process _) rfl).bind fun R₃ _ _ h₃ _ => tallies_pure fun R₄ h₄ =>
        hfuture.mono (h₃.trans h₄)
  refine (tallies_expectObject hv _).tracks_bind fun R₁ a b h₁ hab => ?_
  refine (tallies_fetch hab).tracks_bind fun R₂ o o' h₂ ho => ?_
  have hp := ho.payload
  have hlaunch := (hstart (h₁.trans h₂) (h₂ _ _ hab) ho)
  dsimp only
  generalize o.payload = p at hp
  generalize o'.payload = q at hp
  cases hp with
  | process id =>
      cases id with
      | some id => exact Tallies.tracks_bind (A := Same) (tallies_refuse (by simp)) fun _ _ _ hle _ => hlaunch.mono hle
      | none => exact hlaunch
  | _ => exact hlaunch

/-! ## Native functions -/

theorem tallies_write {h : Host → Host} (hw : ∀ {R : Pairing} {m k : Machine}, m.Twin R k →
    ({ m with host := h m.host } : Machine).Twin R { k with host := h k.host }) :
    Tallies R Value.Pairs (do modifyHost h; return .none : Act Machine Value) (do modifyHost h; return .none) :=
  fun R₁ _ _ _ ht => ⟨R₁, le_refl R₁, hw ht, .ok .none⟩

/-- What a native function does shows no handle. -/
theorem tracks_runNative (hv : v.Pairs R w) (hx : x.Pairs R y) {body : Native} (hb : body ≠ .collect) :
    Tracks R Value.Pairs (runNative v x body) (runNative w y body) := by
  have hbare : ∀ {R : Pairing} {m k : Machine} (c : ContextId), m.Twin R k →
      (k.process.contextAt c).module = (m.process.contextAt c).module := fun c ht =>
    (congrArg Context.module (ht.bare_contextAt c) :)
  by_cases hs : body = .processStart
  · subst hs
    exact tracks_processStart hv x y
  refine Tallies.tracks ?_
  cases body with
  | print =>
      refine tallies_get fun R₁ m k hle ht => ?_
      rw [ht.argumentText (hx.mono hle)]
      exact (tallies_write fun ht => ht.writeOut _).run ht
  | println =>
      refine tallies_get fun R₁ m k hle ht => ?_
      rw [ht.argumentText (hx.mono hle)]
      exact (tallies_write fun ht => ht.writeOut _).run ht
  | errorln =>
      refine tallies_get fun R₁ m k hle ht => ?_
      rw [ht.errorText (hx.mono hle)]
      exact (tallies_write fun ht => ht.writeErr _).run ht
  | str => exact tallies_asText hx
  | len => exact tallies_length hx
  | setSuper => exact tallies_setSuper hx
  | remote =>
      refine tallies_get fun R₁ m k hle ht => ?_
      rw [show k.process.id = m.process.id from (congrArg Process.id ht.process.bare :)]
      exact (tallies_newRemote _ (hx.mono hle)).run ht
  | currentTask =>
      refine tallies_get fun R₁ m k hle ht => ?_
      rw [ht.task]
      exact (tallies_newHolder .task (.task _) rfl).run ht
  | currentContext =>
      refine tallies_get fun R₁ m k _ ht => ?_
      rw [ht.top?]
      cases m.top? with
      | none => exact ht.pure .none
      | some c =>
          refine Tallies.run (Tallies.bind (A := Any) (fun _ _ _ _ ht => (ht.pin c).lift) fun _ _ _ _ _ => ?_) ht
          exact tallies_newHolder .context (.context c) rfl
  | ownLen => exact tallies_length hv
  | concat => exact tallies_concat hv hx
  | arrayPush =>
      refine (tallies_expectObject hv _).bind fun R₁ a b h₁ hab => ?_
      refine Tallies.bind (A := Same) (tallies_onHeap fun _ _ _ _ hle ht => ?_) fun _ c d _ hcd => ?_
      · exact ht.arrayPush (hle _ _ hab) (hx.mono (h₁.trans hle))
      · cases hcd
        exact tallies_pure fun _ _ => .scalar _
  | arrayPop =>
      refine (tallies_expectObject hv _).bind fun R₁ a b _ hab => ?_
      refine Tallies.bind (A := fun R => Option.Rel (Value.Pairs R)) (tallies_onHeap fun _ _ _ _ hle ht => ?_)
        fun _ c d _ hcd => ?_
      · exact ht.arrayPop (hle _ _ hab)
      · cases hcd with
        | none => exact tallies_refuse nofun
        | some h => exact tallies_pure fun _ hle => h.mono hle
  | errorNew => exact tallies_errorNew hv hx
  | futureIsComplete =>
      refine (tallies_expectObject hv _).bind fun R₁ a b _ hab => (tallies_futureOutcome hab).bind fun R₂ o o' _ ho => ?_
      rw [rel_isSome ho]
      exact tallies_pure fun _ _ => Value.pairs_ofBool _
  | futureGet => exact tallies_futureGet hv
  | taskId =>
      refine (tallies_receiverPayload hv _).bind fun R₁ p q _ hp => ?_
      cases hp with
      | task t => exact tallies_pure fun _ _ => .scalar _
      | _ => exact tallies_pure fun _ _ => .none
  | taskState =>
      refine (tallies_receiverPayload hv _).bind fun R₁ p q _ hp => ?_
      cases hp with
      | task t => exact tallies_taskState t
      | _ => exact tallies_pure fun _ _ => .none
  | contextModule =>
      refine (tallies_receiverPayload hv _).bind fun R₁ p q _ hp => ?_
      cases hp with
      | context c =>
          refine tallies_get fun R₂ m k _ ht => ?_
          rw [hbare c ht]
          exact (tallies_reflect _).run ht
      | _ => exact tallies_pure fun _ _ => .none
  | contextFunction =>
      refine (tallies_receiverPayload hv _).bind fun R₁ p q _ hp => ?_
      cases hp with
      | context c => exact tallies_contextFunction c
      | _ => exact tallies_pure fun _ _ => .none
  | processNew =>
      refine (tallies_expectObject hv _).bind fun R₁ a b h₁ hab => ?_
      exact (tallies_setMember hab _ (hx.mono h₁)).bind fun R₂ _ _ h₂ _ => tallies_pure fun _ hle =>
        hv.mono (h₁.trans (h₂.trans hle))
  | processStart => exact absurd rfl hs
  | processNumber =>
      refine (tallies_receiverPayload hv _).bind fun R₁ p q _ hp => ?_
      cases hp with
      | process id =>
          cases id with
          | some id => exact tallies_pure fun _ _ => .scalar _
          | none => exact tallies_pure fun _ _ => .none
      | _ => exact tallies_pure fun _ _ => .none
  | pair => exact tallies_newTuple (.cons hv (.cons hx .nil))
  | lost => exact tallies_newRemote _ hx
  | collect => exact absurd rfl hb

/-! ## Waiting -/

/-- What calls have come to is the same. -/
inductive Reply.Pairs (R : Pairing) : Reply → Reply → Prop where
  | value {v w : Value} : v.Pairs R w → Pairs R (.value v) (.value w)
  | parked : Pairs R .parked .parked

theorem tallies_value (hv : v.Pairs R w) :
    Tallies R Reply.Pairs (Pure.pure (.value v)) (Pure.pure (.value w)) := tallies_pure fun _ hle => .value (hv.mono hle)

theorem Twin.park (ht : m.Twin R k) (reason : WaitReason) : Joins R Any (Machine.park reason m) (Machine.park reason k) := by
  refine ⟨R, le_refl R, ht.update ?_, trivial⟩
  rw [ht.task]
  exact ht.process.park (.inr rfl) reason

theorem Twin.await (ht : m.Twin R k) (t : TaskId) (delivery : Delivery) (reason : WaitReason) :
    Meets R Reply.Pairs ((liftM (Machine.await t delivery reason) : Act Machine Reply) m)
      ((liftM (Machine.await t delivery reason) : Act Machine Reply) k) := by
  have hrun : ∀ n : Machine, Machine.await t delivery reason n = (.parked, (Machine.park reason
      (Machine.modifyProcess (fun p => p.modifyTask t fun a => a.addDependent n.task delivery) n).2).2) := fun _ => rfl
  have hlisted := ht.process.modifyTask_frame t (f := (·.addDependent m.task delivery))
    (fun _ _ h => (congrArg (Task.addDependent · m.task delivery) h :)) (fun _ => ⟨rfl, rfl, List.Subset.refl _⟩) fun h => h
  refine Joins.lift ?_
  rw [hrun, hrun, ht.task]
  obtain ⟨R₁, h₁, ht₁, _⟩ := ht.modifyProcess (f := fun p => p.modifyTask t fun a => a.addDependent m.task delivery)
    (g := fun p => p.modifyTask t fun a => a.addDependent m.task delivery) hlisted
  obtain ⟨R₂, h₂, ht₂, _⟩ := ht₁.park reason
  exact ⟨R₂, h₁.trans h₂, ht₂, .parked⟩

theorem tallies_await (t : TaskId) (delivery : Delivery) (reason : WaitReason) :
    Tallies R Reply.Pairs (liftM (await t delivery reason)) (liftM (await t delivery reason)) :=
  fun _ _ _ _ ht => ht.await t delivery reason

theorem Twin.enqueue (ht : m.Twin R k) (t : TaskId) : Joins R Any (Machine.enqueue t m) (Machine.enqueue t k) :=
  ht.modifyProcess (ht.process.enqueue t)

/-! ## Starting tasks -/

theorem Twin.startCall (ht : m.Twin R k) (f : FunctionId) (capture : Option ContextId)
    (hc : ∀ c, capture = some c → Process.Matches R m.process k.process c) (start : Nat) (hx : x.Pairs R y)
    (hv : v.Pairs R w) :
    Joins R Same (Machine.startCall ⟨f, x, capture⟩ start v m) (Machine.startCall ⟨f, y, capture⟩ start w k) := by
  have hrun : ∀ (b : BoundFunction) (v : Value) (n : Machine), Machine.startCall b start v n =
      ((n.process.startCall n.host.registry b start v (some n.task)).1, (Machine.enqueue
        (n.process.startCall n.host.registry b start v (some n.task)).1
        { n with process := (n.process.startCall n.host.registry b start v (some n.task)).2 }).2) := fun _ _ _ => rfl
  obtain ⟨hp, hid⟩ := ht.process.startCall m.host.registry f capture hc start (some m.task) hv hx
  rw [hrun, hrun, ht.registry, ht.task, hid]
  obtain ⟨R₁, h₁, ht₁, _⟩ := (ht.update hp).enqueue
    (m.process.startCall m.host.registry ⟨f, x, capture⟩ start v (some m.task)).1
  rw [ht.task] at ht₁
  exact ⟨R₁, h₁, ht₁, rfl⟩

theorem Steady.state_taskAt {m₁ : Machine} (h : m.Steady m₁) (t : TaskId) :
    (m₁.process.taskAt t).state = (m.process.taskAt t).state := by
  have hs : (m₁.process.taskAt t).standing = (m.process.taskAt t).standing := by
    rw [← Process.standingAt_roster, ← Process.standingAt_roster, h.roster]
  exact congrArg Standing.state hs

theorem state_startCall (b : BoundFunction) (start : Nat) (argument : Value) (m : Machine) :
    ((startCall b start argument m).2.process.taskAt (startCall b start argument m).1).state = .new := by
  have hrow := Process.roster_startTask m.process (some m.task) argument fun task =>
    { task
      kind := .function
      previous := b.capture
      receiver := b.receiver
      module := (m.host.registry.functionAt b.function).module
      function := some b.function
      cursor := start }
  have hat := Roster.at?_start m.process.roster { parent := some m.task }
  rw [Process.next_roster] at hat
  have hstanding := Roster.standingAt_of_at? hat
  have hstart : (m.process.roster.start { parent := some m.task }).standingAt ⟨m.process.tasks.size⟩
      = (m.process.roster.add { parent := some m.task }).standingAt ⟨m.process.tasks.size⟩ := rfl
  rw [hstart, ← hrow, Process.standingAt_roster] at hstanding
  exact congrArg Standing.state hstanding

section

/-- A future for a task that is not finished. -/
theorem meets_watch (ht : m.Twin R k) {t : TaskId} (hun : ¬ (m.process.taskAt t).state.isFinished) :
    Meets R Reply.Pairs ((do return .value (← newFuture t) : Act Machine Reply) m)
      ((do return .value (← newFuture t) : Act Machine Reply) k) :=
  (ht.newFuture (ht.process.tasks t (.inl hun)).register).bind fun _ _ _ _ _ _ ht' h _ _ => ht'.pure (.value h)

end

/-! ## Background functions -/

theorem tallies_hold (hv : v.Pairs R w) : Tallies R Any (hold v) (hold w) := by
  cases hv with
  | none => exact tallies_pure fun _ _ => trivial
  | scalar s => exact tallies_pure fun _ _ => trivial
  | object hab =>
      exact Tallies.bind (A := Any) (tallies_onHeap fun _ _ _ _ hle ht => ht.root (hle _ _ hab)) fun _ _ _ _ _ =>
        tallies_pure fun _ _ => trivial

/-- What the pool gets is not compared. -/
theorem Twin.submit (ht : m.Twin R k) (call call' : BackgroundCall) :
    Joins R Any (Machine.submit call m) (Machine.submit call' k) := by
  have hp := ht.process.books (fun p => { p with inFlight := p.inFlight + 1 }) (fun _ => rfl) fun _ =>
    ⟨rfl, rfl, rfl, rfl, rfl⟩
  exact ⟨R, le_refl R, ⟨⟨ht.registry, ht.discreet, ht.library, ht.out, ht.err⟩, hp, ht.task⟩, trivial⟩

theorem Twin.newCarrier (ht : m.Twin R k) : Joins R Same (Machine.newCarrier m) (Machine.newCarrier k) := by
  have hrun : ∀ n : Machine, Machine.newCarrier n = ((n.process.newCarrier n.task).1,
      { n with process := (n.process.newCarrier n.task).2 }) := fun _ => rfl
  obtain ⟨hp, hid⟩ := ht.process.newCarrier m.task
  have ht' := ht.update hp
  rw [ht.task] at ht'
  rw [hrun, hrun, ht.task]
  exact ⟨R, le_refl R, ht', hid⟩

theorem tallies_launchBackground (async : Bool) (body : Background) (hv : v.Pairs R w) (hx : x.Pairs R y)
    (delivery : Delivery) :
    Tallies R Reply.Pairs (launchBackground async body v x delivery) (launchBackground async body w y delivery) := by
  intro R₁ m k hle ht
  refine Meets.bind ht.newCarrier.lift fun R₂ t t' m₂ k₂ h₂ ht₂ hid hm _ => ?_
  cases hid
  refine ((tallies_hold (hv.mono (hle.trans h₂))).run ht₂).bind fun R₃ l l' m₃ k₃ h₃ ht₃ _ hm₃ _ => ?_
  refine ((tallies_hold (hx.mono (hle.trans (h₂.trans h₃)))).run ht₃).bind fun R₄ l₂ l₂' m₄ k₄ h₄ ht₄ _ hm₄ _ => ?_
  have hun : ¬ (m₄.process.taskAt t).state.isFinished := by
    have hs₃ := steady_hold v m₂ (.refl m₂)
    have hs₄ := steady_hold x m₃ (.refl m₃)
    rw [hm₃] at hs₃
    rw [hm₄] at hs₄
    have hnew : m₂.process.taskAt t = { parent := some m.task, state := .waiting, reason := .onFuture } := by
      obtain ⟨ht, rfl⟩ := Prod.mk.inj hm
      cases ht
      exact Process.taskAt_of_getElem? (Process.getElem?_newCarrier m.process m.task)
    rw [hs₄.state_taskAt, hs₃.state_taskAt, hnew]
    exact Bool.false_ne_true
  refine meets_get ?_
  refine Meets.bind (ht₄.submit _ _).lift fun R₅ _ _ m₅ k₅ h₅ ht₅ _ hm₅ _ => ?_
  split
  · refine meets_watch ht₅ ?_
    obtain ⟨_, rfl⟩ := Prod.mk.inj hm₅
    exact hun
  · exact ht₅.await t delivery .onFuture

/-! ## Calling -/

/-- The native functions that are called tell nothing about collections. -/
theorem tracks_callNative {body : Native} (hv : v.Pairs R w) (hx : x.Pairs R y) (hb : body ≠ .collect) :
    Tracks R Reply.Pairs (do return .value (← runNative v x body)) (do return .value (← runNative w y body)) :=
  (tracks_runNative hv hx hb).bind (fun _ _ => rfl) fun _ _ _ _ h => tallies_value h

theorem Twin.ne_collect (ht : m.Twin R k) {f : FunctionId} {body : Native}
    (h : (m.host.registry.functionAt f).kind = .native body) : body ≠ .collect := by
  rintro rfl
  exact ht.discreet.kind_functionAt f h

/-- The context that a function closes over, if any, is the same. -/
theorem meets_invoke (ht : m.Twin R k) (f : FunctionId) (capture : Option ContextId) (hv : v.Pairs R w) (hx : x.Pairs R y)
    (delivery : Delivery) (hc : ∀ c, capture = some c → Process.Matches R m.process k.process c)
    (hn : (invoke ⟨f, v, capture⟩ x delivery m).2.host.nursery = []) :
    Meets R Reply.Pairs (invoke ⟨f, v, capture⟩ x delivery m) (invoke ⟨f, w, capture⟩ y delivery k) := by
  unfold invoke at hn ⊢
  refine meets_get ?_
  replace hn := nursery_get hn
  rw [ht.registry]
  cases hkind : (m.host.registry.functionAt f).kind with
  | native body =>
      rw [hkind] at hn
      exact tracks_callNative hv hx (ht.ne_collect hkind) R m k (le_refl R) ht hn
  | background body => exact (tallies_launchBackground _ body hv hx delivery).run ht
  | user start =>
      refine Meets.bind (ht.startCall f capture hc start hv hx).lift fun R₁ t t' m₁ k₁ _ ht₁ ht' hm _ => ?_
      cases ht'
      dsimp only
      split
      · refine meets_watch ht₁ ?_
        obtain ⟨ht, rfl⟩ := eq_of_lift hm
        cases ht
        rw [state_startCall]
        exact Bool.false_ne_true
      · exact ht₁.await t delivery .onCall

/-! ## Making objects -/

theorem tallies_forIn {xs : List α} {f g : α → PUnit → Act Machine (ForInStep PUnit)}
    (h : ∀ {R'} a, R ≤ R' → Tallies R' (fun _ s s' => s = .yield PUnit.unit ∧ s' = .yield PUnit.unit) (f a PUnit.unit)
      (g a PUnit.unit)) : Tallies R Any (forIn xs PUnit.unit f) (forIn xs PUnit.unit g) := by
  induction xs generalizing R with
  | nil => exact tallies_pure fun _ _ => trivial
  | cons a rest ih =>
      simp only [List.forIn_cons]
      refine (h a (le_refl R)).bind fun R₁ s s' h₁ hs => ?_
      obtain ⟨rfl, rfl⟩ := hs
      exact ih fun b hle => h b (h₁.trans hle)

theorem tallies_instantiate (c : ClassId) : Tallies R (fun R => R) (instantiate c) (instantiate c) := by
  refine (tallies_newObject c).bind fun R₁ a b _ hab => tallies_get fun R₂ m k h₂ ht => ?_
  have hab₂ := h₂ _ _ hab
  rw [ht.registry]
  refine Tallies.run (Tallies.bind (A := Any) (tallies_forIn fun name h₃ => ?_) fun R₃ _ _ h₃ _ =>
    tallies_pure fun _ h₄ => h₄ _ _ (h₃ _ _ hab₂)) ht
  refine (tallies_member (h₃ _ _ hab₂) name).bind fun R₄ x y h₄ hxy => ?_
  have hnone : y.isNone = x.isNone := by cases hxy <;> rfl
  have hdone : ∀ R', R₄ ≤ R' → (fun (_ : Pairing) (s s' : ForInStep PUnit) => s = .yield PUnit.unit ∧ s' = .yield PUnit.unit)
      R' (.yield PUnit.unit) (.yield PUnit.unit) := fun _ _ => ⟨rfl, rfl⟩
  rw [hnone]
  split
  · exact (tallies_setMember (h₄ _ _ (h₃ _ _ hab₂)) name .none).bind fun _ _ _ h₅ _ => tallies_pure fun _ _ => ⟨rfl, rfl⟩
  · exact tallies_pure hdone

theorem tracks_construct (c : ClassId) (hx : x.Pairs R y) :
    Tracks R Reply.Pairs (construct c x) (construct c y) := by
  refine (tallies_instantiate c).tracks_bind fun R₁ a b h₁ hab => tracks_get fun R₂ m k h₂ ht hn => ?_
  have hobject : (Value.object a).Pairs R₂ (.object b) := .object (h₂ _ _ hab)
  have hx := hx.mono (h₁.trans h₂)
  rw [ht.registry]
  cases hfind : m.host.registry.findMethod? c "new" with
  | none => exact ht.pure (.value hobject)
  | some f =>
      rw [hfind] at hn
      dsimp only at hn ⊢
      cases hkind : (m.host.registry.functionAt f).kind with
      | background body => exact ht.throw (.same _ nofun)
      | native body =>
          rw [hkind] at hn
          exact (tracks_runNative hobject hx (ht.ne_collect hkind)).discard.bind (fun _ _ => rfl)
            (fun _ _ _ h₃ _ => tallies_value (hobject.mono h₃)) R₂ m k (le_refl R₂) ht hn
      | user start =>
          refine Meets.bind (ht.startCall f none nofun start hobject hx).lift fun R₃ t t' m₁ k₁ h₃ ht₁ hid _ _ => ?_
          cases hid
          exact Meets.bind (ht₁.setRegister (hobject.mono h₃)).lift fun _ _ _ _ _ _ ht₂ _ _ _ => ht₂.await t .keep .onCall

/-! ## Calls of any value -/

theorem tracks_call (hv : v.Pairs R w) (hx : x.Pairs R y) (delivery : Delivery) :
    Tracks R Reply.Pairs (call v x delivery) (call w y delivery) := by
  have hrefuse : ∀ {R₁ : Pairing}, R ≤ R₁ → Tracks R₁ Reply.Pairs
      (do throw (.notCallable ((← get).typeName v)) : Act Machine Reply)
      (do throw (.notCallable ((← get).typeName w))) := fun hle => (tallies_get fun R₂ m k hle' ht => by
    rw [ht.typeName (hv.mono (hle.trans hle'))]
    exact ht.throw (.same _ nofun)).tracks
  cases hv with
  | none => exact hrefuse (le_refl R)
  | scalar s => exact hrefuse (le_refl R)
  | @object a b hab =>
      intro R₁ m k h₁ ht hn
      have hab := h₁ _ _ hab
      refine ((tallies_fetch hab).run ht).bind fun R₂ o o' m₁ k₁ h₂ ht₁ ho hm hk => ?_
      obtain ⟨rfl, hobject⟩ := eq_of_fetch hm
      obtain ⟨rfl, _⟩ := eq_of_fetch hk
      have hx := hx.mono (h₁.trans h₂)
      replace hn := nursery_bind hm hn
      have hkeeps : ∀ c, o.payload.external? = some (.context c) → Process.Matches R₂ m₁.process k₁.process c := fun c hc =>
        ht₁.process.behind (.context c) ⟨a, b, o, h₂ _ _ hab, hobject, hc⟩
      have hp := ho.payload
      generalize o.payload = p at hp hn hkeeps
      generalize o'.payload = q at hp
      cases hp with
      | ofClass c => exact tracks_construct c hx R₂ m₁ k₁ (le_refl R₂) ht₁ hn
      | ofFunction f => exact meets_invoke ht₁ f none .none hx delivery nofun hn
      | bound f capture h =>
          refine meets_invoke ht₁ f capture h hx delivery (fun c hc => hkeeps c ?_) hn
          rw [hc]
          rfl
      | _ => exact hrefuse (h₁.trans h₂) R₂ m₁ k₁ (le_refl R₂) ht₁ hn

/-! ## Waiting for futures -/

theorem tallies_wait (hv : v.Pairs R w) : Tallies R Reply.Pairs (wait v) (wait w) := by
  have hthere := hv
  cases hv with
  | none => exact tallies_value hthere
  | scalar s => exact tallies_value hthere
  | object hab =>
      refine (tallies_fetch hab).bind fun R₁ o o' h₁ ho => ?_
      rw [ho.future?]
      cases o.future? with
      | none => exact tallies_value (hthere.mono h₁)
      | some cell =>
          refine (tallies_futureOutcome (h₁ _ _ hab)).bind fun R₂ r r' h₂ hr => ?_
          cases hr with
          | none => exact tallies_await cell.task .result .onFuture
          | @some r r' hr =>
              obtain ⟨value, failed⟩ := r
              obtain ⟨value', failed'⟩ := r'
              obtain ⟨hvalue, hfailed⟩ := hr
              cases hfailed
              cases failed with
              | false => exact tallies_value hvalue
              | true =>
                  cases hvalue with
                  | object h => exact tallies_throw (.raised h)
                  | none => exact tallies_refuse nofun
                  | scalar s => exact tallies_refuse nofun

/-! ## Loading modules -/

/-- A module is found, or registered, without a look at a heap. -/
theorem tallies_onRegistry {act : Registry.Entry γ} (ha : ∀ P, Registry.Lasting P → Preserves P act) :
    Tallies R Same (onRegistry act) (onRegistry act) := by
  intro R₁ m k _ ht
  have hrun : ∀ n : Machine, onRegistry act n = ((act n.host.registry).1.mapError HostError.toFault,
    { n with host := { n.host with registry := (act n.host.registry).2 } }) := fun _ => rfl
  rw [hrun, hrun, ht.registry]
  refine ⟨R₁, le_refl R₁, ht.withRegistry (ha _ Registry.lasting_discreet _ ht.discreet), ?_⟩
  cases (act m.host.registry).1 with
  | ok a => exact .ok rfl
  | error e => exact .error (.same _ (by cases e <;> exact nofun))

theorem Twin.startModule (ht : m.Twin R k) (module : ModuleId) :
    Joins R Same (updateProcess (fun p => p.startModule module (some m.task)) m)
      (updateProcess (fun p => p.startModule module (some m.task)) k) := by
  obtain ⟨hp, hid⟩ := ht.process.startModule module (some m.task)
  exact ⟨R, le_refl R, ht.update hp, hid⟩

theorem tallies_loadModule (name : String) : Tallies R Reply.Pairs (loadModule name) (loadModule name) := by
  refine tallies_get fun R₁ m k h₁ ht => ?_
  rw [ht.library]
  refine Tallies.run ((tallies_onRegistry fun _ hP => Registry.preserves_resolve hP _ name).bind
    fun R₂ module module' h₂ hid => ?_) ht
  cases hid
  refine (tallies_moduleObject module).bind fun R₃ a b h₃ hab => tallies_get fun R₄ m k h₄ ht => ?_
  rw [ht.top?]
  have hab := h₄ _ _ hab
  cases htop : m.top? with
  | none => exact ht.throw (.same _ nofun)
  | some top =>
      refine meets_get ?_
      rw [show (k.process.contextAt top).module = (m.process.contextAt top).module from
        (congrArg Context.module (ht.bare_contextAt top) :)]
      refine Tallies.run ((tallies_moduleObject _).bind fun R₅ c d h₅ hcd => ?_) ht
      have hloaded : (Value.object a).Pairs R₅ (.object b) := .object (h₅ _ _ hab)
      refine (tallies_setMember hcd name hloaded).bind fun R₆ _ _ h₆ _ => tallies_get fun R₇ m k h₇ ht => ?_
      have hloaded := hloaded.mono (h₆.trans h₇)
      rw [show k.process.modules = m.process.modules from (congrArg Process.modules ht.process.bare :)]
      cases hmodule : m.process.modules.get? module with
      | none =>
          dsimp only
          rw [ht.task]
          refine Meets.bind (ht.startModule module).lift fun R₈ t t' m₁ k₁ h₈ ht₁ hid _ _ => ?_
          cases hid
          refine Meets.bind (ht₁.setRegister (hloaded.mono h₈)).lift fun _ _ _ m₂ k₂ _ ht₂ _ _ _ => ?_
          exact Meets.bind (ht₂.enqueue t).lift fun _ _ _ _ _ _ ht₃ _ _ _ => ht₃.await t .keep .onCall
      | some state =>
          cases state with
          | ready => exact ht.pure (.value hloaded)
          | initializing t =>
              dsimp only
              rw [ht.task, Process.ancestry_eq_of_bare ht.process.bare]
              split
              · exact ht.pure (.value hloaded)
              · exact Meets.bind (ht.setRegister hloaded).lift fun _ _ _ _ _ _ ht₁ _ _ _ => ht₁.await t .keep .onCall

end Spool.Machine
