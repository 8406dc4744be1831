import Spool.Proofs.Machine.Sturdy
import Spool.Proofs.Machine.TwinSteps

/-!
# Turns of twins

A turn of a task does the same on both sides, whenever the one or the other collects its garbage, as long as it starts no
process and no error names a slot of the heap. So does a round of a scheduler.
-/

namespace Spool

namespace Machine

variable {R R' : Pairing} {m k : Machine} {α β γ δ : Type} {v w x y : Value} {A : Pairing → α → β → Prop}
  {B : Pairing → γ → δ → Prop} {act : Act Machine α} {act' : Act Machine β} {f : α → Act Machine γ} {g : β → Act Machine δ}

/-! ## Between two instructions -/

theorem nursery_raise (fault : Fault) (m : Machine) : (raise fault m).2.host.nursery = m.host.nursery := by
  have hmade := (steady_errorObject fault m (.refl m)).nursery
  rw [raise_eq]
  cases (errorObject fault m).2.top? <;> exact hmade

theorem nursery_perform (top : ContextId) (position : Nat) (i : Instruction) (m : Machine) :
    (perform top position i m).2.host.nursery = (step top position i m).2.host.nursery := by
  rw [perform_eq]
  cases (step top position i m).1 with
  | error fault => exact nursery_raise fault _
  | ok flow => cases flow <;> rfl

theorem Twin.complete (ht : m.Twin R k) : Joins R Any (Machine.complete m) (Machine.complete k) :=
  ht.modifyCurrent (fun _ _ h => (congrArg (fun a : Task => { a with state := .complete }) h :))
    ⟨ht.current.register, ht.current.stack⟩ (List.Subset.refl _)

/-- An instruction whose error, if it makes one, names no slot. -/
theorem Twin.perform (ht : m.Twin R k) {top : ContextId} (htop : m.top? = some top) (position : Nat) (i : Instruction)
    (hs : ∀ e, (step top position i m).1 = .error e → ¬ e.NamesSlot)
    (hn : (Machine.perform top position i m).2.host.nursery = []) :
    Joins R Same (Machine.perform top position i m) (Machine.perform top position i k) := by
  rw [nursery_perform] at hn
  obtain ⟨R₁, h₁, ht₁, hc⟩ := meets_step ht htop position i hn
  have hthen : ∀ {x y : Unit × Machine} (b : Bool), Joins R₁ Any x y → Joins R Same (b, x.2) (b, y.2) := by
    rintro x y b ⟨R₂, h₂, ht₂, _⟩
    exact ⟨R₂, h₁.trans h₂, ht₂, rfl⟩
  rw [perform_eq, perform_eq]
  generalize (step top position i m).1 = r at hs hc
  generalize (step top position i k).1 = r' at hc
  cases hc with
  | error he => exact hthen true (ht₁.raise he (hs _ rfl))
  | @ok flow flow' hflow =>
      cases hflow
      cases flow with
      | next => exact hthen true (ht₁.setCursor top _)
      | jump target => exact hthen true (ht₁.setCursor top target)
      | stay => exact ⟨R₁, h₁, ht₁, rfl⟩
      | suspend => exact hthen false (ht₁.setCursor top _)
      | finished => exact hthen false ht₁.complete

/-! ## Unwinding -/

theorem Twin.passing (ht : m.Twin R k) (c : ContextId) : (m.passing c).Twin R (k.passing c) :=
  ht.update ((ht.process.setError c .none).releaseContext c)

theorem Twin.catching (ht : m.Twin R k) (c : ContextId) (position : Nat) :
    (m.catching c position).Twin R (k.catching c position) :=
  ht.update (ht.process.modifyContext c
    (fun _ _ h => (congrArg (fun c : Context => { c with handler := none, cursor := position }) h :))
    (fun h => ⟨h.receiver, h.locals, .none⟩) fun _ => rfl)

theorem contexts_passing (m : Machine) (c : ContextId) : (m.passing c).current.contexts = m.current.contexts := by
  have hp : ∀ p : Process, (p.releaseContext c).tasks = p.tasks := fun p => by
    unfold Process.releaseContext
    split <;> rfl
  have htasks : (m.passing c).process.tasks = m.process.tasks := hp _
  unfold current Process.taskAt
  rw [htasks]
  rfl

/-- An error is caught in the same context on both sides, or in none. -/
theorem Twin.unwindThrough (ht : m.Twin R k) {a b : Handle} (hab : R a b) {cs : List ContextId}
    (hcs : cs ⊆ m.current.contexts) : Joins R Same (Machine.unwindThrough a cs m) (Machine.unwindThrough b cs k) := by
  induction cs generalizing m k with
  | nil =>
      obtain ⟨R₁, h₁, ht₁, _⟩ := ht.modifyCurrent
        (f := fun t => { t with contexts := [], register := .object a, state := .error })
        (g := fun t => { t with contexts := [], register := .object b, state := .error })
        (fun _ _ h => (congrArg (fun x : Task => { x with contexts := [], state := .error }) h :))
        ⟨.object hab, ht.current.stack⟩ (List.nil_subset _)
      exact ⟨R₁, h₁, ht₁, rfl⟩
  | cons c outer ih =>
      rw [unwindThrough_cons, unwindThrough_cons,
        show (k.process.contextAt c).handler = (m.process.contextAt c).handler from
          (congrArg Context.handler (ht.bare_contextAt c) :)]
      cases (m.process.contextAt c).handler with
      | some position =>
          have ht₁ := ht.catching c position
          obtain ⟨R₂, h₂, ht₂, _⟩ := ht₁.modifyCurrent
            (f := fun t => { t with contexts := c :: outer, register := .object a })
            (g := fun t => { t with contexts := c :: outer, register := .object b })
            (fun _ _ h => (congrArg (fun x : Task => { x with contexts := c :: outer }) h :))
            ⟨.object hab, ht₁.current.stack⟩ hcs
          exact ⟨R₂, h₂, ht₂, rfl⟩
      | none =>
          refine ih (ht.passing c) ?_
          rw [contexts_passing]
          exact List.Subset.trans (List.subset_cons_self c outer) hcs

/-! ## Collections -/

/-- Whether one of them collects its garbage makes no difference. -/
theorem Twin.swept {n n' : Machine} (ht : m.Twin R k) (hun : ¬ m.current.state.isFinished) (h : m.Swept n)
    (h' : k.Swept n') : ∃ R', n.Twin R' n' := by
  have hcur : ∀ t, some m.task = some t → ¬ (m.process.taskAt t).state.isFinished := by
    rintro t ht
    cases ht
    exact hun
  have hleft : ∃ R', n.Twin R' k := by
    rcases h with ⟨_, rfl⟩ | ⟨_, h⟩
    · exact ⟨R, ht⟩
    · rw [eq_of_safepoint h]
      exact ⟨_, ht.toAgrees, ht.process.collect m.host.registry hcur, ht.task⟩
  obtain ⟨R₁, ht₁⟩ := hleft
  have hcur₁ : ∀ t, some n.task = some t → ¬ (n.process.taskAt t).state.isFinished := by
    obtain ⟨heap, rfl⟩ := eq_of_swept h
    exact hcur
  rcases h' with ⟨_, rfl⟩ | ⟨_, h'⟩
  · exact ⟨R₁, ht₁⟩
  · rw [eq_of_safepoint h']
    exact ⟨_, ht₁.toAgrees, ht₁.process.collect_right k.host.registry hcur₁, ht₁.task⟩

/-! ## Steps -/

/-- A collection that is due before the next instruction leaves no more objects than there may be. -/
def Spacious (m : Machine) : Prop := ∀ top, m.top? = some top → (m.process.contextAt top).error = none →
  m.process.heap.shouldCollect → (collectGarbage m).2.process.heap.overLimit? = none

/-- The error of the instruction that is due, if it makes one, names no slot of the heap. -/
def Tactful (m : Machine) : Prop := ∀ n top i, m.Due n top i → ∀ e,
  (step top (m.process.contextAt top).cursor i n).1 = .error e → ¬ e.NamesSlot

theorem Spacious.swept (hm : m.Spacious) {top : ContextId} (htop : m.top? = some top)
    (hclear : (m.process.contextAt top).error = none) : ∃ n, m.Swept n := by
  cases hdue : m.process.heap.shouldCollect with
  | false => exact ⟨m, .inl ⟨hdue, rfl⟩⟩
  | true =>
      refine ⟨(collectGarbage m).2, .inr ⟨hdue, ?_⟩⟩
      rw [safepoint_eq, hm top htop hclear hdue]
      rfl

theorem Twin.advance (ht : m.Twin R k) (hun : ¬ m.current.state.isFinished) (hm : m.Spacious) (hk : k.Spacious)
    (hq : m.Tactful) (hn : (Machine.advance m).2.host.nursery = []) :
    (Machine.advance k).1 = (Machine.advance m).1 ∧ ∃ R', (Machine.advance m).2.Twin R' (Machine.advance k).2 := by
  have hjoins : ∀ {R : Pairing} {x y : Bool × Machine}, Joins R Same x y → y.1 = x.1 ∧ ∃ R', x.2.Twin R' y.2 := by
    rintro R x y ⟨R', _, ht', hsame⟩
    exact ⟨hsame, R', ht'⟩
  cases htop : m.top? with
  | none =>
      obtain ⟨R₁, h₁, ht₁, _⟩ := ht.complete
      rw [advance_eq, advance_eq, ht.top?, htop]
      exact ⟨rfl, R₁, ht₁⟩
  | some top =>
      have htop' : k.top? = some top := ht.top?.trans htop
      rcases rel_cases (ht.matches_top htop).pairs.error with ⟨hclear, hclear'⟩ | ⟨a, b, hx, hy, hab⟩
      · obtain ⟨n, hswept⟩ := hm.swept htop hclear
        obtain ⟨n', hswept'⟩ := hk.swept htop' hclear'
        obtain ⟨R₁, ht₁⟩ := ht.swept hun hswept hswept'
        rw [advance_of_swept htop hclear hswept] at hn ⊢
        rw [advance_of_swept htop' hclear' hswept']
        have hfetch : k.performNext top = m.performNext top := by
          unfold performNext
          rw [ht.registry, show (k.process.contextAt top).module = (m.process.contextAt top).module from
            (congrArg Context.module (ht.bare_contextAt top) :), show (k.process.contextAt top).cursor =
            (m.process.contextAt top).cursor from (congrArg Context.cursor (ht.bare_contextAt top) :)]
        rw [hfetch]
        unfold performNext at hn ⊢
        cases hi : (m.host.registry.moduleAt (m.process.contextAt top).module).tape.instructions[(m.process.contextAt
          top).cursor]? with
        | none =>
            obtain ⟨R₂, _, ht₂, _⟩ := ht₁.complete
            exact ⟨rfl, R₂, ht₂⟩
        | some i =>
            rw [hi] at hn
            have hdue : m.Due n top i := ⟨htop, hclear, hswept, hi⟩
            exact hjoins (ht₁.perform hdue.top? _ i (hq n top i hdue) hn)
      · rw [advance_eq, advance_eq, ht.top?, htop]
        simp only [hx, hy]
        refine hjoins (R := R) ?_
        change Joins R Same (Machine.unwindThrough a m.current.contexts m) (Machine.unwindThrough b k.current.contexts k)
        rw [ht.contexts]
        exact ht.unwindThrough hab (List.Subset.refl _)

/-! ## Processes that are never taken out of the nursery -/

theorem View.Stirs.nursery {v v' : View} {async : Prop} {new : List TaskId} (h : v.Stirs async new v') :
    v.nursery <+: v'.nursery := by
  cases h with
  | spawn child _ => exact List.prefix_append _ _
  | _ => exact List.prefix_rfl

theorem View.Parks.nursery {v v' : View} {known : TaskId → Prop} (h : v.Parks known v') : v'.nursery = v.nursery := by
  cases h <;> rfl

theorem nursery_advance {g : Outlook} {t : TaskId} (hm : m.Going g (some t)) :
    m.host.nursery <+: (advance m).2.host.nursery := by
  have hstirs : ∀ {m m' : Machine}, m.Stirs m' → m.host.nursery <+: m'.host.nursery := fun h => by
    obtain ⟨_, hview, _⟩ := h.view
    exact hview.nursery
  have hstride := strides_advance hm
  cases hb : (advance m).1 with
  | true => exact hstirs (hstride.1 hb)
  | false =>
      rcases hstride.2 hb with hp | ⟨m₁, hs, state, v, _, hend⟩
      · rw [show (advance m).2.host.nursery = m.host.nursery from hp.view.nursery]
      · rw [show (advance m).2.host.nursery = m₁.host.nursery from congrArg View.nursery hend.view]
        exact hstirs hs

theorem nursery_runFrom {g : Outlook} {t : TaskId} {m' : Machine} {fuel : Nat} (hm : m.Going g (some t))
    (h : runFrom fuel m = some m') : m.host.nursery <+: m'.host.nursery := by
  induction fuel generalizing m with
  | zero => cases h
  | succ fuel ih =>
      have hadv := advances_advance hm
      have hgrown := nursery_advance hm
      rw [runFrom_succ] at h
      unfold Advances at hadv
      rcases hx : advance m with ⟨_ | _, m₁⟩
      · rw [hx] at h hgrown
        cases h
        exact hgrown
      · rw [hx] at h hgrown hadv
        exact hgrown.trans (ih hadv h)

/-! ## Turns -/

theorem Twin.runFrom {g : Outlook} {t : TaskId} {m' k' : Machine} {fuel fuel' : Nat} (ht : m.Twin R k)
    (hm : m.Going g (some t)) (hleft : ∀ n, m.Runs n → n.Spacious ∧ n.Tactful) (hright : ∀ n, k.Runs n → n.Spacious)
    (h : Machine.runFrom fuel m = some m') (h' : Machine.runFrom fuel' k = some k') (hn : m'.host.nursery = []) :
    ∃ R', m'.Twin R' k' := by
  induction fuel generalizing R m k fuel' with
  | zero => cases h
  | succ fuel ih =>
      cases fuel' with
      | zero => cases h'
      | succ fuel' =>
          have hadv := advances_advance hm
          unfold Advances at hadv
          have hempty : (Machine.advance m).2.host.nursery = [] := by
            rw [runFrom_succ] at h
            rcases hx : Machine.advance m with ⟨_ | _, m₁⟩
            · rw [hx] at h
              cases h
              exact hn
            · rw [hx] at h hadv
              have hgrown := nursery_runFrom hadv h
              rw [hn] at hgrown
              exact List.prefix_nil.1 hgrown
          obtain ⟨hspacious, htactful⟩ := hleft m .refl
          obtain ⟨hsame, R₁, ht₁⟩ := ht.advance hm.unfinished hspacious (hright k .refl) htactful hempty
          rw [runFrom_succ] at h h'
          rcases hx : Machine.advance m with ⟨_ | _, m₁⟩
          · rcases hy : Machine.advance k with ⟨_ | _, k₁⟩
            · rw [hx, hy] at ht₁
              rw [hx] at h
              rw [hy] at h'
              cases h
              cases h'
              exact ⟨R₁, ht₁⟩
            · rw [hx, hy] at hsame
              cases hsame
          · rcases hy : Machine.advance k with ⟨_ | _, k₁⟩
            · rw [hx, hy] at hsame
              cases hsame
            · rw [hx, hy] at ht₁
              rw [hx] at h hadv
              rw [hy] at h'
              exact ih ht₁ hadv (fun n hreach => hleft n (.head hx hreach)) (fun n hreach => hright n (.head hy hreach)) h h'

theorem Twin.resume (ht : m.Twin R k) (hf : m.process.fault = none) :
    Joins R Any (Machine.resume m) (Machine.resume k) := by
  have hf' : k.process.fault = none := (congrArg Process.fault ht.process.bare :).trans hf
  have hwoken := ht.modifyCurrent (f := fun t => { t with state := .running, reason := .notWaiting })
    (g := fun t => { t with state := .running, reason := .notWaiting })
    (fun _ _ h => (congrArg (fun a : Task => { a with state := .running, reason := .notWaiting }) h :))
    ⟨ht.current.register, ht.current.stack⟩ (List.Subset.refl _)
  have hrun : ∀ n : Machine, n.process.fault = none → Machine.resume n =
      Machine.modifyCurrent (fun t => { t with state := .running, reason := .notWaiting }) n := by
    intro n hn
    rw [resume_woken, show (Machine.modifyCurrent (fun t => { t with state := .running, reason := .notWaiting })
      n).2.process.fault = none from hn]
    rfl
  rw [hrun m hf, hrun k hf']
  exact hwoken

theorem Twin.finishTask (ht : m.Twin R k) {t : TaskId}
    (hr : (m.process.taskAt t).register.Pairs R (k.process.taskAt t).register) :
    (Machine.finishTask t m).2.Twin R (Machine.finishTask t k).2 := by
  have hunseen : Process.isUnseenFailure (k.process.taskAt t) = Process.isUnseenFailure (m.process.taskAt t) :=
    (congrArg Process.isUnseenFailure (Process.bare_taskAt ht.process.bare t) :)
  have ht₁ := ht.update (ht.process.finish t hr)
  rw [finishTask_eq, finishTask_eq, hunseen]
  split
  · exact ht₁.reportUncaught hr
  · exact ht₁

theorem Twin.sendResult (ht : m.Twin R k) (link : RemoteLink) :
    Joins R Any (Machine.sendResult link m) (Machine.sendResult link k) := by
  have howe : ∀ {R : Pairing} {m' k' : Machine}, m'.Twin R k' → Joins R Any
      (Machine.modifyProcess (fun p => { p with outgoing := p.outgoing ++ [⟨m.task, link⟩] }) m')
      (Machine.modifyProcess (fun p => { p with outgoing := p.outgoing ++ [⟨m.task, link⟩] }) k') := fun ht' =>
    ht'.modifyProcess (ht'.process.books (fun p => { p with outgoing := p.outgoing ++ [⟨m.task, link⟩] }) (fun _ => rfl)
      fun _ => ⟨rfl, rfl, rfl, rfl, rfl⟩)
  have hr : m.register.Pairs R k.register := ht.current.register
  rw [sendResult_eq, sendResult_eq, ht.task]
  generalize m.register = v at hr
  generalize k.register = w at hr
  cases hr with
  | none => exact howe ht
  | scalar s => exact howe ht
  | @object a b hab =>
      have hroot : Tallies R Any (Machine.onHeap (Heap.root a)) (Machine.onHeap (Heap.root b)) :=
        tallies_onHeap fun _ _ _ _ hle ht => ht.root (hle _ _ hab)
      obtain ⟨R₁, h₁, ht₁, _⟩ := hroot.run ht
      obtain ⟨R₂, h₂, ht₂, _⟩ := howe ht₁
      exact ⟨R₂, h₁.trans h₂, ht₂, trivial⟩

theorem Twin.conclude (ht : m.Twin R k) : ∃ R', (Machine.conclude m).2.Twin R' (Machine.conclude k).2 := by
  have hstate : k.current.state = m.current.state := (congrArg Task.state ht.bare_current :)
  have hremote : k.current.remote = m.current.remote := (congrArg Task.remote ht.bare_current :)
  by_cases hfin : m.current.state.isFinished
  · rw [conclude_of_finished hfin, conclude_of_finished (hstate ▸ hfin), hremote, ht.task]
    cases m.current.remote with
    | none => exact ⟨R, ht.finishTask (ht.process.tasks m.task (ht.active _)).register⟩
    | some link =>
        obtain ⟨R₁, _, ht₁, _⟩ := ht.sendResult link
        have htask : (Machine.sendResult link m).2.task = m.task := by
          rw [sendResult_eq]
          cases m.register <;> rfl
        exact ⟨R₁, ht₁.finishTask (ht₁.process.tasks m.task (htask ▸ ht₁.active _)).register⟩
  · rw [conclude_of_unfinished hfin, conclude_of_unfinished (hstate ▸ hfin)]
    exact ⟨R, ht⟩

/-! ## Rounds -/

/-- Twins between the turns of their tasks. -/
structure Siblings (R : Pairing) (m k : Machine) : Prop extends Host.Agrees m.host k.host where
  process : m.process.Twin R none k.process

theorem Twin.siblings (ht : m.Twin R k) : m.Siblings R k := ⟨ht.toAgrees, ht.process.idle⟩

theorem Siblings.update (hs : m.Siblings R k) {p q : Process} (hp : p.Twin R' none q) :
    ({ m with process := p } : Machine).Siblings R' { k with process := q } :=
  ⟨hs.toAgrees, hp⟩

theorem Siblings.sweep (hs : m.Siblings R k) : ∃ R', (collectGarbage m).2.Siblings R' k :=
  ⟨_, hs.toAgrees, hs.process.collect m.host.registry nofun⟩

theorem Siblings.sweep_right (hs : m.Siblings R k) : ∃ R', m.Siblings R' (collectGarbage k).2 :=
  ⟨_, hs.toAgrees, hs.process.collect_right k.host.registry nofun⟩

/-- A collection that has left room for all objects is all that comes of tidying up. -/
theorem tidy_cases (h : (tidy m).2.process.fault = none) : (tidy m).2 = m ∨ (tidy m).2 = (collectGarbage m).2 := by
  rw [tidy_eq] at h ⊢
  by_cases hdue : m.process.heap.shouldCollect
  · rw [if_pos hdue] at h ⊢
    cases hroom : (collectGarbage m).2.process.heap.overLimit? with
    | none => exact .inr rfl
    | some fault =>
        rw [hroom] at h
        cases h
  · rw [if_neg hdue]
    exact .inl rfl

theorem Siblings.tidy (hs : m.Siblings R k) (h : (Machine.tidy m).2.process.fault = none)
    (h' : (Machine.tidy k).2.process.fault = none) : ∃ R', (Machine.tidy m).2.Siblings R' (Machine.tidy k).2 := by
  have hleft : ∃ R', (Machine.tidy m).2.Siblings R' k := by
    rcases tidy_cases h with heq | heq
    · rw [heq]
      exact ⟨R, hs⟩
    · rw [heq]
      exact hs.sweep
  obtain ⟨R₁, hs₁⟩ := hleft
  rcases tidy_cases h' with heq | heq
  · rw [heq]
    exact ⟨R₁, hs₁⟩
  · rw [heq]
    exact hs₁.sweep_right

theorem nursery_conclude (m : Machine) : (conclude m).2.host.nursery = m.host.nursery := by
  by_cases hfin : m.current.state.isFinished
  · rw [conclude_of_finished hfin]
    cases m.current.remote with
    | none => exact nursery_finishTask m.task m
    | some link =>
        refine (nursery_finishTask m.task (sendResult link m).2).trans ?_
        rw [sendResult_eq]
        cases m.register <;> rfl
  · rw [conclude_of_unfinished hfin]

/-- The task at the head of the queue has its turn on both sides. -/
theorem Siblings.runTask {g : Outlook} {t : TaskId} {m' k' : Machine} {fuel fuel' : Nat} (hs : m.Siblings R k)
    (hm : ({ m with task := t } : Machine).Going g (some t)) (hf : m.process.fault = none)
    (hleft : ∀ n, (resume { m with task := t }).2.Runs n → n.Spacious ∧ n.Tactful)
    (hright : ∀ n, (resume { k with task := t }).2.Runs n → n.Spacious)
    (h : Machine.runTask fuel t m = some m') (h' : Machine.runTask fuel' t k = some k') (hn : m'.host.nursery = []) :
    ∃ R', m'.Siblings R' k' := by
  have ht : ({ m with task := t } : Machine).Twin R { k with task := t } :=
    ⟨hs.toAgrees, hs.process.run hm.unfinished, rfl⟩
  obtain ⟨m₁, hrun, rfl⟩ := Option.map_eq_some_iff.1 h
  obtain ⟨k₁, hrun', rfl⟩ := Option.map_eq_some_iff.1 h'
  have hstate : ({ k with task := t } : Machine).current.state = ({ m with task := t } : Machine).current.state :=
    Process.state_eq_of_bare hs.process.bare t
  have hrun : Machine.runFrom fuel (resume { m with task := t }).2 = some m₁ := (hm.run_eq fuel).symm.trans hrun
  have hrun' : Machine.runFrom fuel' (resume { k with task := t }).2 = some k₁ := by
    rw [← hrun', Machine.run, if_neg (hstate ▸ hm.unfinished)]
    rfl
  obtain ⟨R₁, _, ht₁, _⟩ := ht.resume hf
  obtain ⟨R₂, ht₂⟩ := ht₁.runFrom (kept_resume hm).1 hleft hright hrun hrun' ((nursery_conclude m₁).symm.trans hn)
  obtain ⟨R₃, ht₃⟩ := ht₂.conclude
  exact ⟨R₃, ht₃.siblings⟩

theorem phaseAfter_eq_of_bare {p q : Process} (hb : q.bare = p.bare) (progressed : Bool) :
    phaseAfter progressed q = phaseAfter progressed p :=
  (congrArg (phaseAfter progressed) hb :)

/-- Rounds in which nothing comes back from the pool and no process is started. -/
theorem Siblings.tick {g : Outlook} {m' k' : Machine} {fuel fuel' : Nat} (hs : m.Siblings R k) (hm : m.Inv g none [])
    (hc : m.process.completions = []) (hf : m.process.fault = none)
    (hleft : ∀ t queue n, m.process.queue.pop? = some (t, queue) →
      (resume { m with process := { m.process with queue }, task := t }).2.Runs n → n.Spacious ∧ n.Tactful)
    (hright : ∀ t queue n, k.process.queue.pop? = some (t, queue) →
      (resume { k with process := { k.process with queue }, task := t }).2.Runs n → n.Spacious)
    (h : Machine.tick fuel m = some m') (h' : Machine.tick fuel' k = some k') (hn : m'.host.nursery = [])
    (hf₁ : m'.process.fault = none) (hf₂ : k'.process.fault = none) : ∃ R', m'.Siblings R' k' := by
  have heq : ∀ (fuel : Nat) (n : Machine), n.process.completions = [] → Machine.tick fuel n = (runNext fuel n).map fun x =>
      { (Machine.tidy x.2).2 with process := { (Machine.tidy x.2).2.process with
        phase := phaseAfter x.1 (Machine.tidy x.2).2.process } } := by
    intro fuel n hn
    rw [tick_eq, settleAll_of_nil hn, hn]
    rfl
  have hbare := hs.process.bare
  have hcompletions : k.process.completions = m.process.completions := (congrArg Process.completions hbare :)
  have hqueue : k.process.queue = m.process.queue := (congrArg Process.queue hbare :)
  rw [heq fuel m hc] at h
  rw [heq fuel' k (hcompletions.trans hc)] at h'
  obtain ⟨⟨ran, m₁⟩, hrun, rfl⟩ := Option.map_eq_some_iff.1 h
  obtain ⟨⟨ran', k₁⟩, hrun', rfl⟩ := Option.map_eq_some_iff.1 h'
  have hn₁ : m₁.host.nursery = [] := (steady_tidy m₁).nursery.symm.trans hn
  have hnext : ran' = ran ∧ ∃ R', m₁.Siblings R' k₁ := by
    unfold runNext at hrun hrun'
    rw [hqueue] at hrun' hright
    cases hq : m.process.queue.pop? with
    | none =>
        rw [hq] at hrun hrun'
        cases hrun
        cases hrun'
        exact ⟨rfl, R, hs⟩
    | some next =>
        obtain ⟨t, queue⟩ := next
        rw [hq] at hrun hrun'
        obtain ⟨m₂, hrun, heq⟩ := Option.map_eq_some_iff.1 hrun
        obtain ⟨k₂, hrun', heq'⟩ := Option.map_eq_some_iff.1 hrun'
        cases heq
        cases heq'
        have hgo := (inv_settleAll hm).begin (by rw [settleAll_of_nil hc]; exact hq)
        rw [settleAll_of_nil hc] at hgo
        have hdequeued := hs.update (hs.process.books (fun p => { p with queue }) (fun _ => rfl) fun _ =>
          ⟨rfl, rfl, rfl, rfl, rfl⟩)
        exact ⟨rfl, hdequeued.runTask hgo hf (fun n => hleft t queue n hq) (fun n => hright t queue n hq) hrun hrun' hn₁⟩
  obtain ⟨hsame, R₁, hs₁⟩ := hnext
  cases hsame
  obtain ⟨R₂, hs₂⟩ := hs₁.tidy hf₁ hf₂
  rw [phaseAfter_eq_of_bare hs₂.process.bare]
  exact ⟨R₂, hs₂.update (hs₂.process.books (fun p => { p with phase := phaseAfter ran (Machine.tidy m₁).2.process })
    (fun _ => rfl) fun _ => ⟨rfl, rfl, rfl, rfl, rfl⟩)⟩

end Machine

end Spool
