import Spool.Proofs.Machine.Guarded
import Spool.Proofs.World.Laws
import Spool.Proofs.World.Modules

/-!
# Futures are stable

A future tells the outcome of its task, no matter who reads it, how often and when: nothing before the task is finished, and
from then on the result of the task and whether it has failed. The result is kept in the member `value` of the future from
the first time it is read. That member can be written like any other, and only who writes it can change what the future
tells.
-/

/-!
## What futures tell

A future is asked in three ways: whether its task is finished, for the result, and by a task that waits for it. All three
look at the outcome of the task, which is not there before the task is finished, and is the result of the task when the
future is read for the first time. From then on it is what the member `value` holds.
-/

namespace Spool

/-- What a read of the future finds. -/
def Process.outcome? (p : Process) (o : Object) (cell : FutureCell) : Option Machine.Outcome :=
  let task := p.taskAt cell.task
  if cell.memoized then some ⟨(o.member? "value").getD .none, task.state = .error⟩
  else if task.state.isFinished then some ⟨task.register, task.state = .error⟩
  else none

namespace Machine

variable {g : Outlook} {cur : Option TaskId} {m : Machine} {r : Handle} {o : Object} {cell : FutureCell} {v : Value}
  {α : Type}

/-- What becomes of a task that waits for a future. -/
def Outcome.reply : Option Outcome → Except Fault Reply
  | none => .ok .parked
  | some ⟨v, false⟩ => .ok (.value v)
  | some ⟨.object error, true⟩ => .error (.raised error)
  | some ⟨_, true⟩ => .error (.message "awaited task failed")

/-- Whoever reads the future finds this outcome. -/
structure Sees (m : Machine) (r : Handle) (x : Option Outcome) : Prop where
  isComplete : ∀ argument, (runNative (.object r) argument .futureIsComplete m).1 = .ok (.ofBool x.isSome)
  get : ∀ argument, (runNative (.object r) argument .futureGet m).1 =
    x.elim (.error (.message "future is not complete")) fun x => .ok x.value
  wait : (wait (.object r) m).1 = Outcome.reply x

theorem fetch_of_object? (ho : m.process.heap.object? r = some o) : fetch r m = (.ok o, m) := by
  change (m.process.heap.fetch r, m) = _
  rw [Heap.fetch, ho]

theorem wp_memoize (hm : m.Going g cur) (hr : m.process.heap.isLive r) (hv : m.process.heap.Valid v) (t : TaskId) :
    (memoize r t v).wp m (fun _ _ => True) fun _ _ => False := by
  refine wp_onHeap ?_
  rw [Act.wp_bind]
  refine Act.wp_mono (Heap.wp_setMember hm.sound r "value" v) (fun _ h hdone => ?_) fun _ _ he => he.2.2 ⟨hr, hv⟩
  obtain ⟨_, o, ho, hw⟩ := hdone
  have hg : m.process.heap.Gains Heap.Nowhere h := hw.gains fun x hx => .inr ⟨o, ho, hx⟩
  refine Act.wp_mono (Heap.wp_putPayload hg.sound r (.future ⟨t, true⟩)) (fun _ _ _ => trivial) fun _ _ he => he.2.2 ?_
  exact ⟨hg.isLive r hr, by simp [Payload.values]⟩

/-- Reading a future never fails. -/
theorem futureOutcome_succeeds (hm : m.Going g cur) (ho : m.process.heap.object? r = some o)
    (hp : o.payload = .future cell) :
    (futureOutcome r).wp m (fun x _ => x = m.process.outcome? o cell) fun _ _ => False := by
  have hcell : o.future? = some cell := by rw [Object.future?, hp]
  unfold futureOutcome
  rw [Act.wp_bind]
  refine Act.wp_of_eq_ok (fetch_of_object? ho) ?_
  simp only [hcell, Act.wp_bind, Act.wp_get]
  unfold Process.outcome?
  dsimp only
  split
  · exact rfl
  · rename_i hunread
    split
    · rw [Act.wp_bind]
      exact Act.wp_mono (wp_memoize hm (Heap.isLive_of_object? ho) (hm.valid_result ho hp hunread) cell.task)
        (fun _ _ _ => rfl) fun _ _ h => h
    · exact rfl

/-- All ways to read a future find the same. -/
theorem Going.sees (hm : m.Going g cur) (ho : m.process.heap.object? r = some o) (hp : o.payload = .future cell) :
    m.Sees r (m.process.outcome? o cell) := by
  have hcell : o.future? = some cell := by rw [Object.future?, hp]
  have houtcome := futureOutcome_succeeds hm ho hp
  generalize m.process.outcome? o cell = x at houtcome
  refine ⟨fun argument => Act.wp.fst ?_, fun argument => Act.wp.fst ?_, Act.wp.fst ?_⟩
  · change (futureOutcome r >>= fun x => pure (.ofBool x.isSome) : Act Machine Value).wp m _ _
    rw [Act.wp_bind]
    exact Act.wp_mono houtcome (fun x _ hx => by rw [Act.wp_pure, hx]) fun _ _ h => h.elim
  · change (futureGet (.object r)).wp m _ _
    rw [futureGet_object, Act.wp_bind]
    refine Act.wp_mono houtcome (fun _ _ hx => ?_) fun _ _ h => h.elim
    subst hx
    split <;> exact rfl
  · unfold Machine.wait
    rw [Act.wp_bind]
    refine Act.wp_of_eq_ok (fetch_of_object? ho) ?_
    simp only [hcell, Act.wp_bind]
    refine Act.wp_mono houtcome (fun found _ hx => ?_) fun _ _ h => h.elim
    subst hx
    obtain _ | ⟨v, _ | _⟩ := found
    · exact rfl
    · exact rfl
    · cases v <;> exact rfl

end Machine

end Spool

/-! ## What is kept of a result -/

namespace Spool

namespace Process

variable {p p' : Process}

/-- The futures that have been read refer to tasks that are finished, and those that are guarded hold their results. -/
def Memoizes (U : Handle → Prop) (p : Process) : Prop := ∀ r o t, p.heap.object? r = some o → o.payload = .future ⟨t, true⟩ →
  (p.taskAt t).state.isFinished ∧ (U r → o.member? "value" = some (p.taskAt t).register)

theorem Memoizes.heeds {U : Handle → Prop} (hk : p.Memoizes U) (h : p.Heeds p') (hheap : p'.heap = p.heap) : p'.Memoizes U := by
  intro r o t ho hp
  rw [hheap] at ho
  obtain ⟨hfin, hvalue⟩ := hk r o t ho hp
  obtain ⟨hstate, hregister⟩ := h.outcome t hfin
  exact ⟨hstate ▸ hfin, fun hr => hregister ▸ hvalue hr⟩

theorem law_memoizes {G : ProcessId → Handle → Prop} : Law G fun p => p.heap.Fitting ∧ p.Memoizes (G p.id) where
  heap p := by
    have hlaw : Heap.Law (G p.id) (Heap.Every fun r o => ∀ t, o.payload = .future ⟨t, true⟩ →
        (p.taskAt t).state.isFinished ∧ (G p.id r → o.member? "value" = some (p.taskAt t).register)) := by
      refine Heap.law_every (fun r c x _ hx t ht => ?_) (fun r o name v hguard hk t ht => ?_)
        (fun r o x htakes hk t ht => ?_) fun r o key _ _ t ht => ?_
      · exact absurd ⟨t, ht⟩ (Payload.not_memoized_of_isOrdinary hx)
      · obtain ⟨hfin, hvalue⟩ := hk t ht
        refine ⟨hfin, fun hr => ?_⟩
        have hne : name ≠ "value" := fun hn => hguard hn hr ⟨t, ht⟩
        exact ((Bindings.get?_insert ..).trans (if_neg hne)).trans (hvalue hr)
      · cases htakes with
        | same => exact hk t ht
        | items _ => cases ht
        | slots _ => cases ht
        | fits _ hx => exact absurd ⟨t, ht⟩ (Payload.not_memoized_of_isOrdinary hx)
      · exact absurd ⟨t, ht⟩ key.not_memoized
    exact Heap.law_fitting.and (hlaw.of_iff fun h => ⟨fun hk r o t ho => hk r o ho t, fun hk r o ho t => hk r o t ho⟩)
  heeds h hheap hk := ⟨hheap ▸ hk.1, h.id ▸ hk.2.heeds h hheap⟩
  fitting hk := hk.1
  memoize {p r o cell} ho hcell hfin hvalue hk := by
    refine ⟨(law_fitting (G := G)).memoize ho hcell hfin hvalue hk.1, fun x o' t ho' hp => ?_⟩
    rcases Heap.object?_of_modifyObject ho' with ⟨hold, _⟩ | ⟨rfl, o₀, ho₀, rfl⟩
    · exact hk.2 x o' t hold hp
    · cases ho.symm.trans ho₀
      cases hp
      exact ⟨hfin, fun _ => hvalue⟩
  collect registry _ _ hk := ⟨hk.1.collect registry _, fun r o t ho => hk.2 r o t (Heap.object?_of_collect ho)⟩
  seeded id settings := by
    refine ⟨(law_fitting (G := G)).seeded id settings, fun r o t ho hp => ?_⟩
    exact absurd ⟨t, hp⟩ (Machine.unread_seeded id settings r o ho)

end Process

namespace World

variable {G : ProcessId → Handle → Prop} {w w' : World} {id : ProcessId} {t y : TaskId} {m m' n n' m₀ : Machine}
  {top : ContextId} {i : Instruction} {fuel : Nat}

/-! ## One moment and the next -/

/-- A moment of a turn up to which no instruction of the turn has written the member `value` of a guarded future that has been
read. -/
inductive AmidSpared (G : ProcessId → Handle → Prop) (w : World) (id : ProcessId) (t : TaskId) (m : Machine) : Prop where
  | mk {m₀ : Machine} : w.Opens id t m₀ → Machine.RunsSparing G id (Machine.resume m₀).2 m → AmidSpared G w id t m

theorem AmidSpared.amid (h : w.AmidSpared G id t m) : w.Amid id t m := by
  obtain ⟨hopen, hruns⟩ := h
  exact .mk hopen hruns.runs

/-- A moment of the process that comes after another one, in the same turn or in a later one. -/
inductive Ensues (w : World) (id : ProcessId) (m : Machine) : World → Machine → Prop where
  | turn {m' : Machine} : m.Runs m' → Ensues w id m w m'
  | round {w₁ w₂ : World} {fuel : Nat} {t : TaskId} {m' : Machine} : w.step fuel (.tick id) = some w₁ → w₁.Unfolds w₂ →
      w₂.Amid id t m' → Ensues w id m w₂ m'

theorem Amid.process_id (ham : w.Amid id t m) (hw : w.Arises) : m.process.id = id := by
  obtain ⟨p, hp, hgo⟩ := ham.going hw
  exact hgo.inv.id.trans (hw.inv.get? hp).2.1

/-- What a task has come to at some moment of a turn, it has come to when the round is over. -/
theorem Amid.over (ham : w.Amid id t m) (hw : w.Arises) (h : w.step fuel (.tick id) = some w') :
    ∃ p, w'.processes.get? id = some p ∧ m.process.Heeds p := by
  obtain ⟨_, hlog⟩ := hw.history
  obtain ⟨hinv, ho⟩ := hlog.orderly
  have hid := ham.process_id hw
  obtain ⟨hopen, hruns⟩ := ham
  obtain ⟨hbegin, hback⟩ := hopen.abides hinv ho hruns
  cases hopen with | @mk p queue hp hcan hq => ?_
  rcases tick_cases h with ⟨_, hnone⟩ | ⟨q, m', hq, _, htick, rfl⟩
  · rw [hnone p hp] at hcan
    cases hcan
  cases hp.symm.trans hq
  have hget := get?_settle hp m' hp
  rw [if_pos rfl] at hget
  have hawake := hinv.awaken (hinv.get? hp).1 ⟨0⟩
  obtain ⟨hsettled, _, _⟩ := Machine.tidy_settleAll hawake (ho.awaken hinv hp ⟨0⟩)
  obtain ⟨_, hend, _⟩ := (Machine.rounds_tick hawake htick).tidy hsettled
  refine ⟨_, hget, (((hinv.step h).get? hget).2.1).trans hid.symm, fun y hfin => ?_⟩
  -- between the turns and the end of the round nothing is finished but the task that has its turn
  have hfirst := hback y hfin
  obtain ⟨hstate, hregister⟩ := Process.outcome_of_abides hbegin hfirst
  obtain ⟨hstate', hregister'⟩ := Process.outcome_of_abides (p := (w.settled p).process) hend.upholds.toAbides hfirst
  exact ⟨hstate'.trans hstate.symm, hregister'.trans hregister.symm⟩

/-- What a task has come to stays, from one moment to every later one. -/
theorem Ensues.heeds (h : w.Ensues id m w' m') (hw : w.Arises) (ham : w.Amid id t m) : m.process.Heeds m'.process := by
  cases h with
  | turn hruns =>
      obtain ⟨_, hlog⟩ := hw.history
      obtain ⟨_, _, _, htidy, _⟩ := ham.tidy hlog.orderly.1 hlog.orderly.2
      obtain ⟨_, _, hgo⟩ := ham.going hw
      obtain ⟨_, hproceeds⟩ := Machine.tidy_stirs (hruns.stirs hgo).1 htidy
      have hlater : w.Amid id t m' := by
        obtain ⟨hopen, hbefore⟩ := ham
        exact .mk hopen (hbefore.trans hruns)
      exact Process.heeds_of_abides ((hlater.process_id hw).trans (ham.process_id hw).symm) hproceeds.upholds.toAbides
  | @round w₁ _ fuel t' _ hstep hunfolds hlater =>
      obtain ⟨p, hp, hheeds⟩ := ham.over hw hstep
      obtain ⟨hw', habides⟩ := hunfolds.abides (hw.step hstep)
      obtain ⟨q, hq, hroster⟩ := habides id p hp
      obtain ⟨_, hlog⟩ := hw'.history
      obtain ⟨q', _, hq', _, hmoment⟩ := hlater.tidy hlog.orderly.1 hlog.orderly.2
      cases hq.symm.trans hq'
      refine hheeds.trans (Process.heeds_of_abides ?_ (hroster.trans hmoment))
      exact (hlater.process_id hw').trans ((hw.step hstep).inv.get? hp).2.1.symm

/-! ## Reads -/

theorem AmidSpared.busy {K : Process → Prop} (hL : Process.Law G K) (hw : w.Spared G) (ham : w.AmidSpared G id t m) :
    m.Busy K id := by
  obtain ⟨_, hlog⟩ := hw.arises.history
  obtain ⟨hopen, hruns⟩ := ham
  exact (hw.lawful hL).amid hL hlog.orderly.1 hlog.orderly.2 hopen hruns

theorem heeds_of_swept (h : m.Swept n) : m.process.Heeds n.process ∧ n.process.Heeds m.process := by
  rcases h with ⟨_, rfl⟩ | ⟨_, h⟩
  · exact ⟨.refl _, .refl _⟩
  · rw [Machine.eq_of_safepoint h]
    exact ⟨Process.heeds_of_eq rfl rfl, Process.heeds_of_eq rfl rfl⟩

/-- At every moment, whoever reads a future finds nothing as long as its task is not finished, and from then on whether the
task has failed, and its result. Only if the future has been read before and is not guarded may the result be another one.
What a finished task has come to is the same at every later moment. -/
theorem futures_stable (hw : w.Spared G) (ham : w.AmidSpared G id t m) (hdue : m.Due n top i) :
    (∀ r o cell, n.process.heap.object? r = some o → o.payload = .future cell →
      (¬ (n.process.taskAt cell.task).state.isFinished → n.Sees r none) ∧
      ((n.process.taskAt cell.task).state.isFinished → ∃ v,
        n.Sees r (some ⟨v, (n.process.taskAt cell.task).state = .error⟩) ∧
          ((cell.memoized → G id r) → v = (n.process.taskAt cell.task).register))) ∧
    ∀ w' m', w.Ensues id m w' m' → ∀ n' top' i', m'.Due n' top' i' → n.process.Heeds n'.process := by
  obtain ⟨p, hp, hgo⟩ := ham.amid.going hw.arises
  obtain ⟨hbusy, hgo'⟩ := (ham.busy Process.law_memoizes hw).swept Process.law_memoizes hgo hdue.swept
  refine ⟨fun r o cell ho hp => ?_, fun w' m' hlater n' top' i' hdue' => ?_⟩
  · have hsees := hgo'.sees ho hp
    obtain ⟨y, memoized⟩ := cell
    cases memoized with
    | false =>
        refine ⟨fun hun => ?_, fun hfin => ⟨_, ?_, fun _ => rfl⟩⟩
        · simpa [Process.outcome?, hun] using hsees
        · simpa [Process.outcome?, hfin] using hsees
    | true =>
        obtain ⟨hfin, hvalue⟩ := hbusy.law.2 r o y ho hp
        rw [hbusy.id] at hvalue
        refine ⟨fun hun => absurd hfin hun, fun _ => ⟨(o.member? "value").getD .none, hsees, fun hguard => ?_⟩⟩
        rw [hvalue (hguard rfl), Option.getD_some]
  · exact ((heeds_of_swept hdue.swept).2.trans (hlater.heeds hw.arises ham.amid)).trans (heeds_of_swept hdue'.swept).1

/-! ## Moments that spare what has been read -/

/-- The operand of the instruction that is next is not that name. -/
def Avoids (name : String) (m : Machine) : Bool :=
  m.top?.all fun top =>
    (m.host.registry.moduleAt (m.process.contextAt top).module).tape.instructions[(m.process.contextAt top).cursor]?.all
      fun i => i.operand.name? ≠ some name

theorem spares_of_avoids (h : Avoids "value" m) : m.Spares G id := by
  intro n top i hdue r _ hstores
  have hne : i.operand.name? ≠ some "value" := by
    simpa [Avoids, hdue.innermost, hdue.fetched] using h
  cases hstores with
  | field _ hname _ => exact absurd hname hne
  | bind _ hname _ => exact absurd hname hne
  | assign _ hname _ => exact absurd hname hne
  | increase _ hname _ => exact absurd hname hne
  | load _ hname _ => exact absurd hname hne

/-- The machine is so, and stays so until it stops, which it does in so many steps. -/
def Throughout (P : Machine → Bool) : Nat → Machine → Bool
  | 0, _ => false
  | k + 1, m => P m && match Machine.advance m with
    | (true, m) => Throughout P k m
    | (false, _) => true

theorem of_throughout {P : Machine → Bool} {k : Nat} (h : Throughout P k m) (hruns : m.Runs m') : P m' := by
  induction hruns using Relation.ReflTransGen.head_induction_on generalizing k with
  | refl =>
      cases k with
      | zero => cases h
      | succ k => exact (Bool.and_eq_true_iff.1 h).1
  | head hstep _ ih =>
      cases k with
      | zero => cases h
      | succ k =>
          have hrest := (Bool.and_eq_true_iff.1 h).2
          rw [hstep] at hrest
          exact ih hrest

theorem opening_of_opens (h : w.Opens id t m₀) : w.opening? id = some m₀ := by
  obtain ⟨hp, hcan, hq⟩ := h
  simp [opening?, hp, hcan, hq]

theorem spares_of_throughout {k : Nat} (h : (w.opening? id).all fun m₀ =>
    Throughout (Avoids "value") k (Machine.resume m₀).2) : w.Spares G id := by
  rintro t m ⟨hopen, hruns⟩
  rw [opening_of_opens hopen] at h
  exact spares_of_avoids (of_throughout h hruns)

/-! ## A future that is read twice -/

/-- A module that reads a future, writes one of its members and reads it again. -/
def asking (member : String) : CompiledModule :=
  { name := "asking"
    tape := { instructions := #[⟨.callBare, .name "answer"⟩, ⟨.bind, .name "future"⟩, ⟨.wait, .none⟩,
      ⟨.load, .name "future"⟩, ⟨.wait, .none⟩, ⟨.push, .name "future"⟩, ⟨.load, .scalar (.int 9)⟩,
      ⟨.setField, .name member⟩, ⟨.load, .name "future"⟩, ⟨.wait, .none⟩, ⟨.load, .name "future"⟩,
      ⟨.ret, .scalar (.int 0)⟩, ⟨.ret, .scalar (.int 5)⟩] }
    functions := #[{ name := "answer", start := 12, flags := { async := true } }] }

/-- One more round of the process. -/
def onward (w : World) : World := (w.step 14 (.tick ⟨1⟩)).getD w

theorem Spared.onward (hw : w.Spared G) (hspare : w.Spares G ⟨1⟩) : (onward w).Spared G := by
  unfold World.onward
  cases hs : w.step 14 (.tick ⟨1⟩) with
  | none => exact hw
  | some w' => exact hw.step (e := .tick ⟨1⟩) hspare hs

def unasked (member : String) : World := (startMain "asking" (register (asking member) {}).2).2

/-- The function has answered, and the entry task is about to have its turn. -/
def answered (member : String) : World := onward (onward (unasked member))

/-- The entry task after so many steps of that turn. -/
def reader? (member : String) (steps : Nat) : Option Machine :=
  ((answered member).opening? ⟨1⟩).bind fun m => Machine.ahead steps (Machine.resume m).2

theorem spared_unasked (member : String) : (unasked member).Spared G :=
  .handle (.handle (.create (r := {}) rfl) (.register (asking member))) (.startMain "asking")

theorem arises_answered (member : String) : (answered member).Arises := by
  have hnone : ∀ w : World, w.Spares (fun _ _ => False) ⟨1⟩ := fun _ _ _ _ _ _ _ _ _ h => h.elim
  exact (((spared_unasked member).onward (hnone _)).onward (hnone _)).arises

/-- The task of a future that has been read, and the number that it has stored. -/
def stored? (m : Machine) (r : Handle) : Option (TaskId × Option Int64) := do
  let o ← m.process.heap.object? r
  match o.payload with
  | .future ⟨t, true⟩ => return (t, ((o.member? "value").getD .none).int?)
  | _ => none

theorem of_stored? {r : Handle} {k : Int64} (h : stored? m r = some (y, some k)) : ∃ o, m.process.heap.object? r = some o ∧
    o.payload = .future ⟨y, true⟩ ∧ ((o.member? "value").getD .none).int? = some k := by
  unfold stored? at h
  obtain ⟨o, ho, h⟩ := Option.bind_eq_some_iff.1 h
  split at h
  · rename_i hp
    obtain ⟨rfl, hv⟩ := Prod.mk.inj (Option.some.inj h)
    exact ⟨o, ho, hp, hv⟩
  · cases h

/-- Another member of the future has been written. -/
def noted : Machine := (reader? "note" 5).get (by decide +kernel)

/-- The future has been read again. -/
def reread : Machine := (Machine.ahead 2 noted).get (by decide +kernel)

/-- The result that has been stored has been written over. -/
def tampered : Machine := (reader? "value" 5).get (by decide +kernel)

theorem exists_opens_of_reader {member : String} {steps : Nat} (h : reader? member steps = some m) : ∃ m₀,
    (answered member).Opens ⟨1⟩ m₀.task m₀ ∧ (Machine.resume m₀).2.Runs m := by
  obtain ⟨m₀, hopen, hahead⟩ := Option.bind_eq_some_iff.1 h
  exact ⟨m₀, opens_opening hopen, Machine.runs_of_ahead hahead⟩

/-- The future still tells what the function has answered, and it does so to the end of the turn. -/
theorem futures_stable_noted : ∃ r v, noted.Sees r (some ⟨v, false⟩) ∧ v.int? = some 5 ∧
    (reread.process.taskAt ⟨1⟩).register = v := by
  have hspared : (answered "note").Spared fun _ _ => True :=
    ((spared_unasked "note").onward (spares_of_throughout (k := 14) (by decide +kernel))).onward
      (spares_of_throughout (k := 14) (by decide +kernel))
  have hturn : (answered "note").Spares (fun _ _ => True) ⟨1⟩ := spares_of_throughout (k := 14) (by decide +kernel)
  obtain ⟨m₀, hopen, hruns⟩ := exists_opens_of_reader (m := noted) (Option.some_get _).symm
  have ham : (answered "note").AmidSpared (fun _ _ => True) ⟨1⟩ m₀.task noted := .mk hopen (hturn.runs hopen hruns)
  have hfetches : Fetches noted ⟨0⟩ 8 .load "future" := by decide +kernel
  have hfetches' : Fetches reread ⟨0⟩ 10 .load "future" := by decide +kernel
  obtain ⟨hdue, _⟩ := due_of_fetches hfetches
  obtain ⟨hdue', _⟩ := due_of_fetches hfetches'
  have hstate : (noted.process.taskAt ⟨1⟩).state = .complete := by decide +kernel
  have hvalue : (noted.process.taskAt ⟨1⟩).register.int? = some 5 := by decide +kernel
  obtain ⟨o, ho, hp, _⟩ := of_stored? (m := noted) (r := ⟨3, 0⟩) (y := ⟨1⟩) (k := 5) (by decide +kernel)
  obtain ⟨htells, hstays⟩ := futures_stable hspared ham hdue
  have hfin : (noted.process.taskAt ⟨1⟩).state.isFinished := by rw [hstate]; rfl
  obtain ⟨v, hsees, hv⟩ := (htells ⟨3, 0⟩ o _ ho hp).2 hfin
  obtain rfl := hv fun _ => trivial
  rw [hstate] at hsees
  refine ⟨⟨3, 0⟩, _, hsees, hvalue, ?_⟩
  have hheeds := hstays _ reread (.turn (Machine.runs_of_ahead (Option.some_get _).symm)) _ _ _ hdue'
  exact (hheeds.outcome ⟨1⟩ hfin).2

/-- But once an instruction has written the member `value`, the future tells whatever that was. -/
theorem tampered_future : (answered "value").Arises ∧ ∃ r o, tampered.process.heap.object? r = some o ∧
    o.payload = .future ⟨⟨1⟩, true⟩ ∧ (tampered.process.taskAt ⟨1⟩).state = .complete ∧
      (tampered.process.taskAt ⟨1⟩).register.int? = some 5 ∧ (answered "value").Amid ⟨1⟩ tampered.task tampered ∧
        ∃ v, tampered.Sees r (some ⟨v, false⟩) ∧ v.int? = some 9 := by
  have hw := arises_answered "value"
  obtain ⟨m₀, hopen, hruns⟩ := exists_opens_of_reader (m := tampered) (Option.some_get _).symm
  have ham : (answered "value").Amid ⟨1⟩ m₀.task tampered := .mk hopen hruns
  obtain ⟨_, _, hgo⟩ := ham.going hw
  have hstate : (tampered.process.taskAt ⟨1⟩).state = .complete := by decide +kernel
  obtain ⟨o, ho, hp, hvalue⟩ := of_stored? (m := tampered) (r := ⟨3, 0⟩) (y := ⟨1⟩) (k := 9) (by decide +kernel)
  have hsees := hgo.sees ho hp
  have houtcome : tampered.process.outcome? o ⟨⟨1⟩, true⟩ = some ⟨(o.member? "value").getD .none, false⟩ := by
    simp [Process.outcome?, hstate]
  exact ⟨hw, ⟨3, 0⟩, o, ho, hp, hstate, by decide +kernel, ham.task_eq hw ▸ ham, _, houtcome ▸ hsees, hvalue⟩

end World

end Spool
