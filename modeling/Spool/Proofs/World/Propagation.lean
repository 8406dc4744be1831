import Spool.Proofs.World.Moments
import Spool.Proofs.World.Unwinding

/-!
# Errors find their handlers

An instruction that fails gives its task an error. The error goes outward through the contexts of the task, and then,
round by round, through the tasks that have led to it, to the nearest handler. If there is none, the last of these tasks
is the entry task: it fails, and the error is reported once.
-/

namespace Spool

namespace Machine

variable {m n : Machine} {g : Outlook} {t : TaskId} {rest : List RemoteLink}

/-- Only the heap has changed, or a fault is in store. -/
theorem tidy_frame (m : Machine) : ∃ heap fault, (tidy m).2 = { m with process := { m.process with heap, fault } } := by
  rw [tidy_eq]
  split
  · split
    · exact ⟨_, _, rfl⟩
    · exact ⟨_, _, rfl⟩
  · exact ⟨_, _, rfl⟩

/-- The end of a turn takes back nothing that has been pledged before. -/
theorem alone_of_advance (hgo : m.Going g (some t)) (htidy : m.Tidy rest (some m.task)) (hstop : advance m = (false, n))
    (ha : (conclude n).2.view.Alone) :
    m.view.Alone ∧ (m.host.registry.HasAsync → (conclude n).2.host.registry.HasAsync) := by
  have hun := hgo.unfinished
  obtain ⟨rfl, _⟩ := hgo.current
  have hstops := (strides_advance hgo).2
  rw [hstop] at hstops
  rcases hstops rfl with hparks | ⟨m₁, hstirs, hends⟩
  · rw [conclude_of_unfinished (hparks.unfinished hun)] at ha ⊢
    exact ⟨hparks.view.alone htidy.view.staffed (unfinished_view.2 hun) ha, hparks.async⟩
  · obtain ⟨htidy₁, _⟩ := tidy_stirs (.single hstirs) htidy
    have hun₁ := unfinished_stirs (.single hstirs) hun
    have htask : n.task = m.task := hends.task.trans (frame_stirs (.single hstirs)).1
    obtain ⟨state, v, hreach, hbecomes⟩ := hends.conclude (hgo.ended_advance hstop (htask ▸ hends.isFinished htidy₁.task_lt))
    rw [hbecomes.view] at ha
    have ha₁ : m₁.view.Alone :=
      ha.of_perm rfl (View.perm_pledges (View.perm_conclude htidy₁.task_lt (unfinished_view.2 hun₁) hreach _))
    obtain ⟨_, hview, _⟩ := hstirs.view
    exact ⟨(hview.plain htidy.view.staffed ha₁).1, fun hasync => hbecomes.async (hstirs.async hasync)⟩

end Machine

namespace World

variable {w w' w₁ w₂ : World} {id : ProcessId} {t u x y : TaskId} {m m₀ m₁ m' n n' : Machine} {p p₀ p' : Process} {e : Handle}
  {passed todo below : List TaskId} {fuel k : Nat} {top c : ContextId} {outer : List ContextId} {position : Nat}
  {i : Instruction} {fault : Fault}

/-! ## The last turn of a task -/

/-- The task that runs in `m` has failed with `e`, and the process has come to `p` in the world. -/
structure Fallen (t : TaskId) (e : Handle) (m : Machine) (w : World) (p : Process) : Prop where
  failed : p.Failed e t
  others : ∀ y, y ≠ t → m.process.Failed e y → p.Failed e y
  charted : ∀ y, y ≠ t → y.index < m.process.tasks.size → Process.Charted y m.process p
  /-- The task that has led to it has the error now. -/
  alerted : ∀ u, m.process.ParentOf t u → ∃ top, Process.Alerted u top e p
  /-- There is a report if there is no such task. -/
  err : w.host.err = m.host.err ++ if (m.process.taskAt t).parent.isNone then m.renderError (.object e) else ""
  uncaught : p.uncaught = m.process.uncaught + if (m.process.taskAt t).parent.isNone then 1 else 0
  active : p.phase = .active

/-- Nobody gets to see a failure but those who wait for the task. -/
theorem isUnseenFailure_failed (hs : m.process.roster.Stacked (some t)) (hp : m.process.roster.Plain (some t))
    (hr : m.Rooted) (hasync : ¬ m.host.registry.HasAsync) (hun : ¬ (m.process.taskAt t).state.isFinished)
    (hcs : (m.process.taskAt t).contexts ≠ []) :
    Process.isUnseenFailure ((m.process.taskAt t).failed e) = (m.process.taskAt t).parent.isNone ∧
      (m.process.taskAt t).dependents.map Dependent.task = (m.process.taskAt t).parent.toList := by
  obtain ⟨s, hs'⟩ := hp.at?_inHand
  have hrow := Process.standingAt_roster m.process t
  rw [Roster.standingAt_of_at? hs'] at hrow
  subst hrow
  have honly : (m.process.taskAt t).dependents.map Dependent.task = (m.process.taskAt t).parent.toList :=
    hs.only t _ hs' hun
  have hremote : (m.process.taskAt t).remote = none := (hp.own t _ hs').unlinked
  have hobserved : (m.process.taskAt t).observed = false := by
    by_contra hob
    exact hr.unexposed hasync t ⟨by simpa using hob, hcs⟩
  refine ⟨?_, honly⟩
  have hempty : (m.process.taskAt t).dependents.isEmpty = (m.process.taskAt t).parent.isNone := by
    cases hparent : (m.process.taskAt t).parent <;> cases hdeps : (m.process.taskAt t).dependents <;>
      simp_all
  simp [Process.isUnseenFailure, Task.failed, hempty, hremote, hobserved]

/-- The machine when a round has come to its end. -/
def atRest (n : Machine) : Machine :=
  { (Machine.tidy (Machine.conclude n).2).2 with
    process := { (Machine.tidy (Machine.conclude n).2).2.process with phase := .active } }

theorem Amid.settles (ham : w.Amid id t m) (hw : w.Arises) (hstop : Machine.advance m = (false, n))
    (hstep : w.step fuel (.tick id) = some w') : w' = w.settle id (atRest n) := by
  obtain ⟨hopen, hruns⟩ := ham
  exact hopen.settles hw hruns hstop hstep

/-- A task that stops in a process by itself has been all alone in its turn. -/
theorem Amid.alone (h : Since (Sequential id) id w) (ham : w.Amid id t m) (hstop : Machine.advance m = (false, n))
    (hstep : w.step fuel (.tick id) = some w') (hq : w'.Sequential id) : m.view.Alone ∧ ¬ m.host.registry.HasAsync := by
  have hw := h.arises
  obtain ⟨p, rest, hp, htidy, _⟩ := ham.tidy h.orderly.1 h.orderly.2
  obtain ⟨_, _, hgo⟩ := ham.going hw
  have hrest : (Machine.conclude n).2.Steady (atRest n) :=
    (Machine.steady_tidy (Machine.conclude n).2).process rfl rfl rfl
  obtain rfl := ham.settles hw hstop hstep
  have hinv := (hw.step hstep).inv
  have hget := get?_settle hp (atRest n) hp
  rw [if_pos rfl] at hget
  have ha := hq.alone.view hinv hp (hinv.get? hget).2.1
  rw [hrest.view] at ha
  obtain ⟨halone, hasync⟩ := Machine.alone_of_advance hgo htidy hstop ha
  exact ⟨halone, fun h => hq.direct (hrest.async (hasync h))⟩

theorem Amid.fallen (h : Since (Sequential id) id w) (ham : w.Amid id t m) (hm : m.Struck e) (hun : m.process.Unarmed t)
    (hstop : Machine.advance m = (false, n)) (hstep : w.step fuel (.tick id) = some w') (hq : w'.Sequential id) :
    ∃ p, w'.processes.get? id = some p ∧ Fallen t e m w' p := by
  have hw := h.arises
  obtain rfl := ham.task_eq hw
  obtain ⟨p, hp, hgo⟩ := ham.going hw
  obtain ⟨ha, hasync⟩ := ham.alone h hstop hstep hq
  obtain ⟨hplain, hstacked⟩ := ham.stacked h ha hasync
  obtain ⟨hunseen, honly⟩ := isUnseenFailure_failed (e := e) hstacked hplain (ham.rooted h) hasync hgo.unfinished
    hm.contexts_ne_nil
  have hremote : m.current.remote = none :=
    (hplain.own m.task _ (Process.at?_taskAt hgo.current.2.index_lt)).unlinked
  obtain ⟨q, K, hends, hrow, hannounced⟩ := Machine.ends_of_unarmed (ham.sturdy hw) hgo hm hun hremote hstop
  rw [hunseen] at hannounced
  -- the process is as the end of the task has left it, but for its heap
  obtain ⟨heap, fault, htidy⟩ := (Machine.conclude n).2.tidy_frame
  have hrest : atRest n = { (Machine.conclude n).2 with
      process := { (Machine.conclude n).2.process with heap, fault, phase := .active } } := by
    rw [atRest, htidy]
  have htasks : (atRest n).process.tasks = (Machine.conclude n).2.process.tasks := by rw [hrest]
  have hcontexts : (atRest n).process.contexts = (Machine.conclude n).2.process.contexts := by rw [hrest]
  have hqueue : (atRest n).process.queue = (Machine.conclude n).2.process.queue := by rw [hrest]
  have hat : (atRest n).process.taskAt = (Machine.conclude n).2.process.taskAt := by
    funext y
    simp only [Process.taskAt, htasks]
  obtain rfl := ham.settles hw hstop hstep
  have hget := get?_settle hp (atRest n) hp
  rw [if_pos rfl] at hget
  have hstate : (q.taskAt m.task).state = .error := congrArg Task.state hrow
  have hregister : (q.taskAt m.task).register = .object e := congrArg Task.register hrow
  refine ⟨_, hget, ?_, fun y hne hy => ?_, fun y hne hlt => ?_, fun u hu => ?_, ?_, ?_, rfl⟩
  · exact (hends.failed_self hstate hregister).congr (congrFun hat _)
  · exact (hends.failed hne hy).congr (congrFun hat _)
  · exact (hends.framed hne hlt).charted.trans (Process.charted_of_eq htasks hcontexts)
  · have hmem : u ∈ (q.taskAt m.task).dependents.map Dependent.task := by
      rw [hrow]
      change u ∈ (m.process.taskAt m.task).dependents.map Dependent.task
      rw [honly, show (m.process.taskAt m.task).parent = some u from hu]
      exact Option.mem_toList.2 rfl
    obtain ⟨d, hd, rfl⟩ := List.mem_map.1 hmem
    obtain ⟨top, halert⟩ := hends.alerted hstate hregister hd
    exact ⟨top, halert.congr htasks hcontexts (hqueue ▸ halert.queued)⟩
  · rw [← hannounced.err]
    change (atRest n).host.err = _
    rw [hrest]
  · rw [← hannounced.uncaught, hrest]

/-! ## From one turn to the next -/

/-- There are no `async` functions, the process has handed nothing to the background pool and has started no other process,
and its heap has not been over its limit at the end of the last round. -/
structure Modest (id : ProcessId) (w : World) : Prop extends Sequential id w where
  roomy : w.Holds id fun p => p.fault = none

/-- What happens up to the world `w'`, without a round of the process. -/
inductive Stays (id : ProcessId) (w : World) : World → Prop where
  | refl : Stays id w w
  | handle {w' w'' : World} : Stays id w w' → Handled w' w'' → w''.Modest id → Stays id w w''
  | step {w' w'' : World} {fuel : Nat} {e : Event} : Stays id w w' → w'.step fuel e = some w'' → e ≠ .tick id →
      w''.Modest id → Stays id w w''

/-- In the world `w'` the machine `m'` is about to begin the `k`-th turn after the one that `m` is in. -/
inductive Later (id : ProcessId) (w : World) (m : Machine) : Nat → World → Machine → Prop where
  | now : Later id w m 0 w m
  | turn {k : Nat} {w₁ w₂ w₃ : World} {m₁ m₂ : Machine} {fuel : Nat} {x : TaskId} : Later id w m k w₁ m₁ →
      w₁.step fuel (.tick id) = some w₂ → w₂.Modest id → Stays id w₂ w₃ → w₃.Opens id x m₂ →
      Later id w m (k + 1) w₃ (Machine.resume m₂).2

theorem Stays.holds {P : Process → Prop} (h : Stays id w w') (hs : Since (Sequential id) id w) (hp : w.Holds id P)
    (hP : ∀ p heap, P p → P { p with heap }) (hm : w.Modest id) :
    Since (Sequential id) id w' ∧ w'.Modest id ∧ w'.Holds id P := by
  induction h with
  | refl => exact ⟨hs, hm, hp⟩
  | handle _ hh hm' ih =>
      obtain ⟨hs, _, p, hp, hk⟩ := ih
      obtain ⟨hw, ho⟩ := hs.orderly
      obtain ⟨p', hp', hu⟩ := (hh.follows hw ho).unmoves.stays id p hp
      obtain ⟨heap, rfl⟩ := hu.collected
      exact ⟨hs.handle hh hm'.toSequential, hm', _, hp', hP p heap hk⟩
  | step _ hstep he hm' ih =>
      obtain ⟨hs, _, p, hp, hk⟩ := ih
      obtain ⟨p', hp', hstacks⟩ := hs.stacks
      cases hp.symm.trans hp'
      have hget := hs.holds.alone.get?_step hs.orderly.1 hp (Process.unlinked_of_plain hstacks.plain) hstep he
      exact ⟨hs.step hstep hm'.toSequential, hm', p, hget, hk⟩

/-! ## The way up -/

/-- An error has gone some of its way: the tasks it has left behind have failed, and those ahead are as they were. -/
structure Climbs (p₀ : Process) (e : Handle) (passed ahead : List TaskId) (p : Process) : Prop where
  charted : ∀ y ∈ ahead, Process.Charted y p₀ p
  failed : ∀ y ∈ passed, p.Failed e y
  uncaught : p.uncaught = p₀.uncaught

/-- The error is with a task that is about to have its turn. -/
structure Summons (p₀ : Process) (e : Handle) (passed ahead : List TaskId) (u : TaskId) (p : Process) : Prop
    extends Climbs p₀ e passed ahead p where
  alerted : ∃ top, Process.Alerted u top e p
  roomy : p.fault = none

theorem Summons.heap {ahead : List TaskId} (h : Summons p₀ e passed ahead u p) (heap : Heap) :
    Summons p₀ e passed ahead u { p with heap } := by
  obtain ⟨top, halert⟩ := h.alerted
  refine ⟨⟨fun y hy => ?_, fun y hy => (h.failed y hy).congr rfl, h.uncaught⟩, ⟨top, halert.congr rfl rfl halert.queued⟩,
    h.roomy⟩
  exact (h.charted y hy).trans (Process.charted_of_eq rfl rfl)

/-- The next task has its turn, and the error is what it has to handle. -/
theorem Summons.opens {ahead : List TaskId} (hk : w.Holds id (Summons p₀ e passed ahead u)) (h : Since (Sequential id) id w)
    (hopen : w.Opens id y m₀) :
    y = u ∧ (Machine.resume m₀).2.Struck e ∧ Climbs p₀ e passed ahead (Machine.resume m₀).2.process := by
  obtain ⟨p, hp, hk⟩ := hk
  obtain ⟨p', hp', hs⟩ := h.stacks
  cases hp.symm.trans hp'
  obtain ⟨top, halert⟩ := hk.alerted
  obtain ⟨g, hgo⟩ := hopen.going h.arises.inv
  have hyu : y = u := by
    obtain ⟨p', queue, hp', hqueue, _⟩ := hopen.dequeued h
    cases hp.symm.trans hp'
    obtain rfl : queue = [] := by
      have hsingle := hs.stacked.single
      rw [hqueue] at hsingle
      simpa using hsingle
    have hmem : u ∈ p.roster.queue := halert.queued
    rw [hqueue] at hmem
    exact (List.mem_singleton.1 hmem).symm
  subst hyu
  have hun : ¬ (m₀.process.taskAt y).state.isFinished := by
    rw [← hopen.round.1]
    exact (hopen.round.1 ▸ hgo).unfinished
  cases hopen with | @mk p' queue hp' hcan hq => ?_
  cases hp.symm.trans hp'
  obtain ⟨poked, hawake⟩ := awaken_eq p
  rw [settled_eq (h.holds.alone.completions p hp), hawake] at hun ⊢
  let m₁ : Machine := { host := w.host, process := { p with poked, queue }, task := y }
  have hresume : (Machine.resume m₁).2 = m₁.marked := by
    rw [Machine.resume_eq, show m₁.process.fault = none from hk.roomy]
  have hrow : ∀ z, (m₁.marked.process.taskAt z).contexts = (p.taskAt z).contexts ∧
      (m₁.marked.process.taskAt z).parent = (p.taskAt z).parent ∧
      (z ≠ y → m₁.marked.process.taskAt z = p.taskAt z) := by
    intro z
    have hat := Process.taskAt_modifyTask m₁.process y (fun t => { t with state := .running, reason := .notWaiting }) z
    rw [show m₁.marked.process.taskAt z = _ from hat]
    split
    · rename_i heq
      exact ⟨rfl, rfl, fun hne => absurd heq.1.symm hne⟩
    · exact ⟨rfl, rfl, fun _ => rfl⟩
  change y = y ∧ (Machine.resume m₁).2.Struck e ∧ Climbs p₀ e passed ahead (Machine.resume m₁).2.process
  rw [hresume]
  refine ⟨rfl, ⟨top, (Machine.top?_marked (m := m₁) halert.innermost).1, halert.error⟩, fun z hz => ?_, fun z hz => ?_, hk.uncaught⟩
  · refine (hk.charted z hz).trans ⟨(hrow z).2.1, (hrow z).1, fun _ _ => rfl⟩
  · refine (hk.failed z hz).congr ((hrow z).2.2 ?_)
    rintro rfl
    exact hun (hk.failed z hz).isFinished

/-- A task on the way fails, and the next one is summoned. -/
theorem Climbs.turn {rest : List TaskId} (h : Since (Sequential id) id w) (ham : w.Amid id y m) (hm : m.Struck e)
    (hk : Climbs p₀ e passed (x :: y :: rest) m.process) (hun : p₀.Unarmed y) (hparent : p₀.ParentOf y u)
    (holder : ∀ z ∈ x :: rest, z.index < y.index) (hstep : w.step fuel (.tick id) = some w') (hm' : w'.Modest id) :
    w'.Holds id (Summons p₀ e (passed ++ [y]) (x :: rest) u) ∧ w'.Holds id (fun p => p.phase = .active) ∧
      w'.host.err = m.host.err := by
  have hchart := hk.charted y (by simp)
  obtain rfl := ham.task_eq h.arises
  have hun' := hchart.unarmed hun
  obtain ⟨_, _, hstop⟩ := Machine.advance_of_unarmed hm hun'
  obtain ⟨p, hp, hfall⟩ := ham.fallen h hm hun' hstop hstep hm'.toSequential
  obtain ⟨g, hgo⟩ := (ham.going h.arises).imp fun _ h => h.2
  have hparent' : (m.process.taskAt m.task).parent = some u := hchart.parent.trans hparent
  obtain ⟨p', hp', hroomy⟩ := hm'.roomy
  cases hp.symm.trans hp'
  have herr := hfall.err
  have huncaught := hfall.uncaught
  rw [hparent'] at herr huncaught
  refine ⟨⟨p, hp, ⟨fun z hz => ?_, fun z hz => ?_, huncaught.trans hk.uncaught⟩, hfall.alerted u hparent', hroomy⟩,
    ⟨p, hp, hfall.active⟩, herr.trans (String.append_empty)⟩
  · have hlt := holder z hz
    refine (hk.charted z ?_).trans (hfall.charted z ?_ (Nat.lt_trans hlt hm.index_lt))
    · simp only [List.mem_cons] at hz ⊢
      tauto
    · rintro rfl
      exact Nat.lt_irrefl _ hlt
  · rcases List.mem_append.1 hz with hz | hz
    · refine hfall.others z ?_ (hk.failed z hz)
      rintro rfl
      exact hgo.unfinished (hk.failed _ hz).isFinished
    · rw [List.mem_singleton] at hz
      exact hz ▸ hfall.failed

/-- The process makes a round. -/
theorem Summons.exists_opens {ahead : List TaskId} (hk : w.Holds id (Summons p₀ e passed ahead u))
    (hactive : w.Holds id fun p => p.phase = .active) (h : Since (Sequential id) id w) : ∃ y m₀, w.Opens id y m₀ := by
  obtain ⟨p, hp, hk⟩ := hk
  obtain ⟨p', hp', hactive⟩ := hactive
  cases hp.symm.trans hp'
  obtain ⟨p', hp', hs⟩ := h.stacks
  cases hp.symm.trans hp'
  obtain ⟨top, halert⟩ := hk.alerted
  have hsent : p.outgoing = [] := by
    refine List.eq_nil_iff_forall_not_mem.2 fun out hout => ?_
    obtain ⟨task, htask, _, hremote⟩ := (h.arises.inv.intact p (h.arises.inv.get? hp).1).schedule.owing out hout
    rw [Process.unlinked_of_plain hs.plain task (Array.mem_of_getElem? htask)] at hremote
    cases hremote
  have hcan : canTick p := by
    simp [canTick, hsent, hactive]
  have hqueue : (w.settled p).process.queue = p.queue := by
    obtain ⟨poked, hawake⟩ := awaken_eq p
    rw [settled_eq (h.holds.alone.completions p hp), hawake]
  cases hq : (w.settled p).process.queue.pop? with
  | none =>
      rw [hqueue, Fifo.pop?_eq_none_iff] at hq
      have := halert.queued
      rw [hq] at this
      cases this
  | some next => exact ⟨next.1, _, .mk hp hcan hq⟩

section
variable (h : Since (Sequential id) id w) (ham : w.Amid id t m) (hm : m.Struck e) (hway : m.process.Way t below x)
include h ham hm hway

omit hm in
/-- The next turn on the way. -/
theorem Climbs.next {rest : List TaskId} (hbelow : below = passed ++ rest) (hlen : passed.length < below.length)
    (hrest : m.process.Way y rest x) (h' : Since (Sequential id) id w₁) (ham' : w₁.Amid id y m') (hm' : m'.Struck e)
    (hk : Climbs m.process e passed (x :: rest) m'.process) : ∃ u rest', rest = y :: rest' ∧ m.process.Way u rest' x ∧
      (∃ n, Machine.advance m' = (false, n)) ∧ ∀ fuel w₂, w₁.step fuel (.tick id) = some w₂ → w₂.Modest id →
        w₂.Holds id (Summons m.process e (passed ++ [y]) (x :: rest') u) ∧ w₂.Holds id (fun p => p.phase = .active) ∧
          w₂.host.err = m'.host.err := by
  cases hrest with
  | here =>
      rw [hbelow, List.append_nil] at hlen
      exact absurd hlen (Nat.lt_irrefl _)
  | @up _ u _ rest' hun hparent hup =>
      have hindex := hway.index_le fun y u hy hu => ham.older h hy hu
      have hyt : y.index ≤ t.index := hindex y (by simp [hbelow])
      have hlt := ham.older h hyt hparent
      have holder : ∀ z ∈ x :: rest', z.index < y.index := fun z hz =>
        Nat.lt_of_le_of_lt (hup.index_le (fun y u hy hu => ham.older h (by omega) hu) z hz) hlt
      have hun' := (hk.charted y (by simp)).unarmed hun
      obtain ⟨_, _, hstop⟩ := Machine.advance_of_unarmed hm' (ham'.task_eq h'.arises ▸ hun')
      exact ⟨u, rest', rfl, hup, ⟨_, hstop⟩, fun fuel w₂ hstep hmodest =>
        hk.turn h' ham' hm' hun hparent holder hstep hmodest⟩

/-- How far an error has come after a number of turns. -/
theorem Later.climbs (hlater : Later id w m k w' m') (hk : k ≤ below.length) : ∃ passed rest y, below = passed ++ rest ∧
      passed.length = k ∧ m.process.Way y rest x ∧ Since (Sequential id) id w' ∧ w'.Amid id y m' ∧ m'.Struck e ∧
      Climbs m.process e passed (x :: rest) m'.process := by
  induction hlater with
  | now => exact ⟨[], below, t, rfl, rfl, hway, h, ham, hm, fun _ _ => Process.charted_of_eq rfl rfl, by simp, rfl⟩
  | @turn k w₁ w₂ w₃ m₁ m₂ fuel v _ hstep hmodest hstays hopen ih =>
      obtain ⟨passed, rest, y, hbelow, hlen, hrest, h₁, ham₁, hm₁, hclimb⟩ := ih (Nat.le_of_succ_le hk)
      obtain ⟨u, rest', rfl, hup, _, hturn⟩ :=
        hclimb.next h ham hway hbelow (hlen ▸ hk) hrest h₁ ham₁ hm₁
      obtain ⟨hsummons, _, _⟩ := hturn fuel w₂ hstep hmodest
      obtain ⟨h₃, _, hsummons₃⟩ := hstays.holds (h₁.step hstep hmodest.toSequential) hsummons
        (fun _ heap hs => hs.heap heap) hmodest
      obtain ⟨rfl, hm₃, hclimb₃⟩ := Summons.opens hsummons₃ h₃ hopen
      exact ⟨passed ++ [y], rest', v, by simp [hbelow], by simp [hlen], hup, h₃, hopen.amid, hm₃, hclimb₃⟩

/-- The error has come to the end of its way. -/
theorem Later.arrives (hlater : Later id w m below.length w' m') : Since (Sequential id) id w' ∧ w'.Amid id x m' ∧
    m'.Struck e ∧ Climbs m.process e below [x] m'.process := by
  obtain ⟨passed, rest, y, hbelow, hlen, hrest, h', ham', hm', hclimb⟩ := hlater.climbs h ham hm hway (Nat.le_refl _)
  obtain rfl : rest = [] := by
    have := congrArg List.length hbelow
    rw [List.length_append, hlen] at this
    exact List.length_eq_zero_iff.1 (by omega)
  rw [List.append_nil] at hbelow
  subst hbelow
  cases hrest with
  | here => exact ⟨h', ham', hm', hclimb⟩

end

/-! ## The end of the way -/

/-- What becomes of an error `e` that the running task of `m` has: it leaves the tasks `below` behind and comes to `x`. -/
structure Propagates (id : ProcessId) (w : World) (m : Machine) (e : Handle) (below : List TaskId) (x : TaskId) : Prop where
  /-- The turns on the way come to their end and report nothing, and each is followed by the next one. -/
  passes : ∀ k w' m', k < below.length → Later id w m k w' m' →
    (∃ fuel w'', w'.step fuel (.tick id) = some w'') ∧
    ∀ fuel w'', w'.step fuel (.tick id) = some w'' → w''.Modest id →
      w''.host.err = m'.host.err ∧ ∃ m'', Later id w m (k + 1) w'' m''
  caught : ∀ c outer position, m.process.Catches x c outer position → ∀ w' m', Later id w m below.length w' m' →
    ∃ n, Machine.advance m' = (true, n) ∧ n.Caught e x c outer position ∧ (∀ y ∈ below, n.process.Failed e y) ∧
      n.host.err = m'.host.err ∧ n.process.uncaught = m.process.uncaught
  uncaught : m.process.Unarmed x → ∀ w' m', Later id w m below.length w' m' → m'.process.heap.isLive e ∧
    (∃ fuel w'', w'.step fuel (.tick id) = some w'') ∧
    ∀ fuel w'', w'.step fuel (.tick id) = some w'' → w''.Sequential id →
      w''.host.err = m'.host.err ++ m'.renderError (.object e) ∧
      w''.Holds id fun p => p.entryTask = some x ∧ (∀ y ∈ x :: below, p.Failed e y) ∧
        p.uncaught = m.process.uncaught + 1

/-- The error that a task has to handle is there. -/
theorem Amid.isLive (ham : w.Amid id t m) (hw : w.Arises) (hm : m.Struck e) : m.process.heap.isLive e := by
  obtain rfl := ham.task_eq hw
  obtain ⟨p, _, hgo⟩ := ham.going hw
  obtain ⟨top, htop, he⟩ := hm
  refine hgo.inv.intact.isLive_of_holds (.context (Process.getElem?_of_index_lt hgo.current.2.index_lt) hgo.unfinished
    (Process.mem_of_top? htop) (.self top) ?_)
  simp [Context.values, he]

/-- Whoever catches an error leaves those alone that have failed with it. -/
theorem caught_climbs {ahead : List TaskId} (h : Since (Sequential id) id w) (ham : w.Amid id x m) (hm : m.Struck e)
    (hk : Climbs p₀ e passed ahead m.process) (hc : m.process.Catches x c outer position) :
    ∃ n, Machine.advance m = (true, n) ∧ n.Caught e x c outer position ∧ (∀ y ∈ passed, n.process.Failed e y) ∧
      n.host.err = m.host.err ∧ n.process.uncaught = p₀.uncaught := by
  have hw := h.arises
  obtain rfl := ham.task_eq hw
  obtain ⟨p, _, hgo⟩ := ham.going hw
  have hsturdy := ham.sturdy hw
  obtain ⟨n, hadv, hcaught⟩ := Machine.caught_advance hm hc
  obtain ⟨tasks, contexts, free, hframe⟩ := Machine.unwindThrough_frame e m.current.contexts m
  rw [← Machine.advance_of_struck hm, hadv] at hframe
  have hspares := Machine.spares_paces hsturdy (Machine.paces_advance hsturdy)
  rw [hadv] at hspares
  refine ⟨n, hadv, hcaught, fun y hy => ?_, ?_, ?_⟩
  · have hfailed := hk.failed y hy
    have hne : y ≠ m.task := by
      rintro rfl
      exact hgo.unfinished hfailed.isFinished
    obtain ⟨hrest, hregister, hstate⟩ := hspares.others y hne (Process.index_lt_of_isFinished hfailed.isFinished)
    exact ⟨hstate.trans hfailed.state, hregister.trans hfailed.register, hrest.contexts.trans hfailed.contexts⟩
  · rw [show n = _ from hframe]
  · rw [show n = _ from hframe]
    exact hk.uncaught

theorem propagates (h : Since (Sequential id) id w) (ham : w.Amid id t m) (hm : m.Struck e)
    (hway : m.process.Way t below x) (hnone : m.process.Unarmed x → (m.process.taskAt x).parent = none) :
    Propagates id w m e below x := by
  constructor
  case passes =>
    intro k w' m' hk hlater
    obtain ⟨passed, rest, y, hbelow, hlen, hrest, h', ham', hm', hclimb⟩ := hlater.climbs h ham hm hway (Nat.le_of_lt hk)
    obtain ⟨u, rest', rfl, _, ⟨n, hstop⟩, hturn⟩ := hclimb.next h ham hway hbelow (hlen ▸ hk) hrest h' ham' hm'
    refine ⟨ham'.exists_step h'.arises.inv hstop, fun fuel w'' hstep hmodest => ?_⟩
    obtain ⟨hsummons, hactive, herr⟩ := hturn fuel w'' hstep hmodest
    obtain ⟨v, m₂, hopen⟩ := Summons.exists_opens hsummons hactive (h'.step hstep hmodest.toSequential)
    exact ⟨herr, _, .turn hlater hstep hmodest .refl hopen⟩
  case caught =>
    intro c outer position hc w' m' hlater
    obtain ⟨h', ham', hm', hclimb⟩ := hlater.arrives h ham hm hway
    exact caught_climbs h' ham' hm' hclimb ((hclimb.charted x (List.mem_singleton_self x)).catches hc)
  case uncaught =>
    intro hun w' m' hlater
    obtain ⟨h', ham', hm', hclimb⟩ := hlater.arrives h ham hm hway
    have hchart := hclimb.charted x (List.mem_singleton_self x)
    obtain rfl := ham'.task_eq h'.arises
    obtain ⟨g, hgo⟩ := (ham'.going h'.arises).imp fun _ h => h.2
    have hparent := hchart.parent.trans (hnone hun)
    obtain ⟨_, _, hstop⟩ := Machine.advance_of_unarmed hm' (hchart.unarmed hun)
    refine ⟨ham'.isLive h'.arises hm', ham'.exists_step h'.arises.inv hstop, fun fuel w'' hstep hq => ?_⟩
    obtain ⟨p, hp, hfall⟩ := ham'.fallen h' hm' (hchart.unarmed hun) hstop hstep hq
    have herr := hfall.err
    have huncaught := hfall.uncaught
    rw [hparent] at herr huncaught
    refine ⟨herr, p, hp, ?_, fun y hy => ?_, huncaught.trans (congrArg (· + 1) hclimb.uncaught)⟩
    · obtain ⟨p', hp', hrooted⟩ := (h'.step hstep hq).rooted
      cases hp.symm.trans hp'
      rw [hrooted.entry, (ham'.rooted h').first m'.task hm'.index_lt hparent]
    · rcases List.mem_cons.1 hy with rfl | hy
      · exact hfall.failed
      · refine hfall.others y ?_ (hclimb.failed y hy)
        rintro rfl
        exact hgo.unfinished (hclimb.failed _ hy).isFinished

/-- An instruction that fails leaves its task a context that the error is raised in. -/
theorem Amid.struck (ham : w.Amid id t m₁) (hw : w.Arises) (hdue : m₁.Due n top i)
    (hfail : Machine.step top (m₁.process.contextAt top).cursor i n = (.error fault, n')) :
    (Machine.raise fault n').2.Struck (Machine.errorObject fault n').1 := by
  obtain ⟨p, hp, hround⟩ := ham.running
  have hmem := (hw.inv.get? hp).1
  have hgood : n.Going (w.outlook p) (some n.task) := (hround.swept hdue.swept).good hw.inv hmem
  have hgo := Act.wp.error (Machine.steps_step hgood hdue.top? (m₁.process.contextAt top).cursor i) (congrArg Prod.fst hfail)
  have hdoes := Act.wp.error (Machine.wp_step_due (ham.sturdy hw) hdue) (congrArg Prod.fst hfail)
  rw [hfail] at hgo hdoes
  have hsturdy := ((hround.swept hdue.swept).sturdy hw.firm hw.inv hmem).does hdoes.1
  obtain ⟨c, htop⟩ := Option.ne_none_iff_exists'.1 hgo.1.top?_ne_none
  exact ⟨c, Machine.top?_raise hsturdy htop fault⟩

/-- An instruction that fails raises an error object in the innermost context. Where the object goes can be told at once:
the way is the chain of those that have led to the running task, up to the first one with a handler, or up to the entry task.
From turn to turn the object leaves one task behind, which has failed with it, and nothing is reported. If there is a
handler, it gets the object, whatever was inside its context is gone, and nothing is reported at all; if there is none,
the entry task fails with the object too, and one report of it is written. -/
theorem errors_propagate (h : Since (Sequential id) id w) (hopen : w.Opens id t m₀) (hruns : (Machine.resume m₀).2.Runs m₁)
    (hdue : m₁.Due n top i)
    (hfail : Machine.step top (m₁.process.contextAt top).cursor i n = (.error fault, n')) :
    Machine.advance m₁ = (true, (Machine.raise fault n').2) ∧
    ∃ below x, (Machine.raise fault n').2.process.Way t below x ∧
      ((∃ c outer position, (Machine.raise fault n').2.process.Catches x c outer position) ∨
        (Machine.raise fault n').2.process.Unarmed x ∧ (Machine.raise fault n').2.process.entryTask = some x) ∧
      Propagates id w (Machine.raise fault n').2 (Machine.errorObject fault n').1 below x := by
  have hw := h.arises
  have hadv : Machine.advance m₁ = (true, (Machine.raise fault n').2) := by
    rw [Machine.advance_of_due hdue, Machine.perform_eq, hfail]
    rfl
  have ham : w.Amid id t (Machine.raise fault n').2 := .mk hopen (hruns.tail hadv)
  have hm : (Machine.raise fault n').2.Struck (Machine.errorObject fault n').1 := (Amid.mk hopen hruns).struck hw hdue hfail
  obtain rfl := ham.task_eq hw
  obtain ⟨below, x, hway, hend⟩ := Process.exists_way (t := (Machine.raise fault n').2.task)
    fun y u hy hu => ham.older h hy hu
  have hrooted := ham.rooted h
  refine ⟨hadv, below, x, hway, ?_, propagates h ham hm hway fun hun => ?_⟩
  · rcases hend with hcatches | ⟨hun, hnone, hle⟩
    · exact .inl hcatches
    · refine .inr ⟨hun, ?_⟩
      rw [hrooted.entry, hrooted.first x (Nat.lt_of_le_of_lt hle hm.index_lt) hnone]
  · rcases hend with ⟨c, outer, position, hc⟩ | ⟨_, hnone, _⟩
    · obtain ⟨⟨inner, hcs, _⟩, harmed⟩ := hc
      have hbare := hun c (hcs ▸ by simp)
      rw [harmed] at hbare
      cases hbare
    · exact hnone

/-- The function comes to its turn. -/
def faltering : Machine := (risked.opening? ⟨1⟩).get (by decide +kernel)

/-- The function has looked up a name that nobody knows. -/
def faltered : Machine := (Machine.step ⟨1⟩ 4 ⟨.load, .name "missing"⟩ (Machine.resume faltering).2).2

/-- The error is in the innermost context of the function. -/
def stricken : Machine := (Machine.raise (.unknownName "missing") faltered).2

/-- The instruction has failed because it does not know the name. -/
def Misses (result : Except Fault Machine.Flow) (name : String) : Bool :=
  match result with
  | .error (.unknownName s) => s = name
  | _ => false

theorem eq_of_misses {result : Except Fault Machine.Flow} {name : String} (h : Misses result name) :
    result = .error (.unknownName name) := by
  unfold Misses at h
  split at h
  · rw [of_decide_eq_true h]
  · cases h

/-- The function has been called by the entry task, which has a handler. -/
theorem way_stricken {below : List TaskId} {x : TaskId} (h : stricken.process.Way ⟨1⟩ below x)
    (hend : (∃ c outer position, stricken.process.Catches x c outer position) ∨
      stricken.process.Unarmed x ∧ stricken.process.entryTask = some x) : below = [⟨1⟩] ∧ x = ⟨0⟩ := by
  have hfunction : (stricken.process.taskAt ⟨1⟩).contexts = [⟨1⟩] ∧ (stricken.process.contextAt ⟨1⟩).handler = none ∧
      (stricken.process.taskAt ⟨1⟩).parent = some ⟨0⟩ ∧ stricken.process.entryTask = some ⟨0⟩ := by decide +kernel
  have hentry : (stricken.process.taskAt ⟨0⟩).contexts = [⟨0⟩] ∧ (stricken.process.contextAt ⟨0⟩).handler = some 3 := by
    decide +kernel
  obtain ⟨hcs, hbare, hparent, hfirst⟩ := hfunction
  cases h with
  | here =>
      rcases hend with ⟨c, outer, position, ⟨inner, hsplit, _⟩, harmed⟩ | ⟨_, hx⟩
      · have hc : c ∈ inner ++ c :: outer := by simp
        rw [← hsplit, hcs, List.mem_singleton] at hc
        rw [hc, hbare] at harmed
        cases harmed
      · cases hfirst.symm.trans hx
  | up _ hu hrest =>
      cases hparent.symm.trans hu
      cases hrest with
      | here => exact ⟨rfl, rfl⟩
      | up hun _ _ =>
          have := hun ⟨0⟩ (hentry.1 ▸ List.mem_singleton_self _)
          rw [hentry.2] at this
          cases this

theorem errors_propagate_failing : Since (Sequential ⟨1⟩) ⟨1⟩ risked ∧ risked.Opens ⟨1⟩ ⟨1⟩ faltering ∧
    (Machine.resume faltering).2.Due (Machine.resume faltering).2 ⟨1⟩ ⟨.load, .name "missing"⟩ ∧
    Machine.step ⟨1⟩ 4 ⟨.load, .name "missing"⟩ (Machine.resume faltering).2 = (.error (.unknownName "missing"), faltered) ∧
    Later ⟨1⟩ risked stricken 1 failed (Machine.resume recovering).2 ∧
    ∃ n, Machine.advance (Machine.resume recovering).2 = (true, n) ∧ n.Caught ⟨4, 0⟩ ⟨0⟩ ⟨0⟩ [] 3 ∧
      n.process.Failed ⟨4, 0⟩ ⟨1⟩ := by
  have hrisking : Since (Sequential ⟨1⟩) ⟨1⟩ (risking {}) :=
    .of_toOption (.register failing (.create (r := {}) rfl)) (by decide +kernel) (by decide +kernel)
  have hrisked : (risking {}).step 9 (.tick ⟨1⟩) = some risked := (Option.some_get _).symm
  have hfailed : risked.step 9 (.tick ⟨1⟩) = some failed := (Option.some_get _).symm
  have hsince : Since (Sequential ⟨1⟩) ⟨1⟩ risked := hrisking.step hrisked (by decide +kernel)
  have hmodest : failed.Modest ⟨1⟩ := ⟨by decide +kernel, by decide +kernel⟩
  have htask : faltering.task = ⟨1⟩ := by decide +kernel
  have hopen : risked.Opens ⟨1⟩ ⟨1⟩ faltering := htask ▸ opens_opening (Option.some_get _).symm
  have hopens : failed.Opens ⟨1⟩ ⟨0⟩ recovering := recovering_look.1 ▸ opens_opening (Option.some_get _).symm
  have hfetches : Fetches (Machine.resume faltering).2 ⟨1⟩ 4 .load "missing" := by decide +kernel
  obtain ⟨hdue, hposition⟩ := due_of_fetches hfetches
  have hfail : Machine.step ⟨1⟩ 4 ⟨.load, .name "missing"⟩ (Machine.resume faltering).2
      = (.error (.unknownName "missing"), faltered) := Prod.ext (eq_of_misses (by decide +kernel)) rfl
  have hlater : Later ⟨1⟩ risked stricken 1 failed (Machine.resume recovering).2 :=
    .turn .now hfailed hmodest .refl hopens
  obtain ⟨_, below, x, hway, hend, hprop⟩ := errors_propagate hsince hopen .refl hdue (hposition ▸ hfail)
  obtain ⟨rfl, rfl⟩ := way_stricken hway hend
  have hcatches : stricken.process.Catches ⟨0⟩ ⟨0⟩ [] 3 := by
    have hentry : (stricken.process.taskAt ⟨0⟩).contexts = [⟨0⟩] ∧ (stricken.process.contextAt ⟨0⟩).handler = some 3 := by
      decide +kernel
    exact ⟨⟨[], hentry.1, by simp⟩, hentry.2⟩
  have hobject : (Machine.errorObject (.unknownName "missing") faltered).1 = ⟨4, 0⟩ := by decide +kernel
  obtain ⟨n, hadv, hcaught, hbelow, _⟩ := hprop.caught ⟨0⟩ [] 3 hcatches failed _ hlater
  rw [hobject] at hcaught hbelow
  exact ⟨hsince, hopen, hdue, hfail, hlater, n, hadv, hcaught, hbelow ⟨1⟩ (List.mem_singleton_self _)⟩

end World

end Spool
