import Spool.Proofs.World.Headroom

/-!
# Between two instructions

A task handles errors and collects garbage between its instructions. Collecting may raise an error, and making the error may
call for the next collection, so neither the heap nor its mark says that this comes to an end. The handlers do: each error
that is caught uses one up.
-/

namespace Spool

theorem Heap.lt_settledThreshold (limit live : Nat) : live < settledThreshold limit live := by
  unfold settledThreshold
  split
  · assumption
  · split <;> omega

namespace Machine

variable {m n k : Machine} {top c d : ContextId} {e : Handle} {cs outer : List ContextId} {position : Nat}

/-- How many contexts of the running task have a handler. -/
def armed (m : Machine) : Nat := m.current.contexts.countP fun c => (m.process.contextAt c).handler.isSome

/-- What a task does between two instructions and goes on after. -/
inductive Pause (m n : Machine) : Prop where
  | caught (e : Handle) : m.Struck e → unwind e m = (true, n) → Pause m n
  | full (top : ContextId) : m.top? = some top → (m.process.contextAt top).error = none → m.process.heap.shouldCollect →
      safepoint m = (true, n) → Pause m n

inductive Pauses : Nat → Machine → Machine → Prop where
  | none (m : Machine) : Pauses 0 m m
  | next {times : Nat} {m n k : Machine} : m.Pause n → Pauses times n k → Pauses (times + 1) m k

/-- An instruction is next, or the task is at its end. -/
inductive Arrived (m : Machine) : Prop where
  | due (n : Machine) (top : ContextId) (i : Instruction) : m.Due n top i → Arrived m
  | completed (n : Machine) : advance m = (false, n) → n.current.state = .complete → Arrived m
  | failed (n : Machine) : advance m = (false, n) → n.current.state = .error → Arrived m

theorem Pause.advance_eq (h : m.Pause n) : advance m = (true, n) := by
  cases h with
  | caught e hstruck hunwind => exact (advance_of_struck hstruck).trans hunwind
  | full top htop hclear hdue hfull => exact advance_of_safepoint htop hclear hdue hfull

/-! ## Handlers -/

/-- An error on its way outward arms nothing. -/
theorem handler_unwindThrough (e : Handle) (cs : List ContextId) (d : ContextId) : ∀ m : Machine,
    ((unwindThrough e cs m).2.process.contextAt d).handler = (m.process.contextAt d).handler ∨
      ((unwindThrough e cs m).2.process.contextAt d).handler = none := by
  induction cs with
  | nil => exact fun _ => .inl rfl
  | cons c outer ih =>
      intro m
      rw [unwindThrough_cons]
      cases (m.process.contextAt c).handler with
      | some position =>
          have hat := Process.contextAt_modifyContext m.process c
            (fun c => { c with error := none, handler := none, cursor := position }) d
          change ((m.process.modifyContext c _).contextAt d).handler = _ ∨
            ((m.process.modifyContext c _).contextAt d).handler = none
          rw [hat]
          split
          · exact .inr rfl
          · exact .inl rfl
      | none => exact (ih (m.passing c)).imp_left (·.trans (handler_passing m c d))

theorem armed_eq_of_charted (h : Process.Charted m.task m.process n.process) (ht : n.task = m.task) :
    n.armed = m.armed := by
  unfold armed current
  rw [ht, h.contexts]
  refine List.countP_congr fun c hc => ?_
  rw [h.handlers c hc]

/-- Whoever catches an error has one handler less. -/
theorem armed_lt_of_caught (hstruck : m.Struck e) (hc : m.process.Catches m.task c outer position)
    (h : unwind e m = (true, n)) : n.armed < m.armed := by
  obtain ⟨⟨inner, hcs, hinner⟩, hh⟩ := hc
  have hcs : m.current.contexts = inner ++ c :: outer := hcs
  obtain ⟨n', hrun, hcaught⟩ : ∃ n', unwindThrough e (inner ++ c :: outer) m = (true, n') ∧ n'.Caught e m.task c outer position :=
    caught_unwindThrough e inner m hstruck.index_lt hinner hh
  have hframe := handler_unwindThrough e m.current.contexts
  rw [hcs] at hframe
  have hsame : n' = n := by
    have hunwind : unwindThrough e (inner ++ c :: outer) m = (true, n) := hcs ▸ h
    exact congrArg Prod.snd (hrun.symm.trans hunwind)
  subst hsame
  have hcount : outer.countP (fun d => (n'.process.contextAt d).handler.isSome) ≤
      outer.countP fun d => (m.process.contextAt d).handler.isSome := by
    refine List.countP_mono_left fun d _ hd => ?_
    rcases hrun ▸ hframe d m with hsame | hnone
    · rwa [← hsame]
    · rw [hnone] at hd
      cases hd
  unfold armed
  rw [hcaught.contexts, hcs, List.countP_append, List.countP_cons, List.countP_cons, hcaught.handler, hh]
  simp only [Option.isSome_none, Option.isSome_some, if_true, Bool.false_eq_true, if_false]
  omega

/-! ## One iteration -/

theorem completed_advance (ht : m.task.index < m.process.tasks.size) (h : advance m = (false, (complete n).2))
    (hn : ∃ heap, n = { m with process := { m.process with heap } }) : m.Arrived := by
  obtain ⟨heap, rfl⟩ := hn
  refine .completed _ h ?_
  exact congrArg Task.state (current_modifyCurrent (m := { m with process := { m.process with heap } }) ht
    fun t => { t with state := .complete })

theorem arrived_of_swept (htop : m.top? = some top) (hclear : (m.process.contextAt top).error = none) (hn : m.Swept n) :
    m.Arrived := by
  cases hi : (m.host.registry.moduleAt (m.process.contextAt top).module).tape.instructions[(m.process.contextAt
    top).cursor]? with
  | some i => exact .due n top i ⟨htop, hclear, hn, hi⟩
  | none =>
      refine completed_advance (Process.index_lt_of_top? htop) ?_ (eq_of_swept hn)
      have hnext : performNext m top n = (false, (complete n).2) := by
        unfold performNext
        rw [hi]
        rfl
      rw [advance_eq]
      simp only [htop, hclear]
      rcases hn with ⟨hno, rfl⟩ | ⟨hyes, hsafe⟩
      · rw [hno]
        exact hnext
      · rw [hyes]
        change (if (safepoint m).1 then pure true else performNext m top : StateM Machine Bool) (safepoint m).2 = _
        rw [hsafe]
        exact hnext

/-- Without an error to handle, a task arrives or runs out of room. -/
theorem arrived_or_full (htop : m.top? = some top) (hclear : (m.process.contextAt top).error = none) :
    m.Arrived ∨ ∃ n, m.process.heap.shouldCollect ∧ safepoint m = (true, n) := by
  cases hdue : m.process.heap.shouldCollect with
  | false => exact .inl (arrived_of_swept htop hclear (.inl ⟨hdue, rfl⟩))
  | true =>
      rcases hsafe : safepoint m with ⟨_ | _, n⟩
      · exact .inl (arrived_of_swept htop hclear (.inr ⟨hdue, hsafe⟩))
      · exact .inr ⟨n, rfl, rfl⟩

/-- An error that nobody catches is the end of the task. -/
theorem arrived_of_unarmed (h : m.Struck e) (hun : m.process.Unarmed m.task) : m.Arrived := by
  obtain ⟨contexts, free, hadv⟩ := advance_of_unarmed h hun
  exact .failed _ hadv (congrArg Task.state (taskAt_of_unarmed h hun hadv))

end Machine

namespace World

open Machine

variable {w : World} {id : ProcessId} {t : TaskId} {m n : Machine} {top : ContextId} {e : Handle}

theorem Amid.pause (ham : w.Amid id t m) (h : m.Pause n) : w.Amid id t n := by
  obtain ⟨hopen, hruns⟩ := ham
  exact .mk hopen (hruns.tail h.advance_eq)

/-- The error for want of room leaves the handlers alone. -/
theorem struck_of_full (hw : w.Arises) (ham : w.Amid id t m) (htop : m.top? = some top)
    (hclear : (m.process.contextAt top).error = none) (hdue : m.process.heap.shouldCollect)
    (h : safepoint m = (true, n)) : (∃ e, n.Struck e) ∧ n.armed = m.armed := by
  obtain ⟨p, _, hgo⟩ := ham.going hw
  have hexceeds : m.process.heap.settings.maxObjects < (collectGarbage m).2.process.heap.live := by
    by_contra hroom
    rw [safepoint_eq] at h
    have hnone : (collectGarbage m).2.process.heap.overLimit? = none := by
      have hsettings : (collectGarbage m).2.process.heap.settings = m.process.heap.settings :=
        (Heap.settled_collect m.process.heap m.host.registry m.process.coreRoots).1
      unfold Heap.overLimit?
      rw [hsettings, if_neg hroom]
    rw [hnone] at h
    cases congrArg Prod.fst h
  obtain ⟨heap, e, hsafe, _⟩ := safepoint_of_strained hgo.collectGarbage.sound ⟨htop, hclear, hdue, hexceeds⟩
  obtain rfl : m.afflicted heap top e = n := congrArg Prod.snd (hsafe.symm.trans h)
  have hin := (ham.sturdy hw).firm.arena.index_lt (Process.mem_of_top? htop)
  exact ⟨⟨e, struck_afflicted htop hin heap e⟩, armed_eq_of_charted (charted_afflicted m heap top e m.task) rfl⟩

/-- A task with no error to handle pauses at most once more than it does with one. -/
theorem arrival_of_clear (bound : Nat) (hw : w.Arises) (ham : w.Amid id t m)
    (hclear : ∀ top, m.top? = some top → (m.process.contextAt top).error = none)
    (hstruck : ∀ e n, w.Amid id t n → n.Struck e → n.armed = m.armed → ∃ times k, times ≤ bound ∧ Pauses times n k ∧ k.Arrived) :
    ∃ times k, times ≤ bound + 1 ∧ Pauses times m k ∧ k.Arrived := by
  obtain ⟨p, _, hgo⟩ := ham.going hw
  cases htop : m.top? with
  | none =>
      have hlt := (hgo.inv.intact.schedule.running t rfl).1
      have hadv : advance m = (false, (Machine.complete m).2) := by
        rw [advance_eq, htop]
        rfl
      have htask : m.task.index < m.process.tasks.size := (ham.task_eq hw).symm ▸ hlt
      exact ⟨0, m, Nat.zero_le _, .none m, completed_advance htask hadv ⟨_, rfl⟩⟩
  | some top =>
      rcases arrived_or_full htop (hclear top htop) with harrived | ⟨n, hdue, hfull⟩
      · exact ⟨0, m, Nat.zero_le _, .none m, harrived⟩
      · have hpause : m.Pause n := .full top htop (hclear top htop) hdue hfull
        obtain ⟨⟨e, he⟩, harmed⟩ := struck_of_full hw ham htop (hclear top htop) hdue hfull
        obtain ⟨times, k, hle, hpauses, hk⟩ := hstruck e n (ham.pause hpause) he harmed
        exact ⟨times + 1, k, Nat.succ_le_succ hle, .next hpause hpauses, hk⟩

/-- Each error that is caught uses up a handler, and there is one error at most before the next is caught. -/
theorem arrival_of_struck (hw : w.Arises) (bound : Nat) : ∀ {m : Machine} {e : Handle}, w.Amid id t m → m.Struck e →
    m.armed ≤ bound → ∃ times k, times ≤ 2 * bound ∧ Pauses times m k ∧ k.Arrived := by
  induction bound with
  | zero =>
      intro m e ham hstruck harmed
      refine ⟨0, m, Nat.zero_le _, .none m, arrived_of_unarmed hstruck fun c hc => ?_⟩
      have hnone := List.countP_eq_zero.1 (Nat.le_zero.1 harmed) c hc
      exact Option.not_isSome_iff_eq_none.1 hnone
  | succ bound ih =>
      intro m e ham hstruck harmed
      rcases m.process.unarmed_or_catches m.task with hun | ⟨c, outer, position, hcatches⟩
      · exact ⟨0, m, Nat.zero_le _, .none m, arrived_of_unarmed hstruck hun⟩
      · obtain ⟨n, hadv, hcaught⟩ := caught_advance hstruck hcatches
        have hunwind : unwind e m = (true, n) := (advance_of_struck hstruck).symm.trans hadv
        have hpause : m.Pause n := .caught e hstruck hunwind
        have hless := armed_lt_of_caught hstruck hcatches hunwind
        have hclear : ∀ top, n.top? = some top → (n.process.contextAt top).error = none := fun top htop => by
          cases htop.symm.trans hcaught.top?
          exact hcaught.error
        obtain ⟨times, k, hle, hpauses, hk⟩ := arrival_of_clear (2 * bound) hw (ham.pause hpause) hclear
          fun e' n' ham' hstruck' harmed' => ih ham' hstruck' (by omega)
        exact ⟨times + 1, k, by omega, .next hpause hpauses, hk⟩

/-- After a collection the mark is above what is live. Wherever a task is between two instructions, it comes to its next
instruction or to its end, and the iteration in which it does is no later than twice the number of its handlers and two
more; whether the errors for want of room find or leave any room does not matter. -/
theorem arrives_between_instructions (hw : w.Arises) (ham : w.Amid id t m) :
    (∀ (h : Heap) (registry : Registry) (provider : RootProvider),
      (h.collect registry provider).2.live < (h.collect registry provider).2.threshold) ∧
      ∃ times k, times + 1 ≤ 2 * m.armed + 2 ∧ Pauses times m k ∧ k.Arrived := by
  constructor
  · intro h registry provider
    rw [(Heap.settled_collect h registry provider).2]
    exact Heap.lt_settledThreshold _ _
  · have hstruck : ∀ {n e}, w.Amid id t n → n.Struck e → n.armed = m.armed →
        ∃ times k, times ≤ 2 * m.armed ∧ Pauses times n k ∧ k.Arrived := fun ham' he harmed =>
      arrival_of_struck hw m.armed ham' he (Nat.le_of_eq harmed)
    by_cases hclear : ∀ top, m.top? = some top → (m.process.contextAt top).error = none
    · obtain ⟨times, k, hle, hk⟩ := arrival_of_clear _ hw ham hclear fun e n => hstruck
      exact ⟨times, k, Nat.succ_le_succ hle, hk⟩
    · push Not at hclear
      obtain ⟨top, htop, herror⟩ := hclear
      obtain ⟨e, he⟩ := Option.ne_none_iff_exists'.1 herror
      obtain ⟨times, k, hle, hk⟩ := hstruck ham ⟨top, htop, he⟩ rfl
      exact ⟨times, k, by omega, hk⟩

/-- Two errors for want of room, of which the first is caught: the bound is reached. -/
theorem arrives_between_instructions_scant : (hoard { maxObjects := 1, threshold := 0 }).Arises ∧
    (hoard { maxObjects := 1, threshold := 0 }).Amid ⟨1⟩ ⟨0⟩ scant ∧ scant.armed = 1 ∧
    (∃ times k, times + 1 ≤ 4 ∧ Pauses times scant k ∧ k.Arrived) ∧
    ∃ m₁ m₂ m₃ m₄, advance scant = (true, m₁) ∧ advance m₁ = (true, m₂) ∧ advance m₂ = (true, m₃) ∧
      advance m₃ = (false, m₄) ∧ m₄.current.state = .error := by
  obtain ⟨m₁, m₂, m₃, m₄, hw, ham, _, _, h₁, h₂, _, h₃, _, _, h₄, hfailed⟩ := handler_preempted
  have harmed : scant.armed = 1 := by decide +kernel
  have harrives := (arrives_between_instructions hw ham).2
  rw [harmed] at harrives
  exact ⟨hw, ham, harmed, harrives, m₁, m₂, m₃, m₄, h₁, h₂, h₃, h₄, hfailed⟩

end World

end Spool
