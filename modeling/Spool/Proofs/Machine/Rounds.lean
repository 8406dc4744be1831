import Spool.Proofs.Machine.Turns
import Spool.Proofs.Process.Abides

/-!
# Rounds keep order

A round of the scheduler begins and ends with all tasks in their places. What is pledged to other processes stays so,
no task is lost, and a task that has had its turn waits or has come to its end.
-/

namespace Spool

namespace Roster

variable {r : Roster} {t y : TaskId}

/-- A task that has come to its end keeps what it has ended with. -/
theorem outcome_conclude {state : TaskState} (ht : t.index < r.tasks.size) (hfin : state.isFinished) (v : Value) :
    ((r.conclude t state v).standingAt t).state = state ∧ ((r.conclude t state v).standingAt t).result = some v := by
  have hat : ((r.update t (·.conclude state v)).owe t).at? t = some ((r.standingAt t).conclude state v) := by
    refine (at?_update r t (·.conclude state v) t).trans ?_
    rw [if_pos rfl, at?_of_index_lt ht]
    rfl
  obtain ⟨s, hs, hlater⟩ := (upholds_finish ((r.update t (·.conclude state v)).owe t) t).tasks t _ hat
  rw [conclude, standingAt_of_at? hs]
  exact hlater.ended hfin

theorem isFinished_conclude {state : TaskState} (ht : t.index < r.tasks.size) (hfin : state.isFinished) (v : Value) :
    ((r.conclude t state v).standingAt t).state.isFinished := by
  rw [(outcome_conclude ht hfin v).1]
  exact hfin

theorem upholds_carry (r : Roster) (parent : TaskId) : r.Upholds (r.carry parent) :=
  (upholds_add r rfl).trans (.of_eq rfl rfl rfl)

theorem upholds_launch (r : Roster) (parent : TaskId) : r.Upholds (r.launch parent) :=
  (upholds_carry r parent).trans (.of_eq rfl rfl rfl)

theorem upholds_load {m : ModuleId} (hm : r.modules.get? m = none) (parent : TaskId) : r.Upholds (r.load m parent) :=
  (upholds_start r rfl).trans (upholds_setModule (.inl hm))

end Roster

namespace Machine

namespace View

variable {v v' : View} {rest : List RemoteLink} {known : TaskId → Prop}

theorem Stirs.upholds {a : Prop} {new : List TaskId} (h : v.Stirs a new v') : v.roster.Upholds v'.roster := by
  cases h with
  | still => exact .refl _
  | call _ => exact Roster.upholds_start v.roster rfl
  | background _ _ _ => exact Roster.upholds_launch v.roster _
  | spawn _ _ => exact Roster.upholds_carry v.roster _

theorem Stirs.new_lt {a : Prop} {new : List TaskId} (h : v.Stirs a new v') :
    ∀ t ∈ new, t.index < v'.roster.tasks.size := by
  cases h with
  | still => simp
  | _ => simp [Roster.start, Roster.launch, Roster.carry, Roster.add, Roster.enqueue, Roster.next]

/-- A task that waits has only made others and waits. -/
theorem Parks.upholds (h : v.Parks known v') (hun : v.Unfinished) (hlt : v.task.index < v.roster.tasks.size) :
    v.roster.Upholds v'.roster ∧ v'.roster.Waits v.task := by
  have hadd : ∀ s : Standing, v.task.index < (v.roster.add s).tasks.size := fun s => by
    rw [Roster.add, Array.size_push]
    exact Nat.lt_succ_of_lt hlt
  cases h with
  | call delivery =>
      have hun' : ¬ ((v.roster.start { parent := some v.task }).standingAt v.task).state.isFinished :=
        unfinished_add (r := v.roster) (.inl rfl) hun
      have hnew := Roster.upholds_start (s := { parent := some v.task }) v.roster rfl
      exact ⟨hnew.trans (Roster.upholds_await hun' _ delivery .onCall), Roster.waits_await (hadd _) delivery .onCall⟩
  | background call delivery _ _ =>
      have hun' : ¬ ((v.roster.launch v.task).standingAt v.task).state.isFinished :=
        unfinished_add (r := v.roster) (.inr rfl) hun
      have hnew := Roster.upholds_launch v.roster v.task
      exact ⟨hnew.trans (Roster.upholds_await hun' _ delivery .onFuture), Roster.waits_await (hadd _) delivery .onFuture⟩
  | wait y _ _ => exact ⟨Roster.upholds_await hun y .result .onFuture, Roster.waits_await hlt .result .onFuture⟩
  | join m y _ _ => exact ⟨Roster.upholds_await hun y .keep .onCall, Roster.waits_await hlt .keep .onCall⟩
  | load m hm =>
      have hun' : ¬ ((v.roster.load m v.task).standingAt v.task).state.isFinished :=
        unfinished_add (r := v.roster) (.inl rfl) hun
      have hnew := Roster.upholds_load hm v.task
      exact ⟨hnew.trans (Roster.upholds_await hun' _ .keep .onCall), Roster.waits_await (hadd _) .keep .onCall⟩

/-- The tasks whose background calls are settled come to their end. -/
theorem Settles.tidy {ts : List TaskId} (h : v.Settles ts v') (hv : v.Tidy (ts.map (⟨v.id, ·⟩) ++ rest) none) :
    v'.Tidy rest none ∧ v.Spares v' ∧ v.roster.Upholds v'.roster ∧
      ∀ t ∈ ts, (v'.roster.standingAt t).state.isFinished := by
  induction h with
  | nil v => exact ⟨hv, .refl v, .refl _, by simp⟩
  | @cons v v' t ts state result hremote hreach _ ih =>
      have hin : ({ v with task := t, roster := { v.roster with inFlight := v.roster.inFlight - 1 } } : View).Tidy
          (⟨v.id, t⟩ :: (ts.map (⟨v.id, ·⟩) ++ rest)) none :=
        ⟨hv.ordered.congr rfl rfl rfl rfl, hv.staffed, hv.fledglings⟩
      obtain ⟨s, hs, hwaiting⟩ := (hv.ordered.parked t).1 (List.mem_append_right _ (mem_due.2 (by simp)))
      have hlt := Roster.index_lt_of_at? hs
      have hun : ¬ (v.roster.standingAt t).state.isFinished := by
        simp [Roster.standingAt_of_at? hs, hwaiting, TaskState.isFinished]
      obtain ⟨hend, hspares⟩ := Tidy.settle (v := { v with
        task := t
        roster := { v.roster with inFlight := v.roster.inFlight - 1 } }) hin hremote hreach.isFinished result
      obtain ⟨htidy, hspares', hupholds', hfin⟩ := ih hend
      have hlanded : v.roster.Upholds { v.roster with inFlight := v.roster.inFlight - 1 } := .of_eq rfl rfl rfl
      have hupholds := hlanded.trans (Roster.upholds_conclude
        (r := { v.roster with inFlight := v.roster.inFlight - 1 }) hun state result)
      have hself : v.Spares { v with task := t, roster := { v.roster with inFlight := v.roster.inFlight - 1 } } :=
        spares_of_perm rfl (.refl _)
      refine ⟨htidy, (hself.trans hspares).trans hspares', hupholds.trans hupholds', fun x hx => ?_⟩
      rcases List.mem_cons.1 hx with rfl | hx
      · exact hupholds'.isFinished (Roster.isFinished_conclude
          (r := { v.roster with inFlight := v.roster.inFlight - 1 }) hlt hreach.isFinished result)
      · exact hfin x hx

end View

variable {m m₁ m₂ m' : Machine} {rest : List RemoteLink} {cur : Option TaskId} {g : Outlook}

/-- All tasks are in their places, and no future refers to a task that is not there. -/
structure Tidy (rest : List RemoteLink) (cur : Option TaskId) (m : Machine) : Prop where
  view : m.view.Tidy rest cur
  futures : m.process.heap.Knows fun y => y.index < m.view.roster.tasks.size

/-- What is pledged to other processes stays so, and no task is lost. -/
structure Proceeds (m m' : Machine) : Prop where
  spares : m.view.Spares m'.view
  upholds : m.view.roster.Upholds m'.view.roster

theorem Proceeds.refl (m : Machine) : m.Proceeds m := ⟨.refl _, .refl _⟩

theorem Proceeds.trans (h : m.Proceeds m₁) (h' : m₁.Proceeds m₂) : m.Proceeds m₂ :=
  ⟨h.spares.trans h'.spares, h.upholds.trans h'.upholds⟩

theorem Becomes.knows {v : View} (h : m.Becomes v m₁) (hm : m.Tidy rest cur) (hupholds : m.view.roster.Upholds v.roster) :
    m₁.process.heap.Knows fun y => y.index < m₁.view.roster.tasks.size := by
  rw [h.view]
  exact (h.futures _ hm.futures).mono fun y hy => Nat.lt_of_lt_of_le hy hupholds.size_le

theorem Steady.tidy (h : m.Steady m₁) (hm : m.Tidy rest cur) : m₁.Tidy rest cur ∧ m.Proceeds m₁ := by
  refine ⟨⟨h.view ▸ hm.view, h.becomes.knows hm (.refl _)⟩, ?_, ?_⟩
  · rw [h.view]
    exact .refl _
  · rw [h.view]
    exact .refl _

theorem Stirs.tidy (h : m.Stirs m₁) (hm : m.Tidy rest (some m.task)) : m₁.Tidy rest (some m₁.task) ∧ m.Proceeds m₁ := by
  obtain ⟨new, hview, hfut⟩ := h.view
  obtain ⟨htidy, hspares⟩ := hview.tidy hm.view
  refine ⟨⟨htidy, hfut _ ?_ hview.new_lt⟩, hspares, hview.upholds⟩
  exact hm.futures.mono fun y hy => Nat.lt_of_lt_of_le hy hview.upholds.size_le

theorem tidy_stirs (h : Relation.ReflTransGen Stirs m m₁) (hm : m.Tidy rest (some m.task)) :
    m₁.Tidy rest (some m₁.task) ∧ m.Proceeds m₁ := by
  induction h with
  | refl => exact ⟨hm, .refl m⟩
  | tail _ hs ih =>
      obtain ⟨htidy, hp⟩ := hs.tidy ih.1
      exact ⟨htidy, ih.2.trans hp⟩

theorem Tidy.task_lt (hm : m.Tidy rest (some m.task)) : m.task.index < m.view.roster.tasks.size := by
  obtain ⟨s, hs, _⟩ := hm.view.ordered.inHand m.task rfl
  exact Roster.index_lt_of_at? hs

theorem tidy_wake (h : m.Becomes { m.view with roster := m.view.roster.update m.task Standing.wake } m₁)
    (hm : m.Tidy rest (some m.task)) (hun : ¬ m.current.state.isFinished) :
    m₁.Tidy rest (some m₁.task) ∧ m.Proceeds m₁ := by
  obtain ⟨htidy, hspares⟩ := hm.view.wake (unfinished_view.2 hun)
  have htask : m₁.task = m.task := congrArg View.task h.view
  have hupholds : m.view.roster.Upholds (m.view.roster.update m.task Standing.wake) :=
    Roster.upholds_update_unfinished (unfinished_view.2 hun) (fun _ => rfl) (fun _ => rfl) fun _ => rfl
  refine ⟨⟨?_, h.knows hm hupholds⟩, ?_, ?_⟩
  · rw [h.view, htask]
    exact htidy
  · rw [h.view]
    exact hspares
  · rw [h.view]
    exact hupholds

/-- A task that has had its turn waits, or has come to its end. -/
theorem Turn.tidy (h : m.Turn m') (hm : m.Tidy rest (some m.task)) (hun : ¬ m.current.state.isFinished) :
    m'.Tidy rest none ∧ m.Proceeds m' ∧
      (m'.view.roster.Waits m.task ∨ (m'.view.roster.standingAt m.task).state.isFinished) := by
  cases h with
  | @parks m₁ m₂ hwake hs hp =>
      obtain ⟨h₁, hp₁⟩ := tidy_wake hwake hm hun
      obtain ⟨h₂, hp₂⟩ := tidy_stirs hs h₁
      have htask : m₂.task = m.task := (frame_stirs hs).1.trans (congrArg View.task hwake.view)
      have hun₂ := unfinished_view.2 (unfinished_stirs hs (hwake.unfinished hun))
      obtain ⟨htidy, hspares⟩ := hp.view.tidy h₂.view hun₂ fun y hy => hy _ h₂.futures
      obtain ⟨hupholds, hwaits⟩ := hp.view.upholds hun₂ h₂.task_lt
      refine ⟨⟨htidy, ?_⟩, (hp₁.trans hp₂).trans ⟨hspares, hupholds⟩, .inl (htask ▸ hwaits)⟩
      exact (hp.futures _ h₂.futures).mono fun y hy => Nat.lt_of_lt_of_le hy hupholds.size_le
  | @ends m₁ m₂ state result hwake hs hreach hend =>
      obtain ⟨h₁, hp₁⟩ := tidy_wake hwake hm hun
      obtain ⟨h₂, hp₂⟩ := tidy_stirs hs h₁
      have htask : m₂.task = m.task := (frame_stirs hs).1.trans (congrArg View.task hwake.view)
      have hun₂ := unfinished_view.2 (unfinished_stirs hs (hwake.unfinished hun))
      obtain ⟨htidy, hspares⟩ := h₂.view.conclude hun₂ hreach
      have hupholds : m₂.view.roster.Upholds (m₂.view.roster.conclude m₂.task state result) :=
        Roster.upholds_conclude hun₂ state result
      have hfin := Roster.isFinished_conclude h₂.task_lt hreach.isFinished result
      refine ⟨⟨hend.view ▸ htidy, hend.knows h₂ hupholds⟩, (hp₁.trans hp₂).trans ⟨?_, ?_⟩, .inr ?_⟩
      · rw [hend.view]
        exact hspares
      · rw [hend.view]
        exact hupholds
      · rw [hend.view, ← htask]
        exact hfin

theorem tidy_settleAll (hm : m.Inv g none []) (ht : m.Tidy rest none) :
    (settleAll m).2.Tidy rest none ∧ m.Proceeds (settleAll m).2 ∧
      ∀ t ∈ m.view.roster.completions, ((settleAll m).2.view.roster.standingAt t).state.isFinished := by
  obtain ⟨v', hs, hb⟩ := settles_settleAll hm
  obtain ⟨h₀, hspares₀⟩ := ht.view.takeBack
  obtain ⟨htidy, hspares, hupholds, hfin⟩ := hs.tidy h₀
  have htaken : m.view.roster.Upholds { m.view.roster with completions := [] } := .of_eq rfl rfl rfl
  have hupholds := htaken.trans hupholds
  refine ⟨⟨hb.view ▸ htidy, hb.knows ht hupholds⟩, ⟨?_, ?_⟩, ?_⟩
  · rw [hb.view]
    exact hspares₀.trans hspares
  · rw [hb.view]
    exact hupholds
  · rw [hb.view]
    exact hfin

/-- The task that has its turn in the next round. -/
def next? (m : Machine) : Option TaskId := (settleAll m).2.process.queue.pop?.map Prod.fst

/-- The first task of the queue is taken in hand. -/
theorem Tidy.dequeue (hm : m.Tidy rest none) {t : TaskId} {queue : Fifo TaskId}
    (hq : m.process.queue.pop? = some (t, queue)) :
    ({ m with process := { m.process with queue }, task := t } : Machine).Tidy rest (some t) ∧
      m.Proceeds { m with process := { m.process with queue }, task := t } ∧
      ¬ (m.view.roster.standingAt t).state.isFinished := by
  have hlist : m.view.roster.queue = t :: queue.toList := Fifo.toList_of_pop? hq
  refine ⟨⟨⟨hm.view.ordered.dequeue hlist, hm.view.staffed, hm.view.fledglings⟩, hm.futures⟩,
    ⟨View.spares_of_perm rfl (.refl _), .of_eq rfl rfl rfl⟩, ?_⟩
  obtain ⟨⟨s, hs, hstate⟩, _⟩ := hm.view.ordered.queued t (by simp [hlist])
  rw [Roster.standingAt_of_at? hs]
  rcases hstate with h | h <;> simp [h, TaskState.isFinished]

/-- What a round does once everything that has come back is settled: the task that has its turn waits, or has come to its
end. -/
theorem Rounds.tidy (h : m.Rounds m') (hm : (settleAll m).2.Tidy rest none) :
    m'.Tidy rest none ∧ (settleAll m).2.Proceeds m' ∧ ∀ t, m.next? = some t →
      ¬ ((settleAll m).2.view.roster.standingAt t).state.isFinished ∧
        (m'.view.roster.Waits t ∨ (m'.view.roster.standingAt t).state.isFinished) := by
  cases h with
  | rests hq hs _ =>
      obtain ⟨htidy, hp⟩ := hs.tidy hm
      exact ⟨htidy, hp, fun t hnext => by simp [next?, hq] at hnext⟩
  | @turns t queue m₁ hq hturn hs _ =>
      obtain ⟨h₁, hp₁, hun⟩ := hm.dequeue hq
      have hcur : ¬ ({ (settleAll m).2 with
          process := { (settleAll m).2.process with queue }
          task := t } : Machine).current.state.isFinished := unfinished_view.1 hun
      obtain ⟨h₂, hp₂, hstop⟩ := hturn.tidy h₁ hcur
      obtain ⟨h₃, hp₃⟩ := hs.tidy h₂
      refine ⟨h₃, hp₁.trans (hp₂.trans hp₃), fun x hnext => ?_⟩
      have hx : t = x := by simpa [next?, hq] using hnext
      subst hx
      rw [hs.view]
      exact ⟨hun, hstop⟩

/-- After a round all tasks are in their places. Those whose background calls have come back have come to their end,
and the one that has had its turn waits or has come to its end. -/
theorem tidy_tick (hm : m.Inv g none []) (ht : m.Tidy rest none) {fuel : Nat} (h : tick fuel m = some m') :
    m'.Tidy rest none ∧ m.Proceeds m' ∧
      (∀ t ∈ m.view.roster.completions, (m'.view.roster.standingAt t).state.isFinished) ∧
      ∀ t, m.next? = some t → t ∉ m.view.roster.completions ∧ ¬ (m.view.roster.standingAt t).state.isFinished ∧
        (m'.view.roster.Waits t ∨ (m'.view.roster.standingAt t).state.isFinished) := by
  obtain ⟨h₁, hp₁, hfin⟩ := tidy_settleAll hm ht
  obtain ⟨htidy, hp, hstop⟩ := (rounds_tick hm h).tidy h₁
  refine ⟨htidy, hp₁.trans hp, fun t ht => hp.upholds.isFinished (hfin t ht), fun t hnext => ?_⟩
  obtain ⟨hun, hends⟩ := hstop t hnext
  exact ⟨fun hmem => hun (hfin t hmem), fun h => hun (hp₁.upholds.isFinished h), hends⟩

end Machine

end Spool
