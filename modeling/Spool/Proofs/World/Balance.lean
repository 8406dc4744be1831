import Mathlib.Data.Set.Card
import Spool.Proofs.World.Children
import Spool.Proofs.World.Watched

/-!
# Roots are balanced

The roots of an object are counted, and a count can be told from what goes on in the process: an object has one root
for each reflection that it is, one for each time a background call holds it that has not been settled, and one if it
is a result that another process has yet to get. So an object loses its last root when the last of its owners goes.
-/

namespace Spool

theorem ncard_eq_length {α : Type} {s : Set α} {l : List α} (hl : l.Nodup) (hs : ∀ x, x ∈ l ↔ x ∈ s) :
    s.ncard = l.length := by
  classical
  have hset : s = ↑l.toFinset := by
    ext x
    simp [hs]
  rw [hset, Set.ncard_coe_finset, List.toFinset_card_of_nodup hl]

/-- As many entries hold a value as keys are bound to it. -/
theorem Bindings.Distinct.count_values {κ ν : Type} [DecidableEq κ] [DecidableEq ν] {b : Bindings κ ν} (hb : b.Distinct)
    (v : ν) : b.values.count v = { k | b.get? k = some v }.ncard := by
  have hkeys : ((b.entries.filter fun e => e.2 = v).map Prod.fst).Nodup := hb.sublist (List.filter_sublist.map Prod.fst)
  have hmem : ∀ k, k ∈ (b.entries.filter fun e => e.2 = v).map Prod.fst ↔ b.get? k = some v := by
    intro k
    simp only [List.mem_map, List.mem_filter, decide_eq_true_eq]
    constructor
    · rintro ⟨⟨k, w⟩, ⟨hw, rfl⟩, rfl⟩
      exact find_of_mem hb hw
    · exact fun h => ⟨(k, v), ⟨mem_of_find h, rfl⟩, rfl⟩
  rw [ncard_eq_length (s := { k | b.get? k = some v }) hkeys hmem, List.length_map, Bindings.values, List.count_eq_countP, List.countP_map,
    List.countP_eq_length_filter]
  congr 2

theorem Value.handle?_eq_some {v : Value} {r : Handle} : v.handle? = some r ↔ v = .object r := by
  cases v <;> simp [handle?]

theorem nodup_of_due {A : List RemoteLink} (h : ∀ link ∈ A, (due link.process A).Nodup) : A.Nodup := by
  rw [List.nodup_iff_count_le_one]
  intro link
  by_cases hlink : link ∈ A
  · have hown : (A.filter fun x => x.process = link.process).Nodup := (h link hlink).of_map _
    rw [← List.count_filter (p := fun x => x.process = link.process) (by simp)]
    exact List.nodup_iff_count_le_one.1 hown link
  · rw [List.count_eq_zero_of_not_mem hlink]
    exact Nat.zero_le 1

namespace World

variable {w : World} {id : ProcessId} {p : Process}

/-! ## Results that are on their way -/

/-- The task is finished, and another process waits for its result and has not got it. -/
def Unsent (w : World) (p : Process) (t : TaskId) : Prop :=
  (p.taskAt t).state.isFinished ∧ ∃ link, (p.taskAt t).remote = some link ∧ ¬ w.Answered link

/-- Nothing is pledged twice. -/
theorem Orderly.nodup_pledges (ho : w.Orderly []) (hw : w.Inv) : w.pledges.Nodup := by
  refine nodup_of_due fun link hlink => ?_
  obtain ⟨p, hp⟩ := (hw.has_of_pledges hlink).get?
  obtain ⟨hmem, hid, _⟩ := hw.get? hp
  have hplaces := (ho.ordered p hmem).places
  rw [hid, List.append_nil] at hplaces
  exact (hplaces.of_append_right).of_append_right

theorem Orderly.nodup_outgoing (ho : w.Orderly []) (hw : w.Inv) (hp : p ∈ w.processes.items) :
    (p.outgoing.map Outgoing.task).Nodup := by
  have hlinks : (p.outgoing.map Outgoing.link).Sublist w.pledges := by
    refine List.Sublist.trans ?_ (List.sublist_append_right _ _)
    refine List.Sublist.trans ?_ (List.sublist_flatten_of_mem (List.mem_map_of_mem (Array.mem_toList_iff.2 hp)))
    exact (List.sublist_append_right _ _).trans (List.sublist_append_right _ _)
  -- the link of a result is that of its task
  have hremote : (p.outgoing.map Outgoing.link).map some = (p.outgoing.map Outgoing.task).map fun t => (p.taskAt t).remote := by
    rw [List.map_map, List.map_map]
    refine List.map_congr_left fun out hout => ?_
    obtain ⟨task, ht, _, hlink⟩ := (hw.intact p hp).schedule.owing out hout
    exact (by rw [Function.comp, Function.comp, Process.taskAt_of_getElem? ht, hlink])
  refine List.Nodup.of_map (fun t => (p.taskAt t).remote) ?_
  rw [← hremote]
  exact (((ho.nodup_pledges hw).sublist hlinks).map fun _ _ h => Option.some.inj h)

/-- The objects that have yet to be sent are the results in line. -/
theorem Arises.unsent_iff (hw : w.Arises) (hp : w.processes.get? id = some p) {t : TaskId} {r : Handle}
    (hr : (p.taskAt t).register = .object r) : t ∈ p.outgoing.map Outgoing.task ↔ w.Unsent p t := by
  obtain ⟨hmem, hid, _⟩ := hw.inv.get? hp
  rw [List.mem_map]
  constructor
  · rintro ⟨out, hout, rfl⟩
    obtain ⟨task, ht, hfin, hlink⟩ := (hw.inv.intact p hmem).schedule.owing out hout
    rw [← Process.taskAt_of_getElem? ht] at hfin hlink
    exact ⟨hfin, out.link, hlink, fun ha => ha.not_owes hw hp (t := out.task) (.inr hout)⟩
  · rintro ⟨hfin, link, hlink, hopen⟩
    have hrow : p.roster.at? t = some (p.taskAt t).standing :=
      Process.at?_taskAt (Process.index_lt_of_taskAt (P := fun task => task.remote = some link) hlink nofun)
    rcases (hw.loyal id p hp).owes t _ link hrow hlink with (⟨s, hs, _, hpending⟩ | hout) | hserved
    · cases hrow.symm.trans hs
      -- a failure that cannot be handed on is no object
      have hstranded : (p.taskAt t).standing.stranded := by
        simpa [Standing.pending, Task.standing, hfin] using hpending
      have hhollow := (Task.mute_of_stranded hstranded).2
      rw [Task.Hollow, hr] at hhollow
      cases hhollow
    · exact ⟨_, hout, rfl⟩
    · obtain ⟨_, q, hq, hstate⟩ := (hid ▸ hserved).ended hp
      exact absurd ⟨q, hq, hstate ▸ hfin⟩ hopen

/-- A result in line has as many roots for it as there are tasks that have yet to send it. -/
theorem Arises.count_outgoing (hw : w.Arises) (hp : w.processes.get? id = some p) (r : Handle) :
    (p.outgoing.filterMap fun out => (p.taskAt out.task).register.handle?).count r
      = { t | w.Unsent p t ∧ (p.taskAt t).register = .object r }.ncard := by
  obtain ⟨log, hlog⟩ := hw.history
  have hnodup := (hlog.orderly.2.nodup_outgoing hw.inv (hw.inv.get? hp).1).filter
    fun t => (p.taskAt t).register.handle? = some r
  rw [ncard_eq_length (s := { t | w.Unsent p t ∧ (p.taskAt t).register = .object r }) hnodup fun t => ?_]
  · rw [← List.countP_eq_length_filter, List.countP_map, List.count_eq_countP, List.countP_filterMap]
    refine List.countP_congr fun out _ => ?_
    cases hv : (p.taskAt out.task).register.handle? <;> simp [hv]
  · simp only [List.mem_filter, decide_eq_true_eq, Set.mem_ofPred_eq, Value.handle?_eq_some]
    exact and_congr_left (hw.unsent_iff hp)

/-! ## Roots -/

/-- What is held by the background calls of a process that have not been settled, whether the pool has them or they have
come back. -/
def held (w : World) (p : Process) : List Handle :=
  (w.submitted p.id).flatMap BackgroundCall.held ++ p.completions.flatMap Completion.held

/-- Whatever happens in whatever order, the roots of an object are those of its owners: one for each key that it is the
reflection of, one if it is the reflection of the process, one for each time that it is held by a background call that
has not been settled, and one for each finished task whose result it is and has yet to be sent. -/
theorem roots_balanced (hw : w.Arises) (hp : w.processes.get? id = some p) (r : Handle) :
    p.heap.rootCount r = { key | p.heap.reflection? key = some r }.ncard + (if p.reflection = some r then 1 else 0)
      + (w.held p).count r + { t | w.Unsent p t ∧ (p.taskAt t).register = .object r }.ncard := by
  have ha := (hw.inv.intact p (hw.inv.get? hp).1).anchored
  have hrooted : (p.anchors (w.submitted p.id)).count r + 0 = p.heap.rootCount r := ha.rooted r
  have hown : p.reflection.toList.count r = if p.reflection = some r then 1 else 0 := by
    cases p.reflection with
    | none => rfl
    | some x => simp [List.count_singleton]
  rw [Process.count_anchors, hw.count_outgoing hp r, ha.keys.count_values, hown] at hrooted
  rw [held, List.count_append, ← hrooted]
  change _ = { key | p.heap.reflections.get? key = some r }.ncard + _ + _ + _
  omega

/-- A program that has a background call give back the module that it comes from. -/
def returning : CompiledModule :=
  { name := "returning"
    tape := { instructions :=
      #[⟨.loadModule, .name "host"⟩, ⟨.memberPush, .name "echo"⟩, ⟨.call, .none⟩, ⟨.ret, .none⟩] } }

def borrowing : World :=
  let w := (register returning {}).2
  (startMain "returning" { w with host := { w.host with registry := w.host.registry.addHostModule } }).2

/-- The call is with the pool. -/
def borrowed : World := (play 20 (fun _ => true) (.replicate 4 (.tick ⟨1⟩)) borrowing).get (by decide +kernel)

/-- The reflection of the module, which is held by the call besides, has two roots. -/
theorem roots_balanced_borrowed : ∃ p, borrowed.processes.get? ⟨1⟩ = some p ∧ p.heap.rootCount ⟨3, 0⟩ = 2 ∧
    (borrowed.held p).count ⟨3, 0⟩ = 1 ∧
    p.heap.rootCount ⟨3, 0⟩ = { key | p.heap.reflection? key = some ⟨3, 0⟩ }.ncard
      + (if p.reflection = some ⟨3, 0⟩ then 1 else 0) + (borrowed.held p).count ⟨3, 0⟩
      + { t | borrowed.Unsent p t ∧ (p.taskAt t).register = .object ⟨3, 0⟩ }.ncard := by
  have hborrowing : borrowing.Arises := ((Arises.create (r := {}) rfl).register returning).addHostModule.startMain "returning"
  have hborrowed : borrowed.Arises := hborrowing.play (Option.some_get _).symm
  have hrun : (borrowed.processes.get? ⟨1⟩).any (fun p => p.heap.rootCount ⟨3, 0⟩ = 2 ∧ (borrowed.held p).count ⟨3, 0⟩ = 1) := by
    decide +kernel
  obtain ⟨p, hp, hcounts⟩ := (Option.any_eq_true _ _).1 hrun
  obtain ⟨hroots, hheld⟩ := of_decide_eq_true hcounts
  exact ⟨p, hp, hroots, hheld, roots_balanced hborrowed hp ⟨3, 0⟩⟩

end World

end Spool
