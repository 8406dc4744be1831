import Spool.Proofs.Machine.Rounds
import Spool.Proofs.Machine.Sturdy
import Spool.Proofs.Process.Outcomes

/-!
# Tickets

A task that waits has a ticket: it says whom the task waits for, what it gets from it, where it goes on and with what in
its register. Whatever other tasks do, the ticket stays good until the awaited task has ended. Then the holder is in the
queue with what the ticket promises, or with an error to handle; or it has failed, if the error was no object.
-/

namespace Spool

structure Ticket where
  holder : TaskId
  awaited : TaskId
  delivery : Delivery
  /-- The innermost context of the holder. -/
  top : ContextId
  /-- Where the holder goes on. -/
  position : Nat
  register : Value

/-- What the holder has in its register when the awaited task has come to this result. -/
def Ticket.value (k : Ticket) (result : Value) : Value :=
  match k.delivery with
  | .result => result
  | .keep => k.register

/-- The holder stands where it is to go on. -/
structure Ticket.Poised (k : Ticket) (p : Process) (error : Option Handle) (register : Value) : Prop where
  top : (p.taskAt k.holder).top? = some k.top
  position : (p.contextAt k.top).cursor = k.position
  error : (p.contextAt k.top).error = error
  register : (p.taskAt k.holder).register = register

/-- The holder waits. -/
structure Ticket.Pending (k : Ticket) (p : Process) : Prop where
  poised : k.Poised p none k.register
  listed : ⟨k.holder, k.delivery⟩ ∈ (p.taskAt k.awaited).dependents

/-- The awaited task has ended, and the holder has yet to run. -/
inductive Ticket.Redeemed (k : Ticket) (p : Process) : Prop where
  | paid : (p.taskAt k.awaited).state = .complete → k.holder ∈ p.queue.toList →
      k.Poised p none (k.value (p.taskAt k.awaited).register) → Redeemed k p
  | refused (e : Handle) : (p.taskAt k.awaited).state = .error → (p.taskAt k.awaited).register = .object e →
      k.holder ∈ p.queue.toList → k.Poised p (some e) k.register → Redeemed k p
  | lost : (p.taskAt k.awaited).state = .error → (p.taskAt k.awaited).Hollow → (p.taskAt k.holder).state.isFinished →
      (p.taskAt k.holder).register = (p.taskAt k.awaited).register → Redeemed k p

def Ticket.Honoured (k : Ticket) (p : Process) : Prop := k.Pending p ∨ k.Redeemed p

namespace Process

variable {p p' q : Process} {t x : TaskId} {c : ContextId} {d : Dependent} {failed : Bool} {v : Value}

/-! ## Tasks that are passed over -/

/-- Nothing has happened to a task or its contexts. -/
structure Omits (x : TaskId) (p p' : Process) : Prop extends Skips x p p' where
  rests : Rests x p p'

theorem Omits.refl (x : TaskId) (p : Process) : Omits x p p := ⟨.refl x p, .refl x p⟩

theorem Omits.trans (h : Omits x p q) (h' : Omits x q p') : Omits x p p' :=
  ⟨h.toSkips.trans h'.toSkips, h.rests.trans h'.rests⟩

theorem rests_wake (p : Process) (t : TaskId) : Rests x p (p.wake t) := by
  unfold wake
  split
  · exact .refl x p
  · exact ⟨(rests_modifyTask p t (f := fun t => { t with state := .running, reason := .notWaiting }) fun _ => rfl).contexts,
      fun _ _ => rfl⟩

theorem omits_deliver (ha : p.Arena []) (hd : d.task ≠ x) (failed : Bool) (v : Value) :
    Omits x p (p.deliver failed v d) := by
  refine ⟨skips_deliver hd p failed v, ?_⟩
  unfold deliver deliverError
  split
  · exact .refl x p
  · split
    · split
      · rename_i c e htop
        exact (rests_modifyContext_ne p (ha.disjoint hd.symm (mem_of_top? htop)) _).trans (rests_wake _ d.task)
      · exact rests_modifyTask_ne p hd.symm _
    · split
      · exact (rests_modifyTask_ne p hd.symm _).trans (rests_wake _ d.task)
      · exact rests_wake p d.task

theorem omits_deliverAll (failed : Bool) (v : Value) (ds : List Dependent) : ∀ {p : Process}, p.Arena [] →
    x ∉ ds.map Dependent.task → Omits x p (ds.foldl (fun q d => q.deliver failed v d) p) := by
  induction ds with
  | nil => exact fun _ _ => .refl x _
  | cons d rest ih =>
      intro p ha hx
      rw [List.map_cons, List.mem_cons, not_or] at hx
      exact (omits_deliver ha (Ne.symm hx.1) failed v).trans (ih (ha.deliver failed v d) hx.2)

theorem rests_releaseAll (cs : List ContextId) : ∀ p : Process, (∀ c ∈ cs, c ∉ (p.taskAt x).contexts) →
    Rests x p (cs.foldl releaseContext p) := by
  induction cs with
  | nil => exact fun p _ => .refl x p
  | cons c rest ih =>
      intro p hcs
      have hfirst := rests_releaseContext p (hcs c List.mem_cons_self)
      refine hfirst.trans (ih _ fun d hd => ?_)
      rw [hfirst.contexts]
      exact hcs d (List.mem_cons_of_mem c hd)

theorem omits_clear (ha : p.Arena []) (ht : t ≠ x) : Omits x p (p.clear t) := by
  refine ⟨skips_clear ht p, ?_⟩
  have hlist : Rests x p (p.unlist t) :=
    ⟨(rests_modifyTask_ne p ht.symm fun t => { t with dependents := [], initializes := none }).contexts, fun _ _ => rfl⟩
  have hbare := rests_modifyTask_ne (p.unlist t) ht.symm fun t => { t with contexts := [] }
  have hcontexts : ((p.unlist t).taskAt t).contexts = (p.taskAt t).contexts := by
    change ((p.modifyTask t _).taskAt t).contexts = _
    rw [taskAt_modifyTask]
    split <;> rfl
  refine (hlist.trans hbare).trans (rests_releaseAll _ _ fun c hc => ?_)
  rw [(hlist.trans hbare).contexts]
  exact ha.disjoint ht.symm (hcontexts ▸ hc)

/-- Who does not wait for a task has nothing to do with its end. -/
theorem omits_finish (ha : p.Arena []) (ht : t ≠ x) (hx : x ∉ (p.taskAt t).dependents.map Dependent.task) :
    Omits x p (p.finish t) := by
  rw [finish_eq]
  exact (omits_clear ha ht).trans (omits_deliverAll _ _ _ (ha.clear t) hx)

/-- Who waits for a task is told once of its end, and that is all. -/
theorem finish_split (ha : p.Arena []) (hd : d ∈ (p.taskAt t).dependents) (ht : t ≠ d.task)
    (hn : ((p.taskAt t).dependents.map Dependent.task).Nodup) : ∃ q : Process, q.Arena [] ∧ Omits d.task p q ∧
      Omits d.task (q.deliver ((p.taskAt t).state = .error) (p.taskAt t).register d) (p.finish t) := by
  obtain ⟨before, after, hds⟩ := List.append_of_mem hd
  rw [hds, List.map_append, List.map_cons] at hn
  obtain ⟨_, hafter, hbefore⟩ := List.nodup_append.1 hn
  have hall : ∀ (ds : List Dependent) (q : Process), q.Arena [] → (ds.foldl
      (fun q d => q.deliver ((p.taskAt t).state = .error) (p.taskAt t).register d) q).Arena [] := by
    intro ds
    induction ds with
    | nil => exact fun _ hq => hq
    | cons d rest ih => exact fun q hq => ih _ (hq.deliver _ _ d)
  have hq := hall before _ (ha.clear t)
  refine ⟨_, hq, (omits_clear ha ht).trans (omits_deliverAll _ _ before (ha.clear t) fun h => ?_), ?_⟩
  · exact hbefore _ h _ List.mem_cons_self rfl
  · rw [finish_eq, hds, List.foldl_append, List.foldl_cons]
    exact omits_deliverAll _ _ after (hq.deliver _ _ d) (List.nodup_cons.1 hafter).1

theorem dependents_finish (ht : t ≠ x) (p : Process) : ((p.finish t).taskAt x).dependents = (p.taskAt x).dependents := by
  have hall : ∀ (ds : List Dependent) (q : Process), ((ds.foldl (fun q d =>
      q.deliver ((p.taskAt t).state = .error) (p.taskAt t).register d) q).taskAt x).dependents
        = (q.taskAt x).dependents := by
    intro ds
    induction ds with
    | nil => exact fun _ => rfl
    | cons d rest ih => exact fun q => (ih _).trans (field_deliver (g := Task.dependents) (fun _ _ _ _ => rfl) q _ _ d x)
  rw [finish_eq, hall, (skips_clear ht p).task]

theorem taskAt_clear_self (p : Process) (t : TaskId) : (p.clear t).taskAt t = (p.taskAt t).cleared := by
  have hget := getElem?_clear p t t
  rw [if_pos rfl] at hget
  cases ht : p.tasks[t.index]? with
  | none =>
      rw [ht] at hget
      simp only [taskAt, Array.getD_eq_getD_getElem?, hget, ht]
      rfl
  | some task =>
      rw [ht] at hget
      rw [taskAt_of_getElem? hget, taskAt_of_getElem? ht]

/-- The task itself is not told. -/
theorem taskAt_finish_self (ha : p.Arena []) (ht : t ∉ (p.taskAt t).dependents.map Dependent.task) :
    (p.finish t).taskAt t = (p.taskAt t).cleared := by
  rw [finish_eq, (omits_deliverAll _ _ _ (ha.clear t) ht).task, taskAt_clear_self]

/-! ## Places -/

section
variable {cur : Option TaskId} {K : TaskId → Prop} {y z : TaskId} (hs : p.Schedule cur K [])
include hs

omit hs in
theorem mem_waiters (hd : d ∈ (p.taskAt y).dependents) : d.task ∈ p.waiters := by
  have hget := getElem?_of_index_lt (index_lt_of_dependents hd)
  exact List.mem_flatMap.2 ⟨p.taskAt y, Array.mem_toList_iff.2 (Array.mem_of_getElem? hget), List.mem_map_of_mem hd⟩

omit hs in
theorem mem_scheduled (hd : d ∈ (p.taskAt y).dependents) : d.task ∈ p.scheduled :=
  List.mem_append_right _ (mem_waiters hd)

theorem Schedule.places : (p.queue.toList ++ p.waiters).Nodup := hs.nodup

theorem Schedule.nodup_dependents (y : TaskId) : ((p.taskAt y).dependents.map Dependent.task).Nodup := by
  by_cases hlt : y.index < p.tasks.size
  · refine (List.nodup_flatMap.1 (List.nodup_append.1 hs.places).2.1).1 _ (Array.mem_toList_iff.2 ?_)
    exact Array.mem_of_getElem? (getElem?_of_index_lt hlt)
  · rw [taskAt_eq_default hlt]
    exact List.nodup_nil

/-- Nobody waits for two tasks. -/
theorem Schedule.not_listed (hd : d ∈ (p.taskAt y).dependents) (hne : y ≠ z) :
    d.task ∉ (p.taskAt z).dependents.map Dependent.task := by
  intro hx
  obtain ⟨e, he, _⟩ := List.mem_map.1 hx
  have hindex : y.index ≠ z.index := fun h => hne (by cases y; cases z; simp_all)
  exact Table.not_mem_of_nodup_flatMap (List.nodup_append.1 hs.places).2.1
    (getElem?_of_index_lt (index_lt_of_dependents hd)) (getElem?_of_index_lt (index_lt_of_dependents he)) hindex
    (List.mem_map_of_mem hd) hx

/-- Nobody in the queue waits. -/
theorem Schedule.not_listed_of_queued (hx : x ∈ p.queue.toList) : x ∉ (p.taskAt z).dependents.map Dependent.task := by
  intro hmem
  obtain ⟨d, hd, rfl⟩ := List.mem_map.1 hmem
  exact (List.nodup_append.1 hs.places).2.2 _ hx _ (mem_waiters hd) rfl

theorem Schedule.not_listed_of_isFinished (hx : (p.taskAt x).state.isFinished) :
    x ∉ (p.taskAt z).dependents.map Dependent.task := by
  intro hmem
  obtain ⟨d, hd, rfl⟩ := List.mem_map.1 hmem
  exact (hs.ready d.task (mem_scheduled hd)).taskAt.1 hx

end

end Process

/-! ## Tickets stay good -/

namespace Ticket

variable {k : Ticket} {p p' q : Process} {t : TaskId} {K : TaskId → Prop} {error : Option Handle} {v register : Value}

theorem Poised.rests (h : k.Poised p error register) (hr : Process.Rests k.holder p p')
    (hv : (p'.taskAt k.holder).register = (p.taskAt k.holder).register) : k.Poised p' error register := by
  have hfoot := hr.still k.top (Process.mem_of_top? h.top)
  refine ⟨?_, (Context.cursor_eq_of_footing hfoot).trans h.position, (Context.error_eq_of_footing hfoot).trans h.error,
    hv.trans h.register⟩
  rw [Task.top?, hr.contexts]
  exact h.top

theorem Poised.omits (h : k.Poised p error register) (hp : Process.Omits k.holder p p') : k.Poised p' error register :=
  h.rests hp.rests (congrArg Task.register hp.task)

theorem Pending.keeps (hk : k.Pending p) (h : p.Keeps t p') (ht : k.holder ≠ t) : k.Pending p' := by
  obtain ⟨hrest, hregister, _⟩ := h.others k.holder ht (Process.index_lt_of_top? hk.poised.top)
  exact ⟨hk.poised.rests hrest hregister, h.dependents _ _ hk.listed⟩

theorem Redeemed.keeps (hk : k.Redeemed p) (h : p.Keeps t p') (ht : k.holder ≠ t) (ha : k.awaited ≠ t) : k.Redeemed p' := by
  have hawaited : (p.taskAt k.awaited).state.isFinished → (p'.taskAt k.awaited).register = (p.taskAt k.awaited).register ∧
      (p'.taskAt k.awaited).state = (p.taskAt k.awaited).state := fun hfin =>
    (h.others k.awaited ha (Process.index_lt_of_isFinished hfin)).2
  cases hk with
  | paid hstate hq hpoised =>
      obtain ⟨hregister, hstate'⟩ := hawaited (by rw [hstate]; rfl)
      obtain ⟨hrest, hv, _⟩ := h.others k.holder ht (Process.index_lt_of_top? hpoised.top)
      refine .paid (hstate'.trans hstate) (h.queued _ hq) ?_
      rw [hregister]
      exact hpoised.rests hrest hv
  | refused e hstate hobject hq hpoised =>
      obtain ⟨hregister, hstate'⟩ := hawaited (by rw [hstate]; rfl)
      obtain ⟨hrest, hv, _⟩ := h.others k.holder ht (Process.index_lt_of_top? hpoised.top)
      exact .refused e (hstate'.trans hstate) (hregister.trans hobject) (h.queued _ hq) (hpoised.rests hrest hv)
  | lost hstate hhollow hfin hlost =>
      obtain ⟨hregister, hstate'⟩ := hawaited (by rw [hstate]; rfl)
      obtain ⟨_, hv, hs⟩ := h.others k.holder ht (Process.index_lt_of_isFinished hfin)
      refine .lost (hstate'.trans hstate) ?_ (hs ▸ hfin) ?_
      · rw [Task.Hollow, hregister]
        exact hhollow
      · rw [hv, hregister]
        exact hlost

theorem Poised.wake (h : k.Poised q error register) : k.Poised (q.wake k.holder) error register :=
  h.rests (Process.rests_wake q k.holder) (Process.register_wake q k.holder k.holder)

theorem Poised.setError (h : k.Poised q error register) (hq : q.Arena []) (e : Handle) :
    k.Poised (q.modifyContext k.top fun c => { c with error := some e }) (some e) register := by
  have hinside := hq.index_lt (Process.mem_of_top? h.top)
  have hat := Process.contextAt_modifyContext q k.top (fun c => { c with error := some e }) k.top
  rw [if_pos ⟨rfl, hinside⟩] at hat
  refine ⟨h.top, ?_, ?_, h.register⟩
  · rw [hat]
    exact h.position
  · rw [hat]

theorem Poised.setRegister (h : k.Poised q error register) (v : Value) :
    k.Poised (q.modifyTask k.holder fun t => { t with register := v }) error v := by
  have hat := Process.taskAt_modifyTask q k.holder (fun t => { t with register := v }) k.holder
  rw [if_pos ⟨rfl, Process.index_lt_of_top? h.top⟩] at hat
  refine ⟨?_, h.position, h.error, ?_⟩
  · rw [hat]
    exact h.top
  · rw [hat]

/-- The holder is told of the end of the awaited task. -/
theorem Poised.deliver (h : k.Poised q none k.register) (hq : q.Arena [])
    (hun : ¬ (q.taskAt k.holder).state.isFinished) {state : TaskState} (hstate : state = .complete ∨ state = .error)
    {q' : Process} (hq' : q' = q.deliver (state = .error) v ⟨k.holder, k.delivery⟩) :
    (state = .complete ∧ k.holder ∈ q'.queue.toList ∧ k.Poised q' none (k.value v)) ∨
    (∃ e, state = .error ∧ v = .object e ∧ k.holder ∈ q'.queue.toList ∧ k.Poised q' (some e) k.register) ∨
    (state = .error ∧ v.handle? = none ∧ (q'.taskAt k.holder).state.isFinished ∧
      (q'.taskAt k.holder).register = v) := by
  have hlt := Process.index_lt_of_top? h.top
  have hcs : (q.taskAt k.holder).contexts ≠ [] := List.ne_nil_of_mem (Process.mem_of_top? h.top)
  have hwoken : ∀ q₁ : Process, ¬ (q₁.taskAt k.holder).state.isFinished → k.holder ∈ (q₁.wake k.holder).queue.toList := by
    intro q₁ hun
    rw [Process.wake_eq hun]
    simp
  by_cases htells : state = .error → v.handle?.isSome
  · have htold := Process.deliver_eq (v := v) (d := ⟨k.holder, k.delivery⟩) hun
      fun hf : decide (state = .error) = true => ⟨htells (of_decide_eq_true hf), hcs⟩
    rw [← hq'] at htold
    rcases htold with ⟨hf, c, e, htop, hv, heq⟩ | ⟨hf, hd, heq⟩ | ⟨hf, hd, heq⟩
    · obtain rfl : k.top = c := Option.some.inj (h.top.symm.trans htop)
      rw [heq]
      exact .inr (.inl ⟨e, of_decide_eq_true hf, hv, hwoken _ hun, (h.setError hq e).wake⟩)
    · have hvalue : k.value v = v := by rw [value, show k.delivery = .result from hd]
      rw [heq, hvalue]
      refine .inl ⟨hstate.resolve_right (of_decide_eq_false hf), hwoken _ ?_, (h.setRegister v).wake⟩
      rw [Process.taskAt_modifyTask, if_pos ⟨rfl, hlt⟩]
      exact hun
    · have hvalue : k.value v = k.register := by rw [value, show k.delivery = .keep from hd]
      rw [heq, hvalue]
      exact .inl ⟨hstate.resolve_right (of_decide_eq_false hf), hwoken _ hun, h.wake⟩
  · rw [Classical.not_imp] at htells
    obtain ⟨he, hv⟩ := htells
    rw [Process.deliver_eq_failTask hun (by simp [he]) fun h => hv h.1] at hq'
    refine .inr (.inr ⟨he, by simpa using hv, ?_⟩)
    rw [hq', Process.failTask, Process.taskAt_modifyTask, if_pos ⟨rfl, hlt⟩]
    exact ⟨rfl, rfl⟩

theorem Pending.finish (hk : k.Pending p) (ha : p.Arena []) (hs : p.Schedule (some t) K [])
    (hfin : (p.taskAt t).state.isFinished) : k.Honoured (p.finish t) := by
  have hready := hs.ready k.holder (Process.mem_scheduled hk.listed)
  have hne : t ≠ k.holder := fun h => (hs.running t rfl).2 (h ▸ Process.mem_scheduled hk.listed)
  by_cases hat : k.awaited = t
  · subst hat
    obtain ⟨q, hq, hbefore, hafter⟩ := Process.finish_split ha hk.listed hne (hs.nodup_dependents k.awaited)
    have hself := Process.taskAt_finish_self ha (hs.not_listed_of_isFinished hfin)
    have hstate : (p.taskAt k.awaited).state = .complete ∨ (p.taskAt k.awaited).state = .error := by
      cases h : (p.taskAt k.awaited).state <;> simp_all [TaskState.isFinished]
    have hun : ¬ (q.taskAt k.holder).state.isFinished := hbefore.task ▸ hready.taskAt.1
    rcases (hk.poised.omits hbefore).deliver hq hun hstate rfl with
      ⟨hc, hmem, hpoised⟩ | ⟨e, he, hv, hmem, hpoised⟩ | ⟨he, hv, hend, hlost⟩
    · refine .inr (.paid ?_ (hafter.queued.2 hmem) ?_)
      · rw [hself]
        exact hc
      · rw [hself]
        exact hpoised.omits hafter
    · refine .inr (.refused e ?_ ?_ (hafter.queued.2 hmem) (hpoised.omits hafter))
      · rw [hself]
        exact he
      · rw [hself]
        exact hv
    · refine .inr (.lost ?_ ?_ ?_ ?_)
      · rw [hself]
        exact he
      · rw [hself]
        exact hv
      · rw [hafter.task]
        exact hend
      · rw [hafter.task, hself]
        exact hlost
  · have hpass := Process.omits_finish ha hne (hs.not_listed hk.listed hat)
    refine .inl ⟨hk.poised.omits hpass, ?_⟩
    rw [Process.dependents_finish (Ne.symm hat)]
    exact hk.listed

theorem Redeemed.finish (hk : k.Redeemed p) (ha : p.Arena []) (hs : p.Schedule (some t) K []) (ht : k.holder ≠ t)
    (hne : k.awaited ≠ t) : k.Redeemed (p.finish t) := by
  have hawaited : (p.taskAt k.awaited).state.isFinished → (p.finish t).taskAt k.awaited = p.taskAt k.awaited := fun hfin =>
    (Process.omits_finish ha hne.symm (hs.not_listed_of_isFinished hfin)).task
  cases hk with
  | paid hstate hq hpoised =>
      have hpass := Process.omits_finish ha ht.symm (hs.not_listed_of_queued hq)
      have hsame := hawaited (by rw [hstate]; rfl)
      exact .paid (hsame ▸ hstate) (hpass.queued.2 hq) (hsame ▸ hpoised.omits hpass)
  | refused e hstate hobject hq hpoised =>
      have hpass := Process.omits_finish ha ht.symm (hs.not_listed_of_queued hq)
      have hsame := hawaited (by rw [hstate]; rfl)
      exact .refused e (hsame ▸ hstate) (hsame ▸ hobject) (hpass.queued.2 hq) (hpoised.omits hpass)
  | lost hstate hhollow hfin hlost =>
      have hpass := Process.omits_finish ha ht.symm (hs.not_listed_of_isFinished hfin)
      have hsame := hawaited (by rw [hstate]; rfl)
      refine .lost (hsame ▸ hstate) (hsame ▸ hhollow) (hpass.task ▸ hfin) ?_
      rw [hpass.task, hsame]
      exact hlost

theorem Redeemed.isFinished (hk : k.Redeemed p) : (p.taskAt k.awaited).state.isFinished := by
  cases hk with
  | paid hstate => exact hstate ▸ rfl
  | refused e hstate => exact hstate ▸ rfl
  | lost hstate => exact hstate ▸ rfl

theorem Honoured.keeps (hk : k.Honoured p) (ht : k.holder ≠ t) (hun : ¬ (p.taskAt t).state.isFinished)
    (h : p.Keeps t p') : k.Honoured p' := by
  rcases hk with hk | hk
  · exact .inl (hk.keeps h ht)
  · exact .inr (hk.keeps h ht fun ha => hun (ha ▸ hk.isFinished))

/-- What the rest of the process is to a ticket. -/
theorem Honoured.congr (hk : k.Honoured p) (ht : p'.tasks = p.tasks) (hc : p'.contexts = p.contexts)
    (hq : k.holder ∈ p.queue.toList → k.holder ∈ p'.queue.toList) : k.Honoured p' := by
  have htask : ∀ x, p'.taskAt x = p.taskAt x := fun x => by simp only [Process.taskAt, ht]
  have hcontext : ∀ c, p'.contextAt c = p.contextAt c := fun c => by simp only [Process.contextAt, hc]
  have hpoised : ∀ {error register}, k.Poised p error register → k.Poised p' error register := fun h =>
    ⟨htask _ ▸ h.top, hcontext _ ▸ h.position, hcontext _ ▸ h.error, htask _ ▸ h.register⟩
  rcases hk with hk | hk
  · exact .inl ⟨hpoised hk.poised, htask _ ▸ hk.listed⟩
  · cases hk with
    | paid hstate hmem h => exact .inr (.paid (htask _ ▸ hstate) (hq hmem) (htask k.awaited ▸ hpoised h))
    | refused e hstate hv hmem h => exact .inr (.refused e (htask _ ▸ hstate) (htask _ ▸ hv) (hq hmem) (hpoised h))
    | lost hstate hhollow hfin hlost =>
        refine .inr (.lost (htask _ ▸ hstate) (htask _ ▸ hhollow) (htask _ ▸ hfin) ?_)
        rw [htask, htask]
        exact hlost

theorem Honoured.ne_of_unscheduled (hk : k.Honoured p) (ht : t ∉ p.scheduled) (hun : ¬ (p.taskAt t).state.isFinished) :
    k.holder ≠ t := by
  rintro rfl
  rcases hk with hk | hk
  · exact ht (Process.mem_scheduled hk.listed)
  · cases hk with
    | paid _ hq => exact ht (List.mem_append_left _ hq)
    | refused _ _ _ hq => exact ht (List.mem_append_left _ hq)
    | lost _ _ hfin => exact hun hfin

end Ticket

/-! ## Tasks that end -/

namespace Process

variable {p p' q : Process} {t x : TaskId} {K : TaskId → Prop}

/-- A task has done its last deeds, and those who have waited for it have been told. -/
structure Ends (K : TaskId → Prop) (t : TaskId) (p q p' : Process) : Prop where
  deeds : p.Spares t q
  arena : q.Arena []
  schedule : q.Schedule (some t) K []
  finished : (q.taskAt t).state.isFinished
  tasks : p'.tasks = (q.finish t).tasks
  contexts : p'.contexts = (q.finish t).contexts
  queue : p'.queue = (q.finish t).queue
  heap : p'.heap = q.heap

theorem Ends.mono {K' : TaskId → Prop} (h : p.Ends K t q p') (hK : ∀ x, K' x → K x) : p.Ends K' t q p' :=
  { h with schedule := h.schedule.mono hK }

/-- A property of the process stays as long as the task does not run. -/
structure Lasts (x : TaskId) (P : Process → Prop) : Prop where
  congr : ∀ {p p'}, P p → p'.tasks = p.tasks → p'.contexts = p.contexts →
    (∀ c, p'.heap.Captures c → p.heap.Captures c) → (x ∈ p.queue.toList → x ∈ p'.queue.toList) → P p'
  spares : ∀ {p p' t}, P p → x ≠ t → ¬ (p.taskAt t).state.isFinished → p.Spares t p' → P p'
  ends : ∀ {p q p' t K}, P p → x ≠ t → ¬ (p.taskAt t).state.isFinished → p.Ends K t q p' → P p'
  elsewhere : ∀ {p t}, P p → t ∉ p.scheduled → ¬ (p.taskAt t).state.isFinished → x ≠ t

theorem lasts_honoured (k : Ticket) : Lasts k.holder k.Honoured where
  congr := fun hk ht hc _ => hk.congr ht hc
  spares := fun hk ht hun h => hk.keeps ht hun h.toKeeps
  ends := by
    intro p q p' t K hk ht hun h
    have hend : k.Honoured (q.finish t) := by
      rcases hk with hk | hk
      · exact (hk.keeps h.deeds.toKeeps ht).finish h.arena h.schedule h.finished
      · have hne : k.awaited ≠ t := fun ha => hun (ha ▸ hk.isFinished)
        exact .inr ((hk.keeps h.deeds.toKeeps ht hne).finish h.arena h.schedule ht hne)
    exact hend.congr h.tasks h.contexts fun hq => h.queue ▸ hq
  elsewhere := Ticket.Honoured.ne_of_unscheduled

/-- A task in the queue has an error to handle. -/
structure Alerted (x : TaskId) (top : ContextId) (e : Handle) (p : Process) : Prop where
  queued : x ∈ p.queue.toList
  innermost : (p.taskAt x).top? = some top
  error : (p.contextAt top).error = some e

instance (x : TaskId) (top : ContextId) (e : Handle) (p : Process) : Decidable (Alerted x top e p) :=
  decidable_of_iff (x ∈ p.queue.toList ∧ (p.taskAt x).top? = some top ∧ (p.contextAt top).error = some e)
    ⟨fun h => ⟨h.1, h.2.1, h.2.2⟩, fun h => ⟨h.queued, h.innermost, h.error⟩⟩

theorem Alerted.rests {top : ContextId} {e : Handle} (h : Alerted x top e p) (hr : Rests x p p')
    (hq : x ∈ p'.queue.toList) : Alerted x top e p' := by
  refine ⟨hq, ?_, (Context.error_eq_of_footing (hr.still top (mem_of_top? h.innermost))).trans h.error⟩
  rw [Task.top?, hr.contexts]
  exact h.innermost

theorem Alerted.congr {top : ContextId} {e : Handle} (h : Alerted x top e p) (ht : p'.tasks = p.tasks)
    (hc : p'.contexts = p.contexts) (hq : x ∈ p'.queue.toList) : Alerted x top e p' :=
  ⟨hq, by simpa only [taskAt, ht] using h.innermost, by simpa only [contextAt, hc] using h.error⟩

theorem lasts_alerted (x : TaskId) (top : ContextId) (e : Handle) : Lasts x (Alerted x top e) where
  congr := fun h ht hc _ hq => h.congr ht hc (hq h.queued)
  spares := fun h hne _ hk => h.rests (hk.others x hne (index_lt_of_top? h.innermost)).1 (hk.queued x h.queued)
  ends := by
    intro p q p' t K h hne _ hend
    have hq : Alerted x top e q :=
      h.rests (hend.deeds.others x hne (index_lt_of_top? h.innermost)).1 (hend.deeds.queued x h.queued)
    have hpass := omits_finish hend.arena hne.symm (hend.schedule.not_listed_of_queued hq.queued)
    have hfin := hq.rests hpass.rests (hpass.queued.2 hq.queued)
    exact hfin.congr hend.tasks hend.contexts (hend.queue ▸ hfin.queued)
  elsewhere := by
    rintro p _ h ht _ rfl
    exact ht (List.mem_append_left _ h.queued)

/-- Those who stand for work done elsewhere are not concerned. -/
theorem Ends.state_eq (h : p.Ends K t q p') (hx : K x) (hne : x ≠ t) (hlt : x.index < p.tasks.size) :
    (p'.taskAt x).state = (p.taskAt x).state := by
  have hout : x ∉ (q.taskAt t).dependents.map Dependent.task := by
    intro hmem
    obtain ⟨d, hd, rfl⟩ := List.mem_map.1 hmem
    exact (h.schedule.carriers _ hx).unscheduled (mem_scheduled hd)
  rw [taskAt, h.tasks]
  exact (congrArg Task.state (omits_finish h.arena hne.symm hout).task).trans (h.deeds.others x hne hlt).2.2

end Process

namespace Machine

variable {m m₁ m' : Machine} {g : Outlook} {r : Registry} {p : Process} {t x : TaskId} {K : TaskId → Prop}
  {P : Process → Prop}

theorem finishTask_frame (t : TaskId) (m : Machine) : (finishTask t m).2.process.tasks = (m.process.finish t).tasks ∧
    (finishTask t m).2.process.contexts = (m.process.finish t).contexts ∧
    (finishTask t m).2.process.queue = (m.process.finish t).queue ∧
    (finishTask t m).2.process.heap = m.process.heap := by
  have hheap : (m.process.finish t).heap = m.process.heap := (Process.finish_frame m.process t).2.2.1
  rw [finishTask_eq]
  split
  · exact ⟨rfl, rfl, rfl, hheap⟩
  · exact ⟨rfl, rfl, rfl, hheap⟩

theorem ends_finishTask (hd : p.Spares t m.process) (ha : m.process.Arena []) (hs : m.process.Schedule (some t) K [])
    (hfin : (m.process.taskAt t).state.isFinished) : p.Ends K t m.process (finishTask t m).2.process :=
  ⟨hd, ha, hs, hfin, (finishTask_frame t m).1, (finishTask_frame t m).2.1, (finishTask_frame t m).2.2.1,
    (finishTask_frame t m).2.2.2⟩

theorem ends_setOutcome (hd : p.Spares m.task m.process) (ha : m.process.Arena []) (hm : m.Going g none)
    (hc : m.Pledged g m.task) {state : TaskState} (hst : state.isFinished) (v : Value) :
    ∃ q, p.Ends (fun x => g.pledged x ∧ x ≠ m.task) m.task q
      (finishTask m.task (modifyCurrent (fun t => { t with state, register := v }) m).2).2.process := by
  have hp := hm.inv.intact
  have hcar := hp.schedule.carriers m.task hc
  have hs := (hp.schedule.runCarrier hc).modifyTask (f := fun t => { t with state, register := v }) (fun _ => rfl)
    (hcar.akin state v) fun _ _ h => absurd rfl h
  have hset := Process.spares_modifyTask m.process m.task (f := fun t => { t with state, register := v }) fun _ =>
    ⟨_, _, _, _, rfl⟩
  refine ⟨_, ends_finishTask (m := (modifyCurrent (fun t => { t with state, register := v }) m).2) (hd.trans hset)
    (ha.modifyTask_frame m.task fun _ => rfl) (hs.mono fun x hx => ⟨.inl hx.1, hx.2⟩) ?_⟩
  change ((m.process.modifyTask m.task _).taskAt m.task).state.isFinished
  rw [Process.taskAt_modifyTask, if_pos ⟨rfl, hcar.index_lt⟩]
  exact hst

/-- The outcome of work done elsewhere reaches those who wait for it. -/
theorem ends_endCarrier (hd : p.Spares m.task m.process) (hm : m.Sturdy r) (hgo : m.Going g none) (hc : m.Pledged g m.task)
    (result : Except Fault Value) {state : TaskState} (hst : state.isFinished) :
    ∃ q, p.Ends (fun x => g.pledged x ∧ x ≠ m.task) m.task q (endCarrier result state m).2.process := by
  cases result with
  | ok v => exact ends_setOutcome hd hm.firm.arena hgo hc hst v
  | error fault =>
      have hg : m.Going (g.expect m.task) none := (hgo.inv.recast (fun x hx => by
        rcases hx with hx | rfl
        · exact .inl hx
        · exact hc) (.refl _)).idle
      obtain ⟨hm₁, hr₁, _⟩ := kept_errorObject hg fault
      have hdoes := does_errorObject fault m
      have hpl : (errorObject fault m).2.Pledged (g.expect m.task) (errorObject fault m).2.task := .inl (.inr hr₁.task)
      have hd₁ := hd.trans (spares_paces hm hdoes.paces)
      rw [← task_does hdoes] at hd₁ ⊢
      obtain ⟨q, hq⟩ := ends_setOutcome hd₁ (hm.does hdoes).firm.arena hm₁ hpl (show TaskState.error.isFinished from rfl)
        (.object (errorObject fault m).1)
      exact ⟨q, hq.mono fun x hx => ⟨.inl hx.1, hx.2⟩⟩

theorem ends_settle {c : Completion} {cs : List Completion} (hm : m.Inv (g.settling (c :: cs)) none []) (hr : m.Sturdy r) :
    ∃ q, m.process.Ends (fun x => ((g.settling cs).expect c.task).pledged x ∧ x ≠ c.task) c.task q
      (settle c m).2.process := by
  obtain ⟨hgo, hgrows⟩ := going_handOver hm
  have hdoes := does_handOver c m
  have hd := spares_paces (hr.turn c.task) hdoes.paces
  have htask : (handOver c m).task = c.task := task_does hdoes
  have hend := ends_endCarrier (p := m.process) (m := handOver c m) (htask ▸ hd) ((hr.turn c.task).does hdoes) hgo
    (.inl (.inr htask)) c.result (show TaskState.complete.isFinished from rfl)
  rw [htask] at hend
  exact hend

theorem lasts_settleEach (hP : Process.Lasts x P) (cs : List Completion) : ∀ {m : Machine},
    m.Inv (g.settling cs) none [] → m.Sturdy r →
    (∀ c ∈ cs, ∀ r, c.result = .ok (.object r) → r ∈ c.held) → (cs.map Completion.task).Nodup →
    (∀ c ∈ cs, ¬ (m.process.taskAt c.task).state.isFinished) → P m.process →
    P ((cs.forM settle : StateM Machine PUnit) m).2.process := by
  induction cs with
  | nil => exact fun _ _ _ _ _ hk => hk
  | cons c rest ih =>
      intro m hm hr hresults hn hun hk
      rw [List.map_cons, List.nodup_cons] at hn
      obtain ⟨q, hend⟩ := ends_settle hm hr
      have hcarrier := hm.intact.schedule.carriers c.task (.inl (.inr ⟨c, List.mem_cons_self, rfl⟩))
      have hne := hP.elsewhere hk hcarrier.unscheduled (hun c List.mem_cons_self)
      have hrest : ∀ d ∈ rest, ¬ ((settle c m).2.process.taskAt d.task).state.isFinished := by
        intro d hd
        have hother : d.task ≠ c.task := fun h => hn.1 (h ▸ List.mem_map_of_mem hd)
        have hlt := (hm.intact.schedule.carriers d.task (.inl (.inr ⟨d, List.mem_cons_of_mem c hd, rfl⟩))).index_lt
        rw [hend.state_eq ⟨.inl (.inr ⟨d, hd, rfl⟩), hother⟩ hother hlt]
        exact hun d (List.mem_cons_of_mem c hd)
      exact ih (inv_settle hm (hresults c List.mem_cons_self)) (sturdy_settle hr c)
        (fun d hd => hresults d (List.mem_cons_of_mem c hd)) hn.2 hrest (hP.ends hk hne (hun c List.mem_cons_self) hend)

theorem lasts_settleAll (hP : Process.Lasts x P) (hm : m.Inv g none []) (hr : m.Sturdy r)
    (hn : (m.process.completions.map Completion.task).Nodup)
    (hun : ∀ c ∈ m.process.completions, ¬ (m.process.taskAt c.task).state.isFinished) (hk : P m.process) :
    P (settleAll m).2.process := by
  have hr₀ := hr.does (Stroke.books { m.process with completions := [] } rfl rfl rfl rfl rfl rfl fun _ h => h).does
  exact lasts_settleEach hP m.process.completions (settling_completions hm) hr₀
    (fun c hc => hm.intact.anchored.results c hc) hn hun (hP.congr hk rfl rfl (fun _ h => h) fun h => h)

/-! ## Turns of other tasks -/

theorem paces_runFrom (fuel : Nat) : ∀ {m : Machine}, m.Sturdy r → runFrom fuel m = some m' → m.Paces m' := by
  induction fuel with
  | zero => exact fun _ h => by cases h
  | succ fuel ih =>
      intro m hm h
      have hadv := paces_advance hm
      have heq : advance.run m = advance m := rfl
      simp only [runFrom, heq] at h
      rcases hx : advance m with ⟨_ | _, m₁⟩
      · rw [hx] at h hadv
        cases h
        exact hadv
      · rw [hx] at h hadv
        exact hadv.trans (ih (sturdy_paces hm hadv) h)

theorem ends_conclude (hd : p.Spares t m.process) (hr : m.Sturdy r) (hm : m.Ended g t) :
    ∃ q K, p.Ends K t q (conclude m).2.process := by
  obtain ⟨hinv, rfl, hfin⟩ := hm
  rw [conclude_of_finished hfin]
  cases hlink : m.current.remote with
  | none => exact ⟨_, _, ends_finishTask hd hr.firm.arena hinv.intact.schedule hfin⟩
  | some link =>
      have hsent := Ended.sendResult (g := g) ⟨hinv, rfl, hfin⟩ hlink
      have hdoes := does_sendResult link m
      exact ⟨_, _, ends_finishTask (hd.trans (spares_paces hr hdoes.paces)) (hr.does hdoes).firm.arena
        hsent.inv.intact.schedule hsent.finished⟩

theorem lasts_runNext (hP : Process.Lasts x P) (hm : m.Inv g none []) (hr : m.Sturdy r) (hk : P m.process)
    (hnext : ∀ t queue, m.process.queue.pop? = some (t, queue) → x ≠ t) {fuel : Nat} {ran : Bool}
    (h : runNext fuel m = some (ran, m')) : P m'.process := by
  unfold runNext at h
  split at h
  · rename_i t queue hq
    simp only [runTask, Option.map_map, Option.map_eq_some_iff, Function.comp, Prod.mk.injEq] at h
    obtain ⟨m₁, hrun, _, rfl⟩ := h
    have hgo := hm.begin hq
    have hne := hnext t queue hq
    have hstop := stopped_run hgo hrun
    have hun : ¬ (m.process.taskAt t).state.isFinished := hgo.current.2.taskAt.1
    have hk₀ : P ({ m.process with queue } : Process) := by
      refine hP.congr hk rfl rfl (fun _ h => h) fun hmem => ?_
      rw [Fifo.toList_of_pop? hq] at hmem
      exact (List.mem_cons.1 hmem).resolve_left hne
    have hfirm : ({ m.process with queue } : Process).Firm m.host.registry := hr.firm.congr rfl rfl rfl rfl
    have hr₀ : ({ m with process := { m.process with queue }, task := t } : Machine).Sturdy r := (hr.process hfirm).turn t
    rw [hgo.run_eq] at hrun
    have hresume := paces_resume hr₀
    have hgone := hresume.trans (paces_runFrom fuel (sturdy_paces hr₀ hresume) hrun)
    have hd : Process.Spares t { m.process with queue } m₁.process := spares_paces hr₀ hgone
    rcases hstop with hrest | hend
    · have hcur : ¬ m₁.current.state.isFinished := by
        rw [current, hrest.task]
        exact hrest.unfinished
      change P (conclude m₁).2.process
      rw [conclude_of_unfinished hcur]
      exact hP.spares hk₀ hne hun hd
    · obtain ⟨q, K, hends⟩ := ends_conclude hd (sturdy_paces hr₀ hgone) hend
      exact hP.ends hk₀ hne hun hends
  · cases h
    exact hk

theorem lasts_tidy (hP : Process.Lasts x P) (hk : P m.process) : P (tidy m).2.process := by
  have hcollect : ∀ c, (collectGarbage m).2.process.heap.Captures c → m.process.heap.Captures c := fun _ =>
    (m.process.heap.each_captures.collect _ _).captures
  rw [tidy_eq]
  split
  · split
    · exact hP.congr hk rfl rfl hcollect fun h => h
    · exact hP.congr hk rfl rfl hcollect fun h => h
  · exact hk

/-- A round of the scheduler in which the task does not have its turn. -/
theorem lasts_tick (hP : Process.Lasts x P) (hm : m.Inv g none []) (hr : m.Sturdy r)
    (hn : (m.process.completions.map Completion.task).Nodup)
    (hun : ∀ c ∈ m.process.completions, ¬ (m.process.taskAt c.task).state.isFinished) (hk : P m.process)
    (hnext : m.next? ≠ some x) {fuel : Nat} (h : tick fuel m = some m') : P m'.process := by
  rw [tick_eq, Option.map_eq_some_iff] at h
  obtain ⟨⟨ran, m₁⟩, hrun, rfl⟩ := h
  have hran := lasts_runNext hP (inv_settleAll hm) (sturdy_settleAll hr) (lasts_settleAll hP hm hr hn hun hk)
    (fun t queue hq ht => hnext (by simp [next?, hq, ht])) hrun
  exact hP.congr (lasts_tidy hP hran) rfl rfl (fun _ h => h) fun h => h

end Machine

end Spool
