import Spool.Machine.Basic
import Spool.Proofs.Act
import Spool.Proofs.Heap.Futures
import Spool.Proofs.Pool
import Spool.Proofs.Process.Start
import Spool.Proofs.Registry.Calm

/-!
# Machines that keep going

A machine keeps going as long as its process is intact and its running task can run. What an action may not touch,
because it belongs to other processes, is in the outlook.
-/

namespace Spool

/-- What there is besides the running process, as it was when the process began to run. -/
structure Outlook where
  id : ProcessId
  /-- How many processes there were. -/
  born : Nat
  /-- Background calls of other processes. -/
  calls : List BackgroundCall
  /-- Tasks of the process that other processes send results to. -/
  pledged : TaskId → Prop
  /-- Tasks of other processes that the process sends results to. -/
  links : RemoteLink → Prop
  /-- Roots of background calls that have come back and are being settled. -/
  held : List Handle := []

/-- A process that has been made by another one. -/
structure Process.Newborn (child : Process) (parent : ProcessId) : Prop where
  intact : child.Intact none { carriers := fun _ => False, links := fun link => link.process = parent }
  completions : child.completions = []
  futureless : child.heap.Knows fun _ => False
  idle : child.inFlight = 0
  active : child.phase = .active

/-- What the host has to do with processes. -/
structure Host.Serves (h : Host) (g : Outlook) : Prop where
  calm : h.registry.Calm
  others : (h.pool.jobs.filter fun call => call.process ≠ g.id).Perm g.calls
  born : h.born = g.born + h.nursery.length
  numbers : ∀ (i : Nat) child, h.nursery[i]? = some child → child.id = ⟨g.born + i + 1⟩
  newborn : ∀ child ∈ h.nursery, child.Newborn g.id
  staffed : h.pool.Staffed

namespace Machine

variable {g : Outlook} {cur : Option TaskId} {m m' : Machine} {α β : Type}

/-- The task stands for work done elsewhere: by a process that was there, by the background pool, or by a new
process. -/
def Pledged (g : Outlook) (m : Machine) (t : TaskId) : Prop :=
  g.pledged t ∨ (∃ call ∈ m.host.pool.jobs, call.process = g.id ∧ call.carrier = t) ∨
    (∃ c ∈ m.process.completions, c.task = t) ∨
    ∃ child ∈ m.host.nursery, ∃ task ∈ child.tasks, task.remote = some ⟨g.id, t⟩

def ledger (g : Outlook) (roots : List Handle) (m : Machine) : Ledger :=
  { calls := m.host.pool.jobs.filter fun call => call.process = g.id
    roots := roots ++ g.held
    carriers := m.Pledged g
    links := g.links }

structure Inv (g : Outlook) (cur : Option TaskId) (roots : List Handle) (m : Machine) : Prop where
  intact : m.process.Intact cur (m.ledger g roots)
  id : m.process.id = g.id
  serves : m.host.Serves g

/-- The machine can go on. -/
structure Going (g : Outlook) (cur : Option TaskId) (m : Machine) : Prop where
  inv : m.Inv g cur []
  running : ∀ t, cur = some t → t = m.task ∧ m.process.Ready t

/-- The same task runs, and what was live is live. -/
structure Grows (m m' : Machine) : Prop where
  task : m'.task = m.task
  valid : ∀ v, m.process.heap.Valid v → m'.process.heap.Valid v

/-- An action after which the machine can go on, and that never meets a dead handle. -/
def Keeps (g : Outlook) (cur : Option TaskId) (act : Act Machine α) (m : Machine) (P : α → Machine → Prop) : Prop :=
  act.wp m (fun a m' => m'.Going g cur ∧ m.Grows m' ∧ P a m') (fun e m' => m'.Going g cur ∧ m.Grows m' ∧ e ≠ .stale)

theorem Grows.refl (m : Machine) : m.Grows m := ⟨rfl, fun _ h => h⟩

theorem Grows.trans {m₁ m₂ m₃ : Machine} (h : m₁.Grows m₂) (h' : m₂.Grows m₃) : m₁.Grows m₃ :=
  ⟨h'.task.trans h.task, fun v hv => h'.valid v (h.valid v hv)⟩

/-! ## Putting actions together -/

theorem Keeps.mono {act : Act Machine α} {P Q : α → Machine → Prop} (ha : Keeps g cur act m P)
    (hq : ∀ a m', m'.Going g cur → m.Grows m' → P a m' → Q a m') : Keeps g cur act m Q :=
  Act.wp_mono ha (fun a m' h => ⟨h.1, h.2.1, hq a m' h.1 h.2.1 h.2.2⟩) fun _ _ h => h

/-- An action that goes on from where another one has left off. -/
theorem Keeps.after {act : Act Machine α} {P : α → Machine → Prop} (hr : m.Grows m') (ha : Keeps g cur act m' P) :
    act.wp m' (fun a m₁ => m₁.Going g cur ∧ m.Grows m₁ ∧ P a m₁)
      (fun e m₁ => m₁.Going g cur ∧ m.Grows m₁ ∧ e ≠ .stale) :=
  Act.wp_mono ha (fun _ _ h => ⟨h.1, hr.trans h.2.1, h.2.2⟩) fun _ _ h => ⟨h.1, hr.trans h.2.1, h.2.2⟩

theorem Keeps.bind {act : Act Machine α} {k : α → Act Machine β} {P : α → Machine → Prop} {Q : β → Machine → Prop}
    (ha : Keeps g cur act m P)
    (hk : ∀ a m', m'.Going g cur → m.Grows m' → P a m' → Keeps g cur (k a) m' Q) : Keeps g cur (act >>= k) m Q := by
  unfold Keeps
  rw [Act.wp_bind]
  exact Act.wp_mono ha (fun a m₁ h => (hk a m₁ h.1 h.2.1 h.2.2).after h.2.1) (fun _ _ h => h)

theorem Keeps.map {act : Act Machine α} {f : α → β} {P : α → Machine → Prop} {Q : β → Machine → Prop}
    (ha : Keeps g cur act m P) (hq : ∀ a m', P a m' → Q (f a) m') : Keeps g cur (f <$> act) m Q := by
  unfold Keeps
  rw [Act.wp_map]
  exact Act.wp_mono ha (fun a m' h => ⟨h.1, h.2.1, hq a m' h.2.2⟩) fun _ _ h => h

theorem Keeps.discard {act : Act Machine α} {P : α → Machine → Prop} {Q : PUnit → Machine → Prop}
    (ha : Keeps g cur act m P) (hq : ∀ a m', P a m' → Q PUnit.unit m') : Keeps g cur (discard act) m Q := by
  unfold Keeps
  rw [Act.wp_discard]
  exact Act.wp_mono ha (fun a m' h => ⟨h.1, h.2.1, hq a m' h.2.2⟩) fun _ _ h => h

theorem keeps_pure (hm : m.Going g cur) {a : α} {P : α → Machine → Prop} (hp : P a m) :
    Keeps g cur (pure a : Act Machine α) m P :=
  ⟨hm, .refl m, hp⟩

theorem keeps_throw (hm : m.Going g cur) {e : Fault} (he : e ≠ .stale) {P : α → Machine → Prop} :
    Keeps g cur (throw e : Act Machine α) m P :=
  ⟨hm, .refl m, he⟩

theorem keeps_get {k : Machine → Act Machine β} {P : β → Machine → Prop} (hk : Keeps g cur (k m) m P) :
    Keeps g cur (get >>= k) m P := by
  unfold Keeps
  rw [Act.wp_bind]
  exact hk

/-- A result that is there already, or a fault other than that of a dead handle. -/
theorem keeps_mk (hm : m.Going g cur) {x : Except Fault α} {P : α → Machine → Prop} (hp : ∀ a, x = .ok a → P a m)
    (he : x ≠ .error .stale) : Keeps g cur (ExceptT.mk (pure x) : Act Machine α) m P := by
  cases x with
  | ok a => exact ⟨hm, .refl m, hp a rfl⟩
  | error e => exact ⟨hm, .refl m, fun h => he (by rw [h])⟩

theorem keeps_look (hm : m.Going g cur) {f : Heap → Except Fault α} {P : α → Machine → Prop}
    (hp : ∀ a, f m.process.heap = .ok a → P a m) (he : f m.process.heap ≠ .error .stale) :
    Keeps g cur (look f) m P := by
  have : look f m = (f m.process.heap, m) := rfl
  unfold Keeps Act.wp
  rw [this]
  cases hx : f m.process.heap with
  | ok a => exact ⟨hm, .refl m, hp a hx⟩
  | error e => exact ⟨hm, .refl m, fun h => he (by rw [hx, h])⟩

/-! ## Changing the process -/

theorem Inv.of_intact {roots : List Handle} {p' : Process} (hid : m.process.id = g.id) (hs : m.host.Serves g)
    (hp : p'.Intact cur (m.ledger g roots)) (hid' : p'.id = m.process.id)
    (hc : p'.completions = m.process.completions) : ({ m with process := p' } : Machine).Inv g cur roots := by
  refine ⟨?_, hid'.trans hid, hs⟩
  have : ({ m with process := p' } : Machine).Pledged g = m.Pledged g := by
    funext t
    simp only [Pledged, hc]
  unfold ledger
  rw [this]
  exact hp

/-- Another process in the place of the first, with the same completions. -/
theorem Inv.update {roots : List Handle} (hm : m.Inv g cur roots) {cur' : Option TaskId} {p' : Process}
    (hp : p'.Intact cur' (m.ledger g roots)) (hid : p'.id = m.process.id)
    (hc : p'.completions = m.process.completions) : ({ m with process := p' } : Machine).Inv g cur' roots :=
  .of_intact hm.id hm.serves hp hid hc

/-- Fewer tasks are promised a result, and the roots without an owner are counted in another place. -/
theorem Inv.recast {roots roots' held : List Handle} (hm : m.Inv g cur roots) {P : TaskId → Prop}
    (hP : ∀ x, P x → m.Pledged g x) (hr : (roots' ++ held).Perm (roots ++ g.held)) :
    m.Inv { g with pledged := P, held } cur roots' := by
  refine ⟨⟨hm.intact.fit, hm.intact.anchored.reorder hr, hm.intact.schedule.mono fun x hx => ?_, hm.intact.linked⟩, hm.id,
    hm.serves.calm, hm.serves.others, hm.serves.born, hm.serves.numbers, hm.serves.newborn, hm.serves.staffed⟩
  rcases hx with hx | hx
  · exact hP x hx
  · exact .inr hx

theorem Inv.reorder {roots roots' : List Handle} (hm : m.Inv g cur roots) (hr : roots'.Perm roots) :
    m.Inv g cur roots' :=
  hm.recast (fun _ h => .inl h) (hr.append_right _)

theorem Going.update (hm : m.Going g cur) {p' : Process} (hp : p'.Intact cur (m.ledger g [])) (hid : p'.id = m.process.id)
    (hc : p'.completions = m.process.completions) (hr : ∀ t, cur = some t → p'.Ready t) :
    ({ m with process := p' } : Machine).Going g cur :=
  ⟨hm.inv.update hp hid hc, fun t ht => ⟨(hm.running t ht).1, hr t ht⟩⟩

/-! ## The heap -/

theorem keeps_onHeap (hm : m.Going g cur) {X : External → Prop} {act : Act Heap α} {P : α → Heap → Prop}
    (ha : Heap.Safe X act m.process.heap P) (hX : ∀ x, X x → m.process.Behind x) :
    Keeps g cur (onHeap act) m fun a m' => P a m'.process.heap := by
  have hgo : ∀ h', m.process.heap.Gains X h' →
      ({ m with process := { m.process with heap := h' } } : Machine).Going g cur ∧
        m.Grows { m with process := { m.process with heap := h' } } := by
    intro h' hg
    refine ⟨hm.update (hm.inv.intact.gains hg hX) rfl rfl fun t ht => (hm.running t ht).2, rfl, fun v => hg.valid⟩
  have heq : onHeap act m = ((act m.process.heap).1, { m with process := { m.process with heap := (act m.process.heap).2 } }) :=
    rfl
  unfold Heap.Safe Act.wp at ha
  unfold Keeps Act.wp
  rw [heq]
  rcases hx : act m.process.heap with ⟨_ | a, h'⟩
  · rw [hx] at ha
    exact ⟨(hgo h' ha.1).1, (hgo h' ha.1).2, ha.2⟩
  · rw [hx] at ha
    exact ⟨(hgo h' ha.1).1, (hgo h' ha.1).2, ha.2⟩

theorem Going.sound (hm : m.Going g cur) : m.process.heap.Sound := hm.inv.intact.fit.sound

theorem Going.mirrored (hm : m.Going g cur) : m.process.heap.Mirrored := hm.inv.intact.anchored.mirrored

/-- What an object holds is live. -/
theorem Going.valid_of_object (hm : m.Going g cur) {r : Handle} {o : Object} (ho : m.process.heap.object? r = some o)
    {v : Value} (hv : v ∈ o.values) : m.process.heap.Valid v :=
  Heap.valid_of_mem_values hm.sound.edges ho hv

end Machine

end Spool
