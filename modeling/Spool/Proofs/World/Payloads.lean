import Spool.Proofs.Machine.Receivers
import Spool.Proofs.World.Headroom
import Spool.Proofs.World.Laws

/-!
# Receivers with a payload

A class hands down its methods and its fields, but not the payload that its own objects start with. An object of a
subclass of `Array` has the methods of an array, and each of them that works on the payload refuses it.
-/

namespace Spool.World

open Machine

variable {w : World} {id : ProcessId} {t : TaskId} {m : Machine}

/-- What a call of a class makes has the payload of that class, not of one above it. So the methods that work on the
payload of a text, an array or a tuple refuse every object of another class, however it has got them; those of a process
take whatever they are given. -/
theorem payload_of_own_class (hw : w.Arises) (ham : w.Amid id t m) :
    (∀ c argument reply m', construct c argument m = (.ok reply, m') → ∃ r m₁ o, instantiate c m = (.ok r, m₁) ∧
      m₁.process.heap.object? r = some o ∧ o.ofClass = c ∧ o.payload = c.seed.payload ∧
      (reply = .value (.object r) ∨ reply = .parked ∧ m'.register = .object r)) ∧
    (∀ r o, m.process.heap.object? r = some o → (∀ p, o.payload ≠ .process (some p)) →
      ∀ body expected homes, body.demand? = some (expected, homes) → ∀ argument, m.process.heap.Valid argument →
        (m.Refuses body r argument expected ↔ o.ofClass ∉ homes)) ∧
    ∀ body ∈ [Native.processNew, .processStart, .processNumber], ∀ r argument, ¬ m.Refuses body r argument "Process" := by
  obtain ⟨p, hp, hround⟩ := ham.running
  obtain ⟨_, _, hgo⟩ := ham.going hw
  have hlawful := hround.lawful Process.law_fitting hw hp
  refine ⟨fun c argument reply m' hrun => ?_, fun r o ho hstarted body expected homes hbody argument ha =>
    refuses_iff ho (hlawful.law r o ho) hstarted hbody ha, fun body hbody r argument => not_refuses_process hbody r argument⟩
  obtain ⟨r, hmade, hreply⟩ := (wp_construct (ham.sturdy hw).firm.arena hgo.current.2.index_lt c argument).ok hrun
  obtain ⟨_, o, ho, hclass, hpayload⟩ := (wp_instantiate hgo hlawful.seeded c).ok (Prod.ext hmade rfl)
  exact ⟨r, _, o, Prod.ext hmade rfl, ho, hclass, hpayload, hreply⟩

/-! ## A subclass of `Array` -/

/-- A module with a class that is a kind of array. -/
def subclassing : CompiledModule :=
  { name := "subclassing"
    tape := { instructions := #[⟨.ret, .scalar (.int 0)⟩] }
    classes := #[{ name := "Foo", superName := some "Array", start := 0, stop := 1 }] }

def heirs : World := (startMain "subclassing" (register subclassing {}).2).2

/-- The entry task before its first instruction. -/
def heir : Machine := (resume ((heirs.opening? ⟨1⟩).get (by decide +kernel))).2

theorem arises_heirs : heirs.Arises :=
  .startMain "subclassing" (.register subclassing (.create (r := {}) rfl))

theorem amid_heir : heirs.Amid ⟨1⟩ heir.task heir := by
  have hsome : (heirs.opening? ⟨1⟩).isSome := by decide +kernel
  have hopen := opens_opening (Option.some_get hsome).symm
  exact hopen.amid.task_eq arises_heirs ▸ hopen.amid

/-- What a call of the class with none makes at once. -/
def made? (c : ClassId) (m : Machine) : Option Handle :=
  match (construct c .none m).1 with
  | .ok (.value (.object r)) => some r
  | _ => none

theorem construct_of_made? {c : ClassId} {r : Handle} (h : made? c m = some r) :
    construct c .none m = (.ok (.value (.object r)), (construct c .none m).2) := by
  refine Prod.ext ?_ rfl
  unfold made? at h
  split at h
  · cases h
    assumption
  · cases h

/-- The object of the subclass of `Array`. -/
def heirloom : Handle := (made? ⟨18⟩ heir).get (by decide +kernel)

theorem construct_heirloom : construct ⟨18⟩ .none heir = (.ok (.value (.object heirloom)), (construct ⟨18⟩ .none heir).2) :=
  construct_of_made? (Option.some_get _).symm

theorem payload_of_own_class_heirloom : ∃ r m₁ o, instantiate ⟨18⟩ heir = (.ok r, m₁) ∧
    m₁.process.heap.object? r = some o ∧ o.payload = .none := by
  obtain ⟨hmade, _, _⟩ := payload_of_own_class arises_heirs amid_heir
  obtain ⟨r, m₁, o, hrun, ho, _, hpayload, _⟩ := hmade ⟨18⟩ .none _ _ construct_heirloom
  exact ⟨r, m₁, o, hrun, ho, hpayload⟩

/-- The object has the methods of arrays, and none of them takes it for one. -/
theorem heirloom_refused : ∃ c r m₁ f, heirs.Arises ∧ heirs.Amid ⟨1⟩ heir.task heir ∧ ClassId.array ∈ heir.host.registry.chain c ∧
    construct c .none heir = (.ok (.value (.object r)), m₁) ∧ m₁.host.registry.findMethod? c "push" = some f ∧
    (m₁.host.registry.functionAt f).kind = .native .arrayPush ∧ m₁.Refuses .arrayPush r .none "Array" := by
  refine ⟨⟨18⟩, heirloom, _, ⟨13⟩, arises_heirs, amid_heir, by decide +kernel, construct_heirloom,
    by decide +kernel, by decide +kernel, by decide +kernel⟩

end Spool.World
