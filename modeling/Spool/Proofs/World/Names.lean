import Spool.Proofs.Machine.ReadBack
import Spool.Proofs.World.Laws

/-!
# What has been assigned is read back

At every moment of a turn a name stands for what it has just been bound to. So it does when it has been assigned, unless a
method of the receiver comes before the variable of the module that the value has gone to.
-/

namespace Spool.World

open Machine

variable {w : World} {id : ProcessId} {t : TaskId} {m : Machine} {name : String}

theorem Amid.grounded (ham : w.Amid id t m) (hw : w.Arises) : m.Grounded := by
  obtain ⟨p, hp, hround⟩ := ham.running
  obtain ⟨_, _, hgo⟩ := ham.going hw
  have hlawful := hround.lawful Process.law_fitting hw hp
  exact ⟨hgo.inv.intact.fit.sound, hlawful.bare, fun top htop =>
    (ham.sturdy hw).firm.arena.index_lt (Process.mem_of_top? htop)⟩

/-- What a name has been bound to is what it stands for. What it has been assigned is what it stands for exactly if no
method of the receiver is in the way of a variable of the module; that variable has the value all the same, and what is found
for the name is a new reference to the method, bound to the receiver. What has been counted up or down is what the name stands
for, always. -/
theorem assigned_reads_back (hw : w.Arises) (ham : w.Amid id t m) (hname : name ≠ "self") :
    (∀ v m', bind name v m = (.ok (), m') → resolve name m' = (.ok v, m')) ∧
    (∀ v m', assign name v m = (.ok (), m') →
      (resolve name m' = (.ok v, m') ↔ ∀ u, ¬ m.Eclipsed name u) ∧
      ∀ u, m.Eclipsed name u → m'.Eclipsed name v ∧ ∃ top r f x m'', m'.Masks name top r f ∧
        resolve name m' = (.ok (.object x), m'') ∧ m'.MakesReference { function := f, receiver := .object r } x m'') ∧
    ∀ op delta m', increase op (.name name) delta m = (.ok (), m') → ∃ s new,
      (resolve name m).1 = .ok (.scalar s) ∧ Scalar.arithmetic .add s (.int delta) = .ok new ∧
      resolve name m' = (.ok (.scalar new), m') := by
  have hground := ham.grounded hw
  refine ⟨fun v m' hrun => ?_, fun v m' hrun => ?_, fun op delta m' hrun => ?_⟩
  · exact ((wp_bind_reads hground name v).ok hrun : m'.Reads name v ∧ _).1.resolve hname
  · have hassigned := (wp_assign_reads hground name v).ok hrun
    have hmethod : ∀ u, m.Eclipsed name u → ∃ top r f x m'', m'.Masks name top r f ∧
        resolve name m' = (.ok (.object x), m'') ∧ m'.MakesReference { function := f, receiver := .object r } x m'' := by
      intro u hu
      obtain ⟨top, r, f, hmasks, _⟩ := hassigned.eclipsed u hu
      obtain ⟨x, m'', hresolve, hmade⟩ := hmasks.resolve hassigned.sound hname
      exact ⟨top, r, f, x, m'', hmasks, hresolve, hmade⟩
    refine ⟨⟨fun hresolve u hu => ?_, fun hseen => (hassigned.reads hseen).resolve hname⟩, fun u hu =>
      ⟨hassigned.eclipsed u hu, hmethod u hu⟩⟩
    -- the reference is new, and the value of the variable is not
    obtain ⟨_, _, _, x, _, _, hreference, hfresh, _⟩ := hmethod u hu
    cases hresolve.symm.trans hreference
    obtain ⟨_, _, _, _, hvariable⟩ := hassigned.eclipsed u hu
    have hlive := hvariable.valid hassigned.sound x rfl
    rw [Heap.isLive_iff, hfresh] at hlive
    obtain ⟨_, ho⟩ := hlive
    cases ho
  · obtain ⟨s, new, hfound, hsum, hreads⟩ := (wp_increase_reads hground hname op delta).ok hrun
    exact ⟨s, new, hfound, hsum, hreads.resolve hname⟩

/-! ## A variable with the name of a method -/

/-- A module with a variable `x` and a class with a method of that name. -/
def masking : CompiledModule :=
  { name := "masking"
    tape := { instructions := #[⟨.load, .scalar (.int 1)⟩, ⟨.bind, .name "x"⟩, ⟨.callBare, .name "Foo"⟩,
      ⟨.member, .name "test"⟩, ⟨.callBare, .none⟩, ⟨.ret, .scalar (.int 0)⟩] }
    functions := #[{ name := "x", start := 5, owner := some "Foo" }, { name := "test", start := 5, owner := some "Foo" }]
    classes := #[{ name := "Foo", start := 5, stop := 6 }] }

def unmasked : World := (startMain "masking" (register masking {}).2).2

/-- The entry task waits for the method `test`. -/
def masked : World := (unmasked.step 9 (.tick ⟨1⟩)).get (by decide +kernel)

/-- The method before its first instruction. -/
def within : Machine := (resume ((masked.opening? ⟨1⟩).get (by decide +kernel))).2

theorem arises_unmasked : unmasked.Arises := .startMain "masking" (.register masking (.create (r := {}) rfl))

theorem arises_masked : masked.Arises := arises_unmasked.step (Option.some_get _).symm

theorem amid_within : masked.Amid ⟨1⟩ within.task within := by
  have hsome : (masked.opening? ⟨1⟩).isSome := by decide +kernel
  have hopen := opens_opening (Option.some_get hsome).symm
  exact hopen.amid.task_eq arises_masked ▸ hopen.amid

/-- The name is assigned the number, and then it stands for some object. -/
def Mistaken (name : String) (n : Int64) (m : Machine) : Bool :=
  match assign name (.scalar (.int n)) m with
  | (.ok (), m') =>
    match resolve name m' with
    | (.ok (.object _), _) => true
    | _ => false
  | _ => false

theorem mistaken_within : ∃ m' r m'', assign "x" (.scalar (.int 5)) within = (.ok (), m') ∧
    resolve "x" m' = (.ok (.object r), m'') := by
  have hmistaken : Mistaken "x" 5 within := by decide +kernel
  unfold Mistaken at hmistaken
  split at hmistaken
  · rename_i m' hassign
    split at hmistaken
    · rename_i r m'' hresolve
      exact ⟨m', r, m'', hassign, hresolve⟩
    · cases hmistaken
  · cases hmistaken

/-- In the method the variable of the module is out of sight. A variable of the method is not. -/
theorem assigned_reads_back_within : (∃ m', bind "x" (.scalar (.int 5)) within = (.ok (), m') ∧
    resolve "x" m' = (.ok (.scalar (.int 5)), m')) ∧ ∃ u, within.Eclipsed "x" u := by
  have hname : "x" ≠ "self" := by decide
  obtain ⟨hbind, hassign, _⟩ := assigned_reads_back arises_masked amid_within hname
  refine ⟨?_, ?_⟩
  · have hok : (bind "x" (.scalar (.int 5)) within).1.isOk := by decide +kernel
    rcases hrun : bind "x" (.scalar (.int 5)) within with ⟨_ | _, m'⟩
    · rw [hrun] at hok
      cases hok
    · exact ⟨m', rfl, hbind _ _ hrun⟩
  · obtain ⟨m', r, m'', hrun, hresolve⟩ := mistaken_within
    refine Classical.byContradiction fun hnone => ?_
    cases hresolve.symm.trans ((hassign _ _ hrun).1.2 (not_exists.1 hnone))

/-- In the method the variable of the module gets the value, and the name stands for the method. -/
theorem masked_variable : ∃ m' r m'', masked.Arises ∧ masked.Amid ⟨1⟩ within.task within ∧
    within.process.heap.Valid (.scalar (.int 5)) ∧ assign "x" (.scalar (.int 5)) within = (.ok (), m') ∧
    resolve "x" m' = (.ok (.object r), m'') := by
  obtain ⟨m', r, m'', hassign, hresolve⟩ := mistaken_within
  exact ⟨m', r, m'', arises_masked, amid_within, nofun, hassign, hresolve⟩

end Spool.World
