import Spool.Proofs.Heap.Gains
import Spool.Proofs.Heap.Laws
import Spool.Proofs.World.Laws
import Spool.Proofs.World.Solo

/-!
# Classes, modules and functions are themselves

Whatever happens in a process, its heap has at most one object that stands for a class, a module or a function. That object
is rooted and of the class it was made of. It may be started as a process, for `start` asks no object what it is, and then
it stands for that process and for nothing else.
-/

/-!
## One object for each class, module and function

Nothing but the making of a reflection gives an object the payload of one, and that is done only if there is none yet. So
a heap has at most one object that stands for a class, a module or a function. Of what is written to it later only one
thing makes it stand for something else: any object can be started as a process.
-/

namespace Spool

/-- The payload of a reflection: the one that says what it stands for, or that of a process it has been started as. -/
def Reflected.Stands (key : Reflected) (x : Payload) : Prop := x = key.payload ∨ ∃ p, x = .process (some p)

theorem Reflected.payload_injective {key key' : Reflected} (h : key.payload = key'.payload) : key = key' := by
  cases key <;> cases key' <;> simp_all [Reflected.payload]

theorem Reflected.not_isOrdinary (key : Reflected) : ¬ key.payload.isOrdinary := by
  cases key <;> exact Bool.false_ne_true

namespace Object.Takes

variable {o : Object} {x : Payload} {key : Reflected}

/-- An object does not become the reflection of something by what is written to it. -/
theorem reflected (h : o.Takes x) (hx : x = key.payload) : o.payload = key.payload := by
  cases h with
  | same => exact hx
  | items _ => cases key <;> cases hx
  | slots _ => cases key <;> cases hx
  | fits _ ho => exact absurd (hx ▸ ho) key.not_isOrdinary

theorem stands (h : o.Takes x) (hc : o.ofClass = key.metaclass) (ho : key.Stands o.payload) (hn : x = .none → o.payload = .none) :
    key.Stands x := by
  have hplain : o.payload.carriesValues = false ∧ o.payload ≠ .none := by
    rcases ho with ho | ⟨p, ho⟩
    · rw [ho]
      cases key <;> exact ⟨rfl, nofun⟩
    · rw [ho]
      exact ⟨rfl, nofun⟩
  cases h with
  | same => exact ho
  | items hp =>
      rw [hp] at hplain
      cases hplain.1
  | slots hp =>
      rw [hp] at hplain
      cases hplain.1
  | fits hx hord =>
      have hhome : ∀ k, x.home? = some k → key.metaclass = k := fun k hk => hc.symm.trans (hx.home k hk)
      cases x with
      | none => exact absurd (hn rfl) hplain.2
      | process p =>
          cases p with
          | some p => exact .inr ⟨p, rfl⟩
          | none => cases key <;> cases hhome _ rfl
      | ofClass _ => cases hord
      | ofModule _ => cases hord
      | ofFunction _ => cases hord
      | _ => cases key <;> cases hhome _ rfl

end Object.Takes

namespace Heap

variable {G : Handle → Prop} {h h' : Heap} {r : Handle}

/-- A reflection is there and stands for what it was made for, and there is no other object that does. -/
structure Singular (h : Heap) : Prop where
  orderly : h.Orderly
  present : h.Present
  stands : ∀ {key r o}, h.reflection? key = some r → h.object? r = some o →
    o.ofClass = key.metaclass ∧ key.Stands o.payload
  unique : ∀ {key r o}, h.object? r = some o → o.payload = key.payload → h.reflection? key = some r

/-- An object has changed, and with it what it stands for only if it has been no reflection. -/
theorem Singular.modifyObject {f : Object → Object} (hk : h.Singular)
    (hd : ∀ o, o.members.Distinct → (f o).members.Distinct) (hclass : ∀ o, (f o).ofClass = o.ofClass)
    (hstands : ∀ o key, h.object? r = some o → h.reflection? key = some r → o.ofClass = key.metaclass →
      key.Stands o.payload → key.Stands (f o).payload)
    (hback : ∀ o (key : Reflected), h.object? r = some o → (f o).payload = key.payload → o.payload = key.payload) :
    (h.modifyObject r f).Singular := by
  refine ⟨orderly_modifyEntry hk.orderly r _ fun e => hd e.object, fun key x hx =>
    (isLive_modifyEntry h r _ x).trans (hk.present key x hx), fun {key x o} hr ho => ?_, fun {key x o} ho hp => ?_⟩
  · rcases object?_of_modifyObject ho with ⟨hold, _⟩ | ⟨rfl, o', ho', rfl⟩
    · exact hk.stands hr hold
    · obtain ⟨hc, hp⟩ := hk.stands hr ho'
      exact ⟨(hclass o').trans hc, hstands o' key ho' hr hc hp⟩
  · rcases object?_of_modifyObject ho with ⟨hold, _⟩ | ⟨rfl, o', ho', rfl⟩
    · exact hk.unique hold hp
    · exact hk.unique ho' (hback o' key ho' hp)

theorem Singular.of_eq (hk : h.Singular) (hd : h'.Orderly ∧ h'.Present) (hrefl : h'.reflections = h.reflections)
    (hobj : ∀ x o, h'.object? x = some o → h.object? x = some o) : h'.Singular := by
  have hat : ∀ key, h'.reflection? key = h.reflection? key := fun key => by rw [reflection?, hrefl, reflection?]
  exact ⟨hd.1, hd.2, fun hr ho => hk.stands (hat _ ▸ hr) (hobj _ _ ho), fun ho hp => hat _ ▸ hk.unique (hobj _ _ ho) hp⟩

theorem Singular.allocate (hk : h.Singular) {c : ClassId} {x : Payload} (hx : x.isOrdinary)
    (hd : (h.allocate c x).2.Orderly ∧ (h.allocate c x).2.Present) : (h.allocate c x).2.Singular := by
  have hat : ∀ key, (h.allocate c x).2.reflection? key = h.reflection? key := fun key => by
    rw [reflection?, reflections_allocate, reflection?]
  have hnew := lookup?_allocate hk.orderly c x
  refine ⟨hd.1, hd.2, fun {key r o} hr ho => ?_, fun {key r o} ho hp => ?_⟩
  · rw [hat] at hr
    refine hk.stands hr ?_
    have hne : r ≠ (h.allocate c x).1 := by
      rintro rfl
      have hlive := hk.present key _ hr
      rw [isLive, hnew.1] at hlive
      cases hlive
    rwa [object?, hnew.2, if_neg hne] at ho
  · rw [hat]
    rcases object?_of_allocate ho with hold | rfl
    · exact hk.unique hold hp
    · exact absurd (hp ▸ hx) key.not_isOrdinary

theorem Coins.singular {key : Reflected} (hc : h.Coins key r h') (hk : h.Singular) (hd : h'.Orderly ∧ h'.Present) :
    h'.Singular := by
  refine ⟨hd.1, hd.2, fun {key' x o} hr ho => ?_, fun {key' x o} ho hp => ?_⟩
  · rw [hc.reflection?] at hr
    rw [hc.object?] at ho
    split at hr
    · rename_i heq
      subst heq
      rw [if_pos (Option.some.inj hr).symm] at ho
      cases ho
      exact ⟨rfl, .inl rfl⟩
    · rw [if_neg (hc.isLive (hk.present _ _ hr)).1] at ho
      exact hk.stands hr ho
  · rw [hc.reflection?]
    rw [hc.object?] at ho
    split at ho
    · rename_i hx
      cases ho
      rw [if_pos (Reflected.payload_injective hp), hx]
    · have hold := hk.unique ho hp
      rw [if_neg]
      · exact hold
      · rintro rfl
        cases hc.absent.symm.trans hold

theorem singular_new (settings : HeapSettings) : (Heap.new settings).Singular where
  orderly := (Sound.new settings).orderly
  present := nofun
  stands hr := nomatch hr
  unique ho := by simp [object?, lookup?, Heap.new] at ho

theorem law_singular : Law G Singular := by
  have hL : Law G fun h => h.Orderly ∧ h.Present := law_present
  have hd : ∀ {h : Heap}, h.Singular → h.Orderly ∧ h.Present := fun hk => ⟨hk.orderly, hk.present⟩
  refine {
    entry := fun r f hf hk => hk.of_eq (hL.entry r f hf (hd hk)) rfl fun x o ho => object?_modifyEntry hf x ▸ ho
    books := fun stats pending overflown hk => hk.of_eq (hL.books stats pending overflown (hd hk)) rfl fun _ _ ho => ho
    create := fun hx ho hk => hk.allocate ho (hL.create hx ho (hd hk))
    store := fun v _ hk => hk.modifyObject (fun _ hd => hd.insert _ v) (fun _ => rfl) (fun _ _ _ _ _ hp => hp)
      fun _ _ _ hp => hp
    write := fun f hf hk => hk.modifyObject (fun _ hd => hd) (fun _ => rfl) (fun o key ho hr hc hp => ?_)
      fun o key ho hp => (hf o ho).1.reflected hp
    reflect := fun {h} key hk => ?_ }
  · exact (hf o ho).1.stands hc hp fun hn => ((hf o ho).2 hn).resolve_right fun hnameless => hnameless key hr
  · have hkept : Preserves (fun h => h.Orderly ∧ h.Present) (Heap.reflect key) := fun _ => hL.reflect key
    have hmade := Act.wp_and (wp_reflect_coins hk.orderly.free_vacant key) (Act.wp_of_preserves hkept (hd hk))
    refine (Act.wp_mono hmade (fun r h' hdone => ?_) fun _ _ h => h.1.elim :
      (Heap.reflect key).wp h (fun _ => Singular) fun _ => Singular).state
    rcases hdone with ⟨⟨_, rfl⟩ | hc, hdone⟩
    · exact hk
    · exact hc.singular hk hdone

/-- A reflection is rooted, so a collection leaves it where it is. -/
theorem Singular.collect (hk : h.Singular) (hs : h.Sound) (hm : h.Mirrored) (registry : Registry)
    (provider : RootProvider) : (h.collect registry provider).2.Singular := by
  have hc := collected_collect hs.edges registry provider
  have hpresent : (h.collect registry provider).2.Present := fun key r hr => by
    rw [reflection?, hc.reflections] at hr
    obtain ⟨o, ho⟩ := isLive_iff.1 (hk.present key r hr)
    exact isLive_of_object? ((hc.object? r o).2 ⟨ho, marked_of_rooted provider (hm.rooted hr)⟩)
  exact hk.of_eq ⟨(hs.collect registry provider).orderly, hpresent⟩ hc.reflections fun _ _ ho => object?_of_collect ho

end Heap

end Spool

/-! ## In every world -/

namespace Spool

namespace Heap

variable {h : Heap}

/-- What stands for a class, a module or a function is its reflection and no other object. -/
structure Faithful (h : Heap) : Prop where
  kept : ∀ key r, h.reflection? key = some r → 0 < h.rootCount r ∧
    ∃ o, h.object? r = some o ∧ o.ofClass = key.metaclass ∧ key.Stands o.payload
  only : ∀ (key : Reflected) r o, h.object? r = some o → o.payload = key.payload → h.reflection? key = some r
  same : ∀ (key key' : Reflected) r r' o o', h.object? r = some o → o.payload = key.payload → h.object? r' = some o' →
    o'.payload = key'.payload → (h.sameValue (.object r) (.object r') ↔ key = key')

theorem text?_reflected {key : Reflected} {r : Handle} {o : Object} (ho : h.object? r = some o) (hp : o.payload = key.payload) :
    h.text? (.object r) = none := by
  simp only [text?, ho, Option.bind_some, Object.text?, hp]
  cases key <;> rfl

theorem Singular.faithful (hk : h.Singular) (hm : h.Mirrored) : h.Faithful where
  kept key r hr := by
    obtain ⟨o, ho⟩ := isLive_iff.1 (hk.present key r hr)
    exact ⟨hm.rooted hr, o, ho, hk.stands hr ho⟩
  only _ _ _ ho hp := hk.unique ho hp
  same key key' r r' o o' ho hp ho' hp' := by
    have hr := hk.unique ho hp
    have hr' := hk.unique ho' hp'
    have hsame : h.sameValue (.object r) (.object r') = decide (r = r') := by
      simp [sameValue, text?_reflected ho hp]
    rw [hsame, decide_eq_true_iff]
    constructor
    · rintro rfl
      cases ho.symm.trans ho'
      exact Reflected.payload_injective (hp.symm.trans hp')
    · rintro rfl
      exact Option.some.inj (hr.symm.trans hr')

end Heap

namespace Process

/-- Each object has a payload that its class allows, and reflections are what they have been made to be. -/
theorem law_singular {G : ProcessId → Handle → Prop} : Law G fun p => p.heap.Fitting ∧ p.heap.Singular where
  heap _ := Heap.law_fitting.and Heap.law_singular
  heeds _ hheap hk := hheap ▸ hk
  fitting hk := hk.1
  memoize {p r o cell} ho hcell hfin hvalue hk := by
    refine ⟨(law_fitting (G := G)).memoize ho hcell hfin hvalue hk.1, ?_⟩
    refine hk.2.modifyObject (f := fun o => { o with payload := .future ⟨cell.task, true⟩ }) (fun _ hd => hd) (fun _ => rfl)
      (fun o' key ho' hr _ hp => ?_) fun o' key _ hp => ?_
    · cases ho.symm.trans ho'
      rw [hcell] at hp
      rcases hp with hp | ⟨_, hp⟩
      · cases key <;> cases hp
      · cases hp
    · cases key <;> cases hp
  collect registry hs hm hk := ⟨hk.1.collect registry _, hk.2.collect hs hm registry _⟩
  seeded id settings := by
    refine ⟨(law_fitting (G := G)).seeded id settings, ?_⟩
    have hnew : Heap.Law (fun _ => False) Heap.Singular := Heap.law_singular
    exact hnew.entry _ (fun e => { e with roots := 1 }) (fun _ => rfl)
      (hnew.create (x := .process (some id)) ⟨nofun, nofun⟩ rfl (Heap.singular_new settings))

end Process

namespace World

variable {w : World} {p : Process}

/-- In every heap of every world that can come about, at every moment of a round, and in those of processes that have just
been made, the reflections are there and rooted, and are all that stands for classes, modules and functions. -/
theorem reflections_faithful (hw : w.Arises) (hp : p ∈ w.processes.items) :
    p.heap.Faithful ∧ ∀ s m, Round w p s m →
      m.process.heap.Faithful ∧ ∀ child ∈ m.host.nursery, child.heap.Faithful := by
  have hinv := hw.inv
  refine ⟨((hw.lawful Process.law_singular).processes p hp).1.2.faithful (hinv.intact p hp).anchored.mirrored,
    fun s m hm => ?_⟩
  obtain ⟨_, hgood⟩ := hm.inv hinv hp
  have hlawful := hm.lawful Process.law_singular hw (hinv.get?_id hp)
  exact ⟨hlawful.law.2.faithful hgood.intact.anchored.mirrored, fun child hchild =>
    (hlawful.nursery child hchild).1.2.faithful (hgood.serves.newborn child hchild).intact.anchored.mirrored⟩

/-! ## A class that is started -/

/-- A module that makes the class of classes a kind of process and starts one of its own classes. -/
def starting : CompiledModule :=
  { name := "starting"
    tape := { instructions := #[⟨.push, .name "Class"⟩, ⟨.push, .name "Process"⟩, ⟨.tuple, .scalar (.int 2)⟩,
      ⟨.call, .name "$__set_super"⟩, ⟨.push, .name "Foo"⟩, ⟨.load, .name "worker"⟩, ⟨.setField, .name "function"⟩,
      ⟨.load, .name "Foo"⟩, ⟨.member, .name "start"⟩, ⟨.callBare, .none⟩, ⟨.ret, .scalar (.int 0)⟩] }
    functions := #[{ name := "worker", start := 10 }]
    classes := #[{ name := "Foo", start := 10, stop := 10 }] }

def unstarted : World := (startMain "starting" (register starting {}).2).2

def started : World := (unstarted.step 12 (.tick ⟨1⟩)).get (by decide +kernel)

theorem arises_started : started.Arises :=
  .step (.startMain "starting" (.register starting (.create (r := {}) rfl))) (Option.some_get _).symm

/-- The process that the reflection has been started as. -/
def startedAs? (p : Process) (key : Reflected) : Option ProcessId := do
  match (← p.heap.object? (← p.heap.reflection? key)).payload with
  | .process p => p
  | _ => none

theorem of_startedAs? {key : Reflected} {id : ProcessId} (h : startedAs? p key = some id) : ∃ r o,
    p.heap.reflection? key = some r ∧ p.heap.object? r = some o ∧ o.payload = .process (some id) := by
  unfold startedAs? at h
  obtain ⟨r, hr, h⟩ := Option.bind_eq_some_iff.1 h
  obtain ⟨o, ho, h⟩ := Option.bind_eq_some_iff.1 h
  split at h
  · rename_i hp
    exact ⟨r, o, hr, ho, h ▸ hp⟩
  · cases h

theorem exists_started : ∃ p ∈ started.processes.items, startedAs? p (.ofClass ⟨18⟩) = some ⟨2⟩ := by
  have hfound : started.processes.items[0]?.bind (startedAs? · (.ofClass ⟨18⟩)) = some ⟨2⟩ := by decide +kernel
  obtain ⟨p, hp, hfound⟩ := Option.bind_eq_some_iff.1 hfound
  exact ⟨p, Array.mem_of_getElem? hp, hfound⟩

/-- The reflection of the class is rooted still, and a class of classes. -/
theorem reflections_faithful_started : ∃ p ∈ started.processes.items, ∃ r, p.heap.reflection? (.ofClass ⟨18⟩) = some r ∧
    0 < p.heap.rootCount r ∧ ∃ o, p.heap.object? r = some o ∧ o.ofClass = .metaclass := by
  obtain ⟨p, hp, hfound⟩ := exists_started
  obtain ⟨r, _, hr, _⟩ := of_startedAs? hfound
  obtain ⟨hrooted, o, ho, hclass, _⟩ := (reflections_faithful arises_started hp).1.kept _ _ hr
  exact ⟨p, hp, r, hr, hrooted, o, ho, hclass⟩

/-- But it does not stand for the class any more. -/
theorem estranged_class : started.Arises ∧ ∃ p ∈ started.processes.items, ∃ r o,
    p.heap.reflection? (.ofClass ⟨18⟩) = some r ∧ p.heap.object? r = some o ∧
      o.payload ≠ (Reflected.ofClass ⟨18⟩).payload := by
  obtain ⟨p, hp, hfound⟩ := exists_started
  obtain ⟨r, o, hr, ho, hpayload⟩ := of_startedAs? hfound
  refine ⟨arises_started, p, hp, r, o, hr, ho, ?_⟩
  rw [hpayload]
  nofun

end World

end Spool
