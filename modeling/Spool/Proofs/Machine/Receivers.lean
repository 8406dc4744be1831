import Spool.Proofs.Heap.Faults
import Spool.Proofs.Heap.Laws
import Spool.Proofs.Machine.Guarded
import Spool.Proofs.Machine.Suspensions

/-!
# Methods and their receivers

A new object has the payload of its own class, and the methods that work on a payload look at nothing else: they refuse
what has another one. The methods of processes take any object.
-/

namespace Spool

/-! ## Actions and their faults -/

namespace Act

variable {σ α β : Type} {F : Fault → Prop}

/-- Whatever state it begins in, the action fails in one of these ways or not at all. -/
def Faults (F : Fault → Prop) (act : Act σ α) : Prop := ∀ s, act.wp s (fun _ _ => True) fun e _ => F e

theorem faults_pure (a : α) : (pure a : Act σ α).Faults F := fun _ => trivial

theorem faults_throw {e : Fault} (he : F e) : (throw e : Act σ α).Faults F := fun _ => he

theorem faults_lift (act : StateM σ α) : (liftM act : Act σ α).Faults F := fun _ => trivial

theorem Faults.bind {act : Act σ α} {k : α → Act σ β} (ha : act.Faults F) (hk : ∀ a, (k a).Faults F) :
    (act >>= k).Faults F := by
  intro s
  rw [wp_bind]
  exact wp_mono (ha s) (fun a s' _ => hk a s') fun _ _ h => h

theorem faults_get {k : σ → Act σ β} (hk : ∀ s, (k s).Faults F) : (get >>= k).Faults F := fun s => hk s s

theorem StaleOnly.faults {act : Act σ α} (ha : act.StaleOnly) (hF : F .stale) : act.Faults F := fun s =>
  wp_mono (ha s) (fun _ _ _ => trivial) fun _ _ h => h ▸ hF

end Act

/-- What a type error has asked for. -/
def Fault.expected? : Fault → Option String
  | type expected _ => some expected
  | _ => none

theorem Fault.expected?_eq_some {e : Fault} {expected : String} :
    e.expected? = some expected ↔ ∃ actual, e = .type expected actual := by
  cases e <;> simp [expected?]

/-- What a method asks of its receiver: what it says when it refuses, and the classes whose objects it works on. -/
def Native.demand? : Native → Option (String × List ClassId)
  | .ownLen => some ("String, Array or Tuple", [.string, .array, .tuple])
  | .concat => some ("String", [.string])
  | .arrayPush => some ("Array", [.array])
  | .arrayPop => some ("Array", [.array])
  | _ => none

namespace Payload

variable {x : Payload} {c : ClassId}

/-- The payloads at home in the three classes of containers. -/
theorem shape_of_home? (x : Payload) : (x.home? = some .string → ∃ s, x = text s) ∧
    (x.home? = some .array → ∃ items, x = array items) ∧ (x.home? = some .tuple → ∃ items, x = tuple items) := by
  cases x with
  | text s => exact ⟨fun _ => ⟨s, rfl⟩, nofun, nofun⟩
  | array items => exact ⟨nofun, fun _ => ⟨items, rfl⟩, nofun⟩
  | tuple items => exact ⟨nofun, nofun, fun _ => ⟨items, rfl⟩⟩
  | process p =>
      cases p with
      | none => exact ⟨nofun, nofun, nofun⟩
      | some p => exact ⟨nofun, nofun, nofun⟩
  | _ => exact ⟨nofun, nofun, nofun⟩

/-- Unless it has been started, an object of a class that gives a payload has one of that kind. -/
theorem Fits.home?_eq (hx : x.Fits c) (hstarted : ∀ p, x ≠ process (some p)) (hc : c.seed ≠ .plain) :
    x.home? = some c := by
  cases hk : x.home? with
  | some k => rw [hx.home k hk]
  | none =>
      exfalso
      cases x with
      | none => exact hc (hx.plain rfl)
      | process p =>
          cases p with
          | none => cases hk
          | some p => exact hstarted p rfl
      | _ => cases hk

end Payload

namespace Machine

open Act

variable {m m' : Machine} {g : Outlook} {cur : Option TaskId} {t : TaskId} {r : Handle} {o : Object} {α : Type}

/-- The method fails with a type error about the object as its receiver. -/
def Refuses (m : Machine) (body : Native) (r : Handle) (argument : Value) (expected : String) : Prop :=
  ∃ actual, (runNative (.object r) argument body m).1 = .error (.type expected actual)

instance (m : Machine) (body : Native) (r : Handle) (argument : Value) (expected : String) :
    Decidable (m.Refuses body r argument expected) :=
  match h : (runNative (.object r) argument body m).1 with
  | .error e => decidable_of_iff (e.expected? = some expected) (by simp [Refuses, h, Fault.expected?_eq_some])
  | .ok _ => isFalse (by simp [Refuses, h])

/-! ## New objects -/

/-- Members change neither the class nor the payload. -/
theorem preserves_fields (r : Handle) (Q : ClassId → Payload → Prop) (names : List String) :
    Preserves (fun m : Machine => ∀ o, m.process.heap.object? r = some o → Q o.ofClass o.payload)
      (forIn names PUnit.unit fun name _ => do
        if (← look fun h => h.member r name).isNone then
          onHeap (Heap.setMember r name .none)
        pure (ForInStep.yield PUnit.unit)) := by
  refine preserves_forIn (fun name _ => preserves_bind (fun _ h => h) fun member => ?_) _ _
  split
  · refine preserves_bind (fun m₁ hm₁ => ?_) fun _ => preserves_pure _
    refine (Heap.aloof_at r fun o => Q o.ofClass o.payload).setMember r name .none (fun h hk o ho => ?_) m₁.process.heap hm₁
    rcases Heap.object?_of_modifyObject ho with ⟨_, hne⟩ | ⟨_, o', ho', rfl⟩
    · exact absurd rfl hne
    · exact hk o' ho'
  · exact fun _ h => h

/-- A new object has what its own class gives it. -/
theorem wp_instantiate (hm : m.Going g cur) (hr : m.host.registry.Seeded) (c : ClassId) :
    (instantiate c).wp m (fun r m' => m'.Going g cur ∧
      ∃ o, m'.process.heap.object? r = some o ∧ o.ofClass = c ∧ o.payload = c.seed.payload) fun _ _ => True := by
  have hmade : (instantiate c).wp m (fun r m' => ∀ o, m'.process.heap.object? r = some o →
      o.ofClass = c ∧ o.payload = c.seed.payload) fun _ _ => True := by
    unfold instantiate
    simp only [Act.wp_bind, Act.wp_lift, Act.wp_get]
    have hnew : ∀ o, (newObject c m).2.process.heap.object? (newObject c m).1 = some o →
        o.ofClass = c ∧ o.payload = c.seed.payload := fun o ho => by
      rw [Heap.object?_allocate_self _ _ _ ho]
      exact ⟨rfl, hr c⟩
    exact Act.wp_mono (Act.wp_of_preserves (preserves_fields _ (fun c' x => c' = c ∧ x = c.seed.payload) _) hnew)
      (fun _ _ h => h) fun _ _ _ => trivial
  refine Act.wp_mono (Act.wp_and (keeps_instantiate hm c) hmade) (fun r m' h => ?_) fun _ _ _ => trivial
  obtain ⟨⟨hgo, _, hlive⟩, hmade⟩ := h
  obtain ⟨o, ho⟩ := Heap.isLive_iff.1 hlive
  exact ⟨hgo, o, ho, hmade o ho⟩

/-- A call of a class gives the object itself, or leaves it in the register while the constructor runs. -/
theorem wp_construct (ha : m.process.Arena []) (hlt : m.task.index < m.process.tasks.size) (c : ClassId)
    (argument : Value) :
    (construct c argument).wp m (fun reply m' => ∃ r, (instantiate c m).1 = .ok r ∧
      (reply = .value (.object r) ∨ reply = .parked ∧ m'.register = .object r)) fun _ _ => True := by
  have hvalue : (construct c argument).wp m (fun reply _ => ∀ v, reply = .value v →
      ∃ r, (instantiate c m).1 = .ok r ∧ v = .object r) fun _ _ => True := by
    unfold construct
    rw [Act.wp_bind]
    rcases hrun : instantiate c m with ⟨_ | r, m₁⟩
    · simp only [Act.wp, hrun]
    have hgiven : ∀ v, Reply.value (.object r) = .value v → ∃ r', (Except.ok r : Except Fault Handle) = .ok r' ∧ v = .object r' :=
      fun v hv => ⟨r, rfl, (Reply.value.inj hv).symm⟩
    refine Act.wp_of_eq_ok hrun ?_
    rw [Act.wp_bind, Act.wp_get]
    dsimp only
    split
    · exact hgiven
    · split
      · rw [Act.wp_bind, Act.wp_discard]
        unfold Act.wp
        split
        · exact hgiven
        · trivial
      · trivial
      · exact fun v hv => by cases hv
  refine Act.wp_mono (Act.wp_and hvalue (behaves_construct hlt ha c argument .keep)) (fun reply m' h => ?_) fun _ _ _ => trivial
  obtain ⟨hvalue, _, hparked⟩ := h
  cases reply with
  | value v =>
      obtain ⟨r, hrun, rfl⟩ := hvalue v rfl
      exact ⟨r, hrun, .inl rfl⟩
  | parked =>
      obtain ⟨y, hcalls⟩ := hparked rfl
      cases hcalls with
      | function _ _ h => cases h
      | object _ r _ hrun _ _ hregister => exact ⟨r, hrun, .inr ⟨rfl, hregister⟩⟩

/-! ## Methods that work on a payload -/

/-- The action fails with a type error if something is amiss, and in no other case. -/
def Screens (P : Prop) (expected : String) (act : Act Machine α) (m : Machine) : Prop :=
  act.wp m (fun _ _ => P)
    fun e _ => P ∧ (∀ actual, e ≠ .type expected actual) ∨ ¬ P ∧ ∃ actual, e = .type expected actual

theorem Screens.refuses_iff {body : Native} {argument : Value} {expected : String} {P : Prop}
    (h : Screens P expected (runNative (.object r) argument body) m) : m.Refuses body r argument expected ↔ ¬ P := by
  unfold Screens Act.wp at h
  unfold Refuses
  rcases hrun : runNative (.object r) argument body m with ⟨e | v, m'⟩
  · rw [hrun] at h
    rcases h with ⟨hp, hne⟩ | ⟨hp, actual, rfl⟩
    · exact ⟨fun ⟨actual, heq⟩ => absurd (Except.error.inj heq) (hne actual), fun hnp => absurd hp hnp⟩
    · exact ⟨fun _ => hp, fun _ => ⟨actual, rfl⟩⟩
  · rw [hrun] at h
    exact ⟨fun ⟨_, heq⟩ => (nomatch heq), fun hnp => absurd h hnp⟩

/-- The payload is at home in one of these classes. -/
def Housed (x : Payload) (homes : List ClassId) : Prop := ∃ k ∈ homes, x.home? = some k

theorem housed_iff (hfit : o.payload.Fits o.ofClass) (hstarted : ∀ x, o.payload ≠ .process (some x)) {homes : List ClassId}
    (hhomes : ∀ c ∈ homes, c.seed ≠ .plain) : Housed o.payload homes ↔ o.ofClass ∈ homes :=
  ⟨fun ⟨k, hk, hhome⟩ => hfit.home k hhome ▸ hk, fun hc => ⟨o.ofClass, hc, hfit.home?_eq hstarted (hhomes _ hc)⟩⟩

theorem fetch_eq (ho : m.process.heap.object? r = some o) : fetch r m = (.ok o, m) := by
  have hrun : fetch r m = (m.process.heap.fetch r, m) := rfl
  rw [hrun, Heap.fetch, ho]

theorem screens_length (ho : m.process.heap.object? r = some o) :
    Screens (Housed o.payload [.string, .array, .tuple]) "String, Array or Tuple" (length (.object r)) m := by
  unfold length Screens
  rw [Act.wp_bind, Act.wp_get]
  dsimp only
  rw [Act.wp_bind]
  refine Act.wp_of_eq_ok (fetch_eq ho) ?_
  split
  · rename_i s hs
    exact ⟨.string, by simp, by rw [hs]; rfl⟩
  · rename_i items ha
    exact ⟨.array, by simp, by rw [ha]; rfl⟩
  · rename_i items ht
    exact ⟨.tuple, by simp, by rw [ht]; rfl⟩
  · rename_i hs ha ht
    refine .inr ⟨?_, _, rfl⟩
    rintro ⟨k, hk, hhome⟩
    obtain ⟨htext, harray, htuple⟩ := o.payload.shape_of_home?
    simp only [List.mem_cons, List.not_mem_nil, or_false] at hk
    rcases hk with rfl | rfl | rfl
    · exact (htext hhome).elim hs
    · exact (harray hhome).elim ha
    · exact (htuple hhome).elim ht

theorem screens_concat (ho : m.process.heap.object? r = some o) (argument : Value) :
    Screens (Housed o.payload [.string]) "String" (concat (.object r) argument) m := by
  have htext : m.text? (.object r) = o.text? := by
    change (m.process.heap.object? r).bind Object.text? = o.text?
    rw [ho]
    rfl
  unfold concat Screens
  rw [Act.wp_bind, Act.wp_get]
  rw [htext]
  unfold Object.text?
  cases hp : o.payload with
  | text s => exact ⟨.string, by simp, rfl⟩
  | _ =>
      refine .inr ⟨?_, _, rfl⟩
      rintro ⟨k, hk, hhome⟩
      rw [List.mem_singleton.1 hk] at hhome
      obtain ⟨_, hx⟩ := (Payload.shape_of_home? _).1 hhome
      cases hx

theorem not_housed_array {x : Payload} (hx : ∀ items, x ≠ .array items) : ¬ Housed x [.array] := by
  rintro ⟨k, hk, hhome⟩
  rw [List.mem_singleton.1 hk] at hhome
  exact (x.shape_of_home?.2.1 hhome).elim hx

/-- A fault over a dead handle is no type error. -/
theorem stale_of_housed {P : Prop} (hp : P) {expected : String} {e : Fault} (he : e = .stale) :
    P ∧ (∀ actual, e ≠ .type expected actual) ∨ ¬ P ∧ ∃ actual, e = .type expected actual := by
  subst he
  exact .inl ⟨hp, nofun⟩

theorem screens_arrayPush (ho : m.process.heap.object? r = some o) {argument : Value} (ha : m.process.heap.Valid argument) :
    Screens (Housed o.payload [.array]) "Array" (runNative (.object r) argument .arrayPush) m := by
  obtain ⟨e, he, rfl⟩ := Heap.lookup?_of_object? ho
  simp only [Screens, runNative, expectObject, Act.wp_bind, Act.wp_pure]
  refine wp_onHeap ?_
  simp only [Heap.arrayPush, Act.wp_bind]
  refine Heap.wp_requireStorable (fun _ => ?_) fun hv => absurd ha hv
  simp only [Heap.wp_entry, he, Heap.arraySize?, Object.array?]
  cases hp : e.object.payload with
  | array items =>
      have hhoused : Housed (.array items) [.array] := ⟨.array, List.mem_singleton_self _, rfl⟩
      simp only [Option.map_some, Act.wp_bind, Act.wp_modify]
      exact Act.wp_mono (Heap.staleOnly_link r argument _) (fun _ _ _ => hhoused) fun _ _ he => stale_of_housed hhoused he
  | _ => exact .inr ⟨not_housed_array nofun, _, rfl⟩

theorem screens_arrayPop (ho : m.process.heap.object? r = some o) (argument : Value) :
    Screens (Housed o.payload [.array]) "Array" (runNative (.object r) argument .arrayPop) m := by
  obtain ⟨e, he, rfl⟩ := Heap.lookup?_of_object? ho
  simp only [Screens, runNative, expectObject, Act.wp_bind, Act.wp_pure]
  refine wp_onHeap ?_
  simp only [Heap.arrayPop, Act.wp_bind, Heap.wp_entry, he, Heap.lastItem?, Object.array?]
  cases hp : e.object.payload with
  | array items =>
      have hhoused : Housed (.array items) [.array] := ⟨.array, List.mem_singleton_self _, rfl⟩
      simp only [Option.map_some, Act.wp_bind, Act.wp_modify]
      refine Act.wp_mono (Heap.staleOnly_unlink r _ _) (fun _ _ _ => ?_) fun _ _ he => stale_of_housed hhoused he
      cases items.back? with
      | some v => exact hhoused
      | none => exact .inl ⟨hhoused, nofun⟩
  | _ => exact .inr ⟨not_housed_array nofun, _, rfl⟩

/-- The class decides whether the method refuses the object. -/
theorem refuses_iff (ho : m.process.heap.object? r = some o) (hfit : o.payload.Fits o.ofClass)
    (hstarted : ∀ x, o.payload ≠ .process (some x)) {body : Native} {expected : String} {homes : List ClassId}
    (hbody : body.demand? = some (expected, homes)) {argument : Value} (ha : m.process.heap.Valid argument) :
    m.Refuses body r argument expected ↔ o.ofClass ∉ homes := by
  have hscreens : Screens (Housed o.payload homes) expected (runNative (.object r) argument body) m ∧
      ∀ c ∈ homes, c.seed ≠ .plain := by
    cases body with
    | ownLen =>
        cases hbody
        exact ⟨screens_length ho, by decide⟩
    | concat =>
        cases hbody
        exact ⟨screens_concat ho argument, by decide⟩
    | arrayPush =>
        cases hbody
        exact ⟨screens_arrayPush ho ha, by decide⟩
    | arrayPop =>
        cases hbody
        exact ⟨screens_arrayPop ho argument, by decide⟩
    | _ => cases hbody
  rw [hscreens.1.refuses_iff, housed_iff hfit hstarted hscreens.2]

/-! ## Methods of processes -/

/-- The fault is no type error about a process. -/
def Amenable (e : Fault) : Prop := ∀ actual, e ≠ .type "Process" actual

theorem staleOnly_newFuture (x : TaskId) : (newFuture x).StaleOnly :=
  StaleOnly.bind (fun _ => trivial) fun _ => StaleOnly.bind (fun _ => trivial) fun r =>
    (staleOnly_onHeap (Heap.staleOnly_putPayload r _)).bind fun _ => staleOnly_pure _

theorem faults_expectObject {v : Value} {expected : String} (hne : expected ≠ "Process") :
    (expectObject v expected).Faults Amenable := by
  cases v with
  | object r => exact faults_pure _
  | none => exact faults_get fun _ => faults_throw fun actual h => hne (Fault.type.inj h).1
  | scalar s => exact faults_get fun _ => faults_throw fun actual h => hne (Fault.type.inj h).1

theorem faults_fetch (r : Handle) : (fetch r).Faults Amenable := fun _ =>
  wp_fetch r (fun _ _ => trivial) nofun

theorem faults_spawn (callee argument : Value) : (spawn callee argument).Faults Amenable := by
  have hentry : (entryPoint callee).Faults Amenable := by
    refine (faults_expectObject (by decide)).bind fun r => (faults_fetch r).bind fun o => ?_
    split
    · exact faults_pure _
    · exact faults_pure _
    · exact faults_get fun _ => faults_throw nofun
  refine hentry.bind fun b => faults_get fun m => ?_
  dsimp only
  split
  · refine Faults.bind (StaleOnly.faults (staleOnly_onHeap (Heap.staleOnly_reflect _)) nofun) fun object => ?_
    refine Faults.bind (fun _ => trivial) fun child => (faults_lift _).bind fun carrier => faults_get fun m₁ => ?_
    have hfurnish := staleOnly_furnish m₁.process.heap m.host.registry (m.host.registry.functionAt b.function).module
      b.receiver argument object child.heap
    unfold Act.wp at hfurnish
    rcases hf : furnish m₁.process.heap m.host.registry (m.host.registry.functionAt b.function).module b.receiver argument
      object child.heap with ⟨e | baggage, heap⟩
    · rw [hf] at hfurnish
      dsimp only at hfurnish ⊢
      subst hfurnish
      exact (faults_lift _).bind fun _ => faults_throw nofun
    · exact (faults_lift _).bind fun _ => (StaleOnly.faults (staleOnly_newFuture _) nofun).bind fun _ => faults_pure _
  · exact faults_throw nofun

theorem faults_processStart (r : Handle) (argument : Value) : (processStart (.object r) argument).Faults Amenable := by
  have hstart : ∀ (r : Handle) (o : Object), (launchEntry r o argument).Faults Amenable := by
    intro r o
    unfold launchEntry
    split
    · exact faults_throw nofun
    · exact (faults_spawn _ argument).bind fun x =>
        (StaleOnly.faults (staleOnly_onHeap (Heap.staleOnly_putPayload r _)) nofun).bind fun _ => faults_pure _
  refine Faults.bind (faults_pure r) fun r => (faults_fetch r).bind fun o => ?_
  dsimp only
  split
  · exact Faults.bind (faults_throw nofun) fun _ => hstart r o
  · exact hstart r o

/-- Whatever the class of the object is, the methods of processes take it. -/
theorem not_refuses_process {body : Native} (hbody : body ∈ [Native.processNew, .processStart, .processNumber]) (r : Handle)
    (argument : Value) : ¬ m.Refuses body r argument "Process" := by
  have hfaults : (runNative (.object r) argument body).Faults Amenable := by
    simp only [List.mem_cons, List.not_mem_nil, or_false] at hbody
    rcases hbody with rfl | rfl | rfl
    · exact Faults.bind (faults_pure r) fun r =>
        (StaleOnly.faults (staleOnly_onHeap (Heap.staleOnly_setMember r _ argument)) nofun).bind fun _ => faults_pure _
    · exact faults_processStart r argument
    · refine Faults.bind (Faults.bind (faults_pure r) fun r => (faults_fetch r).bind fun _ => faults_pure _) fun x => ?_
      split
      · exact faults_pure _
      · exact faults_pure _
  rintro ⟨actual, herror⟩
  exact (hfaults m).error herror actual rfl

end Machine

end Spool
