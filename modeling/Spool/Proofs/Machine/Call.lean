import Spool.Machine.Call
import Spool.Proofs.Machine.Natives

/-!
# Calls keep a machine going

A call yields a live value or leaves the task parked. What it hands over to a new task or to the background pool has
an owner at every moment.
-/

namespace Spool

/-- There is one more task that gets a result from elsewhere. -/
def Outlook.expect (g : Outlook) (t : TaskId) : Outlook := { g with pledged := fun x => g.pledged x ∨ x = t }

namespace Machine

variable {g : Outlook} {cur : Option TaskId} {m m' : Machine} {t : TaskId} {α β : Type} {v : Value} {roots : List Handle}

/-- The task is parked, and nothing runs. -/
structure Resting (g : Outlook) (t : TaskId) (m : Machine) : Prop where
  inv : m.Inv g none []
  task : m.task = t
  unfinished : ¬ (m.process.taskAt t).state.isFinished

/-- Where a call leaves the machine. -/
def Answered (g : Outlook) (t : TaskId) : Reply → Machine → Prop
  | .value v, m => m.Going g (some t) ∧ m.process.heap.Valid v
  | .parked, m => m.Resting g t

/-- A call that never meets a dead handle, and after which the value `v` is still live. -/
def Replies (g : Outlook) (t : TaskId) (v : Value) (act : Act Machine Reply) (m : Machine) : Prop :=
  act.wp m (fun reply m' => Answered g t reply m' ∧ m'.process.heap.Valid v)
    (fun e m' => m'.Going g (some t) ∧ e ≠ .stale)

theorem Keeps.replies {act : Act Machine α} {k : α → Act Machine Reply} {P : α → Machine → Prop}
    (ha : Keeps g (some t) act m P)
    (hk : ∀ a m', m'.Going g (some t) → m.Grows m' → P a m' → Replies g t v (k a) m') :
    Replies g t v (act >>= k) m := by
  unfold Replies
  rw [Act.wp_bind]
  exact Act.wp_mono ha (fun a m₁ h => hk a m₁ h.1 h.2.1 h.2.2) fun _ _ h => ⟨h.1, h.2.2⟩

theorem replies_get {k : Machine → Act Machine Reply} (hk : Replies g t v (k m) m) : Replies g t v (get >>= k) m := by
  unfold Replies
  rw [Act.wp_bind]
  exact hk

theorem replies_value (hm : m.Going g (some t)) (hv : m.process.heap.Valid v) {w : Value}
    (hw : m.process.heap.Valid w) : Replies g t v (pure (.value w)) m :=
  ⟨⟨hm, hw⟩, hv⟩

theorem replies_throw (hm : m.Going g (some t)) {e : Fault} (he : e ≠ .stale) : Replies g t v (throw e) m :=
  ⟨hm, he⟩

/-! ## Parking and starting -/

/-- The running task waits for one that has not come to its end with an object for a result. -/
theorem replies_await (hm : m.Going g (some t)) (hv : m.process.heap.Valid v) {x : TaskId} (delivery : Delivery)
    (reason : WaitReason)
    (hx : ∀ task, m.process.tasks[x.index]? = some task → task.state.isFinished → task.Hollow) :
    Replies g t v (liftM (await x delivery reason)) m := by
  obtain ⟨rfl, hr⟩ := hm.current
  have hp := hm.inv.intact.await hr delivery reason hx
  refine ⟨⟨hm.inv.update hp rfl rfl, rfl, ?_⟩, hv⟩
  change ¬ (((m.process.modifyTask x fun task => task.addDependent m.task delivery).modifyTask m.task
    (·.park reason)).taskAt m.task).state.isFinished
  rw [Process.taskAt_modifyTask, if_pos ⟨rfl, by simpa [Process.modifyTask] using hr.index_lt⟩]
  simp [Task.park, TaskState.isFinished]

/-- A new task is in the queue and has not come to its end. -/
theorem kept_startCall (hm : m.Going g (some t)) {b : BoundFunction} (start : Nat) {argument : Value}
    (hr : m.process.heap.Valid b.receiver) (hc : ∀ c, b.capture = some c → m.process.Secure c)
    (ha : m.process.heap.Valid argument) :
    Kept g (some t) (startCall b start argument) m fun x m' =>
      m'.process.Behind (.task x) ∧
      ∀ task, m'.process.tasks[x.index]? = some task → ¬ task.state.isFinished := by
  have hp := (hm.inv.intact.startCall m.host.registry start (some m.task) hr hc ha).enqueue
  have hready : ∀ x, some t = some x →
      (m.process.startCall m.host.registry b start argument (some m.task)).2.Ready x := fun x hx =>
    (hm.running x hx).2.startTask _ _ _
  have hframe : ∃ tasks contexts free, (m.process.startCall m.host.registry b start argument (some m.task)).2
      = { m.process with tasks := tasks, contexts := contexts, freeContexts := free } := Process.startTask_frame _ _ _ _
  have hrun : startCall b start argument m = (⟨m.process.tasks.size⟩, { m with
      process := (m.process.startCall m.host.registry b start argument (some m.task)).2.enqueue ⟨m.process.tasks.size⟩ }) :=
    rfl
  unfold Kept
  rw [hrun]
  generalize (m.process.startCall m.host.registry b start argument (some m.task)).2 = p at hp hready hframe
  obtain ⟨tasks, contexts, free, rfl⟩ := hframe
  have hun := (hp.schedule.ready ⟨m.process.tasks.size⟩ (by
    simp [Process.scheduled, Process.enqueue, Fifo.toList_push])).taskAt.1
  refine ⟨hm.update hp rfl rfl hready, ⟨rfl, fun w hw => hw⟩, fun task ht => ?_, fun task ht => ?_⟩
  · refine hp.fit.values ⟨m.process.tasks.size⟩ task ht (.inl ?_) _ List.mem_cons_self
    rw [← Process.taskAt_of_getElem? (t := ⟨m.process.tasks.size⟩) ht]
    exact hun
  · rw [← Process.taskAt_of_getElem? (t := ⟨m.process.tasks.size⟩) ht]
    exact hun

/-! ## Background functions -/

theorem Inv.newCarrier (hm : m.Inv g cur roots) :
    ({ m with process := (m.process.newCarrier m.task).2 } : Machine).Inv (g.expect ⟨m.process.tasks.size⟩) cur roots := by
  refine ⟨(hm.intact.newCarrier m.task).mono fun x hx => ?_, hm.id, hm.serves.calm, hm.serves.others, hm.serves.born,
    hm.serves.numbers, hm.serves.newborn, hm.serves.staffed⟩
  rcases hx with (hx | hx) | hx | hx | hx
  · exact .inl (.inl hx)
  · exact .inr hx
  · exact .inl (.inr (.inl hx))
  · exact .inl (.inr (.inr (.inl hx)))
  · exact .inl (.inr (.inr (.inr hx)))

/-- A root for a live object. -/
theorem Inv.root (hm : m.Inv g cur roots) {r : Handle} (hr : m.process.heap.isLive r) :
    ∃ heap, onHeap (Heap.root r) m = (.ok (), { m with process := { m.process with heap } }) ∧
      ({ m with process := { m.process with heap } } : Machine).Inv g cur (r :: roots) ∧
      ∀ v, m.process.heap.Valid v → heap.Valid v := by
  have hroot := Heap.wp_root hm.intact.fit.sound r
  have hrun : onHeap (Heap.root r) m = ((Heap.root r m.process.heap).1,
      { m with process := { m.process with heap := (Heap.root r m.process.heap).2 } }) := rfl
  unfold Act.wp at hroot
  rw [hrun]
  rcases hx : Heap.root r m.process.heap with ⟨_ | _, heap⟩
  · rw [hx] at hroot
    exact absurd hr hroot.2.2
  · rw [hx] at hroot
    obtain ⟨_, hc⟩ := hroot
    have hp := hm.intact.reroot (r :: (roots ++ g.held)) hc fun x => by
      change _ = (roots ++ g.held).count x + _
      simp only [List.count_cons]
      by_cases hxr : x = r
      · simp [hxr]
        omega
      · simp [hxr, Ne.symm hxr]
        omega
    refine ⟨heap, rfl, ⟨hp, hm.id, hm.serves⟩, fun v hv x hx => ?_⟩
    rw [hc.isLive]
    exact hv x hx

/-- A root for a live value, if it is an object. -/
theorem wp_hold (hm : m.Inv g cur roots) {w : Value} (hw : m.process.heap.Valid w) :
    (hold w).wp m
      (fun held m' => m'.Inv g cur (held ++ roots) ∧ (∀ r, w = .object r → r ∈ held) ∧
        ∃ heap, m' = { m with process := { m.process with heap } } ∧ ∀ v, m.process.heap.Valid v → heap.Valid v)
      (fun _ _ => False) := by
  cases w with
  | object r =>
      obtain ⟨heap, hrun, hinv, hv⟩ := hm.root (hw r rfl)
      simp only [hold, Act.wp_bind, Act.wp_pure]
      refine Act.wp_of_eq_ok hrun ⟨hinv, fun _ h => ?_, heap, rfl, hv⟩
      cases h
      exact List.mem_singleton.2 rfl
  | none => exact ⟨hm, fun _ h => (by cases h), m.process.heap, rfl, fun _ h => h⟩
  | scalar s => exact ⟨hm, fun _ h => (by cases h), m.process.heap, rfl, fun _ h => h⟩

/-- The background pool takes over the roots that a call holds. -/
theorem Inv.submit (call : BackgroundCall) (hm : m.Inv (g.expect call.carrier) cur (call.held ++ roots))
    (hid : call.process = g.id)
    (hargs : ∀ r, call.receiver = .object r ∨ call.argument = .object r → r ∈ call.held) (n : Nat) :
    ({ m with
      process := { m.process with inFlight := n }
      host := { m.host with pool := m.host.pool.submit call } } : Machine).Inv g cur roots := by
  have hs := hm.serves
  have hp := hm.intact
  have hjobs := hs.staffed.jobs_submit call
  have hsch : ({ m.process with inFlight := n } : Process).Schedule cur _ _ := hp.schedule.congr rfl rfl rfl rfl
  refine ⟨⟨hp.fit.congr rfl rfl rfl rfl rfl, ?_, hsch.mono fun x hx => ?_, hp.linked⟩, hm.id, hs.calm, ?_, hs.born,
    hs.numbers, hs.newborn, hs.staffed.submit call⟩
  · have ha : ({ m.process with inFlight := n } : Process).Anchored (m.ledger (g.expect call.carrier) []).calls
        (call.held ++ (roots ++ g.held)) := by
      rw [← List.append_assoc]
      exact hp.anchored.congr rfl rfl rfl rfl fun _ _ => rfl
    refine (ha.charge hargs).perm ((hjobs.filter _).trans (List.Perm.of_eq ?_))
    rw [List.filter_cons_of_pos (by simpa using hid)]
    rfl
  · rcases hx with hx | ⟨c, hc, hcid, rfl⟩ | hx | hx
    · exact .inl (.inl hx)
    · rcases List.mem_cons.1 (hjobs.mem_iff.1 hc) with rfl | hc
      · exact .inl (.inr rfl)
      · exact .inr (.inl ⟨c, hc, hcid, rfl⟩)
    · exact .inr (.inr (.inl hx))
    · exact .inr (.inr (.inr hx))
  · refine List.Perm.trans ?_ hs.others
    refine (hjobs.filter _).trans (List.Perm.of_eq ?_)
    rw [List.filter_cons_of_neg (by simpa using hid)]
    rfl

theorem replies_launchBackground (hm : m.Going g (some t)) (hv : m.process.heap.Valid v) (async : Bool)
    (body : Background) {receiver argument : Value} (hr : m.process.heap.Valid receiver)
    (ha : m.process.heap.Valid argument) (delivery : Delivery) :
    Replies g t v (launchBackground async body receiver argument delivery) m := by
  obtain ⟨rfl, hready⟩ := hm.current
  unfold launchBackground Replies
  simp only [Act.wp_bind, Act.wp_lift]
  refine Act.wp_mono (wp_hold hm.inv.newCarrier (w := receiver) hr) (fun first m₁ hdone => ?_)
    fun _ _ => False.elim
  obtain ⟨h₁, hfirst, heap₁, he₁, hv₁⟩ := hdone
  have ha₁ : m₁.process.heap.Valid argument := by
    rw [he₁]
    exact hv₁ argument ha
  refine Act.wp_mono (wp_hold h₁ ha₁) (fun second m₂ hdone => ?_) fun _ _ => False.elim
  obtain ⟨h₂, hsecond, heap₂, he₂, hv₂⟩ := hdone
  simp only [Act.wp_get]
  subst he₁
  subst he₂
  have hgrow : ∀ w, m.process.heap.Valid w → heap₂.Valid w := fun w hw => hv₂ w (hv₁ w hw)
  have hperm : (first ++ second ++ []).Perm (second ++ (first ++ [])) := by simpa using List.perm_append_comm
  have h₃ := h₂.reorder hperm
  have hgo := Inv.submit (g := g)
    { process := g.id, carrier := ⟨m.process.tasks.size⟩, body, receiver, argument, held := first ++ second } h₃ rfl
    (fun r hr => hr.elim (fun h => List.mem_append_left _ (hfirst r h)) fun h => List.mem_append_right _ (hsecond r h))
    (m.process.inFlight + 1)
  have hcar := Process.getElem?_newCarrier m.process m.task
  have hid : m.process.id = g.id := hm.inv.id
  rw [← hid] at hgo
  split
  · refine Keeps.replies (P := fun w m' => m'.process.heap.Valid w) (keeps_newFuture ⟨hgo, fun x hx => ?_⟩ fun task ht => ?_)
      fun w m₃ hm₃ hr₃ hw => replies_value hm₃ (hr₃.valid v (hgrow v hv)) hw
    · cases hx
      exact ⟨rfl, hready.newCarrier m.task⟩
    · cases hcar.symm.trans ht
      exact valid_none
  · refine replies_await ⟨hgo, fun x hx => ?_⟩ (hgrow v hv) delivery .onFuture fun task ht hfin => ?_
    · cases hx
      exact ⟨rfl, hready.newCarrier m.task⟩
    · cases hcar.symm.trans ht
      cases hfin

/-! ## Calling -/

/-- The value in the register outlives a call, also one that collects garbage. -/
theorem replies_invoke (hm : m.Going g (some t)) {b : BoundFunction} {argument : Value}
    (hr : m.process.heap.Valid b.receiver) (hc : ∀ c, b.capture = some c → m.process.Secure c)
    (ha : m.process.heap.Valid argument) (delivery : Delivery) :
    Replies g t m.register (invoke b argument delivery) m := by
  have hv := hm.valid_register
  unfold invoke
  refine replies_get ?_
  dsimp only
  split
  · rename_i body _
    by_cases hb : body = .collect
    · subst hb
      have hgo := hm.collectGarbage
      exact ⟨⟨hgo, valid_scalar⟩, hgo.valid_register⟩
    · exact (keeps_runNative hm hr ha hb).replies fun w m₁ hm₁ hr₁ hw => replies_value hm₁ (hr₁.valid _ hv) hw
  · exact replies_launchBackground hm hv _ _ hr ha delivery
  · rename_i start _
    refine (kept_startCall hm start hr hc ha).lift.replies fun x m₁ hm₁ hr₁ hdone => ?_
    obtain ⟨hbehind, hun⟩ := hdone
    split
    · exact (keeps_newFuture hm₁ hbehind).replies fun w m₂ hm₂ hr₂ hw =>
        replies_value hm₂ (hr₂.valid _ (hr₁.valid _ hv)) hw
    · exact replies_await hm₁ (hr₁.valid _ hv) delivery .onCall fun task ht hfin => absurd hfin (hun task ht)

theorem keeps_forIn {f : α → PUnit → Act Machine (ForInStep PUnit)} (xs : List α) (b : PUnit) :
    ∀ m : Machine, m.Going g cur →
      (∀ a b m', m'.Going g cur → m.Grows m' → Keeps g cur (f a b) m' fun _ _ => True) →
      Keeps g cur (forIn xs b f) m fun _ _ => True := by
  induction xs generalizing b with
  | nil => exact fun m hm _ => keeps_pure hm trivial
  | cons a rest ih =>
      intro m hm hf
      rw [List.forIn_cons]
      refine (hf a b m hm (.refl m)).bind fun step m₁ hm₁ hr₁ _ => ?_
      cases step with
      | done b => exact keeps_pure hm₁ trivial
      | yield b => exact ih b m₁ hm₁ fun a b m' hm' hr' => hf a b m' hm' (hr₁.trans hr')

theorem keeps_instantiate (hm : m.Going g cur) (c : ClassId) :
    Keeps g cur (instantiate c) m fun r m' => m'.process.heap.isLive r := by
  unfold instantiate
  refine (kept_newObject hm c).lift.bind fun r m₁ hm₁ _ hr => keeps_get ?_
  refine (keeps_forIn _ _ m₁ hm₁ fun name _ m₂ hm₂ hr₂ => ?_).bind fun _ m₂ hm₂ hr₂ _ =>
    keeps_pure hm₂ (hr₂.valid _ (valid_object hr) r rfl)
  have hl : m₂.process.heap.isLive r := hr₂.valid _ (valid_object hr) r rfl
  refine (keeps_member hm₂ hl name).bind fun w m₃ hm₃ _ hw => ?_
  obtain ⟨rfl, _⟩ := hw
  split
  · exact (keeps_setMember hm₃ hl name valid_none).bind fun _ m₄ hm₄ _ _ => keeps_pure hm₄ trivial
  · exact keeps_pure hm₃ trivial

/-- The new object is in nobody's hands but the constructor's until the call is over. -/
theorem replies_construct (hm : m.Going g (some t)) (hv : m.process.heap.Valid v) (c : ClassId) {argument : Value}
    (ha : m.process.heap.Valid argument) : Replies g t v (construct c argument) m := by
  unfold construct
  refine (keeps_instantiate hm c).replies fun r m₁ hm₁ hr₁ hr => replies_get ?_
  have hobject := valid_object hr
  have hv₁ := hr₁.valid v hv
  have ha₁ := hr₁.valid argument ha
  dsimp only
  split
  · exact replies_value hm₁ hv₁ hobject
  · rename_i function hfind
    split
    · rename_i body hkind
      have hb : body ≠ .collect := by
        rintro rfl
        exact hm₁.inv.serves.calm.findMethod? hfind hkind
      refine (Keeps.discard (keeps_runNative hm₁ hobject ha₁ hb) (Q := fun _ _ => True) fun _ _ _ => trivial).replies
        fun _ m₂ hm₂ hr₂ _ => ?_
      exact replies_value hm₂ (hr₂.valid v hv₁) (hr₂.valid _ hobject)
    · exact replies_throw hm₁ (by simp)
    · rename_i start _
      refine (kept_startCall hm₁ (b := { function, receiver := .object r }) start hobject (fun c h => by cases h)
        ha₁).lift.replies fun x m₂ hm₂ hr₂ hdone => ?_
      obtain ⟨_, hun⟩ := hdone
      have hset : Kept g (some t) (setRegister (.object r)) m₂ fun _ m' =>
          ∀ task, m'.process.tasks[x.index]? = some task → ¬ task.state.isFinished := by
        obtain ⟨hgo, hgr, _⟩ := kept_setRegister hm₂ (hr₂.valid _ hobject)
        refine ⟨hgo, hgr, fun task ht => ?_⟩
        change (Process.modifyTask _ _ _).tasks[x.index]? = _ at ht
        rw [Process.getElem?_modifyTask] at ht
        split at ht
        · obtain ⟨old, hold, rfl⟩ := Option.map_eq_some_iff.1 ht
          exact hun old hold
        · exact hun task ht
      refine hset.lift.replies fun _ m₃ hm₃ hr₃ hun => ?_
      exact replies_await hm₃ (hr₃.valid _ (hr₂.valid _ hv₁)) .keep .onCall fun task ht hfin => absurd hfin (hun task ht)

/-- A call of a live value with a live argument. -/
theorem replies_call (hm : m.Going g (some t)) {callee argument : Value} (hc : m.process.heap.Valid callee)
    (ha : m.process.heap.Valid argument) (delivery : Delivery) :
    Replies g t m.register (call callee argument delivery) m := by
  unfold call
  split
  · rename_i r
    refine (keeps_fetch hm (hc r rfl)).replies fun o m₁ hm₁ _ ho => ?_
    obtain ⟨rfl, ho⟩ := ho
    split
    · exact replies_construct hm₁ hm₁.valid_register _ ha
    · exact replies_invoke hm₁ valid_none (fun c h => by cases h) ha delivery
    · rename_i b hp
      refine replies_invoke hm₁ (hm₁.valid_of_object ho (by simp [Object.values, hp, Payload.values])) (fun c hcap => ?_)
        ha delivery
      exact hm₁.inv.intact.fit.behind r o (.context c) ho (by simp [hp, Payload.external?, hcap])
    · exact replies_get (replies_throw hm₁ (by simp))
  · exact replies_get (replies_throw hm (by simp))

/-! ## Waiting -/

theorem replies_wait (hm : m.Going g (some t)) (hv : m.process.heap.Valid v) : Replies g t v (wait v) m := by
  unfold wait
  split
  · rename_i r
    refine (keeps_fetch hm (hv r rfl)).replies fun o m₁ hm₁ _ ho => ?_
    obtain ⟨rfl, ho⟩ := ho
    split
    · exact replies_value hm₁ hv hv
    · rename_i cell hcell
      refine (keeps_futureOutcome hm₁ (hv r rfl)).replies fun outcome m₂ hm₂ hr₂ hdone => ?_
      obtain ⟨hval, hnone⟩ := hdone
      split
      · obtain ⟨rfl, hun⟩ := hnone rfl
        refine replies_await hm₂ hv .result .onFuture fun task ht hfin => absurd hfin ?_
        rw [← Process.taskAt_of_getElem? ht]
        exact hun o cell ho hcell
      · exact replies_value hm₂ (hr₂.valid _ hv) (hval _ rfl)
      · exact replies_throw hm₂ (by simp)
      · exact replies_throw hm₂ (by simp)
  · exact replies_value hm hv hv

/-! ## Loading modules -/

theorem keeps_onRegistry (hm : m.Going g cur) {act : Registry.Entry α} (ha : Preserves Registry.Calm act) :
    Keeps g cur (onRegistry act) m fun _ _ => True := by
  have hgo := kept_modifyHost hm (f := fun h => { h with registry := (act m.host.registry).2 })
    (ha _ hm.inv.serves.calm) rfl rfl rfl
  have hrun : onRegistry act m = ((act m.host.registry).1.mapError HostError.toFault,
      { m with host := { m.host with registry := (act m.host.registry).2 } }) := rfl
  unfold Keeps Act.wp
  rw [hrun]
  cases (act m.host.registry).1 with
  | ok a => exact hgo
  | error e =>
      refine ⟨hgo.1, hgo.2.1, ?_⟩
      cases e <;> simp [HostError.toFault]

/-- The top level of a module is in the queue, and the register of the running task is set. -/
theorem Going.startModule (hm : m.Going g (some t)) (module : ModuleId) {w : Value} (hw : m.process.heap.Valid w) :
    ({ m with process := ((m.process.startModule module (some m.task)).2.modifyTask m.task fun task =>
      { task with register := w }).enqueue ⟨m.process.tasks.size⟩ } : Machine).Going g (some t) := by
  obtain ⟨rfl, hr⟩ := hm.current
  have hp := hm.inv.intact.startModule module (some m.task)
  have hready := hr.startModule module (some m.task)
  have hframe := Process.startModule_frame m.process module (some m.task)
  generalize (m.process.startModule module (some m.task)).2 = p at hp hready hframe
  have hset := hp.setRegister (v := w) (t := m.task) (by
    obtain ⟨_, _, _, _, rfl⟩ := hframe
    exact hw) hready.taskAt.1
  obtain ⟨tasks, contexts, free, modules, rfl⟩ := hframe
  refine hm.update hset.enqueue rfl rfl fun x hx => ?_
  cases hx
  exact hready.modifyTask (f := fun task => { task with register := w }) (fun _ => rfl) fun _ h => h

theorem replies_loadModule (hm : m.Going g (some t)) (name : String) : Replies g t .none (loadModule name) m := by
  unfold loadModule
  refine replies_get ((keeps_onRegistry hm (Registry.preserves_resolve Registry.lasting_calm _ name)).replies fun module m₁ hm₁ _ _ => ?_)
  refine (keeps_reflect hm₁ _).replies fun r m₂ hm₂ _ hr => replies_get ?_
  split
  · exact replies_throw hm₂ (by simp)
  · refine replies_get ((keeps_reflect hm₂ _).replies fun importer m₃ hm₃ hr₃ himp => ?_)
    have hl₃ := hr₃.valid _ (valid_object hr)
    refine (keeps_setMember hm₃ himp name hl₃).replies fun _ m₄ hm₄ hr₄ _ => replies_get ?_
    have hl₄ := hr₄.valid _ hl₃
    obtain ⟨rfl, hready⟩ := hm₄.current
    split
    · exact replies_value hm₄ valid_none hl₄
    · rename_i x hmod
      split
      · exact replies_value hm₄ valid_none hl₄
      · have hset : Kept g (some m₄.task) (setRegister (.object r)) m₄ fun _ m' =>
            m'.process.modules = m₄.process.modules := by
          obtain ⟨hgo, hgr, _⟩ := kept_setRegister hm₄ hl₄
          exact ⟨hgo, hgr, rfl⟩
        refine hset.lift.replies fun _ m₅ hm₅ hr₅ hmods => replies_await hm₅ valid_none .keep .onCall fun task ht hfin => ?_
        obtain ⟨a, ha, _, hend⟩ := hm₅.inv.intact.schedule.initializing module x (hmods ▸ hmod)
        cases ha.symm.trans ht
        refine (hend hfin).resolve_left fun hcur => ?_
        cases hcur
        obtain ⟨_, hready₅⟩ := hm₅.current
        rw [hr₅.task] at hready₅
        exact hready₅.taskAt.1 (by rw [Process.taskAt_of_getElem? ht]; exact hfin)
    · have hgo := hm₄.startModule module hl₄
      refine replies_await hgo valid_none .keep .onCall fun task ht hfin => absurd hfin ?_
      have hin := hgo.inv.intact.schedule.ready ⟨m₄.process.tasks.size⟩ (by
        simp [Process.scheduled, Process.enqueue, Fifo.toList_push])
      rw [← Process.taskAt_of_getElem? (t := ⟨m₄.process.tasks.size⟩) ht]
      exact hin.taskAt.1

end Machine

end Spool
