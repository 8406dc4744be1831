import Spool.Proofs.Heap.Copy
import Spool.Proofs.Machine.Going

/-!
# The small actions of a machine

Each action on the registers of the running task, on its stack and on the heap keeps the machine going, as long as
it is given live values.
-/

namespace Spool.Machine

variable {g : Outlook} {cur : Option TaskId} {m m' : Machine} {α β : Type} {t : TaskId}

/-! ## Actions that cannot fail -/

/-- An action without faults after which the machine can go on. -/
def Kept (g : Outlook) (cur : Option TaskId) (act : StateM Machine α) (m : Machine) (P : α → Machine → Prop) : Prop :=
  (act m).2.Going g cur ∧ m.Grows (act m).2 ∧ P (act m).1 (act m).2

theorem Kept.lift {act : StateM Machine α} {P : α → Machine → Prop} (ha : Kept g cur act m P) :
    Keeps g cur (liftM act : Act Machine α) m P := ha

theorem Kept.bind {act : StateM Machine α} {k : α → StateM Machine β} {P : α → Machine → Prop}
    {Q : β → Machine → Prop} (ha : Kept g cur act m P)
    (hk : ∀ a m', m'.Going g cur → m.Grows m' → P a m' → Kept g cur (k a) m' Q) : Kept g cur (act >>= k) m Q := by
  obtain ⟨hg, hr, hp⟩ := ha
  obtain ⟨hg', hr', hq⟩ := hk _ _ hg hr hp
  exact ⟨hg', hr.trans hr', hq⟩

theorem Kept.mono {act : StateM Machine α} {P Q : α → Machine → Prop} (ha : Kept g cur act m P)
    (hq : ∀ a m', m'.Going g cur → m.Grows m' → P a m' → Q a m') : Kept g cur act m Q :=
  ⟨ha.1, ha.2.1, hq _ _ ha.1 ha.2.1 ha.2.2⟩

theorem kept_pure (hm : m.Going g cur) {a : α} {P : α → Machine → Prop} (hp : P a m) :
    Kept g cur (pure a : StateM Machine α) m P :=
  ⟨hm, .refl m, hp⟩

theorem kept_get {k : Machine → StateM Machine β} {P : β → Machine → Prop} (hk : Kept g cur (k m) m P) :
    Kept g cur (get >>= k) m P := hk

/-- An action whose fault is passed over. -/
theorem Keeps.run {act : Act Machine α} {P : α → Machine → Prop} (ha : Keeps g cur act m P) :
    Kept g cur act.run m fun r m' => ∀ a, r = .ok a → P a m' := by
  have heq : act.run m = act m := rfl
  unfold Keeps Act.wp at ha
  unfold Kept
  rw [heq]
  rcases hx : act m with ⟨_ | a, m'⟩
  · rw [hx] at ha
    exact ⟨ha.1, ha.2.1, fun _ h => by cases h⟩
  · rw [hx] at ha
    exact ⟨ha.1, ha.2.1, fun _ h => by cases h; exact ha.2.2⟩

theorem kept_modifyProcess (hm : m.Going g cur) {f : Process → Process}
    (hp : (f m.process).Intact cur (m.ledger g [])) (hid : (f m.process).id = m.process.id)
    (hc : (f m.process).completions = m.process.completions) (hh : (f m.process).heap = m.process.heap)
    (hr : ∀ t, cur = some t → (f m.process).Ready t) :
    Kept g cur (modifyProcess f) m fun _ m' => m' = { m with process := f m.process } :=
  ⟨hm.update hp hid hc hr, ⟨rfl, fun v hv => by change (f m.process).heap.Valid v; rw [hh]; exact hv⟩, rfl⟩

theorem kept_modifyContext (hm : m.Going g cur) (c : ContextId) (f : Context → Context)
    (hv : ∀ x, ∀ v ∈ (f x).values, v ∈ x.values ∨ m.process.heap.Valid v) (hf : ∀ x, (f x).previous = x.previous) :
    Kept g cur (modifyProcess fun p => p.modifyContext c f) m fun _ _ => True :=
  (kept_modifyProcess hm (hm.inv.intact.modifyContext c hv hf) rfl rfl rfl fun x hx => (hm.running x hx).2).mono
    fun _ _ _ _ _ => trivial

/-! ## The running task -/

theorem Going.current (hm : m.Going g (some t)) : t = m.task ∧ m.process.Ready m.task := by
  obtain ⟨rfl, hr⟩ := hm.running t rfl
  exact ⟨rfl, hr⟩

theorem Going.valid_register (hm : m.Going g (some t)) : m.process.heap.Valid m.register := by
  obtain ⟨rfl, _⟩ := hm.current
  exact hm.inv.intact.valid_register

theorem Going.valid_stack (hm : m.Going g (some t)) : ∀ v ∈ m.current.stack, m.process.heap.Valid v := by
  obtain ⟨rfl, _⟩ := hm.current
  exact hm.inv.intact.valid_stack

theorem Going.secure (hm : m.Going g (some t)) : ∀ c ∈ m.current.contexts, m.process.Secure c := by
  obtain ⟨rfl, _⟩ := hm.current
  exact hm.inv.intact.secure

theorem Going.secure_top (hm : m.Going g (some t)) {c : ContextId} (hc : m.top? = some c) : m.process.Secure c :=
  hm.secure c (List.mem_of_mem_head? hc)

theorem Going.valid_receiver (hm : m.Going g (some t)) {c : ContextId} (hc : m.top? = some c) :
    m.process.heap.Valid (m.process.contextAt c).receiver :=
  (hm.secure_top hc).values _ (by simp [Context.values])

theorem kept_setRegister (hm : m.Going g (some t)) {v : Value} (hv : m.process.heap.Valid v) :
    Kept g (some t) (setRegister v) m fun _ _ => True := by
  obtain ⟨rfl, hr⟩ := hm.current
  refine ⟨hm.update (hm.inv.intact.setRegister hv hr.taskAt.1) rfl rfl fun t ht => ?_, ⟨rfl, fun _ h => h⟩, trivial⟩
  cases ht
  exact hr.modifyTask (fun _ => rfl) fun _ h => h

theorem kept_setStack (hm : m.Going g (some t)) {f : List Value → List Value}
    (hf : ∀ stack, ∀ v ∈ f stack, v ∈ stack ∨ m.process.heap.Valid v) :
    Kept g (some t) (modifyCurrent fun t => { t with stack := f t.stack }) m fun _ _ => True := by
  obtain ⟨rfl, hr⟩ := hm.current
  refine ⟨hm.update (hm.inv.intact.setStack hf) rfl rfl fun t ht => ?_, ⟨rfl, fun _ h => h⟩, trivial⟩
  cases ht
  exact hr.modifyTask (fun _ => rfl) fun _ h => h

theorem kept_push (hm : m.Going g (some t)) {v : Value} (hv : m.process.heap.Valid v) :
    Kept g (some t) (push v) m fun _ _ => True := by
  refine kept_setStack hm (f := fun stack => v :: stack) fun stack w hw => ?_
  rcases List.mem_cons.1 hw with rfl | hw
  · exact .inr hv
  · exact .inl hw

theorem keeps_pop (hm : m.Going g (some t)) : Keeps g (some t) pop m fun v m' => m'.process.heap.Valid v := by
  unfold pop
  refine keeps_get ?_
  split
  · rename_i v rest hs
    have hv : m.process.heap.Valid v := hm.valid_stack v (by rw [hs]; exact List.mem_cons_self)
    have hrest : ∀ w ∈ rest, m.process.heap.Valid w := fun w hw =>
      hm.valid_stack w (by rw [hs]; exact List.mem_cons_of_mem _ hw)
    refine (kept_setStack hm (f := fun _ => rest) fun _ w hw => .inr (hrest w hw)).lift.bind fun _ m' hm' hr _ => ?_
    exact keeps_pure hm' (hr.valid v hv)
  · exact keeps_throw hm (by simp)

theorem keeps_popMany (hm : m.Going g (some t)) (count : Nat) :
    Keeps g (some t) (popMany count) m fun vs m' => ∀ v ∈ vs, m'.process.heap.Valid v := by
  unfold popMany
  refine keeps_get ?_
  dsimp only
  split
  · exact (keeps_throw hm (by simp) (P := fun _ _ => False)).bind fun _ _ _ _ h => h.elim
  · refine (kept_setStack hm (f := fun stack => stack.drop count) fun _ w hw =>
      .inl (List.mem_of_mem_drop hw)).lift.bind fun _ m' hm' hr _ => ?_
    refine keeps_pure hm' fun v hv => hr.valid v (hm.valid_stack v ?_)
    exact List.mem_of_mem_take (List.mem_reverse.1 hv)

theorem keeps_peek (hm : m.Going g (some t)) (depth : Nat) :
    Keeps g (some t) (peek depth) m fun v m' => m'.process.heap.Valid v := by
  unfold peek
  refine keeps_get ?_
  split
  · exact keeps_pure hm (hm.valid_stack _ (List.mem_of_getElem? ‹_›))
  · exact keeps_throw hm (by simp)

/-! ## Looking at values -/

theorem keeps_fetch (hm : m.Going g cur) {r : Handle} (hr : m.process.heap.isLive r) :
    Keeps g cur (fetch r) m fun o m' => m' = m ∧ m.process.heap.object? r = some o := by
  obtain ⟨o, ho⟩ := Heap.isLive_iff.1 hr
  have hf : m.process.heap.fetch r = .ok o := by simp [Heap.fetch, ho]
  refine keeps_look hm (fun a ha => ?_) (by simp [hf])
  rw [hf] at ha
  cases ha
  exact ⟨rfl, ho⟩

theorem keeps_expectObject (hm : m.Going g cur) {v : Value} (hv : m.process.heap.Valid v) (expected : String) :
    Keeps g cur (expectObject v expected) m fun r m' => m' = m ∧ v = .object r ∧ m.process.heap.isLive r := by
  unfold expectObject
  split
  · exact keeps_pure hm ⟨rfl, rfl, hv _ rfl⟩
  · exact keeps_get (keeps_throw hm (by simp))

/-- The members of a live object are live. -/
theorem keeps_member (hm : m.Going g cur) {r : Handle} (hr : m.process.heap.isLive r) (name : String) :
    Keeps g cur (look fun h => h.member r name) m fun v m' => m' = m ∧ ∀ w ∈ v, m.process.heap.Valid w := by
  obtain ⟨o, ho⟩ := Heap.isLive_iff.1 hr
  have hf : m.process.heap.member r name = .ok (o.member? name) := by
    simp [Heap.member, Heap.fetch, ho]
    rfl
  refine keeps_look hm (fun a ha => ⟨rfl, fun w hw => ?_⟩) (by simp [hf])
  rw [hf] at ha
  cases ha
  exact hm.valid_of_object ho (List.mem_append_left _ (Bindings.mem_values_of_get? hw))

/-! ## New objects -/

theorem kept_allocate (hm : m.Going g cur) (c : ClassId) {payload : Payload} (he : payload.edges = [])
    (hx : payload.external? = none) :
    Kept g cur (allocate c payload) m fun r m' => m'.process.heap.isLive r :=
  keeps_onHeap (X := Heap.Nowhere) hm (Heap.safe_create hm.sound c he hx) fun _ h => h.elim

theorem kept_newObject (hm : m.Going g cur) (c : ClassId) :
    Kept g cur (newObject c) m fun r m' => m'.process.heap.isLive r :=
  kept_get (kept_allocate hm c (Copier.edges_seed _ c) (Copier.external?_seed _ c))

theorem valid_object {h : Heap} {r : Handle} (hr : h.isLive r) : h.Valid (.object r) := by
  intro x hx
  cases hx
  exact hr

theorem valid_none {h : Heap} : h.Valid .none := fun _ hr => by cases hr

theorem valid_scalar {h : Heap} {s : Scalar} : h.Valid (.scalar s) := fun _ hr => by cases hr

theorem valid_ofBool {h : Heap} {b : Bool} : h.Valid (.ofBool b) := by
  cases b
  · exact valid_none
  · exact valid_scalar

theorem kept_newText (hm : m.Going g cur) (s : String) :
    Kept g cur (newText s) m fun v m' => m'.process.heap.Valid v := by
  have hnew : Kept g cur (allocate .string (.text s)) m fun r m' => m'.process.heap.isLive r :=
    kept_allocate hm .string rfl rfl
  exact ⟨hnew.1, hnew.2.1, valid_object hnew.2.2⟩

theorem keeps_newArray (hm : m.Going g cur) {items : List Value} (hv : ∀ v ∈ items, m.process.heap.Valid v) :
    Keeps g cur (newArray items) m fun v m' => m'.process.heap.Valid v := by
  refine Keeps.map (keeps_onHeap (X := Heap.Nowhere) hm (Heap.safe_createWith hm.sound .array rfl ?_ rfl)
    fun _ h => h.elim) fun r m' hr => valid_object hr
  simpa [Payload.values] using hv

theorem keeps_newTuple (hm : m.Going g cur) {items : List Value} (hv : ∀ v ∈ items, m.process.heap.Valid v) :
    Keeps g cur (newTuple items) m fun v m' => m'.process.heap.Valid v := by
  refine Keeps.map (keeps_onHeap (X := Heap.Nowhere) hm (Heap.safe_createWith hm.sound .tuple rfl ?_ rfl)
    fun _ h => h.elim) fun r m' hr => valid_object hr
  simpa [Payload.values] using hv

theorem keeps_setMember (hm : m.Going g cur) {r : Handle} (hr : m.process.heap.isLive r) (name : String) {v : Value}
    (hv : m.process.heap.Valid v) : Keeps g cur (onHeap (Heap.setMember r name v)) m fun _ _ => True :=
  keeps_onHeap (X := Heap.Nowhere) hm (Heap.safe_setMember hm.sound hr name hv) fun _ h => h.elim

theorem keeps_reflect (hm : m.Going g cur) (key : Reflected) :
    Keeps g cur (onHeap (Heap.reflect key)) m fun r m' => m'.process.heap.isLive r :=
  keeps_onHeap (X := Heap.Nowhere) hm (Heap.safe_reflect hm.sound hm.mirrored key) fun _ h => h.elim

theorem keeps_reflectValue (hm : m.Going g cur) (key : Reflected) :
    Keeps g cur (reflect key) m fun v m' => m'.process.heap.Valid v :=
  Keeps.map (keeps_reflect hm key) fun _ _ hr => valid_object hr

theorem kept_pin (hm : m.Going g cur) (c : ContextId) :
    Kept g cur (modifyProcess fun p => p.pin c) m fun _ m' => m'.process.tasks = m.process.tasks := by
  obtain ⟨contexts, heq⟩ := Process.pinFrom_eq m.process.contexts.size c m.process
  refine (kept_modifyProcess (f := fun p => p.pin c) hm (hm.inv.intact.pin c) ?_ ?_ ?_ fun x hx => ?_).mono
    fun _ m' _ _ he => ?_
  · rw [Process.pin, heq]
  · rw [Process.pin, heq]
  · rw [Process.pin, heq]
  · have := (hm.running x hx).2
    unfold Process.Ready at this ⊢
    rw [Process.pin, heq]
    exact this
  · rw [he]
    change (m.process.pin c).tasks = _
    rw [Process.pin, heq]

/-- A function reference whose context is one of the running task. -/
theorem keeps_newBound (hm : m.Going g (some t)) {b : BoundFunction} (hr : m.process.heap.Valid b.receiver)
    (hc : ∀ c, b.capture = some c → c ∈ m.current.contexts) :
    Keeps g (some t) (newBound b) m fun v m' => m'.process.heap.Valid v := by
  have hnew : ∀ m₁ : Machine, m₁.Going g (some t) → m.Grows m₁ → m₁.process.tasks = m.process.tasks →
      Keeps g (some t) (do
        let r ← newObject .functionRef
        discard <| onHeap (Heap.replacePayload r (.bound b))
        return .object r) m₁ fun v m' => m'.process.heap.Valid v := by
    intro m₁ hm₁ hr₁ ht₁
    have hobj : Kept g (some t) (newObject .functionRef) m₁ fun r m' =>
        m'.process.heap.isLive r ∧ m'.process.tasks = m₁.process.tasks := by
      obtain ⟨hgo, hgr, hl⟩ := kept_newObject hm₁ .functionRef
      exact ⟨hgo, hgr, hl, rfl⟩
    refine hobj.lift.bind fun r m₂ hm₂ hr₂ hdone => ?_
    obtain ⟨hl, ht₂⟩ := hdone
    have hcur : m₂.current.contexts = m.current.contexts := by
      simp only [current, Process.taskAt, ht₂, ht₁, hr₂.task, hr₁.task]
    have hsafe : Heap.Safe (fun x => ∃ c, b.capture = some c ∧ x = .context c) (Heap.replacePayload r (.bound b))
        m₂.process.heap fun _ _ => True := by
      refine Heap.safe_replacePayload hm₂.sound hl (fun v hv => ?_) fun x hx => ?_
      · rw [List.mem_singleton.1 hv]
        exact hr₂.valid _ (hr₁.valid _ hr)
      · obtain ⟨c, hcap, rfl⟩ := Option.map_eq_some_iff.1 hx
        exact ⟨c, hcap, rfl⟩
    refine (Keeps.discard (keeps_onHeap hm₂ hsafe ?_) (Q := fun _ _ => True) fun _ _ _ => trivial).bind
      fun _ m₃ hm₃ hr₃ _ => keeps_pure hm₃ (valid_object (hr₃.valid _ (valid_object hl) r rfl))
    rintro x ⟨c, hcap, rfl⟩
    exact hm₂.secure c (hcur ▸ hc c hcap)
  unfold newBound
  split
  · exact (kept_pin hm _).lift.bind fun _ m₁ hm₁ hr₁ ht₁ => hnew m₁ hm₁ hr₁ ht₁
  · exact hnew m hm (.refl m) rfl

theorem keeps_newHolder (hm : m.Going g cur) (c : ClassId) {payload : Payload} (hv : payload.values = [])
    (hx : ∀ x, payload.external? = some x → m.process.Behind x) :
    Keeps g cur (newHolder c payload) m fun v m' => m'.process.heap.Valid v := by
  unfold newHolder
  have hobj : Kept g cur (newObject c) m fun r m' =>
      m'.process.heap.isLive r ∧ ∀ x, m.process.Behind x → m'.process.Behind x := by
    obtain ⟨hgo, hgr, hl⟩ := kept_newObject hm c
    exact ⟨hgo, hgr, hl, fun x hx => hx.congr (fun _ => rfl) rfl hgr.valid⟩
  refine hobj.lift.bind fun r m₁ hm₁ hr₁ hdone => ?_
  obtain ⟨hl, hb⟩ := hdone
  have hsafe : Heap.Safe (fun x => payload.external? = some x) (Heap.putPayload r payload) m₁.process.heap
      fun _ _ => True :=
    Heap.safe_putPayload hm₁.sound hl (by simp [hv]) fun x hx => hx
  refine (keeps_onHeap hm₁ hsafe fun x h => hb x (hx x h)).bind fun _ m₂ hm₂ hr₂ _ => ?_
  exact keeps_pure hm₂ (valid_object (hr₂.valid _ (valid_object hl) r rfl))

theorem keeps_newFuture (hm : m.Going g cur) {x : TaskId} (hx : m.process.Behind (.task x)) :
    Keeps g cur (newFuture x) m fun v m' => m'.process.heap.Valid v := by
  unfold newFuture
  have hobs : Kept g cur (modifyProcess fun p => p.modifyTask x fun t => { t with observed := true }) m fun _ m' =>
      m' = { m with process := m.process.modifyTask x fun t => { t with observed := true } } := by
    refine kept_modifyProcess hm ?_ rfl rfl rfl fun y hy => ?_
    · exact hm.inv.intact.modifyTask_frame (fun _ => rfl) (fun _ _ => ⟨rfl, rfl, fun _ _ => ⟨rfl, rfl⟩⟩) (fun _ => rfl)
        (fun _ _ _ => ⟨⟨rfl, rfl, fun _ _ => ⟨rfl, rfl⟩⟩, rfl, fun h => h, fun _ => rfl⟩) (fun _ => rfl) fun _ => rfl
    · exact (hm.running y hy).2.modifyTask (fun _ => rfl) fun _ h => h
  refine hobs.lift.bind fun _ m₁ hm₁ hr₁ he => keeps_newHolder hm₁ .future rfl fun y hy => ?_
  cases hy
  intro task ht
  rw [he] at ht
  change (Process.modifyTask _ _ _).tasks[x.index]? = _ at ht
  rw [Process.getElem?_modifyTask, if_pos rfl] at ht
  obtain ⟨old, hold, rfl⟩ := Option.map_eq_some_iff.1 ht
  exact hr₁.valid _ (hx old hold)

/-! ## Collecting garbage -/

/-- A collection takes nothing that the process still needs; other values may be gone. -/
theorem Going.collectGarbage (hm : m.Going g cur) : (collectGarbage m).2.Going g cur := by
  refine hm.update (hm.inv.intact.collect m.host.registry fun t ht => ?_) rfl rfl fun t ht => (hm.running t ht).2
  exact (hm.running t ht).2.taskAt.1

end Spool.Machine
