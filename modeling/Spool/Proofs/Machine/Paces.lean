import Spool.Proofs.Machine.Motions

/-!
# Tasks that stand aside

The motions of a running task, with the deeds as actions are made of. They frame every other task: its stack and its
contexts are left alone, and so are its variables, unless a closure has captured them.
-/

namespace Spool

namespace Process

variable {p p' q : Process} {t x : TaskId}

theorem framed_newTask (hx : x.index < p.tasks.size) (parent : Option TaskId) : Framed x p (p.newTask parent).2 := by
  have hold : ∀ z : TaskId, z.index < p.tasks.size → (p.newTask parent).2.taskAt z = p.taskAt z := fun z hz =>
    taskAt_of_getElem? (getElem?_newTask_of (getElem?_of_index_lt hz) parent)
  refine ⟨by rw [hold x hx], fun _ _ => rfl, fun _ _ => rfl, fun _ _ _ => rfl, fun c _ => captured_of_previous
    (fun _ => rfl) fun d hd => ?_⟩
  cases hd with
  | closure h => exact .closure h
  | @stack z hne h =>
      have hlt := index_lt_of_mem h
      by_cases hz : z.index < p.tasks.size
      · exact .stack hne (hold z hz ▸ h)
      · -- a new task has no contexts
        obtain rfl : z = ⟨p.tasks.size⟩ := by
          have hsize : (p.newTask parent).2.tasks.size = p.tasks.size + 1 := by simp [newTask]
          cases z
          simp_all
          omega
        rw [taskAt_of_getElem? (t := ⟨p.tasks.size⟩) (getElem?_newTask p parent)] at h
        cases h

/-- What the task `t` has done is nothing to the others, but for their marks and captured variables. -/
structure Spares (t : TaskId) (p p' : Process) : Prop extends Keeps t p p' where
  framed : ∀ x, x ≠ t → x.index < p.tasks.size → Framed x p p'

theorem Spares.refl (t : TaskId) (p : Process) : Spares t p p := ⟨.refl t p, fun x _ _ => .refl x p⟩

theorem Spares.trans (h : Spares t p q) (h' : Spares t q p') : Spares t p p' :=
  ⟨h.toKeeps.trans h'.toKeeps, fun x hne hx =>
    (h.framed x hne hx).trans (h'.framed x hne (Nat.lt_of_lt_of_le hx h.size))⟩

theorem spares_modifyTask (p : Process) (t : TaskId) {f : Task → Task}
    (hf : ∀ task, ∃ state reason stack register, f task = { task with state, reason, stack, register }) :
    Spares t p (p.modifyTask t f) := by
  refine ⟨keeps_modifyTask p t fun task => ?_, fun x hne _ => framed_modifyTask p t (fun h => absurd h hne.symm)
    fun c hc => ?_⟩
  · obtain ⟨_, _, _, _, heq⟩ := hf task
    rw [heq]
  · obtain ⟨_, _, _, _, heq⟩ := hf (p.taskAt t)
    rw [heq] at hc
    exact hc

end Process

namespace Machine

variable {m m₁ m' : Machine} {r : Registry} {x : TaskId}

theorem framed_stroke (ha : m.process.Arena []) (hne : x ≠ m.task) (hx : x.index < m.process.tasks.size)
    (h : m.Stroke m') : Process.Framed x m.process m'.process := by
  have hown : ∀ c, m.top? = some c → m.process.Inlet x c := fun c hc => .stack hne.symm (Process.mem_of_top? hc)
  cases h with
  | heap h hh =>
      refine Process.framed_of_eq rfl rfl fun c hc => ?_
      obtain ⟨r, o, ho, hc⟩ := hc
      exact ((hh r o ho).captured c hc).elim .closure (hown c)
  | host h hr hn => exact .refl x _
  | own f hf => exact (Process.spares_modifyTask m.process m.task hf).framed x hne hx
  | watch t ht => exact Process.framed_modifyTask m.process t (fun _ _ => rfl) fun _ hc => hc
  | list t delivery => exact Process.framed_modifyTask m.process t (fun _ _ => rfl) fun _ hc => hc
  | books p hh ht hc hf hm he hq => exact Process.framed_of_eq ht hc fun c hc => .closure (hh ▸ hc)
  | assign c top f htop he =>
      exact Process.framed_modifyContext m.process c (fun _ => rfl) fun _ =>
        ⟨fun _ => rfl, fun _ _ => rfl, .inl ⟨top, hown top htop, he⟩⟩
  | pin c hc => exact Process.framed_pinned (ha.pin hc).2.2
  | handle c position hc hp =>
      exact Process.framed_modifyContext_ne m.process (ha.disjoint hne (Process.mem_of_top? hc)) fun _ => rfl
  | carry =>
      have hnew := Process.framed_newTask hx (some m.task)
      have hpark := Process.framed_modifyTask (x := x) (m.process.newTask (some m.task)).2 ⟨m.process.tasks.size⟩
        (f := (·.park .onFuture)) (fun _ _ => rfl) fun _ hc => hc
      exact (hnew.trans hpark).trans (Process.framed_of_eq rfl rfl fun _ h => .closure h)
  | call b start argument hs hb =>
      exact ha.framed_startTask hx (some m.task) argument (fun task =>
        { task
          kind := .function
          previous := b.capture
          receiver := b.receiver
          module := (m.host.registry.functionAt b.function).module
          function := some b.function
          cursor := start }) rfl hb
  | load module hm =>
      have hstart := ha.framed_startTask hx (some m.task) .none
        (fun task => { task, kind := .moduleRoot, module, cursor := 0 }) rfl fun _ h => by cases h
      refine (hstart.trans (Process.framed_modifyTask _ ⟨m.process.tasks.size⟩
        (f := fun task => { task with initializes := some module }) (fun h => ?_) fun _ hc => hc)).trans
        (Process.framed_of_eq rfl rfl fun _ h => .closure h)
      exact absurd h (Process.ne_of_index_lt hx)

/-- A motion of the running task; its deeds are such as actions are made of. -/
inductive Pace (m : Machine) : Machine → Prop where
  | stroke {m' : Machine} : m.Stroke m' → Pace m m'
  | move (c : ContextId) (f : Context → Context) : m.top? = some c →
      (∀ x, (f x).pinned = x.pinned ∧ (f x).previous = x.previous ∧ (f x).module = x.module) →
      (f (m.process.contextAt c)).Within (m.room c) → Pace m { m with process := m.process.modifyContext c f }
  | enter (c : ContextId) (x : Context) : m.top? = some c → x.pinned = false → x.previous = some c →
      x.module = (m.process.contextAt c).module → x.Within (m.room c) →
      Pace m { m with process := (m.process.newContext x).2.modifyTask m.task fun t =>
        { t with contexts := (m.process.newContext x).1 :: t.contexts } }
  | leave (c : ContextId) (outer : List ContextId) : m.current.contexts = c :: outer →
      Pace m { m with process := (m.process.modifyTask m.task fun t => { t with contexts := outer }).releaseContext c }

theorem Pace.motion (h : m.Pace m') : m.Motion m' := by
  cases h with
  | stroke h => exact .deed h.deed
  | move c f hc hf hw => exact .move c f hc hf hw
  | enter c x hc hun hprev hmodule hx => exact .enter c x hc hun hprev hmodule hx
  | leave c outer hcs => exact .leave c outer hcs

def Paces : Machine → Machine → Prop := Relation.ReflTransGen Pace

theorem Pace.paces (h : m.Pace m') : m.Paces m' := .single h

theorem Paces.refl (m : Machine) : m.Paces m := Relation.ReflTransGen.refl

theorem Paces.trans (h : m.Paces m₁) (h' : m₁.Paces m') : m.Paces m' := Relation.ReflTransGen.trans h h'

theorem Does.paces (h : m.Does m') : m.Paces m' := by
  induction h with
  | refl => exact .refl m
  | tail _ hd ih => exact ih.tail (.stroke hd)

theorem Paces.travels (h : m.Paces m') : m.Travels m' := by
  induction h with
  | refl => exact .refl m
  | tail _ hp ih => exact ih.tail hp.motion

theorem sturdy_paces (hm : m.Sturdy r) (h : m.Paces m') : m'.Sturdy r := sturdy_travels hm h.travels

theorem task_paces (h : m.Paces m') : m'.task = m.task := task_travels h.travels

theorem framed_pace (ha : m.process.Arena []) (hne : x ≠ m.task) (hx : x.index < m.process.tasks.size) (h : m.Pace m') :
    Process.Framed x m.process m'.process := by
  cases h with
  | stroke h => exact framed_stroke ha hne hx h
  | move c f hc hf hw =>
      exact Process.framed_modifyContext_ne m.process (ha.disjoint hne (Process.mem_of_top? hc)) fun y => (hf y).2.1
  | enter c y hc hun hprev hmodule hy => exact ha.framed_enter hne.symm hc hun hprev
  | leave c outer hcs =>
      have hout : Process.Framed x m.process (m.process.modifyTask m.task fun t => { t with contexts := outer }) :=
        Process.framed_modifyTask m.process m.task (fun h => absurd h hne.symm) fun d hd =>
          show d ∈ m.current.contexts from hcs ▸ List.mem_cons_of_mem c hd
      refine hout.trans (Process.framed_releaseContext _ ?_)
      rw [hout.stack]
      exact ha.disjoint hne (hcs ▸ List.mem_cons_self)

theorem spares_pace (ha : m.process.Arena []) (h : m.Pace m') : m.process.Spares m.task m'.process :=
  ⟨keeps_motion ha h.motion, fun _ hne hx => framed_pace ha hne hx h⟩

/-- Whatever a task does, the others are framed. -/
theorem spares_paces (hm : m.Sturdy r) (h : m.Paces m') : m.process.Spares m.task m'.process := by
  induction h with
  | refl => exact .refl _ _
  | tail hp h ih => exact ih.trans (task_paces hp ▸ spares_pace (sturdy_paces hm hp).firm.arena h)

end Machine

end Spool
