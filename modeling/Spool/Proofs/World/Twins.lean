import Spool.Proofs.Machine.TwinTurns
import Spool.Proofs.World.Futures

/-!
# Collections cannot be seen

A program that runs in one process does the same in machines with other limits for their heaps, however often and
whenever they collect their garbage. Only the message that names a slot of the heap tells them apart.
-/

namespace Spool

/-! ## New processes -/

namespace Heap

/-- Objects that nobody knows are not compared. -/
theorem twin_of_unreflected {h k : Heap} (hs : h.Sound) (ks : k.Sound) (hh : ∀ key, h.reflection? key = none)
    (kk : ∀ key, k.reflection? key = none) : h.Twin (fun _ _ => False) k where
  left := ⟨hs, fun key r hr => by rw [hh key] at hr; cases hr⟩
  right := ⟨ks, fun key r hr => by rw [kk key] at hr; cases hr⟩
  same h := h.elim
  objects h := h.elim
  reflections key := by
    rw [hh, kk]
    exact .none

end Heap

namespace Process

theorem reflection?_seeded (id : ProcessId) (settings : HeapSettings) (key : Reflected) :
    (seeded id settings).heap.reflection? key = none := by
  cases hr : (seeded id settings).heap.reflection? key with
  | none => rfl
  | some r =>
      have hmem := List.count_pos_iff.2 (Bindings.mem_values_of_get? hr)
      rw [(extends_seeded id settings).2.1 r] at hmem
      cases hmem

theorem twin_seeded (id : ProcessId) (settings settings' : HeapSettings) :
    (seeded id settings).Twin (fun _ _ => False) none (seeded id settings') where
  bare := rfl
  heap := Heap.twin_of_unreflected (extends_seeded id settings).1.sound (extends_seeded id settings').1.sound
    (reflection?_seeded id settings) (reflection?_seeded id settings')
  tasks _ _ := ⟨.none, .nil⟩
  contexts _ _ _ hc := by cases hc
  exit := .none
  entry _ h := by cases h
  behind x hx := by
    obtain ⟨_, _, _, h, _⟩ := hx
    exact h.elim

theorem Twin.setEntry {R : Pairing} {p q : Process} {cur : Option TaskId} {t : TaskId} (hp : p.Twin R cur q)
    (hr : (p.taskAt t).register.Pairs R (q.taskAt t).register) :
    ({ p with entryTask := some t } : Process).Twin R cur { q with entryTask := some t } where
  bare := (congrArg (fun r : Process => { r with entryTask := some t }) hp.bare :)
  heap := hp.heap
  tasks := hp.tasks
  contexts := hp.contexts
  exit := hp.exit
  entry x hx := by
    cases hx
    exact hr
  behind := hp.behind

theorem twin_main (id : ProcessId) (settings settings' : HeapSettings) (module : ModuleId) :
    (main id settings module).Twin (fun _ _ => False) none (main id settings' module) := by
  obtain ⟨hp, _⟩ := (twin_seeded id settings settings').startModule module none
  -- the entry task has just been made
  have hnew := intact_seeded (p := seeded id settings) rfl (.refl (extends_seeded id settings).1.sound) fun _ => False
  obtain ⟨task, ht, hun, _⟩ := (hnew.startModule module none).schedule.ready ⟨(seeded id settings).tasks.size⟩ (by simp)
  refine (hp.setEntry (hp.tasks ⟨(seeded id settings).tasks.size⟩ (.inl ?_)).register).enqueue
    ⟨(seeded id settings).tasks.size⟩
  have hat : ((seeded id settings).startModule module none).2.taskAt ⟨(seeded id settings).tasks.size⟩ = task :=
    taskAt_of_getElem? ht
  rw [hat]
  exact hun

end Process

namespace World

variable {w w' v v' w₁ v₁ : World} {id : ProcessId} {p q : Process} {m k : Machine}

/-! ## Machines that are made ready in the same way -/

/-- Machines that are made ready in the same way, but for the settings of their heaps. -/
inductive Prepared : World → World → Prop where
  | create (r : MachineRequest) (heap : HeapRequest) {w v : World} : create r = .ok w →
      create { r with heap } = .ok v → Prepared w v
  | register {w v : World} (m : CompiledModule) : Prepared w v → Prepared (register m w).2 (register m v).2
  | loadFile {w v : World} (path : String) : Prepared w v → Prepared (loadFile path w).2 (loadFile path v).2

theorem Prepared.arises (h : Prepared w v) : w.Arises ∧ v.Arises := by
  induction h with
  | create _ _ hw hv => exact ⟨.create hw, .create hv⟩
  | register m _ ih => exact ⟨.register m ih.1, .register m ih.2⟩
  | loadFile path _ ih => exact ⟨.loadFile path ih.1, .loadFile path ih.2⟩

theorem onRegistry_agrees {α : Type} {act : Registry.Entry α} (ha : Preserves Registry.Discreet act)
    (h : w.host.Agrees v.host) : (onRegistry act w).1 = (onRegistry act v).1 ∧
      (onRegistry act w).2.host.Agrees (onRegistry act v).2.host := by
  have hrun : ∀ w : World, onRegistry act w = ((act w.host.registry).1,
      { w with host := { w.host with registry := (act w.host.registry).2 } }) := fun _ => rfl
  rw [hrun, hrun, h.registry]
  exact ⟨rfl, rfl, ha w.host.registry h.discreet, h.library, h.out, h.err⟩

theorem Prepared.agrees (h : Prepared w v) : w.host.Agrees v.host ∧ w.processes = {} ∧ v.processes = {} := by
  induction h with
  | create _ _ hw hv =>
      obtain ⟨_, _, rfl⟩ := eq_of_create hw
      obtain ⟨_, _, rfl⟩ := eq_of_create hv
      exact ⟨⟨rfl, Registry.discreet_initial, rfl, rfl, rfl⟩, rfl, rfl⟩
  | register m _ ih =>
      exact ⟨(onRegistry_agrees (Registry.preserves_register Registry.lasting_discreet m _ _) ih.1).2, ih.2⟩
  | @loadFile w v path _ ih =>
      have hload := onRegistry_agrees (Registry.preserves_loadFile Registry.lasting_discreet w.host.library path) ih.1
      have hrun : ∀ w : World, World.loadFile path w = onRegistry (w.host.library.loadFile path) w := fun _ => rfl
      rw [hrun, hrun, ih.1.library]
      exact ⟨hload.2, ih.2⟩

/-! ## Runs -/

/-- The program runs in one process, hands nothing to the background pool, and finds room for its objects whenever its
garbage is collected. -/
structure Secluded (id : ProcessId) (w : World) : Prop where
  single : w.processes.items.size = 1
  alone : w.Alone id
  unfaulted : w.Holds id fun p => p.fault = none
  spacious : ∀ t m, w.Amid id t m → m.Spacious

/-- In the turn that comes next no error names a slot of the heap. -/
def Tactful (id : ProcessId) (w : World) : Prop := ∀ t m, w.Amid id t m → m.Tactful

/-- A world goes on to another one: events happen, and somebody collects the garbage of the process. All worlds on the way
are as they should be. -/
inductive Course (ok : World → Prop) (id : ProcessId) : World → World → Prop where
  | ends {w : World} : ok w → Course ok id w w
  | event {w w₁ w' : World} {fuel : Nat} {e : Event} : ok w → w.step fuel e = some w₁ → Course ok id w₁ w' →
      Course ok id w w'
  | collect {w w' : World} : ok w → Course ok id (w.collect id).2 w' → Course ok id w w'

variable {ok ok' : World → Prop}

theorem Course.holds (h : Course ok id w w') : ok w := by
  cases h with
  | ends h => exact h
  | event h _ _ => exact h
  | collect h _ => exact h

theorem Course.last (h : Course ok id w w') : ok w' := by
  induction h with
  | ends h => exact h
  | event _ _ _ ih => exact ih
  | collect _ _ ih => exact ih

/-! ## What moves the process -/

theorem Secluded.only (hs : w.Secluded id) {x : ProcessId} (hx : w.processes.get? x = some q) : x = id := by
  obtain ⟨p, hp, _⟩ := hs.unfaulted
  obtain ⟨hn, hp⟩ := Processes.get?_eq_some.1 hp
  obtain ⟨hxn, hx⟩ := Processes.get?_eq_some.1 hx
  have hlt := (Array.getElem?_eq_some_iff.1 hp).1
  have hxlt := (Array.getElem?_eq_some_iff.1 hx).1
  rw [hs.single] at hlt hxlt
  obtain ⟨n⟩ := id
  obtain ⟨i⟩ := x
  simp only [ProcessId.slot] at hlt hxlt hn hxn
  simp only [ProcessId.mk.injEq]
  omega

/-- An event makes a round of the scheduler, or has to do with the background pool alone. -/
theorem Secluded.step_cases (hs : w.Secluded id) (hw : w.Inv) {fuel : Nat} {e : Event} (h : w.step fuel e = some w') :
    (w'.processes = w.processes ∧ ∃ pool, w'.host = { w.host with pool }) ∨
    ∃ p m, w.processes.get? id = some p ∧ canTick p ∧
      Machine.tick fuel { host := w.host, process := awaken p, task := ⟨0⟩ } = some m ∧ w' = w.settle id m := by
  cases e with
  | tick x =>
      rcases tick_cases h with ⟨rfl, _⟩ | ⟨p, m, hp, hcan, hrun, rfl⟩
      · exact .inl ⟨rfl, _, rfl⟩
      · cases hs.only hp
        exact .inr ⟨p, m, hp, hcan, hrun, rfl⟩
  | deliver x =>
      cases h
      rcases hw.deliver_cases x with hnone | ⟨p, q, out, rfl, hd⟩
      · rw [deliver_eq_self hnone]
        exact .inl ⟨rfl, _, rfl⟩
      · exact absurd ((hs.only hd.receiver).trans (hs.only hd.sender).symm) hd.other
  | engage worker =>
      cases h
      left
      unfold World.engage
      split
      · exact ⟨rfl, _, rfl⟩
      · dsimp only
        split <;> exact ⟨rfl, _, rfl⟩
  | complete alarm =>
      cases h
      left
      unfold World.complete
      split
      · rename_i call hrunning
        have hcall : call ∈ w.host.pool.jobs := (Pool.jobs_finish hrunning).mem_iff.1 List.mem_cons_self
        obtain ⟨q, hq⟩ := (hw.calls call hcall).get?
        exact absurd (hs.only hq) (hs.alone.jobs call hcall)
      · exact ⟨rfl, _, rfl⟩

/-- No process is started in a round. -/
theorem Secluded.nursery (hs : w.Secluded id) (hs' : (w.settle id m).Secluded id) : m.host.nursery = [] := by
  have hsize := hs'.single
  rw [size_settle, hs.single] at hsize
  exact List.eq_nil_of_length_eq_zero (by omega)

theorem Secluded.fault (hs : w.Secluded id) (hp : w.processes.get? id = some p) : p.fault = none := by
  obtain ⟨q, hq, hnone⟩ := hs.unfaulted
  cases hp.symm.trans hq
  exact hnone

theorem Secluded.fault_settle (hp : w.processes.get? id = some p) (hs : (w.settle id m).Secluded id) :
    m.process.fault = none := by
  have hget := get?_settle hp m hp
  rw [if_pos rfl] at hget
  exact hs.fault hget

/-! ## Side by side -/

/-- Both have come to the same point, and have written the same. -/
structure Abreast (id : ProcessId) (w v : World) : Prop where
  left : w.Arises
  right : v.Arises
  agrees : w.host.Agrees v.host
  twins : ∃ R p q, w.processes.get? id = some p ∧ v.processes.get? id = some q ∧ p.Twin R none q ∧
    p.Rooted w.host.registry.HasAsync

theorem bare_awaken (p : Process) : (awaken p).bare = awaken p.bare := by
  unfold awaken
  split <;> rename_i h
  · rw [if_pos (show p.bare.phase = .blocked from h)]
    rfl
  · rw [if_neg (show p.bare.phase ≠ .blocked from h)]

theorem twin_awaken {R : Pairing} {cur : Option TaskId} (hp : p.Twin R cur q) : (awaken p).Twin R cur (awaken q) :=
  hp.books awaken bare_awaken fun p => by
    unfold awaken
    split <;> exact ⟨rfl, rfl, rfl, rfl, rfl⟩

/-- A turn is open to the task at the head of the queue. -/
theorem Secluded.amid (hs : w.Secluded id) (hp : w.processes.get? id = some p) (hcan : canTick p) {t : TaskId}
    {queue : Fifo TaskId} (hq : (awaken p).queue.pop? = some (t, queue))
    (hruns : (Machine.resume { host := w.host, process := { awaken p with queue }, task := t }).2.Runs m) :
    w.Amid id t m := by
  have hsettled := settled_eq (w := w) (hs.alone.completions p hp)
  have hopen : w.Opens id t { w.settled p with process := { (w.settled p).process with queue }, task := t } :=
    .mk hp hcan (by rw [hsettled]; exact hq)
  rw [hsettled] at hopen
  exact .mk hopen hruns

theorem Abreast.tick (h : Abreast id w v) {fuel fuel' : Nat} (hp : w.processes.get? id = some p)
    (hq : v.processes.get? id = some q) (hcan : canTick p) (hcan' : canTick q)
    (hrun : Machine.tick fuel { host := w.host, process := awaken p, task := ⟨0⟩ } = some m)
    (hrun' : Machine.tick fuel' { host := v.host, process := awaken q, task := ⟨0⟩ } = some k)
    (hw : w.Secluded id) (hv : v.Secluded id) (htact : w.Tactful id) (hw' : (w.settle id m).Secluded id)
    (hv' : (v.settle id k).Secluded id) : Abreast id (w.settle id m) (v.settle id k) := by
  obtain ⟨R, p', q', hp', hq', ht, hrooted⟩ := h.twins
  cases hp.symm.trans hp'
  cases hq.symm.trans hq'
  have hmem := (h.left.inv.get? hp).1
  have hs : Machine.Siblings R { host := w.host, process := awaken p, task := ⟨0⟩ }
      { host := v.host, process := awaken q, task := ⟨0⟩ } := ⟨h.agrees, twin_awaken ht⟩
  have hfault : (awaken p).fault = p.fault := by unfold awaken; split <;> rfl
  obtain ⟨R', hs'⟩ := hs.tick (h.left.inv.awaken hmem ⟨0⟩) ((awaken_frame p).2.2.2.1.trans (hw.alone.completions p hp))
    (hfault.trans (hw.fault hp))
    (fun t queue n hpop hreach => ⟨hw.spacious t n (hw.amid hp hcan hpop hreach), htact t n (hw.amid hp hcan hpop hreach)⟩)
    (fun t queue n hpop hreach => hv.spacious t n (hv.amid hq hcan' hpop hreach)) hrun hrun' (hw.nursery hw')
    (Secluded.fault_settle hp hw') (Secluded.fault_settle hq hv')
  have hget := get?_settle hp m hp
  have hget' := get?_settle hq k hq
  rw [if_pos rfl] at hget hget'
  have hstep : w.step fuel (.tick id) = some (w.settle id m) := by
    change World.tick fuel id w = _
    simp only [World.tick, hp, hcan, if_true, hrun]
    rfl
  have hstep' : v.step fuel' (.tick id) = some (v.settle id k) := by
    change World.tick fuel' id v = _
    simp only [World.tick, hq, hcan', if_true, hrun']
    rfl
  have hsturdy := h.left.firm.machine h.left.inv (firm_awaken (h.left.firm.processes p hmem)) ⟨0⟩
  have hawake : (awaken p).Rooted w.host.registry.HasAsync :=
    hrooted.congr (awaken_frame p).1 (by unfold awaken; split <;> rfl)
  refine ⟨h.left.step hstep, h.right.step hstep', ?_, R', m.process, k.process, hget, hget', hs'.process, ?_⟩
  · exact ⟨hs'.registry, hs'.discreet, hs'.library, hs'.out, hs'.err⟩
  · exact Machine.rooted_tick hsturdy hawake hrun

/-! ## What is no round -/

/-- An event that has to do with the background pool alone. -/
theorem Abreast.aside (h : Abreast id w v) (hw : w'.Arises) (hprocesses : w'.processes = w.processes)
    (hhost : ∃ pool, w'.host = { w.host with pool }) : Abreast id w' v := by
  obtain ⟨R, p, q, hp, hq, ht, hrooted⟩ := h.twins
  obtain ⟨pool, hhost⟩ := hhost
  refine ⟨hw, h.right, ?_, R, p, q, hprocesses ▸ hp, hq, ht, ?_⟩
  · rw [hhost]
    exact ⟨h.agrees.registry, h.agrees.discreet, h.agrees.library, h.agrees.out, h.agrees.err⟩
  · rw [hhost]
    exact hrooted

theorem Abreast.aside_right (h : Abreast id w v) (hv : v'.Arises) (hprocesses : v'.processes = v.processes)
    (hhost : ∃ pool, v'.host = { v.host with pool }) : Abreast id w v' := by
  obtain ⟨R, p, q, hp, hq, ht, hrooted⟩ := h.twins
  obtain ⟨pool, hhost⟩ := hhost
  refine ⟨h.left, hv, ?_, R, p, q, hp, hprocesses ▸ hq, ht, hrooted⟩
  rw [hhost]
  exact ⟨h.agrees.registry, h.agrees.discreet, h.agrees.library, h.agrees.out, h.agrees.err⟩

theorem get?_collect (hp : w.processes.get? id = some p) :
    (w.collect id).2.processes.get? id = some (p.collect w.host.registry).2 := by
  have hfetch : w.processes.fetch id = p := Processes.fetch_of_get? hp
  change (w.processes.set id ((w.processes.fetch id).collect w.host.registry).2).get? id = _
  rw [hfetch, Processes.get?_set hp, if_pos rfl]

theorem Abreast.collect (h : Abreast id w v) : Abreast id (w.collect id).2 v := by
  obtain ⟨R, p, q, hp, hq, ht, hrooted⟩ := h.twins
  exact ⟨h.left.collect id, h.right, h.agrees, _, _, q, get?_collect hp, hq, ht.collect _ nofun, hrooted.congr rfl rfl⟩

theorem Abreast.collect_right (h : Abreast id w v) : Abreast id w (v.collect id).2 := by
  obtain ⟨R, p, q, hp, hq, ht, hrooted⟩ := h.twins
  exact ⟨h.left, h.right.collect id, h.agrees, _, p, _, hp, get?_collect hq, ht.collect_right _ nofun, hrooted⟩

/-! ## The whole run -/

/-- The process has come to its end. -/
def Exited (id : ProcessId) (w : World) : Prop := w.Holds id fun p => p.phase = .exited

theorem not_canTick_of_exited (h : p.phase = .exited) : ¬ canTick p := by
  unfold canTick
  rw [h]
  simp

theorem Abreast.exited (h : Abreast id w v) : w.Exited id ↔ v.Exited id := by
  obtain ⟨R, p, q, hp, hq, ht, _⟩ := h.twins
  have hphase : q.phase = p.phase := (congrArg Process.phase ht.bare :)
  constructor
  · rintro ⟨p', hp', hx⟩
    cases hp.symm.trans hp'
    exact ⟨q, hq, hphase.trans hx⟩
  · rintro ⟨q', hq', hx⟩
    cases hq.symm.trans hq'
    exact ⟨p, hp, hphase.symm.trans hx⟩

/-- One has come to the end, and so nothing is left for the other to do. -/
theorem Abreast.rests (h : Abreast id w v) (hx : w.Exited id) (hv : Course (Secluded id) id v v') : Abreast id w v' := by
  induction hv with
  | ends _ => exact h
  | event hs hstep _ ih =>
      rcases hs.step_cases h.right.inv hstep with ⟨hprocesses, hhost⟩ | ⟨q, k, hq, hcan, _, _⟩
      · exact ih (h.aside_right (h.right.step hstep) hprocesses hhost)
      · obtain ⟨q', hq', hphase⟩ := h.exited.1 hx
        cases hq.symm.trans hq'
        exact absurd hcan (not_canTick_of_exited hphase)
  | collect _ _ ih => exact ih h.collect_right

/-- One makes a round, and so does the other sooner or later. -/
theorem Abreast.follows (h : Abreast id w v) {fuel : Nat} (hp : w.processes.get? id = some p) (hcan : canTick p)
    (hrun : Machine.tick fuel { host := w.host, process := awaken p, task := ⟨0⟩ } = some m) (hw : w.Secluded id)
    (htact : w.Tactful id) (hw' : (w.settle id m).Secluded id) (hv : Course (Secluded id) id v v') (hx : v'.Exited id) :
    ∃ v₁, Abreast id (w.settle id m) v₁ ∧ Course (Secluded id) id v₁ v' := by
  induction hv with
  | ends _ =>
      obtain ⟨p', hp', hphase⟩ := h.exited.2 hx
      cases hp.symm.trans hp'
      exact absurd hcan (not_canTick_of_exited hphase)
  | event hs hstep hrest ih =>
      rcases hs.step_cases h.right.inv hstep with ⟨hprocesses, hhost⟩ | ⟨q, k, hq, hcan', hrun', rfl⟩
      · exact ih (h.aside_right (h.right.step hstep) hprocesses hhost) hx
      · exact ⟨_, h.tick hp hq hcan hcan' hrun hrun' hw hs htact hw' hrest.holds, hrest⟩
  | collect _ _ ih => exact ih h.collect_right hx

theorem Abreast.courses (h : Abreast id w v) (hw : Course (fun w => w.Secluded id ∧ w.Tactful id) id w w')
    (hv : Course (Secluded id) id v v') (hx : w'.Exited id) (hx' : v'.Exited id) : Abreast id w' v' := by
  induction hw generalizing v with
  | ends _ => exact h.rests hx hv
  | event hok hstep hrest ih =>
      rcases hok.1.step_cases h.left.inv hstep with ⟨hprocesses, hhost⟩ | ⟨p, m, hp, hcan, hrun, rfl⟩
      · exact ih (h.aside (h.left.step hstep) hprocesses hhost) hv hx
      · obtain ⟨v₁, h₁, hv₁⟩ := h.follows hp hcan hrun hok.1 hok.2 hrest.holds.1 hv hx'
        exact ih h₁ hv₁ hx
  | collect _ _ ih => exact ih h.collect hv hx

/-- A main process that enters a world without processes. -/
def entered (w : World) (module : ModuleId) : World :=
  { w with
    host := { w.host with born := w.host.born + 1 }
    processes := w.processes.push (.main ⟨w.host.born + 1⟩ w.host.heapSettings module) }

theorem startMain_eq (name : String) (w : World) :
    World.startMain name w = match onRegistry (w.host.library.resolve name) w with
      | (.ok module, w) => (.ok ⟨w.host.born + 1⟩, w.entered module)
      | (.error e, w) => (.error e, w) := by
  have hrun : World.startMain name w = (onRegistry (w.host.library.resolve name) >>= fun module => modifyGet fun w =>
      ((Process.main ⟨w.host.born + 1⟩ w.host.heapSettings module).id, w.entered module) : Setup ProcessId) w := rfl
  rw [hrun, bind_apply]
  rcases onRegistry (w.host.library.resolve name) w with ⟨_ | module, w₀⟩
  · rfl
  · change (Except.ok (Process.main ⟨w₀.host.born + 1⟩ w₀.host.heapSettings module).id, w₀.entered module) = _
    rw [(Process.main_frame ⟨w₀.host.born + 1⟩ w₀.host.heapSettings module).1]

/-- Both have started the program. -/
theorem Prepared.startMain (h : Prepared w v) {name : String} (hs : World.startMain name w = (.ok id, w₁)) :
    ∃ v₁, World.startMain name v = (.ok id, v₁) ∧ Abreast id w₁ v₁ := by
  obtain ⟨hagrees, hnone, hnone'⟩ := h.agrees
  have hborn : w.host.born = 0 := by rw [h.arises.1.inv.born, hnone]; rfl
  have hborn' : v.host.born = 0 := by rw [h.arises.2.inv.born, hnone']; rfl
  have hleft := h.arises.1.startMain name
  have hright := h.arises.2.startMain name
  obtain ⟨hresult, hreg⟩ := onRegistry_agrees (Registry.preserves_resolve Registry.lasting_discreet w.host.library name)
    hagrees
  rw [startMain_eq] at hs hleft hright
  rw [startMain_eq]
  rw [hagrees.library] at hright ⊢
  have hframe : ∀ w' : World, (onRegistry (w.host.library.resolve name) w').2.host.born = w'.host.born ∧
      (onRegistry (w.host.library.resolve name) w').2.processes = w'.processes := fun _ => ⟨rfl, rfl⟩
  have hw := hframe w
  have hv := hframe v
  generalize onRegistry (w.host.library.resolve name) w = x at *
  generalize onRegistry (w.host.library.resolve name) v = y at *
  obtain ⟨r, w₀⟩ := x
  obtain ⟨r', v₀⟩ := y
  cases hresult
  cases r with
  | error e => cases hs
  | ok module =>
      cases hs
      obtain ⟨hwborn, hwprocesses⟩ := hw
      obtain ⟨hvborn, hvprocesses⟩ := hv
      dsimp only at hwborn hwprocesses hvborn hvprocesses hreg hleft hright ⊢
      have hget : ∀ {u : World}, u.host.born = 0 → u.processes = {} → (u.entered module).processes.get? ⟨1⟩ =
          some (.main ⟨1⟩ u.host.heapSettings module) := by
        intro u hb hp
        unfold entered
        rw [hb, hp]
        rfl
      rw [hvborn, hborn', hwborn, hborn]
      refine ⟨_, rfl, hleft, hright, ⟨hreg.registry, hreg.discreet, hreg.library, hreg.out, hreg.err⟩, _, _, _,
        hget (hwborn.trans hborn) (hwprocesses.trans hnone), hget (hvborn.trans hborn') (hvprocesses.trans hnone'),
        Process.twin_main _ _ _ _, (Process.rooted_main _ _ _ False).mono False.elim⟩

theorem exitStatus_eq (hp : w.processes.get? id = some p) (hentry : p.entryTask = some ⟨0⟩) : w.exitStatus id =
    { process := id, value := p.exitValue.getD (p.taskAt ⟨0⟩).register
      text := p.heap.display w.host.registry (p.exitValue.getD (p.taskAt ⟨0⟩).register)
      failed := (p.taskAt ⟨0⟩).state = .error, uncaught := p.uncaught } := by
  have hfetch : w.processes.fetch id = p := Processes.fetch_of_get? hp
  unfold World.exitStatus
  rw [hfetch]
  dsimp only
  rw [hentry]
  rfl

theorem Abreast.exitStatus (h : Abreast id w v) : (v.exitStatus id).text = (w.exitStatus id).text ∧
    (v.exitStatus id).failed = (w.exitStatus id).failed ∧ (v.exitStatus id).uncaught = (w.exitStatus id).uncaught := by
  obtain ⟨R, p, q, hp, hq, ht, hrooted⟩ := h.twins
  have hentry : q.entryTask = p.entryTask := (congrArg Process.entryTask ht.bare :)
  have hvalue : (p.exitValue.getD (p.taskAt ⟨0⟩).register).Pairs R (q.exitValue.getD (q.taskAt ⟨0⟩).register) := by
    rcases rel_cases ht.exit with ⟨hx, hy⟩ | ⟨x, y, hx, hy, hv⟩
    · rw [hx, hy]
      exact ht.entry ⟨0⟩ hrooted.entry
    · rw [hx, hy]
      exact hv
  rw [exitStatus_eq hp hrooted.entry, exitStatus_eq hq (hentry.trans hrooted.entry)]
  refine ⟨?_, ?_, (congrArg Process.uncaught ht.bare :)⟩
  · dsimp only
    rw [h.agrees.registry]
    exact ht.heap.display hvalue _
  · dsimp only
    rw [Process.state_eq_of_bare ht.bare]

theorem Secluded.exited (hs : w.Secluded id) (hover : w.isOver) : w.Exited id := by
  obtain ⟨p, hp, _⟩ := hs.unfaulted
  obtain ⟨_, hp'⟩ := Processes.get?_eq_some.1 hp
  have hall := Array.all_eq_true_iff_forall_mem.1 hover p (Array.mem_of_getElem? hp')
  exact ⟨p, hp, of_decide_eq_true hall⟩

/-- Two runs of a program that differ in the limits of their heaps, and in the number and the moments of their collections,
write the same and end in the same way. -/
theorem collections_unobservable (h : Prepared w v) {name : String} {w₁ v₁ w' v' : World}
    (hs : startMain name w = (.ok id, w₁)) (hs' : (startMain name v).2 = v₁)
    (hw : Course (fun w => w.Secluded id ∧ w.Tactful id) id w₁ w') (hv : Course (Secluded id) id v₁ v')
    (hover : w'.isOver) (hover' : v'.isOver) :
    v'.host.out = w'.host.out ∧ v'.host.err = w'.host.err ∧ (v'.exitStatus id).text = (w'.exitStatus id).text ∧
      (v'.exitStatus id).failed = (w'.exitStatus id).failed ∧ (v'.exitStatus id).uncaught = (w'.exitStatus id).uncaught := by
  obtain ⟨v₂, hstart, habreast⟩ := h.startMain hs
  rw [hstart] at hs'
  cases hs'
  have hend := habreast.courses hw hv (hw.last.1.exited hover) (hv.last.exited hover')
  exact ⟨hend.agrees.out, hend.agrees.err, hend.exitStatus⟩

/-! ## A large and a small heap -/

/-- A program that leaves texts behind, asks a `Foo` for a member, calls what it gets and prints the message of the
error. -/
def littering (member : String) : CompiledModule :=
  { name := "littering"
    tape := { instructions := #[⟨.handler, .scalar (.int 9)⟩, ⟨.load, .text "x"⟩, ⟨.load, .text "x"⟩, ⟨.load, .text "x"⟩,
      ⟨.load, .text "x"⟩, ⟨.callBare, .name "Foo"⟩, ⟨.member, .name member⟩, ⟨.callBare, .none⟩, ⟨.ret, .scalar (.int 0)⟩,
      ⟨.member, .name "message"⟩, ⟨.call, .name "println"⟩, ⟨.ret, .scalar (.int 0)⟩] }
    classes := #[{ name := "Foo", superName := some "Array", start := 0, stop := 0 }] }

def readied (member : String) (settings : HeapSettings) : World :=
  (register (littering member) { host := { heapSettings := settings } }).2

def launched (member : String) (settings : HeapSettings) : World := (startMain "littering" (readied member settings)).2

/-- There is room for ten objects. -/
def tight : HeapSettings := { maxObjects := 10, threshold := 5 }

theorem prepared_littering (member : String) : Prepared (readied member tight) (readied member {}) :=
  .register (littering member) (.create { heap := { maxObjects := some 10 } } {} rfl rfl)

/-- A collection that is due leaves room. -/
def hasRoom (m : Machine) : Bool :=
  m.top?.all fun top => (m.process.contextAt top).error.isSome || !m.process.heap.shouldCollect ||
    (Machine.collectGarbage m).2.process.heap.overLimit?.isNone

/-- The instruction that is due makes no error about the type of a value. -/
def keepsType (m : Machine) : Bool :=
  m.top?.all fun top =>
    let context := m.process.contextAt top
    let n := if m.process.heap.shouldCollect then (Machine.collectGarbage m).2 else m
    (m.host.registry.moduleAt context.module).tape.instructions[context.cursor]?.all fun i =>
      match (Machine.step top context.cursor i n).1 with
      | .error (.type _ _) => false
      | _ => true

theorem spacious_of_hasRoom (h : hasRoom m) : m.Spacious := by
  intro top htop hclear hdue
  unfold hasRoom at h
  rw [htop, Option.all_some, hclear, hdue] at h
  simpa using h

theorem tactful_of_keepsType (h : keepsType m) : m.Tactful := by
  rintro n top i hdue e he ⟨r, expected, rfl⟩
  have hn : n = if m.process.heap.shouldCollect then (Machine.collectGarbage m).2 else m := by
    rcases hdue.swept with ⟨hno, rfl⟩ | ⟨hyes, hsafe⟩
    · rw [hno]
      rfl
    · rw [hyes]
      exact Machine.eq_of_safepoint hsafe
  unfold keepsType at h
  rw [hdue.innermost] at h
  simp only [Option.all_some, hdue.fetched, ← hn, he] at h
  cases h

/-- As long as the process is where it should be, and so is each moment of the turn that comes next. -/
def secludes (P : Machine → Bool) (w : World) : Bool :=
  decide (w.processes.items.size = 1) && decide (w.Alone ⟨1⟩) && ((w.processes.get? ⟨1⟩).any fun p => p.fault.isNone) &&
    (w.opening? ⟨1⟩).all fun m => Throughout P 20 (Machine.resume m).2

theorem amid_of_secludes {P : Machine → Bool} {t : TaskId} (h : secludes P w) (ham : w.Amid ⟨1⟩ t m) : P m := by
  obtain ⟨hopen, hruns⟩ := ham
  have hall := (Bool.and_eq_true_iff.1 h).2
  rw [opening_of_opens hopen] at hall
  exact of_throughout hall hruns

theorem secluded_of_secludes {P : Machine → Bool} (hP : ∀ m, P m → hasRoom m) (h : secludes P w) : w.Secluded ⟨1⟩ := by
  have hparts := (Bool.and_eq_true_iff.1 h).1
  simp only [Bool.and_eq_true, decide_eq_true_eq, Option.any_eq_true, Option.isNone_iff_eq_none] at hparts
  obtain ⟨⟨hsingle, halone⟩, p, hp, hfault⟩ := hparts
  exact ⟨hsingle, halone, ⟨p, hp, hfault⟩, fun t m ham => spacious_of_hasRoom (hP m (amid_of_secludes h ham))⟩

theorem Course.of_play {check : World → Bool} (hc : ∀ w, check w → ok w) (hw : check w) {fuel : Nat} {events : List Event}
    (h : play fuel check events w = some w') : Course ok id w w' := by
  induction events generalizing w with
  | nil =>
      cases h
      exact .ends (hc _ hw)
  | cons e rest ih =>
      obtain ⟨w₁, hstep, hrest⟩ := Option.bind_eq_some_iff.1 h
      split at hrest
      · exact .event (hc w hw) hstep (ih ‹_› hrest)
      · cases hrest

/-- The program has come to its end. -/
def littered? (P : Machine → Bool) (member : String) (settings : HeapSettings) : Option World :=
  if secludes P (launched member settings) then
    play 20 (secludes P) [.tick ⟨1⟩, .tick ⟨1⟩] (launched member settings)
  else none

theorem course_of_littered {P : Machine → Bool} {member : String} {settings : HeapSettings}
    (hP : ∀ w, secludes P w → ok w) (h : littered? P member settings = some w') :
    Course ok ⟨1⟩ (launched member settings) w' := by
  unfold littered? at h
  split at h
  · exact .of_play hP ‹_› h
  · cases h

def gentle (m : Machine) : Bool := hasRoom m && keepsType m

theorem course_of_hasRoom {member : String} {settings : HeapSettings} (h : littered? hasRoom member settings = some w') :
    Course (Secluded ⟨1⟩) ⟨1⟩ (launched member settings) w' :=
  course_of_littered (fun _ => secluded_of_secludes fun _ h => h) h

theorem course_of_gentle {member : String} {settings : HeapSettings} (h : littered? gentle member settings = some w') :
    Course (fun w => w.Secluded ⟨1⟩ ∧ w.Tactful ⟨1⟩) ⟨1⟩ (launched member settings) w' :=
  course_of_littered (fun _ h => ⟨secluded_of_secludes (fun _ h => (Bool.and_eq_true_iff.1 h).1) h, fun _ _ ham =>
    tactful_of_keepsType (Bool.and_eq_true_iff.1 (amid_of_secludes h ham)).2⟩) h

/-- How often the garbage of the process has been collected. -/
def collections (w : World) : Nat := (w.processes.fetch ⟨1⟩).heap.stats.collections

/-- A `Foo` has no such member. There is room for ten objects. -/
def cramped : World := (littered? gentle "missing" tight).get (by decide +kernel)

/-- A `Foo` has no such member. There is room for as many objects as there ever will be. -/
def roomy : World := (littered? hasRoom "missing" {}).get (by decide +kernel)

theorem collections_unobservable_littering : cramped.collections = 4 ∧ roomy.collections = 0 ∧
    cramped.host.out = "`Foo` has no member `missing`\n" ∧ roomy.host.out = cramped.host.out ∧
    roomy.host.err = cramped.host.err ∧ (roomy.exitStatus ⟨1⟩).text = (cramped.exitStatus ⟨1⟩).text ∧
    (roomy.exitStatus ⟨1⟩).failed = (cramped.exitStatus ⟨1⟩).failed ∧
    (roomy.exitStatus ⟨1⟩).uncaught = (cramped.exitStatus ⟨1⟩).uncaught := by
  have hcramped : cramped.isOver ∧ cramped.collections = 4 ∧ cramped.host.out = "`Foo` has no member `missing`\n" := by
    decide +kernel
  have hroomy : roomy.isOver ∧ roomy.collections = 0 := by decide +kernel
  exact ⟨hcramped.2.1, hroomy.2, hcramped.2.2,
    collections_unobservable (prepared_littering "missing") (startMain_of_toOption (by decide +kernel)) rfl
      (course_of_gentle (Option.some_get _).symm) (course_of_hasRoom (Option.some_get _).symm) hcramped.1 hroomy.1⟩

/-- A `Foo` inherits the member, but it is no array. There is room for ten objects. -/
def crampedCall : World := (littered? hasRoom "push" tight).get (by decide +kernel)

/-- The same where there is room for as many objects as there ever will be. -/
def roomyCall : World := (littered? hasRoom "push" {}).get (by decide +kernel)

/-- The message of the error names the slot of the object, and so it tells how often the garbage has been collected. -/
theorem slot_number_observable : ∃ w v w₁ v₁ w' v' : World, Prepared w v ∧
    startMain "littering" w = (.ok ⟨1⟩, w₁) ∧ (startMain "littering" v).2 = v₁ ∧ Course (Secluded ⟨1⟩) ⟨1⟩ w₁ w' ∧
    Course (Secluded ⟨1⟩) ⟨1⟩ v₁ v' ∧ w'.isOver ∧ v'.isOver ∧
    w'.host.out = "type error: expected Array, got object 1\n" ∧
    v'.host.out = "type error: expected Array, got object 7\n" := by
  have hcramped : crampedCall.isOver ∧ crampedCall.host.out = "type error: expected Array, got object 1\n" := by
    decide +kernel
  have hroomy : roomyCall.isOver ∧ roomyCall.host.out = "type error: expected Array, got object 7\n" := by
    decide +kernel
  exact ⟨_, _, _, _, crampedCall, roomyCall, prepared_littering "push", startMain_of_toOption (by decide +kernel), rfl,
    course_of_hasRoom (Option.some_get _).symm, course_of_hasRoom (Option.some_get _).symm, hcramped.1, hroomy.1,
    hcramped.2, hroomy.2⟩

end World

end Spool
