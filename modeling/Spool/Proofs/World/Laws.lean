import Spool.Proofs.Machine.Observance
import Spool.Proofs.World.Moments

/-!
# Worlds keep to the law

The laws of processes hold in every world that can come about, at every moment of a turn. What crosses the border of a
process is copied, and copies start with what their class gives them.
-/

namespace Spool

/-! ## Background calls -/

namespace Errand

variable {U : Handle → Prop} {L : Heap → Prop} {α : Type}

/-- The heap is as the law has it. -/
def Lawful (L : Heap → Prop) (e : Errand) : Prop := L e.heap ∧ e.heap.Orderly ∧ e.heap.Present

theorem lawful_onHeap {act : Act Heap α} (hL : Heap.Law U L) (ha : ∀ L', Heap.Law U L' → Preserves L' act) :
    Preserves (Lawful L) (onHeap act) := fun e he => ha _ (hL.and Heap.law_present) e.heap he

theorem lawful_look (f : Errand → Except Fault α) : Preserves (Lawful L) (ExceptT.mk do return f (← get)) := fun _ he => he

section
variable (hL : Heap.Law U L)
include hL

theorem lawful_hold (v : Value) : Preserves (Lawful L) (hold v) := by
  cases v with
  | none => exact preserves_pure _
  | scalar s => exact preserves_pure _
  | object r =>
      refine preserves_bind (lawful_onHeap hL fun _ hL' => hL'.root r) fun _ => preserves_bind ?_ fun _ => preserves_pure _
      exact fun _ he => he

omit hL in
theorem lawful_textArgument (v : Value) : Preserves (Lawful L) (textArgument v) := by
  cases v with
  | none => exact preserves_throw _
  | scalar s => exact preserves_throw _
  | object r =>
      refine preserves_bind (lawful_look _) fun o => ?_
      split
      · exact preserves_pure _
      · exact preserves_throw _

omit hL in
theorem lawful_remoteTarget (v : Value) : Preserves (Lawful L) (remoteTarget v) := by
  cases v with
  | none => exact preserves_throw _
  | scalar s => exact preserves_throw _
  | object r =>
      refine preserves_bind (lawful_look _) fun o => ?_
      split
      · exact preserves_pure _
      · exact preserves_throw _

theorem lawful_carry {registry : Registry} (hr : registry.Seeded) {source : Heap} (hs : source.Fitting) (v : Value) :
    Preserves (Lawful L) (carry registry source v) := by
  intro e he
  have hstart : (Copier.new source e.heap registry).Lawful (fun h => L h ∧ h.Orderly ∧ h.Present) source [] :=
    .start he he.2.1 he.2.2 hr
  exact (Copier.lawful_copy (hL.and Heap.law_present) hs v _ hstart).law

theorem lawful_remoteGet {w : World} (hr : w.host.registry.Seeded) (hs : ∀ p ∈ w.processes.items, p.heap.Fitting)
    (own : ProcessId) (receiver argument : Value) : Preserves (Lawful L) (remoteGet w own receiver argument) := by
  refine preserves_bind (lawful_textArgument argument) fun name =>
    preserves_bind (lawful_remoteTarget receiver) fun target => ?_
  split
  · exact preserves_bind (lawful_look _) fun v => lawful_hold hL v
  · split
    · exact preserves_throw _
    · rename_i other hother
      have hfit := hs other (Array.mem_of_getElem? (Processes.get?_eq_some.1 hother).2)
      exact preserves_bind (preserves_mk _) fun v => preserves_bind (lawful_carry hL hr hfit v) fun v => lawful_hold hL v

theorem lawful_run {w : World} (hr : w.host.registry.Seeded) (hs : ∀ p ∈ w.processes.items, p.heap.Fitting)
    (call : BackgroundCall) : Preserves (Lawful L) (run w call) := by
  unfold run
  split
  · exact preserves_mk _
  · exact lawful_remoteGet hL hr hs _ _ _
  · refine preserves_bind (lawful_textArgument _) fun s => ?_
    refine preserves_bind (lawful_onHeap hL fun L' hL' h hh => ?_) fun r => lawful_hold hL _
    exact hL'.create (Payload.fits_of_home rfl) rfl hh
  · exact preserves_pure _
  · exact preserves_throw _
  · exact preserves_throw _

end

end Errand

/-! ## Processes -/

namespace Machine

variable {K : Process → Prop} {id : ProcessId} {m : Machine} {g : Outlook} {t : TaskId}

theorem Lawful.busy (hm : m.Lawful K id) (hgo : m.Going g (some t)) : m.Busy K id := by
  have hlt := (hgo.inv.intact.schedule.running t rfl).1
  obtain ⟨rfl, _⟩ := hgo.current
  exact ⟨hm, hlt, hgo.unfinished⟩

/-- One machine goes on to another without stopping, and the guarded futures are spared. -/
def RunsSparing (G : ProcessId → Handle → Prop) (id : ProcessId) : Machine → Machine → Prop :=
  Relation.ReflTransGen fun a b => a.Spares G id ∧ advance a = (true, b)

theorem RunsSparing.runs {G : ProcessId → Handle → Prop} {m' : Machine} (h : RunsSparing G id m m') : m.Runs m' := by
  induction h with
  | refl => exact .refl
  | tail _ hstep ih => exact ih.tail hstep.2

end Machine

namespace Process

variable {G : ProcessId → Handle → Prop} {K : Process → Prop} (hL : Law G K)
include hL

theorem Law.main (id : ProcessId) (settings : HeapSettings) (module : ModuleId) :
    K (main id settings module) ∧ (main id settings module).Bare := by
  let p := Process.seeded id settings
  have hstarted : K (p.startModule module none).2 :=
    hL.heeds (heeds_startModule p module none) (heap_startModule p module none) (hL.seeded id settings)
  have hbare : (p.startModule module none).2.Bare := Bare.startModule (bare_of_empty rfl) module none
  exact ⟨hL.heeds (p := (p.startModule module none).2) (heeds_of_eq rfl rfl) rfl hstarted, bare_of_contexts hbare rfl⟩

end Process

namespace World

variable {G : ProcessId → Handle → Prop} {K : Process → Prop} {w w' : World} {p q : Process} {m m₀ : Machine} {id : ProcessId}
  {t : TaskId}

/-- The processes keep to the law. -/
structure Lawful (K : Process → Prop) (w : World) : Prop where
  seeded : w.host.registry.Seeded
  processes : ∀ p ∈ w.processes.items, K p ∧ p.Bare

/-- No instruction of the next turn of the process writes the member `value` of a guarded future that has been read. -/
def Spares (G : ProcessId → Handle → Prop) (w : World) (id : ProcessId) : Prop := ∀ t m, w.Amid id t m → m.Spares G id

theorem Round.inv (hinv : w.Inv) (hp : p ∈ w.processes.items) {s : Stage} (hm : Round w p s m) :
    ∃ cur, m.Inv (w.outlook p) cur [] := by
  have hgood := hm.good hinv hp
  cases s with
  | between => exact ⟨_, hgood⟩
  | running => exact ⟨_, hgood.inv⟩
  | stopped =>
      rcases hgood with hgood | hgood
      · exact ⟨_, hgood.inv⟩
      · exact ⟨_, hgood.inv⟩

/-- The heap is in order, and its reflections are rooted. -/
theorem Round.rooted (hinv : w.Inv) (hp : p ∈ w.processes.items) {s : Stage} (hm : Round w p s m) :
    m.process.heap.Sound ∧ m.process.heap.Mirrored := by
  obtain ⟨_, hm⟩ := hm.inv hinv hp
  exact ⟨hm.intact.fit.sound, hm.intact.anchored.mirrored⟩

theorem Lawful.machine (hw : w.Lawful K) (hinv : w.Inv) (hk : K p) (hb : p.Bare) (t : TaskId) :
    ({ host := w.host, process := p, task := t } : Machine).Lawful K p.id := by
  refine ⟨rfl, hw.seeded, hk, hb, ?_⟩
  change ∀ child ∈ w.host.nursery, _
  simp [hinv.settled]

theorem Lawful.settle (hw : w.Lawful K) (hp : w.processes.get? id = some p) (hm : m.Lawful K id) :
    (w.settle id m).Lawful K := by
  refine ⟨hm.seeded, fun q hq => ?_⟩
  obtain ⟨i, hi⟩ := Array.mem_iff_getElem?.1 hq
  rcases processes_settle hp m hi with ⟨_, rfl⟩ | ⟨_, hold⟩ | ⟨_, _, hchild⟩
  · exact ⟨hm.law, hm.bare⟩
  · exact hw.processes q (Array.mem_of_getElem? hold)
  · exact hm.nursery q (List.mem_of_getElem? hchild)

theorem Lawful.put (hw : w.Lawful K) (hp : w.processes.get? id = some p) (hk : K q) (hb : q.Bare) :
    ({ w with processes := w.processes.set id q } : World).Lawful K := by
  refine ⟨hw.seeded, fun x hx => ?_⟩
  obtain ⟨i, hi⟩ := Array.mem_iff_getElem?.1 hx
  change (w.processes.set id q).items[i]? = some x at hi
  rw [Processes.getElem?_set hp] at hi
  split at hi
  · cases hi
    exact ⟨hk, hb⟩
  · exact hw.processes x (Array.mem_of_getElem? hi)

theorem Lawful.registry (hw : w.Lawful K) {registry : Registry} (hr : registry.Seeded) :
    ({ w with host := { w.host with registry } } : World).Lawful K :=
  ⟨hr, hw.processes⟩

section
variable (hL : Process.Law G K)
include hL

/-! ## A turn -/

theorem Lawful.awaken (hw : w.Lawful K) (hp : p ∈ w.processes.items) : K (awaken p) ∧ (World.awaken p).Bare := by
  obtain ⟨hk, hb⟩ := hw.processes p hp
  obtain ⟨poked, heq⟩ := awaken_eq p
  rw [heq]
  exact ⟨hL.heeds (p := p) (Process.heeds_of_eq rfl rfl) rfl hk, Process.bare_of_contexts hb rfl⟩

theorem Lawful.settled (hw : w.Lawful K) (hinv : w.Inv) (ho : w.Orderly []) (hp : w.processes.get? id = some p) :
    (w.settled p).Lawful K id := by
  obtain ⟨hmem, hid, _⟩ := hinv.get? hp
  obtain ⟨hk, hb⟩ := hw.awaken hL hmem
  have hawake := hw.machine hinv hk hb ⟨0⟩
  have hid' : (World.awaken p).id = id := by
    obtain ⟨_, heq⟩ := awaken_eq p
    rw [heq]
    exact hid
  obtain ⟨_, hproceeds, _⟩ := Machine.tidy_settleAll (hinv.awaken hmem ⟨0⟩) (ho.awaken hinv hp ⟨0⟩)
  have hdrift := Machine.drifting_settleAll (U := G id) hw.seeded
    (m := { host := w.host, process := World.awaken p, task := ⟨0⟩ })
  rw [hid'] at hawake
  exact hawake.drifting hL hdrift (Process.heeds_of_abides hdrift.drifts.id hproceeds.upholds.toAbides)

theorem Lawful.opens (hw : w.Lawful K) (hinv : w.Inv) (ho : w.Orderly []) (hopen : w.Opens id t m₀) : m₀.Busy K id := by
  obtain ⟨g, hgo⟩ := hopen.going hinv
  refine Machine.Lawful.busy ?_ hgo
  cases hopen with | @mk p queue hp hcan hq => ?_
  have hsettled := hw.settled hL hinv ho hp
  have hqueue := hsettled.process hL (p := { (w.settled p).process with queue }) (Process.heeds_of_eq rfl rfl) rfl
    (Process.bare_of_contexts hsettled.bare rfl)
  exact ⟨hqueue.id, hqueue.seeded, hqueue.law, hqueue.bare, hqueue.nursery⟩

theorem Lawful.amid (hw : w.Lawful K) (hinv : w.Inv) (ho : w.Orderly []) (hopen : w.Opens id t m₀)
    (hruns : Machine.RunsSparing G id (Machine.resume m₀).2 m) : m.Busy K id := by
  obtain ⟨g, hgo⟩ := hopen.going hinv
  have hresumed := (Machine.kept_resume hgo).1
  induction hruns with
  | refl => exact ((hw.opens hL hinv ho hopen).resume hL).busy hresumed
  | tail hruns hstep ih =>
      have hbefore : (Machine.resume m₀).2.Runs _ := Machine.RunsSparing.runs hruns
      have hadv := ih.advance hL (hbefore.stirs hresumed).2 hstep.1
      rw [hstep.2] at hadv
      have hafter : (Machine.resume m₀).2.Runs _ := hbefore.tail hstep.2
      exact hadv.busy (hafter.stirs hresumed).2

omit hL in
theorem Spares.runs (hspare : w.Spares G id) (hopen : w.Opens id t m₀) (hruns : (Machine.resume m₀).2.Runs m) :
    Machine.RunsSparing G id (Machine.resume m₀).2 m := by
  induction hruns with
  | refl => exact .refl
  | tail hruns hstep ih => exact ih.tail ⟨hspare t _ (.mk hopen hruns), hstep⟩

theorem Lawful.tick (hw : w.Lawful K) (hinv : w.Inv) (ho : w.Orderly []) (hspare : w.Spares G id) {fuel : Nat}
    (h : w.tick fuel id = some w') : w'.Lawful K := by
  rcases tick_cases h with ⟨rfl, _⟩ | ⟨p, m', hp, hcan, htick, rfl⟩
  · exact hw
  rw [tick_settled, Option.map_eq_some_iff] at htick
  obtain ⟨⟨ran, m₁⟩, hrun, rfl⟩ := htick
  have hmem := (hinv.get? hp).1
  have hran : m₁.Lawful K id ∧ Round w p .between m₁ := by
    unfold Machine.runNext at hrun
    split at hrun
    · rename_i t queue hq
      simp only [Machine.runTask, Option.map_map, Option.map_eq_some_iff, Function.comp, Prod.mk.injEq] at hrun
      obtain ⟨m₂, hrun, _, rfl⟩ := hrun
      have hopen : w.Opens id t _ := .mk hp hcan hq
      obtain ⟨g, hgo⟩ := hopen.going hinv
      obtain ⟨m₃, hruns, hstop⟩ := Machine.runs_of_runFrom ((hgo.run_eq fuel).symm.trans hrun)
      have hround₃ : Round w p .running m₃ := (Round.begin (.settle hcan) hq).runs hruns
      have hbusy := hw.amid hL hinv ho hopen (hspare.runs hopen hruns)
      have hstopped := hbusy.advance hL (hround₃.good hinv hmem) (hspare t _ (.mk hopen hruns))
      have hround₂ := hround₃.advance
      rw [hstop] at hstopped hround₂
      exact ⟨hstopped.conclude hL, hround₂.conclude⟩
    · cases hrun
      exact ⟨hw.settled hL hinv ho hp, .settle hcan⟩
  obtain ⟨hsound, hmirrored⟩ := hran.2.rooted hinv hmem
  have htidy := hran.1.tidy hL hsound hmirrored
  refine hw.settle hp (htidy.process hL (Process.heeds_of_eq rfl rfl) rfl (Process.bare_of_contexts htidy.bare rfl))

/-! ## Results of other processes -/

theorem law_sent (hk : K p) (hb : p.Bare) (v : Value) : K (sent p v) ∧ (sent p v).Bare := by
  have hrest : ∀ heap outgoing, K { p with heap } →
      K { p with heap, outgoing } ∧ ({ p with heap, outgoing } : Process).Bare := fun heap outgoing hk =>
    ⟨hL.heeds (p := { p with heap }) (Process.heeds_of_eq rfl rfl) rfl hk, Process.bare_of_contexts hb rfl⟩
  unfold sent
  cases v with
  | none => exact hrest p.heap _ hk
  | scalar s => exact hrest p.heap _ hk
  | object r => exact hrest _ _ ((hL.heap p).unroot r p.heap hk)

theorem Lawful.received (hw : w.Lawful K) (hinv : w.Inv) (ho : w.Orderly []) {out : Outgoing} (hd : w.Passes p q out) :
    ((w.sending p out).received p q out).host.registry.Seeded ∧ K ((w.sending p out).received p q out).process ∧
      ((w.sending p out).received p q out).process.Bare := by
  obtain ⟨hk, hb⟩ := hw.processes q (hinv.get? hd.receiver).1
  let m₀ : Machine := { host := w.host, process := q, task := out.link.task }
  have hreceived : Machine.Drifting (G q.id) m₀ ((w.sending p out).received p q out) := by
    rcases hcopy : Copier.copy p.heap (p.taskAt out.task).register (Copier.new p.heap q.heap w.host.registry) with
      ⟨copied, copier⟩
    rw [received_eq (w := w.sending p out) hcopy]
    refine Machine.drifting_endCarrier _ _ ⟨hw.seeded, rfl, rfl, fun K' hK' hk' => ?_, fun h => Process.bare_of_contexts h rfl⟩
    have hintact := hinv.intact q (hinv.get? hd.receiver).1
    have hstart : (Copier.new p.heap q.heap w.host.registry).Lawful K' p.heap [] :=
      .start hk' hintact.fit.sound.orderly (fun _ _ => hintact.anchored.mirrored.isLive) hw.seeded
    have hcopied := Copier.lawful_copy hK' (hL.fitting (hw.processes p (hinv.get? hd.sender).1).1)
      (p.taskAt out.task).register _ hstart
    rw [hcopy] at hcopied
    exact hcopied.law
  have hheeds : q.Heeds ((w.sending p out).received p q out).process := by
    obtain ⟨_, habides, _⟩ := ho.deliver hinv hd
    obtain ⟨q', hq', hroster⟩ := habides out.link.process q hd.receiver
    rw [hd.deliver_eq] at hq'
    have hget := Processes.get?_set hd.get?_sending
      { ((w.sending p out).received p q out).process with poked := true } (x := out.link.process)
    rw [if_pos rfl] at hget
    cases hget.symm.trans hq'
    exact Process.heeds_of_abides hreceived.drifts.id hroster
  exact ⟨hreceived.seeded, hL.drifts hreceived.drifts hheeds hk, hreceived.drifts.bare hb⟩

theorem Lawful.deliver (hw : w.Lawful K) (hinv : w.Inv) (ho : w.Orderly []) (id : ProcessId) : (w.deliver id).Lawful K := by
  rcases hinv.deliver_cases id with h | ⟨p, q, out, rfl, hd⟩
  · rw [deliver_eq_self h]
    exact hw
  · obtain ⟨hk, hb⟩ := hw.processes p (hinv.get? hd.sender).1
    obtain ⟨hksent, hbsent⟩ := law_sent hL hk hb (p.taskAt out.task).register
    have hsending : (w.sending p out).Lawful K := hw.put hd.sender hksent hbsent
    obtain ⟨hseeded, hkq, hbq⟩ := hw.received hL hinv ho hd
    have hput := hsending.put (q := { ((w.sending p out).received p q out).process with poked := true }) hd.get?_sending
      (hL.heeds (p := ((w.sending p out).received p q out).process) (Process.heeds_of_eq rfl rfl) rfl hkq)
      (Process.bare_of_contexts hbq rfl)
    rw [hd.deliver_eq]
    exact ⟨hseeded, hput.processes⟩

theorem Lawful.complete (hw : w.Lawful K) (hinv : w.Inv) (alarm : Alarm) : (w.complete alarm).Lawful K := by
  unfold World.complete
  split
  · rename_i call hrunning
    have hcall : call ∈ w.host.pool.jobs := (Pool.jobs_finish hrunning).mem_iff.1 List.mem_cons_self
    let w₁ : World := { w with clock := max w.clock alarm.due, alarms := w.alarms.erase alarm }
    have hw₁ : w₁.Lawful K := ⟨hw.seeded, hw.processes⟩
    obtain ⟨p, hp⟩ := (hinv.calls call hcall).get?
    obtain ⟨hk, hb⟩ := hw.processes p (hinv.get? hp).1
    rcases hrun : Errand.run w₁ call { heap := p.heap, held := call.held } with ⟨result, e⟩
    have hintact := hinv.intact p (hinv.get? hp).1
    have hlaw := Errand.lawful_run (hL.heap p) (w := w₁) hw.seeded (fun q hq => hL.fitting (hw.processes q hq).1) call
      { heap := p.heap, held := call.held } ⟨hk, hintact.fit.sound.orderly, fun _ _ => hintact.anchored.mirrored.isLive⟩
    rw [hrun] at hlaw
    let back : Process := { p with
        heap := e.heap
        completions := p.completions ++ [{ task := call.carrier, result, held := e.held }] }
    have hback : K back := hL.heeds (p := { p with heap := e.heap }) (Process.heeds_of_eq rfl rfl) rfl hlaw.1
    have hput := hw₁.put hp hback (Process.bare_of_contexts hb rfl)
    dsimp only
    rw [performCall_eq (w := w₁) hp hrun]
    exact ⟨hput.seeded, hput.processes⟩
  · exact hw

omit hL in
theorem Lawful.engage (hw : w.Lawful K) (worker : WorkerId) : (w.engage worker).Lawful K := by
  unfold World.engage
  split
  · exact hw
  · dsimp only
    split
    · exact ⟨hw.seeded, hw.processes⟩
    · exact ⟨hw.seeded, hw.processes⟩

/-! ## Events -/

/-- No instruction writes the member `value` of a guarded future that has been read in what happens next. -/
def EventSpares (G : ProcessId → Handle → Prop) (w : World) : Event → Prop
  | .tick id => w.Spares G id
  | _ => True

theorem Lawful.step (hw : w.Lawful K) (hinv : w.Inv) (ho : w.Orderly []) {fuel : Nat} {e : Event}
    (hspare : w.EventSpares G e) (h : w.step fuel e = some w') : w'.Lawful K := by
  cases e with
  | tick id => exact hw.tick hL hinv ho hspare h
  | deliver id =>
      cases h
      exact hw.deliver hL hinv ho id
  | engage worker =>
      cases h
      exact hw.engage worker
  | complete alarm =>
      cases h
      exact hw.complete hL hinv alarm

omit hL in
theorem lawful_onRegistry {α : Type} {act : Registry.Entry α} (ha : Preserves Registry.Seeded act) :
    Preserves (Lawful K) (onRegistry act) :=
  fun w hw => hw.registry (ha w.host.registry hw.seeded)

theorem lawful_startMain (name : String) : Preserves (Lawful K) (startMain name) := by
  unfold startMain
  refine preserves_get fun w _ => ?_
  refine preserves_bind (lawful_onRegistry (Registry.preserves_resolve Registry.lasting_seeded w.host.library name))
    fun module w hw => ?_
  refine ⟨hw.seeded, fun p hp => ?_⟩
  rcases Array.mem_push.1 hp with hp | rfl
  · exact hw.processes p hp
  · exact hL.main ⟨w.host.born + 1⟩ w.host.heapSettings module

/-- What is done from outside runs no instruction. -/
theorem Lawful.handled (hw : w.Lawful K) (hinv : w.Inv) (h : Handled w w') : w'.Lawful K := by
  cases h with
  | addHostModule => exact hw.registry hw.seeded.addHostModule
  | register m => exact lawful_onRegistry (Registry.preserves_register Registry.lasting_seeded m _ _) w hw
  | loadFile path =>
      have hload : Preserves (Lawful K) (World.loadFile path) := preserves_get fun w' _ =>
        lawful_onRegistry (Registry.preserves_loadFile Registry.lasting_seeded w'.host.library path)
      exact hload w hw
  | startMain name => exact lawful_startMain hL name w hw
  | collect id =>
      cases hp : w.processes.get? id with
      | none =>
          have hset : ∀ q, w.processes.set id q = w.processes := fun q => Processes.set_of_get?_eq_none hp q
          simp only [World.collect, hset]
          exact hw
      | some p =>
          have hfetch : w.processes.fetch id = p := Processes.fetch_of_get? hp
          obtain ⟨hk, hb⟩ := hw.processes p (hinv.get? hp).1
          simp only [World.collect, hfetch]
          have hintact := hinv.intact p (hinv.get? hp).1
          exact hw.put hp (hL.collect w.host.registry hintact.fit.sound hintact.anchored.mirrored hk) (Process.bare_of_contexts hb rfl)

omit hL in
theorem lawful_create {r : MachineRequest} (h : create r = .ok w) : w.Lawful K := by
  obtain ⟨_, _, rfl⟩ := eq_of_create h
  exact ⟨Registry.seeded_initial, by simp⟩

end

/-- A world that has come about without an instruction that writes the member `value` of a guarded future that has been
read. -/
inductive Spared (G : ProcessId → Handle → Prop) : World → Prop where
  | create {r : MachineRequest} {w : World} : create r = .ok w → Spared G w
  | handle {w w' : World} : Spared G w → Handled w w' → Spared G w'
  | step {w w' : World} {fuel : Nat} {e : Event} : Spared G w → w.EventSpares G e → w.step fuel e = some w' → Spared G w'

theorem Spared.arises (hw : w.Spared G) : w.Arises := by
  induction hw with
  | create h => exact .create h
  | handle _ hh ih => exact hh.arises ih
  | step _ _ hs ih => exact ih.step hs

theorem Spared.lawful (hL : Process.Law G K) (hw : w.Spared G) : w.Lawful K := by
  induction hw with
  | create h => exact lawful_create h
  | handle hw hh ih => exact ih.handled hL hw.arises.inv hh
  | step hw hspare hs ih =>
      obtain ⟨_, hlog⟩ := hw.arises.history
      exact ih.step hL hlog.orderly.1 hlog.orderly.2 hspare hs

theorem Arises.spared (hw : w.Arises) : w.Spared fun _ _ => False := by
  obtain ⟨log, hlog⟩ := hw.history
  clear hw
  induction hlog with
  | create h => exact .create h
  | handle _ hh ih => exact ih.handle hh
  | @step _ _ _ _ e _ hs ih =>
      refine ih.step ?_ hs
      cases e with
      | tick id => exact fun _ _ _ _ _ _ _ _ h => h.elim
      | _ => trivial

/-- A law that guards nothing holds in every world, and at every moment of a turn. -/
theorem Arises.lawful {K : Process → Prop} (hL : Process.Law (fun _ _ => False) K) (hw : w.Arises) : w.Lawful K :=
  hw.spared.lawful hL

/-- So it does at every moment of a round. -/
theorem Round.lawful {K : Process → Prop} (hL : Process.Law (fun _ _ => False) K) (hw : w.Arises)
    (hp : w.processes.get? id = some p) {s : Stage} (hm : Round w p s m) : m.Lawful K id := by
  obtain ⟨log, hlog⟩ := hw.history
  induction hm with
  | settle _ => exact (hw.lawful hL).settled hL hlog.orderly.1 hlog.orderly.2 hp
  | @begin m t queue hbetween hq ih =>
      have hqueue := ih.process hL (p := { m.process with queue }) (Process.heeds_of_eq rfl rfl) rfl
        (Process.bare_of_contexts ih.bare rfl)
      have hturn : ({ m with process := { m.process with queue }, task := t } : Machine).Lawful K id :=
        ⟨hqueue.id, hqueue.seeded, hqueue.law, hqueue.bare, hqueue.nursery⟩
      have hgo := Machine.Inv.begin (hbetween.good hw.inv (hw.inv.get? hp).1) hq
      exact (hturn.busy hgo).resume hL
  | advance hrunning ih =>
      have hgo := hrunning.good hw.inv (hw.inv.get? hp).1
      exact (ih.busy hgo).advance hL hgo fun _ _ _ _ _ h => h.elim
  | conclude _ ih => exact ih.conclude hL
  | tidy hbetween ih =>
      obtain ⟨hsound, hmirrored⟩ := hbetween.rooted hw.inv (hw.inv.get? hp).1
      exact ih.tidy hL hsound hmirrored
  | collect hm _ ih =>
      obtain ⟨hsound, hmirrored⟩ := hm.rooted hw.inv (hw.inv.get? hp).1
      exact ⟨ih.id, ih.seeded, hL.collect _ hsound hmirrored ih.law, Process.bare_of_contexts ih.bare rfl, ih.nursery⟩

end World

end Spool
