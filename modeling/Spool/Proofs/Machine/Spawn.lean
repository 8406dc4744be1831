import Spool.Machine.Spawn
import Spool.Proofs.Machine.Basics

/-!
# New processes

A new process starts with an empty heap and copies of what its first task needs, and is intact. The parent has a
carrier for the result.
-/

namespace Spool

/-! ## The heap of a new process -/

namespace Process

theorem object?_new (settings : HeapSettings) (r : Handle) : (Heap.new settings).object? r = none := by
  simp [Heap.object?, Heap.lookup?, Heap.new]

/-- The reflection of a new process is the only root of its heap. -/
theorem extends_seeded (id : ProcessId) (settings : HeapSettings) :
    (Heap.new settings).Extends Heap.Nowhere (seeded id settings).heap ∧
      (∀ r, (seeded id settings).heap.reflections.values.count r = 0) ∧
      ∀ r, (seeded id settings).heap.rootCount r = (seeded id settings).reflection.toList.count r := by
  have hs := Heap.Sound.new settings
  have hcreate : Heap.Safe Heap.Nowhere (Heap.create .process (.process (some id))) (Heap.new settings) fun r h =>
    h.isLive r ∧ h.reflections = (Heap.new settings).reflections ∧ ∀ x, h.rootCount x = 0 := by
    refine Act.wp_mono (Heap.wp_create hs .process rfl) (fun r h hw => ?_) (fun _ _ => False.elim)
    obtain ⟨_, hw⟩ := hw
    refine ⟨hw.gains (by simp [Payload.external?]), Heap.isLive_of_object? hw.puts.self, hw.puts.reflections, fun x => ?_⟩
    rw [hw.puts.rootCount]
    exact Heap.rootCount_eq_zero (object?_new settings x)
  obtain ⟨hg, hl, hr, hz⟩ := hcreate
  obtain ⟨e, he⟩ := Option.isSome_iff_exists.1 hl
  have hc := hg.sound.recounted he (f := fun e => { e with roots := 1 }) (fun _ => rfl) fun _ => rfl
  refine ⟨hg.toExtends.trans hc.extend, fun x => ?_, fun x => (hc.rootCount x).trans ?_⟩
  · have hnone : (seeded id settings).heap.reflections = (Heap.new settings).reflections := hc.reflections.trans hr
    rw [hnone]
    rfl
  · change _ = List.count x [_]
    rw [List.count_singleton]
    split
    · rename_i hx
      simp [hx]
    · rename_i hx
      simp [hz, Ne.symm hx]

theorem mirrored_seeded (id : ProcessId) (settings : HeapSettings) : (seeded id settings).heap.Mirrored := fun r => by
  rw [(extends_seeded id settings).2.1 r]
  exact Nat.zero_le _

theorem modules_seeded (id : ProcessId) (settings : HeapSettings) (m : ModuleId) (t : TaskId) :
    (seeded id settings).modules.get? m ≠ some (.initializing t) := by
  have : (seeded id settings).modules.get? m = if ModuleId.builtins = m then some .ready else none := rfl
  rw [this]
  split <;> simp

theorem knows_seeded (id : ProcessId) (settings : HeapSettings) {heap : Heap}
    (hg : (seeded id settings).heap.Gains Heap.Nowhere heap) {T : TaskId → Prop} : heap.Knows T :=
  (Heap.knows_new settings).extend ((extends_seeded id settings).1.trans hg.toExtends) fun _ h => h.elim

/-- A new process that has got nothing but objects. -/
theorem intact_seeded {p : Process} {id : ProcessId} {settings : HeapSettings} (hp : p = seeded id settings) {heap : Heap}
    (hg : (seeded id settings).heap.Gains Heap.Nowhere heap) (links : RemoteLink → Prop) :
    ({ p with heap } : Process).Intact none { carriers := fun _ => False, links } := by
  subst hp
  obtain ⟨hext, href, hroot⟩ := extends_seeded id settings
  refine ⟨⟨hg.sound, by simp [seeded], by simp [seeded], by simp [seeded], by simp [seeded], fun r o x hobj hx => ?_⟩,
    ⟨fun r => ?_, (hext.trans hg.toExtends).keys .empty, by simp [seeded], by simp⟩, ?_, fun t task link h => by simp [seeded] at h⟩
  · rcases (hext.trans hg.toExtends).external r o x hobj hx with h | ⟨o', ho', _⟩
    · exact h.elim
    · rw [object?_new] at ho'
      cases ho'
  · have hgains := hg.roots r
    rw [href, hroot] at hgains
    rw [count_anchors]
    change 0 + 0 + 0 + heap.reflections.values.count r + (seeded id settings).reflection.toList.count r + 0
      = heap.rootCount r
    omega
  · have hsch : ({ seeded id settings with heap } : Process).scheduled = [] := by
      simp [scheduled, waiters, seeded, Fifo.toList]
    exact ⟨by simp [hsch], by simp [hsch], fun t h => (by cases h), by simp [seeded],
      fun m t h => absurd h (modules_seeded id settings m t), by simp [seeded], fun t h => h.elim⟩

end Process

/-! ## What a new process starts with -/

namespace Copier

variable {source origin : Heap} {vs : List Value} {c c' : Copier}

/-- A value that the copier has brought along. -/
def Brought (source : Heap) (vs : List Value) (c : Copier) (w : Value) : Prop :=
  ∃ v, Due source vs v ∧ c.Covered source v ∧ w = v.image c.image

theorem Brought.grows {w : Value} (hw : Brought source vs c w) (hg : c.Grows c')
    (hc : Copying source origin vs [] c') : Brought source vs c' w := by
  obtain ⟨v, hdue, hcov, rfl⟩ := hw
  exact ⟨v, hdue, hcov.grows hg, (image_grows hc.staying hg hcov).symm⟩

theorem Brought.valid {w : Value} (hw : Brought source vs c w) (hc : Copying source origin vs [] c) :
    c.target.Valid w := by
  obtain ⟨v, hdue, _, rfl⟩ := hw
  exact hc.valid_image hdue

/-- A copier that can be asked for more. -/
structure Open (source origin : Heap) (vs : List Value) (c : Copier) : Prop where
  copying : Copying source origin vs [] c
  load : c.load ≤ source.slots.size + 1

theorem Open.wp_copy (hs : source.Sound) (hc : Open source origin vs c) {v : Value} (hv : Due source vs v) :
    (copy source v).wp c (fun w c' => Open source origin vs c' ∧ c.Grows c' ∧ Brought source vs c' w)
      (fun _ _ => False) := by
  refine Act.wp_mono (hc.copying.wp_copy hs hc.load hv) (fun w c' hdone => ?_) (fun _ _ => id)
  obtain ⟨hc', hg, _, hcov, hw⟩ := hdone
  exact ⟨⟨hc', Nat.le_trans hg.load hc.load⟩, hg, v, hv, hcov, hw⟩

theorem Open.wp_copyEntries (hs : source.Sound) (hc : Open source origin vs c) {entries : List (String × Value)}
    (he : ∀ e ∈ entries, Due source vs e.2) :
    (entries.mapM (m := Act Copier) fun (name, v) => return (name, ← copy source v)).wp c
      (fun copies c' => Open source origin vs c' ∧ c.Grows c' ∧ ∀ e ∈ copies, Brought source vs c' e.2)
      (fun _ _ => False) := by
  induction entries generalizing c with
  | nil => exact ⟨hc, .refl c, by simp⟩
  | cons e rest ih =>
      simp only [List.mapM_cons, Act.wp_bind, Act.wp_pure]
      refine Act.wp_mono (hc.wp_copy hs (he e List.mem_cons_self)) (fun w c₁ hdone => ?_) (fun _ _ => id)
      obtain ⟨hc₁, hg₁, hw⟩ := hdone
      refine Act.wp_mono (ih hc₁ fun x hx => he x (List.mem_cons_of_mem _ hx)) (fun ws c₂ hdone => ?_)
        (fun _ _ => id)
      obtain ⟨hc₂, hg₂, hws⟩ := hdone
      refine ⟨hc₂, hg₁.trans hg₂, fun x hx => ?_⟩
      rcases List.mem_cons.1 hx with rfl | hx
      · exact hw.grows hg₂ hc₂.copying
      · exact hws x hx

theorem Open.new (hs : origin.Sound) (hm : origin.Mirrored) (registry : Registry) :
    Open source origin vs (Copier.new source origin registry) :=
  ⟨.start hs (fun _ _ h => hm.isLive h) registry, by simp [Copier.load, Copier.new]⟩

/-- One value is copied. -/
theorem wp_copy_new {target : Heap} (hs : source.Sound) (ht : target.Sound) (hm : target.Mirrored) (registry : Registry)
    {v : Value} (hv : source.Valid v) :
    (copy source v).wp (Copier.new source target registry)
      (fun w c => target.Gains Heap.Nowhere c.target ∧ c.target.Valid w) (fun _ _ => False) := by
  have hopen : Open source target [v] (Copier.new source target registry) := .new ht hm registry
  have hdue : Due source [v] v := fun r hr => ⟨hv r hr, .given (by simp [hr])⟩
  exact Act.wp_mono (hopen.wp_copy hs hdue) (fun w c h => ⟨h.1.copying.gains, h.2.2.valid h.1.copying⟩) fun _ _ h => h

end Copier

namespace Machine

theorem wp_pack {source target : Heap} (hs : source.Sound) (ht : target.Sound) (hm : target.Mirrored)
    (registry : Registry) {receiver argument : Value} (hr : source.Valid receiver) (ha : source.Valid argument)
    {object : Handle} (ho : source.isLive object) :
    (pack source receiver argument object).wp (Copier.new source target registry)
      (fun b c => target.Gains Heap.Nowhere c.target ∧ c.target.Valid b.receiver ∧ c.target.Valid b.argument ∧
        ∀ e ∈ b.globals, c.target.Valid e.2)
      (fun _ _ => False) := by
  obtain ⟨o, hobj⟩ := Heap.isLive_iff.1 ho
  have hdue : ∀ v ∈ receiver :: argument :: o.members.values, source.Valid v →
      Copier.Due source (receiver :: argument :: o.members.values) v := by
    rintro v hv hval r rfl
    exact ⟨hval r rfl, .given hv⟩
  have hopen : Copier.Open source target (receiver :: argument :: o.members.values) (Copier.new source target registry) :=
    .new ht hm registry
  have hfetch : source.fetch object = .ok o := by simp [Heap.fetch, hobj]
  simp only [pack, Act.wp_bind, Act.wp_pure, Act.wp_mk, hfetch]
  refine Act.wp_mono (hopen.wp_copy hs (hdue _ (by simp) hr)) (fun w₁ c₁ hdone => ?_) (fun _ _ => id)
  obtain ⟨h₁, g₁, b₁⟩ := hdone
  refine Act.wp_mono (h₁.wp_copy hs (hdue _ (by simp) ha)) (fun w₂ c₂ hdone => ?_) (fun _ _ => id)
  obtain ⟨h₂, g₂, b₂⟩ := hdone
  refine Act.wp_mono (h₂.wp_copyEntries hs fun e he => ?_) (fun ws c₃ hdone => ?_) (fun _ _ => id)
  · have hmem : e.2 ∈ o.members.values := List.mem_map_of_mem he
    exact hdue _ (by simp [hmem]) (Heap.valid_of_mem_values hs.edges hobj (List.mem_append_left _ hmem))
  · obtain ⟨h₃, g₃, b₃⟩ := hdone
    refine ⟨h₃.copying.gains, ?_, ?_, fun e he => (b₃ e he).valid h₃.copying⟩
    · exact ((b₁.grows g₂ h₂.copying).grows g₃ h₃.copying).valid h₃.copying
    · exact (b₂.grows g₃ h₃.copying).valid h₃.copying

theorem safe_unpackModule {h : Heap} (hs : h.Sound) (hm : h.Mirrored) (module : ModuleId)
    {globals : List (String × Value)} (hg : ∀ e ∈ globals, h.Valid e.2) :
    Heap.Safe Heap.Nowhere (unpackModule module globals) h fun _ _ => True := by
  unfold unpackModule
  refine (Heap.safe_reflect hs hm (.ofModule module)).bind fun r h₁ g₁ hr => ?_
  unfold Heap.Safe
  rw [Act.wp_bind]
  refine Act.wp_forIn_step (I := fun (rest : List (String × Value)) h₂ => h₁.Gains Heap.Nowhere h₂ ∧ ∀ e ∈ rest, h.Valid e.2)
    ⟨.refl g₁.sound, hg⟩ (fun e rest h₂ hi => ?_) fun h₂ hi => ⟨hi.1, trivial⟩
  obtain ⟨g₂, hrest⟩ := hi
  have hval : h₂.Valid e.2 := g₂.valid (g₁.valid (hrest e List.mem_cons_self))
  dsimp only
  rw [Act.wp_bind]
  refine Act.wp_mono (Heap.safe_setMember g₂.sound (g₂.isLive r hr) e.1 hval) (fun _ h₃ hdone => ?_)
    fun _ h₃ hfault => ⟨g₂.trans hfault.1, hfault.2⟩
  exact ⟨rfl, g₂.trans hdone.1, fun x hx => hrest x (List.mem_cons_of_mem _ hx)⟩

/-- The heap of the new process loses nothing, and what its first task needs is there. -/
theorem safe_furnish {source target : Heap} (hs : source.Sound) (ht : target.Sound) (hm : target.Mirrored)
    (registry : Registry) (module : ModuleId) {receiver argument : Value} (hr : source.Valid receiver)
    (ha : source.Valid argument) {object : Handle} (ho : source.isLive object) :
    Heap.Safe Heap.Nowhere (furnish source registry module receiver argument object) target
      fun b h => h.Valid b.receiver ∧ h.Valid b.argument := by
  have hp := wp_pack hs ht hm registry hr ha ho
  unfold Act.wp at hp
  unfold Heap.Safe Act.wp furnish
  rcases hpack : pack source receiver argument object (Copier.new source target registry) with ⟨_ | b, c⟩
  · rw [hpack] at hp
    exact hp.elim
  · rw [hpack] at hp
    obtain ⟨g₁, h₁, h₂, h₃⟩ := hp
    have hu := safe_unpackModule g₁.sound (hm.gains g₁) module h₃
    unfold Heap.Safe Act.wp at hu
    simp only [hpack]
    rcases hdone : unpackModule module b.globals c.target with ⟨_ | _, h'⟩
    · rw [hdone] at hu
      exact ⟨g₁.trans hu.1, hu.2⟩
    · rw [hdone] at hu
      exact ⟨g₁.trans hu.1, hu.1.valid h₁, hu.1.valid h₂⟩

end Machine

/-! ## The first task -/

namespace Process

variable {p : Process} {cur : Option TaskId} {l : Ledger}

theorem Intact.mono_links {links : RemoteLink → Prop} (hp : p.Intact cur l) (hl : ∀ link, l.links link → links link) :
    p.Intact cur { l with links } :=
  ⟨hp.fit, hp.anchored, hp.schedule, fun t task link ht hlink => hl link (hp.linked t task link ht hlink)⟩

end Process

namespace Machine

variable {g : Outlook} {cur : Option TaskId} {m m' : Machine} {t : TaskId}

theorem intact_launch {child : Process} {link : RemoteLink}
    (hc : child.Intact none { carriers := fun _ => False, links := fun x => x = link }) (registry : Registry)
    (function : FunctionId) (start : Nat) {baggage : Baggage} (hr : child.heap.Valid baggage.receiver)
    (ha : child.heap.Valid baggage.argument) (hm : ∀ m t, child.modules.get? m ≠ some (.initializing t)) :
    (launch child registry function start baggage link).Intact none
      { carriers := fun _ => False, links := fun x => x = link } := by
  let module := (registry.functionAt function).module
  have h₀ : ({ child with modules := child.modules.insert module .ready } : Process).Intact none
      { carriers := fun _ => False, links := fun x => x = link } := by
    have hs := hc.schedule
    refine ⟨hc.fit.congr rfl rfl rfl rfl rfl, hc.anchored.continues hs (.of_tasks rfl) rfl rfl rfl rfl, ?_, hc.linked⟩
    refine ⟨hs.nodup, hs.ready, hs.running, hs.settled, fun m t h => ?_, hs.owing, fun t h => h.elim⟩
    simp only [Bindings.get?_insert] at h
    split at h
    · cases h
    · exact absurd h (hm m t)
  have h₁ := h₀.startCall registry (b := { function, receiver := baggage.receiver }) start none hr (fun c h => by cases h) ha
  have hready := h₁.schedule.ready ⟨child.tasks.size⟩ (by simp)
  have h₂ := h₁.link hready (fun h => h) (rfl : link = link)
  have hready₂ := h₂.schedule.ready ⟨child.tasks.size⟩ (by simp)
  exact (h₂.setEntry hready₂).enqueue

theorem launch_frame (child : Process) (registry : Registry) (function : FunctionId) (start : Nat) (baggage : Baggage)
    (link : RemoteLink) : (launch child registry function start baggage link).id = child.id ∧
      (launch child registry function start baggage link).completions = child.completions ∧
      (launch child registry function start baggage link).heap = child.heap ∧
      (launch child registry function start baggage link).inFlight = child.inFlight ∧
      (launch child registry function start baggage link).phase = child.phase := by
  let made : Process := { child with modules := child.modules.insert (registry.functionAt function).module .ready }
  let started := (made.startCall registry { function, receiver := baggage.receiver } start baggage.argument none).2
  change started.id = made.id ∧ started.completions = made.completions ∧ started.heap = made.heap ∧
    started.inFlight = made.inFlight ∧ started.phase = made.phase
  obtain ⟨tasks, contexts, free, heq⟩ := Process.startTask_frame made none baggage.argument _
  unfold started Process.startCall
  rw [heq]
  exact ⟨rfl, rfl, rfl, rfl, rfl⟩

theorem keeps_entryPoint (hm : m.Going g cur) {callee : Value} (hv : m.process.heap.Valid callee) :
    Keeps g cur (entryPoint callee) m fun b m' => m' = m ∧ m.process.heap.Valid b.receiver := by
  unfold entryPoint
  refine (keeps_expectObject hm hv _).bind fun r m₁ hm₁ _ hr => ?_
  obtain ⟨rfl, _, hl⟩ := hr
  refine (keeps_fetch hm₁ hl).bind fun o m₂ hm₂ _ ho => ?_
  obtain ⟨rfl, ho⟩ := ho
  split
  · exact keeps_pure hm₂ ⟨rfl, valid_none⟩
  · rename_i b hp
    refine keeps_pure hm₂ ⟨rfl, hm₂.valid_of_object ho ?_⟩
    simp [Object.values, hp, Payload.values]
  · exact keeps_get (keeps_throw hm₂ (by simp))

/-- The machine after a process has been made. -/
def adopt (m : Machine) (child : Process) : Machine :=
  { m with
    host := { m.host with born := m.host.born + 1, nursery := m.host.nursery ++ [child] }
    process := (m.process.newCarrier m.task).2 }

theorem Going.adopt (hm : m.Going g cur) {child : Process} (hid : child.id = ⟨m.host.born + 1⟩)
    (hcomp : child.completions = []) (hf : child.heap.Knows fun _ => False) (hidle : child.inFlight = 0)
    (hactive : child.phase = .active) (hc : child.Intact none
      { carriers := fun _ => False, links := fun x => x = ⟨g.id, ⟨m.process.tasks.size⟩⟩ }) :
    (m.adopt child).Going g cur := by
  have hs := hm.inv.serves
  refine ⟨⟨?_, hm.inv.id, ⟨hs.calm, hs.others, ?_, fun i c hi => ?_, fun c hmem => ?_, hs.staffed⟩⟩, fun t ht => ?_⟩
  · refine (hm.inv.intact.newCarrier m.task).mono fun t ht => ?_
    rcases ht with ht | ht | ht | ⟨c, hmem, task, htask, hlink⟩
    · exact .inl (.inl ht)
    · exact .inl (.inr (.inl ht))
    · exact .inl (.inr (.inr (.inl ht)))
    · rcases List.mem_append.1 hmem with hmem | hmem
      · exact .inl (.inr (.inr (.inr ⟨c, hmem, task, htask, hlink⟩)))
      · rw [List.mem_singleton.1 hmem] at htask
        obtain ⟨i, hi⟩ := Array.mem_iff_getElem?.1 htask
        have := hc.linked ⟨i⟩ task _ hi hlink
        cases this
        exact .inr rfl
  · have := hs.born
    simp only [Machine.adopt, List.length_append, List.length_singleton]
    omega
  · simp only [Machine.adopt, List.getElem?_append] at hi
    split at hi
    · exact hs.numbers i c hi
    · have hlt := (List.getElem?_eq_some_iff.1 hi).1
      simp only [List.length_singleton] at hlt
      have hi0 : i = m.host.nursery.length := by omega
      subst hi0
      simp only [Nat.sub_self, List.getElem?_cons_zero, Option.some.injEq] at hi
      rw [← hi, hid, hs.born]
  · rcases List.mem_append.1 hmem with hmem | hmem
    · exact hs.newborn c hmem
    · rw [List.mem_singleton.1 hmem]
      exact ⟨hc.mono_links fun link hl => by rw [hl], hcomp, hf, hidle, hactive⟩
  · obtain ⟨h, hr⟩ := hm.running t ht
    exact ⟨h, hr.newCarrier m.task⟩

theorem keeps_spawn (hm : m.Going g cur) {callee argument : Value} (hv : m.process.heap.Valid callee)
    (ha : m.process.heap.Valid argument) :
    Keeps g cur (spawn callee argument) m fun x m' => m'.process.heap.Valid x.2 := by
  unfold spawn
  refine (keeps_entryPoint hm hv).bind fun b m₁ hm₁ _ hb => keeps_get ?_
  obtain ⟨rfl, hrec⟩ := hb
  dsimp only
  split
  · rename_i start _
    refine (keeps_reflect hm₁ _).bind fun object m₂ hm₂ hg₂ hobj => ?_
    unfold Keeps
    simp only [Act.wp_bind, Act.wp_modifyGet, Act.wp_lift, Act.wp_get]
    have hseed := (Process.extends_seeded ⟨m₂.host.born + 1⟩ m₂.host.heapSettings).1
    have hfurnish := safe_furnish hm₂.sound hseed.sound (Process.mirrored_seeded _ _) m₁.host.registry
      (m₁.host.registry.functionAt b.function).module (hg₂.valid _ hrec) (hg₂.valid _ ha) hobj
    have hgrow : ∀ child, m₂.Grows (m₂.adopt child) := fun child => ⟨rfl, fun _ h => h⟩
    have hsource : ({ m₂ with host := m₂.host.newProcess.2 } : Machine).newCarrier.2.process.heap = m₂.process.heap := rfl
    have htarget : m₂.host.newProcess.1.heap = (Process.seeded ⟨m₂.host.born + 1⟩ m₂.host.heapSettings).heap := rfl
    rw [hsource, htarget]
    unfold Heap.Safe Act.wp at hfurnish
    rcases hx : furnish m₂.process.heap m₁.host.registry (m₁.host.registry.functionAt b.function).module b.receiver
      argument object (Process.seeded ⟨m₂.host.born + 1⟩ m₂.host.heapSettings).heap with ⟨e | baggage, heap⟩
    · rw [hx] at hfurnish
      have hchild := Process.intact_seeded (p := m₂.host.newProcess.1) rfl hfurnish.1
        fun x => x = ⟨g.id, ⟨m₂.process.tasks.size⟩⟩
      have hknows := Process.knows_seeded _ _ hfurnish.1 (T := fun _ => False)
      simp only [Act.wp_bind, Act.wp_lift]
      exact (keeps_throw (hm₂.adopt rfl rfl hknows rfl rfl hchild) hfurnish.2).after (hgrow _)
    · rw [hx] at hfurnish
      have hchild := Process.intact_seeded (p := m₂.host.newProcess.1) rfl hfurnish.1
        fun x => x = ⟨g.id, ⟨m₂.process.tasks.size⟩⟩
      have hlaunch := intact_launch hchild m₁.host.registry b.function start hfurnish.2.1 hfurnish.2.2
        (Process.modules_seeded ⟨m₂.host.born + 1⟩ m₂.host.heapSettings)
      obtain ⟨hid, hcomp, hheap, hidle, hactive⟩ := launch_frame { m₂.host.newProcess.1 with heap } m₁.host.registry b.function start baggage
        ⟨g.id, ⟨m₂.process.tasks.size⟩⟩
      have hknows := Process.knows_seeded _ _ hfurnish.1 (T := fun _ => False)
      have hgo := hm₂.adopt hid hcomp (hheap ▸ hknows) hidle hactive hlaunch
      rw [← hm₂.inv.id] at hgo
      have hbehind : (m₂.adopt (launch { m₂.host.newProcess.1 with heap } m₁.host.registry b.function start baggage
          ⟨m₂.process.id, ⟨m₂.process.tasks.size⟩⟩)).process.Behind (.task ⟨m₂.process.tasks.size⟩) := by
        intro task ht
        have := Process.getElem?_newCarrier m₂.process m₂.task
        cases this.symm.trans ht
        exact valid_none
      simp only [Act.wp_bind, Act.wp_lift]
      have hfuture := (keeps_newFuture hgo hbehind).after (hgrow _)
      exact Act.wp_mono hfuture (fun v m₃ h => h) fun _ _ h => h
  · exact keeps_throw hm₁ (by simp)

end Machine

end Spool
