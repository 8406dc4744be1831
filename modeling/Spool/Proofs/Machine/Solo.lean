import Spool.Proofs.Machine.Rounds
import Spool.Proofs.Process.Plain

/-!
# Machines by themselves

A process that has handed nothing to the background pool and started no other process gets nothing from elsewhere. Its
rounds are turns of its roster.
-/

namespace Spool

namespace Roster

/-- No task waits for a future, or for work done elsewhere. -/
def Prompt (r : Roster) : Prop := ∀ t s, r.at? t = some s → s.state = .waiting → s.reason ≠ .onFuture

theorem not_prompt_await {r : Roster} {t : TaskId} (ht : t.index < r.tasks.size) (y : TaskId) (delivery : Delivery) :
    ¬ (r.await t y delivery .onFuture).Prompt := by
  intro h
  have hrow : t.index < (r.update y (·.addDependent t delivery)).tasks.size := by simpa using ht
  have hat := at?_update (r.update y (·.addDependent t delivery)) t (·.park .onFuture) t
  rw [if_pos rfl, at?_of_index_lt hrow] at hat
  exact h t _ hat rfl rfl

theorem calls_mono {r r' : Roster} {t : TaskId} {a b : Prop} (hab : a → b)
    (h : Relation.ReflTransGen (Calls a t) r r') : Relation.ReflTransGen (Calls b t) r r' :=
  Relation.ReflTransGen.mono (fun _ _ hc => ⟨hab hc.1, hc.2⟩) r r' h

theorem Turn.mono {r r' : Roster} {t : TaskId} {a b : Prop} (h : Turn a t r r') (hab : a → b) : Turn b t r r' := by
  cases h with
  | rests hc hrest => exact .rests (calls_mono hab hc) hrest
  | ends hc hreach => exact .ends (calls_mono hab hc) hreach

end Roster

namespace Machine

namespace View

variable {v v' : View} {known : TaskId → Prop} {async : Prop} {new : List TaskId}

/-- Nothing is pledged to the process. -/
def Alone (v : View) : Prop := due v.id v.pledges = []

theorem Alone.of_perm (h : v'.Alone) (hid : v'.id = v.id) (hp : v'.pledges.Perm v.pledges) : v.Alone := by
  have := due_perm v.id hp.symm
  rw [← hid, h] at this
  rw [Alone, ← hid]
  exact this.eq_nil

theorem not_alone_of_perm {t : TaskId} (hid : v'.id = v.id) (hp : v'.pledges.Perm (⟨v.id, t⟩ :: v.pledges)) :
    ¬ v'.Alone := by
  intro h
  have := due_perm v.id hp
  rw [due_cons_self, ← hid, h] at this
  exact absurd this.symm.eq_nil (by simp)

/-- A task that goes on does nothing that others notice, or calls a function and does not wait for it. -/
theorem Stirs.plain (h : v.Stirs async new v') (hs : v.pool.Staffed) (ha : v'.Alone) :
    v.Alone ∧ v'.task = v.task ∧ (v'.roster = v.roster ∧ new = [] ∨ v.roster.Calls async v.task v'.roster) := by
  cases h with
  | still => exact ⟨ha, rfl, .inl ⟨rfl, rfl⟩⟩
  | call hasync => exact ⟨ha.of_perm rfl (perm_pledges (perm_start rfl v.id)), rfl, .inr ⟨hasync, rfl⟩⟩
  | background call hp hc => exact absurd ha (not_alone_of_perm (v := v) rfl (perm_background hs hp hc))
  | spawn child hc => exact absurd ha (not_alone_of_perm (v := v) rfl (perm_spawn hc))

theorem Alone.of_await (hun : v.Unfinished) {y : TaskId} {delivery : Delivery} {reason : WaitReason}
    (h : View.Alone { v with roster := v.roster.await v.task y delivery reason }) : v.Alone :=
  h.of_perm rfl (perm_pledges (perm_await hun y delivery reason v.id))

theorem Alone.of_start {s : Standing} (hs : s.remote = none) (h : View.Alone { v with roster := v.roster.start s }) :
    v.Alone :=
  h.of_perm rfl (perm_pledges (perm_start hs v.id))

theorem not_alone_background (hs : v.pool.Staffed) (hun : v.Unfinished) {call : BackgroundCall} (hp : call.process = v.id)
    (hc : call.carrier = v.roster.next) (delivery : Delivery) :
    ¬ View.Alone { v with
      roster := (v.roster.launch v.task).await v.task v.roster.next delivery .onFuture
      pool := v.pool.submit call } := by
  intro ha
  have hun' : View.Unfinished { v with roster := v.roster.launch v.task, pool := v.pool.submit call } :=
    unfinished_add (r := v.roster) (.inr rfl) hun
  have hnew := Alone.of_await (v := { v with roster := v.roster.launch v.task, pool := v.pool.submit call }) hun' ha
  have hperm := perm_background hs hp hc
  refine not_alone_of_perm (v := v) ?_ hperm hnew
  rfl

/-- A task that comes to wait has asked nothing of others. -/
theorem Parks.alone (h : v.Parks known v') (hs : v.pool.Staffed) (hun : v.Unfinished) (ha : v'.Alone) : v.Alone := by
  cases h with
  | call delivery =>
      have hun' : View.Unfinished { v with roster := v.roster.start { parent := some v.task } } :=
        unfinished_add (r := v.roster) (.inl rfl) hun
      exact .of_start rfl (.of_await hun' ha)
  | background call delivery hp hc => exact absurd ha (not_alone_background hs hun hp hc delivery)
  | wait y _ _ => exact .of_await hun ha
  | join m y _ _ => exact .of_await hun ha
  | load m hm =>
      have hun' : View.Unfinished { v with roster := v.roster.load m v.task } :=
        unfinished_add (r := v.roster) (.inl rfl) hun
      exact Alone.of_start (s := { parent := some v.task, initializes := some m }) rfl (Alone.of_await hun' ha)

/-- A task waits for a call or for the top level of a module, if it waits for no future. -/
theorem Parks.rests (h : v.Parks known v') (hs : v.pool.Staffed) (hun : v.Unfinished)
    (hlt : v.task.index < v.roster.tasks.size) (ha : v'.Alone) (hk : (∀ y, ¬ known y) ∨ v'.roster.Prompt) :
    v.roster.Rests v.task v'.roster := by
  cases h with
  | call delivery => exact .call delivery
  | background call delivery hp hc => exact absurd ha (not_alone_background hs hun hp hc delivery)
  | wait y hy _ =>
      rcases hk with hk | hk
      · exact absurd hy (hk y)
      · exact absurd hk (Roster.not_prompt_await hlt y .result)
  | join m y hm hy => exact .join m y hm hy
  | load m hm => exact .load m hm

end View

variable {m m₁ m₂ m' : Machine} {rest : List RemoteLink} {g : Outlook}

/-- There are no futures, and no functions that make them. -/
def Direct (m m' : Machine) : Prop := m.process.heap.Knows (fun _ => False) ∧ ¬ m'.host.registry.HasAsync

theorem Direct.mono (h : m.Direct m') (ha : m₁.host.registry.HasAsync → m'.host.registry.HasAsync) : m.Direct m₁ :=
  ⟨h.1, fun h₁ => h.2 (ha h₁)⟩

/-- What a task does while it goes on is a number of calls that it does not wait for. -/
theorem plain_stirs (h : Relation.ReflTransGen Stirs m m₁) (ht : m.Tidy rest (some m.task)) (ha : m₁.view.Alone) :
    m.view.Alone ∧ Relation.ReflTransGen (Roster.Calls m₁.host.registry.HasAsync m.task) m.view.roster m₁.view.roster ∧
      (m.Direct m₁ → m₁.Direct m₁) := by
  induction h with
  | refl => exact ⟨ha, .refl, fun h => h⟩
  | @tail b c hb hs ih =>
      obtain ⟨new, hview, hfut⟩ := hs.view
      have htidy := (tidy_stirs hb ht).1
      obtain ⟨hab, _, hcase⟩ := hview.plain htidy.view.staffed ha
      obtain ⟨ham, hcalls, hdirect⟩ := ih hab
      have hcalls' : Relation.ReflTransGen (Roster.Calls c.host.registry.HasAsync m.task) m.view.roster b.view.roster :=
        Roster.calls_mono hs.async hcalls
      rcases hcase with ⟨hsame, rfl⟩ | hcall
      · refine ⟨ham, hsame ▸ hcalls', fun hd => ⟨hfut _ (hdirect (hd.mono hs.async)).1 (by simp), hd.2⟩⟩
      · have htask : b.view.task = m.task := (frame_stirs hb).1
        rw [htask] at hcall
        exact ⟨ham, hcalls'.tail hcall, fun hd => absurd hcall.1 hd.2⟩

/-- The turn of a task is one of its roster. -/
theorem Turn.plain (h : m.Turn m') (ht : m.Tidy rest (some m.task)) (hun : ¬ m.current.state.isFinished)
    (ha : m'.view.Alone) (hk : m.Direct m' ∨ m'.view.roster.Prompt) :
    Roster.Turn m'.host.registry.HasAsync m.task m.view.roster m'.view.roster ∧ (m.Direct m' → m'.Direct m') := by
  cases h with
  | @parks m₁ m₂ hwake hs hp =>
      have h₁ := (tidy_wake hwake ht hun).1
      have h₂ := (tidy_stirs hs h₁).1
      have hwoken : m₁.task = m.task := congrArg View.task hwake.view
      have htask : m₂.task = m.task := (frame_stirs hs).1.trans hwoken
      have hun₂ := unfinished_view.2 (unfinished_stirs hs (hwake.unfinished hun))
      have ha₂ := hp.view.alone h₂.view.staffed hun₂ ha
      obtain ⟨_, hcalls, hdirect⟩ := plain_stirs hs h₁ ha₂
      have hdirect₂ : m.Direct m' → m₂.Direct m₂ := fun hd =>
        hdirect ⟨hwake.futures _ hd.1, fun h => hd.2 (hp.async h)⟩
      have hrests := hp.view.rests h₂.view.staffed hun₂ h₂.task_lt ha
        (hk.imp (fun hd y hy => hy _ (hdirect₂ hd).1) id)
      refine ⟨@Roster.Turn.rests _ _ _ m₂.view.roster _ ?_ ?_, fun hd => ⟨hp.futures _ (hdirect₂ hd).1, hd.2⟩⟩
      · rw [hwake.view, hwoken] at hcalls
        exact Roster.calls_mono hp.async hcalls
      · exact htask ▸ hrests
  | @ends m₁ m₂ state result hwake hs hreach hend =>
      have h₁ := (tidy_wake hwake ht hun).1
      have h₂ := (tidy_stirs hs h₁).1
      have hwoken : m₁.task = m.task := congrArg View.task hwake.view
      have htask : m₂.task = m.task := (frame_stirs hs).1.trans hwoken
      have hun₂ := unfinished_view.2 (unfinished_stirs hs (hwake.unfinished hun))
      have ha₂ : m₂.view.Alone := by
        rw [hend.view] at ha
        exact ha.of_perm rfl (View.perm_pledges (View.perm_conclude h₂.task_lt hun₂ hreach _))
      obtain ⟨_, hcalls, hdirect⟩ := plain_stirs hs h₁ ha₂
      have hdirect₂ : m.Direct m' → m₂.Direct m₂ := fun hd =>
        hdirect ⟨hwake.futures _ hd.1, fun h => hd.2 (hend.async h)⟩
      refine ⟨?_, fun hd => ⟨hend.futures _ (hdirect₂ hd).1, hd.2⟩⟩
      rw [hend.view]
      refine htask ▸ @Roster.Turn.ends _ _ _ m₂.view.roster _ _ ?_ hreach
      rw [hwake.view, hwoken] at hcalls
      rw [htask]
      exact Roster.calls_mono hend.async hcalls

/-! ## Rounds -/

/-- A process to which nothing has come back has nothing to settle. -/
theorem becomes_settleAll (hm : m.Inv g none []) (hc : m.view.roster.completions = []) :
    m.Becomes m.view (settleAll m).2 := by
  obtain ⟨v', hs, hb⟩ := settles_settleAll hm
  rw [hc] at hs
  have hv : ({ m.view with roster := { m.view.roster with completions := [] } } : View) = m.view := by
    rw [← hc]
  rw [hv] at hs
  cases hs
  exact hb

/-- A round of a process by itself: there is nothing to run, or the first task of the queue has its turn. -/
theorem plain_tick (hm : m.Inv g none []) (ht : m.Tidy rest none) (hc : m.view.roster.completions = [])
    {fuel : Nat} (h : tick fuel m = some m') (ha : m'.view.Alone) (hk : m.Direct m' ∨ m'.view.roster.Prompt) :
    (m.Direct m' → m'.Direct m') ∧
    (m.view.roster.queue = [] ∧ m'.view.roster = m.view.roster ∧ m'.process.phase = phaseAfter false m'.process ∨
      ∃ t queue, m.view.roster.queue = t :: queue ∧ m'.process.phase = .active ∧
        Roster.Turn m'.host.registry.HasAsync t { m.view.roster with queue } m'.view.roster) := by
  have hset := becomes_settleAll hm hc
  have h₁ := (tidy_settleAll hm ht).1
  have hroster : (settleAll m).2.process.roster = m.view.roster := congrArg View.roster hset.view
  cases rounds_tick hm h with
  | rests hq hs hphase =>
      have hqueue : m.view.roster.queue = [] := by
        rw [← hroster]
        exact (Fifo.pop?_eq_none_iff _).1 hq
      refine ⟨fun hd => ⟨hs.futures _ (hset.futures _ hd.1), hd.2⟩, .inl ⟨hqueue, ?_, ?_⟩⟩
      · rw [hs.view, hset.view]
      · have hnil : m.process.completions = [] := List.map_eq_nil_iff.1 hc
        rw [hnil] at hphase
        exact hphase
  | @turns t queue m₁ hq hturn hs hphase =>
      obtain ⟨h₂, _, hun⟩ := h₁.dequeue hq
      have hqueue : m.view.roster.queue = t :: queue.toList := by
        rw [← hroster]
        exact Fifo.toList_of_pop? hq
      have hd₁ : m.Direct m' → Machine.Direct
          { (settleAll m).2 with process := { (settleAll m).2.process with queue }, task := t } m₁ := fun hd =>
        ⟨hset.futures _ hd.1, fun h => hd.2 (hs.async h)⟩
      rw [hs.view] at ha hk ⊢
      obtain ⟨hplain, hdirect⟩ := hturn.plain h₂ (unfinished_view.1 hun) ha (hk.imp hd₁ id)
      refine ⟨fun hd => ⟨hs.futures _ (hdirect (hd₁ hd)).1, hd.2⟩, .inr ⟨t, queue.toList, hqueue, hphase, ?_⟩⟩
      rw [← hroster]
      exact hplain.mono hs.async

end Machine

end Spool
