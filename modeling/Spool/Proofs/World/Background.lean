import Spool.World.Background
import Spool.Proofs.Machine.Spawn

/-!
# Background calls

A background call works on objects that are rooted for it, and roots what it yields, so the process may collect
garbage at any time before the call is settled.
-/

namespace Spool

namespace Errand

variable {h : Heap} {held : List Handle} {e e' : Errand} {α β : Type}

/-- Where a call that has begun with a heap and some roots has got to. -/
structure Since (h : Heap) (held : List Handle) (e : Errand) : Prop where
  extend : h.Extends Heap.Nowhere e.heap
  /-- The roots that have come are those of new reflections and those that the call holds. -/
  rooted : ∀ r, e.heap.reflections.values.count r + h.rootCount r + e.held.count r
    = h.reflections.values.count r + held.count r + e.heap.rootCount r
  keeps : held <+: e.held

theorem Since.refl (hs : h.Sound) : Since h held { heap := h, held } :=
  ⟨.refl hs, fun _ => Nat.add_right_comm .., List.prefix_rfl⟩

theorem Since.mirrored (he : Since h held e) (hm : h.Mirrored) : e.heap.Mirrored := by
  intro r
  have := he.rooted r
  have := he.keeps.sublist.count_le r
  have := hm r
  omega

/-- A part of a call. It meets a dead handle only if `D` allows it. -/
def Goes (h : Heap) (held : List Handle) (D : Prop) (act : Act Errand α) (e : Errand) (P : α → Errand → Prop) : Prop :=
  act.wp e (fun a e' => Since h held e' ∧ e.heap.Extends Heap.Nowhere e'.heap ∧ P a e')
    (fun fault e' => Since h held e' ∧ (fault = .stale → D))

variable {D : Prop}

theorem Goes.bind {act : Act Errand α} {k : α → Act Errand β} {P : α → Errand → Prop} {Q : β → Errand → Prop}
    (ha : Goes h held D act e P)
    (hk : ∀ a e', Since h held e' → e.heap.Extends Heap.Nowhere e'.heap → P a e' → Goes h held D (k a) e' Q) :
    Goes h held D (act >>= k) e Q := by
  unfold Goes
  rw [Act.wp_bind]
  refine Act.wp_mono ha (fun a e₁ hdone => ?_) fun _ _ h => h
  obtain ⟨hs, hg, hp⟩ := hdone
  exact Act.wp_mono (hk a e₁ hs hg hp) (fun _ _ h => ⟨h.1, hg.trans h.2.1, h.2.2⟩) fun _ _ h => h

theorem goes_pure (he : Since h held e) {a : α} {P : α → Errand → Prop} (hp : P a e) :
    Goes h held D (pure a : Act Errand α) e P :=
  ⟨he, .refl he.extend.sound, hp⟩

theorem goes_throw (he : Since h held e) {fault : Fault} (hf : fault = .stale → D) {P : α → Errand → Prop} :
    Goes h held D (throw fault : Act Errand α) e P :=
  ⟨he, hf⟩

theorem goes_mk (he : Since h held e) {x : Except Fault α} {P : α → Errand → Prop} (hp : ∀ a, x = .ok a → P a e)
    (hx : x ≠ .error .stale) : Goes h held D (ExceptT.mk (pure x) : Act Errand α) e P := by
  cases x with
  | ok a => exact goes_pure he (hp a rfl)
  | error fault => exact goes_throw he fun h => absurd (by rw [h]) hx

theorem goes_look (he : Since h held e) {f : Errand → Except Fault α} {P : α → Errand → Prop}
    (hp : ∀ a, f e = .ok a → P a e) (hx : f e ≠ .error .stale) :
    Goes h held D (ExceptT.mk do return f (← get) : Act Errand α) e P := by
  unfold Goes
  rw [Act.wp_mk_get]
  cases hf : f e with
  | ok a => exact ⟨he, .refl he.extend.sound, hp a hf⟩
  | error fault => exact ⟨he, fun h => absurd (by rw [hf, h]) hx⟩

theorem goes_fetch (he : Since h held e) {r : Handle} (hr : e.heap.isLive r) :
    Goes h held D (fetch r) e fun o e' => e' = e ∧ e.heap.object? r = some o := by
  obtain ⟨o, ho⟩ := Heap.isLive_iff.1 hr
  have hf : e.heap.fetch r = .ok o := by simp [Heap.fetch, ho]
  refine goes_look he (fun a ha => ?_) (by simp [hf])
  rw [hf] at ha
  cases ha
  exact ⟨rfl, ho⟩

/-- An action on the heap that loses nothing. -/
theorem goes_onHeap (he : Since h held e) {act : Act Heap α} {P : α → Heap → Prop}
    (ha : Heap.Safe Heap.Nowhere act e.heap P) : Goes h held D (onHeap act) e fun a e' => P a e'.heap := by
  have hsince : ∀ heap, e.heap.Gains Heap.Nowhere heap → Since h held { e with heap } := by
    refine fun heap hg => ⟨he.extend.trans hg.toExtends, fun r => ?_, he.keeps⟩
    have h₁ := he.rooted r
    have h₂ := hg.roots r
    dsimp only
    omega
  have hrun : onHeap act e = ((act e.heap).1, { e with heap := (act e.heap).2 }) := rfl
  unfold Heap.Safe Act.wp at ha
  unfold Goes Act.wp
  rw [hrun]
  rcases hx : act e.heap with ⟨fault | a, heap⟩
  · rw [hx] at ha
    exact ⟨hsince heap ha.1, fun h => absurd h ha.2⟩
  · rw [hx] at ha
    exact ⟨hsince heap ha.1, ha.1.toExtends, ha.2⟩

/-- What is held is live until the call has been settled. -/
theorem goes_hold (he : Since h held e) {v : Value} (hv : e.heap.Valid v) :
    Goes h held D (hold v) e fun w e' => ∀ r, w = .object r → r ∈ e'.held := by
  cases v with
  | object r =>
      have hroot := Heap.wp_root he.extend.sound r
      have hrun : onHeap (Heap.root r) e = ((Heap.root r e.heap).1, { e with heap := (Heap.root r e.heap).2 }) := rfl
      unfold Goes
      simp only [hold, Act.wp_bind, Act.wp_modify, Act.wp_pure]
      unfold Act.wp at hroot ⊢
      rw [hrun]
      rcases hx : Heap.root r e.heap with ⟨_ | _, heap⟩
      · rw [hx] at hroot
        exact absurd (hv r rfl) hroot.2.2
      · rw [hx] at hroot
        obtain ⟨_, hc⟩ := hroot
        refine ⟨⟨he.extend.trans hc.extend, fun x => ?_, he.keeps.trans (List.prefix_append _ _)⟩, hc.extend, fun x hx => ?_⟩
        · have h₁ := he.rooted x
          dsimp only
          rw [hc.reflections, hc.rootCount, List.count_append, List.count_singleton]
          by_cases hxr : x = r
          · simp [hxr] at h₁ ⊢
            omega
          · simp [hxr, Ne.symm hxr] at h₁ ⊢
            omega
        · cases hx
          simp
  | none => exact goes_pure he fun r hr => by cases hr
  | scalar s => exact goes_pure he fun r hr => by cases hr

theorem goes_newText (he : Since h held e) (s : String) :
    Goes h held D (newText s) e fun w e' => ∀ r, w = .object r → r ∈ e'.held := by
  unfold newText
  refine (goes_onHeap he (Heap.safe_create he.extend.sound .string rfl rfl)).bind fun r e₁ he₁ _ hr => ?_
  exact goes_hold he₁ (Machine.valid_object hr)

theorem goes_textArgument (he : Since h held e) {v : Value} (hv : e.heap.Valid v) :
    Goes h held D (textArgument v) e fun _ e' => e' = e := by
  unfold textArgument
  split
  · refine (goes_fetch he (hv _ rfl)).bind fun o e₁ he₁ _ ho => ?_
    obtain ⟨rfl, _⟩ := ho
    split
    · exact goes_pure he₁ rfl
    · exact goes_throw he₁ (by simp)
  · exact goes_throw he (by simp)

/-! ## Remote objects -/

theorem remoteMember_ok {source : Heap} (hs : source.Sound) {r : Handle} {name : String} {v : Value}
    (hv : remoteMember source r name = .ok v) : source.Valid v := by
  unfold remoteMember at hv
  split at hv
  · cases hv
  · rename_i o ho
    split at hv
    · rename_i w hw
      cases hv
      exact Heap.valid_of_mem_values hs.edges ho (List.mem_append_left _ (Bindings.mem_values_of_get? hw))
    · cases hv

theorem remoteMember_ne_stale (source : Heap) (r : Handle) (name : String) :
    remoteMember source r name ≠ .error .stale := by
  unfold remoteMember
  split
  · simp
  · split <;> simp

/-- A receiver that is no object is taken for a dead one. -/
theorem goes_remoteTarget (he : Since h held e) {receiver : Value} (hr : e.heap.Valid receiver) :
    Goes h held (receiver.handle? = none) (remoteTarget receiver) e fun _ e' => e' = e := by
  unfold remoteTarget
  split
  · refine (goes_fetch he (hr _ rfl)).bind fun o e₁ he₁ _ ho => ?_
    obtain ⟨rfl, _⟩ := ho
    split
    · exact goes_pure he₁ rfl
    · exact goes_throw he₁ (by simp)
  · rename_i hno
    refine goes_throw he fun _ => ?_
    cases receiver with
    | object r => exact absurd rfl (hno r)
    | _ => rfl

theorem goes_carry (he : Since h held e) (hm : h.Mirrored) (registry : Registry) {source : Heap} (hs : source.Sound)
    {v : Value} (hv : source.Valid v) :
    Goes h held D (carry registry source v) e fun w e' => e'.heap.Valid w := by
  have hcopy := Copier.wp_copy_new hs he.extend.sound (he.mirrored hm) registry hv
  have hsafe : Heap.Safe Heap.Nowhere (fun heap => ((Copier.copy source v (Copier.new source heap registry)).1,
      (Copier.copy source v (Copier.new source heap registry)).2.target)) e.heap fun w h' => h'.Valid w := by
    unfold Act.wp at hcopy
    unfold Heap.Safe Act.wp
    dsimp only
    rcases hx : Copier.copy source v (Copier.new source e.heap registry) with ⟨_ | w, c⟩
    · rw [hx] at hcopy
      exact hcopy.elim
    · rw [hx] at hcopy
      exact hcopy
  exact goes_onHeap he hsafe

theorem goes_remoteGet (he : Since h held e) (hm : h.Mirrored) {w : World}
    (hw : ∀ id p, w.processes.get? id = some p → p.heap.Sound) (own : ProcessId) {receiver argument : Value}
    (hr : e.heap.Valid receiver) (ha : e.heap.Valid argument) :
    Goes h held (receiver.handle? = none) (remoteGet w own receiver argument) e
      fun v e' => ∀ r, v = .object r → r ∈ e'.held := by
  unfold remoteGet
  refine (goes_textArgument he ha).bind fun name e₁ he₁ _ hsame => ?_
  subst hsame
  refine (goes_remoteTarget he₁ hr).bind fun target e₂ he₂ _ hsame => ?_
  subst hsame
  split
  · refine (goes_look he₂ (P := fun v e' => e'.heap.Valid v) (fun v hv => remoteMember_ok he₂.extend.sound hv)
      (remoteMember_ne_stale _ _ _)).bind fun v e₃ he₃ _ hv => goes_hold he₃ hv
  · split
    · exact goes_throw he₂ (by simp)
    · rename_i other hother
      refine (goes_mk he₂ (P := fun v _ => other.heap.Valid v) (fun v hv => remoteMember_ok (hw _ other hother) hv)
        (remoteMember_ne_stale _ _ _)).bind fun v e₃ he₃ _ hv => ?_
      exact (goes_carry he₃ hm _ (hw _ other hother) hv).bind fun v e₄ he₄ _ hv => goes_hold he₄ hv

/-! ## All together -/

theorem sleepTime_ne_stale (v : Value) : sleepTime v ≠ .error .stale := by
  unfold sleepTime
  split
  · split
    · split <;> simp
    · simp
  · simp

/-- A background call roots what it yields. It meets a dead handle only where a remote object is asked of no object. -/
theorem goes_run (hs : h.Sound) (hm : h.Mirrored) {w : World}
    (hw : ∀ id p, w.processes.get? id = some p → p.heap.Sound) {call : BackgroundCall}
    (hheld : ∀ r ∈ call.held, h.isLive r)
    (hargs : ∀ r, call.receiver = .object r ∨ call.argument = .object r → r ∈ call.held) :
    Goes h call.held (call.body = .remoteGet ∧ call.receiver.handle? = none) (run w call) { heap := h, held := call.held }
      fun v e' => ∀ r, v = .object r → r ∈ e'.held := by
  have he : Since h call.held { heap := h, held := call.held } := .refl hs
  have hr : h.Valid call.receiver := fun r hr => hheld r (hargs r (.inl hr))
  have ha : h.Valid call.argument := fun r hr => hheld r (hargs r (.inr hr))
  unfold run
  split
  · refine goes_mk he (fun v hv r hvr => ?_) ?_
    · subst hvr
      cases hx : sleepTime call.argument with
      | ok ms =>
          rw [hx] at hv
          cases hv
      | error fault =>
          rw [hx] at hv
          cases hv
    · intro hx
      cases hy : sleepTime call.argument with
      | ok ms =>
          rw [hy] at hx
          cases hx
      | error fault =>
          rw [hy] at hx
          cases hx
          exact sleepTime_ne_stale _ hy
  · rename_i hbody
    refine Act.wp_mono (goes_remoteGet he hm hw call.process hr ha) (fun _ _ h => h) fun fault e' hdone => ?_
    obtain ⟨hs', hf⟩ := hdone
    exact ⟨hs', fun h => ⟨hbody, hf h⟩⟩
  · refine (goes_textArgument he ha).bind fun s e₁ he₁ _ _ => goes_newText he₁ _
  · exact goes_pure he fun r hr => hargs r (.inr hr)
  · exact goes_throw he (by simp)
  · exact goes_throw he (by simp)

end Errand

/-- The roots of a call go over to its completion. -/
theorem Process.Anchored.complete {p : Process} {calls calls' : List BackgroundCall} {call : BackgroundCall}
    {extra : List Handle} (ha : p.Anchored calls extra) (hc : (call :: calls').Perm calls) {e : Errand}
    (he : Errand.Since p.heap call.held e) (t : TaskId) {result : Except Fault Value}
    (hresult : ∀ r, result = .ok (.object r) → r ∈ e.held) :
    ({ p with
      heap := e.heap
      completions := p.completions ++ [{ task := t, result, held := e.held }] } : Process).Anchored calls' extra where
  rooted r := by
    have h₁ := (ha.perm hc).rooted r
    have h₂ := he.rooted r
    have hcomp : (List.flatMap Completion.held (p.completions ++ [{ task := t, result, held := e.held }])).count r
        = (p.completions.flatMap Completion.held).count r + e.held.count r := by
      simp [List.flatMap_append]
    have hout : (p.outgoing.filterMap fun out => (({ p with
        heap := e.heap
        completions := p.completions ++ [{ task := t, result, held := e.held }] } : Process).taskAt out.task).register.handle?)
        = p.outgoing.filterMap fun out => (p.taskAt out.task).register.handle? := rfl
    rw [count_anchors] at h₁ ⊢
    simp only [List.flatMap_cons, List.count_append] at h₁
    rw [hout, hcomp]
    dsimp only
    omega
  keys := he.extend.keys ha.keys
  results c hm r hr := by
    rcases List.mem_append.1 hm with hm | hm
    · exact ha.results c hm r hr
    · cases List.mem_singleton.1 hm
      exact hresult r hr
  arguments c hm := (ha.perm hc).arguments c (List.mem_cons_of_mem call hm)

end Spool
