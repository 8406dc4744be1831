import Mathlib.Data.List.Nodup
import Mathlib.Data.List.NodupEquivFin
import Spool.Proofs.Heap.Payloads
import Spool.Proofs.Process.Finish
import Spool.Proofs.Process.Start
import Spool.Proofs.Bindings

/-!
# The arena of contexts

A context has one place: on the stack of one task, among those to be used again, or loose while it goes from one to the
other. A context that an object refers to is pinned, and with it are those around it; what is around a context of a stack
is pinned or further down the stack. So a context that is used again is one that nothing leads to.
-/

namespace Spool

/-- The context that a payload refers to. -/
def Payload.context? : Payload → Option ContextId
  | .bound b => b.capture
  | .context c => some c
  | _ => Option.none

theorem Payload.context?_of_isLoose {p : Payload} (hp : p.isLoose) : p.context? = Option.none := by
  cases p <;> simp_all [isLoose, context?]

/-- An object refers to the context. -/
def Heap.Cites (h : Heap) (c : ContextId) : Prop := ∃ r o, h.object? r = some o ∧ o.payload.context? = some c

theorem Heap.each_cites (h : Heap) : h.Each fun p => ∀ c, p.context? = some c → h.Cites c :=
  fun r o ho _ hc => ⟨r, o, ho, hc⟩

theorem Heap.Each.cites {h : Heap} {C : ContextId → Prop} (hk : h.Each fun p => ∀ c, p.context? = some c → C c)
    {c : ContextId} (hc : h.Cites c) : C c := by
  obtain ⟨r, o, ho, hc⟩ := hc
  exact hk r o ho c hc

namespace Process

variable {p p' q : Process} {loose : List ContextId} {t : TaskId} {c d : ContextId} {f : Task → Task}

/-- The contexts on the stacks of all tasks. -/
def stacked (p : Process) : List ContextId := p.tasks.toList.flatMap Task.contexts

/-- The context is not to be used again: it is on a stack, or pinned. -/
def Placed (p : Process) (c : ContextId) : Prop := c ∈ p.stacked ∨ (p.contextAt c).pinned

structure Arena (p : Process) (loose : List ContextId) : Prop where
  nodup : (loose ++ (p.stacked ++ p.freeContexts)).Nodup
  inside : ∀ c ∈ loose ++ (p.stacked ++ p.freeContexts), c.index < p.contexts.size
  unpinned : ∀ c ∈ p.freeContexts, ¬ (p.contextAt c).pinned
  closed : ∀ c d, (p.contextAt c).pinned → (p.contextAt c).previous = some d → (p.contextAt d).pinned
  nested : ∀ task ∈ p.tasks, ∀ c outer, c :: outer <:+ task.contexts →
    ∀ d, (p.contextAt c).previous = some d → (p.contextAt d).pinned ∨ d ∈ outer
  cited : ∀ c, p.heap.Cites c → (p.contextAt c).pinned

theorem mem_stacked {task : Task} (ht : task ∈ p.tasks) (hc : c ∈ task.contexts) : c ∈ p.stacked :=
  List.mem_flatMap.2 ⟨task, by simpa using ht, hc⟩

theorem index_lt_of_mem (hc : c ∈ (p.taskAt t).contexts) : t.index < p.tasks.size :=
  index_lt_of_taskAt (P := fun task => c ∈ task.contexts) hc nofun

theorem mem_stacked_taskAt (hc : c ∈ (p.taskAt t).contexts) : c ∈ p.stacked :=
  mem_stacked (Array.mem_of_getElem? (getElem?_of_index_lt (index_lt_of_mem hc))) hc

theorem Arena.index_lt (hp : p.Arena loose) (hc : c ∈ (p.taskAt t).contexts) : c.index < p.contexts.size :=
  hp.inside c (List.mem_append_right loose (List.mem_append_left _ (mem_stacked_taskAt hc)))

theorem mem_of_top? (hc : (p.taskAt t).top? = some c) : c ∈ (p.taskAt t).contexts := List.mem_of_mem_head? hc

theorem index_lt_of_top? (hc : (p.taskAt t).top? = some c) : t.index < p.tasks.size := index_lt_of_mem (mem_of_top? hc)

theorem arena_of_empty (ht : p.tasks = #[]) (hc : p.contexts = #[]) (hf : p.freeContexts = [])
    (hh : ∀ c, ¬ p.heap.Cites c) : p.Arena [] where
  nodup := by simp [stacked, ht, hf]
  inside := by simp [stacked, ht, hf]
  unpinned := by simp [hf]
  closed c d hpin := by simp [contextAt, hc, default, instInhabitedContext.default] at hpin
  nested := by simp [ht]
  cited c hcite := absurd hcite (hh c)

theorem Arena.congr (hp : p.Arena loose) (ht : p'.tasks = p.tasks) (hc : p'.contexts = p.contexts)
    (hf : p'.freeContexts = p.freeContexts) (hh : p'.heap = p.heap) : p'.Arena loose := by
  have hs : p'.stacked = p.stacked := by simp only [stacked, ht]
  have ha : ∀ c, p'.contextAt c = p.contextAt c := fun c => by simp only [contextAt, hc]
  refine ⟨?_, ?_, ?_, ?_, ?_, ?_⟩
  · rw [hs, hf]
    exact hp.nodup
  · rw [hs, hf, hc]
    exact hp.inside
  · simpa only [hf, ha] using hp.unpinned
  · simpa only [ha] using hp.closed
  · simpa only [ht, ha] using hp.nested
  · simpa only [hh, ha] using hp.cited

/-- The objects refer to no other contexts than before, unless these are pinned. -/
theorem Arena.heap (hp : p.Arena loose) {h : Heap} (hh : ∀ c, h.Cites c → p.heap.Cites c ∨ (p.contextAt c).pinned) :
    ({ p with heap := h } : Process).Arena loose where
  nodup := hp.nodup
  inside := hp.inside
  unpinned := hp.unpinned
  closed := hp.closed
  nested := hp.nested
  cited c hc := (hh c hc).elim (hp.cited c) fun h => h

/-- Fewer contexts are loose. -/
theorem Arena.drop (hp : p.Arena (c :: loose)) : p.Arena loose where
  nodup := (List.nodup_cons.1 hp.nodup).2
  inside d hd := hp.inside d (List.mem_cons_of_mem c hd)
  unpinned := hp.unpinned
  closed := hp.closed
  nested := hp.nested
  cited := hp.cited

/-! ## Contexts -/

/-- Contexts have changed, and are around each other and pinned as before. -/
theorem Arena.contexts_changed (hp : p.Arena loose) {contexts : Array Context} (hs : contexts.size = p.contexts.size)
    (hf : ∀ c, (contexts.getD c.index default).pinned = (p.contextAt c).pinned ∧
      (contexts.getD c.index default).previous = (p.contextAt c).previous) :
    ({ p with contexts } : Process).Arena loose := by
  have hpin : ∀ c, (({ p with contexts } : Process).contextAt c).pinned = (p.contextAt c).pinned := fun c => (hf c).1
  have hprev : ∀ c, (({ p with contexts } : Process).contextAt c).previous = (p.contextAt c).previous := fun c => (hf c).2
  refine ⟨hp.nodup, fun c hc => hs ▸ hp.inside c hc, ?_, ?_, ?_, ?_⟩
  · simpa only [hpin] using hp.unpinned
  · simpa only [hpin, hprev] using hp.closed
  · simpa only [hpin, hprev] using hp.nested
  · simpa only [hpin] using hp.cited

theorem Arena.modifyContext (hp : p.Arena loose) (c : ContextId) {f : Context → Context}
    (hf : ∀ x, (f x).pinned = x.pinned ∧ (f x).previous = x.previous) : (p.modifyContext c f).Arena loose := by
  refine hp.contexts_changed (by simp) fun d => ?_
  have hat := contextAt_modifyContext p c f d
  unfold contextAt at hat ⊢
  change (p.contexts.modify c.index f).getD d.index default = _ at hat
  rw [hat]
  split
  · exact hf _
  · exact ⟨rfl, rfl⟩

theorem contextAt_newContext (p : Process) (x : Context) (hd : d ≠ (p.newContext x).1) :
    (p.newContext x).2.contextAt d = p.contextAt d := by
  unfold newContext at hd ⊢
  cases hf : p.freeContexts with
  | nil =>
      simp only [hf] at hd
      have hne : d.index ≠ p.contexts.size := fun h => hd (by cases d; simp_all)
      simp [contextAt, Array.getD_eq_getD_getElem?, Array.getElem?_push, hne]
  | cons first rest =>
      simp only [hf] at hd
      have hne : first.index ≠ d.index := fun h => hd (by cases d; cases first; simp_all)
      simp [contextAt, Array.getD_eq_getD_getElem?, hne]

/-- A context that is new or used again was not pinned and is no part of the arena but for that. -/
theorem Arena.newContext (hp : p.Arena loose) {x : Context} (hx : x.pinned = false) :
    (p.newContext x).2.Arena ((p.newContext x).1 :: loose) ∧
      (p.newContext x).2.contextAt (p.newContext x).1 = x ∧ ¬ (p.contextAt (p.newContext x).1).pinned ∧
      (p.newContext x).1 ∉ p.stacked ∧ p.contexts.size ≤ (p.newContext x).2.contexts.size := by
  have hfresh : ((p.newContext x).1 :: (loose ++ (p.stacked ++ (p.newContext x).2.freeContexts))).Nodup ∧
      (∀ c ∈ (p.newContext x).1 :: (loose ++ (p.stacked ++ (p.newContext x).2.freeContexts)),
        c.index < (p.newContext x).2.contexts.size) ∧
      (∀ c ∈ (p.newContext x).2.freeContexts, c ∈ p.freeContexts) ∧
      (p.newContext x).2.contextAt (p.newContext x).1 = x ∧ ¬ (p.contextAt (p.newContext x).1).pinned ∧
      p.contexts.size ≤ (p.newContext x).2.contexts.size := by
    have hnodup := hp.nodup
    have hinside := hp.inside
    unfold Process.newContext
    cases hf : p.freeContexts with
    | nil =>
        rw [hf] at hnodup hinside
        refine ⟨List.nodup_cons.2 ⟨fun h => ?_, hnodup⟩, fun c hc => ?_, by simp, by simp [contextAt],
          by simp [contextAt, default, instInhabitedContext.default], by simp⟩
        · exact absurd (hinside _ h) (Nat.lt_irrefl _)
        · simp only [Array.size_push] at hc ⊢
          rcases List.mem_cons.1 hc with rfl | hc
          · exact Nat.lt_succ_self _
          · exact Nat.lt_succ_of_lt (hinside c hc)
    | cons first rest =>
        rw [hf] at hnodup hinside
        have hperm : (first :: (loose ++ (p.stacked ++ rest))).Perm (loose ++ (p.stacked ++ first :: rest)) := by
          refine (List.perm_middle.symm.trans ?_)
          exact List.Perm.append_left loose List.perm_middle.symm
        have hlt : first.index < p.contexts.size := hinside first (by simp)
        refine ⟨hperm.nodup_iff.2 hnodup, fun c hc => ?_, fun c hc => List.mem_cons_of_mem first hc,
          by simp [contextAt, Array.getD_eq_getD_getElem?, hlt], hp.unpinned first (by simp [hf]), by simp⟩
        simp only [Array.size_setIfInBounds]
        exact hinside c (hperm.mem_iff.1 hc)
  obtain ⟨hnodup, hinside, hfree, hat, hun, hsize⟩ := hfresh
  obtain ⟨hheap, htasks, _⟩ := newContext_eq p x
  have hstacked : (p.newContext x).2.stacked = p.stacked := by simp only [stacked, htasks]
  have hold : ∀ d, (p.contextAt d).pinned → (p.newContext x).2.contextAt d = p.contextAt d := by
    intro d hd
    apply contextAt_newContext
    rintro rfl
    exact hun hd
  have hpin : ∀ d, ((p.newContext x).2.contextAt d).pinned → (p.contextAt d).pinned := by
    intro d hd
    by_cases hc : d = (p.newContext x).1
    · rw [hc, hat, hx] at hd
      cases hd
    · rwa [contextAt_newContext p x hc] at hd
  have hnot : (p.newContext x).1 ∉ p.stacked := fun h =>
    (List.nodup_cons.1 hnodup).1 (List.mem_append_right _ (List.mem_append_left _ h))
  refine ⟨⟨?_, ?_, ?_, ?_, ?_, ?_⟩, hat, hun, hnot, hsize⟩
  · rw [hstacked]
    exact hnodup
  · rw [hstacked]
    exact hinside
  · exact fun c hc h => hp.unpinned c (hfree c hc) (hpin c h)
  · intro c d hc hd
    have hc' := hpin c hc
    rw [hold c hc'] at hd
    have hd' := hp.closed c d hc' hd
    rwa [hold d hd']
  · intro task ht c outer hsuffix d hd
    rw [htasks] at ht
    have hc : c ∈ p.stacked := mem_stacked ht (hsuffix.subset List.mem_cons_self)
    rw [contextAt_newContext p x (fun h => hnot (h ▸ hc))] at hd
    refine (hp.nested task ht c outer hsuffix d hd).imp_left fun h => ?_
    rwa [hold d h]
  · intro c hc
    rw [hheap] at hc
    have hc' := hp.cited c hc
    rwa [hold c hc']

/-- A context that is given back has a place: where it is pinned, nowhere. -/
theorem Arena.release (hp : p.Arena (c :: loose)) : (p.releaseContext c).Arena loose := by
  unfold releaseContext
  split
  · exact hp.drop
  · rename_i hc
    have hm := hp.modifyContext c (f := fun c => { c with locals := {}, error := none, receiver := .none })
      fun _ => ⟨rfl, rfl⟩
    have hperm : (c :: loose ++ (p.stacked ++ p.freeContexts)).Perm (loose ++ (p.stacked ++ c :: p.freeContexts)) := by
      refine List.Perm.trans List.perm_middle.symm ?_
      exact List.Perm.append_left loose List.perm_middle.symm
    refine ⟨hperm.nodup_iff.1 hm.nodup, fun d hd => hm.inside d (hperm.mem_iff.2 hd), ?_, hm.closed, hm.nested, hm.cited⟩
    intro d hd
    rcases List.mem_cons.1 hd with rfl | hd
    · change ¬ ((p.modifyContext d _).contextAt d).pinned
      rw [contextAt_modifyContext]
      split <;> exact hc
    · exact hm.unpinned d hd

theorem Arena.releaseAll (cs : List ContextId) : ∀ {p : Process}, p.Arena (cs ++ loose) →
    (cs.foldl releaseContext p).Arena loose := by
  induction cs with
  | nil => exact fun hp => hp
  | cons c rest ih => exact fun hp => ih hp.release

/-- No context is on two stacks. -/
theorem Arena.disjoint {x : TaskId} (hp : p.Arena loose) (hne : x ≠ t) (hc : c ∈ (p.taskAt t).contexts) :
    c ∉ (p.taskAt x).contexts := by
  have hget : ∀ {y : TaskId}, c ∈ (p.taskAt y).contexts → p.tasks[y.index]? = some (p.taskAt y) := fun hy =>
    getElem?_of_index_lt (index_lt_of_mem hy)
  have hindex : t.index ≠ x.index := fun h => hne (by cases x; cases t; simp_all)
  have hstacked := (List.nodup_append.1 (List.nodup_append.1 hp.nodup).2.1).1
  exact fun hc' => Table.not_mem_of_nodup_flatMap hstacked (hget hc) (hget hc') hindex hc hc'

/-! ## Pinning -/

/-- Contexts have been pinned, among these `cs`, and nothing else has changed. -/
structure Pinned (cs : List ContextId) (p p' : Process) : Prop where
  process : ∃ contexts, p' = { p with contexts }
  size : p'.contexts.size = p.contexts.size
  same : ∀ d, ∃ b, p'.contextAt d = { p.contextAt d with pinned := b }
  mono : ∀ d, (p.contextAt d).pinned → (p'.contextAt d).pinned
  only : ∀ d, (p'.contextAt d).pinned → (p.contextAt d).pinned ∨ d ∈ cs
  around : ∀ d e, (p'.contextAt d).pinned → ¬ (p.contextAt d).pinned → (p.contextAt d).previous = some e →
    (p'.contextAt e).pinned

theorem pinned_refl (cs : List ContextId) (p : Process) : Pinned cs p p :=
  ⟨⟨_, rfl⟩, rfl, fun _ => ⟨_, rfl⟩, fun _ h => h, fun _ h => .inl h, fun _ _ h hn => absurd h hn⟩

/-- One context is pinned, and then some around it. -/
theorem Pinned.cons {outer cs : List ContextId}
    (h : Pinned outer (p.modifyContext c fun c => { c with pinned := true }) q) (ho : ∀ d ∈ outer, d ∈ cs)
    (hprev : ∀ e, (p.contextAt c).previous = some e → (q.contextAt e).pinned) : Pinned (c :: cs) p q := by
  have hat := contextAt_modifyContext p c fun c => { c with pinned := true }
  obtain ⟨⟨contexts, rfl⟩, hsize, hsame, hmono, honly, haround⟩ := h
  refine ⟨⟨contexts, rfl⟩, by simpa [Process.modifyContext] using hsize, fun d => ?_, fun d hd => ?_, fun d hd => ?_,
    fun d e hd hn he => ?_⟩
  · obtain ⟨b, hb⟩ := hsame d
    rw [hat] at hb
    split at hb <;> exact ⟨b, hb⟩
  · apply hmono
    rw [hat]
    split
    · rfl
    · exact hd
  · by_cases hdc : c = d
    · exact .inr (by simp [hdc])
    · rcases honly d hd with h | h
      · rw [hat, if_neg (fun h => hdc h.1)] at h
        exact .inl h
      · exact .inr (List.mem_cons_of_mem c (ho d h))
  · by_cases hdc : c = d
    · subst hdc
      exact hprev e he
    · have hold := hat d
      rw [if_neg (fun h => hdc h.1)] at hold
      apply haround d e hd
      · rwa [hold]
      · rwa [hold]

/-- The chain from a context outward is pinned up to the first context that was pinned before. -/
theorem pinned_pinFrom (fuel : Nat) : ∀ {p : Process} {c : ContextId} {outer : List ContextId}, outer.length < fuel →
    (∀ d ∈ c :: outer, d.index < p.contexts.size) →
    (∀ d rest, d :: rest <:+ c :: outer → ∀ e, (p.contextAt d).previous = some e → (p.contextAt e).pinned ∨ e ∈ rest) →
    Pinned (c :: outer) p (pinFrom fuel c p) ∧ ((pinFrom fuel c p).contextAt c).pinned := by
  induction fuel with
  | zero => exact fun h => absurd h (Nat.not_lt_zero _)
  | succ fuel ih =>
      intro p c outer hlen hinside hnested
      have hat := contextAt_modifyContext p c fun c => { c with pinned := true }
      have hself : ((p.modifyContext c fun c => { c with pinned := true }).contextAt c).pinned := by
        rw [hat, if_pos ⟨rfl, hinside c List.mem_cons_self⟩]
      unfold pinFrom
      dsimp only
      split
      · exact ⟨pinned_refl _ p, ‹_›⟩
      · cases hprev : (p.contextAt c).previous with
        | none =>
            exact ⟨(pinned_refl [] _).cons (by simp) (by simp [hprev]), hself⟩
        | some d =>
            rcases hnested c outer (List.suffix_refl _) d hprev with hd | hd
            · -- the walk ends at once
              have hd' : ((p.modifyContext c fun c => { c with pinned := true }).contextAt d).pinned := by
                rw [hat]
                split
                · rfl
                · exact hd
              have hstop : pinFrom fuel d (p.modifyContext c fun c => { c with pinned := true })
                  = p.modifyContext c fun c => { c with pinned := true } := by
                cases fuel with
                | zero => rfl
                | succ fuel => simp only [pinFrom, if_pos hd']
              change Pinned _ p (pinFrom fuel d _) ∧ ((pinFrom fuel d _).contextAt c).pinned
              rw [hstop]
              refine ⟨(pinned_refl [] _).cons (by simp) fun e he => ?_, hself⟩
              cases hprev.symm.trans he
              exact hd'
            · obtain ⟨before, after, rfl⟩ := List.append_of_mem hd
              have hsuffix : d :: after <:+ before ++ d :: after := List.suffix_append _ _
              have hlen' : after.length < fuel := by
                simp only [List.length_append, List.length_cons] at hlen
                omega
              obtain ⟨hpin, htop⟩ := @ih (p.modifyContext c fun c => { c with pinned := true }) d after
                hlen' (fun x hx => by
                  simpa [Process.modifyContext] using hinside x (List.mem_cons_of_mem c (hsuffix.subset hx)))
                (fun x rest hx e he => by
                  rw [hat] at he
                  have he' : (p.contextAt x).previous = some e := by
                    split at he <;> exact he
                  refine (hnested x rest ((hx.trans hsuffix).trans (List.suffix_cons _ _)) e he').imp_left fun h => ?_
                  rw [hat]
                  split
                  · rfl
                  · exact h)
              refine ⟨hpin.cons (fun x hx => hsuffix.subset hx) fun e he => ?_, hpin.mono c hself⟩
              cases hprev.symm.trans he
              exact htop

theorem length_le_of_nodup {cs : List ContextId} (hn : cs.Nodup) {n : Nat} (hlt : ∀ c ∈ cs, c.index < n) :
    cs.length ≤ n := by
  have hmap : (cs.map ContextId.index).Nodup := by
    refine hn.map fun a b h => ?_
    cases a
    cases b
    simp_all
  have hsub : (cs.map ContextId.index).Subperm (List.range n) := by
    refine List.subperm_of_subset hmap fun i hi => ?_
    obtain ⟨c, hc, rfl⟩ := List.mem_map.1 hi
    exact List.mem_range.2 (hlt c hc)
  simpa using hsub.length_le

theorem Arena.stack (hp : p.Arena loose) {task : Task} (ht : task ∈ p.tasks) :
    task.contexts.Nodup ∧ ∀ c ∈ task.contexts, c.index < p.contexts.size := by
  refine ⟨?_, fun c hc => hp.inside c (List.mem_append_right _ (List.mem_append_left _ (mem_stacked ht hc)))⟩
  have hstacked := (List.nodup_append.1 (List.nodup_append.1 hp.nodup).2.1).1
  exact (List.nodup_flatMap.1 hstacked).1 task (by simpa using ht)

/-- There is fuel enough to pin all that is around a context of a stack. -/
theorem Arena.pinned_pin (hp : p.Arena loose) {task : Task} (ht : task ∈ p.tasks) {outer : List ContextId}
    (hc : c :: outer <:+ task.contexts) : Pinned (c :: outer) p (p.pin c) ∧ ((p.pin c).contextAt c).pinned := by
  obtain ⟨hnodup, hinside⟩ := hp.stack ht
  have hin : ∀ d ∈ c :: outer, d.index < p.contexts.size := fun d hd => hinside d (hc.subset hd)
  have hlen := length_le_of_nodup (hnodup.sublist hc.sublist) hin
  exact pinned_pinFrom _ (by simpa using hlen) hin fun d rest hd e he => hp.nested task ht d rest (hd.trans hc) e he

theorem Arena.of_pinned (hp : p.Arena loose) {cs : List ContextId} (h : Pinned cs p p') (hcs : ∀ c ∈ cs, c ∈ p.stacked) :
    p'.Arena loose := by
  have hprev : ∀ d, (p'.contextAt d).previous = (p.contextAt d).previous := fun d => by
    obtain ⟨b, hb⟩ := h.same d
    rw [hb]
  obtain ⟨⟨contexts, rfl⟩, hsize, _, hmono, honly, haround⟩ := h
  refine ⟨hp.nodup, fun c hc => hsize ▸ hp.inside c hc, fun c hc hpin => ?_, fun c d hc hd => ?_,
    fun task ht c outer hs d hd => ?_, fun c hc => hmono c (hp.cited c hc)⟩
  · rcases honly c hpin with h | h
    · exact hp.unpinned c hc h
    · have hdis := (List.nodup_append.1 (List.nodup_append.1 hp.nodup).2.1).2.2
      exact hdis c (hcs c h) c hc rfl
  · rw [hprev] at hd
    by_cases hold : (p.contextAt c).pinned
    · exact hmono d (hp.closed c d hold hd)
    · exact haround c d hc hold hd
  · rw [hprev] at hd
    exact (hp.nested task ht c outer hs d hd).imp_left (hmono d)

/-- The innermost context of a task is pinned, with all that is around it. -/
theorem Arena.pin (hp : p.Arena loose) (hc : (p.taskAt t).top? = some c) :
    (p.pin c).Arena loose ∧ ((p.pin c).contextAt c).pinned ∧ Pinned (p.taskAt t).contexts p (p.pin c) := by
  obtain ⟨outer, hcs⟩ : ∃ outer, (p.taskAt t).contexts = c :: outer := by
    rw [Task.top?] at hc
    exact List.head?_eq_some_iff.1 hc
  have hlt : t.index < p.tasks.size := index_lt_of_mem (hcs ▸ List.mem_cons_self)
  have ht : p.taskAt t ∈ p.tasks := Array.mem_of_getElem? (getElem?_of_index_lt hlt)
  have hsuffix : c :: outer <:+ (p.taskAt t).contexts := by rw [hcs]
  obtain ⟨hpin, htop⟩ := hp.pinned_pin ht hsuffix
  rw [← hcs] at hpin
  exact ⟨hp.of_pinned hpin fun d hd => mem_stacked ht hd, htop, hpin⟩

/-! ## Stacks -/

/-- One stack has changed, and what it has lost or gained is loose or was so. -/
theorem Arena.modifyTask (hp : p.Arena loose) {task : Task} (ht : p.tasks[t.index]? = some task) {loose' : List ContextId}
    (hperm : (loose' ++ (f task).contexts).Perm (loose ++ task.contexts))
    (hnested : ∀ c outer, c :: outer <:+ (f task).contexts →
      ∀ d, (p.contextAt c).previous = some d → (p.contextAt d).pinned ∨ d ∈ outer) :
    (p.modifyTask t f).Arena loose' := by
  have hall : (loose' ++ ((p.modifyTask t f).stacked ++ p.freeContexts)).Perm (loose ++ (p.stacked ++ p.freeContexts)) := by
    rw [← List.append_assoc, ← List.append_assoc]
    exact (Table.perm_flatMap_modify ht hperm).append_right _
  refine ⟨hall.nodup_iff.2 hp.nodup, fun c hc => hp.inside c (hall.mem_iff.1 hc), hp.unpinned, hp.closed, ?_, hp.cited⟩
  intro row hrow
  obtain ⟨i, hi⟩ := Array.mem_iff_getElem?.1 hrow
  have hget := getElem?_modifyTask p t f ⟨i⟩
  rw [show (p.modifyTask t f).tasks[i]? = some row from hi] at hget
  split at hget
  · rename_i heq
    subst heq
    rw [ht] at hget
    cases hget
    exact hnested
  · exact hp.nested row (Array.mem_of_getElem? hget.symm)

theorem Arena.modifyTask_nowhere (hp : p.Arena loose) (ht : p.tasks[t.index]? = none) : (p.modifyTask t f).Arena loose :=
  hp.congr (Table.modify_eq_self ht f) rfl rfl rfl

/-- A task keeps its stack. -/
theorem Arena.modifyTask_frame (hp : p.Arena loose) (t : TaskId) (hf : ∀ task, (f task).contexts = task.contexts) :
    (p.modifyTask t f).Arena loose := by
  cases ht : p.tasks[t.index]? with
  | none => exact hp.modifyTask_nowhere ht
  | some task =>
      refine hp.modifyTask ht (by rw [hf]) ?_
      rw [hf]
      exact hp.nested task (Array.mem_of_getElem? ht)

/-- A loose context goes on top of a stack. -/
theorem Arena.enter (hp : p.Arena (c :: loose)) {task : Task} (ht : p.tasks[t.index]? = some task)
    (hf : (f task).contexts = c :: task.contexts)
    (hc : ∀ d, (p.contextAt c).previous = some d → (p.contextAt d).pinned ∨ d ∈ task.contexts) :
    (p.modifyTask t f).Arena loose := by
  refine hp.modifyTask ht ?_ ?_
  · rw [hf, List.cons_append]
    exact List.perm_middle
  · rw [hf]
    intro x outer hx
    rcases List.suffix_cons_iff.1 hx with heq | hx
    · cases heq
      exact hc
    · exact hp.nested task (Array.mem_of_getElem? ht) x outer hx

/-- The upper contexts of a stack are loose. -/
theorem Arena.leave (hp : p.Arena loose) {task : Task} (ht : p.tasks[t.index]? = some task) {out rest : List ContextId}
    (hcs : task.contexts = out ++ rest) (hf : (f task).contexts = rest) : (p.modifyTask t f).Arena (out ++ loose) := by
  refine hp.modifyTask ht ?_ ?_
  · rw [hf, hcs, ← List.append_assoc]
    exact (List.perm_append_comm).append_right rest
  · rw [hf]
    intro x outer hx
    exact hp.nested task (Array.mem_of_getElem? ht) x outer (hx.trans (hcs ▸ List.suffix_append _ _))

/-! ## Tasks -/

theorem Arena.newTask (hp : p.Arena loose) (parent : Option TaskId) : (p.newTask parent).2.Arena loose := by
  have hs : (p.newTask parent).2.stacked = p.stacked := by simp [stacked, Process.newTask]
  refine ⟨?_, ?_, hp.unpinned, hp.closed, fun task ht => ?_, hp.cited⟩
  · rw [hs]
    exact hp.nodup
  · rw [hs]
    exact hp.inside
  · rcases Array.mem_push.1 ht with ht | rfl
    · exact hp.nested task ht
    · intro c outer hc
      exact absurd hc.length_le (by simp)

theorem taskAt_startTask {x : TaskId} (hx : x.index < p.tasks.size) (parent : Option TaskId) (argument : Value)
    (context : TaskId → Context) : (p.startTask parent argument context).2.taskAt x = p.taskAt x := by
  have htasks := (newContext_eq (p.newTask parent).2 (context ⟨p.tasks.size⟩)).2.1
  have hne : (⟨p.tasks.size⟩ : TaskId) ≠ x := fun h => Nat.lt_irrefl _ (h ▸ hx)
  rw [startTask_snd, taskAt_modifyTask, if_neg fun h => hne h.1, taskAt, htasks]
  exact taskAt_of_getElem? (getElem?_newTask_of (getElem?_of_index_lt hx) parent)

theorem size_startTask (p : Process) (parent : Option TaskId) (argument : Value) (context : TaskId → Context) :
    (p.startTask parent argument context).2.tasks.size = p.tasks.size + 1 := by
  have htasks := (newContext_eq (p.newTask parent).2 (context ⟨p.tasks.size⟩)).2.1
  rw [startTask_snd, modifyTask, Array.size_modify, htasks]
  simp [Process.newTask]

/-- A new task starts in a context that was to be used again; the other contexts are as they were. -/
theorem Arena.started (hp : p.Arena loose) (parent : Option TaskId) (argument : Value) (context : TaskId → Context)
    (hx : (context ⟨p.tasks.size⟩).pinned = false) : ∃ c, ¬ p.Placed c ∧
      (p.startTask parent argument context).2.taskAt ⟨p.tasks.size⟩ = { parent, contexts := [c], register := argument } ∧
      (p.startTask parent argument context).2.contextAt c = context ⟨p.tasks.size⟩ ∧
      ∀ d, d ≠ c → (p.startTask parent argument context).2.contextAt d = p.contextAt d := by
  obtain ⟨_, hat, hun, hnot, _⟩ := (hp.newTask parent).newContext hx
  have htasks := (newContext_eq (p.newTask parent).2 (context ⟨p.tasks.size⟩)).2.1
  have hstacked : (p.newTask parent).2.stacked = p.stacked := by simp [stacked, Process.newTask]
  have hnew : ((p.newTask parent).2.newContext (context ⟨p.tasks.size⟩)).2.tasks[p.tasks.size]? = some { parent } := by
    rw [htasks]
    exact getElem?_newTask p parent
  refine ⟨_, fun h => h.elim (hstacked ▸ hnot) hun, ?_, hat, fun d hd => contextAt_newContext _ _ hd⟩
  rw [startTask_snd, taskAt_modifyTask, if_pos ⟨rfl, index_lt_of_getElem? (t := ⟨p.tasks.size⟩) hnew,⟩,
    taskAt_of_getElem? (t := ⟨p.tasks.size⟩) hnew]

theorem Arena.startTask (hp : p.Arena loose) (parent : Option TaskId) (argument : Value) {context : TaskId → Context}
    (hx : ∀ t, (context t).pinned = false)
    (hprev : ∀ t d, (context t).previous = some d → (p.contextAt d).pinned) :
    (p.startTask parent argument context).2.Arena loose := by
  obtain ⟨harena, hat, hun, _⟩ := (hp.newTask parent).newContext (hx ⟨p.tasks.size⟩)
  have htasks := (newContext_eq (p.newTask parent).2 (context ⟨p.tasks.size⟩)).2.1
  rw [startTask_snd]
  have hnew : ((p.newTask parent).2.newContext (context ⟨p.tasks.size⟩)).2.tasks[p.tasks.size]? = some { parent } := by
    rw [htasks]
    exact getElem?_newTask p parent
  refine harena.enter (t := ⟨p.tasks.size⟩) hnew rfl fun d hd => .inl ?_
  rw [hat] at hd
  have hpin : ((p.newTask parent).2.contextAt d).pinned := hprev _ d hd
  rwa [contextAt_newContext _ _ fun h => hun (h ▸ hpin)]

theorem Arena.startCall (hp : p.Arena loose) (registry : Registry) {b : BoundFunction} (start : Nat) (argument : Value)
    (parent : Option TaskId) (hb : ∀ c, b.capture = some c → (p.contextAt c).pinned) :
    (p.startCall registry b start argument parent).2.Arena loose :=
  hp.startTask parent argument (fun _ => rfl) fun _ => hb

theorem Arena.startModule (hp : p.Arena loose) (m : ModuleId) (parent : Option TaskId) :
    (p.startModule m parent).2.Arena loose := by
  have hstart : (p.startTask parent .none fun task =>
      { task, kind := .moduleRoot, module := m, cursor := 0 }).2.Arena loose :=
    hp.startTask parent .none (fun _ => rfl) fun _ _ h => by cases h
  have hmark := hstart.modifyTask_frame (f := fun task => { task with initializes := some m })
    (p.startTask parent .none fun task => { task, kind := .moduleRoot, module := m, cursor := 0 }).1 fun _ => rfl
  exact hmark.congr rfl rfl rfl rfl

theorem Arena.newCarrier (hp : p.Arena loose) (parent : TaskId) : (p.newCarrier parent).2.Arena loose := by
  have hpark := (hp.newTask (some parent)).modifyTask_frame (f := (·.park .onFuture)) ⟨p.tasks.size⟩ fun _ => rfl
  exact hpark.congr rfl rfl rfl rfl

theorem Arena.wake (hp : p.Arena loose) (t : TaskId) : (p.wake t).Arena loose := by
  unfold Process.wake
  split
  · exact hp
  · have hrun := hp.modifyTask_frame (f := fun t => { t with state := .running, reason := .notWaiting }) t fun _ => rfl
    exact hrun.congr rfl rfl rfl rfl

theorem Arena.deliver (hp : p.Arena loose) (failed : Bool) (result : Value) (d : Dependent) :
    (p.deliver failed result d).Arena loose := by
  unfold Process.deliver deliverError failTask
  split
  · exact hp
  · split
    · split
      · rename_i e _
        exact (hp.modifyContext (f := fun c => { c with error := some e }) _ fun _ => ⟨rfl, rfl⟩).wake _
      · exact hp.modifyTask_frame d.task fun _ => rfl
    · split
      · exact (hp.modifyTask_frame (f := fun t => { t with register := result }) d.task fun _ => rfl).wake _
      · exact hp.wake _

theorem Arena.clear (hp : p.Arena loose) (t : TaskId) : (p.clear t).Arena loose := by
  have hframe := hp.modifyTask_frame (f := fun t => { t with dependents := [], initializes := none }) t fun _ => rfl
  have hlist : (p.unlist t).Arena loose := hframe.congr rfl rfl rfl rfl
  unfold Process.clear releaseTask
  dsimp only
  apply Arena.releaseAll
  cases ht : (p.unlist t).tasks[t.index]? with
  | none =>
      have hnil : ((p.unlist t).taskAt t).contexts = [] := by
        simp [taskAt, Array.getD_eq_getD_getElem?, ht, default, instInhabitedTask.default]
      rw [hnil]
      exact hlist.modifyTask_nowhere ht
  | some task =>
      rw [taskAt_of_getElem? ht]
      exact hlist.leave ht (List.append_nil _).symm rfl

theorem Arena.finish (hp : p.Arena loose) (t : TaskId) : (p.finish t).Arena loose := by
  rw [finish_eq]
  have hall : ∀ (ds : List Dependent) (q : Process), q.Arena loose → (ds.foldl
      (fun q d => q.deliver ((p.taskAt t).state = .error) (p.taskAt t).register d) q).Arena loose := by
    intro ds
    induction ds with
    | nil => exact fun q hq => hq
    | cons d rest ih => exact fun q hq => ih _ (hq.deliver _ _ d)
  exact hall _ _ (hp.clear t)

/-! ## What is used again -/

/-- What is around a context of a stack is on a stack or pinned. -/
theorem Arena.encloses (hp : p.Arena loose) (hc : c ∈ p.stacked) (he : p.Encloses c d) :
    d ∈ p.stacked ∨ (p.contextAt d).pinned := by
  have hstep : ∀ x y, x ∈ p.stacked ∨ (p.contextAt x).pinned → (p.contextAt x).previous = some y →
      y ∈ p.stacked ∨ (p.contextAt y).pinned := by
    intro x y hx hy
    rcases hx with hx | hx
    · obtain ⟨task, htask, hmem⟩ := List.mem_flatMap.1 hx
      have htask : task ∈ p.tasks := by simpa using htask
      obtain ⟨before, after, hcs⟩ := List.append_of_mem hmem
      rcases hp.nested task htask x after (hcs ▸ List.suffix_append _ _) y hy with h | h
      · exact .inr h
      · exact .inl (mem_stacked htask (by simp [hcs, h]))
    · exact .inr (hp.closed x y hx hy)
  have hreach : ∀ {x y}, p.Encloses x y → x ∈ p.stacked ∨ (p.contextAt x).pinned →
      y ∈ p.stacked ∨ (p.contextAt y).pinned := by
    intro x y hxy
    induction hxy with
    | self => exact fun h => h
    | around hprev _ ih => exact fun h => ih (hstep _ _ h hprev)
  exact hreach he (.inl hc)

theorem Arena.encloses_pinned (hp : p.Arena loose) (hc : (p.contextAt c).pinned) (he : p.Encloses c d) :
    (p.contextAt d).pinned := by
  induction he with
  | self => exact hc
  | around hprev _ ih => exact ih (hp.closed _ _ hc hprev)

theorem Arena.not_stacked (hp : p.Arena loose) (hc : c ∈ p.freeContexts) : c ∉ p.stacked := fun h =>
  (List.nodup_append.1 (List.nodup_append.1 hp.nodup).2.1).2.2 c h c hc rfl

end Process

end Spool
