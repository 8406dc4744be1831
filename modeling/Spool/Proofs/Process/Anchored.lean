import Spool.Machine.Host
import Spool.Proofs.Process.Fit

/-!
# Roots and their owners

Every root has an owner that drops it: a background call or a result on its way to another process. Only those of
reflections stay. No object has a root that nobody owns.
-/

namespace Spool.Process

variable {p p' : Process} {calls : List BackgroundCall} {extra : List Handle}

/-- The objects that have a root, once for each owner. -/
def anchors (p : Process) (calls : List BackgroundCall) : List Handle :=
  calls.flatMap BackgroundCall.held ++ p.completions.flatMap Completion.held
    ++ p.outgoing.filterMap (fun out => (p.taskAt out.task).register.handle?) ++ p.heap.reflections.values
    ++ p.reflection.toList

/-- There are the roots of the owners, some that are about to get or to lose one, and no others. -/
structure Anchored (p : Process) (calls : List BackgroundCall) (extra : List Handle) : Prop where
  rooted : ∀ r, (p.anchors calls).count r + extra.count r = p.heap.rootCount r
  keys : p.heap.reflections.Distinct
  results : ∀ c ∈ p.completions, ∀ r, c.result = .ok (.object r) → r ∈ c.held
  arguments : ∀ call ∈ calls, ∀ r, call.receiver = .object r ∨ call.argument = .object r → r ∈ call.held

theorem count_anchors (p : Process) (calls : List BackgroundCall) (r : Handle) :
    (p.anchors calls).count r = (calls.flatMap BackgroundCall.held).count r
      + (p.completions.flatMap Completion.held).count r
      + (p.outgoing.filterMap fun out => (p.taskAt out.task).register.handle?).count r
      + p.heap.reflections.values.count r + p.reflection.toList.count r := by
  simp only [anchors, List.count_append]

theorem Anchored.mirrored (ha : p.Anchored calls extra) : p.heap.Mirrored := by
  intro r
  have := ha.rooted r
  rw [count_anchors] at this
  omega

theorem Anchored.isLive (ha : p.Anchored calls extra) {r : Handle} (hr : r ∈ p.anchors calls ∨ r ∈ extra) :
    p.heap.isLive r := by
  refine Heap.isLive_of_rootCount (Nat.lt_of_lt_of_eq ?_ (ha.rooted r))
  rcases hr with hr | hr
  · have := List.count_pos_iff.2 hr
    omega
  · have := List.count_pos_iff.2 hr
    omega

/-- A result on its way to another process is live. -/
theorem Anchored.valid_outgoing (ha : p.Anchored calls extra) {out : Outgoing} (ho : out ∈ p.outgoing) :
    p.heap.Valid (p.taskAt out.task).register := by
  intro r hr
  refine ha.isLive (.inl ?_)
  simp only [anchors, List.mem_append, List.mem_filterMap]
  exact .inl (.inl (.inr ⟨out, ho, by rw [hr]; rfl⟩))

theorem Anchored.gains (ha : p.Anchored calls extra) {X : External → Prop} {h' : Heap} (hg : p.heap.Gains X h') :
    ({ p with heap := h' } : Process).Anchored calls extra where
  rooted r := by
    have h₁ := ha.rooted r
    have h₂ := hg.roots r
    rw [count_anchors] at h₁
    have h₃ := count_anchors ({ p with heap := h' } : Process) calls r
    simp only at h₃
    change _ = h'.rootCount r
    rw [h₃]
    have hout : (p.outgoing.filterMap fun out => ({ p with heap := h' } : Process).taskAt out.task |>.register.handle?)
        = p.outgoing.filterMap fun out => (p.taskAt out.task).register.handle? := rfl
    rw [hout]
    omega
  keys := hg.keys ha.keys
  results := ha.results
  arguments := ha.arguments

theorem Anchored.congr (ha : p.Anchored calls extra) (hh : p'.heap = p.heap) (hc : p'.completions = p.completions)
    (ho : p'.outgoing = p.outgoing) (hr : p'.reflection = p.reflection)
    (ht : ∀ out ∈ p.outgoing, (p'.taskAt out.task).register = (p.taskAt out.task).register) : p'.Anchored calls extra where
  rooted r := by
    have hout : (p'.outgoing.filterMap fun out => (p'.taskAt out.task).register.handle?)
        = p.outgoing.filterMap fun out => (p.taskAt out.task).register.handle? := by
      rw [ho]
      exact List.filterMap_congr fun out hm => by rw [ht out hm]
    have := ha.rooted r
    rw [count_anchors] at this ⊢
    rw [hh, hc, hout, hr]
    exact this
  keys := hh ▸ ha.keys
  results := by
    rw [hc]
    exact ha.results
  arguments := ha.arguments

/-! ## Roots come and go -/

theorem Anchored.reroot (ha : p.Anchored calls extra) {extra' : List Handle} {h' : Heap} {count : Handle → Nat}
    (hc : p.heap.Recounted count h') (hr : ∀ r, p.heap.rootCount r + extra'.count r = extra.count r + count r) :
    ({ p with heap := h' } : Process).Anchored calls extra' where
  rooted r := by
    have h₁ := ha.rooted r
    have h₂ : (({ p with heap := h' } : Process).anchors calls).count r = (p.anchors calls).count r := by
      rw [count_anchors, count_anchors]
      simp only [hc.reflections]
      rfl
    have h₃ := hr r
    change _ = h'.rootCount r
    rw [h₂, hc.rootCount]
    omega
  keys := hc.reflections ▸ ha.keys
  results := ha.results
  arguments := ha.arguments

theorem Anchored.reorder (ha : p.Anchored calls extra) {extra' : List Handle} (he : extra'.Perm extra) :
    p.Anchored calls extra' where
  rooted r := by
    rw [he.count_eq]
    exact ha.rooted r
  keys := ha.keys
  results := ha.results
  arguments := ha.arguments

theorem Anchored.perm (ha : p.Anchored calls extra) {calls' : List BackgroundCall} (hc : calls'.Perm calls) :
    p.Anchored calls' extra where
  rooted r := by
    have h₁ := ha.rooted r
    rw [count_anchors] at h₁ ⊢
    rw [(hc.flatMap_right BackgroundCall.held).count_eq r]
    exact h₁
  keys := ha.keys
  results := ha.results
  arguments call hm := ha.arguments call (hc.mem_iff.1 hm)

/-- A background call becomes the owner of the roots that it holds. -/
theorem Anchored.charge {call : BackgroundCall} (ha : p.Anchored calls (call.held ++ extra))
    (hargs : ∀ r, call.receiver = .object r ∨ call.argument = .object r → r ∈ call.held) :
    p.Anchored (call :: calls) extra where
  rooted r := by
    have h₁ := ha.rooted r
    rw [count_anchors] at h₁ ⊢
    simp only [List.flatMap_cons, List.count_append] at h₁ ⊢
    omega
  keys := ha.keys
  results := ha.results
  arguments c hm := by
    rcases List.mem_cons.1 hm with rfl | hm
    · exact hargs
    · exact ha.arguments c hm

/-- A result on its way to another process becomes the owner of its root. -/
theorem Anchored.owe {t : TaskId} (ha : p.Anchored calls ((p.taskAt t).register.handle?.toList ++ extra))
    (link : RemoteLink) : ({ p with outgoing := p.outgoing ++ [⟨t, link⟩] } : Process).Anchored calls extra where
  rooted r := by
    have hone : [(⟨t, link⟩ : Outgoing)].filterMap (fun out => (p.taskAt out.task).register.handle?)
        = (p.taskAt t).register.handle?.toList := by
      rw [List.filterMap_cons]
      cases (p.taskAt t).register.handle? <;> rfl
    have hout : ((p.outgoing ++ [(⟨t, link⟩ : Outgoing)]).filterMap fun out => (p.taskAt out.task).register.handle?).count r
        = (p.outgoing.filterMap fun out => (p.taskAt out.task).register.handle?).count r
          + (p.taskAt t).register.handle?.toList.count r := by
      rw [List.filterMap_append, List.count_append, hone]
    have h₁ := ha.rooted r
    have h₂ := count_anchors ({ p with outgoing := p.outgoing ++ [⟨t, link⟩] } : Process) calls r
    rw [count_anchors, List.count_append] at h₁
    refine Eq.trans ?_ h₁
    rw [h₂]
    refine (congrArg (· + _) (congrArg (· + _) (congrArg (· + _) (congrArg (_ + ·) hout)))).trans ?_
    dsimp only
    omega
  keys := ha.keys
  results := ha.results
  arguments := ha.arguments

/-- The first result in line leaves its root behind. -/
theorem Anchored.forgo (ha : p.Anchored calls extra) {out : Outgoing} {rest : List Outgoing}
    (ho : p.outgoing = out :: rest) :
    ({ p with outgoing := rest } : Process).Anchored calls ((p.taskAt out.task).register.handle?.toList ++ extra) where
  rooted r := by
    have h₁ := ha.rooted r
    have h₂ := count_anchors ({ p with outgoing := rest } : Process) calls r
    have hout : (p.outgoing.filterMap fun out => (p.taskAt out.task).register.handle?).count r
        = (p.taskAt out.task).register.handle?.toList.count r
          + (rest.filterMap fun out => (p.taskAt out.task).register.handle?).count r := by
      rw [ho, List.filterMap_cons]
      cases (p.taskAt out.task).register.handle? with
      | none => simp
      | some x => simp [List.count_cons, Nat.add_comm]
    rw [count_anchors, hout] at h₁
    rw [List.count_append, h₂]
    refine Eq.trans ?_ h₁
    change _ + _ + (rest.filterMap fun out => (p.taskAt out.task).register.handle?).count r
      + p.heap.reflections.values.count r + p.reflection.toList.count r + _ = _
    dsimp only
    omega
  keys := ha.keys
  results := ha.results
  arguments := ha.arguments

/-- A dead object has no root to lose. -/
theorem Anchored.collect (ha : p.Anchored calls extra) (hs : p.heap.Sound) (registry : Registry) :
    (p.collect registry).2.Anchored calls extra where
  rooted r := by
    have hc := collection_collect p registry hs.edges
    have h₁ := ha.rooted r
    have h₂ : ((p.collect registry).2.anchors calls).count r = (p.anchors calls).count r := by
      rw [count_anchors, count_anchors, hc.reflections]
      rfl
    have hkept : (p.collect registry).2.heap.rootCount r = p.heap.rootCount r := by
      by_cases hpos : 0 < p.heap.rootCount r
      · exact hc.roots r (.rooted hpos)
      · by_cases hr : p.Reaches r
        · exact hc.roots r hr
        · have hgone : (p.collect registry).2.heap.object? r = none := by
            rw [Option.eq_none_iff_forall_ne_some]
            exact fun o ho => hr ((hc.survivors r o).1 ho).2
          rw [Heap.rootCount_eq_zero hgone]
          omega
    rw [h₂, hkept]
    exact h₁
  keys := (collection_collect p registry hs.edges).reflections ▸ ha.keys
  results := ha.results
  arguments := ha.arguments

end Spool.Process
