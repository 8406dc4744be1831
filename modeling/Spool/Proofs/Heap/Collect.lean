import Spool.Proofs.Heap.Trace

/-!
# A collection keeps exactly what can be reached

Tracing has marked what can be reached. Sweeping then takes every other object, and the edges that came from it, and leaves
the survivors as they were. The delete hook of its class is called with each object that goes.
-/

namespace Spool.Heap

/-! ## Sweeping -/

/-- Some objects have been taken out of the heap, and the edges from them. -/
structure Swept (h : Heap) (gone : List Handle) (h' : Heap) : Prop where
  object? : ∀ x, h'.object? x = if x ∈ gone then none else h.object? x
  rootCount : ∀ x, x ∉ gone → h'.rootCount x = h.rootCount x
  recorded : ∀ p c, c ∉ gone → h'.recorded p c = if p ∈ gone then 0 else h.recorded p c
  reflections : h'.reflections = h.reflections
  orderly : h.Orderly → h'.Orderly

theorem Swept.refl (h : Heap) : h.Swept [] h where
  object? x := by simp
  rootCount _ _ := rfl
  recorded p c _ := by simp
  reflections := rfl
  orderly := id

theorem lookup?_vacate {h : Heap} {r : Handle} (hr : h.isLive r) (x : Handle) :
    (h.vacate r).lookup? x = if x = r then none else h.lookup? x := by
  by_cases hi : r.index = x.index
  · have hnone : (h.vacate r).lookup? x = none := by
      simp only [Heap.lookup?, vacate, Array.getElem?_modify, hi, ↓reduceIte]
      cases h.slots[x.index]? <;> simp
    rw [hnone]
    split
    · rfl
    · rename_i hx
      -- the slot held another object than the one asked for
      symm
      rw [← Option.not_isSome_iff_eq_none]
      intro hl
      exact hx (eq_of_index_eq hl hr hi.symm)
  · have hx : x ≠ r := by
      rintro rfl
      exact hi rfl
    simp [Heap.lookup?, vacate, Array.getElem?_modify, hi, hx]

theorem Orderly.vacate {h : Heap} (hd : h.Orderly) {r : Handle} (hr : h.isLive r) : (h.vacate r).Orderly := by
  have hlt := index_lt_of_isLive hr
  have hfree : r.index ∉ h.free := by
    intro hm
    obtain ⟨generation, hs⟩ := hd.free_vacant _ hm
    obtain ⟨e, he⟩ := Option.isSome_iff_exists.1 hr
    rw [lookup?_eq_some, hs] at he
    cases he
  refine ⟨List.nodup_cons.2 ⟨hfree, hd.free_nodup⟩, fun index hi => ?_, fun {x o} hx => ?_⟩
  · simp only [Vacant, Heap.vacate, Array.getElem?_modify]
    rcases List.mem_cons.1 hi with rfl | hi
    · simp [hlt]
    · obtain ⟨generation, hs⟩ := hd.free_vacant index hi
      have hne : r.index ≠ index := by
        rintro rfl
        exact hfree hi
      exact ⟨generation, by simp [hne, hs]⟩
  · refine hd.distinct (r := x) ?_
    simp only [Heap.object?, lookup?_vacate hr] at hx ⊢
    split at hx
    · cases hx
    · exact hx

/-- The entry without the edges from one parent. -/
def forgets (parent : Handle) (e : Entry) : Entry := { e with parents := e.parents.erase parent }

theorem forgets_forgets (parent : Handle) (e : Entry) : forgets parent (forgets parent e) = forgets parent e := by
  simp [forgets, Bindings.erase, List.filter_filter]

theorem lookup?_dropParents (r : Handle) (children : List Handle) (h : Heap) (x : Handle) :
    (children.foldl (fun h child => h.dropParent r child) h).lookup? x
      = if x ∈ children then (h.lookup? x).map (forgets r) else h.lookup? x := by
  induction children generalizing h with
  | nil => simp
  | cons child rest ih =>
      have hdrop : (h.dropParent r child).lookup? x = if x = child then (h.lookup? x).map (forgets r) else h.lookup? x :=
        lookup?_modifyEntry h child x _
      rw [List.foldl_cons, ih, hdrop]
      by_cases hx : x = child
      · subst hx
        by_cases hm : x ∈ rest <;> simp [hm, Option.map_map, Function.comp_def, forgets_forgets]
      · simp [hx]

theorem alike_dropParents (r : Handle) (children : List Handle) (h : Heap) :
    h.Alike (children.foldl (fun h child => h.dropParent r child) h) := by
  induction children generalizing h with
  | nil => exact .refl h
  | cons child rest ih =>
      have : h.Alike (h.dropParent r child) := alike_modifyEntry (fun _ => rfl) fun _ => rfl
      exact this.trans (ih _)

theorem lookup?_reclaim {h : Heap} {r : Handle} (hr : h.isLive r) (o : Object) (x : Handle) : (h.reclaim r o).lookup? x =
    if x = r then none else if x ∈ o.edges then (h.lookup? x).map (forgets r) else h.lookup? x := by
  rw [reclaim, lookup?_dropParents, lookup?_vacate hr]
  by_cases hx : x = r
  · simp [hx]
  · simp [hx]

/-- The others are as they were. -/
theorem object?_reclaim {h : Heap} {r x : Handle} (hr : h.isLive r) (o : Object) (hx : x ≠ r) :
    (h.reclaim r o).object? x = h.object? x := by
  have ha := alike_dropParents r o.edges (h.vacate r)
  rw [reclaim, ha.object?, Heap.object?, lookup?_vacate hr, if_neg hx, Heap.object?]

theorem recorded_reclaim {h : Heap} {r c : Handle} (hr : h.isLive r) (o : Object) (hc : c ≠ r) (p : Handle) :
    (h.reclaim r o).recorded p c = if p = r ∧ c ∈ o.edges then 0 else h.recorded p c := by
  unfold recorded
  rw [lookup?_reclaim hr, if_neg hc]
  by_cases hm : c ∈ o.edges
  · cases h.lookup? c with
    | none => simp
    | some e => simp [hm, forgets, Parents.count_erase, eq_comm]
  · simp [hm]

/-- Reclaiming one more object. Its edges go with it, for they are recorded only with the objects it holds. -/
theorem Swept.reclaim {h h₁ : Heap} (hg : h.EdgeGraph) {gone : List Handle} (hs : h.Swept gone h₁) {r : Handle}
    {o : Object} (ho₁ : h₁.object? r = some o) : h.Swept (r :: gone) (h₁.reclaim r o) := by
  have hl : h₁.isLive r := isLive_of_object? ho₁
  have ho : h.object? r = some o := by
    rw [hs.object?] at ho₁
    split at ho₁
    · cases ho₁
    · exact ho₁
  have ha := alike_dropParents r o.edges (h₁.vacate r)
  refine ⟨fun x => ?_, fun x hx => ?_, fun p c hc => ?_, ha.reflections.trans hs.reflections,
    fun hd => ha.orderly ((hs.orderly hd).vacate hl)⟩
  · by_cases hx : x = r
    · rw [Heap.object?, lookup?_reclaim hl, if_pos hx, if_pos (hx ▸ List.mem_cons_self)]
      rfl
    · rw [object?_reclaim hl o hx, hs.object?]
      simp [hx]
  · obtain ⟨hne, hx⟩ := not_or.1 (mt List.mem_cons.2 hx)
    rw [Heap.reclaim, ha.rootCount, Heap.rootCount, lookup?_vacate hl, if_neg hne]
    exact hs.rootCount x hx
  · obtain ⟨hne, hc⟩ := not_or.1 (mt List.mem_cons.2 hc)
    rw [recorded_reclaim hl o hne, hs.recorded p c hc]
    by_cases hp : p = r
    · subst hp
      by_cases hm : c ∈ o.edges
      · simp [hm]
      · have hzero : h.recorded p c = 0 := by
          rw [hg.recorded_eq, held_of_object? ho, List.count_eq_zero.2 hm]
        simp [hzero]
    · simp [hp]

/-- Objects that are taken one after another are still live when it is their turn. -/
theorem reclaim_induction {P : List Handle → Heap → Prop}
    (hreclaim : ∀ {gone h r o}, h.object? r = some o → P gone h → P (r :: gone) (h.reclaim r o)) {gone : List Handle}
    {h : Heap} {dead : List (Handle × Object)} (hn : (dead.map Prod.fst).Nodup)
    (hlive : ∀ r o, (r, o) ∈ dead → h.object? r = some o) (hstart : P gone h) :
    P ((dead.map Prod.fst).reverse ++ gone) (dead.foldl (fun h (r, o) => h.reclaim r o) h) := by
  induction dead generalizing gone h with
  | nil => exact hstart
  | cons d rest ih =>
      obtain ⟨r, o⟩ := d
      obtain ⟨hnot, hn⟩ := List.nodup_cons.1 hn
      have ho := hlive r o List.mem_cons_self
      have hrest := ih hn (fun x o' hx => ?_) (hreclaim ho hstart)
      · simpa using hrest
      · have hne : x ≠ r := by
          rintro rfl
          exact hnot (List.mem_map.2 ⟨(x, o'), hx, rfl⟩)
        rw [object?_reclaim (isLive_of_object? ho) o hne]
        exact hlive x o' (List.mem_cons_of_mem _ hx)

/-- The hook is called with the objects of the classes that have one, in the order in which they go. -/
theorem sweep_eq (registry : Registry) (h : Heap) (dead : List (Handle × Object)) : h.sweep registry dead =
    ((dead.filter fun d => hasDeleteHook registry d.2).toArray, dead.foldl (fun h (r, o) => h.reclaim r o) h) := by
  suffices hfold : ∀ deleted h, dead.foldl
      (fun (x : Array (Handle × Object) × Heap) (d : Handle × Object) =>
        (if hasDeleteHook registry d.2 then x.1.push d else x.1, x.2.reclaim d.1 d.2)) (deleted, h) =
      (deleted ++ (dead.filter fun d => hasDeleteHook registry d.2).toArray,
        dead.foldl (fun h (r, o) => h.reclaim r o) h) by
    exact (hfold #[] h).trans (by rw [Array.empty_append])
  induction dead with
  | nil => simp
  | cons d rest ih =>
      intro deleted h
      rw [List.foldl_cons, ih, List.foldl_cons, List.filter_cons]
      split
      · simp
      · rfl

/-! ## Collecting -/

theorem mem_unmarked {h : Heap} {marks : Array Bool} {r : Handle} {o : Object} :
    (r, o) ∈ h.unmarked marks ↔ h.object? r = some o ∧ ¬ Marked marks r := by
  simp only [unmarked, List.mem_filterMap, mem_handles, Marked]
  constructor
  · rintro ⟨x, _, hx⟩
    split at hx
    · cases hx
    · rename_i hm
      obtain ⟨o', ho', heq⟩ := Option.map_eq_some_iff.1 hx
      cases heq
      exact ⟨ho', hm⟩
  · rintro ⟨ho, hm⟩
    exact ⟨r, isLive_of_object? ho, by simp [hm, ho]⟩

theorem fst_unmarked (h : Heap) (marks : Array Bool) :
    (h.unmarked marks).map Prod.fst = h.handles.filter fun r => !marks.getD r.index false := by
  have hlive : ∀ r ∈ h.handles, h.isLive r := fun r => mem_handles.1
  unfold unmarked
  generalize h.handles = rs at hlive
  induction rs with
  | nil => rfl
  | cons r rest ih =>
      obtain ⟨o, ho⟩ := isLive_iff.1 (hlive r List.mem_cons_self)
      have hrest := ih fun x hx => hlive x (List.mem_cons_of_mem _ hx)
      rw [List.filterMap_cons, List.filter_cons]
      cases marks.getD r.index false with
      | false => simpa [ho] using hrest
      | true => simpa using hrest

theorem nodup_unmarked (h : Heap) (marks : Array Bool) : ((h.unmarked marks).map Prod.fst).Nodup := by
  rw [fst_unmarked]
  exact h.nodup_handles.filter _

/-- The objects that a collection takes. -/
def dead (h : Heap) (provider : RootProvider) : List (Handle × Object) := h.unmarked (h.trace provider)

theorem mem_dead {h : Heap} {provider : RootProvider} {r : Handle} {o : Object} :
    (r, o) ∈ h.dead provider ↔ h.object? r = some o ∧ ¬ Marked (h.trace provider) r :=
  mem_unmarked

theorem nodup_dead (h : Heap) (provider : RootProvider) : ((h.dead provider).map Prod.fst).Nodup :=
  nodup_unmarked h _

theorem collect_eq (h : Heap) (registry : Registry) (provider : RootProvider) : h.collect registry provider =
    ({ count := (h.dead provider).length
       deleted := ((h.dead provider).filter fun d => hasDeleteHook registry d.2).toArray },
      ((h.dead provider).foldl (fun h (r, o) => h.reclaim r o) h).finishCollection (h.dead provider).length) := by
  rw [collect, sweep_eq]
  rfl

theorem object?_finishCollection (h : Heap) (n : Nat) (x : Handle) : (h.finishCollection n).object? x = h.object? x := rfl

theorem alike_finishCollection (h : Heap) (n : Nat) : h.Alike (h.finishCollection n) := alike_of_slots_eq rfl rfl rfl

theorem EdgeGraph.finishCollection {h : Heap} (hg : h.EdgeGraph) (n : Nat) : (h.finishCollection n).EdgeGraph :=
  ⟨hg.counted, hg.live⟩

/-- Nothing that is left was held by an object that is gone. -/
theorem Swept.edgeGraph {h h' : Heap} (hg : h.EdgeGraph) {gone : List Handle} (hs : h.Swept gone h')
    (hclosed : ∀ r o, h.object? r = some o → r ∉ gone → ∀ c ∈ o.edges, c ∉ gone) : h'.EdgeGraph := by
  refine edgeGraph_of_recorded fun p c => ?_
  have hheld : h'.held p c = if p ∈ gone then 0 else h.held p c := by
    simp only [held, hs.object?]
    split <;> rfl
  by_cases hc : c ∈ gone
  · have hdead : ¬ h'.isLive c := object?_eq_none.1 (by rw [hs.object?, if_pos hc])
    rw [recorded_eq_zero hdead, hheld]
    split
    · rfl
    · rename_i hp
      cases ho : h.object? p with
      | none => simp [held, ho]
      | some o =>
          have hnot : c ∉ o.edges := fun hm => hclosed p o ho hp c hm hc
          rw [held_of_object? ho, List.count_eq_zero.2 hnot]
  · rw [hs.recorded p c hc, hheld, hg.recorded_eq]

/-- A collection takes one object after another, each of them live, and then it closes the books. -/
theorem collect_induction {h : Heap} {P : List Handle → Heap → Prop} (hstart : P [] h)
    (hreclaim : ∀ {gone h r o}, h.object? r = some o → P gone h → P (r :: gone) (h.reclaim r o)) (registry : Registry)
    (provider : RootProvider) :
    ∃ h', P ((h.dead provider).map Prod.fst).reverse h' ∧
      (h.collect registry provider).2 = h'.finishCollection (h.dead provider).length := by
  have hdone := reclaim_induction hreclaim (nodup_dead h provider) (fun r o hm => (mem_dead.1 hm).1) hstart
  rw [List.append_nil] at hdone
  exact ⟨_, hdone, by rw [collect_eq]⟩

/-- A heap after a collection that has kept some of its objects. -/
structure Collected (h : Heap) (kept : Handle → Prop) (h' : Heap) : Prop where
  object? : ∀ r o, h'.object? r = some o ↔ h.object? r = some o ∧ kept r
  rootCount : ∀ r, kept r → h'.rootCount r = h.rootCount r
  edges : h'.EdgeGraph
  reflections : h'.reflections = h.reflections
  orderly : h.Orderly → h'.Orderly

theorem collected_collect {h : Heap} (hg : h.EdgeGraph) (registry : Registry) (provider : RootProvider) :
    h.Collected (Marked (h.trace provider)) (h.collect registry provider).2 := by
  obtain ⟨h', hs, hdone⟩ := collect_induction (Swept.refl h) (fun ho hs => hs.reclaim hg ho) registry provider
  have hgone : ∀ r, r ∈ ((h.dead provider).map Prod.fst).reverse ↔ h.isLive r ∧ ¬ Marked (h.trace provider) r := by
    intro r
    simp [mem_dead, isLive_iff]
  generalize ((h.dead provider).map Prod.fst).reverse = gone at hs hgone
  rw [hdone]
  have hkept : ∀ r, Marked (h.trace provider) r → r ∉ gone := fun r hr hm => ((hgone r).1 hm).2 hr
  refine ⟨fun r o => ?_, fun r hr => hs.rootCount r (hkept r hr), ?_, hs.reflections,
    fun hd => (alike_finishCollection h' _).orderly (hs.orderly hd)⟩
  · rw [object?_finishCollection, hs.object?]
    by_cases hr : Marked (h.trace provider) r
    · simp [hkept r hr, hr]
    · by_cases hl : h.isLive r
      · simp [(hgone r).2 ⟨hl, hr⟩, hr]
      · simp [hr, object?_eq_none.2 hl]
  · refine (hs.edgeGraph hg fun r o ho hr c hc => hkept c ?_).finishCollection _
    have hm : Marked (h.trace provider) r := Classical.byContradiction fun hn => hr ((hgone r).2 ⟨isLive_of_object? ho, hn⟩)
    exact marked_of_edge hm ho hc (hg.live r o ho c hc)

/-- Of handles that name no object it does not matter whether they are kept. -/
theorem Collected.of_iff {h h' : Heap} {kept kept' : Handle → Prop} (hc : h.Collected kept h')
    (hk : ∀ r, h.isLive r → (kept r ↔ kept' r)) : h.Collected kept' h' := by
  have hobject : ∀ r o, h'.object? r = some o ↔ h.object? r = some o ∧ kept' r := fun r o =>
    (hc.object? r o).trans (and_congr_right fun ho => hk r (isLive_of_object? ho))
  refine ⟨hobject, fun r hr => ?_, hc.edges, hc.reflections, hc.orderly⟩
  by_cases hl : h.isLive r
  · exact hc.rootCount r ((hk r hl).2 hr)
  · have hdead : ¬ h'.isLive r := by
      rw [isLive_iff]
      rintro ⟨o, ho⟩
      exact hl (isLive_of_object? ((hobject r o).1 ho).1)
    rw [rootCount_eq_zero (object?_eq_none.2 hl), rootCount_eq_zero (object?_eq_none.2 hdead)]

end Spool.Heap
