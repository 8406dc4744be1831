import Spool.Proofs.Act
import Spool.Proofs.Heap.Parents
import Spool.Proofs.Heap.View

/-!
# The edge graph

Every slot that holds an object is mirrored by an edge recorded with that object. A write changes a slot first
and then puts the edges right; in between the heap owes edges. `Pending` says which, and each edge added or
dropped pays for one of them. Every operation on the heap keeps the graph, also one that fails.
-/

namespace Spool.Heap

/-- How many slots of a live parent hold the child. -/
def held (h : Heap) (parent child : Handle) : Nat :=
  ((h.object? parent).map fun o => o.edges.count child).getD 0

/-- How many edges from the parent are recorded with a live child. -/
def recorded (h : Heap) (parent child : Handle) : Nat :=
  ((h.lookup? child).map fun e => e.parents.count parent).getD 0

/-- The recorded edges are those that the slots of the live objects have, and no slot holds a dead handle. -/
structure EdgeGraph (h : Heap) : Prop where
  counted : ∀ child e, h.lookup? child = some e → ∀ parent, e.parents.count parent = h.held parent child
  live : ∀ parent o, h.object? parent = some o → ∀ child ∈ o.edges, h.isLive child

structure Sound (h : Heap) : Prop where
  edges : h.EdgeGraph
  orderly : h.Orderly

/-- Not a dead handle. -/
def Valid (h : Heap) (v : Value) : Prop := ∀ r, v = .object r → h.isLive r

/-- Some edges from `r` have still to be added, and some to be dropped. -/
def Pending (h : Heap) (r : Handle) (adds drops : List Handle) : Prop :=
  ∀ parent child,
    h.recorded parent child + (if parent = r then adds.count child else 0)
      = h.held parent child + (if parent = r then drops.count child else 0)

theorem recorded_eq_zero {h : Heap} {child : Handle} (hc : ¬ h.isLive child) (parent : Handle) :
    h.recorded parent child = 0 := by
  simp only [isLive, Bool.not_eq_true, Option.isSome_eq_false_iff, Option.isNone_iff_eq_none] at hc
  simp [recorded, hc]

theorem held_of_object? {h : Heap} {parent : Handle} {o : Object} (ho : h.object? parent = some o)
    (child : Handle) : h.held parent child = o.edges.count child := by
  simp [held, ho]

theorem EdgeGraph.recorded_eq {h : Heap} (hg : h.EdgeGraph) (parent child : Handle) :
    h.recorded parent child = h.held parent child := by
  unfold recorded
  cases hc : h.lookup? child with
  | some e => simpa using hg.counted child e hc parent
  | none =>
      simp only [Option.map_none, Option.getD_none, held]
      cases ho : h.object? parent with
      | none => rfl
      | some o =>
          have hn : child ∉ o.edges := by
            intro hm
            have := hg.live parent o ho child hm
            simp [isLive, hc] at this
          simp [List.count_eq_zero.2 hn]

theorem edgeGraph_of_recorded {h : Heap} (hr : ∀ parent child, h.recorded parent child = h.held parent child) :
    h.EdgeGraph := by
  constructor
  · intro child e he parent
    have := hr parent child
    simpa [recorded, he] using this
  · intro parent o ho child hc
    refine Decidable.byContradiction fun hd => ?_
    have h1 := hr parent child
    rw [recorded_eq_zero hd, held_of_object? ho] at h1
    exact List.count_eq_zero.1 h1.symm hc

theorem EdgeGraph.pending {h : Heap} (hg : h.EdgeGraph) (r : Handle) : h.Pending r [] [] := by
  intro parent child
  simpa using hg.recorded_eq parent child

theorem Pending.edgeGraph {h : Heap} {r : Handle} (hp : h.Pending r [] []) : h.EdgeGraph :=
  edgeGraph_of_recorded fun parent child => by simpa using hp parent child

/-! ## Views of a changed heap -/

/-- Both heaps show the same; only recorded edges differ. -/
structure Alike (h h' : Heap) : Prop where
  object? : ∀ x, h'.object? x = h.object? x
  rootCount : ∀ x, h'.rootCount x = h.rootCount x
  reflections : h'.reflections = h.reflections
  orderly : h.Orderly → h'.Orderly

/-- The second heap shows an object at a handle, and else what the first shows. -/
structure Puts (h : Heap) (r : Handle) (o : Object) (h' : Heap) : Prop where
  object? : ∀ x, h'.object? x = if x = r then some o else h.object? x
  rootCount : ∀ x, h'.rootCount x = h.rootCount x
  reflections : h'.reflections = h.reflections

theorem Alike.refl (h : Heap) : h.Alike h := ⟨fun _ => rfl, fun _ => rfl, rfl, id⟩

theorem Alike.trans {h₁ h₂ h₃ : Heap} (h : h₁.Alike h₂) (h' : h₂.Alike h₃) : h₁.Alike h₃ :=
  ⟨fun x => (h'.object? x).trans (h.object? x), fun x => (h'.rootCount x).trans (h.rootCount x),
    h'.reflections.trans h.reflections, fun ho => h'.orderly (h.orderly ho)⟩

theorem Alike.isLive {h h' : Heap} (ha : h.Alike h') (x : Handle) : h'.isLive x = h.isLive x := by
  rw [Bool.eq_iff_iff, isLive_iff, isLive_iff, ha.object? x]

theorem Alike.held {h h' : Heap} (ha : h.Alike h') (parent child : Handle) :
    h'.held parent child = h.held parent child := by
  simp [Heap.held, ha.object?]

theorem Puts.alike {h h₁ h₂ : Heap} {r : Handle} {o : Object} (hp : h.Puts r o h₁) (ha : h₁.Alike h₂) :
    h.Puts r o h₂ :=
  ⟨fun x => (ha.object? x).trans (hp.object? x), fun x => (ha.rootCount x).trans (hp.rootCount x),
    ha.reflections.trans hp.reflections⟩

theorem Puts.self {h h' : Heap} {r : Handle} {o : Object} (hp : h.Puts r o h') : h'.object? r = some o := by
  simp [hp.object?]

theorem Puts.isLive {h h' : Heap} {r : Handle} {o : Object} (hp : h.Puts r o h') {x : Handle}
    (hx : h.isLive x) : h'.isLive x := by
  rw [isLive_iff] at hx ⊢
  rw [hp.object? x]
  split
  · exact ⟨_, rfl⟩
  · exact hx

theorem Puts.trans {h₁ h₂ h₃ : Heap} {r : Handle} {o o' : Object} (h : h₁.Puts r o h₂) (h' : h₂.Puts r o' h₃) :
    h₁.Puts r o' h₃ := by
  refine ⟨fun x => ?_, fun x => (h'.rootCount x).trans (h.rootCount x), h'.reflections.trans h.reflections⟩
  rw [h'.object? x, h.object? x]
  split <;> rfl

theorem Valid.alike {h h' : Heap} (ha : h.Alike h') {v : Value} : h'.Valid v ↔ h.Valid v := by
  simp [Valid, ha.isLive]

theorem Puts.valid {h h' : Heap} {r : Handle} {o : Object} (hp : h.Puts r o h') {v : Value} (hv : h.Valid v) :
    h'.Valid v :=
  fun x hx => hp.isLive (hv x hx)

theorem valid_of_mem_values {h : Heap} (hg : h.EdgeGraph) {r : Handle} {o : Object} (ho : h.object? r = some o)
    {v : Value} (hv : v ∈ o.values) : h.Valid v := by
  rintro x rfl
  exact hg.live r o ho x (Value.mem_handles.2 hv)

theorem alike_modifyEntry {h : Heap} {r : Handle} {f : Entry → Entry} (ho : ∀ e, (f e).object = e.object)
    (hr : ∀ e, (f e).roots = e.roots) : h.Alike (h.modifyEntry r f) where
  object? := object?_modifyEntry ho
  rootCount := rootCount_modifyEntry hr
  reflections := rfl
  orderly hd :=
    ⟨hd.free_nodup, fun index hi => (hd.free_vacant index hi).modifyEntry r f,
      fun hx => hd.distinct ((object?_modifyEntry ho _).symm.trans hx)⟩

theorem lookup?_congr {h h' : Heap} (hs : h'.slots = h.slots) (x : Handle) : h'.lookup? x = h.lookup? x := by
  simp [lookup?, hs]

theorem alike_of_slots_eq {h h' : Heap} (hs : h'.slots = h.slots) (hf : h'.free = h.free)
    (hr : h'.reflections = h.reflections) : h.Alike h' where
  object? x := by simp [Heap.object?, lookup?_congr hs]
  rootCount x := by simp [Heap.rootCount, lookup?_congr hs]
  reflections := hr
  orderly hd := by
    refine ⟨hf ▸ hd.free_nodup, fun index hi => ?_, fun {r o} hx => ?_⟩
    · simpa [Vacant, hs] using hd.free_vacant index (hf ▸ hi)
    · exact hd.distinct (r := r) (by simpa [Heap.object?, lookup?_congr hs] using hx)

theorem Pending.congr {h h' : Heap} {r : Handle} {adds drops : List Handle} (hs : h'.slots = h.slots)
    (hp : h.Pending r adds drops) : h'.Pending r adds drops := by
  intro parent child
  simpa [recorded, held, Heap.object?, lookup?_congr hs] using hp parent child

/-! ## Single edges -/

theorem wp_entry {h : Heap} {r : Handle} {Q : Entry → Heap → Prop} {E : Fault → Heap → Prop} :
    (entry r).wp h Q E ↔ match h.lookup? r with | some e => Q e h | none => E .stale h := by
  simp only [entry, Act.wp_bind, Act.wp_get]
  cases h.lookup? r <;> simp

theorem wp_requireLive {h : Heap} {r : Handle} {Q : Unit → Heap → Prop} {E : Fault → Heap → Prop} :
    (requireLive r).wp h Q E ↔ if h.isLive r then Q () h else E .stale h := by
  simp only [requireLive, Act.wp_bind, Act.wp_get]
  split <;> simp_all

theorem wp_requireStorable {h : Heap} {v : Value} {Q : Unit → Heap → Prop} {E : Fault → Heap → Prop}
    (hQ : h.Valid v → Q () h) (hE : ¬ h.Valid v → E .stale h) : (requireStorable v).wp h Q E := by
  cases v with
  | object r =>
      simp only [requireStorable, wp_requireLive]
      split
      · rename_i hr
        exact hQ fun x hx => by cases hx; exact hr
      · rename_i hr
        exact hE fun hv => hr (hv r rfl)
  | none => exact hQ fun _ hx => by cases hx
  | scalar s => exact hQ fun _ hx => by cases hx

theorem recorded_modifyEntry (h : Heap) (child : Handle) (f : Entry → Entry) (p c : Handle) :
    (h.modifyEntry child f).recorded p c
      = if c = child then ((h.lookup? c).map fun e => (f e).parents.count p).getD 0 else h.recorded p c := by
  unfold recorded
  rw [lookup?_modifyEntry]
  split
  · simp [Option.map_map, Function.comp_def]
  · rfl

/-- An added edge pays for one that is owed. -/
theorem Pending.incEdge {h : Heap} {r child : Handle} {adds drops : List Handle}
    (hp : h.Pending r (child :: adds) drops) (hc : h.isLive child) :
    (Heap.incEdge r child).wp h (fun _ h' => h.Alike h' ∧ h'.Pending r adds drops) (fun _ _ => False) := by
  obtain ⟨e, he⟩ := Option.isSome_iff_exists.1 hc
  simp only [Heap.incEdge, Act.wp_bind, wp_entry, he, Act.wp_modify]
  have ha : h.Alike (h.modifyEntry child fun e => { e with parents := e.parents.add r }) :=
    alike_modifyEntry (fun _ => rfl) (fun _ => rfl)
  refine ⟨ha.trans (alike_of_slots_eq rfl rfl rfl), Pending.congr (h := h.modifyEntry child _) rfl fun p c => ?_⟩
  have hb := hp p c
  rw [ha.held, recorded_modifyEntry]
  by_cases hcc : c = child
  · subst hcc
    simp only [recorded, he, Option.map_some, Option.getD_some, ↓reduceIte, List.count_cons, Parents.count_add] at hb ⊢
    by_cases hpr : p = r
    · subst hpr
      simp at hb ⊢
      omega
    · simp [hpr, Ne.symm hpr] at hb ⊢
      omega
  · simp only [hcc, ↓reduceIte, List.count_cons_of_ne (Ne.symm hcc)] at hb ⊢
    exact hb

/-- A dropped edge pays for one that is owed; it must be there. -/
theorem Pending.decEdge {h : Heap} {r child : Handle} {adds drops : List Handle}
    (hp : h.Pending r adds (child :: drops)) (hn : child ∉ adds) :
    (Heap.decEdge r child).wp h (fun _ h' => h.Alike h' ∧ h'.Pending r adds drops) (fun _ _ => False) := by
  have hpos : 0 < h.recorded r child := by
    have := hp r child
    simp [List.count_eq_zero.2 hn] at this
    omega
  simp only [Heap.decEdge, Act.wp_bind, wp_entry]
  cases he : h.lookup? child with
  | none => simp [recorded, he] at hpos
  | some e =>
      have hcount : 0 < e.parents.count r := by simpa [recorded, he] using hpos
      obtain ⟨parents, hdrop⟩ := Parents.exists_drop? hcount
      simp only [hdrop, Act.wp_modify]
      let h' := h.modifyEntry child fun e' => { e' with parents }
      have ha : h.Alike h' := alike_modifyEntry (fun _ => rfl) (fun _ => rfl)
      have hp' : h'.Pending r adds drops := by
        intro p c
        have hb := hp p c
        rw [ha.held, recorded_modifyEntry]
        by_cases hcc : c = child
        · subst hcc
          simp only [recorded, he, Option.map_some, Option.getD_some, ↓reduceIte, List.count_cons,
            Parents.count_drop? hdrop] at hb ⊢
          by_cases hpr : p = r
          · subst hpr
            simp at hb ⊢
            omega
          · simp [hpr, Ne.symm hpr] at hb ⊢
            exact hb
        · simp only [hcc, ↓reduceIte, List.count_cons_of_ne (Ne.symm hcc)] at hb ⊢
          exact hb
      -- what is noted about a lost child is not part of the view
      split
      · exact ⟨ha.trans (alike_of_slots_eq rfl rfl rfl), hp'.congr rfl⟩
      · exact ⟨ha, hp'⟩

end Spool.Heap
