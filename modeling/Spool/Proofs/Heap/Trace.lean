import Spool.Heap.Collect
import Spool.Proofs.Heap.Edges

/-!
# What tracing reaches

The worklist holds what has been found and not been looked at. Every handle that is taken from it is dead, or marked, or it
is marked now and what is one step away is put on the list instead; so in the end the marks are closed. What is kept alive
from outside the heap is asked for on the way. Whoever is asked may leave out what has been given before: that has been put
on the list already.
-/

namespace Spool

/-- What is kept alive from outside the heap, and what is so through an object. -/
structure Roots where
  values : List Value
  behind : External → List Value

namespace Heap

variable {h : Heap} {roots : Roots} {provider : RootProvider} {marks : Array Bool} {r c : Handle} {o : Object}
  {ws rest : List Handle}

/-- The objects one step away from an object. -/
def successors (roots : Roots) (o : Object) : List Handle :=
  o.edges ++ match o.payload.external? with
    | some x => Value.handles (roots.behind x)
    | none => []

/-- What a collection keeps: objects with roots, those held from outside, and what is a step away from a live
object that is kept. -/
inductive Reached (h : Heap) (roots : Roots) : Handle → Prop where
  | rooted {r : Handle} : 0 < h.rootCount r → Reached h roots r
  | root {r : Handle} : .object r ∈ roots.values → Reached h roots r
  | next {r c : Handle} {o : Object} : Reached h roots r → h.object? r = some o → c ∈ successors roots o →
      Reached h roots c

def Marked (marks : Array Bool) (r : Handle) : Prop := marks.getD r.index false = true

/-! ## The worklist -/

theorem marked_of_nextUnmarked?_none (hn : h.nextUnmarked? marks ws = none) (hr : r ∈ ws) (hl : h.isLive r) :
    Marked marks r := by
  induction ws with
  | nil => cases hr
  | cons x rest ih =>
      rw [nextUnmarked?] at hn
      cases hx : h.object? x with
      | none =>
          rw [hx] at hn
          rcases List.mem_cons.1 hr with rfl | hr
          · exact absurd hl (object?_eq_none.1 hx)
          · exact ih hn hr
      | some o =>
          rw [hx] at hn
          dsimp only at hn
          split at hn
          · rename_i hm
            rcases List.mem_cons.1 hr with rfl | hr
            · exact hm
            · exact ih hn hr
          · cases hn

/-- What is taken from the worklist, and what remains. -/
structure Takes (h : Heap) (marks : Array Bool) (ws : List Handle) (r : Handle) (o : Object) (rest : List Handle) : Prop where
  object? : h.object? r = some o
  unmarked : ¬ Marked marks r
  mem : r ∈ ws
  subset : ∀ x ∈ rest, x ∈ ws
  settled : ∀ x ∈ ws, h.isLive x → Marked marks x ∨ x = r ∨ x ∈ rest

theorem takes_of_nextUnmarked? (hn : h.nextUnmarked? marks ws = some (r, o, rest)) : h.Takes marks ws r o rest := by
  induction ws with
  | nil => cases hn
  | cons x xs ih =>
      have hlater : h.Takes marks xs r o rest → (h.isLive x → Marked marks x) → h.Takes marks (x :: xs) r o rest := by
        refine fun ht hx => ⟨ht.object?, ht.unmarked, List.mem_cons_of_mem _ ht.mem,
          fun y hy => List.mem_cons_of_mem _ (ht.subset y hy), fun y hy hl => ?_⟩
        rcases List.mem_cons.1 hy with rfl | hy
        · exact .inl (hx hl)
        · exact ht.settled y hy hl
      rw [nextUnmarked?] at hn
      cases hx : h.object? x with
      | none =>
          rw [hx] at hn
          exact hlater (ih hn) fun hl => absurd hl (object?_eq_none.1 hx)
      | some o' =>
          rw [hx] at hn
          dsimp only at hn
          split at hn
          · rename_i hm
            exact hlater (ih hn) fun _ => hm
          · rename_i hm
            cases hn
            refine ⟨hx, hm, List.mem_cons_self, fun y hy => List.mem_cons_of_mem _ hy, fun y hy _ => ?_⟩
            exact (List.mem_cons.1 hy).elim (fun h => .inr (.inl h)) fun h => .inr (.inr h)

theorem Takes.lt_size (ht : h.Takes marks ws r o rest) (hs : marks.size = h.slots.size) : r.index < marks.size :=
  hs ▸ index_lt_of_isLive (isLive_of_object? ht.object?)

theorem mem_found {found : List Value} : c ∈ (o.edges ++ Value.handles found).reverse ++ rest ↔
    c ∈ o.edges ∨ .object c ∈ found ∨ c ∈ rest := by
  rw [List.mem_append, List.mem_reverse, List.mem_append, Value.mem_handles, or_assoc]

theorem mem_successors_iff : c ∈ successors roots o ↔
    c ∈ o.edges ∨ ∃ x, o.payload.external? = some x ∧ .object c ∈ roots.behind x := by
  unfold successors
  rw [List.mem_append]
  cases o.payload.external? with
  | none => simp
  | some x => simp [Value.mem_handles]

end Heap

/-! ## Providers -/

namespace RootProvider

/-- The provider gives at least what is kept alive, in time: what it does not give it has given before. -/
structure Gives (provider : RootProvider) (roots : Roots) (inv : provider.State → Prop)
    (known : provider.State → Handle → Prop) : Prop where
  start : inv (provider.roots provider.start).2
  values : ∀ r, .object r ∈ roots.values → .object r ∈ (provider.roots provider.start).1
  values_known : ∀ r, known (provider.roots provider.start).2 r → .object r ∈ (provider.roots provider.start).1
  step : ∀ x s, inv s → inv (provider.behind x s).2
  behind : ∀ x s r, inv s → .object r ∈ roots.behind x → .object r ∈ (provider.behind x s).1 ∨ known s r
  behind_known : ∀ x s r, inv s → known (provider.behind x s).2 r → .object r ∈ (provider.behind x s).1 ∨ known s r

/-- The provider gives nothing but what is kept alive. -/
structure Only (provider : RootProvider) (roots : Roots) : Prop where
  values : ∀ r, .object r ∈ (provider.roots provider.start).1 → .object r ∈ roots.values
  behind : ∀ x s r, .object r ∈ (provider.behind x s).1 → .object r ∈ roots.behind x

/-- Nobody need give anything. -/
theorem gives_nothing (provider : RootProvider) :
    provider.Gives ⟨[], fun _ => []⟩ (fun _ => True) fun _ _ => False where
  start := trivial
  values _ hr := absurd hr List.not_mem_nil
  values_known _ hr := hr.elim
  step _ _ _ := trivial
  behind _ _ _ _ hr := absurd hr List.not_mem_nil
  behind_known _ _ _ _ hr := hr.elim

end RootProvider

namespace Heap

variable {h : Heap} {roots : Roots} {provider : RootProvider} {inv : provider.State → Prop}
  {known : provider.State → Handle → Prop} {state : provider.State} {marks : Array Bool} {fuel : Nat} {r c : Handle}
  {o : Object} {ws rest : List Handle}

/-! ## All that is reached is marked -/

/-- All that the marks still lack is reached through the worklist. -/
structure Tracing (h : Heap) (roots : Roots) (inv : provider.State → Prop) (known : provider.State → Handle → Prop)
    (state : provider.State) (marks : Array Bool) (ws : List Handle) : Prop where
  size : marks.size = h.slots.size
  inv : inv state
  begun : ∀ r, h.isLive r → 0 < h.rootCount r ∨ .object r ∈ roots.values → Marked marks r ∨ r ∈ ws
  given : ∀ r, h.isLive r → known state r → Marked marks r ∨ r ∈ ws
  closed : ∀ r o, h.object? r = some o → Marked marks r → ∀ c ∈ successors roots o, h.isLive c → Marked marks c ∨ c ∈ ws

theorem mem_rootHandles : r ∈ h.rootHandles ↔ 0 < h.rootCount r := by
  rw [rootHandles, List.mem_filter, mem_handles, isRooted_iff]
  exact and_iff_right_of_imp isLive_of_rootCount

theorem not_marked_replicate (n : Nat) (r : Handle) : ¬ Marked (Array.replicate n false) r := by
  rw [Marked, Marks.getD_replicate]
  exact Bool.false_ne_true

theorem mem_worklist {values : List Value} : r ∈ (h.rootHandles ++ Value.handles values).reverse ↔
    0 < h.rootCount r ∨ .object r ∈ values := by
  rw [List.mem_reverse, List.mem_append, mem_rootHandles, Value.mem_handles]

theorem Tracing.start (hg : provider.Gives roots inv known) :
    h.Tracing roots inv known (provider.roots provider.start).2 (Array.replicate h.slots.size false)
      (h.rootHandles ++ Value.handles (provider.roots provider.start).1).reverse where
  size := Array.size_replicate
  inv := hg.start
  begun r _ hr := .inr (mem_worklist.2 (hr.imp id (hg.values r)))
  given r _ hr := .inr (mem_worklist.2 (.inr (hg.values_known r hr)))
  closed r _ _ hm := absurd hm (not_marked_replicate _ r)

/-- What an object keeps alive outside is given, or it has been. -/
theorem outside_gives (hg : provider.Gives roots inv known) (hs : inv state) (o : Object) :
    inv (outside provider o state).2 ∧
      (∀ c ∈ successors roots o, c ∈ o.edges ∨ .object c ∈ (outside provider o state).1 ∨ known state c) ∧
      ∀ c, known (outside provider o state).2 c → .object c ∈ (outside provider o state).1 ∨ known state c := by
  unfold outside
  cases hx : o.payload.external? with
  | none =>
      refine ⟨hs, fun c hc => ?_, fun c hc => .inr hc⟩
      rcases mem_successors_iff.1 hc with hc | ⟨x, hsome, _⟩
      · exact .inl hc
      · cases hx.symm.trans hsome
  | some x =>
      refine ⟨hg.step x state hs, fun c hc => ?_, fun c hc => hg.behind_known x state c hs hc⟩
      rcases mem_successors_iff.1 hc with hc | ⟨y, hsome, hc⟩
      · exact .inl hc
      · cases hx.symm.trans hsome
        exact .inr (hg.behind x state c hs hc)

/-- One object is marked, and what is a step away from it comes to the worklist. -/
theorem Tracing.step (hg : provider.Gives roots inv known) (ht : h.Tracing roots inv known state marks ws)
    (htakes : h.Takes marks ws r o rest) :
    h.Tracing roots inv known (outside provider o state).2 (marks.setIfInBounds r.index true)
      ((o.edges ++ Value.handles (outside provider o state).1).reverse ++ rest) := by
  obtain ⟨hinv, hgives, hknown⟩ := outside_gives hg ht.inv o
  have hlt := htakes.lt_size ht.size
  have hmark : ∀ x, Marked marks x ∨ x ∈ ws → h.isLive x → Marked (marks.setIfInBounds r.index true) x ∨
      x ∈ (o.edges ++ Value.handles (outside provider o state).1).reverse ++ rest := by
    rintro x (hx | hx) hl
    · exact .inl (Marks.getD_set_of_marked _ hx)
    · rcases htakes.settled x hx hl with hx | rfl | hx
      · exact .inl (Marks.getD_set_of_marked _ hx)
      · exact .inl ((Marks.getD_set hlt).2 (.inl rfl))
      · exact .inr (mem_found.2 (.inr (.inr hx)))
  refine ⟨by simpa using ht.size, hinv, fun x hl hx => hmark x (ht.begun x hl hx) hl, fun x hl hx => ?_,
    fun x o' hx hm c hc hl => ?_⟩
  · rcases hknown x hx with hx | hx
    · exact .inr (mem_found.2 (.inr (.inl hx)))
    · exact hmark x (ht.given x hl hx) hl
  · rcases (Marks.getD_set hlt).1 hm with hi | hm
    · obtain rfl := eq_of_index_eq (isLive_of_object? hx) (isLive_of_object? htakes.object?) hi
      cases htakes.object?.symm.trans hx
      rcases hgives c hc with hc | hc | hc
      · exact .inr (mem_found.2 (.inl hc))
      · exact .inr (mem_found.2 (.inr (.inl hc)))
      · exact hmark c (ht.given c hl hc) hl
    · exact hmark c (ht.closed x o' hx hm c hc hl) hl

/-- When nothing new is on the worklist, it may as well be empty. -/
theorem Tracing.finish (ht : h.Tracing roots inv known state marks ws) (hn : h.nextUnmarked? marks ws = none) :
    h.Tracing roots inv known state marks [] := by
  have hmark : ∀ x, Marked marks x ∨ x ∈ ws → h.isLive x → Marked marks x ∨ x ∈ ([] : List Handle) :=
    fun x hx hl => .inl (hx.elim id fun hx => marked_of_nextUnmarked?_none hn hx hl)
  exact ⟨ht.size, ht.inv, fun x hl hx => hmark x (ht.begun x hl hx) hl, fun x hl hx => hmark x (ht.given x hl hx) hl,
    fun x o hx hm c hc hl => hmark c (ht.closed x o hx hm c hc hl) hl⟩

/-- Each step uses up one object without a mark, so the fuel lasts. -/
theorem Tracing.traceFrom (hg : provider.Gives roots inv known) (ht : h.Tracing roots inv known state marks ws)
    (hf : marks.count false < fuel) :
    ∃ state', h.Tracing roots inv known state' (h.traceFrom provider fuel state marks ws) [] := by
  induction fuel generalizing state marks ws with
  | zero => omega
  | succ fuel ih =>
      rw [Heap.traceFrom]
      cases hn : h.nextUnmarked? marks ws with
      | none => exact ⟨state, ht.finish hn⟩
      | some taken =>
          obtain ⟨r, o, rest⟩ := taken
          have htakes := takes_of_nextUnmarked? hn
          have hcount := Marks.count_set (htakes.lt_size ht.size) htakes.unmarked
          exact ih (ht.step hg htakes) (by omega)

/-- In the end the worklist is empty. -/
theorem tracing_trace (h : Heap) (hg : provider.Gives roots inv known) :
    ∃ state, h.Tracing roots inv known state (h.trace provider) [] :=
  (Tracing.start hg).traceFrom hg (by simp)

theorem marked_of_reached (hg : provider.Gives roots inv known) (hr : h.Reached roots r) (hl : h.isLive r) :
    Marked (h.trace provider) r := by
  obtain ⟨state, ht⟩ := tracing_trace h hg
  induction hr with
  | rooted hc => simpa using ht.begun _ hl (.inl hc)
  | root hv => simpa using ht.begun _ hl (.inr hv)
  | next _ ho hc ih => simpa using ht.closed _ _ ho (ih (isLive_of_object? ho)) _ hc hl

/-! ## Nothing else is marked -/

theorem outside_only (ho : provider.Only roots) (hc : .object c ∈ (outside provider o state).1) :
    c ∈ successors roots o := by
  unfold outside at hc
  cases hx : o.payload.external? with
  | none =>
      rw [hx] at hc
      exact absurd hc List.not_mem_nil
  | some x =>
      rw [hx] at hc
      exact mem_successors_iff.2 (.inr ⟨x, hx, ho.behind x state c hc⟩)

theorem reached_of_marked_traceFrom (ho : provider.Only roots) (hsize : marks.size = h.slots.size)
    (hmarks : ∀ r, h.isLive r → Marked marks r → h.Reached roots r) (hws : ∀ r ∈ ws, h.Reached roots r) (hl : h.isLive r)
    (hm : Marked (h.traceFrom provider fuel state marks ws) r) : h.Reached roots r := by
  induction fuel generalizing state marks ws with
  | zero => exact hmarks r hl hm
  | succ fuel ih =>
      rw [Heap.traceFrom] at hm
      cases hn : h.nextUnmarked? marks ws with
      | none =>
          rw [hn] at hm
          exact hmarks r hl hm
      | some taken =>
          obtain ⟨x, o, rest⟩ := taken
          rw [hn] at hm
          have htakes := takes_of_nextUnmarked? hn
          have hx := hws x htakes.mem
          refine ih (by simpa using hsize) (fun y hy hmy => ?_) (fun y hy => ?_) hm
          · rcases (Marks.getD_set (htakes.lt_size hsize)).1 hmy with hi | hmy
            · exact eq_of_index_eq hy (isLive_of_object? htakes.object?) hi ▸ hx
            · exact hmarks y hy hmy
          · rcases mem_found.1 hy with hy | hy | hy
            · exact .next hx htakes.object? (mem_successors_iff.2 (.inl hy))
            · exact .next hx htakes.object? (outside_only ho hy)
            · exact hws y (htakes.subset y hy)

theorem reached_of_marked (ho : provider.Only roots) (hl : h.isLive r) (hm : Marked (h.trace provider) r) :
    h.Reached roots r := by
  refine reached_of_marked_traceFrom ho Array.size_replicate (fun x _ hx => absurd hx (not_marked_replicate _ x))
    (fun x hx => ?_) hl hm
  rcases mem_worklist.1 hx with hx | hx
  · exact .rooted hx
  · exact .root (ho.values x hx)

/-! ## Whatever is given -/

/-- Tracing marks what has roots. -/
theorem marked_of_rooted (provider : RootProvider) (hr : 0 < h.rootCount r) : Marked (h.trace provider) r :=
  marked_of_reached provider.gives_nothing (.rooted hr) (isLive_of_rootCount hr)

/-- Tracing marks what a marked object holds. -/
theorem marked_of_edge (hm : Marked (h.trace provider) r) (ho : h.object? r = some o) (hc : c ∈ o.edges) (hl : h.isLive c) :
    Marked (h.trace provider) c := by
  obtain ⟨_, ht⟩ := tracing_trace h provider.gives_nothing
  simpa using ht.closed r o ho hm c (mem_successors_iff.2 (.inl hc)) hl

end Heap

end Spool
