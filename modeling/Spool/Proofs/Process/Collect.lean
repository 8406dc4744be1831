import Mathlib.Data.Set.Card
import Spool.Process.Basic
import Spool.Proofs.Heap.Calls

/-!
# What a process keeps alive

The collector of a process sees the heap, the contexts around each other, and the tasks behind futures. It keeps
what can be reached through all of these, and it takes everything else.
-/

namespace Spool.Process

variable {p : Process}

/-! ## Chains of contexts -/

/-- The second context is the first or lies around it. -/
inductive Encloses (p : Process) : ContextId → ContextId → Prop where
  | self (c : ContextId) : Encloses p c c
  | around {c d x : ContextId} : (p.contextAt c).previous = some d → Encloses p d x → Encloses p c x

/-- The contexts from one to another that lies around it. -/
inductive Path (p : Process) : ContextId → List ContextId → ContextId → Prop where
  | stop (c : ContextId) : Path p c [c] c
  | out {c d x : ContextId} {l : List ContextId} : (p.contextAt c).previous = some d → Path p d l x →
      Path p c (c :: l) x

theorem Path.suffix {c d x : ContextId} {l : List ContextId} (hp : p.Path d l x) (hc : c ∈ l) :
    ∃ l', l'.Sublist l ∧ p.Path c l' x := by
  induction hp with
  | stop d =>
      obtain rfl := List.mem_singleton.1 hc
      exact ⟨_, .refl _, .stop _⟩
  | @out d e x l he hl ih =>
      rcases List.mem_cons.1 hc with rfl | hc
      · exact ⟨_, .refl _, .out he hl⟩
      · obtain ⟨l', hs, hp'⟩ := ih hc
        exact ⟨l', hs.cons d, hp'⟩

theorem Path.mem {c x : ContextId} {l : List ContextId} (hp : p.Path c l x) : c ∈ l := by
  cases hp <;> exact List.mem_cons_self

/-- A chain may run in a circle; the shortest way to a context does not. -/
theorem Encloses.path {c x : ContextId} (he : p.Encloses c x) : ∃ l, l.Nodup ∧ p.Path c l x := by
  induction he with
  | self c => exact ⟨[c], by simp, .stop c⟩
  | @around c d x hd _ ih =>
      obtain ⟨l, hn, hl⟩ := ih
      by_cases hc : c ∈ l
      · obtain ⟨l', hs, hl'⟩ := hl.suffix hc
        exact ⟨l', hn.sublist hs, hl'⟩
      · exact ⟨c :: l, List.nodup_cons.2 ⟨hc, hn⟩, .out hd hl⟩

theorem contextAt_eq_default {c : ContextId} (hc : p.contexts.size ≤ c.index) : p.contextAt c = default := by
  simp [contextAt, Array.getD_eq_getD_getElem?, hc]

/-- Only a context of the table has a handler. -/
theorem index_lt_of_handler {c : ContextId} {position : Nat} (h : (p.contextAt c).handler = some position) :
    c.index < p.contexts.size := by
  refine Nat.lt_of_not_le fun hle => ?_
  rw [contextAt_eq_default hle] at h
  cases h

/-- Only a context of the table has another around it. -/
theorem index_lt_of_previous {c d : ContextId} (h : (p.contextAt c).previous = some d) : c.index < p.contexts.size := by
  refine Nat.lt_of_not_le fun hle => ?_
  rw [contextAt_eq_default hle] at h
  cases h

theorem Path.index_lt {c x : ContextId} {l : List ContextId} (hp : p.Path c l x) (hx : x.index < p.contexts.size) :
    ∀ d ∈ l, d.index < p.contexts.size := by
  induction hp with
  | stop c => simpa using hx
  | @out c d x l hd _ ih =>
      intro e he
      rcases List.mem_cons.1 he with rfl | he
      · exact index_lt_of_previous hd
      · exact ih hx e he

theorem Path.mem_chainFrom {c x : ContextId} {l : List ContextId} (hp : p.Path c l x) {fuel : Nat}
    (hf : l.length ≤ fuel) : x ∈ p.chainFrom fuel c := by
  induction hp generalizing fuel with
  | stop c =>
      cases fuel with
      | zero => simp at hf
      | succ fuel =>
          unfold chainFrom
          split <;> simp
  | out hd _ ih =>
      cases fuel with
      | zero => simp at hf
      | succ fuel =>
          simp only [chainFrom, hd]
          exact List.mem_cons_of_mem _ (ih (by simpa using hf))

theorem encloses_of_mem_chainFrom {fuel : Nat} {c x : ContextId} (hx : x ∈ p.chainFrom fuel c) : p.Encloses c x := by
  induction fuel generalizing c with
  | zero => simp [chainFrom] at hx
  | succ fuel ih =>
      unfold chainFrom at hx
      split at hx
      · rename_i d hd
        rcases List.mem_cons.1 hx with rfl | hx
        · exact .self x
        · exact .around hd (ih hx)
      · rw [List.mem_singleton.1 hx]
        exact .self c

/-- No more contexts can lie around each other than there are. -/
theorem Encloses.mem_chain {c x : ContextId} (he : p.Encloses c x) (hx : x.index < p.contexts.size) :
    x ∈ p.chain c := by
  obtain ⟨l, hn, hl⟩ := he.path
  refine hl.mem_chainFrom ?_
  have hinj : (l.map ContextId.index).Nodup := by
    refine hn.map fun a b hab => ?_
    cases a
    cases b
    simp_all
  have hsub : l.map ContextId.index ⊆ List.range p.contexts.size := by
    intro i hi
    obtain ⟨d, hd, rfl⟩ := List.mem_map.1 hi
    exact List.mem_range.2 (hl.index_lt hx d hd)
  simpa using hinj.length_le_of_subset hsub

theorem Encloses.index_lt {c x : ContextId} (he : p.Encloses c x) (hx : x.index < p.contexts.size) :
    c.index < p.contexts.size := by
  obtain ⟨l, -, hl⟩ := he.path
  exact hl.index_lt hx c hl.mem

/-! ## What is kept alive from outside the heap -/

/-- What is in a context and in those around it. -/
def chainValues (p : Process) (c : ContextId) : List Value := (p.chain c).flatMap fun d => (p.contextAt d).values

/-- What an unfinished task keeps alive. -/
def taskValues (p : Process) (t : Task) : List Value :=
  if t.state.isFinished then [] else t.values ++ t.contexts.flatMap p.chainValues

/-- What the process keeps alive, however often it has been asked. -/
def roots (p : Process) : Roots where
  values := p.exitValue.toList ++ p.entryResult ++ p.tasks.toList.flatMap p.taskValues
  behind
    | .context c => p.chainValues c
    | .task t => p.tasks[t.index]?.toList.map Task.register

/-- Contexts that are not there hold no object. -/
theorem index_lt_of_mem_values {c : ContextId} {r : Handle} (hr : .object r ∈ (p.contextAt c).values) :
    c.index < p.contexts.size := by
  refine Nat.lt_of_not_le fun hle => ?_
  rw [contextAt_eq_default hle] at hr
  have hempty : (default : Context).values = [.none] := rfl
  simp [hempty] at hr

theorem mem_chainValues {c : ContextId} {r : Handle} :
    .object r ∈ p.chainValues c ↔ ∃ d, p.Encloses c d ∧ .object r ∈ (p.contextAt d).values := by
  simp only [chainValues, List.mem_flatMap]
  constructor
  · rintro ⟨d, hd, hr⟩
    exact ⟨d, encloses_of_mem_chainFrom hd, hr⟩
  · rintro ⟨d, hd, hr⟩
    exact ⟨d, hd.mem_chain (index_lt_of_mem_values hr), hr⟩

/-! ## Reachability -/

/-- What a process keeps alive. -/
inductive Reaches (p : Process) : Handle → Prop where
  | rooted {r : Handle} : 0 < p.heap.rootCount r → Reaches p r
  | exit {r : Handle} : p.exitValue = some (.object r) → Reaches p r
  /-- The result of the entry task. -/
  | entry {t : TaskId} {task : Task} {r : Handle} : p.entryTask = some t → p.tasks[t.index]? = some task →
      task.register = .object r → Reaches p r
  /-- The register and the stack of an unfinished task. -/
  | task {task : Task} {r : Handle} : task ∈ p.tasks → ¬ task.state.isFinished → .object r ∈ task.values →
      Reaches p r
  | context {task : Task} {c d : ContextId} {r : Handle} : task ∈ p.tasks → ¬ task.state.isFinished →
      c ∈ task.contexts → p.Encloses c d → .object r ∈ (p.contextAt d).values → Reaches p r
  /-- A member, an item or a receiver. -/
  | held {r x : Handle} {o : Object} : Reaches p r → p.heap.object? r = some o → .object x ∈ o.values → Reaches p x
  /-- What is in the contexts that a function reference closes over. -/
  | captured {r x : Handle} {o : Object} {b : BoundFunction} {c d : ContextId} : Reaches p r →
      p.heap.object? r = some o → o.payload = .bound b → b.capture = some c → p.Encloses c d →
      .object x ∈ (p.contextAt d).values → Reaches p x
  /-- The result behind a future that has not taken it over. -/
  | awaited {r x : Handle} {o : Object} {cell : FutureCell} {task : Task} : Reaches p r →
      p.heap.object? r = some o → o.payload = .future cell → cell.memoized = false →
      p.tasks[cell.task.index]? = some task → task.register = .object x → Reaches p x

theorem mem_entryResult {v : Value} :
    v ∈ p.entryResult ↔ ∃ t task, p.entryTask = some t ∧ p.tasks[t.index]? = some task ∧ task.register = v := by
  simp only [entryResult, List.mem_map, Option.mem_toList, Option.bind_eq_some_iff]
  constructor
  · rintro ⟨task, ⟨t, he, ht⟩, hv⟩
    exact ⟨t, task, he, ht, hv⟩
  · rintro ⟨t, task, he, ht, hv⟩
    exact ⟨task, ⟨t, he, ht⟩, hv⟩

theorem mem_taskValues {task : Task} {r : Handle} :
    .object r ∈ p.taskValues task ↔ ¬ task.state.isFinished ∧
      (.object r ∈ task.values ∨
        ∃ c ∈ task.contexts, ∃ d, p.Encloses c d ∧ .object r ∈ (p.contextAt d).values) := by
  unfold taskValues
  split
  · rename_i hf
    simp [hf]
  · rename_i hf
    rw [List.mem_append, List.mem_flatMap]
    simp [hf, mem_chainValues]

theorem mem_roots {r : Handle} :
    .object r ∈ p.roots.values ↔ p.exitValue = some (.object r) ∨
      (∃ t task, p.entryTask = some t ∧ p.tasks[t.index]? = some task ∧ task.register = .object r) ∨
      ∃ task ∈ p.tasks, .object r ∈ p.taskValues task := by
  simp only [roots, List.mem_append, Option.mem_toList, mem_entryResult, List.mem_flatMap, Array.mem_toList_iff,
    or_assoc]

theorem mem_successors {o : Object} {x : Handle} :
    x ∈ Heap.successors p.roots o ↔ .object x ∈ o.values ∨
      (∃ b c d, o.payload = .bound b ∧ b.capture = some c ∧ p.Encloses c d ∧ .object x ∈ (p.contextAt d).values) ∨
      ∃ cell task, o.payload = .future cell ∧ cell.memoized = false ∧ p.tasks[cell.task.index]? = some task ∧
        task.register = .object x := by
  simp only [Heap.successors, Object.edges, List.mem_append, Value.mem_handles]
  refine or_congr_right ?_
  cases hp : o.payload with
  | bound b =>
      cases hc : b.capture with
      | none => simp [Payload.external?, hc]
      | some c =>
          simp [Payload.external?, hc, Value.mem_handles, roots, mem_chainValues]
  | future cell =>
      cases hm : cell.memoized with
      | true => simp [Payload.external?, hm]
      | false => simp [Payload.external?, hm, Value.mem_handles, roots]
  | _ => simp [Payload.external?]

theorem reached_iff {r : Handle} : p.heap.Reached p.roots r ↔ p.Reaches r := by
  constructor
  · intro hr
    induction hr with
    | rooted hc => exact .rooted hc
    | root hv =>
        rcases mem_roots.1 hv with he | ⟨t, task, he, ht, hreg⟩ | ⟨task, ht, hv⟩
        · exact .exit he
        · exact .entry he ht hreg
        · obtain ⟨hf, hv | ⟨c, hc, d, hd, hv⟩⟩ := mem_taskValues.1 hv
          · exact .task ht hf hv
          · exact .context ht hf hc hd hv
    | next _ ho hx ih =>
        rcases mem_successors.1 hx with hv | ⟨b, c, d, hp, hc, hd, hv⟩ | ⟨cell, task, hp, hm, ht, hreg⟩
        · exact .held ih ho hv
        · exact .captured ih ho hp hc hd hv
        · exact .awaited ih ho hp hm ht hreg
  · intro hr
    induction hr with
    | rooted hc => exact .rooted hc
    | exit he => exact .root (mem_roots.2 (.inl he))
    | entry he ht hreg => exact .root (mem_roots.2 (.inr (.inl ⟨_, _, he, ht, hreg⟩)))
    | task ht hf hv => exact .root (mem_roots.2 (.inr (.inr ⟨_, ht, mem_taskValues.2 ⟨hf, .inl hv⟩⟩)))
    | context ht hf hc hd hv =>
        exact .root (mem_roots.2 (.inr (.inr ⟨_, ht, mem_taskValues.2 ⟨hf, .inr ⟨_, hc, _, hd, hv⟩⟩⟩)))
    | held _ ho hv ih => exact .next ih ho (mem_successors.2 (.inl hv))
    | captured _ ho hp hc hd hv ih => exact .next ih ho (mem_successors.2 (.inr (.inl ⟨_, _, _, hp, hc, hd, hv⟩)))
    | awaited _ ho hp hm ht hreg ih =>
        exact .next ih ho (mem_successors.2 (.inr (.inr ⟨_, _, hp, hm, ht, hreg⟩)))

/-! ## Walking the contexts -/

/-- The context has been visited. -/
def Seen (visited : Array Bool) (c : ContextId) : Prop := visited.getD c.index false = true

/-- With a visited context the one around it has been visited, unless a walk stands before it. -/
def ShutBut (p : Process) (visited : Array Bool) (next : Option ContextId) : Prop :=
  ∀ c d, Seen visited c → (p.contextAt c).previous = some d → d.index < p.contexts.size → Seen visited d ∨ next = some d

/-- With a visited context those around it have been visited. -/
structure Shut (p : Process) (visited : Array Bool) : Prop where
  size : visited.size = p.contexts.size
  around : p.ShutBut visited none

variable {visited visited' visited'' : Array Bool} {cs cs' : List ContextId} {found found' : List Value}
  {c d : ContextId} {v : Value}

theorem Shut.start (p : Process) : p.Shut (Array.replicate p.contexts.size false) where
  size := Array.size_replicate
  around c _ hc := by
    rw [Seen, Marks.getD_replicate] at hc
    cases hc

/-- Whoever lies around a visited context has been visited. -/
theorem Shut.encloses (hv : p.Shut visited) (hc : Seen visited c) (he : p.Encloses c d) (hd : d.index < p.contexts.size) :
    Seen visited d := by
  induction he with
  | self c => exact hc
  | @around c e d he hrest ih =>
      exact ih ((hv.around c e hc he (hrest.index_lt hd)).resolve_right (by simp)) hd

/-- What a walk from some contexts on has done: all that it has come to has been given now or visited before. -/
structure Walk (p : Process) (visited : Array Bool) (cs : List ContextId) (found : List Value) (visited' : Array Bool) :
    Prop where
  shut : p.Shut visited'
  kept : ∀ c, Seen visited c → Seen visited' c
  start : ∀ c ∈ cs, c.index < p.contexts.size → Seen visited' c
  given : ∀ c, Seen visited' c → Seen visited c ∨ ∀ v ∈ (p.contextAt c).values, v ∈ found

theorem Walk.nil (hv : p.Shut visited) : p.Walk visited [] [] visited :=
  ⟨hv, fun _ hc => hc, fun _ hc => absurd hc List.not_mem_nil, fun _ => .inl⟩

theorem Walk.append (hw : p.Walk visited cs found visited') (hw' : p.Walk visited' cs' found' visited'') :
    p.Walk visited (cs ++ cs') (found ++ found') visited'' where
  shut := hw'.shut
  kept c hc := hw'.kept c (hw.kept c hc)
  start c hc hin := by
    rcases List.mem_append.1 hc with hc | hc
    · exact hw'.kept c (hw.start c hc hin)
    · exact hw'.start c hc hin
  given c hc := by
    rcases hw'.given c hc with hc | hall
    · exact (hw.given c hc).imp_right fun hall v hv => List.mem_append_left _ (hall v hv)
    · exact .inr fun v hv => List.mem_append_right _ (hall v hv)

/-- From fewer contexts on, and more given. -/
theorem Walk.mono (hw : p.Walk visited cs found visited') (hcs : ∀ c ∈ cs', c ∈ cs) (hfound : ∀ v ∈ found, v ∈ found') :
    p.Walk visited cs' found' visited' :=
  ⟨hw.shut, hw.kept, fun c hc => hw.start c (hcs c hc),
    fun c hc => (hw.given c hc).imp_right fun hall v hv => hfound v (hall v hv)⟩

theorem seen_set (hd : Seen (visited.setIfInBounds c.index true) d) : d = c ∨ Seen visited d := by
  by_cases hin : c.index < visited.size
  · exact ((Marks.getD_set hin).1 hd).imp_left fun hi => by cases c; cases d; simp_all
  · rw [Seen, Array.setIfInBounds, dif_neg hin] at hd
    exact .inr hd

theorem visitFrom_succ (p : Process) (fuel : Nat) (c : ContextId) (visited : Array Bool) :
    p.visitFrom (fuel + 1) c visited =
      if visited.getD c.index false then ([], visited)
      else match (p.contextAt c).previous with
        | some d => ((p.contextAt c).values ++ (p.visitFrom fuel d (visited.setIfInBounds c.index true)).1,
            (p.visitFrom fuel d (visited.setIfInBounds c.index true)).2)
        | none => ((p.contextAt c).values, visited.setIfInBounds c.index true) := by
  rw [visitFrom]
  change (if visited.getD c.index false then _ else _ : StateM (Array Bool) (List Value)) visited = _
  split
  · rfl
  · cases (p.contextAt c).previous <;> rfl

theorem visitFrom_of_seen {fuel : Nat} (hc : Seen visited c) : p.visitFrom (fuel + 1) c visited = ([], visited) := by
  rw [visitFrom_succ]
  exact if_pos hc

theorem visitFrom_outermost {fuel : Nat} (hc : ¬ Seen visited c) (hp : (p.contextAt c).previous = none) :
    p.visitFrom (fuel + 1) c visited = ((p.contextAt c).values, visited.setIfInBounds c.index true) := by
  rw [visitFrom_succ, hp]
  exact if_neg hc

theorem visitFrom_inner {fuel : Nat} (hc : ¬ Seen visited c) (hp : (p.contextAt c).previous = some d) :
    p.visitFrom (fuel + 1) c visited =
      ((p.contextAt c).values ++ (p.visitFrom fuel d (visited.setIfInBounds c.index true)).1,
        (p.visitFrom fuel d (visited.setIfInBounds c.index true)).2) := by
  rw [visitFrom_succ, hp]
  exact if_neg hc

/-- A walk stops where one has been before: whatever lies further out has been visited then. -/
theorem walk_visitFrom {fuel : Nat} (hsize : visited.size = p.contexts.size) (hb : p.ShutBut visited (some c))
    (hf : visited.count false < fuel) :
    p.Walk visited [c] (p.visitFrom fuel c visited).1 (p.visitFrom fuel c visited).2 := by
  induction fuel generalizing c visited with
  | zero => omega
  | succ fuel ih =>
      by_cases hc : Seen visited c
      · rw [visitFrom_of_seen hc]
        refine ⟨⟨hsize, fun x y hx hy hin => ?_⟩, fun _ hx => hx, fun x hx _ => ?_, fun _ => .inl⟩
        · rcases hb x y hx hy hin with hy | hy
          · exact .inl hy
          · cases hy
            exact .inl hc
        · exact List.mem_singleton.1 hx ▸ hc
      have hset : ∀ x, Seen visited x → Seen (visited.setIfInBounds c.index true) x := fun x hx =>
        Marks.getD_set_of_marked _ hx
      have hself : c.index < p.contexts.size → Seen (visited.setIfInBounds c.index true) c := fun hin =>
        (Marks.getD_set (hsize ▸ hin)).2 (.inl rfl)
      have hsize' : (visited.setIfInBounds c.index true).size = p.contexts.size := by simpa using hsize
      -- now the walk stands before the context around this one
      have hnext : p.ShutBut (visited.setIfInBounds c.index true) (p.contextAt c).previous := by
        intro x y hx hy hin
        rcases seen_set hx with rfl | hx
        · exact .inr hy
        · rcases hb x y hx hy hin with hy | hy
          · exact .inl (hset y hy)
          · cases hy
            exact .inl (hself hin)
      cases hp : (p.contextAt c).previous with
      | none =>
          rw [visitFrom_outermost hc hp]
          refine ⟨⟨hsize', hp ▸ hnext⟩, hset, fun x hx hin => ?_, fun x hx => ?_⟩
          · obtain rfl := List.mem_singleton.1 hx
            exact hself hin
          · rcases seen_set hx with rfl | hx
            · exact .inr fun v hv => hv
            · exact .inl hx
      | some d =>
          rw [visitFrom_inner hc hp]
          have hcount := Marks.count_set (hsize ▸ index_lt_of_previous hp) hc
          have hw := ih hsize' (hp ▸ hnext) (by omega)
          refine ⟨hw.shut, fun x hx => hw.kept x (hset x hx), fun x hx hin => ?_, fun x hx => ?_⟩
          · obtain rfl := List.mem_singleton.1 hx
            exact hw.kept x (hself hin)
          · rcases hw.given x hx with hx | hall
            · rcases seen_set hx with rfl | hx
              · exact .inr fun v hv => List.mem_append_left _ hv
              · exact .inl hx
            · exact .inr fun v hv => List.mem_append_right _ (hall v hv)

theorem walk_visitChain (hv : p.Shut visited) (c : ContextId) :
    p.Walk visited [c] (p.visitChain c visited).1 (p.visitChain c visited).2 := by
  refine walk_visitFrom hv.size (fun x y hx hy hin => .inl ((hv.around x y hx hy hin).resolve_right (by simp))) ?_
  have hle : visited.count false ≤ visited.size := Array.count_le_size
  rw [hv.size] at hle
  omega

/-- What is given has been in the contexts. -/
theorem mem_visitFrom {fuel : Nat} (hv : v ∈ (p.visitFrom fuel c visited).1) :
    ∃ d, p.Encloses c d ∧ v ∈ (p.contextAt d).values := by
  induction fuel generalizing c visited with
  | zero => cases hv
  | succ fuel ih =>
      by_cases hc : Seen visited c
      · rw [visitFrom_of_seen hc] at hv
        cases hv
      cases hp : (p.contextAt c).previous with
      | none =>
          rw [visitFrom_outermost hc hp] at hv
          exact ⟨c, .self c, hv⟩
      | some d =>
          rw [visitFrom_inner hc hp] at hv
          rcases List.mem_append.1 hv with hv | hv
          · exact ⟨c, .self c, hv⟩
          · obtain ⟨x, hx, hv⟩ := ih hv
            exact ⟨x, .around hp hx, hv⟩

/-! ## Walking from many contexts -/

section

variable {α : Type} {f : α → StateM (Array Bool) (List Value)} {g : α → List ContextId} {as : List α}

theorem mapM_cons_apply {σ β : Type} (f : α → StateM σ β) (a : α) (as : List α) (s : σ) :
    (a :: as).mapM f s = ((f a s).1 :: (as.mapM f (f a s).2).1, (as.mapM f (f a s).2).2) := by
  rw [List.mapM_cons]
  rfl

/-- One walk after another is a walk. -/
theorem walk_mapM (hf : ∀ a visited, p.Shut visited → p.Walk visited (g a) (f a visited).1 (f a visited).2)
    (hv : p.Shut visited) (as : List α) :
    p.Walk visited (as.flatMap g) (as.mapM f visited).1.flatten (as.mapM f visited).2 := by
  induction as generalizing visited with
  | nil => exact .nil hv
  | cons a rest ih =>
      have hw := hf a visited hv
      rw [mapM_cons_apply]
      exact hw.append (ih hw.shut)

theorem mem_mapM (hv : v ∈ (as.mapM f visited).1.flatten) : ∃ a ∈ as, ∃ visited', v ∈ (f a visited').1 := by
  induction as generalizing visited with
  | nil => cases hv
  | cons a rest ih =>
      rw [mapM_cons_apply, List.flatten_cons] at hv
      rcases List.mem_append.1 hv with hv | hv
      · exact ⟨a, List.mem_cons_self, visited, hv⟩
      · obtain ⟨b, hb, visited', hv⟩ := ih hv
        exact ⟨b, List.mem_cons_of_mem _ hb, visited', hv⟩

theorem mem_mapM_of_forall {a : α} (ha : a ∈ as) (hv : ∀ visited, v ∈ (f a visited).1) :
    v ∈ (as.mapM f visited).1.flatten := by
  induction as generalizing visited with
  | nil => cases ha
  | cons b rest ih =>
      rw [mapM_cons_apply, List.flatten_cons]
      rcases List.mem_cons.1 ha with rfl | ha
      · exact List.mem_append_left _ (hv visited)
      · exact List.mem_append_right _ (ih ha)

end

theorem visitTask_of_finished {t : Task} (ht : t.state.isFinished) : p.visitTask t visited = ([], visited) := by
  rw [visitTask, if_pos ht]
  rfl

theorem visitTask_of_unfinished {t : Task} (ht : ¬ t.state.isFinished) : p.visitTask t visited =
    (t.values ++ (t.contexts.reverse.mapM p.visitChain visited).1.flatten,
      (t.contexts.reverse.mapM p.visitChain visited).2) := by
  rw [visitTask, if_neg ht]
  rfl

/-- The contexts of an unfinished task. -/
def startsOf (t : Task) : List ContextId := if t.state.isFinished then [] else t.contexts

theorem walk_visitTask (hv : p.Shut visited) (t : Task) :
    p.Walk visited (startsOf t) (p.visitTask t visited).1 (p.visitTask t visited).2 := by
  unfold startsOf
  split
  · rename_i ht
    rw [visitTask_of_finished ht]
    exact .nil hv
  · rename_i ht
    rw [visitTask_of_unfinished ht]
    have hw := walk_mapM (g := fun c => [c]) (fun c _ hv => walk_visitChain hv c) hv t.contexts.reverse
    exact hw.mono (fun c hc => by simpa using hc) fun v hv => List.mem_append_right _ hv

theorem mem_visitTask {t : Task} (hv : v ∈ (p.visitTask t visited).1) : ¬ t.state.isFinished ∧
    (v ∈ t.values ∨ ∃ c ∈ t.contexts, ∃ d, p.Encloses c d ∧ v ∈ (p.contextAt d).values) := by
  by_cases ht : t.state.isFinished
  · rw [visitTask_of_finished ht] at hv
    cases hv
  · rw [visitTask_of_unfinished ht] at hv
    refine ⟨ht, (List.mem_append.1 hv).imp_right fun hv => ?_⟩
    obtain ⟨c, hc, _, hv⟩ := mem_mapM hv
    exact ⟨c, List.mem_reverse.1 hc, mem_visitFrom hv⟩

/-! ## The roots that are given -/

/-- In a visited context there is the object. -/
def Known (p : Process) (visited : Array Bool) (r : Handle) : Prop :=
  ∃ c, Seen visited c ∧ .object r ∈ (p.contextAt c).values

theorem mem_chainValues_of_walk {r : Handle} (hw : p.Walk visited [c] found visited') (hr : .object r ∈ p.chainValues c) :
    .object r ∈ found ∨ p.Known visited r := by
  obtain ⟨d, hd, hr⟩ := mem_chainValues.1 hr
  have hin := index_lt_of_mem_values hr
  have hseen := hw.shut.encloses (hw.start c List.mem_cons_self (hd.index_lt hin)) hd hin
  rcases hw.given d hseen with hd | hall
  · exact .inr ⟨d, hd, hr⟩
  · exact .inl (hall _ hr)

theorem walk_tasks (p : Process) : p.Walk (Array.replicate p.contexts.size false) (p.tasks.toList.flatMap startsOf)
    (p.coreRoots.roots p.coreRoots.start).1 (p.coreRoots.roots p.coreRoots.start).2 :=
  (walk_mapM (fun t _ hv => walk_visitTask hv t) (Shut.start p) p.tasks.toList).mono (fun _ hc => hc)
    fun _ hv => List.mem_append_right _ hv

/-- Nothing had been visited before. -/
theorem given_at_start (hc : Seen (p.coreRoots.roots p.coreRoots.start).2 c) :
    ∀ v ∈ (p.contextAt c).values, v ∈ (p.coreRoots.roots p.coreRoots.start).1 := by
  refine (p.walk_tasks.given c hc).resolve_left fun hseen => ?_
  rw [Seen, Marks.getD_replicate] at hseen
  cases hseen

/-- No context is given twice in one collection, and none is left out. -/
theorem coreRoots_gives (p : Process) : p.coreRoots.Gives p.roots p.Shut p.Known where
  start := p.walk_tasks.shut
  values r hr := by
    rcases mem_roots.1 hr with he | he | ⟨t, ht, hr⟩
    · exact List.mem_append_left _ (List.mem_append_left _ (by rw [he]; exact List.mem_singleton_self _))
    · exact List.mem_append_left _ (List.mem_append_right _ (mem_entryResult.2 he))
    · obtain ⟨hf, hr | ⟨c, hc, d, hd, hr⟩⟩ := mem_taskValues.1 hr
      · refine List.mem_append_right _ (mem_mapM_of_forall (Array.mem_toList_iff.2 ht) fun visited => ?_)
        rw [visitTask_of_unfinished hf]
        exact List.mem_append_left _ hr
      · have hin := index_lt_of_mem_values hr
        have hstart : c ∈ p.tasks.toList.flatMap startsOf :=
          List.mem_flatMap.2 ⟨t, Array.mem_toList_iff.2 ht, by rwa [startsOf, if_neg hf]⟩
        have hseen := p.walk_tasks.start c hstart (hd.index_lt hin)
        exact given_at_start (p.walk_tasks.shut.encloses hseen hd hin) _ hr
  values_known r hr := by
    obtain ⟨c, hc, hr⟩ := hr
    exact given_at_start hc _ hr
  step x visited hv := by
    cases x with
    | context c => exact (walk_visitChain hv c).shut
    | task t => exact hv
  behind x visited r hv hr := by
    cases x with
    | context c => exact mem_chainValues_of_walk (walk_visitChain hv c) hr
    | task t => exact .inl hr
  behind_known x visited r hv hr := by
    cases x with
    | context c =>
        obtain ⟨d, hd, hr⟩ := hr
        rcases (walk_visitChain hv c).given d hd with hd | hall
        · exact .inr ⟨d, hd, hr⟩
        · exact .inl (hall _ hr)
    | task t => exact .inr hr

theorem coreRoots_only (p : Process) : p.coreRoots.Only p.roots where
  values r hr := by
    rw [mem_roots]
    rcases List.mem_append.1 hr with hr | hr
    · refine (List.mem_append.1 hr).imp (fun he => Option.mem_toList.1 he) fun he => .inl (mem_entryResult.1 he)
    · obtain ⟨t, ht, visited, hr⟩ := mem_mapM hr
      exact .inr (.inr ⟨t, Array.mem_toList_iff.1 ht, mem_taskValues.2 (mem_visitTask hr)⟩)
  behind x visited r hr := by
    cases x with
    | context c => exact mem_chainValues.2 (mem_visitFrom hr)
    | task t => exact hr

/-! ## Collecting -/

/-- A collection keeps what the process reaches. -/
theorem marked_iff {r : Handle} (hl : p.heap.isLive r) : Heap.Marked (p.heap.trace p.coreRoots) r ↔ p.Reaches r := by
  rw [← reached_iff]
  exact ⟨Heap.reached_of_marked p.coreRoots_only hl, fun hr => Heap.marked_of_reached p.coreRoots_gives hr hl⟩

/-- The survivors of a collection are the objects that the process reaches, and the delete hook of its class is called once with
each of the others. -/
structure Collection (p : Process) (registry : Registry) (reclaimed : Reclaimed) (q : Process) : Prop where
  /-- Live afterwards are the objects that were live and are reached, each as it was. -/
  survivors : ∀ r o, q.heap.object? r = some o ↔ p.heap.object? r = some o ∧ p.Reaches r
  number : reclaimed.count = { r | p.heap.isLive r ∧ ¬ p.Reaches r }.ncard
  /-- The hook is called with the objects that go, where the class has one, and with no other. -/
  deleted : ∀ r o, (r, o) ∈ reclaimed.deleted ↔
    p.heap.object? r = some o ∧ ¬ p.Reaches r ∧ (registry.classAt o.ofClass).hooks.onDelete
  once : (reclaimed.deleted.toList.map Prod.fst).Nodup
  roots : ∀ r, p.Reaches r → q.heap.rootCount r = p.heap.rootCount r
  edges : q.heap.EdgeGraph
  reflections : q.heap.reflections = p.heap.reflections
  others : q = { p with heap := q.heap }

theorem collection_collect (p : Process) (registry : Registry) (hg : p.heap.EdgeGraph) :
    p.Collection registry (p.collect registry).1 (p.collect registry).2 := by
  have hc : p.heap.Collected p.Reaches (p.collect registry).2.heap :=
    (Heap.collected_collect hg registry p.coreRoots).of_iff fun _ hl => marked_iff hl
  have hdead : ∀ r o, (r, o) ∈ p.heap.dead p.coreRoots ↔ p.heap.object? r = some o ∧ ¬ p.Reaches r := fun r o =>
    Heap.mem_dead.trans (and_congr_right fun ho => not_congr (marked_iff (Heap.isLive_of_object? ho)))
  have hnodup := Heap.nodup_dead p.heap p.coreRoots
  have hreport : (p.collect registry).1 = (p.heap.collect registry p.coreRoots).1 := rfl
  rw [Heap.collect_eq] at hreport
  refine ⟨hc.object?, ?_, fun r o => ?_, ?_, hc.rootCount, hc.edges, hc.reflections, rfl⟩
  · have hset : { r | p.heap.isLive r ∧ ¬ p.Reaches r } = ↑((p.heap.dead p.coreRoots).map Prod.fst).toFinset := by
      ext r
      simp [hdead, Heap.isLive_iff]
    rw [hset, Set.ncard_coe_finset, List.toFinset_card_of_nodup hnodup, List.length_map, hreport]
  · rw [hreport, List.mem_toArray, List.mem_filter, hdead, and_assoc]
    rfl
  · rw [hreport]
    exact hnodup.sublist (List.filter_sublist.map _)

/-- Two classes, of which the first has a delete hook. -/
def hooked : Registry :=
  { classes := #[{ name := "File", module := ⟨0⟩, hooks := { onDelete := true } }, { name := "Point", module := ⟨0⟩ }] }

/-- A process that keeps the second of its three objects. The first holds the second, and the third is of the class without a
hook. -/
def oneKept : Process :=
  { Process.new ⟨1⟩ {} with
    heap := (Heap.new {}).run
      [.allocate ⟨0⟩ ⟨.none, Payload.edges_none⟩, .allocate ⟨0⟩ ⟨.none, Payload.edges_none⟩,
        .allocate ⟨1⟩ ⟨.none, Payload.edges_none⟩, .setMember ⟨0, 0⟩ "it" (.object ⟨1, 0⟩),
        .setMember ⟨1, 0⟩ "it" (.object ⟨0, 0⟩), .removeMember ⟨1, 0⟩ "it"]
    exitValue := some (.object ⟨1, 0⟩) }

theorem collection_oneKept :
    oneKept.heap.EdgeGraph ∧
      oneKept.Collection hooked (oneKept.collect hooked).1 (oneKept.collect hooked).2 ∧
      (oneKept.collect hooked).1.count = 2 ∧ (oneKept.collect hooked).1.deleted.toList.map Prod.fst = [⟨0, 0⟩] :=
  have hg : oneKept.heap.EdgeGraph := ((Heap.Sound.new _).run _).edges
  ⟨hg, collection_collect oneKept hooked hg, by decide, by decide⟩

end Spool.Process
