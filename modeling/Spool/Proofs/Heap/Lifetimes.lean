import Spool.Proofs.Heap.Books

/-!
# The lives of handles

A handle names one object for good. Its slot may be used again, but then for another generation, and whoever still has the
old handle is told so. Only after 4294967296 objects in one slot do the generations begin anew.
-/

namespace Spool.Heap

variable {h h' h₀ : Heap} {r x : Handle} {born gone past : List Handle} {α : Type}

/-! ## Dead handles -/

/-- Nothing can be done with the handle, and it cannot be stored. Who tries is told so, and nothing changes. -/
structure Shuts (h : Heap) (r : Handle) : Prop where
  fetch : h.fetch r = .error .stale
  classOf : h.classOf r = .error .stale
  member : ∀ name, h.member r name = .error .stale
  slotGet : ∀ index, h.slotGet r index = .error .stale
  incoming : h.incoming r = .error .stale
  setMember : ∀ name v, setMember r name v h = (.error .stale, h)
  removeMember : ∀ name, removeMember r name h = (.error .stale, h)
  replacePayload : ∀ payload, replacePayload r payload h = (.error .stale, h)
  putPayload : ∀ payload, putPayload r payload h = (.error .stale, h)
  arrayPush : ∀ v, arrayPush r v h = (.error .stale, h)
  arrayPop : arrayPop r h = (.error .stale, h)
  slotSet : ∀ index v, slotSet r index v h = (.error .stale, h)
  root : root r h = (.error .stale, h)
  unroot : unroot r h = (.error .stale, h)
  setReflection : ∀ key, setReflection key r h = (.error .stale, h)
  stored : ∀ target name, Heap.setMember target name (.object r) h = (.error .stale, h)
  pushed : ∀ target, Heap.arrayPush target (.object r) h = (.error .stale, h)
  placed : ∀ target index, Heap.slotSet target index (.object r) h = (.error .stale, h)
  carried : ∀ target payload, .object r ∈ payload.values → Heap.replacePayload target payload h = (.error .stale, h)

/-- The action fails for a stale handle, and nothing changes. -/
def Stales (act : Act Heap α) (h : Heap) : Prop := act.wp h (fun _ _ => False) fun e h' => e = .stale ∧ h' = h

theorem Stales.eq {act : Act Heap α} (hs : Stales act h) : act h = (.error .stale, h) := by
  unfold Stales Act.wp at hs
  split at hs
  · exact hs.elim
  · rename_i heq
    obtain ⟨rfl, rfl⟩ := hs
    exact heq

theorem shuts_of_dead (hr : ¬ h.isLive r) : h.Shuts r := by
  have hnone : h.lookup? r = none := Option.not_isSome_iff_eq_none.1 hr
  have hfetch : h.fetch r = .error .stale := by
    rw [Heap.fetch, object?, hnone]
    rfl
  have hslot : ∀ index, h.slotGet r index = .error .stale := fun index => by
    unfold Heap.slotGet
    rw [hfetch]
    rfl
  -- whatever comes before the target is looked at can only fail for the same reason
  have hentry : ∀ {α : Type} (k : Entry → Act Heap α), Stales (entry r >>= k) h := fun k => by
    unfold Stales
    rw [Act.wp_bind, wp_entry, hnone]
    exact ⟨rfl, rfl⟩
  have hstorable : ∀ {α : Type} (v : Value) (k : Unit → Act Heap α), Stales (k ()) h →
      Stales (requireStorable v >>= k) h := fun v k hk => by
    unfold Stales
    rw [Act.wp_bind]
    exact wp_requireStorable (fun _ => hk) fun _ => ⟨rfl, rfl⟩
  have hstored : ∀ {α : Type} (k : Unit → Act Heap α), Stales (requireStorable (.object r) >>= k) h := fun k => by
    unfold Stales
    rw [Act.wp_bind]
    exact wp_requireStorable (fun hv => absurd (hv r rfl) hr) fun _ => ⟨rfl, rfl⟩
  have hreplace : ∀ target payload, (target = r ∨ .object r ∈ payload.values) →
      Stales (Heap.replacePayload target payload) h := by
    intro target payload hdead
    unfold Stales Heap.replacePayload
    rw [Act.wp_bind]
    refine wp_requireAll (fun hall => ?_) fun _ => ⟨rfl, rfl⟩
    rcases hdead with rfl | hmem
    · exact hentry _
    · exact absurd (hall r (Value.mem_handles.2 hmem)) hr
  refine
    { fetch := hfetch
      classOf := by rw [Heap.classOf, hfetch]; rfl
      member := fun name => by rw [Heap.member, hfetch]; rfl
      slotGet := hslot
      incoming := by rw [Heap.incoming, hnone]
      setMember := fun name v => (hstorable v _ (hentry _)).eq
      removeMember := fun name => (hentry _).eq
      replacePayload := fun payload => (hreplace r payload (.inl rfl)).eq
      putPayload := fun payload => (hentry _).eq
      arrayPush := fun v => (hstorable v _ (hentry _)).eq
      arrayPop := (hentry _).eq
      slotSet := fun index v => (hstorable v _ ?_).eq
      root := (hentry _).eq
      unroot := (hentry _).eq
      setReflection := fun key => ?_
      stored := fun target name => (hstored _).eq
      pushed := fun target => (hstored _).eq
      placed := fun target index => (hstored _).eq
      carried := fun target payload hmem => (hreplace target payload (.inr hmem)).eq }
  · unfold Stales
    rw [Act.wp_bind, Act.wp_mk_getThe, hslot]
    exact ⟨rfl, rfl⟩
  · refine Stales.eq ?_
    unfold Stales Heap.setReflection
    rw [Act.wp_bind]
    exact Act.wp_mono (hentry _) (fun _ _ => False.elim) fun _ _ h => h

/-! ## What comes and goes -/

/-- All handles that have been made, and those of them that have been reclaimed. The generation of a slot tells how often it has
been. -/
structure Chronicle (h : Heap) (born gone : List Handle) : Prop where
  filed : h.Filed
  generation : ∀ i g taken, h.shapes[i]? = some (g, taken) → g = (gone.map Handle.index).count i % 4294967296
  inside : ∀ r ∈ gone, r.index < h.slots.size
  live : ∀ r, h.isLive r ↔ r ∈ born ∧ r ∉ gone
  nodup : born.Nodup
  past : ∀ r ∈ gone, r ∈ born ∧ r.generation < (gone.map Handle.index).count r.index

/-- No slot has been used too often. -/
def Fresh (gone : List Handle) : Prop := ∀ i, (gone.map Handle.index).count i < 4294967296

theorem chronicle_new (settings : HeapSettings) : (Heap.new settings).Chronicle [] [] where
  filed := (booked_new settings).toFiled
  generation i g taken hi := by simp [shapes_new] at hi
  inside := by simp
  live r := by simp [isLive_iff_shape, shapes_new]
  nodup := List.nodup_nil
  past := by simp

theorem Chronicle.congr (hc : h.Chronicle born gone) (hf : h'.Filed) (hs : h'.shapes = h.shapes) :
    h'.Chronicle born gone where
  filed := hf
  generation i g taken hi := hc.generation i g taken (hs ▸ hi)
  inside r hr := by
    have hsize := congrArg Array.size hs
    rw [size_shapes, size_shapes] at hsize
    exact hsize ▸ hc.inside r hr
  live r := by rw [isLive_iff_shape, hs, ← isLive_iff_shape, hc.live]
  nodup := hc.nodup
  past := hc.past

theorem isLive_allocate (hf : h.Filed) (c : ClassId) (payload : Payload) (x : Handle) :
    (h.allocate c payload).2.isLive x ↔ x = (h.allocate c payload).1 ∨ h.isLive x := by
  rw [isLive, (lookup?_allocate_of_vacant (fun i => (hf.vacant i).1) c payload).2]
  split
  · simp [*]
  · simp [*, isLive]

/-- A new handle is one that has not been made before. -/
theorem Chronicle.not_born (hc : h.Chronicle born gone) (hfresh : Fresh gone) (c : ClassId) (payload : Payload) :
    (h.allocate c payload).1 ∉ born := by
  intro hborn
  have hdead : ¬ h.isLive (h.allocate c payload).1 :=
    Option.not_isSome_iff_eq_none.2 (lookup?_allocate_of_vacant (fun i => (hc.filed.vacant i).1) c payload).1
  have hgone : (h.allocate c payload).1 ∈ gone := by
    by_contra hnot
    exact hdead ((hc.live _).2 ⟨hborn, hnot⟩)
  obtain ⟨_, hlt⟩ := hc.past _ hgone
  cases lodges_allocate (fun i => (hc.filed.vacant i).1) c payload with
  | again rest _ _ hslot _ =>
      have hgen := hc.generation _ _ _ hslot
      rw [Nat.mod_eq_of_lt (hfresh _)] at hgen
      omega
  | anew _ _ heq _ =>
      have hin := hc.inside _ hgone
      rw [heq] at hin
      exact Nat.lt_irrefl _ hin

theorem Chronicle.allocate (hc : h.Chronicle born gone) (hfresh : Fresh gone) (c : ClassId) (payload : Payload) :
    (h.allocate c payload).2.Chronicle ((h.allocate c payload).1 :: born) gone := by
  have hnew := hc.not_born hfresh c payload
  have hlodges := lodges_allocate (fun i => (hc.filed.vacant i).1) c payload
  have hsize : h.slots.size ≤ (h.allocate c payload).2.slots.size := by
    rw [← size_shapes, ← size_shapes]
    cases hlodges with
    | again rest _ _ _ hshapes => simp [hshapes]
    | anew _ _ _ hshapes => simp [hshapes]
  refine ⟨hc.filed.allocate c payload, fun i g taken hi => ?_, fun r hr => Nat.lt_of_lt_of_le (hc.inside r hr) hsize,
    fun r => ?_, List.nodup_cons.2 ⟨hnew, hc.nodup⟩, fun r hr => ⟨List.mem_cons_of_mem _ (hc.past r hr).1, (hc.past r hr).2⟩⟩
  · cases hlodges with
    | again rest _ _ hslot hshapes =>
        rw [hshapes, Array.getElem?_setIfInBounds] at hi
        split at hi
        · rename_i heq
          subst heq
          split at hi
          · obtain ⟨rfl, rfl⟩ := Prod.mk.inj (Option.some.inj hi)
            exact hc.generation _ _ _ hslot
          · cases hi
        · exact hc.generation i g taken hi
    | anew _ _ heq hshapes =>
        rw [hshapes, Array.getElem?_push] at hi
        split at hi
        · rename_i hlast
          obtain ⟨rfl, rfl⟩ := Prod.mk.inj (Option.some.inj hi)
          have hnone : (gone.map Handle.index).count i = 0 := by
            refine List.count_eq_zero.2 fun hmem => ?_
            obtain ⟨x, hx, rfl⟩ := List.mem_map.1 hmem
            have hin := hc.inside x hx
            rw [size_shapes] at hlast
            omega
          rw [hnone]
        · exact hc.generation i g taken hi
  · rw [isLive_allocate hc.filed, hc.live, List.mem_cons]
    constructor
    · rintro (rfl | ⟨hborn, hnot⟩)
      · exact ⟨.inl rfl, fun hgone => hnew (hc.past _ hgone).1⟩
      · exact ⟨.inr hborn, hnot⟩
    · rintro ⟨rfl | hborn, hnot⟩
      · exact .inl rfl
      · exact .inr ⟨hborn, hnot⟩

theorem Chronicle.moves (hc : h.Chronicle born gone) (hfresh : Fresh gone) (hm : h.Moves h') :
    ∃ new, h'.Chronicle (new ++ born) gone := by
  induction hm with
  | refl => exact ⟨[], hc⟩
  | tail _ hstep ih =>
      obtain ⟨new, hc'⟩ := ih
      rcases hstep.still with hs | ⟨c, payload, rfl⟩
      · exact ⟨new, hc'.congr (hc'.filed.still hs) hs.shapes⟩
      · exact ⟨_ :: new, hc'.allocate hfresh c payload⟩

theorem Chronicle.reclaim (hc : h.Chronicle born gone) (hr : h.isLive r) (o : Object) :
    (h.reclaim r o).Chronicle born (r :: gone) := by
  have hslot := isLive_iff_shape.1 hr
  have hshapes := shapes_reclaim hr o
  have hsize : (h.reclaim r o).slots.size = h.slots.size := by
    rw [← size_shapes, hshapes, Array.size_setIfInBounds, size_shapes]
  refine ⟨(hc.filed.reclaim hr o).1, fun i g taken hi => ?_, fun x hx => ?_, fun x => ?_, hc.nodup, fun x hx => ?_⟩
  · rw [hshapes, Array.getElem?_setIfInBounds] at hi
    rw [List.map_cons, List.count_cons]
    split at hi
    · rename_i heq
      subst heq
      split at hi
      · obtain ⟨rfl, rfl⟩ := Prod.mk.inj (Option.some.inj hi)
        rw [hc.generation _ _ _ hslot]
        simp
      · cases hi
    · rename_i hne
      have := hc.generation i g taken hi
      simpa [hne] using this
  · rw [hsize]
    rcases List.mem_cons.1 hx with rfl | hx
    · exact index_lt_of_isLive hr
    · exact hc.inside x hx
  · have hlookup := lookup?_reclaim hr o x
    have hlive : (h.reclaim r o).isLive x ↔ x ≠ r ∧ h.isLive x := by
      rw [isLive, hlookup]
      split
      · simp [*]
      · split
        · simp [*, isLive]
        · simp [*, isLive]
    rw [hlive, hc.live, List.mem_cons, not_or]
    exact and_left_comm
  · rw [List.map_cons, List.count_cons]
    rcases List.mem_cons.1 hx with rfl | hx
    · refine ⟨((hc.live x).1 hr).1, ?_⟩
      have hgen := hc.generation _ _ _ hslot
      have := Nat.mod_le ((gone.map Handle.index).count x.index) 4294967296
      simp
      omega
    · obtain ⟨hborn, hlt⟩ := hc.past x hx
      exact ⟨hborn, by omega⟩

theorem Chronicle.collect (hc : h.Chronicle born gone) (registry : Registry) (provider : RootProvider) :
    (h.collect registry provider).2.Chronicle born (((h.dead provider).map Prod.fst).reverse ++ gone) := by
  obtain ⟨h', hc', heq⟩ := collect_induction (P := fun taken h => h.Chronicle born (taken ++ gone)) hc
    (fun ho hk => hk.reclaim (isLive_of_object? ho) _) registry provider
  rw [heq]
  exact hc'.congr (hc'.filed.finishCollection _) (shapes_finishCollection _ _)

/-! ## Handles given and handles taken -/

namespace Operation

/-- The handle that the operation gives back. -/
def gives : Operation → Heap → Option Handle
  | call (.allocate c seed), h => (Heap.create c seed.1 h).1.toOption
  | call (.newString c text), h => (Heap.create c (.text text) h).1.toOption
  | call (.newArray c seed items), h => (Heap.createWith c seed.1 (.array items) h).1.toOption
  | call (.newTuple c seed items), h => (Heap.createWith c seed.1 (.tuple items) h).1.toOption
  | _, _ => none

/-- The handles of the objects that the operation reclaims. -/
def takes : Operation → Heap → List Handle
  | call (.collect registry provider), h => h.handles.filter fun r => !(h.collect registry provider).2.isLive r
  | _, _ => []

end Operation

/-- The handles that a number of operations give back, in their order. -/
def given (h : Heap) : List Operation → List Handle
  | [] => []
  | op :: rest => (op.gives h).toList ++ (op.after h).given rest

/-- The handles of the objects that a number of operations reclaim. -/
def reclaimed (h : Heap) : List Operation → List Handle
  | [] => []
  | op :: rest => op.takes h ++ (op.after h).reclaimed rest

theorem reclaimed_append (h : Heap) (xs ys : List Operation) :
    h.reclaimed (xs ++ ys) = h.reclaimed xs ++ (h.operate xs).reclaimed ys := by
  induction xs generalizing h with
  | nil => rfl
  | cons op rest ih =>
      rw [List.cons_append, reclaimed, reclaimed, ih, List.append_assoc]
      rfl

theorem given_append (h : Heap) (xs ys : List Operation) : h.given (xs ++ ys) = h.given xs ++ (h.operate xs).given ys := by
  induction xs generalizing h with
  | nil => rfl
  | cons op rest ih =>
      rw [List.cons_append, given, given, ih, List.append_assoc]
      rfl

/-- What moves leave alive. -/
theorem isLive_moves (hf : h.Filed) (hm : h.Moves h') (hx : h.isLive x) : h'.Filed ∧ h'.isLive x := by
  induction hm with
  | refl => exact ⟨hf, hx⟩
  | tail _ hstep ih =>
      obtain ⟨hfiled, hlive⟩ := ih
      rcases hstep.still with hs | ⟨c, payload, rfl⟩
      · exact ⟨hfiled.still hs, (hs.isLive x).trans hlive⟩
      · exact ⟨hfiled.allocate c payload, (isLive_allocate hfiled c payload x).2 (.inr hlive)⟩

/-- What is given back has not been live before, and now it is. -/
theorem Operation.gives_new (hf : h.Filed) {op : Operation} (hr : op.gives h = some r) :
    ¬ h.isLive r ∧ (op.after h).isLive r := by
  have hnew : ∀ c payload, ¬ h.isLive (h.allocate c payload).1 ∧ (h.allocate c payload).2.isLive (h.allocate c payload).1 :=
    fun c payload => ⟨Option.not_isSome_iff_eq_none.2 (lookup?_allocate_of_vacant (fun i => (hf.vacant i).1) c payload).1,
      (isLive_allocate hf c payload _).2 (.inl rfl)⟩
  have hmade : ∀ {act : Act Heap Handle} {c payload},
      act.wp h (fun r h' => r = (h.allocate c payload).1 ∧ (h.allocate c payload).2.Moves h') (fun _ _ => True) →
      (act h).1.toOption = some r → ¬ h.isLive r ∧ (discard act h : Except Fault Unit × Heap).2.isLive r := by
    intro act c payload hact hr
    rcases hrun : act h with ⟨e | r', h'⟩
    · rw [hrun] at hr
      cases hr
    · rw [hrun] at hr
      cases hr
      obtain ⟨rfl, hmoves⟩ := hact.ok hrun
      obtain ⟨hdead, hlive⟩ := hnew c payload
      refine ⟨hdead, ?_⟩
      have hstate : (discard act h : Except Fault Unit × Heap).2 = h' := by
        refine Act.wp.state (P := fun h'' : Heap => h'' = h') ?_
        rw [Act.wp_discard]
        exact Act.wp_of_eq_ok hrun rfl
      rw [hstate]
      exact (isLive_moves (hf.allocate c payload) hmoves hlive).2
  have hcreate : ∀ c payload, (create c payload).wp h
      (fun r h' => r = (h.allocate c payload).1 ∧ (h.allocate c payload).2.Moves h') (fun _ _ => True) :=
    fun _ _ => ⟨rfl, .refl⟩
  have hcreateWith : ∀ c seed payload, (createWith c seed payload).wp h
      (fun r h' => r = (h.allocate c seed).1 ∧ (h.allocate c seed).2.Moves h') (fun _ _ => True) := by
    intro c seed payload
    unfold createWith
    rw [Act.wp_bind]
    refine Act.wp_mono (hcreate c seed) (fun r h₁ hdone => ?_) fun _ _ _ => trivial
    obtain ⟨rfl, hmoves⟩ := hdone
    rw [Act.wp_bind, Act.wp_discard]
    exact Act.wp_mono (Act.wp_of_preserves (moves_replacePayload _ payload) hmoves) (fun _ _ hmoves => ⟨rfl, hmoves⟩)
      fun _ _ _ => trivial
  cases op with
  | incEdge parent child => cases hr
  | decEdge parent child => cases hr
  | call c =>
      cases c with
      | allocate c seed => exact hmade (hcreate c _) hr
      | newString c text => exact hmade (hcreate c _) hr
      | newArray c seed items => exact hmade (hcreateWith c _ _) hr
      | newTuple c seed items => exact hmade (hcreateWith c _ _) hr
      | _ => cases hr

/-! ## Any run -/

theorem Chronicle.takes (hc : h.Chronicle born gone) (registry : Registry) (provider : RootProvider) :
    (h.dead provider).map Prod.fst = (Operation.call (.collect registry provider)).takes h := by
  have hdead : ∀ r, r ∈ (h.dead provider).map Prod.fst ↔ r ∈ h.handles ∧ ¬ Marked (h.trace provider) r := fun r => by
    rw [dead, fst_unmarked, List.mem_filter]
    simp [Marked]
  rw [Operation.takes, dead, fst_unmarked]
  refine List.filter_congr fun r hr => ?_
  have hlive := (hc.collect registry provider).live r
  obtain ⟨hborn, hgone⟩ := (hc.live r).1 (mem_handles.1 hr)
  rw [List.mem_append, List.mem_reverse, hdead, and_iff_right hborn, or_iff_left hgone, and_iff_right hr, not_not] at hlive
  exact congrArg _ (Bool.eq_iff_iff.2 hlive.symm)

theorem Chronicle.after (hc : h.Chronicle born gone) (op : Operation) (hfresh : Fresh gone) :
    ∃ new, (op.after h).Chronicle (new ++ born) ((op.takes h).reverse ++ gone) := by
  cases hop : op.collects with
  | false =>
      have htakes : op.takes h = [] := by
        cases op with
        | call c => cases c with
          | collect registry provider => cases hop
          | _ => rfl
        | _ => rfl
      rw [htakes]
      exact hc.moves hfresh (Operation.moves_after hop h)
  | true =>
      cases op with
      | call c => cases c with
        | collect registry provider => exact ⟨[], hc.takes registry provider ▸ hc.collect registry provider⟩
        | _ => cases hop
      | _ => cases hop

/-- The handles that are given back are new ones, and they live until they are reclaimed. -/
theorem Chronicle.operate (hc : h.Chronicle born gone) (hpast : ∀ r ∈ past, r ∈ born) (hnodup : past.Nodup)
    (ops : List Operation) (hfresh : Fresh ((h.reclaimed ops).reverse ++ gone)) :
    ∃ new, (h.operate ops).Chronicle (new ++ born) ((h.reclaimed ops).reverse ++ gone) ∧ (past ++ h.given ops).Nodup ∧
      ∀ r ∈ past ++ h.given ops, r ∈ new ++ born := by
  induction ops generalizing h born gone past with
  | nil => exact ⟨[], hc, by simpa [given] using hnodup, by simpa [given] using hpast⟩
  | cons op rest ih =>
      have hfirst : Fresh gone := fun i => by
        have := hfresh i
        rw [List.map_append, List.count_append] at this
        omega
      obtain ⟨new, hc'⟩ := hc.after op hfirst
      have hgone : (h.reclaimed (op :: rest)).reverse ++ gone =
          ((op.after h).reclaimed rest).reverse ++ ((op.takes h).reverse ++ gone) := by
        rw [reclaimed, List.reverse_append, List.append_assoc]
      have hgiven : ∀ r, op.gives h = some r → r ∉ born ∧ r ∈ new ++ born := by
        intro r hr
        obtain ⟨hdead, hlive⟩ := Operation.gives_new hc.filed hr
        obtain ⟨hmem, hnot⟩ := (hc'.live r).1 hlive
        exact ⟨fun hborn => hdead ((hc.live r).2 ⟨hborn, fun hg => hnot (List.mem_append_right _ hg)⟩), hmem⟩
      have hpast' : ∀ r ∈ past ++ (op.gives h).toList, r ∈ new ++ born := fun r hr => by
        rcases List.mem_append.1 hr with hr | hr
        · exact List.mem_append_right _ (hpast r hr)
        · exact (hgiven r (Option.mem_toList.1 hr)).2
      have hdistinct : (past ++ (op.gives h).toList).Nodup := by
        refine List.nodup_append.2 ⟨hnodup, ?_, fun a ha b hb => ?_⟩
        · cases op.gives h <;> simp
        · rintro rfl
          exact (hgiven _ (Option.mem_toList.1 hb)).1 (hpast _ ha)
      obtain ⟨new', hc'', hnodup', hmem'⟩ := ih hc' hpast' hdistinct (hgone ▸ hfresh)
      refine ⟨new' ++ new, ?_, ?_, ?_⟩
      · rw [hgone, List.append_assoc]
        exact hc''
      · rw [given, ← List.append_assoc]
        exact hnodup'
      · rw [given, ← List.append_assoc, List.append_assoc new']
        exact hmem'

/-- As long as no slot is reclaimed 4294967296 times, no handle is given back twice. Each lives from then on until the
collection that reclaims its object, and it is dead ever after: nothing can be done with it, also when its slot is used
again. -/
theorem handles_never_alias (settings : HeapSettings) (ops : List Operation)
    (hfew : ∀ i, (((Heap.new settings).reclaimed ops).map Handle.index).count i < 4294967296) :
    ((Heap.new settings).given ops).Nodup ∧
    (∀ xs ys, ops = xs ++ ys → ∀ r ∈ (Heap.new settings).given xs,
      (((Heap.new settings).operate xs).isLive r ↔ r ∉ (Heap.new settings).reclaimed xs) ∧
      (r ∈ (Heap.new settings).reclaimed xs → ¬ ((Heap.new settings).operate ops).isLive r)) ∧
    ∀ r, ¬ ((Heap.new settings).operate ops).isLive r → ((Heap.new settings).operate ops).Shuts r := by
  have hrun : ∀ xs ys, ops = xs ++ ys → ((Heap.new settings).given xs).Nodup ∧ ∀ r ∈ (Heap.new settings).given xs,
      ((Heap.new settings).operate xs).isLive r ↔ r ∉ (Heap.new settings).reclaimed xs := by
    intro xs ys hops
    have hfresh : Fresh (((Heap.new settings).reclaimed xs).reverse ++ []) := fun i => by
      have := hfew i
      rw [hops, reclaimed_append, List.map_append, List.count_append] at this
      rw [List.append_nil, List.map_reverse, List.count_reverse]
      omega
    obtain ⟨new, hc, hnodup, hmem⟩ := (chronicle_new settings).operate (List.forall_mem_nil _) List.nodup_nil xs hfresh
    refine ⟨hnodup, fun r hr => ?_⟩
    rw [hc.live, and_iff_right (hmem r hr), List.append_nil, List.mem_reverse]
  obtain ⟨hnodup, hlive⟩ := hrun ops [] (List.append_nil ops).symm
  refine ⟨hnodup, fun xs ys hops r hr => ⟨(hrun xs ys hops).2 r hr, fun hgone hl => ?_⟩, fun r => shuts_of_dead⟩
  refine (hlive r ?_).1 hl ?_
  · rw [hops, given_append]
    exact List.mem_append_left _ hr
  · rw [hops, reclaimed_append]
    exact List.mem_append_left _ hgone

/-- No roots but those that the heap counts itself. -/
def nothing : RootProvider := ⟨Unit, (), pure [], fun _ => pure []⟩

/-- A slot that is used a second time. -/
def reuse : List Operation :=
  [.call (.newString .string "first"), .call (.collect {} nothing), .call (.newString .string "second")]

theorem handles_never_alias_reuse :
    (Heap.new {}).given reuse = [⟨0, 0⟩, ⟨0, 1⟩] ∧ (Heap.new {}).reclaimed reuse = [⟨0, 0⟩] ∧
      ((Heap.new {}).operate reuse).isLive ⟨0, 1⟩ ∧ ((Heap.new {}).operate reuse).fetch ⟨0, 0⟩ = .error .stale := by
  have hgiven : (Heap.new {}).given reuse = [⟨0, 0⟩, ⟨0, 1⟩] := by decide +kernel
  have hreclaimed : (Heap.new {}).reclaimed reuse = [⟨0, 0⟩] := by decide +kernel
  obtain ⟨_, hlives, hshuts⟩ := handles_never_alias {} reuse fun i => by
    rw [hreclaimed]
    exact Nat.lt_of_le_of_lt List.count_le_length (by decide)
  refine ⟨hgiven, hreclaimed, ?_, (hshuts ⟨0, 0⟩ ?_).fetch⟩
  · refine ((hlives reuse [] (by simp) ⟨0, 1⟩ (by rw [hgiven]; decide)).1).2 ?_
    rw [hreclaimed]
    decide
  · exact (hlives reuse [] (by simp) ⟨0, 0⟩ (by rw [hgiven]; decide)).2 (by rw [hreclaimed]; decide)

end Spool.Heap
