import Spool.Proofs.Heap.Meeting

/-!
# Copying is one map on the objects that are met

A copier keeps a table from source objects to target objects. Whatever it has filled is the source object with
the table applied to everything it holds; whatever it has placed and not filled is on its list. As the table only
grows, the copies made by all calls agree on one map.
-/

namespace Spool

namespace Copier

variable {source origin : Heap} {vs : List Value} {hole : List (Handle × Handle)} {c c' c₀ c₁ c₂ : Copier}

/-! ## Filling -/

theorem Copying.valid_image (hc : Copying source origin vs hole c) {v : Value} (hv : Due source vs v) :
    c.target.Valid (v.image c.image) := by
  intro t ht
  cases v with
  | object r =>
      simp only [Value.image, Copier.image] at ht
      split at ht
      · rename_i t' hw
        cases ht
        exact (hc.met r t (hv r rfl).1 hw).2
      · cases ht
  | none => cases ht
  | scalar s => cases ht

/-- Writing to an object that is being filled disturbs nothing else. -/
theorem Copying.write {r t : Handle} (hc : Copying source origin vs [(r, t)] c) {o : Object} {h' : Heap}
    (hw : c.target.Written t o h') (hx : o.payload.external? = none) :
    Copying source origin vs [(r, t)] { c with target := h' } := by
  obtain ⟨ro, hro, hrk, hrw⟩ := hc.pending r t (by simp)
  have hfresh := hc.fresh r ro t hro hrw hrk
  have hne : ∀ {x ox y}, source.object? x = some ox → ox.payload.fate = .copied → c.where? x = some y → x ≠ r →
      y ≠ t := by
    rintro x ox y hox hk hy hx rfl
    exact hx (hc.injective x r ox ro y hox hk hro hrk hy hrw)
  have hkeep : ∀ {y oy}, y ≠ t → c.target.object? y = some oy → h'.object? y = some oy := by
    intro y oy hy hoy
    rw [hw.puts.object?, if_neg hy, hoy]
  have hrefl : ∀ key, h'.reflection? key = c.target.reflection? key := by
    intro key
    simp only [Heap.reflection?, hw.puts.reflections]
  have hlive : ∀ y, h'.isLive y ↔ c.target.isLive y := by
    intro y
    refine ⟨fun hy => ?_, hw.puts.isLive⟩
    by_cases hyt : y = t
    · exact hyt ▸ (hc.met r t (Heap.isLive_of_object? hro) hrw).2
    · rw [Heap.isLive_iff, hw.puts.object?, if_neg hyt] at hy
      exact Heap.isLive_iff.2 hy
  constructor
  case size => exact hc.size
  case gains => exact hc.gains.trans (hw.gains (by simp [hx]))
  case kept =>
    refine fun x ox hox => hkeep ?_ (hc.kept x ox hox)
    rintro rfl
    exact hfresh.1 (Heap.isLive_of_object? hox)
  case rootCount => exact fun x hx => (hw.puts.rootCount x).trans (hc.rootCount x hx)
  case reflections => exact fun key x hx => (hrefl key).trans (hc.reflections key x hx)
  case singleton => exact fun key x hx => (hlive x).2 (hc.singleton key x ((hrefl key).symm.trans hx))
  case met => exact fun x y hx hy => (hc.met x y hx hy).imp_right (hlive y).2
  case staying => exact hc.staying
  case reflected => exact fun x ox y key hox hy hk => (hrefl key).trans (hc.reflected x ox y key hox hy hk)
  case fresh =>
    exact fun x ox y hox hy hk => (hc.fresh x ox y hox hy hk).imp_right fun hn key hx => hn key ((hrefl key).symm.trans hx)
  case filled =>
    intro x ox y hox hy hk
    by_cases hx : x = r
    · subst hx
      have hyt : y = t := Option.some.inj (hy.symm.trans hrw)
      exact .inl (by simp [hyt])
    · exact (hc.filled x ox y hox hy hk).imp_right (And.imp_right (hkeep (hne hox hk hy hx)))
  case injective => exact hc.injective
  case pending => exact hc.pending
  case blank =>
    intro x y ox hxy hox
    obtain ⟨ox', hox', hk, hy⟩ := hc.pending x y (by simp [hxy])
    have hx : x ≠ r := by
      rintro rfl
      have hn := hc.nodup
      simp only [List.singleton_append, List.map_cons, List.nodup_cons] at hn
      exact hn.1 (List.mem_map.2 ⟨(x, y), hxy, rfl⟩)
    exact hkeep (hne hox' hk hy hx) (hc.blank x y ox hxy hox)
  case nodup => exact hc.nodup
  case onto => exact fun x hx => hc.onto x ((hlive x).1 hx)

/-- The next object to be filled, taken off the list. -/
theorem Copying.opened (hc : Copying source origin vs [] c) {r t : Handle} {rest : List (Handle × Handle)}
    (hu : c.unfilled = (r, t) :: rest) : Copying source origin vs [(r, t)] { c with unfilled := rest } where
  size := hc.size
  gains := hc.gains
  kept := hc.kept
  rootCount := hc.rootCount
  reflections := hc.reflections
  singleton := hc.singleton
  met := hc.met
  staying := hc.staying
  reflected := hc.reflected
  fresh := hc.fresh
  filled x ox y hox hy hk := (hc.filled x ox y hox hy hk).imp_left fun hp => by simpa [hu] using hp
  injective := hc.injective
  pending x y hxy := hc.pending x y (by simpa [hu] using hxy)
  blank x y ox hxy hox := hc.blank x y ox (by simp [hu, hxy]) hox
  nodup := by simpa [hu] using hc.nodup
  onto := hc.onto

/-- An object that has got all that its source has. -/
theorem Copying.closed {r t : Handle} (hc : Copying source origin vs [(r, t)] c) {o : Object}
    (ho : source.object? r = some o) (hcov : ∀ v ∈ o.values, c.Covered source v)
    (hobj : c.target.object? t = some (o.image c.image)) : Copying source origin vs [] c where
  size := hc.size
  gains := hc.gains
  kept := hc.kept
  rootCount := hc.rootCount
  reflections := hc.reflections
  singleton := hc.singleton
  met := hc.met
  staying := hc.staying
  reflected := hc.reflected
  fresh := hc.fresh
  filled x ox y hox hy hk := by
    rcases hc.filled x ox y hox hy hk with hp | hf
    · rcases List.mem_append.1 hp with hp | hp
      · cases List.mem_singleton.1 hp
        rw [ho] at hox
        cases hox
        exact .inr ⟨hcov, hobj⟩
      · exact .inl hp
    · exact .inr hf
  injective := hc.injective
  pending x y hxy := hc.pending x y (List.mem_append_right _ hxy)
  blank := hc.blank
  nodup := (List.nodup_cons.1 hc.nodup).2
  onto := hc.onto

/-- Some members of a source object have been carried over to the object that is to be its copy. -/
structure Filling (source origin : Heap) (vs : List Value) (r t : Handle) (o : Object) (c₀ : Copier)
    (done : List (String × Value)) (c : Copier) : Prop where
  copying : Copying source origin vs [(r, t)] c
  grows : c₀.Grows c
  covered : ∀ v ∈ done.map Prod.snd, c.Covered source v
  object? : c.target.object? t = some
    { ofClass := o.ofClass, members := ⟨imageEntries c.image done⟩, payload := c₀.registry.seed o.ofClass }

theorem Filling.member {r t : Handle} {o : Object} {done rest : List (String × Value)} {name : String} {v : Value}
    (hf : Filling source origin vs r t o c₀ done c) (hd : ((done ++ (name, v) :: rest).map Prod.fst).Nodup)
    (hv : Due source vs v) :
    (mapValue source v).wp c
      (fun w c₁ => (onTarget (Heap.setMember t name w)).wp c₁
        (fun _ c' => Filling source origin vs r t o c₀ (done ++ [(name, v)]) c') (fun _ _ => False))
      (fun _ _ => False) := by
  refine Act.wp_mono (hf.copying.wp_mapValue hv) (fun w c₁ hw => ?_) (fun _ _ => id)
  have hobj := hw.adds.object? t _ hf.object?
  have hvalid : c₁.target.Valid w := hw.eq ▸ hw.copying.valid_image hv
  have hcov : ∀ u ∈ (done ++ [(name, v)]).map Prod.snd, c₁.Covered source u := by
    intro u hu
    rw [List.map_append, List.mem_append] at hu
    rcases hu with hu | hu
    · exact (hf.covered u hu).grows hw.adds.toGrows
    · rw [List.mem_singleton.1 hu]
      exact hw.covered
  have hdone : imageEntries c.image done = imageEntries c₁.image done :=
    imageEntries_congr fun u hu => (image_grows hw.copying.staying hw.adds.toGrows (hf.covered u hu)).symm
  have hname : name ∉ (imageEntries c₁.image done).map Prod.fst := by
    have hkeys : (imageEntries c₁.image done).map Prod.fst = done.map Prod.fst := by
      simp [imageEntries, List.map_map, Function.comp_def]
    rw [hkeys]
    intro hm
    rw [List.map_append, List.nodup_append] at hd
    exact hd.2.2 name hm name (by simp) rfl
  rw [wp_onTarget]
  refine Act.wp_mono (Heap.wp_setMember hw.copying.gains.sound t name w) (fun _ h' hdone => ?_) (fun _ _ he => ?_)
  · obtain ⟨_, o', ho', hwr⟩ := hdone
    rw [hobj] at ho'
    cases ho'
    refine ⟨hw.copying.write hwr (external?_seed _ _), ?_, hcov, ?_⟩
    · exact ⟨fun x y hy => hw.adds.where? x y (hf.grows.where? x y hy), Nat.le_trans hw.adds.load hf.grows.load,
        hw.adds.registry.trans hf.grows.registry⟩
    · have hput : Bindings.put name w (imageEntries c.image done) = imageEntries c₁.image (done ++ [(name, v)]) := by
        rw [hdone, Bindings.put_of_not_mem hname, hw.eq]
        simp [imageEntries]
      refine hwr.puts.self.trans ?_
      simp only [Bindings.insert, hput]
      rfl
  · exact he.2.2 ⟨Heap.isLive_of_object? hobj, hvalid⟩

theorem Copying.wp_fill {r t : Handle} (hs : source.Sound) (hc : Copying source origin vs [(r, t)] c) {o : Object}
    (ho : source.object? r = some o)
    (hblank : c.target.object? t = some { ofClass := o.ofClass, payload := c.registry.seed o.ofClass }) :
    (fill source r t).wp c (fun _ c' => Copying source origin vs [] c' ∧ c.Grows c') (fun _ _ => False) := by
  obtain ⟨o', ho', hk, hw⟩ := hc.pending r t (by simp)
  obtain rfl : o' = o := Option.some.inj (ho'.symm.trans ho)
  have hdue : ∀ v ∈ o'.values, Due source vs v := by
    rintro v hv x rfl
    exact ⟨hs.edges.live r o' ho x (Value.mem_handles.2 hv),
      .held (hc.met r t (Heap.isLive_of_object? ho) hw).1 ho hk hv⟩
  simp only [fill, ho, Act.wp_bind]
  refine Act.wp_forIn_step (I := fun rest c' => ∃ done, o'.members.entries = done ++ rest ∧
    Filling source origin vs r t o' c done c') ⟨[], rfl, hc, .refl c, by simp, hblank⟩
    (fun e rest c₁ hi => ?_) (fun c₁ hi => ?_)
  · obtain ⟨done, he, hf⟩ := hi
    have hd : ((done ++ e :: rest).map Prod.fst).Nodup := he ▸ hs.orderly.distinct ho
    have hv : Due source vs e.2 := by
      refine hdue e.2 (List.mem_append_left _ (List.mem_map.2 ⟨e, ?_, rfl⟩))
      simp [he]
    simp only [Act.wp_bind, Act.wp_pure, true_and]
    refine Act.wp_mono (hf.member hd hv) (fun w c₂ hw => ?_) (fun _ _ => id)
    exact Act.wp_mono hw (fun _ c₃ hf' => ⟨done ++ [e], by simp [he], hf'⟩) (fun _ _ => id)
  · obtain ⟨done, he, hf⟩ := hi
    obtain rfl : o'.members.entries = done := by simpa using he
    have hcp := hf.copying.wp_mapPayload (p := o'.payload) fun u hu => hdue u (List.mem_append_right _ hu)
    refine Act.wp_mono hcp (fun q c₂ hdone => ?_) (fun _ _ => id)
    obtain ⟨hc₂, ha, hcov, hq⟩ := hdone
    have hcovers : ∀ v ∈ o'.values, c₂.Covered source v := by
      intro v hv
      rcases List.mem_append.1 hv with hv | hv
      · exact (hf.covered v hv).grows ha.toGrows
      · exact hcov v hv
    have hmembers : imageEntries c₁.image o'.members.entries = imageEntries c₂.image o'.members.entries :=
      imageEntries_congr fun u hu => (image_grows hc₂.staying ha.toGrows (hf.covered u hu)).symm
    have hobj := ha.object? t _ hf.object?
    rw [wp_onTarget, Act.wp_discard]
    refine Act.wp_mono (Heap.wp_replacePayload hc₂.gains.sound t q) (fun _ h' hdone => ?_) (fun _ _ he => ?_)
    · obtain ⟨_, x, hx, _, hwr⟩ := hdone
      rw [hobj] at hx
      cases hx
      refine ⟨(hc₂.write hwr (hq ▸ Payload.external?_image (by simp [hk]))).closed ho hcovers ?_, ?_⟩
      · refine hwr.puts.self.trans ?_
        simp only [hmembers, hq]
        rfl
      · have hg := hf.grows.trans ha.toGrows
        exact ⟨hg.where?, hg.load, hg.registry⟩
    · refine he.2.2 ⟨Heap.isLive_of_object? hobj, fun v hv => ?_⟩
      rw [hq, Payload.values_image] at hv
      obtain ⟨u, hu, rfl⟩ := List.mem_map.1 hv
      exact hc₂.valid_image (hdue u (List.mem_append_right _ hu))

theorem fillAll_succ (source : Heap) (fuel : Nat) (c : Copier) : fillAll source (fuel + 1) c = (match c.unfilled with
    | [] => pure ()
    | (origin, target) :: rest => do
      modify fun c => { c with unfilled := rest }
      fill source origin target
      fillAll source fuel : Act Copier Unit) c := rfl

/-- Each round fills one object, and no source object is ever placed again. -/
theorem Copying.wp_fillAll (hs : source.Sound) (hc : Copying source origin vs [] c) {fuel : Nat} (hf : c.load ≤ fuel) :
    (fillAll source fuel).wp c (fun _ c' => Copying source origin vs [] c' ∧ c.Grows c' ∧ c'.unfilled = [])
      (fun _ _ => False) := by
  induction fuel generalizing c with
  | zero =>
      refine ⟨hc, .refl c, ?_⟩
      unfold load at hf
      exact List.eq_nil_of_length_eq_zero (by omega)
  | succ fuel ih =>
      simp only [fillAll, Act.wp_bind, Act.wp_get]
      cases hu : c.unfilled with
      | nil => exact ⟨hc, .refl c, hu⟩
      | cons next rest =>
          obtain ⟨r, t⟩ := next
          simp only [Act.wp_bind, Act.wp_modify]
          obtain ⟨o, ho, _, _⟩ := hc.pending r t (by simp [hu])
          have hblank := hc.blank r t o (by simp [hu]) ho
          refine Act.wp_mono ((hc.opened hu).wp_fill hs ho hblank) (fun _ c₁ hdone => ?_) (fun _ _ => id)
          obtain ⟨hc₁, hg₁⟩ := hdone
          have hload : ({ c with unfilled := rest } : Copier).load + 1 ≤ c.load := by
            simp only [load, hu, List.length_cons]
            omega
          have hf₁ : c₁.load ≤ fuel := by
            have := hg₁.load
            omega
          refine Act.wp_mono (ih hc₁ hf₁) (fun _ c₂ hdone => ?_) (fun _ _ => id)
          obtain ⟨hc₂, hg₂, hu₂⟩ := hdone
          refine ⟨hc₂, ⟨fun x y hy => hg₂.where? x y (hg₁.where? x y hy), ?_, hg₂.registry.trans hg₁.registry⟩, hu₂⟩
          have := hg₁.load
          have := hg₂.load
          omega

theorem Copying.wp_copy (hs : source.Sound) (hc : Copying source origin vs [] c)
    (hload : c.load ≤ source.slots.size + 1) {v : Value} (hv : Due source vs v) :
    (copy source v).wp c
      (fun w c' => Copying source origin vs [] c' ∧ c.Grows c' ∧ c'.unfilled = [] ∧ c'.Covered source v ∧
        w = v.image c'.image)
      (fun _ _ => False) := by
  simp only [copy, Act.wp_bind, Act.wp_pure]
  refine Act.wp_mono (hc.wp_mapValue hv) (fun w c₁ hw => ?_) (fun _ _ => id)
  have hload₁ : c₁.load ≤ source.slots.size + 1 := Nat.le_trans hw.adds.load hload
  refine Act.wp_mono (hw.copying.wp_fillAll hs hload₁) (fun _ c₂ hdone => ?_) (fun _ _ => id)
  obtain ⟨hc₂, hg, hu⟩ := hdone
  refine ⟨hc₂, hw.adds.toGrows.trans hg, hu, hw.covered.grows hg, ?_⟩
  rw [image_grows hc₂.staying hg hw.covered, hw.eq]

theorem Copying.wp_copies (hs : source.Sound) (hc : Copying source origin vs [] c)
    (hload : c.load ≤ source.slots.size + 1) (hu : c.unfilled = []) {us : List Value}
    (hus : ∀ u ∈ us, Due source vs u) :
    (us.mapM (copy source)).wp c
      (fun ws c' => Copying source origin vs [] c' ∧ c.Grows c' ∧ c'.unfilled = [] ∧
        (∀ u ∈ us, c'.Covered source u) ∧ ws = us.map (Value.image c'.image))
      (fun _ _ => False) := by
  induction us generalizing c with
  | nil => exact ⟨hc, .refl c, hu, by simp, rfl⟩
  | cons u rest ih =>
      simp only [List.mapM_cons, Act.wp_bind, Act.wp_pure]
      refine Act.wp_mono (hc.wp_copy hs hload (hus u (by simp))) (fun w c₁ hdone => ?_)
        (fun _ _ => id)
      obtain ⟨hc₁, hg₁, hu₁, hcov, hw⟩ := hdone
      refine Act.wp_mono (ih hc₁ (Nat.le_trans hg₁.load hload) hu₁ fun x hx => hus x (List.mem_cons_of_mem _ hx))
        (fun ws c₂ hdone => ?_) (fun _ _ => id)
      obtain ⟨hc₂, hg₂, hu₂, hcovs, hws⟩ := hdone
      refine ⟨hc₂, hg₁.trans hg₂, hu₂, fun x hx => ?_, ?_⟩
      · rcases List.mem_cons.1 hx with rfl | hx
        · exact hcov.grows hg₂
        · exact hcovs x hx
      · rw [List.map_cons, image_grows hc₂.staying hg₂ hcov, ← hw, hws]

/-! ## The whole copy -/

/-- All that is met is known to the table once nothing is left to be filled. -/
theorem Copying.covered_of_met (hc : Copying source origin vs [] c) (hu : c.unfilled = [])
    (hvs : ∀ v ∈ vs, c.Covered source v) {r : Handle} (hr : source.Met vs r) : c.Covered source (.object r) := by
  induction hr with
  | given hv => exact hvs _ hv
  | @held r x o _ ho hk hx ih =>
      rcases ih r rfl with hw | ⟨o', ho', hd⟩
      · obtain ⟨t, ht⟩ := Option.isSome_iff_exists.1 hw
        rcases hc.filled r o t ho ht hk with hp | ⟨hcov, _⟩
        · simp [hu] at hp
        · exact hcov _ hx
      · rw [ho] at ho'
        cases ho'
        rw [hk] at hd
        cases hd

theorem Copying.copied (hc : Copying source origin vs [] c) (hu : c.unfilled = [])
    (hvs : ∀ v ∈ vs, c.Covered source v) : Heap.Copied source origin vs c.image c.target := by
  have hwhere : ∀ {r o}, source.Met vs r → source.object? r = some o → o.payload.fate ≠ .dropped →
      ∃ t, c.where? r = some t := by
    intro r o hr ho hk
    rcases hc.covered_of_met hu hvs hr r rfl with hw | ⟨o', ho', hd⟩
    · exact Option.isSome_iff_exists.1 hw
    · rw [ho] at ho'
      cases ho'
      exact absurd hd hk
  constructor
  case sound => exact hc.gains.sound
  case kept => exact hc.kept
  case rootCount => exact hc.rootCount
  case reflections => exact hc.reflections
  case reflected =>
    intro r o key hr ho hk
    obtain ⟨t, ht⟩ := hwhere hr ho (by simp [hk])
    exact ⟨t, image_of_where? ht, hc.reflected r o t key ho ht hk, (hc.met r t (Heap.isLive_of_object? ho) ht).2⟩
  case dropped =>
    intro r o hr ho hk
    cases hw : c.where? r with
    | none => simp [image, hw]
    | some t => exact absurd hk (hc.staying r o t ho hw)
  case copied =>
    intro r o hr ho hk
    obtain ⟨t, ht⟩ := hwhere hr ho (by simp [hk])
    obtain ⟨hn, hkeys⟩ := hc.fresh r o t ho ht hk
    rcases hc.filled r o t ho ht hk with hp | ⟨_, hobj⟩
    · simp [hu] at hp
    · exact ⟨t, image_of_where? ht, hn, hkeys, hobj⟩
  case injective =>
    intro r r' o o' hr ho hk hr' ho' hk' heq
    obtain ⟨t, ht⟩ := hwhere hr ho (by simp [hk])
    obtain ⟨t', ht'⟩ := hwhere hr' ho' (by simp [hk'])
    rw [image_of_where? ht, image_of_where? ht'] at heq
    cases heq
    exact hc.injective r r' o o' t ho hk ho' hk' ht ht'
  case onto =>
    intro t ht
    refine (hc.onto t ht).imp_right (Exists.imp fun r h => ⟨(hc.met r t h.1 h.2).1, image_of_where? h.2⟩)

/-- Whatever live values one copier is asked for, it delivers them all, and there is one map on the source objects
it has met that explains everything it has made. -/
theorem copies_isomorphic (source target : Heap) (registry : Registry) (hs : source.Sound) (ht : target.Sound)
    (hr : ∀ key t, target.reflection? key = some t → target.isLive t) (vs : List Value)
    (hv : ∀ v ∈ vs, source.Valid v) :
    ∃ f c, vs.mapM (copy source) (Copier.new source target registry) = (.ok (vs.map (Value.image f)), c) ∧
      source.Copied target vs f c.target := by
  have hc : Copying source target vs [] (Copier.new source target registry) := .start ht hr registry
  have hload : (Copier.new source target registry).load ≤ source.slots.size + 1 := by
    simp [load, Copier.new]
  have hdue : ∀ v ∈ vs, Due source vs v := by
    rintro v hm r rfl
    exact ⟨hv _ hm r rfl, .given hm⟩
  have hw := hc.wp_copies hs hload rfl hdue
  unfold Act.wp at hw
  split at hw
  · rename_i ws c heq
    obtain ⟨hc', _, hu, hcov, hws⟩ := hw
    exact ⟨c.image, c, by rw [heq, hws], hc'.copied hu hcov⟩
  · exact hw.elim

/-- Two objects that hold each other. -/
def ring : Heap :=
  (Heap.new {}).run
    [.allocate .object ⟨.none, rfl⟩, .allocate .object ⟨.none, rfl⟩, .setMember ⟨0, 0⟩ "it" (.object ⟨1, 0⟩),
      .setMember ⟨1, 0⟩ "it" (.object ⟨0, 0⟩)]

theorem copies_ring :
    ring.Sound ∧ ∃ f c, [.object ⟨0, 0⟩, .object ⟨1, 0⟩].mapM (copy ring) (Copier.new ring (Heap.new {}) default)
        = (.ok ([.object ⟨0, 0⟩, .object ⟨1, 0⟩].map (Value.image f)), c) ∧
      ring.Copied (Heap.new {}) [.object ⟨0, 0⟩, .object ⟨1, 0⟩] f c.target := by
  have hs : ring.Sound := (Heap.Sound.new _).run _
  refine ⟨hs, copies_isomorphic ring (Heap.new {}) default hs (.new _) (fun _ _ h => by cases h) _ fun v hv r hr => ?_⟩
  subst hr
  simp only [List.mem_cons, Value.object.injEq, List.not_mem_nil, or_false] at hv
  rcases hv with rfl | rfl
  · decide
  · decide

end Copier

end Spool
