import Spool.Heap.Copy
import Spool.Proofs.Heap.Calls
import Spool.Proofs.Heap.Gains

/-!
# Objects that a copier meets

A copier keeps a table from source objects to target objects. An object that it meets for the first time gets a place in the
target, if it does not stand for something that is there already, and is put on a list of objects that are still to be filled.
The table only grows.
-/

namespace Spool

/-! ## The map -/

/-- What becomes of an object that a copier meets. -/
inductive Fate where
  /-- It stands for something that has an object in every heap. -/
  | reflected (key : Reflected)
  /-- It means nothing elsewhere. -/
  | dropped
  | copied
  deriving DecidableEq, Repr

def Payload.fate : Payload → Fate
  | ofClass c => .reflected (.ofClass c)
  | ofModule m => .reflected (.ofModule m)
  | ofFunction f => .reflected (.ofFunction f)
  | future _ => .dropped
  | task _ => .dropped
  | context _ => .dropped
  | _ => .copied

def Value.image (f : Handle → Value) : Value → Value
  | object r => f r
  | v => v

/-- A function reference loses its context. -/
def Payload.image (f : Handle → Value) : Payload → Payload
  | array items => array (items.map (Value.image f))
  | tuple items => tuple (items.map (Value.image f))
  | bound b => bound { function := b.function, receiver := b.receiver.image f }
  | p => p

def imageEntries (f : Handle → Value) (entries : List (String × Value)) : List (String × Value) :=
  entries.map fun e => (e.1, e.2.image f)

def Object.image (f : Handle → Value) (o : Object) : Object :=
  { ofClass := o.ofClass, members := ⟨imageEntries f o.members.entries⟩, payload := o.payload.image f }

theorem Payload.values_image (f : Handle → Value) (p : Payload) : (p.image f).values = p.values.map (Value.image f) := by
  cases p <;> simp [Payload.image, Payload.values]

/-- What is copied keeps nothing alive outside its new heap. -/
theorem Payload.external?_image {f : Handle → Value} {p : Payload} (hp : p.fate ≠ .dropped) :
    (p.image f).external? = Option.none := by
  cases p <;> simp_all [Payload.image, Payload.external?, Payload.fate]

theorem Payload.image_congr {f g : Handle → Value} {p : Payload} (h : ∀ v ∈ p.values, v.image f = v.image g) :
    p.image f = p.image g := by
  cases p with
  | array items => simpa [Payload.image] using fun v hv => h v (Array.mem_toList_iff.2 hv)
  | tuple items => simpa [Payload.image] using fun v hv => h v (Array.mem_toList_iff.2 hv)
  | bound b => simpa [Payload.image] using h b.receiver (by simp [Payload.values])
  | _ => rfl

theorem imageEntries_congr {f g : Handle → Value} {entries : List (String × Value)}
    (h : ∀ v ∈ entries.map Prod.snd, v.image f = v.image g) : imageEntries f entries = imageEntries g entries :=
  List.map_congr_left fun e he => by rw [h e.2 (List.mem_map.2 ⟨e, he, rfl⟩)]

theorem Object.image_congr {f g : Handle → Value} {o : Object} (h : ∀ v ∈ o.values, v.image f = v.image g) :
    o.image f = o.image g := by
  have hm : imageEntries f o.members.entries = imageEntries g o.members.entries :=
    imageEntries_congr fun v hv => h v (List.mem_append_left _ hv)
  have hp := Payload.image_congr (p := o.payload) fun v hv => h v (List.mem_append_right _ hv)
  simp only [Object.image, hm, hp]

/-- The source objects that a copy of some values meets. It goes on only through what it copies. -/
inductive Heap.Met (source : Heap) (vs : List Value) : Handle → Prop where
  | given {r : Handle} : .object r ∈ vs → Met source vs r
  | held {r x : Handle} {o : Object} : Met source vs r → source.object? r = some o → o.payload.fate = .copied →
      .object x ∈ o.values → Met source vs x

/-- The second target heap is the first with copies of values of the source, under the given map. -/
structure Heap.Copied (source target : Heap) (vs : List Value) (f : Handle → Value) (target' : Heap) : Prop where
  sound : target'.Sound
  kept : ∀ t o, target.object? t = some o → target'.object? t = some o
  rootCount : ∀ t, target.isLive t → target'.rootCount t = target.rootCount t
  reflections : ∀ key t, target.reflection? key = some t → target'.reflection? key = some t
  reflected : ∀ r o key, source.Met vs r → source.object? r = some o → o.payload.fate = .reflected key →
    ∃ t, f r = .object t ∧ target'.reflection? key = some t ∧ target'.isLive t
  dropped : ∀ r o, source.Met vs r → source.object? r = some o → o.payload.fate = .dropped → f r = .none
  copied : ∀ r o, source.Met vs r → source.object? r = some o → o.payload.fate = .copied →
    ∃ t, f r = .object t ∧ ¬ target.isLive t ∧ (∀ key, target'.reflection? key ≠ some t) ∧
      target'.object? t = some (o.image f)
  injective : ∀ r r' o o', source.Met vs r → source.object? r = some o → o.payload.fate = .copied →
    source.Met vs r' → source.object? r' = some o' → o'.payload.fate = .copied → f r = f r' → r = r'
  /-- Nothing is made that does not stand for something. -/
  onto : ∀ t, target'.isLive t → target.isLive t ∨ ∃ r, source.Met vs r ∧ f r = .object t

namespace Copier

variable {source origin : Heap} {vs : List Value} {hole : List (Handle × Handle)} {c c' c₀ c₁ c₂ : Copier}

/-! ## The table -/

def where? (c : Copier) (r : Handle) : Option Handle := (c.forward[r.index]?).join

def image (c : Copier) (r : Handle) : Value :=
  match c.where? r with
  | some t => .object t
  | none => .none

/-- What is left to be placed or filled. -/
def load (c : Copier) : Nat := c.forward.count none + c.unfilled.length

/-- The table knows what to make of a value. -/
def Covered (source : Heap) (c : Copier) (v : Value) : Prop :=
  ∀ r, v = .object r →
    (c.where? r).isSome ∨ ∃ o, source.object? r = some o ∧ o.payload.fate = .dropped

/-- The state of a copier between two steps. Objects in the hole are just being filled. -/
structure Copying (source origin : Heap) (vs : List Value) (hole : List (Handle × Handle)) (c : Copier) : Prop where
  size : c.forward.size = source.slots.size
  gains : origin.Gains Heap.Nowhere c.target
  kept : ∀ t o, origin.object? t = some o → c.target.object? t = some o
  rootCount : ∀ t, origin.isLive t → c.target.rootCount t = origin.rootCount t
  reflections : ∀ key t, origin.reflection? key = some t → c.target.reflection? key = some t
  singleton : ∀ key t, c.target.reflection? key = some t → c.target.isLive t
  met : ∀ r t, source.isLive r → c.where? r = some t → source.Met vs r ∧ c.target.isLive t
  staying : ∀ r o t, source.object? r = some o → c.where? r = some t → o.payload.fate ≠ .dropped
  reflected : ∀ r o t key, source.object? r = some o → c.where? r = some t → o.payload.fate = .reflected key →
    c.target.reflection? key = some t
  fresh : ∀ r o t, source.object? r = some o → c.where? r = some t → o.payload.fate = .copied →
    ¬ origin.isLive t ∧ ∀ key, c.target.reflection? key ≠ some t
  filled : ∀ r o t, source.object? r = some o → c.where? r = some t → o.payload.fate = .copied →
    (r, t) ∈ hole ++ c.unfilled ∨ ((∀ v ∈ o.values, c.Covered source v) ∧ c.target.object? t = some (o.image c.image))
  injective : ∀ r r' o o' t, source.object? r = some o → o.payload.fate = .copied → source.object? r' = some o' →
    o'.payload.fate = .copied → c.where? r = some t → c.where? r' = some t → r = r'
  pending : ∀ r t, (r, t) ∈ hole ++ c.unfilled →
    ∃ o, source.object? r = some o ∧ o.payload.fate = .copied ∧ c.where? r = some t
  blank : ∀ r t o, (r, t) ∈ c.unfilled → source.object? r = some o →
    c.target.object? t = some { ofClass := o.ofClass, payload := c.registry.seed o.ofClass }
  nodup : ((hole ++ c.unfilled).map Prod.fst).Nodup
  onto : ∀ t, c.target.isLive t → origin.isLive t ∨ ∃ r, source.isLive r ∧ c.where? r = some t

/-- The table has grown and the load has not. -/
structure Grows (c c' : Copier) : Prop where
  where? : ∀ r t, c.where? r = some t → c'.where? r = some t
  load : c'.load ≤ c.load
  registry : c'.registry = c.registry

/-- Objects have only been added to the target. -/
structure Adds (c c' : Copier) : Prop extends c.Grows c' where
  object? : ∀ t o, c.target.object? t = some o → c'.target.object? t = some o

theorem Grows.refl (c : Copier) : c.Grows c := ⟨fun _ _ => id, Nat.le_refl _, rfl⟩

theorem Grows.trans (h : c.Grows c₁) (h' : c₁.Grows c₂) : c.Grows c₂ :=
  ⟨fun r t ht => h'.where? r t (h.where? r t ht), Nat.le_trans h'.load h.load, h'.registry.trans h.registry⟩

theorem Adds.refl (c : Copier) : c.Adds c := ⟨.refl c, fun _ _ => id⟩

theorem Adds.trans (h : c.Adds c₁) (h' : c₁.Adds c₂) : c.Adds c₂ :=
  ⟨h.toGrows.trans h'.toGrows, fun t o ho => h'.object? t o (h.object? t o ho)⟩

theorem Covered.grows {v : Value} (hv : c.Covered source v) (hg : c.Grows c') : c'.Covered source v := by
  intro r hr
  rcases hv r hr with hw | hd
  · obtain ⟨t, ht⟩ := Option.isSome_iff_exists.1 hw
    exact .inl (Option.isSome_iff_exists.2 ⟨t, hg.where? r t ht⟩)
  · exact .inr hd

theorem image_of_where? {r t : Handle} (h : c.where? r = some t) : c.image r = .object t := by
  simp [image, h]

/-- What the table knows it never forgets or changes. -/
theorem image_grows (hs : ∀ r o t, source.object? r = some o → c'.where? r = some t → o.payload.fate ≠ .dropped)
    (hg : c.Grows c') {v : Value} (hv : c.Covered source v) :
    v.image c'.image = v.image c.image := by
  cases v with
  | object r =>
      simp only [Value.image, image]
      rcases hv r rfl with hw | ⟨o, ho, hd⟩
      · obtain ⟨t, ht⟩ := Option.isSome_iff_exists.1 hw
        rw [ht, hg.where? r t ht]
      · cases ht' : c'.where? r with
        | some t => exact absurd hd (hs r o t ho ht')
        | none =>
            cases ht : c.where? r with
            | none => rfl
            | some t =>
                rw [hg.where? r t ht] at ht'
                cases ht'
  | none => rfl
  | scalar s => rfl

theorem Copying.start (hs : origin.Sound) (hr : ∀ key t, origin.reflection? key = some t → origin.isLive t)
    (registry : Registry) : Copying source origin vs [] (Copier.new source origin registry) := by
  have hnone : ∀ r, (Copier.new source origin registry).where? r = none := by
    intro r
    simp only [where?, Copier.new, Array.getElem?_replicate]
    split <;> rfl
  exact
    { size := Array.size_replicate
      gains := .refl hs
      kept := fun _ _ => id
      rootCount := fun _ _ => rfl
      reflections := fun _ _ => id
      singleton := hr
      met := by simp [hnone]
      staying := by simp [hnone]
      reflected := by simp [hnone]
      fresh := by simp [hnone]
      filled := by simp [hnone]
      injective := by simp [hnone]
      pending := by simp [Copier.new]
      blank := by simp [Copier.new]
      nodup := by simp [Copier.new]
      onto := fun _ => .inl }

/-! ## Meeting an object -/

theorem wp_onTarget {α : Type} {act : Act Heap α} {Q : α → Copier → Prop} {E : Fault → Copier → Prop} :
    (onTarget act).wp c Q E
      ↔ act.wp c.target (fun a h => Q a { c with target := h }) (fun e h => E e { c with target := h }) := by
  unfold onTarget Act.wp
  dsimp only
  rcases act c.target with ⟨_ | _, _⟩ <;> rfl

theorem where?_set {r : Handle} (hr : r.index < c.forward.size) {c' : Copier} {t : Handle}
    (hf : c'.forward = c.forward.setIfInBounds r.index (some t)) (x : Handle) :
    c'.where? x = if x.index = r.index then some t else c.where? x := by
  simp only [where?, hf, Array.getElem?_setIfInBounds]
  by_cases hi : r.index = x.index
  · simp [hi, hi ▸ hr]
  · simp [hi, Ne.symm hi]

/-- The second heap has got an object for one of the source, unless it had one already. -/
structure Lodges (h : Heap) (o : Object) (seed : Payload) (t : Handle) (h' : Heap) : Prop where
  gains : h.Gains Heap.Nowhere h'
  object? : ∀ x o, h.object? x = some o → h'.object? x = some o
  rootCount : ∀ x, h.isLive x → h'.rootCount x = h.rootCount x
  isLive : ∀ x, h'.isLive x ↔ h.isLive x ∨ x = t
  reflection? : ∀ key x, h'.reflection? key = some x ↔
    h.reflection? key = some x ∨ o.payload.fate = .reflected key ∧ x = t
  known : h.isLive t → ∃ key, h.reflection? key = some t
  placed : o.payload.fate = .copied →
    ¬ h.isLive t ∧ h'.object? t = some { ofClass := o.ofClass, payload := seed }

theorem lodges_reflect {h : Heap} (hs : h.Sound) (hr : ∀ key t, h.reflection? key = some t → h.isLive t)
    {o : Object} {key : Reflected} (hk : o.payload.fate = .reflected key) (seed : Payload) :
    (Heap.reflect key).wp h (fun t h' => Lodges h o seed t h') (fun _ _ => False) := by
  have hcopied : ¬ o.payload.fate = .copied := by simp [hk]
  refine Act.wp_mono (Heap.wp_reflect hs key) (fun t h' ht => ?_) (fun _ _ => id)
  rcases ht with ⟨ht, rfl⟩ | ⟨hnone, hm⟩
  · refine ⟨.refl hs, fun _ _ => id, fun _ _ => rfl, fun x => ?_, fun key' x => ?_, fun _ => ⟨key, ht⟩, (absurd · hcopied)⟩
    · refine ⟨.inl, ?_⟩
      rintro (hx | rfl)
      · exact hx
      · exact hr key x ht
    · refine ⟨.inl, ?_⟩
      rintro (hx | ⟨hk', rfl⟩)
      · exact hx
      · rw [hk] at hk'
        cases hk'
        exact ht
  · have hne : ∀ x, h.isLive x → x ≠ t := by
      rintro x hx rfl
      exact Heap.object?_eq_none.1 hm.fresh hx
    refine ⟨hm.gains hnone, fun x o ho => ?_, fun x hx => ?_, fun x => ?_, fun key' x => ?_, fun ht => ?_, (absurd · hcopied)⟩
    · rw [hm.object?, if_neg (hne x (Heap.isLive_of_object? ho)), ho]
    · rw [hm.rootCount, if_neg (hne x hx)]
    · rw [Heap.isLive_iff, Heap.isLive_iff, hm.object?]
      by_cases hx : x = t <;> simp [hx]
    · simp only [Heap.reflection?, hm.reflections, Bindings.get?_insert, hk]
      by_cases hkk : key = key'
      · subst hkk
        simp only [Heap.reflection?] at hnone
        simp [hnone, eq_comm]
      · simp [hkk]
    · exact absurd rfl (hne t ht)

theorem edges_seed (registry : Registry) (c : ClassId) : (registry.seed c).edges = [] := by
  unfold Registry.seed
  split
  · rename_i s _
    cases s <;> rfl
  · rfl

theorem external?_seed (registry : Registry) (c : ClassId) : (registry.seed c).external? = none := by
  unfold Registry.seed
  split
  · rename_i s _
    cases s <;> rfl
  · rfl

theorem lodges_create {h : Heap} (hs : h.Sound) {o : Object} (hk : o.payload.fate = .copied) {seed : Payload}
    (hseed : seed.edges = []) (hx : seed.external? = none) :
    (Heap.create o.ofClass seed).wp h (fun t h' => Lodges h o seed t h') (fun _ _ => False) := by
  refine Act.wp_mono (Heap.wp_create hs o.ofClass hseed) (fun t h' hdone => ?_) (fun _ _ => id)
  obtain ⟨hfresh, hw⟩ := hdone
  have ht : ¬ h.isLive t := Heap.object?_eq_none.1 hfresh
  have hne : ∀ x, h.isLive x → x ≠ t := by
    rintro x hx rfl
    exact ht hx
  refine ⟨hw.gains (by simp [hx]), fun x o ho => ?_, fun x _ => hw.puts.rootCount x, fun x => ?_, fun key x => ?_,
    (absurd · ht), fun _ => ⟨ht, hw.puts.self⟩⟩
  · rw [hw.puts.object?, if_neg (hne x (Heap.isLive_of_object? ho)), ho]
  · rw [Heap.isLive_iff, Heap.isLive_iff, hw.puts.object?]
    by_cases hx : x = t <;> simp [hx]
  · simp [Heap.reflection?, hw.puts.reflections, hk]

/-- The copier after it has met an object for the first time. -/
def meet (c : Copier) (r : Handle) (o : Object) (t : Handle) (h' : Heap) : Copier :=
  { c with
    target := h'
    unfilled := if o.payload.fate = .copied then (r, t) :: c.unfilled else c.unfilled
    forward := c.forward.setIfInBounds r.index (some t) }

section
variable {r t : Handle} {o : Object} {h' : Heap}

theorem Copying.index_lt (hc : Copying source origin vs hole c) (hr : source.isLive r) :
    r.index < c.forward.size :=
  hc.size ▸ Heap.index_lt_of_isLive hr

theorem Copying.where?_meet (hc : Copying source origin vs hole c) (hr : source.isLive r) {x : Handle}
    (hx : source.isLive x) : (c.meet r o t h').where? x = if x = r then some t else c.where? x := by
  rw [where?_set (hc.index_lt hr) rfl]
  by_cases hi : x.index = r.index
  · simp [Heap.eq_of_index_eq hx hr hi]
  · have : x ≠ r := by
      rintro rfl
      exact hi rfl
    simp [hi, this]

theorem Copying.load_meet (hc : Copying source origin vs hole c) (hr : source.isLive r) (hnew : c.where? r = none) :
    (c.meet r o t h').load ≤ c.load := by
  have hlt := hc.index_lt hr
  have hget : c.forward[r.index] = none := by
    simpa [where?, hlt] using hnew
  have hpos : 0 < c.forward.count none := Array.count_pos_iff.2 (hget ▸ Array.getElem_mem hlt)
  simp only [load, meet, Array.setIfInBounds, hlt, ↓reduceDIte]
  rw [Array.count_set hlt]
  simp only [hget, beq_self_eq_true, ↓reduceIte, reduceCtorEq, beq_iff_eq]
  split
  · simp only [List.length_cons]
    omega
  · omega

theorem Copying.adds_meet (hc : Copying source origin vs hole c) (hr : source.isLive r) (hnew : c.where? r = none)
    (ha : Lodges c.target o (c.registry.seed o.ofClass) t h') : c.Adds (c.meet r o t h') where
  where? x y hy := by
    rw [where?_set (hc.index_lt hr) rfl, if_neg, hy]
    intro hi
    have : c.where? x = c.where? r := by simp only [where?, hi]
    rw [this, hnew] at hy
    cases hy
  load := hc.load_meet hr hnew
  registry := rfl
  object? := ha.object?

theorem Copying.meet (hc : Copying source origin vs hole c) (ho : source.object? r = some o)
    (hmet : source.Met vs r) (hnew : c.where? r = none) (hkeep : o.payload.fate ≠ .dropped)
    (ha : Lodges c.target o (c.registry.seed o.ofClass) t h') :
    Copying source origin vs hole (c.meet r o t h') := by
  have hr : source.isLive r := Heap.isLive_of_object? ho
  have hadds := hc.adds_meet hr hnew ha
  have hwhere : ∀ {x y}, source.isLive x → (c.meet r o t h').where? x = some y →
      x = r ∧ y = t ∨ x ≠ r ∧ c.where? x = some y := by
    intro x y hx hy
    rw [hc.where?_meet hr hx] at hy
    split at hy
    · cases hy
      exact .inl ⟨‹_›, rfl⟩
    · exact .inr ⟨‹_›, hy⟩
  have hlive : ∀ x, c.target.isLive x → h'.isLive x := fun x hx => (ha.isLive x).2 (.inl hx)
  -- an object that was copied before is not the one that has come
  have hother : ∀ {x ox y}, source.object? x = some ox → c.where? x = some y → ox.payload.fate = .copied → y ≠ t := by
    rintro x ox y hox hy hcop rfl
    obtain ⟨key, hkey⟩ := ha.known (hc.met x y (Heap.isLive_of_object? hox) hy).2
    exact (hc.fresh x ox y hox hy hcop).2 key hkey
  have hstay : ∀ x ox y, source.object? x = some ox → (c.meet r o t h').where? x = some y →
      ox.payload.fate ≠ .dropped := by
    intro x ox y hox hy
    rcases hwhere (Heap.isLive_of_object? hox) hy with ⟨rfl, _⟩ | ⟨_, hy⟩
    · rw [ho] at hox
      cases hox
      exact hkeep
    · exact hc.staying x ox y hox hy
  have hpending : ∀ x, (r, x) ∉ hole ++ c.unfilled := by
    intro x hx
    obtain ⟨_, _, _, hw⟩ := hc.pending r x hx
    rw [hnew] at hw
    cases hw
  constructor
  case size => simpa [Copier.meet] using hc.size
  case gains => exact hc.gains.trans ha.gains
  case kept => exact fun x ox hox => ha.object? x ox (hc.kept x ox hox)
  case rootCount =>
    intro x hx
    obtain ⟨ox, hox⟩ := Heap.isLive_iff.1 hx
    exact (ha.rootCount x (Heap.isLive_of_object? (hc.kept x ox hox))).trans (hc.rootCount x hx)
  case reflections => exact fun key x hx => (ha.reflection? key x).2 (.inl (hc.reflections key x hx))
  case singleton =>
    intro key x hx
    rcases (ha.reflection? key x).1 hx with hx | ⟨_, rfl⟩
    · exact hlive x (hc.singleton key x hx)
    · exact (ha.isLive x).2 (.inr rfl)
  case met =>
    intro x y hx hy
    rcases hwhere hx hy with ⟨rfl, rfl⟩ | ⟨_, hy⟩
    · exact ⟨hmet, (ha.isLive y).2 (.inr rfl)⟩
    · exact (hc.met x y hx hy).imp_right (hlive y)
  case staying => exact hstay
  case reflected =>
    intro x ox y key hox hy hk
    rcases hwhere (Heap.isLive_of_object? hox) hy with ⟨rfl, rfl⟩ | ⟨_, hy⟩
    · rw [ho] at hox
      cases hox
      exact (ha.reflection? key y).2 (.inr ⟨hk, rfl⟩)
    · exact (ha.reflection? key y).2 (.inl (hc.reflected x ox y key hox hy hk))
  case fresh =>
    intro x ox y hox hy hk
    rcases hwhere (Heap.isLive_of_object? hox) hy with ⟨rfl, rfl⟩ | ⟨_, hy⟩
    · rw [ho] at hox
      cases hox
      have hn := (ha.placed hk).1
      refine ⟨fun hl => ?_, fun key hkey => ?_⟩
      · obtain ⟨oy, hoy⟩ := Heap.isLive_iff.1 hl
        exact hn (Heap.isLive_of_object? (hc.kept y oy hoy))
      · rcases (ha.reflection? key y).1 hkey with hold | ⟨hk', _⟩
        · exact hn (hc.singleton key y hold)
        · rw [hk] at hk'
          cases hk'
    · obtain ⟨hn, hkeys⟩ := hc.fresh x ox y hox hy hk
      refine ⟨hn, fun key hkey => ?_⟩
      rcases (ha.reflection? key y).1 hkey with hold | ⟨_, hyt⟩
      · exact hkeys key hold
      · exact hother hox hy hk hyt
  case filled =>
    intro x ox y hox hy hk
    rcases hwhere (Heap.isLive_of_object? hox) hy with ⟨rfl, rfl⟩ | ⟨_, hy⟩
    · rw [ho] at hox
      cases hox
      exact .inl (by simp [Copier.meet, hk])
    · rcases hc.filled x ox y hox hy hk with hp | ⟨hcov, hobj⟩
      · left
        simp only [Copier.meet, List.mem_append] at hp ⊢
        exact hp.imp_right fun hp => by split <;> simp [hp]
      · refine .inr ⟨fun v hv => (hcov v hv).grows hadds.toGrows, ?_⟩
        rw [Object.image_congr fun v hv => image_grows hstay hadds.toGrows (hcov v hv)]
        exact ha.object? y _ hobj
  case injective =>
    intro x x' ox ox' y hox hk hox' hk' hy hy'
    rcases hwhere (Heap.isLive_of_object? hox) hy with ⟨hx, hyt⟩ | ⟨_, hold⟩
    · rcases hwhere (Heap.isLive_of_object? hox') hy' with ⟨hx', _⟩ | ⟨_, hold'⟩
      · exact hx.trans hx'.symm
      · exact absurd hyt (hother hox' hold' hk')
    · rcases hwhere (Heap.isLive_of_object? hox') hy' with ⟨_, hyt⟩ | ⟨_, hold'⟩
      · exact absurd hyt (hother hox hold hk)
      · exact hc.injective x x' ox ox' y hox hk hox' hk' hold hold'
  case pending =>
    intro x y hxy
    have hcase : (x, y) ∈ hole ++ c.unfilled ∨ o.payload.fate = .copied ∧ x = r ∧ y = t := by
      simp only [Copier.meet, List.mem_append] at hxy ⊢
      rcases hxy with hxy | hxy
      · exact .inl (.inl hxy)
      · split at hxy
        · rename_i hk
          rcases List.mem_cons.1 hxy with heq | hxy
          · cases heq
            exact .inr ⟨hk, rfl, rfl⟩
          · exact .inl (.inr hxy)
        · exact .inl (.inr hxy)
    rcases hcase with hxy | ⟨hk, rfl, rfl⟩
    · obtain ⟨ox, hox, hkx, hw⟩ := hc.pending x y hxy
      exact ⟨ox, hox, hkx, hadds.where? x y hw⟩
    · exact ⟨o, ho, hk, by simp [hc.where?_meet hr hr]⟩
  case blank =>
    intro x y ox hxy hox
    have hold : (x, y) ∈ c.unfilled → h'.object? y = some { ofClass := ox.ofClass, payload := c.registry.seed ox.ofClass } :=
      fun hxy => ha.object? y _ (hc.blank x y ox hxy hox)
    simp only [Copier.meet] at hxy
    split at hxy
    · rename_i hk
      rcases List.mem_cons.1 hxy with heq | hxy
      · cases heq
        rw [ho] at hox
        cases hox
        exact (ha.placed hk).2
      · exact hold hxy
    · exact hold hxy
  case nodup =>
    simp only [Copier.meet]
    split
    · have hperm : ((hole ++ (r, t) :: c.unfilled).map Prod.fst).Perm (r :: (hole ++ c.unfilled).map Prod.fst) :=
        List.perm_middle.map Prod.fst
      refine hperm.nodup_iff.2 (List.nodup_cons.2 ⟨fun hm => ?_, hc.nodup⟩)
      obtain ⟨⟨x, y⟩, hxy, rfl⟩ := List.mem_map.1 hm
      exact hpending y hxy
    · exact hc.nodup
  case onto =>
    intro x hx
    rcases (ha.isLive x).1 hx with hx | rfl
    · exact (hc.onto x hx).imp_right (Exists.imp fun y h => ⟨h.1, hadds.where? y x h.2⟩)
    · exact .inr ⟨r, hr, by simp [hc.where?_meet hr hr]⟩

end

/-- The object of the target that an object becomes, if any. -/
def lodge (r : Handle) (o : Object) : Act Copier (Option Handle) :=
  match o.payload.fate with
  | .reflected key => some <$> onTarget (Heap.reflect key)
  | .dropped => pure none
  | .copied => some <$> place r o

theorem mapHandle_eq {r : Handle} {o : Object} (ho : source.object? r = some o) :
    mapHandle source r = (do
      match (← getThe Copier).where? r with
      | some target => return .object target
      | none =>
        match ← lodge r o with
        | some target =>
          remember r target
          return .object target
        | none => return .none) := by
  unfold mapHandle lodge
  simp only [ho]
  cases o.payload <;> rfl

/-- A value that a copier has to expect. -/
def Due (source : Heap) (vs : List Value) (v : Value) : Prop :=
  ∀ r, v = .object r → source.isLive r ∧ source.Met vs r

/-- A value has been carried over. -/
structure Carried (source origin : Heap) (vs : List Value) (hole : List (Handle × Handle)) (c : Copier) (v w : Value)
    (c' : Copier) : Prop where
  copying : Copying source origin vs hole c'
  adds : c.Adds c'
  covered : c'.Covered source v
  eq : w = v.image c'.image

theorem Copying.carried (hc : Copying source origin vs hole c') (ha : c.Adds c') {r t : Handle}
    (ht : c'.where? r = some t) : Carried source origin vs hole c (.object r) (.object t) c' where
  copying := hc
  adds := ha
  covered x hx := by
    cases hx
    simp [ht]
  eq := (image_of_where? ht).symm

theorem Copying.wp_mapHandle (hc : Copying source origin vs hole c) {r : Handle} (hr : source.isLive r)
    (hmet : source.Met vs r) :
    (mapHandle source r).wp c (Carried source origin vs hole c (.object r)) (fun _ _ => False) := by
  obtain ⟨o, ho⟩ := Heap.isLive_iff.1 hr
  rw [mapHandle_eq ho]
  simp only [Act.wp_bind, Act.wp_getThe]
  cases hw : c.where? r with
  | some t => exact hc.carried (.refl c) hw
  | none =>
      simp only [Act.wp_bind]
      have hstep : ∀ t h', o.payload.fate ≠ .dropped → Lodges c.target o (c.registry.seed o.ofClass) t h' →
          Carried source origin vs hole c (.object r) (.object t) (c.meet r o t h') := by
        intro t h' hk ha
        refine (hc.meet ho hmet hw hk ha).carried (hc.adds_meet hr hw ha) ?_
        rw [hc.where?_meet hr hr, if_pos rfl]
      unfold lodge
      cases hk : o.payload.fate with
      | reflected key =>
          simp only [Act.wp_map, wp_onTarget]
          refine Act.wp_mono (lodges_reflect hc.gains.sound hc.singleton hk (c.registry.seed o.ofClass))
            (fun t h' ha => ?_) (fun _ _ => id)
          have hcar := hstep t h' (by simp [hk]) ha
          simpa [remember, Copier.meet, hk] using hcar
      | dropped =>
          simp only [Act.wp_pure]
          refine ⟨hc, .refl c, fun x hx => ?_, ?_⟩
          · cases hx
            exact .inr ⟨o, ho, hk⟩
          · simp [Value.image, Copier.image, hw]
      | copied =>
          simp only [Act.wp_map, place, Act.wp_bind, Act.wp_get, wp_onTarget]
          refine Act.wp_mono (lodges_create hc.gains.sound hk (edges_seed c.registry o.ofClass) (external?_seed c.registry o.ofClass))
            (fun t h' ha => ?_) (fun _ _ => id)
          have hcar := hstep t h' (by simp [hk]) ha
          simpa [remember, Copier.meet, hk] using hcar

theorem Copying.wp_mapValue (hc : Copying source origin vs hole c) {v : Value} (hv : Due source vs v) :
    (mapValue source v).wp c (Carried source origin vs hole c v) (fun _ _ => False) := by
  cases v with
  | object r => exact hc.wp_mapHandle (hv r rfl).1 (hv r rfl).2
  | none => exact ⟨hc, .refl c, fun _ hx => (by cases hx), rfl⟩
  | scalar s => exact ⟨hc, .refl c, fun _ hx => (by cases hx), rfl⟩

/-- Several values, one after the other. -/
theorem Copying.wp_mapValues (hc : Copying source origin vs hole c) {us : List Value}
    (hus : ∀ u ∈ us, Due source vs u) :
    (us.mapM (mapValue source)).wp c
      (fun ws c' => Copying source origin vs hole c' ∧ c.Adds c' ∧ (∀ u ∈ us, c'.Covered source u) ∧
        ws = us.map (Value.image c'.image))
      (fun _ _ => False) := by
  induction us generalizing c with
  | nil => exact ⟨hc, .refl c, by simp, rfl⟩
  | cons u rest ih =>
      simp only [List.mapM_cons, Act.wp_bind, Act.wp_pure]
      refine Act.wp_mono (hc.wp_mapValue (hus u (by simp))) (fun w c₁ hw => ?_) (fun _ _ => id)
      refine Act.wp_mono (ih hw.copying fun x hx => hus x (List.mem_cons_of_mem _ hx)) (fun ws c₂ hdone => ?_)
        (fun _ _ => id)
      obtain ⟨hc₂, ha, hcov, heq⟩ := hdone
      have hstable := image_grows hc₂.staying ha.toGrows hw.covered
      refine ⟨hc₂, hw.adds.trans ha, fun x hx => ?_, ?_⟩
      · rcases List.mem_cons.1 hx with rfl | hx
        · exact hw.covered.grows ha.toGrows
        · exact hcov x hx
      · rw [List.map_cons, hstable, ← hw.eq, heq]

theorem Copying.wp_mapPayload (hc : Copying source origin vs hole c) {p : Payload}
    (hp : ∀ u ∈ p.values, Due source vs u) :
    (mapPayload source p).wp c
      (fun q c' => Copying source origin vs hole c' ∧ c.Adds c' ∧ (∀ u ∈ p.values, c'.Covered source u) ∧
        q = p.image c'.image)
      (fun _ _ => False) := by
  cases p with
  | array items =>
      simp only [mapPayload, Act.wp_map, Array.mapM_eq_mapM_toList]
      refine Act.wp_mono (hc.wp_mapValues hp) (fun ws c' hdone => ?_) (fun _ _ => id)
      obtain ⟨hc', ha, hcov, heq⟩ := hdone
      exact ⟨hc', ha, hcov, by simp [heq, Payload.image, ← Array.toList_map]⟩
  | tuple items =>
      simp only [mapPayload, Act.wp_map, Array.mapM_eq_mapM_toList]
      refine Act.wp_mono (hc.wp_mapValues hp) (fun ws c' hdone => ?_) (fun _ _ => id)
      obtain ⟨hc', ha, hcov, heq⟩ := hdone
      exact ⟨hc', ha, hcov, by simp [heq, Payload.image, ← Array.toList_map]⟩
  | bound b =>
      simp only [mapPayload, Act.wp_bind, Act.wp_pure]
      refine Act.wp_mono (hc.wp_mapValue (hp b.receiver (by simp [Payload.values]))) (fun w c' hw => ?_) (fun _ _ => id)
      refine ⟨hw.copying, hw.adds, fun u hu => ?_, by rw [Payload.image, hw.eq]⟩
      rw [List.mem_singleton.1 hu]
      exact hw.covered
  | _ => exact ⟨hc, .refl c, fun u hu => (by cases hu), rfl⟩

end Copier

end Spool
