import Spool.Proofs.Heap.Payloads

/-!
# Laws of objects

The class of an object settles which payload it may have. A law is what the objects of a heap keep to whatever is
written: new objects start with what their class gives them, payloads change within what their class allows, and members
change as they like, but for the member `value` of a future that is guarded and has been read.
-/

/-!
## How reflections come about

A reflection is made when something is asked for that has none yet: a new object gets the payload that says what it stands
for, and a root.
-/

namespace Spool.Heap

variable {h h' : Heap} {r : Handle} {key : Reflected}

/-- The object is no reflection. -/
def Nameless (h : Heap) (r : Handle) : Prop := ∀ key, h.reflection? key ≠ some r

/-- The reflections are there. -/
def Present (h : Heap) : Prop := ∀ key r, h.reflection? key = some r → h.isLive r

theorem reflections_allocate (h : Heap) (c : ClassId) (x : Payload) : (h.allocate c x).2.reflections = h.reflections := by
  unfold allocate
  cases h.free <;> rfl

theorem isLive_modifyEntry (h : Heap) (r : Handle) (f : Entry → Entry) (x : Handle) :
    (h.modifyEntry r f).isLive x = h.isLive x := by
  rw [isLive, lookup?_modifyEntry]
  split
  · exact Option.isSome_map
  · rfl

/-- A new reflection has been made. -/
structure Coins (h : Heap) (key : Reflected) (r : Handle) (h' : Heap) : Prop where
  absent : h.reflection? key = none
  fresh : h.object? r = none
  object? : ∀ x, h'.object? x
    = if x = r then some { ofClass := key.metaclass, payload := key.payload } else h.object? x
  reflections : h'.reflections = h.reflections.insert key r

/-- An object without a payload becomes the reflection of something that has had none. -/
theorem wp_coin (hk : h.reflection? key = none) {o : Object} (ho : h.object? r = some o) (hp : o.payload = .none) :
    (do putPayload r key.payload; setReflection key r : Act Heap Unit).wp h
      (fun _ h' => (∀ x, h'.object? x = if x = r then some { o with payload := key.payload } else h.object? x) ∧
        h'.reflections = h.reflections.insert key r) fun _ _ => False := by
  obtain ⟨e, he, rfl⟩ := lookup?_of_object? ho
  have hplain : (key.payload.carriesValues || e.object.payload.carriesValues) = false := by
    rw [hp]
    cases key <;> rfl
  have hset := object?_modifyObject ho fun o => { o with payload := key.payload }
  obtain ⟨e', he'⟩ := Option.isSome_iff_exists.1 (isLive_of_object? ((hset r).trans (if_pos rfl)))
  have hput : (putPayload r key.payload).wp h (fun _ h₁ => h₁ = h.setPayload r key.payload) fun _ _ => False := by
    simp only [putPayload, Act.wp_bind, wp_entry, he, Act.wp_ite, Act.wp_modify, hplain, Bool.false_eq_true, if_false]
  simp only [Act.wp_bind]
  refine Act.wp_mono hput (fun _ h₁ heq => ?_) fun _ _ => id
  subst heq
  have he' : (h.setPayload r key.payload).lookup? r = some e' := he'
  simp only [setReflection, root, Act.wp_bind, wp_entry, he', Act.wp_modify, Act.wp_getThe]
  let rooted : Entry → Entry := fun e => { e with roots := e.roots + 1 }
  split
  · rename_i previous hprevious
    cases hprevious.symm.trans hk
  · exact ⟨fun x => (object?_modifyEntry (f := rooted) (fun _ => rfl) x).trans (hset x), rfl⟩

theorem wp_reflect_coins (hv : ∀ i ∈ h.free, h.Vacant i) (key : Reflected) :
    (reflect key).wp h (fun r h' => h.reflection? key = some r ∧ h' = h ∨ h.Coins key r h') fun _ _ => False := by
  simp only [reflect, Act.wp_bind, Act.wp_getThe]
  cases hk : h.reflection? key with
  | some r => exact .inl ⟨rfl, rfl⟩
  | none =>
      obtain ⟨hfresh, hlookup⟩ := lookup?_allocate_of_vacant hv key.metaclass .none
      have hold := reflections_allocate h key.metaclass .none
      have hobject : ∀ x, (h.allocate key.metaclass .none).2.object? x =
          if x = (h.allocate key.metaclass .none).1 then some { ofClass := key.metaclass, payload := .none }
          else h.object? x := by
        intro x
        rw [object?, hlookup]
        split <;> rfl
      have hunknown : (h.allocate key.metaclass .none).2.reflection? key = none := by rw [reflection?, hold]; exact hk
      have hcoin := wp_coin hunknown ((hobject _).trans (if_pos rfl)) rfl
      rw [Act.wp_bind] at hcoin
      simp only [Act.wp_bind]
      refine Act.wp_of_eq_ok (show create key.metaclass .none h = (.ok (h.allocate key.metaclass .none).1, _) from rfl) ?_
      refine Act.wp_mono hcoin (fun _ h₁ hdone => Act.wp_mono hdone (fun _ h' hdone => .inr ⟨hk, ?_, fun x => ?_, ?_⟩)
        fun _ _ => id) fun _ _ => id
      · rw [object?, hfresh]
        rfl
      · rw [hdone.1, hobject]
        split <;> rfl
      · rw [hdone.2, hold]

theorem Coins.reflection? (hc : h.Coins key r h') (key' : Reflected) :
    h'.reflection? key' = if key = key' then some r else h.reflection? key' := by
  rw [Heap.reflection?, hc.reflections, Bindings.get?_insert]
  rfl

theorem Coins.isLive (hc : h.Coins key r h') {x : Handle} (hx : h.isLive x) : x ≠ r ∧ h'.isLive x := by
  obtain ⟨o, ho⟩ := isLive_iff.1 hx
  have hne : x ≠ r := by
    rintro rfl
    cases hc.fresh.symm.trans ho
  exact ⟨hne, isLive_of_object? ((hc.object? x).trans ((if_neg hne).trans ho))⟩

theorem Coins.isLive_self (hc : h.Coins key r h') : h'.isLive r :=
  isLive_of_object? ((hc.object? r).trans (if_pos rfl))

end Spool.Heap

namespace Spool

/-! ## What a class allows -/

/-- What new objects of a class start with. -/
def ClassId.seed (c : ClassId) : Seed :=
  if c = .string then .text
  else if c = .array then .array
  else if c = .tuple then .tuple
  else if c = .process then .process
  else .plain

namespace Payload

/-- The class whose objects have payloads of this kind. An object of any class can have none, and can be started as a
process. -/
def home? : Payload → Option ClassId
  | none => Option.none
  | text _ => some .string
  | array _ => some .array
  | tuple _ => some .tuple
  | ofClass _ => some .metaclass
  | ofModule _ => some .module
  | ofFunction _ => some .function
  | bound _ => some .functionRef
  | future _ => some .future
  | task _ => some .task
  | context _ => some .context
  | process p => if p.isSome then Option.none else some .process
  | remote _ => some .remote

/-- An object of the class may have the payload. -/
structure Fits (x : Payload) (c : ClassId) : Prop where
  home : ∀ k, x.home? = some k → c = k
  plain : x = none → c.seed = .plain

/-- The payload of a future that has been read. -/
def Memoized (x : Payload) : Prop := ∃ t, x = future ⟨t, true⟩

/-- A payload that stands for nothing in the registry and is not that of a future that has been read. -/
def isOrdinary : Payload → Bool
  | ofClass _ => false
  | ofModule _ => false
  | ofFunction _ => false
  | future cell => !cell.memoized
  | _ => true

theorem not_memoized_of_isOrdinary {x : Payload} (hx : x.isOrdinary) : ¬ x.Memoized := by
  rintro ⟨t, rfl⟩
  simp [isOrdinary] at hx

/-- A payload with a home in the class. -/
theorem fits_of_home {x : Payload} {c : ClassId} (hx : x.home? = some c) : x.Fits c := by
  refine ⟨fun k hk => Option.some.inj (hx.symm.trans hk), ?_⟩
  rintro rfl
  cases hx

end Payload

theorem ClassId.fits_seed (c : ClassId) : c.seed.payload.Fits c ∧ c.seed.payload.isOrdinary := by
  unfold seed
  split
  · exact ⟨Payload.fits_of_home (by simp [Seed.payload, Payload.home?, *]), rfl⟩
  · split
    · exact ⟨Payload.fits_of_home (by simp [Seed.payload, Payload.home?, *]), rfl⟩
    · split
      · exact ⟨Payload.fits_of_home (by simp [Seed.payload, Payload.home?, *]), rfl⟩
      · split
        · exact ⟨Payload.fits_of_home (by simp [Seed.payload, Payload.home?, *]), rfl⟩
        · exact ⟨⟨fun k hk => (by cases hk), fun _ => (by simp [seed, *])⟩, rfl⟩

theorem Reflected.fits_payload (key : Reflected) : key.payload.Fits key.metaclass := by
  cases key <;> exact Payload.fits_of_home rfl

theorem Reflected.seed_metaclass (key : Reflected) : key.metaclass.seed = .plain := by
  cases key <;> rfl

theorem Reflected.not_memoized (key : Reflected) : ¬ key.payload.Memoized := by
  rintro ⟨t, ht⟩
  cases key <;> cases ht

/-- The payloads that may take the place of what an object has. -/
inductive Object.Takes (o : Object) : Payload → Prop where
  | same : Takes o o.payload
  | items {xs ys : Array Value} : o.payload = .array xs → Takes o (.array ys)
  | slots {xs ys : Array Value} : o.payload = .tuple xs → Takes o (.tuple ys)
  | fits {x : Payload} : x.Fits o.ofClass → x.isOrdinary → Takes o x

theorem Object.Takes.of_eq {o : Object} {x : Payload} (h : x = o.payload) : o.Takes x := h ▸ .same

theorem Object.Takes.memoized {o : Object} {x : Payload} (h : o.Takes x) (hx : x.Memoized) : o.payload.Memoized := by
  cases h with
  | same => exact hx
  | items _ =>
      obtain ⟨t, ht⟩ := hx
      cases ht
  | slots _ =>
      obtain ⟨t, ht⟩ := hx
      cases ht
  | fits _ ho => exact absurd hx (Payload.not_memoized_of_isOrdinary ho)

theorem Object.Takes.fit {o : Object} {x : Payload} (h : o.Takes x) (ho : o.payload.Fits o.ofClass) :
    x.Fits o.ofClass := by
  cases h with
  | same => exact ho
  | items hp => exact Payload.fits_of_home (congrArg some (ho.home _ (by rw [hp]; rfl)).symm)
  | slots hp => exact Payload.fits_of_home (congrArg some (ho.home _ (by rw [hp]; rfl)).symm)
  | fits hx _ => exact hx

namespace Heap

variable {h h' : Heap} {r : Handle} {G : Handle → Prop} {K K' : Heap → Prop} {α : Type}

/-- The object is no future that has been read. -/
def Unread (h : Heap) (r : Handle) : Prop := ∀ o, h.object? r = some o → ¬ o.payload.Memoized

/-- What stays true of a heap whatever is written. The member `value` of a guarded object is not written once it is a
future that has been read, and no reflection is emptied. -/
structure Law (G : Handle → Prop) (K : Heap → Prop) : Prop extends Aloof K where
  create : ∀ {h c x}, x.Fits c → x.isOrdinary → K h → K (h.allocate c x).2
  store : ∀ {h r name} v, (name = "value" → G r → h.Unread r) → K h →
    K (h.modifyObject r fun o => { o with members := o.members.insert name v })
  write : ∀ {h r} (f : Payload → Payload), (∀ o, h.object? r = some o → o.Takes (f o.payload) ∧
    (f o.payload = .none → o.payload = .none ∨ h.Nameless r)) → K h →
    K (h.modifyObject r fun o => { o with payload := f o.payload })
  reflect : ∀ {h} key, K h → K (Heap.reflect key h).2

/-- What has just been made has its class and its payload. -/
theorem object?_allocate_self (h : Heap) (c : ClassId) (x : Payload) {o : Object}
    (ho : (h.allocate c x).2.object? (h.allocate c x).1 = some o) : o = { ofClass := c, payload := x } := by
  obtain ⟨e, he, rfl⟩ := lookup?_of_object? ho
  rw [lookup?_eq_some] at he
  unfold allocate at he
  dsimp only at he
  split at he
  · simp only [Array.getElem?_modify, if_pos] at he
    obtain ⟨slot, _, hslot⟩ := Option.map_eq_some_iff.1 he
    exact congrArg Entry.object (Option.some.inj (Slot.mk.inj hslot).2).symm
  · simp only [Array.getElem?_push, if_pos] at he
    exact congrArg Entry.object (Option.some.inj (Slot.mk.inj (Option.some.inj he)).2).symm

/-- The object at the handle may get the payload in place of its own. -/
structure Admits (h : Heap) (r : Handle) (x : Payload) : Prop where
  takes : ∀ o, h.object? r = some o → o.Takes x
  nameless : x = .none → h.Nameless r

theorem admits_of_takes {x : Payload} (hx : ∀ o, h.object? r = some o → o.Takes x) (hne : x ≠ .none) : h.Admits r x :=
  ⟨hx, fun hn => absurd hn hne⟩

/-- What has just been made may get any payload that its class is the home of. -/
theorem admits_allocate_self (h : Heap) (c : ClassId) (seed : Payload) {x : Payload} (hx : x.home? = some c)
    (ho : x.isOrdinary) : (h.allocate c seed).2.Admits (h.allocate c seed).1 x := by
  refine admits_of_takes (fun o hobj => .fits ?_ ho) ?_
  · rw [object?_allocate_self h c seed hobj]
    exact Payload.fits_of_home hx
  · rintro rfl
    cases hx

/-- What is true of the object at a handle is no matter of edges, roots, candidates and statistics. -/
theorem aloof_at (r : Handle) (Q : Object → Prop) : Aloof fun h => ∀ o, h.object? r = some o → Q o :=
  ⟨fun _ _ hf hk o ho => hk o (object?_modifyEntry hf r ▸ ho), fun _ _ _ hk => hk⟩

/-- A handle leads to the object it has led to, or to the one that has been changed. -/
theorem object?_of_modifyObject {f : Object → Object} {x : Handle} {o : Object}
    (ho : (h.modifyObject r f).object? x = some o) :
    h.object? x = some o ∧ x ≠ r ∨ x = r ∧ ∃ o', h.object? r = some o' ∧ o = f o' := by
  obtain ⟨e, he, rfl⟩ := lookup?_of_object? ho
  rw [modifyObject, lookup?_modifyEntry] at he
  split at he
  · rename_i hx
    obtain ⟨e', he', rfl⟩ := Option.map_eq_some_iff.1 he
    exact .inr ⟨hx, _, object?_of_lookup? (hx ▸ he'), rfl⟩
  · rename_i hx
    exact .inl ⟨object?_of_lookup? he, hx⟩

/-- A reflection object is made as one, and then it is the reflection. -/
theorem Aloof.reflect {P : Heap → Prop} (hP : Aloof P) (key : Reflected)
    (hnew : ∀ h, P h → P (h.allocate key.metaclass .none).2)
    (hset : ∀ h r, (∀ o, h.object? r = some o → o.ofClass = key.metaclass) → P h → P (h.setPayload r key.payload))
    (hmap : ∀ h r, h.Unread r → P h → P { h with reflections := h.reflections.insert key r }) :
    Preserves P (reflect key) := by
  have hrest : ∀ r, Preserves (fun h => P h ∧ ∀ o, h.object? r = some o →
      o.ofClass = key.metaclass ∧ ¬ o.payload.Memoized) (do
      Heap.putPayload r key.payload
      Heap.setReflection key r
      return r) := by
    intro r
    have hA := hP.and (aloof_at r fun o => o.ofClass = key.metaclass ∧ ¬ o.payload.Memoized)
    refine preserves_bind (hA.putPayload r fun h hk => ⟨hset h r (fun o ho => (hk.2 o ho).1) hk.1, fun o ho => ?_⟩) fun _ => ?_
    · rcases object?_of_modifyObject ho with ⟨_, hne⟩ | ⟨_, o', ho', rfl⟩
      · exact absurd rfl hne
      · exact ⟨(hk.2 o' ho').1, key.not_memoized⟩
    · exact preserves_bind (hA.setReflection key r fun h hk => ⟨hmap h r (fun o ho => (hk.2 o ho).2) hk.1, hk.2⟩) fun _ =>
        preserves_pure r
  unfold Heap.reflect
  refine preserves_get fun h _ => ?_
  split
  · exact preserves_pure _
  · refine fun h hk => (hrest (h.allocate key.metaclass .none).1 (h.allocate key.metaclass .none).2
      ⟨hnew h hk, fun o ho => ?_⟩).1
    rw [object?_allocate_self h _ _ ho]
    exact ⟨rfl, Payload.not_memoized_of_isOrdinary rfl⟩

/-- A reflection has been there, or it has just been made. -/
theorem wp_reflect_unread (key : Reflected) :
    (reflect key).wp h (fun r h' => h.reflection? key = some r ∧ h' = h ∨ h'.Unread r) fun _ _ => True := by
  unfold Heap.reflect
  simp only [Act.wp_bind, Act.wp_getThe]
  cases hk : h.reflection? key with
  | some r => exact .inl ⟨rfl, rfl⟩
  | none =>
      have hA : ∀ r, Aloof fun h => h.Unread r := fun r => aloof_at r fun o => ¬ o.payload.Memoized
      have hrest : ∀ r, Preserves (fun h => h.Unread r) (do
          Heap.putPayload r key.payload
          Heap.setReflection key r : Act Heap Unit) := by
        refine fun r => preserves_bind ((hA r).putPayload r fun h _ o ho => ?_) fun _ =>
          (hA r).setReflection key r fun _ hk => hk
        rcases object?_of_modifyObject ho with ⟨_, hne⟩ | ⟨_, o', _, rfl⟩
        · exact absurd rfl hne
        · exact key.not_memoized
      have hnew : (h.allocate key.metaclass .none).2.Unread (h.allocate key.metaclass .none).1 := fun o ho => by
        rw [object?_allocate_self h _ _ ho]
        exact Payload.not_memoized_of_isOrdinary rfl
      have hdone := Act.wp_of_preserves (hrest (h.allocate key.metaclass .none).1) hnew
      rw [Act.wp_bind] at hdone
      simp only [Act.wp_bind]
      refine Act.wp_of_eq_ok (show Heap.create key.metaclass .none h = (.ok (h.allocate key.metaclass .none).1, _) from rfl) ?_
      exact Act.wp_mono hdone (fun _ _ h => Act.wp_mono h (fun _ _ h => .inr h) fun _ _ _ => trivial) fun _ _ _ => trivial

/-- A member is stored, or nothing has been. -/
theorem Aloof.wp_setMember {P P' : Heap → Prop} (hP' : Aloof P') {name : String} {v : Value}
    (hset : ∀ h, P h → P' (h.modifyObject r fun o => { o with members := o.members.insert name v })) (hk : P h) :
    (Heap.setMember r name v).wp h (fun _ => P') fun _ h => P h ∨ P' h := by
  unfold Heap.setMember
  simp only [Act.wp_bind, Act.wp_modify]
  refine Act.wp_mono (Act.wp_of_preserves (preserves_requireStorable v) hk) (fun _ h₁ hk => ?_) fun _ _ => .inl
  refine Act.wp_mono (Act.wp_of_preserves (preserves_entry r) hk) (fun e h₂ hk => ?_) fun _ _ => .inl
  exact Act.wp_mono (Act.wp_of_preserves (hP'.relink r _ v) (hset h₂ hk)) (fun _ _ hk => hk) fun _ _ => .inr

namespace Law

variable (hL : Law G K)
include hL

theorem of_iff (h : ∀ h, K h ↔ K' h) : Law G K' := funext (fun h' => propext (h h')) ▸ hL

theorem and (hL' : Law G K') : Law G fun h => K h ∧ K' h where
  toAloof := hL.toAloof.and hL'.toAloof
  create hx ho hk := ⟨hL.create hx ho hk.1, hL'.create hx ho hk.2⟩
  store v hu hk := ⟨hL.store v hu hk.1, hL'.store v hu hk.2⟩
  write f hf hk := ⟨hL.write f hf hk.1, hL'.write f hf hk.2⟩
  reflect key hk := ⟨hL.reflect key hk.1, hL'.reflect key hk.2⟩

theorem setMember {r : Handle} {name : String} (hr : name = "value" → ¬ G r) (v : Value) :
    Preserves K (setMember r name v) :=
  hL.toAloof.setMember r name v fun _ hk => hL.store v (fun hn hg => absurd hg (hr hn)) hk

theorem setMember_of_unread {r : Handle} (hu : h.Unread r) (hk : K h) (name : String) (v : Value) :
    K (Heap.setMember r name v h).2 := by
  refine ((hL.toAloof.and (aloof_at r _)).setMember r name v (fun h hk => ⟨hL.store v (fun _ _ => hk.2) hk.1, ?_⟩) h
    ⟨hk, hu⟩).1
  intro o ho
  rcases object?_of_modifyObject ho with ⟨_, hne⟩ | ⟨_, o', ho', rfl⟩
  · exact absurd rfl hne
  · exact hk.2 o' ho'

theorem setMember_guarded {r : Handle} {name : String} (hu : name = "value" → G r → h.Unread r) (hk : K h) (v : Value) :
    K (Heap.setMember r name v h).2 := by
  by_cases hg : name = "value" ∧ G r
  · exact hL.setMember_of_unread (hu hg.1 hg.2) hk name v
  · exact hL.setMember (fun hn hr => hg ⟨hn, hr⟩) v h hk

/-- The payload is one that the object may have. -/
theorem setPayload {r : Handle} {x : Payload} (hx : h.Admits r x) (hk : K h) : K (h.setPayload r x) :=
  hL.write (fun _ => x) (fun o ho => ⟨hx.takes o ho, fun hn => .inr (hx.nameless hn)⟩) hk

theorem aloof_admits (r : Handle) (x : Payload) : Aloof fun h => K h ∧ h.Admits r x :=
  hL.toAloof.and ⟨fun r' f hf hx => ⟨(aloof_at r _).entry r' f hf hx.takes, hx.nameless⟩,
    fun _ _ _ hx => ⟨hx.takes, hx.nameless⟩⟩

theorem admits_setPayload {r : Handle} {x : Payload} (hk : K h ∧ h.Admits r x) :
    K (h.setPayload r x) ∧ (h.setPayload r x).Admits r x := by
  refine ⟨hL.setPayload hk.2 hk.1, fun o ho => ?_, hk.2.nameless⟩
  rcases object?_of_modifyObject ho with ⟨_, hne⟩ | ⟨_, o', _, rfl⟩
  · exact absurd rfl hne
  · exact .same

theorem replacePayload {r : Handle} {x : Payload} (hx : h.Admits r x) (hk : K h) : K (replacePayload r x h).2 :=
  ((hL.aloof_admits r x).replacePayload r (fun _ hk => hL.admits_setPayload hk) h ⟨hk, hx⟩).1

theorem putPayload {r : Handle} {x : Payload} (hx : h.Admits r x) (hk : K h) : K (putPayload r x h).2 :=
  ((hL.aloof_admits r x).putPayload r (fun _ hk => hL.admits_setPayload hk) h ⟨hk, hx⟩).1

theorem createWith {c : ClassId} {seed x : Payload} (hs : seed.Fits c) (ho : seed.isOrdinary) (hx : x.home? = some c)
    (hxo : x.isOrdinary) : Preserves K (createWith c seed x) := by
  intro h hk
  have hnew : K (h.allocate c seed).2 ∧ (h.allocate c seed).2.Admits (h.allocate c seed).1 x :=
    ⟨hL.create hs ho hk, admits_allocate_self h c seed hx hxo⟩
  exact (preserves_bind (preserves_discard ((hL.aloof_admits (h.allocate c seed).1 x).replacePayload _
    fun _ hk => hL.admits_setPayload hk)) (fun _ => preserves_pure (h.allocate c seed).1) _ hnew).1

theorem arrayPush (r : Handle) (v : Value) : Preserves K (arrayPush r v) := by
  unfold Heap.arrayPush
  refine preserves_bind (preserves_requireStorable v) fun _ => preserves_bind (preserves_entry r) fun e => ?_
  split
  · exact preserves_throw _
  · refine preserves_bind (preserves_modify fun h hk => hL.write (pushItem v) (fun o _ => ?_) hk) fun _ =>
      preserves_bind (hL.link r v) fun _ => preserves_pure _
    cases hp : o.payload with
    | array items => exact ⟨.items hp, nofun⟩
    | _ => exact ⟨.of_eq (by rw [hp]; rfl), .inl⟩

theorem arrayPop (r : Handle) : Preserves K (arrayPop r) := by
  unfold Heap.arrayPop
  refine preserves_bind (preserves_entry r) fun e => ?_
  split
  · exact preserves_throw _
  · refine preserves_bind (preserves_modify fun h hk => hL.write popItem (fun o _ => ?_) hk) fun _ =>
      preserves_bind (hL.unlink r _) fun _ => preserves_pure _
    cases hp : o.payload with
    | array items => exact ⟨.items hp, nofun⟩
    | _ => exact ⟨.of_eq (by rw [hp]; rfl), .inl⟩

theorem slotSet (r : Handle) (i : Int64) (v : Value) : Preserves K (slotSet r i v) := by
  unfold Heap.slotSet
  refine preserves_bind (preserves_requireStorable v) fun _ => preserves_bind (fun _ h => h) fun old => ?_
  refine preserves_bind (preserves_modify fun h hk => hL.write (storeItem i.toNatClampNeg v) (fun o _ => ?_) hk) fun _ =>
    hL.relink r old v
  cases hp : o.payload with
  | array items => exact ⟨.items hp, nofun⟩
  | tuple items => exact ⟨.slots hp, nofun⟩
  | _ => exact ⟨.of_eq (by rw [hp]; rfl), .inl⟩

end Law

/-! ## Laws about single objects -/

def Every (Q : Handle → Object → Prop) (h : Heap) : Prop := ∀ r o, h.object? r = some o → Q r o

theorem aloof_every (Q : Handle → Object → Prop) : Aloof (Every Q) :=
  ⟨fun _ _ hf hk x o ho => hk x o (object?_modifyEntry hf x ▸ ho), fun _ _ _ hk => hk⟩

theorem Every.modifyObject {Q : Handle → Object → Prop} (hk : h.Every Q) {f : Object → Object}
    (hf : ∀ o, h.object? r = some o → Q r (f o)) : (h.modifyObject r f).Every Q := by
  intro x o ho
  rcases object?_of_modifyObject ho with ⟨hold, _⟩ | ⟨rfl, o', ho', rfl⟩
  · exact hk x o hold
  · exact hf o' ho'

theorem Every.allocate {Q : Handle → Object → Prop} (hk : h.Every Q) {c : ClassId} {x : Payload}
    (hx : ∀ r, Q r { ofClass := c, payload := x }) : (h.allocate c x).2.Every Q := by
  intro r o ho
  rcases object?_of_allocate ho with hold | rfl
  · exact hk r o hold
  · exact hx r

theorem Every.collect {Q : Handle → Object → Prop} (hk : h.Every Q) (registry : Registry) (provider : RootProvider) :
    (h.collect registry provider).2.Every Q :=
  fun r o ho => hk r o (object?_of_collect ho)

/-- What is true of new objects, and stays true as they change. -/
theorem law_every {Q : Handle → Object → Prop}
    (hnew : ∀ r c x, x.Fits c → x.isOrdinary → Q r { ofClass := c, payload := x })
    (hstore : ∀ r o name v, (name = "value" → G r → ¬ o.payload.Memoized) → Q r o →
      Q r { o with members := o.members.insert name v })
    (hwrite : ∀ r o x, o.Takes x → Q r o → Q r { o with payload := x })
    (hreflect : ∀ r o (key : Reflected), o.ofClass = key.metaclass → Q r o → Q r { o with payload := key.payload }) :
    Law G (Every Q) where
  toAloof := aloof_every Q
  create hx ho hk := hk.allocate fun r => hnew r _ _ hx ho
  store v hu hk := hk.modifyObject fun o ho => hstore _ o _ v (fun hn hg => hu hn hg o ho) (hk _ o ho)
  write f hf hk := hk.modifyObject fun o ho => hwrite _ o _ (hf o ho).1 (hk _ o ho)
  reflect key hk := (aloof_every Q).reflect key
    (fun _ hk => hk.allocate fun r => hnew r _ _ ⟨fun _ hk => (by cases hk), fun _ => key.seed_metaclass⟩ rfl)
    (fun _ r hc hk => hk.modifyObject fun o ho => hreflect r o key (hc o ho) (hk r o ho)) (fun _ _ _ hk => hk) _ hk

/-- Each object has a payload that its class allows. -/
def Fitting (h : Heap) : Prop := h.Every fun _ o => o.payload.Fits o.ofClass

theorem law_fitting : Law G Fitting :=
  law_every (fun _ _ _ hx _ => hx) (fun _ _ _ _ _ hx => hx) (fun _ _ _ htakes hx => htakes.fit hx)
    fun _ _ key hc _ => hc ▸ key.fits_payload

/-- No object in the set is a future that has been read. -/
theorem law_unread (U : Handle → Prop) : Law G fun h => ∀ r, U r → h.Unread r := by
  have hevery : Law G (Every fun r o => U r → ¬ o.payload.Memoized) :=
    law_every (fun _ _ _ _ ho _ => Payload.not_memoized_of_isOrdinary ho) (fun _ _ _ _ _ hx => hx)
      (fun _ _ _ htakes hx hu hm => hx hu (htakes.memoized hm)) fun _ _ key _ _ _ => key.not_memoized
  exact hevery.of_iff fun h => ⟨fun hk r hr o ho => hk r o ho hr, fun hk r o ho hr => hk r hr o ho⟩

theorem law_unread_at (r : Handle) : Law G fun h => h.Unread r :=
  (law_unread (· = r)).of_iff fun _ => forall_eq

/-- What has become a reflection since is no future that has been read. -/
theorem law_reflected (h₀ : Heap) : Law G fun h => ∀ key r, h.reflection? key = some r →
    h₀.reflection? key = some r ∨ h.Unread r := by
  have hsame : ∀ (h : Heap) {h' : Heap}, h'.reflections = h.reflections → (∀ r, h.Unread r → h'.Unread r) →
      (∀ key r, h.reflection? key = some r → h₀.reflection? key = some r ∨ h.Unread r) →
      ∀ key r, h'.reflection? key = some r → h₀.reflection? key = some r ∨ h'.Unread r := by
    intro h h' hrefl hunread hk key r hr
    rw [reflection?, hrefl] at hr
    exact (hk key r hr).imp_right (hunread r)
  have hlaw : ∀ r, Law G fun h => h.Unread r := law_unread_at
  have haloof : Aloof fun h => ∀ key r, h.reflection? key = some r → h₀.reflection? key = some r ∨ h.Unread r :=
    ⟨fun {h} r f hf hk => hsame h rfl (fun x => (hlaw x).entry r f hf) hk, fun _ _ _ hk => hk⟩
  refine {
    toAloof := haloof
    create := fun hx ho hk => hsame _ (reflections_allocate _ _ _) (fun r => (hlaw r).create hx ho) hk
    store := fun {h r name} v hu hk => hsame h rfl (fun x => (hlaw x).store v hu) hk
    write := fun {h r} f hf hk => hsame h rfl (fun x => (hlaw x).write f hf) hk
    reflect := fun key hk => haloof.reflect key
      (fun h hk => hsame h (reflections_allocate h _ _) (fun r => (hlaw r).create ⟨fun _ hk => (by cases hk), fun _ => key.seed_metaclass⟩ rfl) hk)
      (fun h r hc hk => hsame h rfl (fun x hu o ho => ?_) hk)
      (fun h r hu hk key' x hx => ?_) _ hk }
  · rcases object?_of_modifyObject ho with ⟨hold, _⟩ | ⟨_, _, _, rfl⟩
    · exact hu o hold
    · exact key.not_memoized
  · simp only [reflection?, Bindings.get?_insert] at hx
    split at hx
    · cases hx
      exact .inr hu
    · exact hk key' x hx

/-- The object is there and of the class. -/
def Holds (t : Handle) (c : ClassId) (h : Heap) : Prop := ∃ o, h.object? t = some o ∧ o.ofClass = c

theorem orderly_allocate (hd : h.Orderly) (c : ClassId) (x : Payload) : (h.allocate c x).2.Orderly := by
  obtain ⟨hnodup, hvacant⟩ := orderly_free_allocate hd c x
  refine ⟨hnodup, hvacant, fun {r o} ho => ?_⟩
  rcases object?_of_allocate ho with hold | rfl
  · exact hd.distinct hold
  · exact Bindings.Distinct.empty

theorem holds_allocate_self (hd : h.Orderly) (c : ClassId) (x : Payload) :
    Holds (h.allocate c x).1 c (h.allocate c x).2 := by
  have hself := (lookup?_allocate hd c x).2 (h.allocate c x).1
  rw [if_pos rfl] at hself
  exact ⟨_, object?_of_lookup? hself, rfl⟩

theorem Holds.allocate {t : Handle} {k : ClassId} (hk : Holds t k h) (hd : h.Orderly) (c : ClassId) (x : Payload) :
    Holds t k (h.allocate c x).2 := by
  obtain ⟨o, ho, rfl⟩ := hk
  obtain ⟨e, he, rfl⟩ := lookup?_of_object? ho
  obtain ⟨hnone, hlookup⟩ := lookup?_allocate hd c x
  refine ⟨e.object, object?_of_lookup? ?_, rfl⟩
  rw [hlookup, if_neg]
  · exact he
  · rintro rfl
    rw [hnone] at he
    cases he

theorem orderly_modifyEntry (hd : h.Orderly) (r : Handle) (f : Entry → Entry)
    (hf : ∀ e : Entry, e.object.members.Distinct → (f e).object.members.Distinct) : (h.modifyEntry r f).Orderly := by
  refine ⟨hd.free_nodup, fun i hi => (hd.free_vacant i hi).modifyEntry r f, fun {x o} ho => ?_⟩
  obtain ⟨e, he, rfl⟩ := lookup?_of_object? ho
  rw [lookup?_modifyEntry] at he
  split at he
  · obtain ⟨e', he', rfl⟩ := Option.map_eq_some_iff.1 he
    exact hf e' (hd.distinct (object?_of_lookup? he'))
  · exact hd.distinct (object?_of_lookup? he)

theorem Holds.modifyEntry {t : Handle} {k : ClassId} (hk : Holds t k h) (r : Handle) {f : Entry → Entry}
    (hf : ∀ e : Entry, (f e).object.ofClass = e.object.ofClass) : Holds t k (h.modifyEntry r f) := by
  obtain ⟨o, ho, rfl⟩ := hk
  obtain ⟨e, he, rfl⟩ := lookup?_of_object? ho
  by_cases ht : t = r
  · exact ⟨(f e).object, object?_of_lookup? (by rw [lookup?_modifyEntry, if_pos ht, he]; rfl), hf e⟩
  · exact ⟨e.object, object?_of_lookup? (by rw [lookup?_modifyEntry, if_neg ht, he]), rfl⟩

/-- Objects that are there stay, with their classes. -/
theorem law_holds (A : Handle → ClassId → Prop) : Law G fun h => h.Orderly ∧ ∀ t k, A t k → Holds t k h := by
  have hnew : ∀ {h : Heap} {c : ClassId} {x : Payload}, (h.Orderly ∧ ∀ t k, A t k → Holds t k h) →
      (h.allocate c x).2.Orderly ∧ ∀ t k, A t k → Holds t k (h.allocate c x).2 := fun hk =>
    ⟨orderly_allocate hk.1 _ _, fun t k ha => (hk.2 t k ha).allocate hk.1 _ _⟩
  have hwrite : ∀ {h : Heap} {r : Handle} {f : Object → Object},
      (∀ o, (f o).ofClass = o.ofClass ∧ (o.members.Distinct → (f o).members.Distinct)) →
      (h.Orderly ∧ ∀ t k, A t k → Holds t k h) →
      (h.modifyObject r f).Orderly ∧ ∀ t k, A t k → Holds t k (h.modifyObject r f) := fun hf hk =>
    ⟨orderly_modifyEntry hk.1 _ _ fun e => (hf e.object).2, fun t k ha =>
      (hk.2 t k ha).modifyEntry _ fun e => (hf e.object).1⟩
  have haloof : Aloof fun h => h.Orderly ∧ ∀ t k, A t k → Holds t k h := ⟨fun r f hf hk =>
    ⟨orderly_modifyEntry hk.1 r f fun e hd => (hf e).symm ▸ hd, fun t k ha =>
      (hk.2 t k ha).modifyEntry r fun e => by rw [hf]⟩,
    fun _ _ _ hk => ⟨⟨hk.1.free_nodup, hk.1.free_vacant, hk.1.distinct⟩, hk.2⟩⟩
  exact {
    toAloof := haloof
    create := fun _ _ hk => hnew hk
    store := fun v _ hk => hwrite (fun _ => ⟨rfl, fun hd => hd.insert _ v⟩) hk
    write := fun f _ hk => hwrite (fun _ => ⟨rfl, fun hd => hd⟩) hk
    reflect := fun key hk => haloof.reflect key (fun _ hk => hnew hk)
      (fun _ _ _ hk => hwrite (fun _ => ⟨rfl, fun hd => hd⟩) hk)
      (fun _ _ _ hk => ⟨⟨hk.1.free_nodup, hk.1.free_vacant, hk.1.distinct⟩, hk.2⟩) _ hk }

theorem law_orderly : Law G Orderly := (law_holds fun _ _ => False).of_iff fun h => by simp

theorem nameless_allocate_self (hd : h.Orderly) (hp : h.Present) (c : ClassId) (x : Payload) :
    (h.allocate c x).2.Nameless (h.allocate c x).1 := fun key hr => by
  rw [reflection?, reflections_allocate] at hr
  have hlive := hp key _ hr
  rw [isLive, (lookup?_allocate hd c x).1] at hlive
  cases hlive

/-- Objects that are there and are no reflections do not become any. -/
theorem law_nameless (A : Handle → Prop) :
    Law G fun h => h.Orderly ∧ h.Present ∧ ∀ t, A t → h.isLive t ∧ h.Nameless t := by
  let P : Heap → Prop := fun h => h.Present ∧ ∀ t, A t → h.isLive t ∧ h.Nameless t
  have hkept : ∀ {h h' : Heap}, h'.reflections = h.reflections → (∀ x, h.isLive x → h'.isLive x) → P h → P h' := by
    intro h h' hrefl hlive hk
    have hat : ∀ key, h'.reflection? key = h.reflection? key := fun key => by rw [reflection?, hrefl, reflection?]
    exact ⟨fun key r hr => hlive r (hk.1 key r (hat key ▸ hr)), fun t ht =>
      ⟨hlive t (hk.2 t ht).1, fun key hr => (hk.2 t ht).2 key (hat key ▸ hr)⟩⟩
  have hentry : ∀ {h : Heap} r f, P h → P (h.modifyEntry r f) := fun {h} r f =>
    hkept rfl fun x hx => (isLive_modifyEntry h r f x).trans hx
  have horderly : Law G Orderly := law_orderly
  refine {
    entry := fun r f hf hk => ⟨horderly.entry r f hf hk.1, hentry r f hk.2⟩
    books := fun stats pending overflown hk => ⟨horderly.books stats pending overflown hk.1, hk.2⟩
    create := fun {h c x} hx ho hk => ⟨horderly.create hx ho hk.1, hkept (reflections_allocate h c x) (fun y hy => ?_) hk.2⟩
    store := fun v hu hk => ⟨horderly.store v hu hk.1, hentry _ _ hk.2⟩
    write := fun f hf hk => ⟨horderly.write f hf hk.1, hentry _ _ hk.2⟩
    reflect := fun {h} key hk => ⟨horderly.reflect key hk.1, ?_⟩ }
  · obtain ⟨o, ho⟩ := isLive_iff.1 hy
    obtain ⟨o', ho', _⟩ := Holds.allocate ⟨o, ho, rfl⟩ hk.1 c x
    exact isLive_of_object? ho'
  · refine (Act.wp_mono (wp_reflect_coins hk.1.free_vacant key) (fun r h' hdone => ?_) fun _ _ => False.elim :
      (Heap.reflect key).wp h (fun _ => P) fun _ => P).state
    rcases hdone with ⟨_, rfl⟩ | hc
    · exact hk.2
    · refine ⟨fun key' x hx => ?_, fun t ht => ⟨(hc.isLive (hk.2.2 t ht).1).2, fun key' hx => ?_⟩⟩
      · rw [hc.reflection?] at hx
        split at hx
        · exact Option.some.inj hx ▸ hc.isLive_self
        · exact (hc.isLive (hk.2.1 key' x hx)).2
      · rw [hc.reflection?] at hx
        split at hx
        · exact (hc.isLive (hk.2.2 t ht).1).1 (Option.some.inj hx).symm
        · exact (hk.2.2 t ht).2 key' hx

theorem law_present : Law G fun h => h.Orderly ∧ h.Present :=
  (law_nameless fun _ => False).of_iff fun h => by simp

end Heap

/-- New objects start with what their class gives them. -/
def Registry.Seeded (r : Registry) : Prop := ∀ c, r.seed c = c.seed.payload

/-! ## Copies -/

namespace Copier

variable {G : Handle → Prop} {K : Heap → Prop} {source : Heap} {hole : List (Handle × ClassId)} {c : Copier}
  {α β : Type}

/-- The object of the target waits for its content. Those in the hole do so besides those on the list. -/
inductive Awaits (source : Heap) (hole : List (Handle × ClassId)) (c : Copier) : Handle → ClassId → Prop where
  | hole {t : Handle} {k : ClassId} : (t, k) ∈ hole → Awaits source hole c t k
  | listed {r t : Handle} {o : Object} : (r, t) ∈ c.unfilled → source.object? r = some o → Awaits source hole c t o.ofClass

theorem Awaits.mono {c' : Copier} {hole' : List (Handle × ClassId)} {t : Handle} {k : ClassId}
    (h : c.Awaits source hole t k) (hu : ∀ x ∈ c.unfilled, x ∈ c'.unfilled) (hh : ∀ x ∈ hole, x ∈ hole') :
    c'.Awaits source hole' t k := by
  cases h with
  | hole h => exact .hole (hh _ h)
  | listed h ho => exact .listed (hu _ h) ho

/-- The target keeps to the law, and what waits for its content is there. -/
structure Lawful (K : Heap → Prop) (source : Heap) (hole : List (Handle × ClassId)) (c : Copier) : Prop where
  law : K c.target
  orderly : c.target.Orderly
  present : c.target.Present
  seeded : c.registry.Seeded
  copied : ∀ x ∈ c.unfilled, ∀ o, source.object? x.1 = some o → o.payload.fate = .copied
  holds : ∀ t k, c.Awaits source hole t k → c.target.Holds t k ∧ c.target.Unread t ∧ c.target.Nameless t

theorem Lawful.start {target : Heap} (ht : K target) (hd : target.Orderly) (hp : target.Present) {registry : Registry}
    (hr : registry.Seeded) : (Copier.new source target registry).Lawful K source [] where
  law := ht
  orderly := hd
  present := hp
  seeded := hr
  copied := by simp [Copier.new]
  holds t k h := by
    cases h with
    | hole h => cases h
    | listed h _ => cases h

section
variable (hL : Heap.Law G K)
include hL

/-- Whatever is done to the target by the law. -/
theorem Lawful.onTarget (hc : c.Lawful K source hole) {act : Act Heap α}
    (ha : ∀ K', Heap.Law G K' → K' c.target → K' (act c.target).2) : (onTarget act c).2.Lawful K source hole := by
  have hholds := ha _ (Heap.law_holds (c.Awaits source hole)) ⟨hc.orderly, fun t k h => (hc.holds t k h).1⟩
  have hunread := ha _ (Heap.law_unread fun t => ∃ k, c.Awaits source hole t k) fun t hk => by
    obtain ⟨k, hk⟩ := hk
    exact (hc.holds t k hk).2.1
  have hnameless := ha _ (Heap.law_nameless fun t => ∃ k, c.Awaits source hole t k) ⟨hc.orderly, hc.present, fun t hk => by
    obtain ⟨k, hk⟩ := hk
    obtain ⟨⟨o, ho, _⟩, _, hn⟩ := hc.holds t k hk
    exact ⟨Heap.isLive_of_object? ho, hn⟩⟩
  refine ⟨ha K hL hc.law, hholds.1, hnameless.2.1, hc.seeded, hc.copied, fun t k h => ?_⟩
  have h' : c.Awaits source hole t k := h.mono (fun _ h => h) fun _ h => h
  exact ⟨hholds.2 t k h', hunread t ⟨k, h'⟩, (hnameless.2.2 t ⟨k, h'⟩).2⟩

theorem lawful_onTarget {act : Act Heap α} (ha : ∀ K', Heap.Law G K' → Preserves K' act) :
    Preserves (Lawful K source hole) (onTarget act) :=
  fun _ hc => hc.onTarget hL fun K' hL' => ha K' hL' _

omit hL in
theorem lawful_remember (r t : Handle) : Preserves (Lawful K source hole) (remember r t) :=
  preserves_modify fun _ hc =>
    ⟨hc.law, hc.orderly, hc.present, hc.seeded, hc.copied, fun t k h => hc.holds t k (h.mono (fun _ h => h) fun _ h => h)⟩

theorem lawful_place {r : Handle} {o : Object} (ho : source.object? r = some o) (hfate : o.payload.fate = .copied) :
    Preserves (Lawful K source hole) (place r o) := by
  intro c hc
  have hseed : (c.registry.seed o.ofClass).Fits o.ofClass ∧ (c.registry.seed o.ofClass).isOrdinary := by
    rw [hc.seeded]
    exact o.ofClass.fits_seed
  have hnew : (onTarget (Heap.create o.ofClass (c.registry.seed o.ofClass)) c).2.Lawful K source hole :=
    hc.onTarget hL fun K' hL' hk => hL'.create hseed.1 hseed.2 hk
  have hself := Heap.holds_allocate_self hc.orderly o.ofClass (c.registry.seed o.ofClass)
  have hunread : (c.target.allocate o.ofClass (c.registry.seed o.ofClass)).2.Unread
      (c.target.allocate o.ofClass (c.registry.seed o.ofClass)).1 := fun o' ho' => by
    rw [Heap.object?_allocate_self _ _ _ ho']
    exact Payload.not_memoized_of_isOrdinary hseed.2
  have hnameless := Heap.nameless_allocate_self hc.orderly hc.present o.ofClass (c.registry.seed o.ofClass)
  refine ⟨hnew.law, hnew.orderly, hnew.present, hnew.seeded, fun x hx o' ho' => ?_, fun t k h => ?_⟩
  · rcases List.mem_cons.1 hx with rfl | hx
    · exact Option.some.inj (ho.symm.trans ho') ▸ hfate
    · exact hnew.copied x hx o' ho'
  · cases h with
    | hole h => exact hnew.holds t k (.hole h)
    | listed h ho' =>
        rcases List.mem_cons.1 h with heq | h
        · cases heq
          cases ho.symm.trans ho'
          exact ⟨hself, hunread, hnameless⟩
        · exact hnew.holds t _ (.listed h ho')

theorem lawful_mapHandle (r : Handle) : Preserves (Lawful K source hole) (mapHandle source r) := by
  cases ho : source.object? r with
  | none =>
      unfold mapHandle
      rw [ho]
      exact preserves_throw _
  | some o =>
      have hlodge : Preserves (Lawful K source hole) (lodge r o) := by
        unfold lodge
        cases hfate : o.payload.fate with
        | reflected key => exact preserves_map (lawful_onTarget hL fun K' hL' _ hk => hL'.reflect key hk)
        | dropped => exact preserves_pure _
        | copied => exact preserves_map (lawful_place hL ho hfate)
      rw [mapHandle_eq ho]
      refine preserves_get fun c _ => ?_
      split
      · exact preserves_pure _
      · refine preserves_bind hlodge fun target => ?_
        cases target with
        | some target => exact preserves_bind (lawful_remember r target) fun _ => preserves_pure _
        | none => exact preserves_pure _

theorem lawful_mapValue (v : Value) : Preserves (Lawful K source hole) (mapValue source v) := by
  cases v with
  | object r => exact lawful_mapHandle hL r
  | none => exact preserves_pure _
  | scalar s => exact preserves_pure _

/-- An object that waits for its content gets a payload. -/
theorem lawful_replacePayload {t : Handle} {k : ClassId} (ht : (t, k) ∈ hole) {x : Payload} (hx : x.Fits k)
    (ho : x.isOrdinary) : Preserves (Lawful K source hole) (onTarget (discard <| Heap.replacePayload t x)) := by
  intro c hc
  obtain ⟨⟨o, hobj, hclass⟩, _, hnameless⟩ := hc.holds t k (.hole ht)
  have hadmits : c.target.Admits t x :=
    ⟨fun o' ho' => Option.some.inj (hobj.symm.trans ho') ▸ .fits (hclass ▸ hx) ho, fun _ => hnameless⟩
  exact hc.onTarget hL fun K' hL' hk => preserves_discard (P := fun h => K' h ∧ h.Admits t x)
    ((hL'.aloof_admits t x).replacePayload t fun _ hk => hL'.admits_setPayload hk) _ ⟨hk, hadmits⟩ |>.1

theorem lawful_setMember {t : Handle} {k : ClassId} (ht : (t, k) ∈ hole) (name : String) (v : Value) :
    Preserves (Lawful K source hole) (onTarget (Heap.setMember t name v)) := fun _ hc =>
  hc.onTarget hL fun _ hL' hk => hL'.setMember_of_unread (hc.holds t k (.hole ht)).2.1 hk name v

theorem lawful_fillPayload {t : Handle} {k : ClassId} (ht : (t, k) ∈ hole) {p : Payload} (hp : p.fate = .copied)
    (hfit : p.Fits k) : Preserves (Lawful K source hole) (do
      let payload ← mapPayload source p
      onTarget (discard <| Heap.replacePayload t payload)) := by
  have hitems : ∀ (items : Array Value) (f : Array Value → Payload), (∀ items, (f items).Fits k ∧ (f items).isOrdinary) →
      Preserves (Lawful K source hole) (do
        let payload ← f <$> items.mapM (mapValue source)
        onTarget (discard <| Heap.replacePayload t payload)) := by
    intro items f hf
    simp only [Array.mapM_eq_mapM_toList, bind_map_left]
    exact preserves_bind (preserves_mapM (lawful_mapValue hL) _) fun _ => lawful_replacePayload hL ht (hf _).1 (hf _).2
  cases p with
  | array items => exact hitems items .array fun _ => ⟨Payload.fits_of_home (congrArg some (hfit.home _ rfl).symm), rfl⟩
  | tuple items => exact hitems items .tuple fun _ => ⟨Payload.fits_of_home (congrArg some (hfit.home _ rfl).symm), rfl⟩
  | bound b =>
      simp only [mapPayload, bind_assoc, pure_bind]
      exact preserves_bind (lawful_mapValue hL b.receiver) fun _ => lawful_replacePayload hL ht
        (Payload.fits_of_home (congrArg some (hfit.home _ rfl).symm)) rfl
  | future cell => cases hp
  | task t => cases hp
  | context c => cases hp
  | ofClass c => cases hp
  | ofModule m => cases hp
  | ofFunction f => cases hp
  | _ =>
      simp only [mapPayload, pure_bind]
      exact lawful_replacePayload hL ht hfit rfl

theorem lawful_fill (hs : source.Fitting) {r t : Handle} {o : Object} (ho : source.object? r = some o)
    (hfate : o.payload.fate = .copied) (ht : (t, o.ofClass) ∈ hole) :
    Preserves (Lawful K source hole) (fill source r t) := by
  unfold fill
  rw [ho]
  refine preserves_bind (preserves_forIn (fun e _ => ?_) _ _) fun _ => lawful_fillPayload hL ht hfate (hs r o ho)
  refine preserves_bind (lawful_mapValue hL _) fun v => ?_
  exact preserves_bind (lawful_setMember hL ht _ v) fun _ => preserves_pure _

omit hL in
theorem Lawful.tail {x : Handle × ClassId} (hc : c.Lawful K source (x :: hole)) : c.Lawful K source hole :=
  ⟨hc.law, hc.orderly, hc.present, hc.seeded, hc.copied, fun t k h =>
    hc.holds t k (h.mono (fun _ h => h) fun _ h => List.mem_cons_of_mem x h)⟩

omit hL in
/-- The first object on the list is taken in hand. -/
theorem Lawful.take (hc : c.Lawful K source hole) {r t : Handle} {rest : List (Handle × Handle)}
    (hu : c.unfilled = (r, t) :: rest) {o : Object} (ho : source.object? r = some o) :
    ({ c with unfilled := rest } : Copier).Lawful K source ((t, o.ofClass) :: hole) := by
  refine ⟨hc.law, hc.orderly, hc.present, hc.seeded, fun x hx => hc.copied x (by simp [hu, hx]), fun t' k h => hc.holds t' k ?_⟩
  cases h with
  | hole h =>
      rcases List.mem_cons.1 h with heq | h
      · cases heq
        exact .listed (by simp [hu]) ho
      · exact .hole h
  | listed h ho' => exact .listed (by rw [hu]; exact List.mem_cons_of_mem _ h) ho'

theorem lawful_fillAll (hs : source.Fitting) (fuel : Nat) : ∀ hole, Preserves (Lawful K source hole) (fillAll source fuel) := by
  induction fuel with
  | zero => exact fun _ => preserves_pure _
  | succ fuel ih =>
      intro hole c hc
      rw [fillAll_succ]
      cases hu : c.unfilled with
      | nil => exact hc
      | cons x rest =>
          cases ho : source.object? x.1 with
          | some o =>
              have hfill : Preserves (Lawful K source ((x.2, o.ofClass) :: hole)) (fill source x.1 x.2) :=
                lawful_fill hL hs ho (hc.copied x (by simp [hu]) o ho) List.mem_cons_self
              exact (preserves_bind hfill (fun _ => ih _) _ (hc.take hu ho)).tail
          | none =>
              have hrest : ({ c with unfilled := rest } : Copier).Lawful K source hole :=
                ⟨hc.law, hc.orderly, hc.present, hc.seeded, fun y hy => hc.copied y (by simp [hu, hy]), fun t k h =>
                  hc.holds t k (h.mono (fun y hy => by rw [hu]; exact List.mem_cons_of_mem _ hy) fun _ h => h)⟩
              have hstale : Preserves (Lawful K source hole) (fill source x.1 x.2) := by
                unfold fill
                rw [ho]
                exact preserves_throw _
              exact preserves_bind hstale (fun _ => ih hole) _ hrest

theorem lawful_copy (hs : source.Fitting) (v : Value) : Preserves (Lawful K source hole) (copy source v) :=
  preserves_bind (lawful_mapValue hL v) fun _ => preserves_bind (lawful_fillAll hL hs _ hole) fun _ => preserves_pure _

end

end Copier

end Spool
