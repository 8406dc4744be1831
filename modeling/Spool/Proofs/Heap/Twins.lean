import Spool.Proofs.Heap.Pairings
import Spool.Proofs.Heap.Roots

/-!
# Heaps up to the names of objects

Twin heaps hold the same objects under handles that are paired. They show the same to everybody who does not look at the
handles themselves, and they stay twins when the same is written to both.
-/

namespace Spool

variable {R R' : Pairing} {a b : Handle} {v w : Value}

/-! ## Heaps -/

namespace Heap

variable {h h' k k' : Heap} {o o' : Object}

/-- A sound heap whose reflections stay. -/
structure Neat (h : Heap) : Prop where
  sound : h.Sound
  rooted : ∀ key r, h.reflection? key = some r → 0 < h.rootCount r

/-- Heaps that show the same under the handles that are paired. -/
structure Twin (R : Pairing) (h k : Heap) : Prop where
  left : h.Neat
  right : k.Neat
  same : ∀ {a b a' b'}, R a b → R a' b' → (a = a' ↔ b = b')
  objects : ∀ {a b}, R a b → ∃ o o', h.object? a = some o ∧ k.object? b = some o' ∧ o.Pairs R o'
  reflections : ∀ key, Option.Rel R (h.reflection? key) (k.reflection? key)

theorem Twin.symm (ht : h.Twin R k) : k.Twin (flip R) h where
  left := ht.right
  right := ht.left
  same hab hab' := (ht.same hab hab').symm
  objects hab := by
    obtain ⟨o, o', ho, ho', hp⟩ := ht.objects hab
    exact ⟨o', o, ho', ho, hp.symm⟩
  reflections key := rel_flip (ht.reflections key)

theorem Twin.isLive (ht : h.Twin R k) (hab : R a b) : h.isLive a ∧ k.isLive b := by
  obtain ⟨o, o', ho, ho', _⟩ := ht.objects hab
  exact ⟨isLive_of_object? ho, isLive_of_object? ho'⟩

theorem Twin.valid (ht : h.Twin R k) (hv : v.Pairs R w) : h.Valid v ∧ k.Valid w := by
  cases hv with
  | object hab => exact ⟨fun r hr => by cases hr; exact (ht.isLive hab).1, fun r hr => by cases hr; exact (ht.isLive hab).2⟩
  | _ => exact ⟨nofun, nofun⟩

theorem Twin.valid_all (ht : h.Twin R k) {vs ws : List Value} (hv : Value.AllPairs R vs ws) :
    (∀ v ∈ vs, h.Valid v) ∧ ∀ w ∈ ws, k.Valid w := by
  induction hv with
  | nil => exact ⟨nofun, nofun⟩
  | cons hv _ ih =>
      obtain ⟨hl, hr⟩ := ht.valid hv
      exact ⟨List.forall_mem_cons.2 ⟨hl, ih.1⟩, List.forall_mem_cons.2 ⟨hr, ih.2⟩⟩

/-! ## Writing to both -/

theorem Neat.written {r : Handle} (hn : h.Neat) (hw : h.Written r o h') : h'.Neat := by
  refine ⟨hw.sound, fun key x hx => ?_⟩
  rw [hw.puts.rootCount]
  rw [reflection?, hw.puts.reflections] at hx
  exact hn.rooted key x hx

/-- Two handles that name the same object already, or are both new. -/
def Twin.Joins (R : Pairing) (h k : Heap) (a b : Handle) : Prop := R a b ∨ h.object? a = none ∧ k.object? b = none

theorem Twin.same_link (ht : h.Twin R k) (hab : Twin.Joins R h k a b) {x y x' y' : Handle} (hxy : R.link a b x y)
    (hxy' : R.link a b x' y') : x = x' ↔ y = y' := by
  rcases hab with hab | ⟨ha, hb⟩
  · have hle : ∀ x y, R.link a b x y → R x y := by
      rintro x y (h | ⟨rfl, rfl⟩)
      · exact h
      · exact hab
    exact ht.same (hle x y hxy) (hle x' y' hxy')
  · have hne : ∀ x y, R x y → x ≠ a ∧ y ≠ b := by
      intro x y hxy
      obtain ⟨o, o', ho, ho', _⟩ := ht.objects hxy
      constructor
      · rintro rfl
        cases ho.symm.trans ha
      · rintro rfl
        cases ho'.symm.trans hb
    rcases hxy with hxy | ⟨rfl, rfl⟩
    · rcases hxy' with hxy' | ⟨rfl, rfl⟩
      · exact ht.same hxy hxy'
      · simp [hne x y hxy]
    · rcases hxy' with hxy' | ⟨rfl, rfl⟩
      · simp [(hne x' y' hxy').1.symm, (hne x' y' hxy').2.symm]
      · simp

/-- The same object is put under both handles. -/
theorem Twin.put (ht : h.Twin R k) (hab : Twin.Joins R h k a b) (hn : h'.Neat) (kn : k'.Neat)
    (hobj : ∀ x, h'.object? x = if x = a then some o else h.object? x)
    (kobj : ∀ x, k'.object? x = if x = b then some o' else k.object? x) (ho : o.Pairs (R.link a b) o')
    (hr : ∀ key, Option.Rel (R.link a b) (h'.reflection? key) (k'.reflection? key)) : h'.Twin (R.link a b) k' where
  left := hn
  right := kn
  same := ht.same_link hab
  objects {x y} hxy := by
    have hiff := ht.same_link hab hxy (R.link_self a b)
    rw [hobj, kobj]
    by_cases hx : x = a
    · rw [if_pos hx, if_pos (hiff.1 hx)]
      exact ⟨o, o', rfl, rfl, ho⟩
    · rw [if_neg hx, if_neg fun hy => hx (hiff.2 hy)]
      obtain ⟨p, p', hp, hp', hpair⟩ := ht.objects (hxy.resolve_right fun h => hx h.1)
      exact ⟨p, p', hp, hp', hpair.mono (R.le_link a b)⟩
  reflections := hr

theorem Twin.write (ht : h.Twin R k) (hab : Twin.Joins R h k a b) (hw : h.Written a o h') (kw : k.Written b o' k')
    (ho : o.Pairs (R.link a b) o') : h'.Twin (R.link a b) k' := by
  refine ht.put hab (ht.left.written hw) (ht.right.written kw) hw.puts.object? kw.puts.object? ho fun key => ?_
  rw [reflection?, reflection?, hw.puts.reflections, kw.puts.reflections]
  exact rel_imp (ht.reflections key) fun x y _ => R.le_link a b x y

theorem Neat.reflects {key : Reflected} {r : Handle} (hn : h.Neat) (hr : h.Reflects key r h') : h'.Neat := by
  refine ⟨hr.sound, fun x s hs => ?_⟩
  rw [hr.rootCount]
  split
  · exact Nat.one_pos
  · rw [reflection?, hr.reflections, Bindings.get?_insert] at hs
    split at hs
    · cases hs
      exact absurd rfl ‹_›
    · exact hn.rooted x s hs

theorem Twin.reflects {key : Reflected} (ht : h.Twin R k) (hr : h.Reflects key a h') (kr : k.Reflects key b k') :
    h'.Twin (R.link a b) k' := by
  have hplain : key.payload.Pairs (R.link a b) key.payload := Payload.pairs_of_plain (by cases key <;> rfl)
  refine ht.put (.inr ⟨hr.fresh, kr.fresh⟩) (ht.left.reflects hr) (ht.right.reflects kr) hr.object? kr.object?
    ⟨rfl, .empty, hplain⟩ fun x => ?_
  rw [reflection?, reflection?, hr.reflections, kr.reflections, Bindings.get?_insert, Bindings.get?_insert]
  split
  · exact .some (R.link_self a b)
  · exact rel_imp (ht.reflections x) fun x y _ => R.le_link a b x y

/-- Roots have come. -/
theorem Twin.recounted (ht : h.Twin R k) {f g : Handle → Nat} (hc : h.Recounted f h') (kc : k.Recounted g k')
    (hf : ∀ r, h.rootCount r ≤ f r) (hg : ∀ r, k.rootCount r ≤ g r) : h'.Twin R k' where
  left := ⟨hc.sound, fun key r hr => by
    rw [hc.rootCount]
    exact Nat.lt_of_lt_of_le (ht.left.rooted key r (by rwa [reflection?, hc.reflections] at hr)) (hf r)⟩
  right := ⟨kc.sound, fun key r hr => by
    rw [kc.rootCount]
    exact Nat.lt_of_lt_of_le (ht.right.rooted key r (by rwa [reflection?, kc.reflections] at hr)) (hg r)⟩
  same := ht.same
  objects {x y} hxy := by
    rw [hc.object?, kc.object?]
    exact ht.objects hxy
  reflections key := by
    rw [reflection?, reflection?, hc.reflections, kc.reflections]
    exact ht.reflections key

/-! ## Looking at both -/

section
variable (ht : h.Twin R k)
include ht

theorem Twin.text? (hv : v.Pairs R w) : k.text? w = h.text? v := by
  cases hv with
  | object hab =>
      obtain ⟨o, o', ho, ho', hp⟩ := ht.objects hab
      simp [Heap.text?, ho, ho', hp.text?]
  | _ => rfl

theorem Twin.classOf? (hv : v.Pairs R w) : k.classOf? w = h.classOf? v := by
  cases hv with
  | object hab =>
      obtain ⟨o, o', ho, ho', hp⟩ := ht.objects hab
      simp [Heap.classOf?, ho, ho', hp.ofClass]
  | _ => rfl

theorem Twin.typeName (hv : v.Pairs R w) (r : Registry) : k.typeName r w = h.typeName r v := by
  simp [Heap.typeName, ht.classOf? hv]

theorem Twin.isInstance (hv : v.Pairs R w) (r : Registry) (c : ClassId) : k.isInstance r w c = h.isInstance r v c := by
  simp [Heap.isInstance, ht.classOf? hv]

theorem Twin.sameValue {x y : Value} (hv : v.Pairs R w) (hx : x.Pairs R y) : k.sameValue w y = h.sameValue v x := by
  have htv := ht.text? hv
  have htx := ht.text? hx
  cases hv with
  | object hab =>
      cases hx with
      | object hab' =>
          have hsame : decide (_ = _) = decide (_ = _) := decide_eq_decide.2 (ht.same hab hab').symm
          simp only [Heap.sameValue, htv, htx, hsame]
      | _ => rfl
  | _ => cases hx <;> rfl

theorem Twin.plainText (ho : o.Pairs R o') (r : Registry) : k.plainText r o' = h.plainText r o := by
  have hm : ((o'.member? "message").bind k.text?) = ((o.member? "message").bind h.text?) := by
    rcases rel_cases (ho.member? "message") with ⟨hx, hy⟩ | ⟨x, y, hx, hy, hp⟩
    · simp [hx, hy]
    · simp [hx, hy, ht.text? hp]
  simp only [Heap.plainText, ho.ofClass, hm]

theorem Twin.objectText (ho : o.Pairs R o') (r : Registry) : k.objectText r o' = h.objectText r o := by
  have hplain := ht.plainText ho r
  obtain ⟨c, members, x⟩ := o
  obtain ⟨c', members', y⟩ := o'
  obtain ⟨_, _, hp⟩ := ho
  cases hp with
  | text s => rfl
  | ofClass c => rfl
  | ofModule m => rfl
  | ofFunction f => rfl
  | bound f capture _ => rfl
  | _ => exact hplain

theorem Twin.leafText (hv : v.Pairs R w) (r : Registry) : k.leafText r w = h.leafText r v := by
  cases hv with
  | object hab =>
      obtain ⟨o, o', ho, ho', hp⟩ := ht.objects hab
      simp [Heap.leafText, ho, ho', ht.objectText hp]
  | _ => rfl

/-- Both values are sequences of the same items, or neither is one. -/
theorem Twin.sequence? (hv : v.Pairs R w) : k.sequence? w = none ∧ h.sequence? v = none ∨
    ∃ opening xs ys closing, h.sequence? v = some (opening, xs, closing) ∧ k.sequence? w = some (opening, ys, closing) ∧
      Value.AllPairs R xs ys := by
  cases hv with
  | object hab =>
      obtain ⟨⟨c, members, x⟩, ⟨c', members', y⟩, ho, ho', _, _, hp⟩ := ht.objects hab
      simp only [Heap.sequence?, ho, ho', Option.map_some]
      cases hp with
      | array hp => exact .inr ⟨_, _, _, _, rfl, rfl, hp⟩
      | tuple hp => exact .inr ⟨_, _, _, _, rfl, rfl, hp⟩
      | _ => exact .inl ⟨rfl, rfl⟩
  | _ => exact .inl ⟨rfl, rfl⟩

theorem Twin.displayWithin (r : Registry) (levels : Nat) (hv : v.Pairs R w) :
    k.displayWithin r levels w = h.displayWithin r levels v := by
  induction levels generalizing v w with
  | zero =>
      unfold Heap.displayWithin
      rcases ht.sequence? hv with ⟨hk, hh⟩ | ⟨_, _, _, _, hh, hk, _⟩
      · rw [hk, hh]
        exact ht.leafText hv r
      · rw [hk, hh]
  | succ levels ih =>
      unfold Heap.displayWithin
      rcases ht.sequence? hv with ⟨hk, hh⟩ | ⟨_, _, _, _, hh, hk, hp⟩
      · rw [hk, hh]
        exact ht.leafText hv r
      · rw [hk, hh]
        simp only [map_eq_of_rel hp fun _ _ => ih]

theorem Twin.display (hv : v.Pairs R w) (r : Registry) : k.display r w = h.display r v := ht.displayWithin r 8 hv

theorem Twin.fetch (hab : R a b) : ∃ o o', h.fetch a = .ok o ∧ k.fetch b = .ok o' ∧ o.Pairs R o' := by
  obtain ⟨o, o', ho, ho', hp⟩ := ht.objects hab
  exact ⟨o, o', by simp [Heap.fetch, ho], by simp [Heap.fetch, ho'], hp⟩

theorem Twin.member (hab : R a b) (name : String) :
    ∃ v w, h.member a name = .ok v ∧ k.member b name = .ok w ∧ Option.Rel (Value.Pairs R) v w := by
  obtain ⟨o, o', ho, ho', hp⟩ := ht.fetch hab
  exact ⟨o.member? name, o'.member? name, by simp [Heap.member, ho, Except.map], by simp [Heap.member, ho', Except.map],
    hp.member? name⟩

omit ht in
theorem itemAt_pairs {xs ys : Array Value} (hp : Value.AllPairs R xs.toList ys.toList) (index : Int64) :
    Concurs R (Value.Pairs R) (itemAt xs index) (itemAt ys index) := by
  have hsize : ys.size = xs.size := by simpa using hp.length_eq.symm
  have hget := rel_getElem? hp index.toNatClampNeg
  simp only [Array.getElem?_toList] at hget
  have hnone : Concurs R (Value.Pairs R) (.error (.index index xs.size)) (.error (.index index xs.size)) :=
    .error (.same _ nofun)
  unfold itemAt
  rw [hsize]
  by_cases hi : index < 0
  · simpa only [hi, if_true] using hnone
  · simp only [hi, if_false]
    rcases rel_cases hget with ⟨hx, hy⟩ | ⟨v, w, hx, hy, hvw⟩
    · simpa only [hx, hy] using hnone
    · simpa only [hx, hy] using Concurs.ok hvw

end

/-! ## Actions on both -/

/-- An object that has a twin keeps this alive outside the heap. -/
def Keeps (h : Heap) (R : Pairing) (x : External) : Prop :=
  ∃ a b o, R a b ∧ h.object? a = some o ∧ o.payload.external? = some x

/-- Two actions leave twin heaps behind, and their outcomes are the same. What is newly kept alive outside the heap is
`X`. -/
structure Meets {α β : Type} (X : External → Prop) (R : Pairing) (A : Pairing → α → β → Prop) (h k : Heap)
    (x : Except Fault α × Heap) (y : Except Fault β × Heap) : Prop where
  meets : ∃ R', R ≤ R' ∧ x.2.Twin R' y.2 ∧ Concurs R' (A R') x.1 y.1 ∧ ∀ e, x.2.Keeps R' e → X e ∨ h.Keeps R e

section
variable {α β : Type} {X : External → Prop} {A : Pairing → α → β → Prop} {x : α} {y : β} (ht : h.Twin R k)
include ht

theorem Twin.meets_pure (hA : A R x y) : Meets X R A h k (.ok x, h) (.ok y, k) :=
  ⟨R, le_refl R, ht, .ok hA, fun _ => .inr⟩

theorem Twin.meets_throw {e f : Fault} (he : e.Pairs R f) : Meets X R A h k (.error e, h) (.error f, k) :=
  ⟨R, le_refl R, ht, .error he, fun _ => .inr⟩

theorem Twin.meets_write (hab : Twin.Joins R h k a b) (hw : h.Written a o h') (kw : k.Written b o' k')
    (ho : o.Pairs (R.link a b) o')
    (hX : ∀ e, o.payload.external? = some e → X e ∨ R a b ∧ ∃ p, h.object? a = some p ∧ p.payload.external? = some e)
    (hA : A (R.link a b) x y) : Meets X R A h k (.ok x, h') (.ok y, k') := by
  have hlinked := ht.write hab hw kw ho
  refine ⟨R.link a b, R.le_link a b, hlinked, .ok hA, ?_⟩
  rintro e ⟨r, s, p, hrs, hp, he⟩
  rw [hw.puts.object?] at hp
  split at hp
  · cases hp
    rcases hX e he with hX | ⟨hab, q, hq, he⟩
    · exact .inl hX
    · exact .inr ⟨a, b, q, hab, hq, he⟩
  · rename_i hne
    exact .inr ⟨r, s, p, hrs.resolve_right fun h => hne h.1, hp, he⟩

end

end Heap

/-- An action that cannot fail yields something. -/
theorem Act.wp.exists_ok {σ α : Type} {act : Act σ α} {s : σ} {Q : α → σ → Prop} {E : Fault → σ → Prop}
    (h : act.wp s Q E) (hE : ∀ e s', ¬ E e s') : ∃ a s', act s = (.ok a, s') ∧ Q a s' := by
  unfold Act.wp at h
  rcases hs : act s with ⟨e | a, s'⟩
  · rw [hs] at h
    exact absurd h (hE e s')
  · rw [hs] at h
    exact ⟨a, s', rfl, h⟩

/-- An action that cannot succeed fails. -/
theorem Act.wp.exists_error {σ α : Type} {act : Act σ α} {s : σ} {Q : α → σ → Prop} {E : Fault → σ → Prop}
    (h : act.wp s Q E) (hQ : ∀ a s', ¬ Q a s') : ∃ e s', act s = (.error e, s') ∧ E e s' := by
  unfold Act.wp at h
  rcases hs : act s with ⟨e | a, s'⟩
  · rw [hs] at h
    exact ⟨e, s', rfl, h⟩
  · rw [hs] at h
    exact absurd h (hQ a s')

namespace Heap

variable {h h' k k' : Heap} {X : External → Prop} {α : Type} {o o' : Object} {r : Handle}

/-- An action that succeeds, with a live object made anew from itself. -/
def Rewrites (act : Act Heap α) (h : Heap) (r : Handle) (f : Object → Object) (a : α) : Prop :=
  ∃ o h', h.object? r = some o ∧ act h = (.ok a, h') ∧ h.Written r (f o) h'

theorem rewrites_setMember (hs : h.Sound) (hr : h.isLive r) (name : String) (hv : h.Valid v) :
    Rewrites (setMember r name v) h r (fun o => { o with members := o.members.insert name v }) () := by
  obtain ⟨_, h', hrun, _, o, ho, hw⟩ := (wp_setMember hs r name v).exists_ok fun _ _ he => he.2.2 ⟨hr, hv⟩
  exact ⟨o, h', ho, hrun, hw⟩

theorem rewrites_replacePayload (hs : h.Sound) (ho : h.object? r = some o) {x : Payload} (hv : ∀ v ∈ x.values, h.Valid v) :
    Rewrites (replacePayload r x) h r (fun o => { o with payload := x }) o.payload := by
  obtain ⟨_, h', hrun, _, p, hp, rfl, hw⟩ := (wp_replacePayload hs r x).exists_ok fun _ _ he =>
    he.2.2 ⟨isLive_of_object? ho, hv⟩
  cases ho.symm.trans hp
  exact ⟨o, h', ho, hrun, hw⟩

theorem rewrites_putPayload (hs : h.Sound) (hr : h.isLive r) {x : Payload} (hv : ∀ v ∈ x.values, h.Valid v) :
    Rewrites (putPayload r x) h r (fun o => { o with payload := x }) () := by
  obtain ⟨_, h', hrun, _, o, ho, hw⟩ := (wp_putPayload hs r x).exists_ok fun _ _ he => he.2.2 ⟨hr, hv⟩
  exact ⟨o, h', ho, hrun, hw⟩

theorem wp_fault_arrayPush (r : Handle) (v : Value) : (arrayPush r v).wp h (fun _ _ => True) fun e _ =>
    e = .stale ∨ e = notA r "Array" ∧ ∀ o, h.object? r = some o → o.array? = none := by
  unfold arrayPush
  rw [Act.wp_bind]
  refine wp_requireStorable (fun _ => ?_) fun _ => .inl rfl
  simp only [Act.wp_bind, wp_entry]
  cases he : h.lookup? r with
  | none => exact .inl trivial
  | some e =>
      have ho := object?_of_lookup? he
      cases hx : e.object.array? with
      | none =>
          simp only [arraySize?, hx, Option.map_none, Act.wp_throw]
          exact .inr ⟨trivial, fun o ho' => by cases ho.symm.trans ho'; exact hx⟩
      | some items =>
          simp only [arraySize?, hx, Option.map_some, Act.wp_bind, Act.wp_modify, Act.wp_pure]
          exact Act.wp_mono (staleOnly_link r v _) (fun _ _ _ => trivial) fun _ _ => .inl

theorem wp_fault_arrayPop (r : Handle) : (arrayPop r).wp h (fun _ _ => True) fun e _ =>
    e = .stale ∨ e = notA r "Array" ∧ ∀ o, h.object? r = some o → o.array? = none := by
  unfold arrayPop
  simp only [Act.wp_bind, wp_entry]
  cases he : h.lookup? r with
  | none => exact .inl trivial
  | some e =>
      have ho := object?_of_lookup? he
      cases hx : e.object.array? with
      | none =>
          simp only [lastItem?, hx, Option.map_none, Act.wp_throw]
          exact .inr ⟨trivial, fun o ho' => by cases ho.symm.trans ho'; exact hx⟩
      | some items =>
          simp only [lastItem?, hx, Option.map_some, Act.wp_bind, Act.wp_modify, Act.wp_pure]
          exact Act.wp_mono (staleOnly_unlink r _ _) (fun _ _ _ => trivial) fun _ _ => .inl

theorem wp_fault_slotSet (r : Handle) (index : Int64) (v : Value) : (slotSet r index v).wp h
    (fun _ _ => ∃ old, h.slotGet r index = .ok old) fun e _ => e = .stale ∨ h.slotGet r index = .error e := by
  unfold slotSet
  rw [Act.wp_bind]
  refine wp_requireStorable (fun _ => ?_) fun _ => .inl rfl
  simp only [Act.wp_bind, Act.wp_mk_getThe, Act.wp_modify]
  cases hget : h.slotGet r index with
  | error e => exact .inr rfl
  | ok old => exact Act.wp_mono (staleOnly_relink r old v _) (fun _ _ _ => ⟨old, rfl⟩) fun _ _ => .inl

theorem array?_eq_some {items : Array Value} : o.array? = some items ↔ o.payload = .array items := by
  unfold Object.array?
  cases o.payload <;> simp

theorem rewrites_arrayPush (hs : h.Sound) (ho : h.object? r = some o) {items : Array Value} (hp : o.array? = some items)
    (hv : h.Valid v) :
    Rewrites (arrayPush r v) h r (fun o => { o with payload := pushItem v o.payload }) (items.size + 1) := by
  have hpay := array?_eq_some.1 hp
  obtain ⟨_, h', hrun, ⟨_, p, items', hp', hitems, rfl, hw⟩, _⟩ :=
    (Act.wp_and (wp_arrayPush hs r v) (wp_fault_arrayPush r v)).exists_ok fun e _ he => by
      rcases he.2 with rfl | ⟨_, hnone⟩
      · exact he.1.2 rfl ⟨isLive_of_object? ho, hv⟩
      · cases hp.symm.trans (hnone o ho)
  cases ho.symm.trans hp'
  cases hpay.symm.trans hitems
  exact ⟨o, h', ho, hrun, by simpa only [hpay, pushItem] using hw⟩

theorem rewrites_arrayPop (hs : h.Sound) (ho : h.object? r = some o) {items : Array Value} (hp : o.array? = some items) :
    Rewrites (arrayPop r) h r (fun o => { o with payload := popItem o.payload }) items.back? := by
  have hpay := array?_eq_some.1 hp
  obtain ⟨_, h', hrun, ⟨p, items', hp', hitems, rfl, hw⟩, _⟩ :=
    (Act.wp_and (wp_arrayPop hs r) (wp_fault_arrayPop r)).exists_ok fun e _ he => by
      rcases he.2 with rfl | ⟨_, hnone⟩
      · exact he.1.2 rfl (isLive_of_object? ho)
      · cases hp.symm.trans (hnone o ho)
  cases ho.symm.trans hp'
  cases hpay.symm.trans hitems
  exact ⟨o, h', ho, hrun, by simpa only [hpay, popItem] using hw⟩

theorem arrayPush_refused (hs : h.Sound) (ho : h.object? r = some o) (hp : o.array? = none) (hv : h.Valid v) :
    arrayPush r v h = (.error (notA r "Array"), h) := by
  obtain ⟨e, h', hrun, ⟨rfl, hst⟩, he⟩ :=
    (Act.wp_and (wp_arrayPush hs r v) (wp_fault_arrayPush r v)).exists_error fun _ _ hq => by
      obtain ⟨⟨_, p, items, hp', hitems, _⟩, _⟩ := hq
      cases ho.symm.trans hp'
      rw [array?_eq_some.2 hitems] at hp
      cases hp
  rcases he with rfl | ⟨rfl, _⟩
  · exact absurd ⟨isLive_of_object? ho, hv⟩ (hst rfl)
  · exact hrun

theorem arrayPop_refused (hs : h.Sound) (ho : h.object? r = some o) (hp : o.array? = none) :
    arrayPop r h = (.error (notA r "Array"), h) := by
  obtain ⟨e, h', hrun, ⟨rfl, hst⟩, he⟩ :=
    (Act.wp_and (wp_arrayPop hs r) (wp_fault_arrayPop r)).exists_error fun _ _ hq => by
      obtain ⟨⟨p, items, hp', hitems, _⟩, _⟩ := hq
      cases ho.symm.trans hp'
      rw [array?_eq_some.2 hitems] at hp
      cases hp
  rcases he with rfl | ⟨rfl, _⟩
  · exact absurd (isLive_of_object? ho) (hst rfl)
  · exact hrun

theorem rewrites_slotSet (hs : h.Sound) (hr : h.isLive r) {index : Int64} {old : Value}
    (hget : h.slotGet r index = .ok old) (hv : h.Valid v) :
    Rewrites (slotSet r index v) h r (fun o => { o with payload := storeItem index.toNatClampNeg v o.payload }) () := by
  obtain ⟨_, h', hrun, ⟨_, p, _, hp, _, _, hw⟩, _⟩ :=
    (Act.wp_and (wp_slotSet hs r index v) (wp_fault_slotSet r index v)).exists_ok fun e _ he => by
      rcases he.2 with rfl | hbad
      · exact he.1.2 rfl ⟨hr, hv⟩
      · cases hget.symm.trans hbad
  exact ⟨p, h', hp, hrun, hw⟩

theorem slotSet_refused (hs : h.Sound) {index : Int64} {e : Fault} (hr : h.isLive r)
    (hget : h.slotGet r index = .error e) (hv : h.Valid v) : slotSet r index v h = (.error e, h) := by
  obtain ⟨f, h', hrun, ⟨rfl, hst⟩, he⟩ :=
    (Act.wp_and (wp_slotSet hs r index v) (wp_fault_slotSet r index v)).exists_error fun _ _ hq => by
      obtain ⟨_, old, hok⟩ := hq
      cases hget.symm.trans hok
  rcases he with rfl | he
  · exact absurd ⟨hr, hv⟩ (hst rfl)
  · cases hget.symm.trans he
    exact hrun

section
variable (ht : h.Twin R k)
include ht

theorem Twin.meets_rewrites {β : Type} {A : Pairing → α → β → Prop} {act₁ : Act Heap α} {act₂ : Act Heap β}
    {f g : Object → Object} {x : α} {y : β} (hab : R a b) (h₁ : Rewrites act₁ h a f x) (h₂ : Rewrites act₂ k b g y)
    (hfg : ∀ o o', h.object? a = some o → o.Pairs R o' → (f o).Pairs R (g o') ∧
      ∀ e, (f o).payload.external? = some e → X e ∨ o.payload.external? = some e)
    (hA : A (R.link a b) x y) : Meets X R A h k (act₁ h) (act₂ k) := by
  obtain ⟨o, h', ho, hrun, hw⟩ := h₁
  obtain ⟨o', k', ho', krun, kw⟩ := h₂
  obtain ⟨p, p', hp, hp', hpair⟩ := ht.objects hab
  cases hp.symm.trans ho
  cases hp'.symm.trans ho'
  obtain ⟨hpair', hext⟩ := hfg o o' ho hpair
  rw [hrun, krun]
  refine ht.meets_write (.inl hab) hw kw (hpair'.mono (R.le_link a b)) (fun e he => ?_) hA
  exact (hext e he).imp_right fun he => ⟨hab, o, ho, he⟩

theorem Twin.setMember (hab : R a b) (name : String) (hv : v.Pairs R w) :
    Meets X R (fun _ _ _ => True) h k (Heap.setMember a name v h) (Heap.setMember b name w k) := by
  obtain ⟨ha, hb⟩ := ht.isLive hab
  obtain ⟨hval, kval⟩ := ht.valid hv
  exact ht.meets_rewrites hab (rewrites_setMember ht.left.sound ha name hval)
    (rewrites_setMember ht.right.sound hb name kval)
    (fun o o' _ hp => ⟨⟨hp.ofClass, hp.members.insert name hv, hp.payload⟩, fun _ => .inr⟩) trivial

theorem Twin.replacePayload (hab : R a b) {x y : Payload} (hxy : x.Pairs R y) (hX : ∀ e, x.external? = some e → X e) :
    Meets X R (fun _ _ _ => True) h k (Heap.replacePayload a x h) (Heap.replacePayload b y k) := by
  obtain ⟨o, o', ho, ho', _⟩ := ht.objects hab
  obtain ⟨hval, kval⟩ := ht.valid_all hxy.values
  exact ht.meets_rewrites hab (rewrites_replacePayload ht.left.sound ho hval)
    (rewrites_replacePayload ht.right.sound ho' kval)
    (fun o o' _ hp => ⟨⟨hp.ofClass, hp.members, hxy⟩, fun e he => .inl (hX e he)⟩) trivial

theorem Twin.putPayload (hab : R a b) {x y : Payload} (hxy : x.Pairs R y) (hX : ∀ e, x.external? = some e → X e) :
    Meets X R (fun _ _ _ => True) h k (Heap.putPayload a x h) (Heap.putPayload b y k) := by
  obtain ⟨ha, hb⟩ := ht.isLive hab
  obtain ⟨hval, kval⟩ := ht.valid_all hxy.values
  exact ht.meets_rewrites hab (rewrites_putPayload ht.left.sound ha hval) (rewrites_putPayload ht.right.sound hb kval)
    (fun o o' _ hp => ⟨⟨hp.ofClass, hp.members, hxy⟩, fun e he => .inl (hX e he)⟩) trivial

theorem Twin.arrayPush (hab : R a b) (hv : v.Pairs R w) :
    Meets X R (fun _ m n => n = m) h k (Heap.arrayPush a v h) (Heap.arrayPush b w k) := by
  obtain ⟨o, o', ho, ho', hp⟩ := ht.objects hab
  obtain ⟨hval, kval⟩ := ht.valid hv
  rcases rel_cases hp.array? with ⟨hx, hy⟩ | ⟨xs, ys, hx, hy, hxy⟩
  · rw [arrayPush_refused ht.left.sound ho hx hval, arrayPush_refused ht.right.sound ho' hy kval]
    exact ht.meets_throw (.slot "Array" hab)
  · refine ht.meets_rewrites hab (rewrites_arrayPush ht.left.sound ho hx hval)
      (rewrites_arrayPush ht.right.sound ho' hy kval)
      (fun p p' _ hp => ⟨⟨hp.ofClass, hp.members, hp.payload.pushItem hv⟩, fun e he => .inr ?_⟩) ?_
    · rwa [Payload.external?_pushItem] at he
    · simpa using hxy.length_eq.symm

theorem Twin.arrayPop (hab : R a b) :
    Meets X R (fun R' => Option.Rel (Value.Pairs R')) h k (Heap.arrayPop a h) (Heap.arrayPop b k) := by
  obtain ⟨o, o', ho, ho', hp⟩ := ht.objects hab
  rcases rel_cases hp.array? with ⟨hx, hy⟩ | ⟨xs, ys, hx, hy, hxy⟩
  · rw [arrayPop_refused ht.left.sound ho hx, arrayPop_refused ht.right.sound ho' hy]
    exact ht.meets_throw (.slot "Array" hab)
  · refine ht.meets_rewrites hab (rewrites_arrayPop ht.left.sound ho hx) (rewrites_arrayPop ht.right.sound ho' hy)
      (fun p p' _ hp => ⟨⟨hp.ofClass, hp.members, hp.payload.popItem⟩, fun e he => .inr ?_⟩) ?_
    · rwa [Payload.external?_popItem] at he
    · exact rel_imp (Payload.rel_back? hxy) fun _ _ _ h => h.mono (R.le_link a b)

theorem Twin.slotGet (hab : R a b) (index : Int64) :
    Concurs R (Value.Pairs R) (h.slotGet a index) (k.slotGet b index) := by
  obtain ⟨⟨c, members, x⟩, ⟨c', members', y⟩, ho, ho', _, _, hp⟩ := ht.objects hab
  rw [slotGet_eq ho, slotGet_eq ho']
  cases hp with
  | array hp => exact itemAt_pairs hp index
  | tuple hp => exact itemAt_pairs hp index
  | _ => exact .error (.slot _ hab)

theorem Twin.slotSet (hab : R a b) (index : Int64) (hv : v.Pairs R w) :
    Meets X R (fun _ _ _ => True) h k (Heap.slotSet a index v h) (Heap.slotSet b index w k) := by
  obtain ⟨ha, hb⟩ := ht.isLive hab
  obtain ⟨hval, kval⟩ := ht.valid hv
  have hget := ht.slotGet hab index
  cases hx : h.slotGet a index with
  | error e =>
      cases hy : k.slotGet b index with
      | error f =>
          rw [slotSet_refused ht.left.sound ha hx hval, slotSet_refused ht.right.sound hb hy kval]
          rw [hx, hy] at hget
          cases hget with | error he => exact ht.meets_throw he
      | ok w =>
          rw [hx, hy] at hget
          cases hget
  | ok v =>
      cases hy : k.slotGet b index with
      | error f =>
          rw [hx, hy] at hget
          cases hget
      | ok w =>
          refine ht.meets_rewrites hab (rewrites_slotSet ht.left.sound ha hx hval)
            (rewrites_slotSet ht.right.sound hb hy kval)
            (fun p p' _ hp => ⟨⟨hp.ofClass, hp.members, hp.payload.storeItem _ hv⟩, fun e he => .inr ?_⟩) trivial
          rwa [Payload.external?_storeItem] at he

/-- A new object on both sides. -/
theorem Twin.allocate (c : ClassId) {x : Payload} (hx : x.edges = []) (hp : ∀ R, x.Pairs R x)
    (hX : ∀ e, x.external? = some e → X e) :
    Meets X R (fun R' => R') h k (Heap.create c x h) (Heap.create c x k) := by
  obtain ⟨hfresh, hw⟩ := ht.left.sound.allocate c hx
  obtain ⟨kfresh, kw⟩ := ht.right.sound.allocate c hx
  exact ht.meets_write (.inr ⟨hfresh, kfresh⟩) hw kw ⟨rfl, .empty, hp _⟩ (fun e he => .inl (hX e he)) (R.link_self _ _)

theorem Twin.createWith (c : ClassId) {seed : Payload} (hs : seed.edges = []) {x y : Payload} (hxy : x.Pairs R y)
    (hX : ∀ e, x.external? = some e → X e) :
    Meets X R (fun R' => R') h k (Heap.createWith c seed x h) (Heap.createWith c seed y k) := by
  obtain ⟨hval, kval⟩ := ht.valid_all hxy.values
  obtain ⟨a, h', hrun, hfresh, hw⟩ := (wp_createWith ht.left.sound c hs x).exists_ok fun _ _ he => he.2.2 hval
  obtain ⟨b, k', krun, kfresh, kw⟩ := (wp_createWith ht.right.sound c hs y).exists_ok fun _ _ he => he.2.2 kval
  rw [hrun, krun]
  exact ht.meets_write (.inr ⟨hfresh, kfresh⟩) hw kw ⟨rfl, .empty, hxy.mono (R.le_link a b)⟩ (fun e he => .inl (hX e he))
    (R.link_self a b)

theorem Twin.reflect (key : Reflected) : Meets X R (fun R' => R') h k (Heap.reflect key h) (Heap.reflect key k) := by
  obtain ⟨a, h', hrun, ha⟩ := (wp_reflect ht.left.sound key).exists_ok fun _ _ => id
  obtain ⟨b, k', krun, hb⟩ := (wp_reflect ht.right.sound key).exists_ok fun _ _ => id
  rw [hrun, krun]
  have hrel := ht.reflections key
  rcases ha with ⟨hkey, rfl⟩ | ⟨hkey, hr⟩
  · rcases hb with ⟨kkey, rfl⟩ | ⟨kkey, _⟩
    · rw [hkey, kkey] at hrel
      cases hrel with | some hab => exact ht.meets_pure hab
    · rw [hkey, kkey] at hrel
      cases hrel
  · rcases hb with ⟨kkey, rfl⟩ | ⟨_, kr⟩
    · rw [hkey, kkey] at hrel
      cases hrel
    · refine ⟨R.link a b, R.le_link a b, ht.reflects hr kr, .ok (R.link_self a b), ?_⟩
      rintro e ⟨r, s, o, hrs, ho, he⟩
      rw [hr.object?] at ho
      split at ho
      · cases ho
        cases key <;> cases he
      · rename_i hne
        exact .inr ⟨r, s, o, hrs.resolve_right fun h => hne h.1, ho, he⟩

theorem Twin.root (hab : R a b) : Meets X R (fun _ _ _ => True) h k (Heap.root a h) (Heap.root b k) := by
  obtain ⟨ha, hb⟩ := ht.isLive hab
  obtain ⟨_, h', hrun, _, hc⟩ := (wp_root ht.left.sound a).exists_ok fun _ _ he => he.2.2 ha
  obtain ⟨_, k', krun, _, kc⟩ := (wp_root ht.right.sound b).exists_ok fun _ _ he => he.2.2 hb
  rw [hrun, krun]
  refine ⟨R, le_refl R, ht.recounted hc kc (fun r => ?_) fun r => ?_, .ok trivial, ?_⟩
  · split <;> omega
  · split <;> omega
  · rintro e ⟨r, s, o, hrs, ho, he⟩
    exact .inr ⟨r, s, o, hrs, hc.object? r ▸ ho, he⟩

end

end Heap

end Spool
