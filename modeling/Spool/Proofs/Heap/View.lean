import Spool.Heap.Write
import Spool.Proofs.Bindings

/-!
# What a heap shows

A heap is seen through the objects at its handles, their root counts and its reflections. Here is what each way
of changing the slots does to that view. Which slots are free must be right for that, and so an orderly heap
hands out empty slots only.
-/

namespace Spool

theorem Value.handles_perm {vs ws : List Value} (h : vs.Perm ws) : (Value.handles vs).Perm (Value.handles ws) :=
  h.filterMap _

theorem Value.mem_handles {vs : List Value} {r : Handle} : r ∈ Value.handles vs ↔ Value.object r ∈ vs := by
  simp only [Value.handles, List.mem_filterMap]
  constructor
  · rintro ⟨v, hv, hr⟩
    cases v <;> simp_all [Value.handle?]
  · intro h
    exact ⟨_, h, rfl⟩

namespace Heap

/-- How many roots a live object has. -/
def rootCount (h : Heap) (r : Handle) : Nat := ((h.lookup? r).map Entry.roots).getD 0

/-- A slot that holds no object. -/
def Vacant (h : Heap) (index : Nat) : Prop := ∃ generation, h.slots[index]? = some ⟨generation, none⟩

/-- The free slots are empty and listed once, and no object has two members of one name. -/
structure Orderly (h : Heap) : Prop where
  free_nodup : h.free.Nodup
  free_vacant : ∀ index ∈ h.free, h.Vacant index
  distinct : ∀ {r o}, h.object? r = some o → o.members.Distinct

/-! ## Reading -/

theorem isLive_iff {h : Heap} {r : Handle} : h.isLive r ↔ ∃ o, h.object? r = some o := by
  simp only [isLive, object?, Option.isSome_iff_exists, Option.map_eq_some_iff]
  constructor
  · rintro ⟨e, he⟩
    exact ⟨e.object, e, he, rfl⟩
  · rintro ⟨_, e, he, _⟩
    exact ⟨e, he⟩

theorem isLive_of_object? {h : Heap} {r : Handle} {o : Object} (ho : h.object? r = some o) : h.isLive r :=
  isLive_iff.2 ⟨o, ho⟩

theorem object?_eq_none {h : Heap} {r : Handle} : h.object? r = none ↔ ¬ h.isLive r := by
  rw [isLive_iff]
  cases h.object? r <;> simp

theorem lookup?_of_object? {h : Heap} {r : Handle} {o : Object} (ho : h.object? r = some o) :
    ∃ e, h.lookup? r = some e ∧ e.object = o := by
  simpa [object?, Option.map_eq_some_iff] using ho

theorem object?_of_lookup? {h : Heap} {r : Handle} {e : Entry} (he : h.lookup? r = some e) :
    h.object? r = some e.object := by
  simp [object?, he]

theorem rootCount_of_lookup? {h : Heap} {r : Handle} {e : Entry} (he : h.lookup? r = some e) :
    h.rootCount r = e.roots := by
  simp [rootCount, he]

theorem isLive_of_rootCount {h : Heap} {r : Handle} (hr : 0 < h.rootCount r) : h.isLive r := by
  unfold rootCount at hr
  unfold isLive
  cases hl : h.lookup? r with
  | none => simp [hl] at hr
  | some e => rfl

theorem rootCount_eq_zero {h : Heap} {r : Handle} (hr : h.object? r = none) : h.rootCount r = 0 := by
  rw [object?_eq_none] at hr
  simp only [isLive, Bool.not_eq_true, Option.isSome_eq_false_iff, Option.isNone_iff_eq_none] at hr
  simp [rootCount, hr]

theorem isRooted_iff {h : Heap} {r : Handle} : h.isRooted r ↔ 0 < h.rootCount r := by
  unfold isRooted rootCount
  cases h.lookup? r <;> simp

theorem lookup?_eq_some {h : Heap} {r : Handle} {e : Entry} :
    h.lookup? r = some e ↔ h.slots[r.index]? = some ⟨r.generation, some e⟩ := by
  unfold lookup?
  cases hs : h.slots[r.index]? with
  | none => simp
  | some slot =>
    obtain ⟨generation, entry⟩ := slot
    by_cases hg : generation = r.generation <;> simp [hg]

/-- A slot holds one object, so an index names one live handle. -/
theorem eq_of_index_eq {h : Heap} {r x : Handle} (hr : h.isLive r) (hx : h.isLive x)
    (hi : r.index = x.index) : r = x := by
  obtain ⟨e, he⟩ := Option.isSome_iff_exists.1 hr
  obtain ⟨e', he'⟩ := Option.isSome_iff_exists.1 hx
  rw [lookup?_eq_some] at he he'
  rw [hi, he'] at he
  obtain ⟨_, _⟩ := r
  obtain ⟨_, _⟩ := x
  simp_all

theorem index_lt_of_isLive {h : Heap} {r : Handle} (hr : h.isLive r) : r.index < h.slots.size := by
  obtain ⟨e, he⟩ := Option.isSome_iff_exists.1 hr
  rw [lookup?_eq_some] at he
  exact (Array.getElem?_eq_some_iff.1 he).1

theorem mem_handles {h : Heap} {r : Handle} : r ∈ h.handles ↔ h.isLive r := by
  simp only [handles, List.mem_filterMap, List.mem_zipIdx_iff_getElem?, Array.getElem?_toList,
    Option.map_eq_some_iff, isLive, Option.isSome_iff_exists, lookup?_eq_some]
  constructor
  · rintro ⟨⟨slot, index⟩, hs, e, he, rfl⟩
    obtain ⟨generation, entry⟩ := slot
    simp only at he
    subst he
    exact ⟨e, hs⟩
  · rintro ⟨e, he⟩
    exact ⟨⟨_, _⟩, he, e, rfl, rfl⟩

theorem nodup_handles (h : Heap) : h.handles.Nodup := by
  have hpair : (h.slots.toList.zipIdx).Pairwise fun a b => a.2 ≠ b.2 := by
    rw [← List.pairwise_map (f := Prod.snd) (R := (· ≠ ·)), List.zipIdx_map_snd]
    exact List.nodup_range'
  refine List.Pairwise.filterMap _ (fun a b hab x hx y hy => ?_) hpair
  simp only [Option.map_eq_some_iff] at hx hy
  obtain ⟨_, _, rfl⟩ := hx
  obtain ⟨_, _, rfl⟩ := hy
  intro heq
  exact hab (Handle.mk.inj heq).1

/-! ## Changing an entry -/

theorem lookup?_modifyEntry (h : Heap) (r x : Handle) (f : Entry → Entry) :
    (h.modifyEntry r f).lookup? x = if x = r then (h.lookup? x).map f else h.lookup? x := by
  unfold lookup? modifyEntry
  simp only [Array.getElem?_modify]
  by_cases hx : x = r
  · subst hx
    cases hs : h.slots[x.index]? with
    | none => simp
    | some slot => by_cases hg : slot.generation = x.generation <;> simp [hg]
  · by_cases hi : r.index = x.index
    · have hne : r.generation ≠ x.generation := by
        intro hg
        exact hx (by cases r; cases x; simp_all)
      cases hs : h.slots[x.index]? with
      | none => simp [hi, hx]
      | some slot => by_cases hg : slot.generation = r.generation <;> simp [hi, hx, hg, hne]
    · simp [hi, hx]

theorem Vacant.modifyEntry {h : Heap} {index : Nat} (hv : h.Vacant index) (r : Handle) (f : Entry → Entry) :
    (h.modifyEntry r f).Vacant index := by
  obtain ⟨generation, hs⟩ := hv
  refine ⟨generation, ?_⟩
  unfold Heap.modifyEntry
  rw [Array.getElem?_modify, hs]
  split
  · simp only [Option.map_some, Option.map_none]
    split <;> rfl
  · rfl

/-- A change that leaves the object alone. -/
theorem object?_modifyEntry {h : Heap} {r : Handle} {f : Entry → Entry} (hf : ∀ e, (f e).object = e.object)
    (x : Handle) : (h.modifyEntry r f).object? x = h.object? x := by
  unfold object?
  rw [lookup?_modifyEntry]
  split
  · simp [Option.map_map, Function.comp_def, hf]
  · rfl

/-- A change that leaves the roots alone. -/
theorem rootCount_modifyEntry {h : Heap} {r : Handle} {f : Entry → Entry} (hf : ∀ e, (f e).roots = e.roots)
    (x : Handle) : (h.modifyEntry r f).rootCount x = h.rootCount x := by
  unfold rootCount
  rw [lookup?_modifyEntry]
  split
  · simp [Option.map_map, Function.comp_def, hf]
  · rfl

theorem object?_modifyObject {h : Heap} {r : Handle} {o : Object} (ho : h.object? r = some o)
    (f : Object → Object) (x : Handle) :
    (h.modifyObject r f).object? x = if x = r then some (f o) else h.object? x := by
  unfold object? modifyObject
  rw [lookup?_modifyEntry]
  split
  · rename_i hx
    obtain ⟨e, he, rfl⟩ := lookup?_of_object? ho
    simp [hx, he]
  · rfl

end Heap

end Spool
