import Mathlib.Data.List.Nodup
import Mathlib.Data.List.Perm.Basic
import Spool.Bindings

/-!
# Bindings and tables

What a change of one entry does to the whole.
-/

/-!
## Changing one row of a table

Workers, tasks and contexts are rows of tables. What each row contributes to a list over all rows changes with
that row alone.
-/

namespace Spool.Table

variable {α β : Type} {rows : Array α}

theorem modify_eq_self {i : Nat} (hi : rows[i]? = none) (f : α → α) : rows.modify i f = rows := by
  have hle : rows.size ≤ i := by simpa using hi
  apply Array.ext
  · simp
  · intro j hj _
    simp only [Array.size_modify] at hj
    rw [Array.getElem_modify, if_neg (by omega)]

/-- What a change does to the share of one row it does to the whole. -/
theorem perm_flatMap_modify {g : α → List β} {f : α → α} {i : Nat} {row : α} {A B : List β}
    (hi : rows[i]? = some row) (hf : (A ++ g (f row)).Perm (B ++ g row)) :
    (A ++ (rows.modify i f).toList.flatMap g).Perm (B ++ rows.toList.flatMap g) := by
  obtain ⟨hlt, hget⟩ := Array.getElem?_eq_some_iff.1 hi
  have hlt' : i < rows.toList.length := by simpa using hlt
  have hset : (rows.modify i f).toList = rows.toList.set i (f row) := by
    simp only [Array.toList_modify, List.modify_eq_set_getElem?, Array.getElem?_toList, hi]
    rfl
  have hnew : ((rows.modify i f).toList.flatMap g).Perm (g (f row) ++ (rows.toList.eraseIdx i).flatMap g) := by
    rw [hset]
    exact (List.set_perm_cons_eraseIdx hlt' (f row)).flatMap_right _
  have hold : (g row ++ (rows.toList.eraseIdx i).flatMap g).Perm (rows.toList.flatMap g) := by
    have := (List.getElem_cons_eraseIdx_perm hlt').flatMap_right g
    simpa [hget] using this
  have hmid := hf.append_right ((rows.toList.eraseIdx i).flatMap g)
  rw [List.append_assoc, List.append_assoc] at hmid
  exact (hnew.append_left A).trans (hmid.trans (hold.append_left B))

/-- A change that leaves every row its share. -/
theorem flatMap_modify {g : α → List β} {f : α → α} (hf : ∀ row, g (f row) = g row) (i : Nat) :
    (rows.modify i f).toList.flatMap g = rows.toList.flatMap g := by
  have hmap : (rows.modify i f).map g = rows.map g := by
    apply Array.ext
    · simp
    · intro j hj _
      simp only [Array.getElem_map, Array.getElem_modify]
      split
      · rw [hf]
      · rfl
  have := congrArg (fun xs : Array (List β) => xs.toList.flatten) hmap
  simpa [List.flatMap_def] using this

/-- Where no two rows have anything in common. -/
theorem not_mem_of_nodup_flatMap {g : α → List β} (hn : (rows.toList.flatMap g).Nodup) {i j : Nat} {a b : α}
    (hi : rows[i]? = some a) (hj : rows[j]? = some b) (hne : i ≠ j) {x : β} (hx : x ∈ g a) : x ∉ g b := by
  have hpair := (List.nodup_flatMap.1 hn).2
  rw [List.pairwise_iff_getElem] at hpair
  obtain ⟨hi', rfl⟩ := Array.getElem?_eq_some_iff.1 hi
  obtain ⟨hj', rfl⟩ := Array.getElem?_eq_some_iff.1 hj
  rcases Nat.lt_or_gt_of_ne hne with hlt | hlt
  · exact fun hx' => hpair i j (by simpa using hi') (by simpa using hj') hlt (by simpa using hx) (by simpa using hx')
  · exact fun hx' => hpair j i (by simpa using hj') (by simpa using hi') hlt (by simpa using hx') (by simpa using hx)

end Spool.Table

/-!
## Marks

A search marks what it has come to, each thing once, so there is an end to it.
-/

namespace Spool.Marks

variable {marks : Array Bool} {i j : Nat}

theorem getD_set (hi : i < marks.size) :
    (marks.setIfInBounds i true).getD j false = true ↔ j = i ∨ marks.getD j false = true := by
  simp only [Array.getD_eq_getD_getElem?, Array.getElem?_setIfInBounds]
  by_cases hj : i = j
  · simp [hj, hj ▸ hi]
  · simp [hj, Ne.symm hj]

/-- No mark is taken away. -/
theorem getD_set_of_marked (i : Nat) (hj : marks.getD j false = true) : (marks.setIfInBounds i true).getD j false = true := by
  by_cases hi : i < marks.size
  · exact (getD_set hi).2 (.inr hj)
  · rwa [Array.setIfInBounds, dif_neg hi]

theorem getD_replicate (n i : Nat) : (Array.replicate n false).getD i false = false := by
  simp only [Array.getD_eq_getD_getElem?, Array.getElem?_replicate]
  split <;> rfl

/-- One more mark, one less to come. -/
theorem count_set (hi : i < marks.size) (hm : ¬ marks.getD i false = true) :
    (marks.setIfInBounds i true).count false + 1 = marks.count false := by
  have hget : marks[i] = false := by
    simpa [Array.getD_eq_getD_getElem?, hi] using hm
  have hpos : 0 < marks.count false := Array.count_pos_iff.2 (hget ▸ Array.getElem_mem hi)
  have hone : (if marks[i] == false then 1 else 0) = 1 := if_pos (by rw [hget]; rfl)
  have hzero : (if true == false then 1 else 0) = 0 := rfl
  rw [Array.setIfInBounds, dif_pos hi, Array.count_set hi, hone, hzero]
  omega

end Spool.Marks

/-!
## Bindings with distinct keys

Bindings that come about by inserting and erasing bind no key twice. A change then moves exactly one value:
the value bound before goes and the new one comes.
-/

namespace Spool.Bindings

variable {κ ν : Type} [DecidableEq κ]

omit [DecidableEq κ] in
/-- No key is bound twice. -/
def Distinct (b : Bindings κ ν) : Prop := b.keys.Nodup

theorem mem_of_find {k : κ} {v : ν} {entries : List (κ × ν)} (h : find k entries = some v) :
    (k, v) ∈ entries := by
  induction entries with
  | nil => simp [find] at h
  | cons e rest ih =>
    obtain ⟨key, old⟩ := e
    simp only [find] at h
    split at h
    · rename_i hk
      simp_all
    · exact List.mem_cons_of_mem _ (ih h)

theorem mem_values_of_get? {b : Bindings κ ν} {k : κ} {v : ν} (h : b.get? k = some v) : v ∈ b.values :=
  List.mem_map.2 ⟨(k, v), mem_of_find h, rfl⟩

theorem find_of_mem {k : κ} {v : ν} {entries : List (κ × ν)} (hd : (entries.map Prod.fst).Nodup)
    (h : (k, v) ∈ entries) : find k entries = some v := by
  induction entries with
  | nil => simp at h
  | cons e rest ih =>
    obtain ⟨key, old⟩ := e
    simp only [List.map_cons, List.nodup_cons] at hd
    rcases List.mem_cons.1 h with he | hr
    · cases he
      simp [find]
    · have hk : key ≠ k := by
        rintro rfl
        exact hd.1 (List.mem_map.2 ⟨(key, v), hr, rfl⟩)
      simp only [find, hk, ↓reduceIte]
      exact ih hd.2 hr

/-! ## Keys -/

theorem put_of_not_mem {k : κ} {v : ν} {entries : List (κ × ν)} (h : k ∉ entries.map Prod.fst) :
    put k v entries = entries ++ [(k, v)] := by
  induction entries with
  | nil => rfl
  | cons e rest ih =>
    obtain ⟨key, old⟩ := e
    simp only [List.map_cons, List.mem_cons, not_or] at h
    simp [put, Ne.symm h.1, ih h.2]

theorem keys_put_of_mem {k : κ} {v : ν} {entries : List (κ × ν)} (h : k ∈ entries.map Prod.fst) :
    (put k v entries).map Prod.fst = entries.map Prod.fst := by
  induction entries with
  | nil => simp at h
  | cons e rest ih =>
    obtain ⟨key, old⟩ := e
    by_cases hk : key = k
    · simp [put, hk]
    · have hr : k ∈ rest.map Prod.fst := by
        simpa [Ne.symm hk] using h
      simp [put, hk, ih hr]

omit [DecidableEq κ] in
theorem Distinct.empty : ({} : Bindings κ ν).Distinct := List.nodup_nil

theorem Distinct.insert {b : Bindings κ ν} (h : b.Distinct) (k : κ) (v : ν) : (b.insert k v).Distinct := by
  unfold Distinct keys Bindings.insert at *
  by_cases hk : k ∈ b.entries.map Prod.fst
  · rw [keys_put_of_mem hk]
    exact h
  · rw [put_of_not_mem hk, List.map_append]
    refine List.nodup_append.2 ⟨h, by simp, ?_⟩
    rintro a ha _ hb rfl
    simp only [List.map_cons, List.map_nil, List.mem_singleton] at hb
    exact hk (hb ▸ ha)

theorem Distinct.erase {b : Bindings κ ν} (h : b.Distinct) (k : κ) : (b.erase k).Distinct :=
  h.sublist (List.filter_sublist.map Prod.fst)

/-! ## Values -/

theorem values_put_perm (k : κ) (v : ν) (entries : List (κ × ν)) :
    ((find k entries).toList ++ (put k v entries).map Prod.snd).Perm (v :: entries.map Prod.snd) := by
  induction entries with
  | nil => simp [find, put]
  | cons e rest ih =>
    obtain ⟨key, old⟩ := e
    by_cases hk : key = k
    · simp only [find, put, hk, ↓reduceIte, Option.toList_some, List.map_cons, List.singleton_append]
      exact List.Perm.swap v old _
    · simp only [find, put, hk, ↓reduceIte, List.map_cons]
      exact List.perm_middle.trans ((ih.cons old).trans (List.Perm.swap v old _))

/-- The value bound before makes room for the new one. -/
theorem values_insert_perm (b : Bindings κ ν) (k : κ) (v : ν) :
    ((b.get? k).toList ++ (b.insert k v).values).Perm (v :: b.values) :=
  values_put_perm k v b.entries

theorem filter_ne_of_not_mem {k : κ} {entries : List (κ × ν)} (h : k ∉ entries.map Prod.fst) :
    entries.filter (fun e => e.1 ≠ k) = entries := by
  refine List.filter_eq_self.2 fun e he => ?_
  simp only [ne_eq, decide_not, Bool.not_eq_eq_eq_not, Bool.not_true, decide_eq_false_iff_not]
  rintro rfl
  exact h (List.mem_map.2 ⟨e, he, rfl⟩)

theorem values_filter_perm {k : κ} {entries : List (κ × ν)} (hd : (entries.map Prod.fst).Nodup) :
    ((find k entries).toList ++ (entries.filter fun e => e.1 ≠ k).map Prod.snd).Perm (entries.map Prod.snd) := by
  induction entries with
  | nil => simp [find]
  | cons e rest ih =>
    obtain ⟨key, old⟩ := e
    simp only [List.map_cons, List.nodup_cons] at hd
    by_cases hk : key = k
    · subst hk
      rw [List.filter_cons_of_neg (by simp), filter_ne_of_not_mem hd.1]
      simp [find]
    · rw [List.filter_cons_of_pos (by simpa using hk)]
      simp only [find, hk, ↓reduceIte, List.map_cons]
      exact List.perm_middle.trans ((ih hd.2).cons old)

/-- Only the value bound at the key goes. -/
theorem values_erase_perm {b : Bindings κ ν} (h : b.Distinct) (k : κ) :
    ((b.get? k).toList ++ (b.erase k).values).Perm b.values :=
  values_filter_perm h

end Spool.Bindings
