import Spool.Heap.Audit
import Spool.Proofs.Bindings

/-!
# Counts of parents

With an object its parents are recorded, each with a number of slots. One slot more or less changes the number of one
parent. A parent whose number has come down to nothing is recorded no longer, so that the object has lost its last edge
just when no parent is left.
-/

namespace Spool.Parents

variable {ps qs : Parents} {p q : Handle} {n : Nat}

theorem count_of_get? (h : ps.get? p = some n) : ps.count p = n := by
  rw [count, h, Option.getD_some]

theorem count_of_get?_none (h : ps.get? p = none) : ps.count p = 0 := by
  rw [count, h, Option.getD_none]

@[simp] theorem count_empty (p : Handle) : count {} p = 0 := rfl

theorem count_insert (ps : Parents) (p q : Handle) (n : Nat) :
    count (ps.insert p n) q = if p = q then n else ps.count q := by
  simp only [count, Bindings.get?_insert]
  split <;> rfl

theorem count_erase (ps : Parents) (p q : Handle) : count (ps.erase p) q = if p = q then 0 else ps.count q := by
  simp only [count, Bindings.get?_erase]
  split <;> rfl

theorem count_add (ps : Parents) (p q : Handle) : (ps.add p).count q = ps.count q + if p = q then 1 else 0 := by
  rw [add, count_insert]
  split
  · subst_vars
    rfl
  · rfl

/-! ## Dropping a slot -/

theorem drop?_eq_some : ps.drop? p = some qs ↔
    ∃ n, ps.get? p = some n ∧ qs = if n > 1 then ps.insert p (n - 1) else ps.erase p := by
  rw [drop?, Option.map_eq_some_iff]
  exact exists_congr fun n => and_congr_right fun _ => eq_comm

theorem count_drop? (h : ps.drop? p = some qs) (q : Handle) : qs.count q = ps.count q - if p = q then 1 else 0 := by
  obtain ⟨n, hn, rfl⟩ := drop?_eq_some.1 h
  have hcount := count_of_get? hn
  by_cases hq : p = q
  · subst hq
    by_cases hone : n > 1
    · simp [hone, count_insert, hcount]
    · have hsmall : n - 1 = 0 := by omega
      simp [hone, count_erase, hcount, hsmall]
  · by_cases hone : n > 1
    · simp [hone, count_insert, hq]
    · simp [hone, count_erase, hq]

/-- A slot that is recorded can be dropped. -/
theorem exists_drop? (h : 0 < ps.count p) : ∃ qs, ps.drop? p = some qs := by
  cases hget : ps.get? p with
  | none => simp [count_of_get?_none hget] at h
  | some n => exact ⟨_, drop?_eq_some.2 ⟨n, hget, rfl⟩⟩

/-! ## No parent without slots -/

/-- Every parent is recorded once, with at least one slot. -/
structure Proper (ps : Parents) : Prop where
  distinct : Bindings.Distinct ps
  pos : ∀ p n, ps.get? p = some n → 0 < n

theorem Proper.empty : Proper {} := ⟨Bindings.Distinct.empty, fun p n h => by cases h⟩

theorem Proper.insert (h : ps.Proper) (p : Handle) (hn : 0 < n) : Proper (ps.insert p n) := by
  refine ⟨h.distinct.insert p n, fun q m hm => ?_⟩
  rw [Bindings.get?_insert] at hm
  split at hm
  · cases hm
    exact hn
  · exact h.pos q m hm

theorem Proper.erase (h : ps.Proper) (p : Handle) : Proper (ps.erase p) := by
  refine ⟨h.distinct.erase p, fun q m hm => ?_⟩
  rw [Bindings.get?_erase] at hm
  split at hm
  · cases hm
  · exact h.pos q m hm

theorem Proper.add (h : ps.Proper) (p : Handle) : (ps.add p).Proper := h.insert p (Nat.succ_pos _)

theorem Proper.drop? (h : ps.Proper) (hq : ps.drop? p = some qs) : qs.Proper := by
  obtain ⟨n, -, rfl⟩ := drop?_eq_some.1 hq
  split
  · exact h.insert p (by omega)
  · exact h.erase p

theorem Proper.get?_eq_some (h : ps.Proper) : ps.get? p = some n ↔ ps.count p = n ∧ 0 < n := by
  constructor
  · exact fun hget => ⟨count_of_get? hget, h.pos p n hget⟩
  · rintro ⟨rfl, hpos⟩
    cases hget : ps.get? p with
    | none => simp [count_of_get?_none hget] at hpos
    | some m => rw [count_of_get? hget]

theorem Proper.isEmpty_iff (h : ps.Proper) : ps.isEmpty ↔ ∀ p, ps.count p = 0 := by
  rw [Bindings.isEmpty, List.isEmpty_iff]
  constructor
  · intro hnil p
    exact count_of_get?_none (by rw [Bindings.get?, hnil, Bindings.find])
  · intro hzero
    refine List.eq_nil_iff_forall_not_mem.2 fun entry hmem => ?_
    obtain ⟨p, n⟩ := entry
    have hget : ps.get? p = some n := Bindings.find_of_mem h.distinct hmem
    have hpos := h.pos p n hget
    rw [← count_of_get? hget, hzero] at hpos
    exact absurd hpos (Nat.lt_irrefl 0)

theorem isEmpty_add (ps : Parents) (p : Handle) : (ps.add p).isEmpty = false := by
  rw [add, Bindings.isEmpty, Bindings.insert]
  cases ps.entries with
  | nil => rfl
  | cons e rest =>
      unfold Bindings.put
      split <;> rfl

theorem Proper.total_eq_zero (h : ps.Proper) : ps.total = 0 ↔ ps.isEmpty := by
  rw [total, ← List.sum_eq_foldr, List.sum_eq_zero_iff_forall_eq_nat, Bindings.isEmpty, List.isEmpty_iff]
  constructor
  · intro hzero
    refine List.eq_nil_iff_forall_not_mem.2 fun entry hmem => ?_
    obtain ⟨p, n⟩ := entry
    have hpos := h.pos p n (Bindings.find_of_mem h.distinct hmem)
    have hn := hzero n (List.mem_map.2 ⟨(p, n), hmem, rfl⟩)
    omega
  · intro hnil n hn
    rw [Bindings.values, hnil] at hn
    cases hn

/-! ## The same counts -/

end Spool.Parents
