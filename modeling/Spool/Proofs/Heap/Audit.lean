import Spool.Proofs.Heap.Books

/-!
# What the audit finds

The audit gathers afresh, for each handle, the parents that hold it, each as often as it does. For a live object the comparison
with the recorded edges decides whether these are right, however they have come about; and the handles left over are the dead
ones.
-/

namespace Spool.Heap

variable {h : Heap}

/-- In the tally are the counts of these pairs, and no others. -/
structure Gathered (pairs : List (Handle × Handle)) (found : Tally) : Prop where
  proper : ∀ child, (found.getD child {}).Proper
  counts : ∀ parent child, (found.getD child {}).count parent = pairs.count (parent, child)
  fits : ∀ pair, pairs.count pair < countLimit
  mem : ∀ child, child ∈ found ↔ ∃ parent, (parent, child) ∈ pairs

theorem Gathered.nil : Gathered [] {} where
  proper child := by
    rw [Std.HashMap.getD_empty]
    exact .empty
  counts parent child := by rw [Std.HashMap.getD_empty, List.count_nil, Parents.count_empty]
  fits pair := by
    rw [List.count_nil]
    decide
  mem child := by simp

variable {done : List (Handle × Handle)} {found : Tally}

/-- One pair more, as long as its count fits. -/
theorem Gathered.insert (hg : Gathered done found) {parent child : Handle}
    (hfits : done.count (parent, child) + 1 < countLimit) :
    Gathered (done ++ [(parent, child)]) (found.insert child ((found.getD child {}).add parent)) where
  proper c := by
    rw [Std.HashMap.getD_insert]
    split
    · exact (hg.proper child).add parent
    · exact hg.proper c
  counts p c := by
    rw [Std.HashMap.getD_insert, List.count_append, List.count_singleton, ← hg.counts]
    by_cases hc : child = c
    · subst hc
      simp [Parents.count_add]
    · simp [hc]
  fits pair := by
    rw [List.count_append, List.count_singleton]
    have hpair := hg.fits pair
    split
    · rename_i heq
      rw [← beq_iff_eq.1 heq]
      exact hfits
    · exact hpair
  mem c := by
    simp only [Std.HashMap.mem_insert, hg.mem, List.mem_append, List.mem_singleton, beq_iff_eq, Prod.mk.injEq]
    constructor
    · rintro (rfl | ⟨p, hp⟩)
      · exact ⟨parent, .inr ⟨rfl, rfl⟩⟩
      · exact ⟨p, .inl hp⟩
    · rintro ⟨p, hp | ⟨-, rfl⟩⟩
      · exact .inr ⟨p, hp⟩
      · exact .inl rfl

/-- Either all pairs are counted or there is one whose count does not fit. -/
theorem Gathered.tallyFrom (hg : Gathered done found) (pairs : List (Handle × Handle)) :
    (∃ found', tallyFrom pairs found = some found' ∧ Gathered (done ++ pairs) found') ∨
      tallyFrom pairs found = none ∧ ∃ pair, countLimit ≤ (done ++ pairs).count pair := by
  induction pairs generalizing done found with
  | nil => exact .inl ⟨found, rfl, by rwa [List.append_nil]⟩
  | cons pair rest ih =>
      obtain ⟨parent, child⟩ := pair
      have hcount : ((found.getD child {}).add parent).count parent = done.count (parent, child) + 1 := by
        rw [Parents.count_add, if_pos rfl, hg.counts]
      by_cases hfits : done.count (parent, child) + 1 < countLimit
      · have hrest := ih (hg.insert hfits)
        rw [List.append_assoc, List.singleton_append] at hrest
        rwa [Heap.tallyFrom, hcount, if_neg (Nat.not_le.2 hfits)]
      · refine .inr ⟨?_, (parent, child), ?_⟩
        · rw [Heap.tallyFrom, hcount, if_pos (Nat.not_lt.1 hfits)]
        · rw [List.count_append, List.count_cons_self]
          omega

/-! ## The verdict -/

end Spool.Heap
