import Spool.Proofs.Heap.Slots

/-!
# The books of a heap

A heap keeps some of what it knows twice: the free list and the empty slots, the live count and the objects, the statistics,
the candidates and the edges. Whatever is done to it, edges counted by hand included, the two always agree. Counts are never
zero, and as long as none has overflown each of them fits in its 32 bits.
-/

namespace Spool

namespace Entry

theorem isLost_iff {e : Entry} : e.isLost ↔ e.parents.isEmpty ∧ e.roots = 0 := by
  rw [isLost, Bool.and_eq_true, decide_eq_true_eq]

theorem not_isLost_add (e : Entry) (parent : Handle) : ¬ { e with parents := e.parents.add parent }.isLost := by
  rw [isLost_iff, Parents.isEmpty_add]
  exact fun h => Bool.false_ne_true h.1

theorem not_isLost_rooted (e : Entry) : ¬ { e with roots := e.roots + 1 }.isLost := by
  rw [isLost_iff]
  exact fun h => Nat.succ_ne_zero _ h.2

theorem isLost_unrooted {e : Entry} (h : e.isLost) : { e with roots := e.roots - 1 }.isLost := by
  obtain ⟨hempty, hroots⟩ := isLost_iff.1 h
  exact isLost_iff.2 ⟨hempty, Nat.sub_eq_zero_of_le (hroots ▸ Nat.zero_le 1)⟩

/-- If only roots held it and there was none, nothing holds it. -/
theorem isLost_of_unrooted {e : Entry} (hroots : e.roots = 0) (h : { e with roots := e.roots - 1 }.isLost) : e.isLost :=
  isLost_iff.2 ⟨(isLost_iff.1 h).1, hroots⟩

end Entry

/-- What the books of a heap say about an object, and whether a count has overflown anywhere. -/
structure Account where
  entry : Entry
  candidate : Bool
  overflown : Bool

namespace Account

/-- What a move does to an account. -/
inductive Change (s : Account) : Account → Prop where
  /-- Something has been done to another object. -/
  | other (more : Bool) : Change s { s with overflown := s.overflown || more }
  | object (object : Object) : Change s { s with entry := { s.entry with object } }
  | gain (parent : Handle) : Change s
      { entry := { s.entry with parents := s.entry.parents.add parent }
        candidate := false
        overflown := s.overflown || s.entry.parents.count parent + 1 ≥ countLimit }
  | lose {parent : Handle} {parents : Parents} : s.entry.parents.drop? parent = some parents → Change s
      { s with
        entry := { s.entry with parents }
        candidate := s.candidate || { s.entry with parents }.isLost }
  | root : Change s
      { entry := { s.entry with roots := s.entry.roots + 1 }
        candidate := false
        overflown := s.overflown || s.entry.roots + 1 ≥ countLimit }
  | unroot : Change s
      { s with
        entry := { s.entry with roots := s.entry.roots - 1 }
        candidate := s.candidate || { s.entry with roots := s.entry.roots - 1 }.isLost }

/-- Nothing holds a candidate, no parent is recorded with no slots, and the counts fit. -/
structure Correct (s : Account) : Prop where
  honest : s.candidate → s.entry.isLost
  proper : s.entry.parents.Proper
  fits : s.overflown = false → s.entry.roots < countLimit ∧ ∀ parent, s.entry.parents.count parent < countLimit

/-- What nothing holds is a candidate. -/
def Settled (s : Account) : Prop := s.entry.isLost → s.candidate

variable {s s' : Account}

theorem Correct.change (hs : s.Correct) (hc : s.Change s') : s'.Correct := by
  cases hc with
  | other more => exact ⟨hs.honest, hs.proper, fun hf => hs.fits (Bool.or_eq_false_iff.1 hf).1⟩
  | object o => exact ⟨hs.honest, hs.proper, hs.fits⟩
  | gain parent =>
      refine ⟨fun hcand => (nomatch hcand), hs.proper.add parent, fun hf => ?_⟩
      obtain ⟨hbefore, hcount⟩ := Bool.or_eq_false_iff.1 hf
      obtain ⟨hroots, hparents⟩ := hs.fits hbefore
      rw [decide_eq_false_iff_not] at hcount
      refine ⟨hroots, fun p => ?_⟩
      have hp := hparents p
      dsimp only
      rw [Parents.count_add]
      split
      · subst_vars
        omega
      · exact hp
  | @lose parent parents hdrop =>
      refine ⟨fun hcand => ?_, hs.proper.drop? hdrop, fun hf => ⟨(hs.fits hf).1, fun p => ?_⟩⟩
      · rcases Bool.or_eq_true _ _ ▸ hcand with hcand | hlost
        · have hempty : s.entry.parents.isEmpty := (Entry.isLost_iff.1 (hs.honest hcand)).1
          obtain ⟨n, hn, -⟩ := Parents.drop?_eq_some.1 hdrop
          have hzero := hs.proper.isEmpty_iff.1 hempty parent
          exact absurd (hs.proper.pos parent n hn) (by rw [← Parents.count_of_get? hn, hzero]; exact Nat.lt_irrefl 0)
        · exact hlost
      · have hp := (hs.fits hf).2 p
        dsimp only
        rw [Parents.count_drop? hdrop]
        omega
  | root =>
      refine ⟨fun hcand => (nomatch hcand), hs.proper, fun hf => ?_⟩
      obtain ⟨hbefore, hcount⟩ := Bool.or_eq_false_iff.1 hf
      rw [decide_eq_false_iff_not] at hcount
      exact ⟨Nat.lt_of_not_le hcount, (hs.fits hbefore).2⟩
  | unroot =>
      refine ⟨fun hcand => ?_, hs.proper, fun hf => ⟨Nat.lt_of_le_of_lt (Nat.sub_le _ _) (hs.fits hf).1, (hs.fits hf).2⟩⟩
      rcases Bool.or_eq_true _ _ ▸ hcand with hcand | hlost
      · exact Entry.isLost_unrooted (hs.honest hcand)
      · exact hlost

theorem Settled.change (hs : s.Settled) (hc : s.Change s') : s'.Settled := by
  cases hc with
  | other more => exact hs
  | object o => exact hs
  | gain parent => exact fun hlost => absurd hlost (s.entry.not_isLost_add parent)
  | lose hdrop => exact fun hlost => Bool.or_eq_true _ _ ▸ .inr hlost
  | root => exact fun hlost => absurd hlost (Entry.not_isLost_rooted _)
  | unroot => exact fun hlost => Bool.or_eq_true _ _ ▸ .inr hlost

end Account

namespace Heap

variable {h h' h₀ a b : Heap} {r x : Handle} {e e' : Entry} {s : Account}

/-! ## Accounts -/

def account? (h : Heap) (x : Handle) : Option Account :=
  (h.lookup? x).map fun e => ⟨e, x ∈ h.pending, h.overflown⟩

theorem account?_of_lookup? (he : h.lookup? x = some e) : h.account? x = some ⟨e, x ∈ h.pending, h.overflown⟩ := by
  rw [account?, he]
  rfl

theorem lookup?_of_account? (hs : h.account? x = some s) : h.lookup? x = some s.entry := by
  obtain ⟨e, he, rfl⟩ := Option.map_eq_some_iff.1 hs
  exact he

/-- The entry of one object has changed, and its place among the candidates. -/
structure Edits (h : Heap) (r : Handle) (f : Entry → Entry) (candidate more : Bool) (h' : Heap) : Prop where
  slots : h'.slots = (h.modifyEntry r f).slots
  others : ∀ y, y ≠ r → (y ∈ h'.pending ↔ y ∈ h.pending)
  self : r ∈ h'.pending ↔ candidate
  nodup : h.pending.Nodup → h'.pending.Nodup
  overflown : h'.overflown = (h.overflown || more)

variable {f : Entry → Entry} {candidate more : Bool}

theorem Edits.lookup? (hd : h.Edits r f candidate more h') (x : Handle) :
    h'.lookup? x = if x = r then (h.lookup? x).map f else h.lookup? x :=
  (lookup?_congr hd.slots x).trans (lookup?_modifyEntry h r x f)

theorem Edits.account? (hd : h.Edits r f candidate more h') (he : h.lookup? r = some e) :
    h'.account? r = some ⟨f e, candidate, h.overflown || more⟩ := by
  have hlookup : h'.lookup? r = some (f e) := by rw [hd.lookup?, if_pos rfl, he]; rfl
  have hself : decide (r ∈ h'.pending) = candidate := by
    rw [Bool.eq_iff_iff, decide_eq_true_eq, hd.self]
  rw [account?_of_lookup? hlookup, hself, hd.overflown]

theorem Edits.account?_of_ne (hd : h.Edits r f candidate more h') (hx : x ≠ r) (hs : h.account? x = some s) :
    h'.account? x = some { s with overflown := s.overflown || more } := by
  obtain ⟨e, he, rfl⟩ := Option.map_eq_some_iff.1 hs
  have hlookup : h'.lookup? x = some e := by rw [hd.lookup?, if_neg hx, he]
  rw [account?_of_lookup? hlookup, hd.overflown]
  simp only [hd.others x hx]

theorem edits_incEdge (he : h.lookup? r = some e) (parent : Handle) :
    h.Edits r (fun e => { e with parents := e.parents.add parent }) false
      (decide (e.parents.count parent + 1 ≥ countLimit)) (incEdge parent r h).2 := by
  refine Act.wp.state (P := h.Edits r _ _ _) ?_
  simp only [incEdge, Act.wp_bind, wp_entry, he, Act.wp_modify]
  refine ⟨rfl, fun y hy => ?_, ?_, fun hn => hn.filter _, rfl⟩
  · simp [noteCount, keep, modifyEntry, hy]
  · simp [noteCount, keep]

theorem edits_decEdge (he : h.lookup? r = some e) {parent : Handle} {parents : Parents}
    (hdrop : e.parents.drop? parent = some parents) :
    h.Edits r (fun e => { e with parents }) (decide (r ∈ h.pending) || { e with parents }.isLost) false
      (decEdge parent r h).2 := by
  refine Act.wp.state (P := h.Edits r _ _ _) ?_
  simp only [decEdge, Act.wp_bind, wp_entry, he, hdrop, Act.wp_modify]
  split
  · rename_i hlost
    refine ⟨rfl, fun y hy => ?_, ?_, fun hn => hn.insert, (Bool.or_false _).symm⟩
    · simp [nominate, modifyEntry, hy]
    · simp [nominate, hlost]
  · rename_i hlost
    refine ⟨rfl, fun y _ => Iff.rfl, ?_, id, (Bool.or_false _).symm⟩
    simp [modifyEntry, hlost]

/-- An edge that is not recorded is not dropped. -/
theorem decEdge_of_none {child parent : Handle}
    (hnone : ∀ e, h.lookup? child = some e → e.parents.drop? parent = none) : (decEdge parent child h).2 = h := by
  refine Act.wp.state (P := fun h' => h' = h) ?_
  simp only [decEdge, Act.wp_bind, wp_entry]
  cases he : h.lookup? child with
  | none => trivial
  | some e =>
      simp only [hnone e he]
      rfl

theorem edits_root (he : h.lookup? r = some e) :
    h.Edits r (fun e => { e with roots := e.roots + 1 }) false (decide (e.roots + 1 ≥ countLimit)) (root r h).2 := by
  refine Act.wp.state (P := h.Edits r _ _ _) ?_
  simp only [root, Act.wp_bind, wp_entry, he, Act.wp_modify]
  refine ⟨rfl, fun y hy => ?_, ?_, fun hn => hn.filter _, rfl⟩
  · simp [noteCount, keep, modifyEntry, hy]
  · simp [noteCount, keep]

theorem edits_unroot (he : h.lookup? r = some e) :
    h.Edits r (fun e => { e with roots := e.roots - 1 })
      (decide (r ∈ h.pending) || { e with roots := e.roots - 1 }.isLost) false (unroot r h).2 := by
  refine Act.wp.state (P := h.Edits r _ _ _) ?_
  simp only [unroot, Act.wp_bind, wp_entry, he, Act.wp_modify]
  split
  · rename_i hlost
    refine ⟨rfl, fun y hy => ?_, ?_, fun hn => hn.insert, (Bool.or_false _).symm⟩
    · simp [nominate, modifyEntry, hy]
    · simp [nominate, hlost]
  · rename_i hlost
    refine ⟨rfl, fun y _ => Iff.rfl, ?_, id, (Bool.or_false _).symm⟩
    simp [modifyEntry, hlost]

/-- With a dead handle nothing is done. -/
theorem eq_of_dead {α : Type} {k : Entry → Act Heap α} (hn : h.lookup? r = none) : ((entry r >>= k) h).2 = h := by
  refine Act.wp.state (P := fun h' => h' = h) ?_
  rw [Act.wp_bind, wp_entry, hn]

/-- A move edits the entry of one object, or there is one object more, or no account changes. -/
inductive Move.Kind (h h' : Heap) : Prop where
  | edits {r : Handle} {e : Entry} {f : Entry → Entry} {candidate more : Bool} : h.lookup? r = some e →
      h.Edits r f candidate more h' → Account.Change ⟨e, r ∈ h.pending, h.overflown⟩ ⟨f e, candidate, h.overflown || more⟩ →
      Kind h h'
  | created (c : ClassId) (payload : Payload) : h' = (h.allocate c payload).2 → Kind h h'
  | idle : (∀ x, h'.lookup? x = h.lookup? x) → h'.pending = h.pending → h'.overflown = h.overflown → Kind h h'

theorem Move.kind (hm : h.Move h') : Move.Kind h h' := by
  have hidle : h' = h → Move.Kind h h' := by
    rintro rfl
    exact .idle (fun _ => rfl) rfl rfl
  cases hm with
  | create c payload => exact .created c payload rfl
  | object r g =>
      cases he : h.lookup? r with
      | none =>
          refine .idle (fun x => (lookup?_modifyEntry h r x _).trans ?_) rfl rfl
          split
          · rename_i hx
            rw [hx, he]
            rfl
          · rfl
      | some e =>
          have hedits : h.Edits r (fun e => { e with object := g e.object }) (decide (r ∈ h.pending)) false (h.modifyObject r g) :=
            ⟨rfl, fun _ _ => Iff.rfl, by simp [modifyObject, modifyEntry], id, (Bool.or_false _).symm⟩
          refine .edits he hedits ?_
          rw [Bool.or_false]
          exact .object _
  | incEdge parent child =>
      cases he : h.lookup? child with
      | none => exact hidle (eq_of_dead he)
      | some e => exact .edits he (edits_incEdge he parent) (.gain parent)
  | decEdge parent child =>
      cases he : h.lookup? child with
      | none => exact hidle (eq_of_dead he)
      | some e =>
          cases hdrop : e.parents.drop? parent with
          | none => exact hidle (decEdge_of_none fun e' he' => by cases he.symm.trans he'; exact hdrop)
          | some parents =>
              refine .edits he (edits_decEdge he hdrop) ?_
              rw [Bool.or_false]
              exact .lose hdrop
  | root r =>
      cases he : h.lookup? r with
      | none => exact hidle (eq_of_dead he)
      | some e => exact .edits he (edits_root he) .root
  | unroot r =>
      cases he : h.lookup? r with
      | none => exact hidle (eq_of_dead he)
      | some e =>
          refine .edits he (edits_unroot he) ?_
          rw [Bool.or_false]
          exact .unroot
  | reflections _ => exact .idle (fun _ => rfl) rfl rfl

theorem books_allocate (h : Heap) (c : ClassId) (payload : Payload) :
    (h.allocate c payload).2.pending = h.pending ∧ (h.allocate c payload).2.overflown = h.overflown := by
  unfold allocate
  cases h.free <;> exact ⟨rfl, rfl⟩

/-- What happens to the account of an object. -/
theorem Move.account (hv : ∀ i ∈ h.free, h.Vacant i) (hm : h.Move h') (hs : h.account? x = some s) :
    ∃ s', h'.account? x = some s' ∧ s.Change s' := by
  have hsame : s.Change s := by simpa using Account.Change.other (s := s) false
  cases hm.kind with
  | @edits r e f candidate more he hedits hchange =>
      by_cases hx : x = r
      · subst hx
        cases (account?_of_lookup? he).symm.trans hs
        exact ⟨_, hedits.account? he, hchange⟩
      · exact ⟨_, hedits.account?_of_ne hx hs, .other more⟩
  | created c payload heq =>
      subst heq
      obtain ⟨hnone, hall⟩ := lookup?_allocate_of_vacant hv c payload
      obtain ⟨hpending, hoverflown⟩ := books_allocate h c payload
      have he := lookup?_of_account? hs
      have hlookup : (h.allocate c payload).2.lookup? x = some s.entry := by
        rw [hall, if_neg, he]
        rintro rfl
        cases hnone.symm.trans he
      refine ⟨s, ?_, hsame⟩
      rw [account?, hlookup, hpending, hoverflown, ← hs, account?, he]
  | idle hlookup hpending hoverflown =>
      exact ⟨s, by rw [account?, hlookup, hpending, hoverflown, ← hs, account?], hsame⟩

/-- Where there was no object there is none, or a new one. -/
theorem Move.absent (hv : ∀ i ∈ h.free, h.Vacant i) (hm : h.Move h') (hx : h.lookup? x = none) :
    h'.lookup? x = none ∨ ∃ object, h'.lookup? x = some { object } := by
  rcases hm.still with hs | ⟨c, payload, rfl⟩
  · left
    rw [← Option.not_isSome_iff_eq_none] at hx ⊢
    exact fun hlive => hx ((hs.isLive x).symm.trans hlive)
  · rw [(lookup?_allocate_of_vacant hv c payload).2]
    split
    · exact .inr ⟨_, rfl⟩
    · exact .inl hx

theorem Move.isLive (hv : ∀ i ∈ h.free, h.Vacant i) (hm : h.Move h') (hx : h.isLive x) : h'.isLive x := by
  obtain ⟨e, he⟩ := Option.isSome_iff_exists.1 hx
  obtain ⟨s', hs', -⟩ := hm.account hv (account?_of_lookup? he)
  exact Option.isSome_iff_exists.2 ⟨_, lookup?_of_account? hs'⟩

/-- The candidates after a move are those before it, but for one live object. -/
theorem Move.pending (hm : h.Move h') (hx : x ∈ h'.pending) : x ∈ h.pending ∨ h.isLive x := by
  cases hm.kind with
  | @edits r e f candidate more he hedits hchange =>
      by_cases hr : x = r
      · subst hr
        exact .inr (Option.isSome_iff_exists.2 ⟨e, he⟩)
      · exact .inl ((hedits.others x hr).1 hx)
  | created c payload heq => exact .inl (by rwa [heq, (books_allocate h c payload).1] at hx)
  | idle hlookup hpending hoverflown => exact .inl (hpending ▸ hx)

theorem Move.nodup_pending (hm : h.Move h') (hn : h.pending.Nodup) : h'.pending.Nodup := by
  cases hm.kind with
  | edits he hedits hchange => exact hedits.nodup hn
  | created c payload heq => rwa [heq, (books_allocate h c payload).1]
  | idle hlookup hpending hoverflown => rwa [hpending]

/-! ## Lists and counts -/

/-- The free list names the empty slots, each once, and the live count is right. -/
structure Filed (h : Heap) : Prop where
  nodup : h.free.Nodup
  vacant : ∀ i, i ∈ h.free ↔ h.Vacant i
  live : h.live = h.shapes.countP Prod.snd

theorem Filed.congr (hf : h.Filed) (hshapes : h'.shapes = h.shapes) (hfree : h'.free = h.free) (hlive : h'.live = h.live) :
    h'.Filed := by
  refine ⟨hfree ▸ hf.nodup, fun i => ?_, ?_⟩
  · rw [hfree, hf.vacant, vacant_iff, vacant_iff, hshapes]
  · rw [hlive, hshapes, hf.live]

theorem Filed.still (hf : h.Filed) (hs : h.Still h') : h'.Filed := hf.congr hs.shapes hs.free hs.live

theorem Filed.finishCollection (hf : h.Filed) (n : Nat) : (h.finishCollection n).Filed :=
  hf.congr (shapes_finishCollection h n) rfl rfl

theorem Filed.allocate (hf : h.Filed) (c : ClassId) (payload : Payload) : (h.allocate c payload).2.Filed := by
  obtain ⟨hlive, _, _⟩ := counts_allocate h c payload
  have hlodges := lodges_allocate (fun i hi => (hf.vacant i).1 hi) c payload
  generalize (h.allocate c payload).1 = r at hlodges
  generalize (h.allocate c payload).2 = h' at hlive hlodges ⊢
  cases hlodges with
  | again rest hfree hfree' hslot hshapes =>
      have hn : r.index ∉ rest ∧ rest.Nodup := List.nodup_cons.1 (hfree ▸ hf.nodup)
      refine ⟨hfree' ▸ hn.2, fun i => ?_, ?_⟩
      · have hold := hf.vacant i
        rw [hfree, vacant_iff, List.mem_cons] at hold
        rw [hfree', vacant_iff, hshapes, Array.getElem?_setIfInBounds]
        by_cases hi : r.index = i
        · subst hi
          simp [hn.1]
        · rw [if_neg hi, ← hold]
          simp [Ne.symm hi]
      · rw [hlive, hf.live, hshapes, countP_shapes_of_free _ hslot]
  | anew hfree hfree' _ hshapes =>
      refine ⟨hfree' ▸ List.nodup_nil, fun i => ?_, ?_⟩
      · have hold := hf.vacant i
        rw [hfree, vacant_iff] at hold
        rw [hfree', vacant_iff, hshapes, Array.getElem?_push]
        split
        · simp
        · exact hold
      · rw [hlive, hf.live, hshapes, Array.countP_push]
        rfl

theorem Filed.reclaim (hf : h.Filed) (hr : h.isLive r) (o : Object) :
    (h.reclaim r o).Filed ∧ (h.reclaim r o).live + 1 = h.live := by
  have hslot := isLive_iff_shape.1 hr
  have hcount := countP_shapes_of_taken ((r.generation + 1) % 4294967296) hslot
  have hs := still_reclaim h r o
  have hshapes := shapes_reclaim hr o
  have hlive : (h.reclaim r o).live = h.live - 1 := hs.live
  have hfree : (h.reclaim r o).free = r.index :: h.free := hs.free
  have hnot : r.index ∉ h.free := fun hm => by
    obtain ⟨g, hg⟩ := vacant_iff.1 ((hf.vacant _).1 hm)
    cases hslot.symm.trans hg
  rw [← hshapes, ← hf.live] at hcount
  refine ⟨⟨hfree ▸ List.nodup_cons.2 ⟨hnot, hf.nodup⟩, fun i => ?_, by omega⟩, by omega⟩
  rw [hfree, List.mem_cons, hf.vacant, vacant_iff, vacant_iff, hshapes, Array.getElem?_setIfInBounds]
  by_cases hi : r.index = i
  · subst hi
    simp [index_lt_of_isLive hr]
  · rw [if_neg hi]
    simp [Ne.symm hi]

/-- All that a heap knows twice agrees. -/
structure Booked (h : Heap) : Prop extends Filed h where
  balance : h.stats.allocated = h.live + h.stats.reclaimed
  once : h.pending.Nodup
  named : ∀ r ∈ h.pending, h.isLive r
  correct : ∀ r s, h.account? r = some s → s.Correct

theorem booked_new (settings : HeapSettings) : (Heap.new settings).Booked where
  nodup := List.nodup_nil
  vacant i := by simp [Heap.new, Vacant]
  live := by rw [shapes_new]; rfl
  balance := rfl
  once := List.nodup_nil
  named r hr := absurd hr List.not_mem_nil
  correct r s hs := by simp [account?, lookup?, Heap.new] at hs

/-- Nothing is recorded with a new object. -/
theorem correct_new (o : Object) (overflown : Bool) : Account.Correct ⟨{ object := o }, false, overflown⟩ :=
  ⟨fun hcand => (nomatch hcand), .empty, fun _ => ⟨(by decide : 0 < countLimit), fun _ => (by decide : 0 < countLimit)⟩⟩

theorem Booked.move (hb : h.Booked) (hm : h.Move h') : h'.Booked := by
  have hv : ∀ i ∈ h.free, h.Vacant i := fun i => (hb.vacant i).1
  have hnamed : ∀ r ∈ h'.pending, h'.isLive r := fun r hr =>
    hm.isLive hv ((hm.pending hr).elim (hb.named r) id)
  have hcorrect : ∀ r s, h'.account? r = some s → s.Correct := by
    intro r s' hs'
    cases he : h.lookup? r with
    | some e =>
        obtain ⟨s₁, hs₁, hchange⟩ := hm.account hv (account?_of_lookup? he)
        cases hs₁.symm.trans hs'
        exact (hb.correct r _ (account?_of_lookup? he)).change hchange
    | none =>
        have he' := lookup?_of_account? hs'
        rcases hm.absent hv he with hnone | ⟨o, ho⟩
        · cases hnone.symm.trans he'
        · have hout : r ∉ h'.pending := fun hr => by
            rcases hm.pending hr with hr | hr
            · exact absurd (hb.named r hr) (by simp [isLive, he])
            · simp [isLive, he] at hr
          have hs := account?_of_lookup? ho
          simp only [hout, decide_false] at hs
          cases hs.symm.trans hs'
          exact correct_new o _
  have honce := hm.nodup_pending hb.once
  rcases hm.still with hs | ⟨c, payload, rfl⟩
  · refine ⟨hb.toFiled.still hs, ?_, honce, hnamed, hcorrect⟩
    rw [hs.allocated, hs.live, hs.reclaimed, hb.balance]
  · obtain ⟨hlive, hallocated, hreclaimed⟩ := counts_allocate h c payload
    refine ⟨hb.toFiled.allocate c payload, ?_, honce, hnamed, hcorrect⟩
    rw [hallocated, hlive, hreclaimed, hb.balance]
    omega

theorem Booked.moves (hb : h.Booked) (hm : h.Moves h') : h'.Booked := by
  induction hm with
  | refl => exact hb
  | tail _ hstep ih => exact ih.move hstep

/-! ## Collecting -/

/-- The counts of an object are right; whether it is a candidate is left open. -/
def Counted (h : Heap) : Prop := ∀ r e, h.lookup? r = some e → Account.Correct ⟨e, false, h.overflown⟩

theorem correct_forgets {e : Entry} {overflown : Bool} (hc : Account.Correct ⟨e, false, overflown⟩) (r : Handle) :
    Account.Correct ⟨Heap.forgets r e, false, overflown⟩ := by
  refine ⟨fun hcand => (nomatch hcand), hc.proper.erase r, fun hf => ⟨(hc.fits hf).1, fun p => ?_⟩⟩
  have hp := (hc.fits hf).2 p
  simp only [Heap.forgets, Parents.count_erase]
  split
  · decide
  · exact hp

theorem Counted.reclaim (hc : h.Counted) (hr : h.isLive r) (o : Object) : (h.reclaim r o).Counted := by
  have hoverflown : (h.reclaim r o).overflown = h.overflown := by
    suffices hfold : ∀ (children : List Handle) (h : Heap),
        (children.foldl (fun h child => h.dropParent r child) h).overflown = h.overflown from hfold o.edges (h.vacate r)
    intro children
    induction children with
    | nil => exact fun _ => rfl
    | cons child rest ih => exact fun h => (ih _).trans rfl
  intro x e' he'
  rw [lookup?_reclaim hr] at he'
  rw [hoverflown]
  split at he'
  · cases he'
  · split at he'
    · obtain ⟨e, he, rfl⟩ := Option.map_eq_some_iff.1 he'
      exact correct_forgets (hc x e he) r
    · exact hc x e' he'

theorem Booked.collect (hb : h.Booked) (registry : Registry) (provider : RootProvider) :
    (h.collect registry provider).2.Booked := by
  have hcounted : h.Counted := fun r e he => by
    have hc := hb.correct r _ (account?_of_lookup? he)
    exact ⟨fun hcand => (nomatch hcand), hc.proper, hc.fits⟩
  have hstep : ∀ {gone : List Handle} {h : Heap} {r o}, h.object? r = some o →
      (h.Filed ∧ h.Counted ∧ h.stats.allocated = h.live + h.stats.reclaimed + gone.length) →
      (h.reclaim r o).Filed ∧ (h.reclaim r o).Counted ∧ (h.reclaim r o).stats.allocated =
        (h.reclaim r o).live + (h.reclaim r o).stats.reclaimed + (r :: gone).length := by
    rintro gone h r o ho ⟨hfiled, hcounted, hbalance⟩
    obtain ⟨hfiled', hlive⟩ := hfiled.reclaim (isLive_of_object? ho) o
    have hs := still_reclaim h r o
    have hallocated : (h.reclaim r o).stats.allocated = h.stats.allocated := hs.allocated
    have hreclaimed : (h.reclaim r o).stats.reclaimed = h.stats.reclaimed := hs.reclaimed
    refine ⟨hfiled', hcounted.reclaim (isLive_of_object? ho) o, ?_⟩
    rw [hallocated, hreclaimed, hbalance, List.length_cons]
    omega
  obtain ⟨h', ⟨hfiled, hcounted, hbalance⟩, heq⟩ := collect_induction
    (P := fun gone h => h.Filed ∧ h.Counted ∧ h.stats.allocated = h.live + h.stats.reclaimed + gone.length)
    ⟨hb.toFiled, hcounted, hb.balance⟩ hstep registry provider
  rw [heq]
  refine ⟨hfiled.finishCollection _, ?_, List.nodup_nil, fun r hr => absurd hr List.not_mem_nil, fun r s hs => ?_⟩
  · simpa [finishCollection, Nat.add_assoc] using hbalance
  · obtain ⟨e, he, rfl⟩ := Option.map_eq_some_iff.1 hs
    have hout : (r ∈ (h'.finishCollection (h.dead provider).length).pending) = False := by simp [finishCollection]
    simp only [hout, decide_false]
    exact hcounted r e he

theorem Booked.after (hb : h.Booked) (op : Operation) : (op.after h).Booked := by
  cases hop : op.collects with
  | false => exact hb.moves (Operation.moves_after hop h)
  | true =>
      cases op with
      | call c => cases c with
        | collect registry provider => exact hb.collect registry provider
        | _ => cases hop
      | _ => cases hop

theorem Booked.operate (hb : h.Booked) (ops : List Operation) : (h.operate ops).Booked := by
  induction ops generalizing h with
  | nil => exact hb
  | cons op rest ih => exact ih (hb.after op)

/-! ## What has lost its last holder -/

/-- The move takes an edge or a root from a live object. -/
inductive Loses (r : Handle) (h : Heap) : Heap → Prop where
  | edge {e : Entry} {parent : Handle} {parents : Parents} : h.lookup? r = some e → e.parents.drop? parent = some parents →
      Loses r h (decEdge parent r h).2
  | root {e : Entry} : h.lookup? r = some e → 0 < e.roots → Loses r h (unroot r h).2

/-- On the way from one heap to the other the object has lost an edge or a root. -/
def LostSince (r : Handle) (h₀ h : Heap) : Prop := ∃ a b, h₀.Moves a ∧ Loses r a b ∧ b.Moves h

/-- Something holds the object. -/
def Held (h : Heap) (r : Handle) : Prop := ∃ e, h.lookup? r = some e ∧ ¬ e.isLost

theorem Loses.move (hl : Loses r h h') : h.Move h' := by
  cases hl with
  | edge _ _ => exact .decEdge _ _
  | root _ _ => exact .unroot _

theorem Loses.settled (hl : Loses r h h') : ∃ s, h'.account? r = some s ∧ s.Settled := by
  cases hl with
  | edge he hdrop =>
      exact ⟨_, (edits_decEdge he hdrop).account? he, fun hlost => Bool.or_eq_true _ _ ▸ .inr hlost⟩
  | root he _ => exact ⟨_, (edits_unroot he).account? he, fun hlost => Bool.or_eq_true _ _ ▸ .inr hlost⟩

theorem LostSince.settled (hb : h₀.Booked) (hl : LostSince r h₀ h) : ∃ s, h.account? r = some s ∧ s.Settled := by
  obtain ⟨a, b, hbefore, hlose, hafter⟩ := hl
  have hbooked := (hb.moves hbefore).move hlose.move
  induction hafter with
  | refl => exact hlose.settled
  | tail hmoves hstep ih =>
      obtain ⟨s, hs, hsettled⟩ := ih
      obtain ⟨s', hs', hchange⟩ := hstep.account (fun i => ((hbooked.moves hmoves).vacant i).1) hs
      exact ⟨s', hs', hsettled.change hchange⟩

theorem Held.of_lookup?_eq (hheld : a.Held r) (heq : b.lookup? r = a.lookup? r) : b.Held r := by
  obtain ⟨e, he, hholds⟩ := hheld
  exact ⟨e, heq.trans he, hholds⟩

/-- What has been held is still held if the edit is to another object or leaves a holder. -/
theorem Held.edits (hheld : a.Held r) (hd : a.Edits x f candidate more b)
    (hleaves : r = x → ∀ e, a.lookup? r = some e → (f e).isLost → e.isLost) : b.Held r := by
  obtain ⟨e, he, hholds⟩ := hheld
  have hlookup := hd.lookup? r
  split at hlookup
  · rename_i hx
    exact ⟨f e, hlookup.trans (congrArg _ he), mt (hleaves hx e he) hholds⟩
  · exact ⟨e, hlookup.trans he, hholds⟩

theorem Held.allocate (hheld : a.Held r) (hv : ∀ i ∈ a.free, a.Vacant i) (c : ClassId) (payload : Payload) :
    (a.allocate c payload).2.Held r := by
  obtain ⟨hfresh, hall⟩ := lookup?_allocate_of_vacant hv c payload
  obtain ⟨e, he, hholds⟩ := hheld
  refine ⟨e, ?_, hholds⟩
  rw [hall, if_neg, he]
  rintro rfl
  cases hfresh.symm.trans he

theorem Held.modifyObject (hheld : a.Held r) (x : Handle) (g : Object → Object) : (a.modifyObject x g).Held r := by
  obtain ⟨e, he, hholds⟩ := hheld
  have hlookup := lookup?_modifyEntry a x r fun e => { e with object := g e.object }
  split at hlookup
  · exact ⟨_, hlookup.trans (congrArg _ he), hholds⟩
  · exact ⟨e, hlookup.trans he, hholds⟩

/-- A change after which nothing holds the object is one that takes an edge or a root from it. -/
theorem loses_of_move (hb : a.Booked) (hm : a.Move b) (hheld : a.Held r) (hnone : ¬ b.Held r) : Loses r a b := by
  have hdead : b = a → Loses r a b := fun heq => absurd (heq ▸ hheld) hnone
  cases hm with
  | create c payload => exact absurd (hheld.allocate (fun i => (hb.vacant i).1) c payload) hnone
  | object x g => exact absurd (hheld.modifyObject x g) hnone
  | incEdge parent child =>
      cases hc : a.lookup? child with
      | none => exact hdead (eq_of_dead hc)
      | some e =>
          exact absurd (hheld.edits (edits_incEdge hc parent) fun _ e _ hlost => absurd hlost (e.not_isLost_add parent)) hnone
  | decEdge parent child =>
      cases hc : a.lookup? child with
      | none => exact hdead (eq_of_dead hc)
      | some e =>
          cases hdrop : e.parents.drop? parent with
          | none => exact hdead (decEdge_of_none fun e' he' => by cases hc.symm.trans he'; exact hdrop)
          | some parents =>
              by_cases hx : r = child
              · subst hx
                exact .edge hc hdrop
              · exact absurd (hheld.edits (edits_decEdge hc hdrop) fun heq => absurd heq hx) hnone
  | root x =>
      cases hc : a.lookup? x with
      | none => exact hdead (eq_of_dead hc)
      | some e =>
          exact absurd (hheld.edits (edits_root hc) fun _ e _ hlost => absurd hlost e.not_isLost_rooted) hnone
  | unroot x =>
      cases hc : a.lookup? x with
      | none => exact hdead (eq_of_dead hc)
      | some e =>
          by_cases hloses : r = x ∧ 0 < e.roots
          · obtain ⟨rfl, hpos⟩ := hloses
            exact .root hc hpos
          · refine absurd (hheld.edits (edits_unroot hc) fun hx e' he' hlost => ?_) hnone
            subst hx
            cases hc.symm.trans he'
            have hzero : e.roots = 0 := Nat.eq_zero_of_not_pos fun hpos => hloses ⟨rfl, hpos⟩
            exact Entry.isLost_of_unrooted hzero hlost
  | reflections _ => exact absurd (hheld.of_lookup?_eq rfl) hnone

/-- An object that something has held and nothing holds any more has lost an edge or a root in between. -/
theorem lostSince_of_held (hb : a.Booked) (hm : a.Moves h) (hheld : a.Held r) (hnone : ¬ h.Held r) : LostSince r a h := by
  induction hm using Relation.ReflTransGen.head_induction_on with
  | refl => exact absurd hheld hnone
  | @head a b hstep hrest ih =>
      by_cases hb' : b.Held r
      · obtain ⟨x, y, hx, hlose, hy⟩ := ih (hb.move hstep) hb'
        exact ⟨x, y, .head hstep hx, hlose, hy⟩
      · exact ⟨a, b, .refl, loses_of_move hb hstep hheld hb', hrest⟩

/-! ## Any run -/

/-- What the books show of an object that nothing holds. -/
theorem Booked.isLost_iff (hb : h.Booked) (he : h.lookup? r = some e) : e.isLost ↔ ¬ h.isRooted r ∧ h.incoming r = .ok 0 := by
  have hproper := (hb.correct r _ (account?_of_lookup? he)).proper
  simp only [isRooted, incoming, he, Entry.isLost, Bool.and_eq_true, decide_eq_true_eq, Nat.not_lt, Nat.le_zero, gt_iff_lt,
    Except.ok.injEq, hproper.total_eq_zero]
  exact and_comm

/-- Whatever has been done with a heap, its free list names the empty slots, each once; the live count is that of the
occupied slots, and of all that has been allocated less what has been reclaimed; no recorded count is zero, and each fits in
its word unless the program has stopped because one did not; and the candidates, each named once, are live objects without
roots and edges. Of such objects all are candidates that have lost an edge or a root since the last collection, within an
operation or between two. -/
theorem books_balance (settings : HeapSettings) (ops : List Operation) :
    let h := (Heap.new settings).operate ops
    h.free.Nodup ∧ (∀ i, i ∈ h.free ↔ ∃ generation, h.slots[i]? = some ⟨generation, none⟩) ∧
    h.live = h.slots.countP (fun slot => slot.entry.isSome) ∧
    h.live = h.stats.allocated - h.stats.reclaimed ∧ h.stats.reclaimed ≤ h.stats.allocated ∧
    (∀ child e, h.lookup? child = some e → ∀ parent n, e.parents.get? parent = some n →
      h.edgeCount parent child = .ok n ∧ 0 < n ∧ (h.overflown = false → n < countLimit)) ∧
    h.pending.Nodup ∧ (∀ r ∈ h.pending, h.isLive r ∧ ¬ h.isRooted r ∧ h.incoming r = .ok 0) ∧
    ∀ xs ys, ops = xs ++ ys → (∀ op ∈ ys, op.collects = false) →
      ∀ r, h.isLive r → ¬ h.isRooted r → h.incoming r = .ok 0 →
        (LostSince r ((Heap.new settings).operate xs) h ∨
          ∃ ys₁ ys₂, ys = ys₁ ++ ys₂ ∧ ((Heap.new settings).operate (xs ++ ys₁)).Held r) → r ∈ h.pending := by
  intro h
  have hb : h.Booked := (booked_new settings).operate ops
  refine ⟨hb.nodup, hb.vacant, ?_, ?_, ?_, fun child e he parent n hn => ?_, hb.once, fun r hr => ?_,
    fun xs ys hops hys r hlive hroots hparents hlost => ?_⟩
  · rw [countP_slots]
    exact hb.live
  · rw [hb.balance, Nat.add_sub_cancel]
  · rw [hb.balance]
    exact Nat.le_add_left ..
  · have hcorrect := hb.correct child _ (account?_of_lookup? he)
    have hcount := Parents.count_of_get? hn
    refine ⟨?_, hcorrect.proper.pos parent n hn, fun hf => ?_⟩
    · rw [edgeCount, he, ← hcount]
    · exact hcount ▸ (hcorrect.fits hf).2 parent
  · obtain ⟨e, he⟩ := Option.isSome_iff_exists.1 (hb.named r hr)
    have hcand : (decide (r ∈ h.pending)) = true := decide_eq_true hr
    exact ⟨hb.named r hr, (hb.isLost_iff he).1 ((hb.correct r _ (account?_of_lookup? he)).honest hcand)⟩
  · have hlast : ((Heap.new settings).operate xs).Booked := (booked_new settings).operate xs
    have hend : h = ((Heap.new settings).operate xs).operate ys := by rw [← operate_append, ← hops]
    obtain ⟨e, he⟩ := Option.isSome_iff_exists.1 hlive
    have hfree : e.isLost := (hb.isLost_iff he).2 ⟨hroots, hparents⟩
    have hsince : LostSince r ((Heap.new settings).operate xs) h := by
      rcases hlost with hlost | ⟨ys₁, ys₂, rfl, hheld⟩
      · exact hlost
      have hfirst : ∀ op ∈ ys₁, op.collects = false := fun op hop => hys op (List.mem_append_left _ hop)
      have hthen : ∀ op ∈ ys₂, op.collects = false := fun op hop => hys op (List.mem_append_right _ hop)
      rw [operate_append] at hheld hend
      have hnone : ¬ h.Held r := by
        rintro ⟨e', he', hholds⟩
        cases he.symm.trans he'
        exact hholds hfree
      have hmoves := moves_operate hthen (((Heap.new settings).operate xs).operate ys₁)
      rw [← hend] at hmoves
      obtain ⟨a, b, hbefore, hlose, hafter⟩ := lostSince_of_held (hlast.operate ys₁) hmoves hheld hnone
      exact ⟨a, b, (moves_operate hfirst _).trans hbefore, hlose, hafter⟩
    obtain ⟨s, hs, hsettled⟩ := hsince.settled hlast
    cases (account?_of_lookup? he).symm.trans hs
    exact of_decide_eq_true (hsettled hfree)

end Heap

end Spool
