import Spool.Proofs.Heap.Slots

/-!
# Writes happen as a whole or not at all

A write stores first and sees to the edges afterwards. It asks for everything that could stop it before it stores: in a
heap whose slots hold live objects only, nothing that comes later can fail.
-/

namespace Spool.Heap

variable {h h' : Heap} {r : Handle} {v : Value} {α : Type}

/-! ## What cannot fail -/

theorem incEdge_succeeds (parent : Handle) (hr : h.isLive r) : (incEdge parent r).wp h (fun _ => h.Still) fun _ _ => False := by
  obtain ⟨e, he⟩ := Option.isSome_iff_exists.1 hr
  have hends : (incEdge parent r).wp h (fun _ _ => True) fun _ _ => False := by
    simp only [incEdge, Act.wp_bind, wp_entry, he, Act.wp_modify]
  exact Act.wp_mono (Act.wp_and hends (Act.wp.of_state (still_incEdge h parent r))) (fun _ _ h => h.2) fun _ _ h => h.1

theorem decEdge_succeeds (parent : Handle) (hr : h.isLive r) : (decEdge parent r).wp h (fun _ => h.Still) fun _ _ => False := by
  obtain ⟨e, he⟩ := Option.isSome_iff_exists.1 hr
  have hends : (decEdge parent r).wp h (fun _ _ => True) fun _ _ => False := by
    simp only [decEdge, Act.wp_bind, wp_entry, he]
    cases e.parents.drop? parent <;> trivial
  exact Act.wp_mono (Act.wp_and hends (Act.wp.of_state (still_decEdge h parent r))) (fun _ _ h => h.2) fun _ _ h => h.1

theorem link_succeeds (parent : Handle) (hv : h.Valid v) : (link parent v).wp h (fun _ => h.Still) fun _ _ => False := by
  cases v with
  | object child => exact incEdge_succeeds parent (hv child rfl)
  | none => exact .refl h
  | scalar s => exact .refl h

theorem unlink_succeeds (parent : Handle) (hv : h.Valid v) : (unlink parent v).wp h (fun _ => h.Still) fun _ _ => False := by
  cases v with
  | object child => exact decEdge_succeeds parent (hv child rfl)
  | none => exact .refl h
  | scalar s => exact .refl h

theorem relink_succeeds (parent : Handle) {old new : Value} (hold : h.Valid old) (hnew : h.Valid new) :
    (relink parent old new).wp h (fun _ _ => True) fun _ _ => False := by
  unfold relink
  simp only [Act.wp_ite, Act.wp_bind, Act.wp_pure]
  split
  · trivial
  · refine Act.wp_mono (unlink_succeeds parent hold) (fun _ h' hs => ?_) fun _ _ h => h
    exact Act.wp_mono (link_succeeds parent (hs.valid hnew)) (fun _ _ _ => trivial) fun _ _ h => h

theorem edges_succeed {f : Handle → Act Heap Unit} (hf : ∀ {h r}, h.isLive r → (f r).wp h (fun _ => h.Still) fun _ _ => False)
    {children : List Handle} (hlive : ∀ c ∈ children, h.isLive c) :
    (forIn children PUnit.unit fun c _ => do f c; pure (ForInStep.yield PUnit.unit)).wp h (fun _ => h.Still)
      fun _ _ => False := by
  refine Act.wp_forIn (I := fun rest h' => h.Still h' ∧ ∀ c ∈ rest, h'.isLive c) ⟨.refl h, hlive⟩
    (fun c rest h₁ hi => ?_) fun _ hi => hi.1
  obtain ⟨hs, hrest⟩ := hi
  refine Act.wp_mono (hf (hrest c List.mem_cons_self)) (fun _ h₂ hs₂ => ?_) fun _ _ h => h
  exact ⟨hs.trans hs₂, fun x hx => (hs₂.isLive x).trans (hrest x (List.mem_cons_of_mem _ hx))⟩

/-! ## Each write -/

/-- The write happens if it may; otherwise it fails, and nothing changes. -/
def Atomic (act : Act Heap α) (h : Heap) (may : Prop) : Prop := act.wp h (fun _ _ => may) fun _ h' => h' = h ∧ ¬ may

theorem Atomic.iff {act : Act Heap α} {may may' : Prop} (ha : Atomic act h may) (hm : may ↔ may') : Atomic act h may' :=
  Act.wp_mono ha (fun _ _ => hm.1) fun _ _ h => ⟨h.1, fun hn => h.2 (hm.2 hn)⟩

theorem Atomic.discard {act : Act Heap α} {may : Prop} (ha : Atomic act h may) : Atomic (discard act) h may := by
  unfold Atomic
  rw [Act.wp_discard]
  exact ha

theorem Atomic.outcome {act : Act Heap α} {may : Prop} (ha : Atomic act h may) :
    (∀ e h', act h = (.error e, h') → h' = h) ∧ ((∃ e h', act h = (.error e, h')) ↔ ¬ may) := by
  unfold Atomic Act.wp at ha
  rcases hrun : act h with ⟨e | a, h'⟩
  · rw [hrun] at ha
    refine ⟨fun e' h'' heq => ?_, fun _ => ha.2, fun _ => ⟨e, h', rfl⟩⟩
    cases heq
    exact ha.1
  · rw [hrun] at ha
    exact ⟨nofun, nofun, fun hn => absurd ha hn⟩

/-- First the value is asked for, then the target. -/
theorem atomic_storable {k : Unit → Act Heap α} {may : Prop} (hk : h.Valid v → Atomic (k ()) h may) :
    Atomic (requireStorable v >>= k) h (h.Valid v ∧ may) := by
  unfold Atomic
  rw [Act.wp_bind]
  refine wp_requireStorable (fun hv => ?_) fun hv => ⟨rfl, fun h => hv h.1⟩
  exact (hk hv).iff (by simp [hv])

theorem atomic_entry {k : Entry → Act Heap α} {may : Object → Prop}
    (hk : ∀ e, h.lookup? r = some e → Atomic (k e) h (may e.object)) :
    Atomic (entry r >>= k) h (∃ o, h.object? r = some o ∧ may o) := by
  unfold Atomic
  rw [Act.wp_bind, wp_entry]
  cases he : h.lookup? r with
  | none => exact ⟨rfl, fun ⟨o, ho, _⟩ => by simp [object?, he] at ho⟩
  | some e => exact (hk e he).iff (by simp [object?, he])

/-- Once an object has been changed nothing fails. -/
theorem atomic_object {f : Object → Object} {k : Unit → Act Heap α}
    (hk : (k ()).wp (h.modifyObject r f) (fun _ _ => True) fun _ _ => False) :
    Atomic ((modify fun h => h.modifyObject r f) >>= k) h True := by
  unfold Atomic
  rw [Act.wp_bind, Act.wp_modify]
  exact Act.wp_mono hk (fun _ _ h => h) fun _ _ h => h.elim

theorem exists_object?_iff : (∃ o, h.object? r = some o ∧ True) ↔ h.isLive r := by
  rw [isLive_iff]
  simp

theorem atomic_arrayPush (r : Handle) (v : Value) :
    Atomic (arrayPush r v) h (h.Valid v ∧ ∃ o, h.object? r = some o ∧ ∃ items, o.payload = .array items) := by
  refine atomic_storable fun hv => atomic_entry fun e he => ?_
  cases hp : e.object.payload with
  | array items =>
      simp only [arraySize?, Object.array?, hp, Option.map_some]
      refine Atomic.iff (atomic_object ?_) (by simp)
      rw [Act.wp_bind]
      exact Act.wp_mono (link_succeeds r ((still_modifyEntry h r _).valid hv)) (fun _ _ _ => trivial) fun _ _ h => h
  | _ =>
      simp only [arraySize?, Object.array?, hp, Option.map_none]
      exact ⟨rfl, by simp⟩

/-- The item at an index is there if the index is within bounds. -/
theorem itemAt_isOk {items : Array Value} {index : Int64} :
    (∃ w, itemAt items index = .ok w) ↔ 0 ≤ index.toInt ∧ index.toInt < items.size := by
  have hneg : index < 0 ↔ index.toInt < 0 := Int64.lt_iff_toInt_lt
  have hnat : index.toNatClampNeg = index.toInt.toNat := (Int64.toNat_toInt index).symm
  unfold itemAt
  by_cases hi : index < 0
  · rw [if_pos hi]
    have hlt := hneg.1 hi
    refine ⟨?_, fun hbounds => ?_⟩
    · rintro ⟨_, ⟨⟩⟩
    · omega
  · rw [if_neg hi, hnat]
    have hpos : 0 ≤ index.toInt := by
      have := mt hneg.2 hi
      omega
    by_cases hlt : index.toInt.toNat < items.size
    · rw [Array.getElem?_eq_getElem hlt]
      exact ⟨fun _ => ⟨hpos, by omega⟩, fun _ => ⟨_, rfl⟩⟩
    · rw [Array.getElem?_eq_none (Nat.le_of_not_lt hlt)]
      refine ⟨?_, fun hbounds => ?_⟩
      · rintro ⟨_, ⟨⟩⟩
      · omega

theorem slotGet_isOk {index : Int64} : (∃ w, h.slotGet r index = .ok w) ↔ ∃ o, h.object? r = some o ∧ ∃ items,
    (o.payload = .array items ∨ o.payload = .tuple items) ∧ 0 ≤ index.toInt ∧ index.toInt < items.size := by
  cases ho : h.object? r with
  | none =>
      have hstale : h.slotGet r index = .error .stale := by
        rw [slotGet, fetch, ho]
        rfl
      simp [hstale]
  | some o =>
      rw [slotGet_eq ho]
      cases hp : o.payload <;> simp [itemAt_isOk, hp]

section
variable (hg : h.EdgeGraph)
include hg

/-- What an object holds is live, also when the object has been changed. -/
theorem valid_held {o : Object} (ho : h.object? r = some o) {w : Value} (hw : w = .none ∨ w ∈ o.values) (x : Handle)
    (f : Object → Object) : (h.modifyObject x f).Valid w := by
  refine (still_modifyEntry h x _).valid ?_
  rcases hw with rfl | hw
  · exact nofun
  · exact valid_of_mem_values hg ho hw

theorem atomic_setMember (r : Handle) (name : String) (v : Value) :
    Atomic (setMember r name v) h (h.Valid v ∧ h.isLive r) := by
  refine Atomic.iff (atomic_storable fun hv => atomic_entry fun e he => atomic_object ?_) (and_congr_right fun _ =>
    exists_object?_iff)
  refine relink_succeeds r (valid_held hg (object?_of_lookup? he) ?_ r _) ((still_modifyEntry h r _).valid hv)
  cases hm : e.object.member? name with
  | none => exact .inl rfl
  | some w => exact .inr (List.mem_append_left _ (Bindings.mem_values_of_get? hm))

theorem atomic_removeMember (r : Handle) (name : String) : Atomic (removeMember r name) h (h.isLive r) := by
  refine Atomic.iff (atomic_entry fun e he => atomic_object ?_) exists_object?_iff
  rw [Act.wp_bind]
  refine Act.wp_mono (unlink_succeeds r (valid_held hg (object?_of_lookup? he) ?_ r _)) (fun _ _ _ => trivial) fun _ _ h => h
  cases hm : e.object.member? name with
  | none => exact .inl rfl
  | some w => exact .inr (List.mem_append_left _ (Bindings.mem_values_of_get? hm))

theorem atomic_replacePayload (r : Handle) (payload : Payload) :
    Atomic (replacePayload r payload) h ((∀ v ∈ payload.values, h.Valid v) ∧ h.isLive r) := by
  unfold Atomic replacePayload
  rw [Act.wp_bind]
  refine wp_requireAll (fun hlive => ?_) fun hdead => ⟨rfl, fun hmay => ?_⟩
  · have hvalid := valid_values_iff.2 hlive
    refine Atomic.iff (atomic_entry fun e he => atomic_object ?_) (exists_object?_iff.trans (and_iff_right hvalid).symm)
    have hs := still_modifyEntry h r fun e => { e with object := { e.object with payload } }
    rw [Act.wp_bind]
    refine Act.wp_mono (edges_succeed (incEdge_succeeds r) fun c hc => (hs.isLive c).trans (hlive c hc))
      (fun _ h₁ hs₁ => ?_) fun _ _ h => h
    rw [Act.wp_bind]
    refine Act.wp_mono (edges_succeed (decEdge_succeeds r) fun c hc => ?_) (fun _ _ _ => trivial) fun _ _ h => h
    rw [hs₁.isLive]
    refine valid_held hg (object?_of_lookup? he) (w := .object c) (.inr ?_) r _ c rfl
    exact List.mem_append_right _ (Value.mem_handles.1 hc)
  · obtain ⟨c, hc, hn⟩ := hdead
    exact hn (valid_values_iff.1 hmay.1 c hc)

theorem atomic_putPayload (r : Handle) (payload : Payload) :
    Atomic (putPayload r payload) h ((∀ v ∈ payload.values, h.Valid v) ∧ h.isLive r) := by
  have hentry : Atomic (putPayload r payload) h (∃ o, h.object? r = some o ∧ ∀ v ∈ payload.values, h.Valid v) := by
    refine atomic_entry fun e he => ?_
    split
    · have hr : h.isLive r := isLive_of_object? (object?_of_lookup? he)
      exact (atomic_replacePayload hg r payload).discard.iff (and_iff_left hr)
    · rename_i hplain
      have hnone : payload.carriesValues = false := by
        simp only [Bool.or_eq_true, not_or, Bool.not_eq_true] at hplain
        exact hplain.1
      change ∀ v ∈ payload.values, h.Valid v
      simp [values_eq_nil_of_plain hnone]
  refine hentry.iff ?_
  rw [isLive_iff]
  exact ⟨fun ⟨o, ho, hv⟩ => ⟨hv, o, ho⟩, fun ⟨hv, o, ho⟩ => ⟨o, ho, hv⟩⟩

theorem atomic_arrayPop (r : Handle) :
    Atomic (arrayPop r) h (∃ o, h.object? r = some o ∧ ∃ items, o.payload = .array items) := by
  refine atomic_entry fun e he => ?_
  cases hp : e.object.payload with
  | array items =>
      simp only [lastItem?, Object.array?, hp, Option.map_some]
      refine Atomic.iff (atomic_object ?_) (by simp)
      rw [Act.wp_bind]
      refine Act.wp_mono (unlink_succeeds r (valid_held hg (object?_of_lookup? he) ?_ r _)) (fun _ _ _ => trivial)
        fun _ _ h => h
      cases hlast : items.back? with
      | none => exact .inl rfl
      | some w =>
          right
          refine List.mem_append_right _ ?_
          rw [hp]
          exact Array.mem_toList_iff.2 (Array.mem_of_back? hlast)
  | _ =>
      simp only [lastItem?, Object.array?, hp, Option.map_none]
      exact ⟨rfl, by simp⟩

theorem atomic_slotSet (r : Handle) (index : Int64) (v : Value) :
    Atomic (slotSet r index v) h (h.Valid v ∧ ∃ o, h.object? r = some o ∧ ∃ items,
      (o.payload = .array items ∨ o.payload = .tuple items) ∧ 0 ≤ index.toInt ∧ index.toInt < items.size) := by
  refine Atomic.iff (atomic_storable fun hv => ?_) (and_congr_right fun _ => slotGet_isOk)
  unfold Atomic
  rw [Act.wp_bind, Act.wp_mk_getThe]
  cases hold : h.slotGet r index with
  | error e => exact ⟨rfl, fun ⟨_, h⟩ => nomatch h⟩
  | ok old =>
      refine Atomic.iff (atomic_object ?_) (by simp)
      cases ho : h.object? r with
      | none =>
          rw [slotGet, fetch, ho] at hold
          cases hold
      | some o =>
          obtain ⟨items, hp, hi⟩ := slotGet_ok ho hold
          have hmem : old ∈ items.toList := Array.mem_toList_iff.2 (Array.mem_of_getElem? hi)
          refine relink_succeeds r (valid_held hg ho (.inr (List.mem_append_right _ ?_)) r _)
            ((still_modifyEntry h r _).valid hv)
          rcases hp with hp | hp
          · rw [hp]
            exact hmem
          · rw [hp]
            exact hmem

end

theorem atomic_root (r : Handle) : Atomic (root r) h (h.isLive r) := by
  have hentry : Atomic (root r) h (∃ o, h.object? r = some o ∧ True) := atomic_entry fun _ _ => trivial
  exact hentry.iff exists_object?_iff

theorem atomic_unroot (r : Handle) : Atomic (unroot r) h (h.isLive r) := by
  have hentry : Atomic (unroot r) h (∃ o, h.object? r = some o ∧ True) := atomic_entry fun _ _ => trivial
  exact hentry.iff exists_object?_iff

/-! ## All writes -/

/-- The call writes members, payloads, items or roots. -/
def Call.isWrite : Call → Bool
  | setMember .. => true
  | removeMember .. => true
  | replacePayload .. => true
  | putPayload .. => true
  | arrayPush .. => true
  | arrayPop .. => true
  | slotSet .. => true
  | root .. => true
  | unroot .. => true
  | _ => false

/-- What a write asks for: live handles, a payload of the right kind, and an index within bounds. -/
def Call.May (h : Heap) : Call → Prop
  | setMember r _ v => h.Valid v ∧ h.isLive r
  | removeMember r _ => h.isLive r
  | replacePayload r payload => (∀ v ∈ payload.values, h.Valid v) ∧ h.isLive r
  | putPayload r payload => (∀ v ∈ payload.values, h.Valid v) ∧ h.isLive r
  | arrayPush r v => h.Valid v ∧ ∃ o, h.object? r = some o ∧ ∃ items, o.payload = .array items
  | arrayPop r => ∃ o, h.object? r = some o ∧ ∃ items, o.payload = .array items
  | slotSet r index v => h.Valid v ∧ ∃ o, h.object? r = some o ∧ ∃ items,
      (o.payload = .array items ∨ o.payload = .tuple items) ∧ 0 ≤ index.toInt ∧ index.toInt < items.size
  | root r => h.isLive r
  | unroot r => h.isLive r
  | _ => True

/-- A write that fails has changed nothing. It fails exactly if a handle is dead, of the target or of what is to be stored,
if the payload is not of the right kind, or if the index is out of bounds. -/
theorem writes_all_or_nothing (hg : h.EdgeGraph) {call : Call} (hwrite : call.isWrite) :
    (∀ e h', call.perform h = (.error e, h') → h' = h) ∧ ((∃ e h', call.perform h = (.error e, h')) ↔ ¬ call.May h) := by
  refine Atomic.outcome ?_
  cases call with
  | setMember r name v => exact atomic_setMember hg r name v
  | removeMember r name => exact (atomic_removeMember hg r name).discard
  | replacePayload r payload => exact (atomic_replacePayload hg r payload).discard
  | putPayload r payload => exact atomic_putPayload hg r payload
  | arrayPush r v => exact (atomic_arrayPush r v).discard
  | arrayPop r => exact (atomic_arrayPop hg r).discard
  | slotSet r index v => exact atomic_slotSet hg r index v
  | root r => exact atomic_root r
  | unroot r => exact atomic_unroot r
  | _ => cases hwrite

/-- An array with one item. -/
def single : Heap := (Heap.new {}).run [.newArray .array ⟨.array #[], rfl⟩ #[.none]]

/-- The first item can be set. There is no second one. -/
theorem writes_all_or_nothing_single : (∃ e, (Call.slotSet ⟨0, 0⟩ 1 .none).perform single = (.error e, single)) ∧
    (Call.slotSet ⟨0, 0⟩ 0 .none).May single := by
  have hg : single.EdgeGraph := edgeGraph_run {} _
  have hfails : ((Call.slotSet ⟨0, 0⟩ 1 .none).perform single).1.isOk = false := by decide +kernel
  have hsucceeds : ((Call.slotSet ⟨0, 0⟩ 0 .none).perform single).1.isOk = true := by decide +kernel
  have hsecond : (Call.slotSet ⟨0, 0⟩ 1 .none).isWrite := rfl
  have hfirst : (Call.slotSet ⟨0, 0⟩ 0 .none).isWrite := rfl
  obtain ⟨hkept, _⟩ := writes_all_or_nothing hg hsecond
  obtain ⟨_, hfail⟩ := writes_all_or_nothing hg hfirst
  constructor
  · rcases hrun : (Call.slotSet ⟨0, 0⟩ 1 .none).perform single with ⟨e | a, h'⟩
    · exact ⟨e, by rw [hkept e h' hrun]⟩
    · rw [hrun] at hfails
      cases hfails
  · by_contra hnot
    obtain ⟨e, h', hrun⟩ := hfail.2 hnot
    rw [hrun] at hsucceeds
    cases hsucceeds

end Spool.Heap
