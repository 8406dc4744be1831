import Mathlib.Data.List.Perm.Basic
import Spool.Proofs.Heap.Edges

/-!
# Writing keeps the edge graph

Each write of the heap, from a sound heap: if it succeeds it has put one object, and the heap is sound; if it
fails nothing has changed, and it is for a stale handle only if one was among the arguments.
-/

namespace Spool

namespace Value

@[simp] theorem handles_nil : handles [] = [] := rfl

@[simp] theorem handles_cons (v : Value) (vs : List Value) : handles (v :: vs) = v.handle?.toList ++ handles vs := by
  cases v <;> rfl

@[simp] theorem handles_append (vs ws : List Value) : handles (vs ++ ws) = handles vs ++ handles ws :=
  List.filterMap_append

theorem handles_toList (v : Option Value) : handles v.toList = (v.getD .none).handle?.toList := by
  cases v with
  | none => rfl
  | some v => cases v <;> rfl

end Value

namespace Heap

/-- The second heap is the first with one object put into it, edges and all. -/
structure Written (h : Heap) (r : Handle) (o : Object) (h' : Heap) : Prop where
  sound : h'.Sound
  puts : h.Puts r o h'

/-- A write that has changed nothing, for a stale handle among its arguments. -/
def Refused (h : Heap) (fine : Prop) (e : Fault) (h' : Heap) : Prop := h' = h ∧ e = .stale ∧ ¬ fine

/-- A write that has changed nothing; only with a stale handle it says that there is one. -/
def Declined (h : Heap) (fine : Prop) (e : Fault) (h' : Heap) : Prop := h' = h ∧ (e = .stale → ¬ fine)

/-! ## From slots to edges -/

theorem puts_modifyObject {h : Heap} {r : Handle} {o : Object} (ho : h.object? r = some o)
    (f : Object → Object) : h.Puts r (f o) (h.modifyObject r f) :=
  ⟨object?_modifyObject ho f, rootCount_modifyEntry fun _ => rfl, rfl⟩

theorem orderly_modifyObject {h : Heap} (hd : h.Orderly) {r : Handle} {o : Object} (ho : h.object? r = some o)
    {f : Object → Object} (hf : (f o).members.Distinct) : (h.modifyObject r f).Orderly := by
  refine ⟨hd.free_nodup, fun index hi => (hd.free_vacant index hi).modifyEntry r _, fun {x o'} hx => ?_⟩
  rw [object?_modifyObject ho f] at hx
  split at hx
  · cases hx
    exact hf
  · exact hd.distinct hx

/-- Once the slots have changed, the edges are owed that make the difference. -/
theorem pending_modifyObject {h : Heap} (hg : h.EdgeGraph) {r : Handle} {o : Object}
    (ho : h.object? r = some o) {f : Object → Object} {adds drops : List Handle}
    (hc : ∀ c, o.edges.count c + adds.count c = (f o).edges.count c + drops.count c) :
    (h.modifyObject r f).Pending r adds drops := by
  intro parent child
  have hrec : (h.modifyObject r f).recorded parent child = h.recorded parent child := by
    unfold modifyObject
    rw [recorded_modifyEntry]
    split <;> simp [recorded]
  rw [hrec, hg.recorded_eq]
  by_cases hp : parent = r
  · subst hp
    rw [held_of_object? ho, held_of_object? (puts_modifyObject ho f).self]
    simpa using hc child
  · have : (h.modifyObject r f).held parent child = h.held parent child := by
      simp [held, object?_modifyObject ho f, hp]
    simp [this, hp]

/-- One object has been put into the heap, and the edges of its new slots are still to be set. -/
structure Owes (h : Heap) (r : Handle) (o : Object) (adds drops : List Handle) (h₁ : Heap) : Prop where
  puts : h.Puts r o h₁
  orderly : h₁.Orderly
  pending : h₁.Pending r adds drops

theorem Sound.owes {h : Heap} (hs : h.Sound) {r : Handle} {o : Object} (ho : h.object? r = some o)
    (f : Object → Object) (adds drops : List Handle) (hd : (f o).members.Distinct)
    (hc : ∀ c, o.edges.count c + adds.count c = (f o).edges.count c + drops.count c) :
    h.Owes r (f o) adds drops (h.modifyObject r f) :=
  ⟨puts_modifyObject ho f, orderly_modifyObject hs.orderly ho hd, pending_modifyObject hs.edges ho hc⟩

theorem Owes.written {h h₁ h₂ : Heap} {r : Handle} {o : Object} {adds drops : List Handle}
    (hw : h.Owes r o adds drops h₁) (ha : h₁.Alike h₂) (hg : h₂.EdgeGraph) : h.Written r o h₂ :=
  ⟨⟨hg, ha.orderly hw.orderly⟩, hw.puts.alike ha⟩

theorem Pending.cancel {h : Heap} {r : Handle} {c : Handle} (hp : h.Pending r [c] [c]) : h.EdgeGraph :=
  edgeGraph_of_recorded fun parent child => by
    have := hp parent child
    omega

theorem Pending.link {h : Heap} {r : Handle} {v : Value} (hp : h.Pending r v.handle?.toList []) (hv : h.Valid v) :
    (Heap.link r v).wp h (fun _ h' => h.Alike h' ∧ h'.EdgeGraph) (fun _ _ => False) := by
  cases v with
  | object c =>
      exact Act.wp_mono (Pending.incEdge hp (hv c rfl)) (fun _ _ h => ⟨h.1, h.2.edgeGraph⟩) (fun _ _ => id)
  | none => exact ⟨.refl h, hp.edgeGraph⟩
  | scalar s => exact ⟨.refl h, hp.edgeGraph⟩

theorem Pending.unlink {h : Heap} {r : Handle} {v : Value} {adds : List Handle}
    (hp : h.Pending r adds v.handle?.toList) (hn : ∀ c, v = .object c → c ∉ adds) :
    (Heap.unlink r v).wp h (fun _ h' => h.Alike h' ∧ h'.Pending r adds []) (fun _ _ => False) := by
  cases v with
  | object c => exact Pending.decEdge hp (hn c rfl)
  | none => exact ⟨.refl h, hp⟩
  | scalar s => exact ⟨.refl h, hp⟩

theorem Pending.relink {h : Heap} {r : Handle} {old new : Value}
    (hp : h.Pending r new.handle?.toList old.handle?.toList) (hv : h.Valid new) :
    (Heap.relink r old new).wp h (fun _ h' => h.Alike h' ∧ h'.EdgeGraph) (fun _ _ => False) := by
  unfold Heap.relink
  by_cases hs : old.sameObject new
  · obtain ⟨c, rfl, rfl⟩ : ∃ c, old = .object c ∧ new = .object c := by
      cases old <;> cases new <;> simp_all [Value.sameObject]
    simp only [hs, ↓reduceIte, Act.wp_pure]
    exact ⟨.refl h, hp.cancel⟩
  · have hn : ∀ c, old = .object c → c ∉ new.handle?.toList := by
      rintro c rfl
      cases new <;> simp_all [Value.sameObject, Value.handle?]
    simp only [hs, Bool.false_eq_true, ↓reduceIte, Act.wp_bind]
    refine Act.wp_mono (Pending.unlink hp hn) (fun _ h₁ hdone => ?_) (fun _ _ => id)
    obtain ⟨ha, hp₁⟩ := hdone
    refine Act.wp_mono (Pending.link hp₁ ((Valid.alike ha).2 hv)) (fun _ h₂ hdone => ?_) (fun _ _ => id)
    obtain ⟨ha₂, hg⟩ := hdone
    exact ⟨ha.trans ha₂, hg⟩

/-! ## Members -/

theorem edges_eq (o : Object) : o.edges = Value.handles o.members.values ++ o.payload.edges := by
  simp [Object.edges, Object.values, Payload.edges]

theorem count_edges_insert (o : Object) (name : String) (v : Value) (c : Handle) :
    o.edges.count c + v.handle?.toList.count c
      = ({ o with members := o.members.insert name v } : Object).edges.count c
        + ((o.member? name).getD .none).handle?.toList.count c := by
  have := (Value.handles_perm (o.members.values_insert_perm name v)).count_eq c
  simp only [Value.handles_append, Value.handles_cons, Value.handles_toList, List.count_append] at this
  simp only [edges_eq, List.count_append, Object.member?]
  omega

theorem count_edges_erase {o : Object} (hd : o.members.Distinct) (name : String) (c : Handle) :
    o.edges.count c + ([] : List Handle).count c
      = ({ o with members := o.members.erase name } : Object).edges.count c
        + ((o.member? name).getD .none).handle?.toList.count c := by
  have := (Value.handles_perm (Bindings.values_erase_perm hd name)).count_eq c
  simp only [Value.handles_append, Value.handles_toList, List.count_append] at this
  simp only [edges_eq, List.count_append, Object.member?, List.count_nil]
  omega

theorem wp_setMember {h : Heap} (hs : h.Sound) (r : Handle) (name : String) (v : Value) :
    (setMember r name v).wp h
      (fun _ h' => h.Valid v ∧ ∃ o, h.object? r = some o ∧
        h.Written r { o with members := o.members.insert name v } h')
      (h.Refused (h.isLive r ∧ h.Valid v)) := by
  simp only [setMember, Act.wp_bind]
  refine wp_requireStorable (fun hv => ?_) fun hv => ⟨rfl, rfl, fun hf => hv hf.2⟩
  simp only [wp_entry]
  cases he : h.lookup? r with
  | none => exact ⟨rfl, rfl, fun hf => by simp [isLive, he] at hf⟩
  | some e =>
      have ho := object?_of_lookup? he
      simp only [Act.wp_modify]
      have hw := hs.owes ho (fun o => { o with members := o.members.insert name v }) _ _
        ((hs.orderly.distinct ho).insert name v) (count_edges_insert e.object name v)
      refine Act.wp_mono (hw.pending.relink (hw.puts.valid hv)) (fun _ h₂ hdone => ?_) (fun _ _ => False.elim)
      obtain ⟨ha, hg⟩ := hdone
      exact ⟨hv, e.object, ho, hw.written ha hg⟩

theorem wp_removeMember {h : Heap} (hs : h.Sound) (r : Handle) (name : String) :
    (removeMember r name).wp h
      (fun old h' => ∃ o, h.object? r = some o ∧ old = o.member? name ∧
        h.Written r { o with members := o.members.erase name } h')
      (h.Refused (h.isLive r)) := by
  simp only [removeMember, Act.wp_bind, wp_entry]
  cases he : h.lookup? r with
  | none => exact ⟨rfl, rfl, fun hf => by simp [isLive, he] at hf⟩
  | some e =>
      have ho := object?_of_lookup? he
      simp only [Act.wp_modify, Act.wp_pure]
      have hd := hs.orderly.distinct ho
      have hw := hs.owes ho (fun o => { o with members := o.members.erase name }) _ _ (hd.erase name)
        (count_edges_erase hd name)
      refine Act.wp_mono (hw.pending.unlink (by simp)) (fun _ h₂ hdone => ?_) (fun _ _ => False.elim)
      obtain ⟨ha, hp⟩ := hdone
      exact ⟨e.object, ho, rfl, hw.written ha hp.edgeGraph⟩

/-! ## Payloads -/

theorem wp_requireAll {h : Heap} {children : List Handle} {Q : PUnit → Heap → Prop} {E : Fault → Heap → Prop}
    (hQ : (∀ c ∈ children, h.isLive c) → Q PUnit.unit h) (hE : (∃ c ∈ children, ¬ h.isLive c) → E .stale h) :
    (forIn children PUnit.unit fun c _ => do requireLive c; pure (ForInStep.yield PUnit.unit)).wp h Q E := by
  induction children with
  | nil => exact hQ (by simp)
  | cons c rest ih =>
      simp only [List.forIn_cons, bind_assoc, pure_bind, Act.wp_bind, wp_requireLive]
      split
      · rename_i hc
        refine ih (fun hr => hQ (by simpa [hc] using hr)) fun hdead => hE ?_
        obtain ⟨x, hx, hn⟩ := hdead
        exact ⟨x, List.mem_cons_of_mem _ hx, hn⟩
      · rename_i hc
        exact hE ⟨c, by simp, hc⟩

theorem Pending.incEdges {h : Heap} {r : Handle} {adds drops : List Handle} (hp : h.Pending r adds drops)
    (hl : ∀ c ∈ adds, h.isLive c) :
    (forIn adds PUnit.unit fun c _ => do Heap.incEdge r c; pure (ForInStep.yield PUnit.unit)).wp h
      (fun _ h' => h.Alike h' ∧ h'.Pending r [] drops) (fun _ _ => False) := by
  refine Act.wp_forIn (I := fun rest h' => h.Alike h' ∧ h'.Pending r rest drops ∧ ∀ c ∈ rest, h'.isLive c)
    ⟨.refl h, hp, hl⟩ (fun c rest h₁ hi => ?_) fun h' hi => ⟨hi.1, hi.2.1⟩
  obtain ⟨ha, hp₁, hl₁⟩ := hi
  refine Act.wp_mono (hp₁.incEdge (hl₁ c (by simp))) (fun _ h₂ hdone => ?_) (fun _ _ => id)
  obtain ⟨ha₂, hp₂⟩ := hdone
  exact ⟨ha.trans ha₂, hp₂, fun x hx => by rw [ha₂.isLive]; exact hl₁ x (List.mem_cons_of_mem _ hx)⟩

theorem Pending.decEdges {h : Heap} {r : Handle} {drops : List Handle} (hp : h.Pending r [] drops) :
    (forIn drops PUnit.unit fun c _ => do Heap.decEdge r c; pure (ForInStep.yield PUnit.unit)).wp h
      (fun _ h' => h.Alike h' ∧ h'.EdgeGraph) (fun _ _ => False) := by
  refine Act.wp_forIn (I := fun rest h' => h.Alike h' ∧ h'.Pending r [] rest)
    ⟨.refl h, hp⟩ (fun c rest h₁ hi => ?_) fun h' hi => ⟨hi.1, hi.2.edgeGraph⟩
  obtain ⟨ha, hp₁⟩ := hi
  refine Act.wp_mono (hp₁.decEdge (by simp)) (fun _ h₂ hdone => ?_) (fun _ _ => id)
  obtain ⟨ha₂, hp₂⟩ := hdone
  exact ⟨ha.trans ha₂, hp₂⟩

theorem valid_values_iff {h : Heap} {vs : List Value} :
    (∀ v ∈ vs, h.Valid v) ↔ ∀ c ∈ Value.handles vs, h.isLive c := by
  constructor
  · intro hv c hc
    exact hv _ (Value.mem_handles.1 hc) c rfl
  · rintro hl v hv c rfl
    exact hl c (Value.mem_handles.2 hv)

theorem wp_replacePayload {h : Heap} (hs : h.Sound) (r : Handle) (payload : Payload) :
    (replacePayload r payload).wp h
      (fun old h' => (∀ v ∈ payload.values, h.Valid v) ∧ ∃ o, h.object? r = some o ∧ old = o.payload ∧
        h.Written r { o with payload } h')
      (h.Refused (h.isLive r ∧ ∀ v ∈ payload.values, h.Valid v)) := by
  simp only [replacePayload, Act.wp_bind]
  refine wp_requireAll (fun hl => ?_) fun hdead => ⟨rfl, rfl, fun hf => ?_⟩
  rotate_left
  · obtain ⟨c, hc, hn⟩ := hdead
    exact hn (valid_values_iff.1 hf.2 c hc)
  simp only [wp_entry]
  cases he : h.lookup? r with
  | none => exact ⟨rfl, rfl, fun hf => by simp [isLive, he] at hf⟩
  | some e =>
      have ho := object?_of_lookup? he
      simp only [Act.wp_modify, Act.wp_pure, setPayload]
      have hd : e.object.members.Distinct := hs.orderly.distinct ho
      have hw := hs.owes ho (fun o => { o with payload }) payload.edges e.object.payload.edges hd
        (fun c => by simp [edges_eq]; omega)
      have hl₁ : ∀ c ∈ payload.edges, (h.modifyObject r fun o => { o with payload }).isLive c :=
        fun c hc => hw.puts.isLive (hl c hc)
      refine Act.wp_mono (hw.pending.incEdges hl₁) (fun _ h₂ hdone => ?_) (fun _ _ => False.elim)
      obtain ⟨ha₂, hp₂⟩ := hdone
      refine Act.wp_mono hp₂.decEdges (fun _ h₃ hdone => ?_) (fun _ _ => False.elim)
      obtain ⟨ha₃, hg⟩ := hdone
      exact ⟨valid_values_iff.2 hl, e.object, ho, rfl, hw.written (ha₂.trans ha₃) hg⟩

theorem edges_eq_nil_of_plain {p : Payload} (hp : p.carriesValues = false) : p.edges = [] := by
  cases p <;> simp_all [Payload.carriesValues, Payload.edges, Payload.values]

theorem values_eq_nil_of_plain {p : Payload} (hp : p.carriesValues = false) : p.values = [] := by
  cases p <;> simp_all [Payload.carriesValues, Payload.values]

theorem wp_putPayload {h : Heap} (hs : h.Sound) (r : Handle) (payload : Payload) :
    (putPayload r payload).wp h
      (fun _ h' => (∀ v ∈ payload.values, h.Valid v) ∧ ∃ o, h.object? r = some o ∧
        h.Written r { o with payload } h')
      (h.Refused (h.isLive r ∧ ∀ v ∈ payload.values, h.Valid v)) := by
  simp only [putPayload, Act.wp_bind, wp_entry]
  cases he : h.lookup? r with
  | none => exact ⟨rfl, rfl, fun hf => by simp [isLive, he] at hf⟩
  | some e =>
      have ho := object?_of_lookup? he
      simp only [Act.wp_ite, Act.wp_discard, Act.wp_modify]
      split
      · refine Act.wp_mono (wp_replacePayload hs r payload) (fun _ h' hdone => ?_) (fun _ _ => id)
        obtain ⟨hv, o, ho', _, hw⟩ := hdone
        exact ⟨hv, o, ho', hw⟩
      · rename_i hc
        obtain ⟨hn, ho'⟩ : payload.carriesValues = false ∧ e.object.payload.carriesValues = false := by
          simpa using hc
        have hd : e.object.members.Distinct := hs.orderly.distinct ho
        have hw := hs.owes ho (fun o => { o with payload }) [] [] hd
          (fun c => by simp [edges_eq, edges_eq_nil_of_plain hn, edges_eq_nil_of_plain ho'])
        exact ⟨by simp [values_eq_nil_of_plain hn], e.object, ho, hw.written (.refl _) hw.pending.edgeGraph⟩

/-! ## Items -/

theorem wp_arrayPush {h : Heap} (hs : h.Sound) (r : Handle) (v : Value) :
    (arrayPush r v).wp h
      (fun size h' => h.Valid v ∧ ∃ o items, h.object? r = some o ∧ o.payload = .array items ∧
        size = items.size + 1 ∧ h.Written r { o with payload := .array (items.push v) } h')
      (h.Declined (h.isLive r ∧ h.Valid v)) := by
  simp only [arrayPush, Act.wp_bind]
  refine wp_requireStorable (fun hv => ?_) fun hv => ⟨rfl, fun _ hf => hv hf.2⟩
  simp only [wp_entry]
  cases he : h.lookup? r with
  | none => exact ⟨rfl, fun _ hf => by simp [isLive, he] at hf⟩
  | some e =>
      have ho := object?_of_lookup? he
      cases hp : e.object.payload with
      | array items =>
          simp only [arraySize?, Object.array?, hp, Option.map_some, Act.wp_bind, Act.wp_modify, Act.wp_pure]
          have hd : e.object.members.Distinct := hs.orderly.distinct ho
          have hw := hs.owes ho (fun o => { o with payload := pushItem v o.payload }) v.handle?.toList [] hd
            (fun c => by simp [edges_eq, hp, pushItem, Payload.edges, Payload.values]; omega)
          refine Act.wp_mono (hw.pending.link (hw.puts.valid hv)) (fun _ h₂ hdone => ?_) (fun _ _ => False.elim)
          obtain ⟨ha, hg⟩ := hdone
          refine ⟨hv, e.object, items, ho, hp, rfl, ?_⟩
          simpa [hp, pushItem] using hw.written ha hg
      | _ =>
          simp only [arraySize?, Object.array?, hp, Option.map_none, Act.wp_throw]
          exact ⟨rfl, by simp [notA]⟩

theorem perm_pop_back (items : Array Value) : (items.back?.toList ++ items.pop.toList).Perm items.toList := by
  rcases items with ⟨l⟩
  rcases List.eq_nil_or_concat l with rfl | ⟨init, last, rfl⟩
  · simp
  · have : ([last] ++ init).Perm (init ++ [last]) := List.perm_append_comm
    simpa using this

theorem wp_arrayPop {h : Heap} (hs : h.Sound) (r : Handle) :
    (arrayPop r).wp h
      (fun old h' => ∃ o items, h.object? r = some o ∧ o.payload = .array items ∧ old = items.back? ∧
        h.Written r { o with payload := .array items.pop } h')
      (h.Declined (h.isLive r)) := by
  simp only [arrayPop, Act.wp_bind, wp_entry]
  cases he : h.lookup? r with
  | none => exact ⟨rfl, fun _ hf => by simp [isLive, he] at hf⟩
  | some e =>
      have ho := object?_of_lookup? he
      cases hp : e.object.payload with
      | array items =>
          simp only [lastItem?, Object.array?, hp, Option.map_some, Act.wp_bind, Act.wp_modify, Act.wp_pure]
          have hd : e.object.members.Distinct := hs.orderly.distinct ho
          have hw := hs.owes ho (fun o => { o with payload := popItem o.payload }) []
            (items.back?.getD .none).handle?.toList hd (fun c => by
              have := (Value.handles_perm (perm_pop_back items)).count_eq c
              simp only [Value.handles_append, Value.handles_toList, List.count_append] at this
              simp only [edges_eq, hp, popItem, Payload.edges, Payload.values, List.count_append, List.count_nil]
              omega)
          refine Act.wp_mono (hw.pending.unlink (by simp)) (fun _ h₂ hdone => ?_) (fun _ _ => False.elim)
          obtain ⟨ha, hp₂⟩ := hdone
          refine ⟨e.object, items, ho, hp, rfl, ?_⟩
          simpa [hp, popItem] using hw.written ha hp₂.edgeGraph
      | _ =>
          simp only [lastItem?, Object.array?, hp, Option.map_none, Act.wp_throw]
          exact ⟨rfl, by simp [notA]⟩

theorem perm_setIfInBounds {items : Array Value} {index : Nat} {old : Value} (hi : items[index]? = some old)
    (v : Value) : (old :: (items.setIfInBounds index v).toList).Perm (v :: items.toList) := by
  obtain ⟨hlt, rfl⟩ := Array.getElem?_eq_some_iff.1 hi
  rcases items with ⟨l⟩
  simp only [Array.toList_setIfInBounds, List.getElem_toArray]
  have hset := (List.set_perm_cons_eraseIdx (by simpa using hlt) v).cons l[index]
  have hget := (List.getElem_cons_eraseIdx_perm (l := l) (by simpa using hlt)).cons v
  exact hset.trans ((List.Perm.swap v l[index] _).trans hget)

theorem itemAt_ok {items : Array Value} {index : Int64} {v : Value} (hv : itemAt items index = .ok v) :
    items[index.toNatClampNeg]? = some v := by
  unfold itemAt at hv
  split at hv
  · rename_i w hw
    split at hw
    · cases hw
    · cases hv
      exact hw
  · cases hv

theorem slotGet_eq {h : Heap} {r : Handle} {o : Object} (ho : h.object? r = some o) (index : Int64) :
    h.slotGet r index = match o.payload with
      | .array items => itemAt items index
      | .tuple items => itemAt items index
      | _ => .error (notA r "Array or Tuple") := by
  obtain ⟨c, members, payload⟩ := o
  simp only [slotGet, fetch, ho]
  cases payload <;> rfl

theorem count_edges_storeItem {o : Object} {index : Nat} {items : Array Value} {old : Value}
    (hp : o.payload = .array items ∨ o.payload = .tuple items) (hi : items[index]? = some old) (v : Value)
    (c : Handle) :
    o.edges.count c + v.handle?.toList.count c
      = ({ o with payload := storeItem index v o.payload } : Object).edges.count c + old.handle?.toList.count c := by
  have := (Value.handles_perm (perm_setIfInBounds hi v)).count_eq c
  simp only [Value.handles_cons, List.count_append] at this
  rcases hp with hp | hp <;>
    simp only [edges_eq, hp, storeItem, Payload.edges, Payload.values, List.count_append] <;> omega

/-- What a look at a slot shows is an item of the sequence there. -/
theorem slotGet_ok {h : Heap} {r : Handle} {o : Object} (ho : h.object? r = some o) {index : Int64} {v : Value}
    (hv : h.slotGet r index = .ok v) :
    ∃ items, (o.payload = .array items ∨ o.payload = .tuple items) ∧ items[index.toNatClampNeg]? = some v := by
  rw [slotGet_eq ho] at hv
  split at hv
  · exact ⟨_, .inl ‹_›, itemAt_ok hv⟩
  · exact ⟨_, .inr ‹_›, itemAt_ok hv⟩
  · cases hv

theorem slotGet_ne_stale {h : Heap} {r : Handle} (hr : h.isLive r) (index : Int64) :
    h.slotGet r index ≠ .error .stale := by
  obtain ⟨o, ho⟩ := isLive_iff.1 hr
  rw [slotGet_eq ho]
  split
  · unfold itemAt; split <;> simp
  · unfold itemAt; split <;> simp
  · simp [notA]

theorem wp_slotSet {h : Heap} (hs : h.Sound) (r : Handle) (index : Int64) (v : Value) :
    (slotSet r index v).wp h
      (fun _ h' => h.Valid v ∧ ∃ o items, h.object? r = some o ∧
        (o.payload = .array items ∨ o.payload = .tuple items) ∧ index.toNatClampNeg < items.size ∧
        h.Written r { o with payload := storeItem index.toNatClampNeg v o.payload } h')
      (h.Declined (h.isLive r ∧ h.Valid v)) := by
  simp only [slotSet, Act.wp_bind]
  refine wp_requireStorable (fun hv => ?_) fun hv => ⟨rfl, fun _ hf => hv hf.2⟩
  simp only [Act.wp_mk_getThe, Act.wp_modify]
  split
  · rename_i old hold
    cases ho : h.object? r with
    | none => simp [slotGet, fetch, ho, bind, Except.bind] at hold
    | some o =>
        obtain ⟨items, hp, hi⟩ := slotGet_ok ho hold
        have hd : o.members.Distinct := hs.orderly.distinct ho
        have hw := hs.owes ho (fun o => { o with payload := storeItem index.toNatClampNeg v o.payload })
          v.handle?.toList old.handle?.toList hd (count_edges_storeItem hp hi v)
        refine Act.wp_mono (hw.pending.relink (hw.puts.valid hv)) (fun _ h₂ hdone => ?_) (fun _ _ => False.elim)
        obtain ⟨ha, hg⟩ := hdone
        exact ⟨hv, o, items, rfl, hp, (Array.getElem?_eq_some_iff.1 hi).1, hw.written ha hg⟩
  · rename_i e he
    refine ⟨rfl, fun hst hf => ?_⟩
    subst hst
    exact slotGet_ne_stale hf.1 index he

/-! ## New objects -/

theorem lookup?_allocate_of_vacant {h : Heap} (hv : ∀ index ∈ h.free, h.Vacant index) (c : ClassId) (payload : Payload) :
    h.lookup? (h.allocate c payload).1 = none ∧
      ∀ x, (h.allocate c payload).2.lookup? x
        = if x = (h.allocate c payload).1 then some { object := { ofClass := c, payload } } else h.lookup? x := by
  unfold allocate
  cases hf : h.free with
  | nil =>
      simp only [lookup?]
      refine ⟨by simp, fun x => ?_⟩
      by_cases hx : x.index = h.slots.size
      · by_cases hg : x.generation = 0
        · have : x = ⟨h.slots.size, 0⟩ := by cases x; simp_all
          simp [this]
        · have : x ≠ ⟨h.slots.size, 0⟩ := by rintro rfl; exact hg rfl
          simp [this, hx, Ne.symm hg]
      · have : x ≠ ⟨h.slots.size, 0⟩ := by rintro rfl; exact hx rfl
        simp [this, hx, Array.getElem?_push]
  | cons index rest =>
      obtain ⟨generation, hs⟩ := hv index (by simp [hf])
      have hget : (h.slots.getD index default).generation = generation := by
        simp [Array.getD_eq_getD_getElem?, hs]
      simp only [lookup?, hget]
      refine ⟨by simp [hs], fun x => ?_⟩
      by_cases hx : index = x.index
      · subst hx
        rw [Array.getElem?_modify, hs]
        by_cases hg : generation = x.generation
        · subst hg
          simp
        · have : x ≠ ⟨x.index, generation⟩ := by
            intro he
            exact hg (congrArg Handle.generation he).symm
          simp [this, hg]
      · have : x ≠ ⟨index, generation⟩ := by rintro rfl; exact hx rfl
        simp [this, Array.getElem?_modify, hx]

theorem lookup?_allocate {h : Heap} (hd : h.Orderly) (c : ClassId) (payload : Payload) :
    h.lookup? (h.allocate c payload).1 = none ∧
      ∀ x, (h.allocate c payload).2.lookup? x
        = if x = (h.allocate c payload).1 then some { object := { ofClass := c, payload } } else h.lookup? x :=
  lookup?_allocate_of_vacant hd.free_vacant c payload

theorem orderly_free_allocate {h : Heap} (hd : h.Orderly) (c : ClassId) (payload : Payload) :
    (h.allocate c payload).2.free.Nodup ∧
      ∀ index ∈ (h.allocate c payload).2.free, (h.allocate c payload).2.Vacant index := by
  have hn := hd.free_nodup
  have hv := hd.free_vacant
  unfold allocate
  cases hf : h.free with
  | nil => simp
  | cons first rest =>
      rw [hf] at hn hv
      simp only [List.nodup_cons] at hn
      refine ⟨hn.2, fun index hi => ?_⟩
      obtain ⟨generation, hs⟩ := hv index (List.mem_cons_of_mem _ hi)
      have hne : first ≠ index := by
        rintro rfl
        exact hn.1 hi
      exact ⟨generation, by simp [Array.getElem?_modify, hne, hs]⟩

/-- A new object that holds nothing: nobody has an edge to it, and it has none. -/
theorem Sound.allocate {h : Heap} (hs : h.Sound) (c : ClassId) {payload : Payload} (hp : payload.edges = []) :
    h.object? (h.allocate c payload).1 = none ∧
      h.Written (h.allocate c payload).1 { ofClass := c, payload } (h.allocate c payload).2 := by
  obtain ⟨hnone, hl⟩ := lookup?_allocate hs.orderly c payload
  obtain ⟨hnodup, hvacant⟩ := orderly_free_allocate hs.orderly c payload
  have hreflections : (h.allocate c payload).2.reflections = h.reflections := by
    unfold Heap.allocate
    cases h.free <;> rfl
  generalize (h.allocate c payload).1 = r at hnone hl ⊢
  generalize (h.allocate c payload).2 = h' at hl hnodup hvacant hreflections ⊢
  have hfresh : h.object? r = none := by simp [object?, hnone]
  have hputs : h.Puts r { ofClass := c, payload } h' := by
    refine ⟨fun x => ?_, fun x => ?_, hreflections⟩
    · simp only [object?, hl]
      split <;> rfl
    · simp only [rootCount, hl]
      split
      · rename_i hx
        simp [hx, hnone]
      · rfl
  have hempty : ({ ofClass := c, payload } : Object).edges = [] := by
    simp [edges_eq, hp, Bindings.values]
  refine ⟨hfresh, ⟨⟨edgeGraph_of_recorded fun p x => ?_, hnodup, hvacant, fun {x o} hx => ?_⟩, hputs⟩⟩
  · have hr : h'.recorded p x = h.recorded p x := by
      simp only [recorded, hl]
      split
      · rename_i hx
        simp [hx, hnone]
      · rfl
    have hh : h'.held p x = h.held p x := by
      simp only [held, hputs.object?]
      split
      · rename_i hp
        simp [hp, hfresh, hempty]
      · rfl
    rw [hr, hh, hs.edges.recorded_eq]
  · rw [hputs.object?] at hx
    split at hx
    · cases hx
      exact Bindings.Distinct.empty
    · exact hs.orderly.distinct hx

theorem wp_create {h : Heap} (hs : h.Sound) (c : ClassId) {payload : Payload} (hp : payload.edges = []) :
    (create c payload).wp h
      (fun r h' => h.object? r = none ∧ h.Written r { ofClass := c, payload } h') (fun _ _ => False) :=
  hs.allocate c hp

theorem wp_createWith {h : Heap} (hs : h.Sound) (c : ClassId) {seed : Payload} (hp : seed.edges = [])
    (payload : Payload) :
    (createWith c seed payload).wp h
      (fun r h' => h.object? r = none ∧ h.Written r { ofClass := c, payload } h')
      (fun e h' => h'.Sound ∧ e = .stale ∧ ¬ ∀ v ∈ payload.values, h.Valid v) := by
  simp only [createWith, Act.wp_bind, Act.wp_discard, Act.wp_pure]
  refine Act.wp_mono (wp_create hs c hp) (fun r h₁ hdone => ?_) (fun _ _ => False.elim)
  obtain ⟨hfresh, hw⟩ := hdone
  refine Act.wp_mono (wp_replacePayload hw.sound r payload) (fun _ h₂ hdone => ?_) (fun e h₂ he => ?_)
  · obtain ⟨_, o, ho, _, hw₂⟩ := hdone
    rw [hw.puts.self] at ho
    cases ho
    exact ⟨hfresh, hw₂.sound, hw.puts.trans hw₂.puts⟩
  · obtain ⟨rfl, rfl, hn⟩ := he
    exact ⟨hw.sound, rfl, fun hv => hn ⟨isLive_of_object? hw.puts.self, fun v hm => hw.puts.valid (hv v hm)⟩⟩

end Heap

end Spool
