import Spool.Proofs.Machine.TwinCalls

/-!
# Instructions of twins

An instruction does the same on both sides, as long as it starts no process and its error names no slot of the heap.
-/

namespace Spool

theorem Scalar.arithmetic_ne_raised {op : Op} {a b : Scalar} {e : Fault} (he : Scalar.arithmetic op a b = .error e)
    (r : Handle) : e ≠ .raised r := by
  rintro rfl
  unfold Scalar.arithmetic at he
  split at he
  · split at he
    · cases he
    · split at he <;> cases he
  · split at he <;> cases he

namespace Machine

variable {R R' : Pairing} {m k : Machine} {α β γ δ : Type} {v w x y : Value} {A : Pairing → α → β → Prop}
  {B : Pairing → γ → δ → Prop} {act : Act Machine α} {act' : Act Machine β} {f : α → Act Machine γ} {g : β → Act Machine δ}

/-- A computation that has nothing to do with the machine. -/
theorem tallies_mk {A : Pairing → α → α → Prop} {r : Except Fault α} (hok : ∀ a, r = .ok a → ∀ R', R ≤ R' → A R' a a)
    (herror : ∀ e, r = .error e → ∀ h, e ≠ .raised h) : Tallies R A (ExceptT.mk (pure r)) (ExceptT.mk (pure r)) := by
  intro R₁ m k hle ht
  refine ⟨R₁, le_refl R₁, ht, ?_⟩
  change Concurs R₁ (A R₁) r r
  cases hr : r with
  | ok a => exact .ok (hok a hr R₁ hle)
  | error e => exact .error (.same e (herror e hr))

/-! ## Operands -/

theorem tallies_accept {r r' : Reply} (h : Reply.Pairs R r r') : Tallies R Same (accept r) (accept r') := by
  cases h with
  | value hv => exact (tallies_setRegister hv).bind fun _ _ _ _ _ => tallies_same Flow.next
  | parked => exact tallies_same Flow.suspend

/-- A row of instructions that yields a value. -/
theorem Tallies.yields {act act' : Act Machine Value} (h : Tallies R Value.Pairs act act') :
    Tallies R Same (do accept (.value (← act))) (do accept (.value (← act'))) :=
  h.bind fun _ _ _ _ hv => tallies_accept (.value hv)

theorem Tracks.accept {act act' : Act Machine Reply} (h : Tracks R Reply.Pairs act act') :
    Tracks R Same (do accept (← act)) (do accept (← act')) := by
  refine h.bind (fun r s => ?_) fun _ _ _ _ hr => tallies_accept hr
  cases r <;> rfl

theorem tallies_jumpTarget (position : Nat) (operand : Operand) :
    Tallies R Same (jumpTarget position operand) (jumpTarget position operand) := by
  unfold jumpTarget
  dsimp only
  split
  · split
    · exact tallies_refuse nofun
    · exact tallies_same _
  · exact tallies_refuse nofun

theorem tallies_nameOperand (position : Nat) (operand : Operand) :
    Tallies R Same (nameOperand position operand) (nameOperand position operand) := by
  unfold nameOperand
  split
  · exact tallies_same _
  · exact tallies_refuse nofun

theorem tallies_operandValue (operand : Operand) : Tallies R Value.Pairs (operandValue operand) (operandValue operand) := by
  cases operand with
  | none => exact tallies_pure fun _ _ => .none
  | scalar s => exact tallies_pure fun _ _ => .scalar s
  | text s => exact tallies_newText s
  | name name => exact tallies_resolve name

theorem tallies_operandOr (operand : Operand) {other other' : Act Machine Value} (h : Tallies R Value.Pairs other other') :
    Tallies R Value.Pairs (operandOr operand other) (operandOr operand other') := by
  unfold operandOr
  split
  · exact h
  · exact tallies_operandValue operand

theorem tallies_namedOr (operand : Operand) {other other' : Act Machine Value} (h : Tallies R Value.Pairs other other') :
    Tallies R Value.Pairs (namedOr operand other) (namedOr operand other') := by
  cases operand with
  | name name => exact tallies_resolve name
  | none => exact h
  | scalar s => exact h
  | text s => exact h

theorem tallies_readRegister : Tallies R Value.Pairs readRegister readRegister :=
  tallies_get fun _ _ _ _ ht => ht.pure ht.current.register

/-! ## Operators -/

theorem tallies_textOperator (op : Op) (hv : v.Pairs R w) (hx : x.Pairs R y) :
    Tallies R Value.Pairs (textOperator op v x) (textOperator op w y) := by
  refine tallies_get fun R₁ m k hle ht => ?_
  rw [ht.text? (hv.mono hle), ht.text? (hx.mono hle), ht.typeName (hv.mono hle), ht.typeName (hx.mono hle)]
  have hrefuse : Tallies R₁ Value.Pairs (throw (.operands op (m.typeName v) (m.typeName x)) : Act Machine Value)
      (throw (.operands op (m.typeName v) (m.typeName x))) := tallies_refuse nofun
  cases m.text? v with
  | none => exact hrefuse.run ht
  | some a =>
      cases m.text? x with
      | none => exact hrefuse.run ht
      | some b =>
          dsimp only
          split
          · exact (tallies_newText _).run ht
          · split
            · exact ht.pure (Value.pairs_ofBool _)
            · exact hrefuse.run ht

theorem tallies_scalarOperator (op : Op) (a b : Scalar) :
    Tallies R Value.Pairs (ExceptT.mk (pure (scalarOperator op a b))) (ExceptT.mk (pure (scalarOperator op a b))) := by
  have hplain : ∀ {c : Value}, scalarOperator op a b = .ok c → ∀ R', c.Pairs R' c := by
    intro c hc R'
    unfold scalarOperator at hc
    split at hc
    · cases hc
      exact Value.pairs_ofBool _
    · cases hs : Scalar.arithmetic op a b with
      | error e => simp [hs, Except.map] at hc
      | ok s =>
          simp only [hs, Except.map] at hc
          cases hc
          exact .scalar s
  refine tallies_mk (fun c hc R' _ => hplain hc R') fun e he => ?_
  unfold scalarOperator at he
  split at he
  · cases he
  · cases hs : Scalar.arithmetic op a b with
    | ok s => simp [hs, Except.map] at he
    | error e' =>
        simp only [hs, Except.map] at he
        cases he
        exact Scalar.arithmetic_ne_raised hs

theorem Twin.generalOperator (ht : m.Twin R k) (op : Op) (hv : v.Pairs R w) (hx : x.Pairs R y) :
    Option.Rel (Value.Pairs R) (m.generalOperator op v x) (k.generalOperator op w y) := by
  unfold Machine.generalOperator
  rw [hv.isTrue, hx.isTrue, hv.scalar?, hx.scalar?, hv.isNone, ht.process.heap.sameValue hv hx]
  split
  · exact .some (Value.pairs_ofBool _)
  · exact .some (Value.pairs_ofBool _)
  · exact .some (Value.pairs_ofBool _)
  · exact .some (Value.pairs_ofBool _)
  · split
    · refine .some ?_
      split
      · exact hx
      · exact hv
    · exact .none
  · exact .none

theorem tallies_binary (op : Op) (hv : v.Pairs R w) (hx : x.Pairs R y) :
    Tallies R Value.Pairs (binary op v x) (binary op w y) := by
  refine tallies_get fun R₁ m k hle ht => ?_
  have hgeneral := ht.generalOperator op (hv.mono hle) (hx.mono hle)
  generalize m.generalOperator op v x = r at hgeneral
  generalize k.generalOperator op w y = r' at hgeneral
  cases hgeneral with
  | some h => exact ht.pure h
  | none =>
      have htext := (tallies_textOperator op (hv.mono hle) (hx.mono hle)).run ht
      cases hv with
      | none => exact htext
      | object hab => exact htext
      | scalar a =>
          cases hx with
          | none => exact htext
          | object hab => exact htext
          | scalar b => exact (tallies_scalarOperator op a b).run ht

theorem tallies_increase (op : Op) (operand : Operand) (delta : Int64) :
    Tallies R Any (increase op operand delta) (increase op operand delta) := by
  refine (tallies_namedOr operand tallies_readRegister).bind fun R₁ v w _ hv => ?_
  have hrefuse : Tallies R₁ Any (do throw (.operands op ((← get).typeName v) "Int") : Act Machine Unit)
      (do throw (.operands op ((← get).typeName w) "Int") : Act Machine Unit) := tallies_get fun R₂ m k hle ht => by
    rw [ht.typeName (hv.mono hle)]
    exact ht.throw (.same _ nofun)
  cases hv with
  | none => exact hrefuse
  | object hab => exact hrefuse
  | scalar s =>
      refine Tallies.bind (A := Same) (tallies_mk (fun _ _ _ _ => rfl) fun e he => Scalar.arithmetic_ne_raised he)
        fun R₂ a b _ hab => ?_
      cases hab
      have hset : ∀ {R' : Pairing}, Tallies R' Any (liftM (setRegister (.scalar a))) (liftM (setRegister (.scalar a))) :=
        tallies_setRegister (.scalar a)
      cases operand with
      | name name => exact (tallies_assign (.scalar a) name).bind fun _ _ _ _ _ => hset
      | none => exact hset
      | scalar s => exact hset
      | text s => exact hset

/-! ## Arrays and tuples -/

theorem byteAt_ne_raised {s : String} {index : Int64} {e : Fault} (he : byteAt s index = .error e) (r : Handle) :
    e ≠ .raised r := by
  rintro rfl
  unfold byteAt at he
  split at he <;> cases he

theorem pairs_byteAt {s : String} {index : Int64} {c : Value} (hc : byteAt s index = .ok c) (R : Pairing) : c.Pairs R c := by
  unfold byteAt at hc
  split at hc
  · cases hc
    exact .scalar _
  · cases hc

theorem tallies_fastIndex (hv : v.Pairs R w) (hx : x.Pairs R y) :
    Tallies R (fun R => Option.Rel (Value.Pairs R)) (fastIndex v x) (fastIndex w y) := by
  unfold fastIndex
  rw [hx.int?]
  cases hv with
  | none => exact tallies_none
  | scalar s => exact tallies_none
  | object hab =>
      cases x.int? with
      | none => exact tallies_none
      | some i =>
          refine (tallies_fetch hab).bind fun R₁ o o' h₁ ho => ?_
          have hget : ∀ {R' : Pairing}, R₁ ≤ R' → Tallies R' (fun R => Option.Rel (Value.Pairs R))
              (some <$> look fun h => h.slotGet _ i) (some <$> look fun h => h.slotGet _ i) := fun hle =>
            (tallies_look (A := Value.Pairs) fun _ _ _ hle' ht => ht.slotGet (hle' _ _ (hle _ _ (h₁ _ _ hab))) i).map
              fun _ _ _ => .some
          have hp := ho.payload
          generalize o.payload = p at hp
          generalize o'.payload = q at hp
          cases hp with
          | array _ => exact hget (le_refl R₁)
          | tuple _ => exact hget (le_refl R₁)
          | text s =>
              exact (tallies_mk (A := Value.Pairs) (fun _ hc R' _ => pairs_byteAt hc R') fun _ he => byteAt_ne_raised he).map
                fun _ _ _ => .some
          | _ => exact tallies_none

theorem tallies_fastStore (hv : v.Pairs R w) (hx : x.Pairs R y) {z z' : Value} (hz : z.Pairs R z') :
    Tallies R Same (fastStore v x z) (fastStore w y z') := by
  unfold fastStore
  rw [hx.int?]
  cases hv with
  | none => exact tallies_same false
  | scalar s => exact tallies_same false
  | @object a b hab =>
      cases x.int? with
      | none => exact tallies_same false
      | some i =>
          refine (tallies_fetch hab).bind fun R₁ o o' h₁ ho => ?_
          have hset : Tallies R₁ Same (do onHeap (Heap.slotSet a i z); return true : Act Machine Bool)
              (do onHeap (Heap.slotSet b i z'); return true) :=
            Tallies.bind (A := Any)
              (tallies_onHeap fun _ _ _ _ hle ht => ht.slotSet (hle _ _ (h₁ _ _ hab)) i (hz.mono (h₁.trans hle)))
              fun _ _ _ _ _ => tallies_same true
          have hp := ho.payload
          generalize o.payload = p at hp
          generalize o'.payload = q at hp
          cases hp with
          | array _ => exact hset
          | tuple _ => exact hset
          | _ => exact tallies_same false

theorem tallies_arguments (hv : v.Pairs R w) : Tallies R Value.AllPairs (arguments v) (arguments w) := by
  have hself := hv
  cases hv with
  | none => exact tallies_pure fun _ _ => .nil
  | scalar s => exact tallies_pure fun _ hle => .cons (hself.mono hle) .nil
  | object hab =>
      refine (tallies_fetch hab).bind fun R₁ o o' h₁ ho => ?_
      rcases rel_cases ho.tuple? with ⟨hx, hy⟩ | ⟨xs, ys, hx, hy, h⟩
      · rw [hx, hy]
        exact tallies_pure fun _ hle => .cons (hself.mono (h₁.trans hle)) .nil
      · rw [hx, hy]
        exact tallies_pure fun _ hle => h.mono hle

theorem tallies_argumentAt (hv : v.Pairs R w) (index : Int64) :
    Tallies R (fun R => Option.Rel (Value.Pairs R)) (argumentAt v index) (argumentAt w index) := by
  refine (tallies_arguments hv).bind fun R₁ xs ys _ h => ?_
  split
  · exact tallies_none
  · exact tallies_pure fun _ hle => rel_getElem? (h.mono hle) _

theorem tallies_element (operand : Operand) :
    Tallies R (fun R => Option.Rel (Value.Pairs R)) (element operand) (element operand) :=
  (tallies_peek 0).bind fun _ _ _ _ hv => tallies_argumentAt hv _

/-! ## Blocks -/

theorem Twin.setCursor (ht : m.Twin R k) (c : ContextId) (position : Nat) :
    Joins R Any (Machine.setCursor c position m) (Machine.setCursor c position k) :=
  ht.modifyProcess (ht.process.modifyContext c
    (fun _ _ h => (congrArg (fun c : Context => { c with cursor := position }) h :))
    (fun h => ⟨h.receiver, h.locals, h.error⟩) fun _ => rfl)

/-- The context of a block that is opened in another one. -/
def blockIn (m : Machine) (top : ContextId) (position : Nat) : Context :=
  { task := m.task, kind := .block, previous := some top, receiver := (m.process.contextAt top).receiver
    module := (m.process.contextAt top).module, function := (m.process.contextAt top).function, cursor := position + 1 }

theorem openBlock_eq (top : ContextId) (position : Nat) (m : Machine) : openBlock top position m =
    ((), { m with process := (m.process.newContext (m.blockIn top position)).2.modifyTask m.task fun t =>
      { t with contexts := (m.process.newContext (m.blockIn top position)).1 :: t.contexts } }) := rfl

theorem Twin.openBlock (ht : m.Twin R k) {top : ContextId} (htop : m.top? = some top) (position : Nat) :
    Joins R Any (Machine.openBlock top position m) (Machine.openBlock top position k) := by
  have hmatches := ht.matches_top htop
  have hbare := ht.bare_contextAt top
  have hblock : (k.blockIn top position).bare = (m.blockIn top position).bare := by
    have hmodule : (k.process.contextAt top).module = (m.process.contextAt top).module := (congrArg Context.module hbare :)
    have hfunction : (k.process.contextAt top).function = (m.process.contextAt top).function :=
      (congrArg Context.function hbare :)
    simp only [blockIn, Context.bare, ht.task, hmodule, hfunction]
  obtain ⟨hp, hid, hnew⟩ := ht.process.newContext hblock ⟨hmatches.pairs.receiver, .empty, .none⟩ fun d hd => by
    cases hd
    exact hmatches
  rw [openBlock_eq, openBlock_eq, ht.task, hid]
  generalize (m.process.newContext (m.blockIn top position)).1 = c at hnew
  have hopened := hp.modifyTask m.task (f := fun t => { t with contexts := c :: t.contexts })
    (g := fun t => { t with contexts := c :: t.contexts })
    (fun _ _ h => (congrArg (fun a : Task => { a with contexts := c :: a.contexts }) h :))
    (fun _ => ⟨(hp.tasks m.task (.inr rfl)).register, (hp.tasks m.task (.inr rfl)).stack⟩) (fun _ d hd => ?_) fun h => h
  · have ht' := ht.update hopened
    rw [ht.task] at ht'
    exact ⟨R, le_refl R, ht', trivial⟩
  · rcases List.mem_cons.1 hd with rfl | hd
    · exact hnew
    · exact hp.contexts m.task (.inr rfl) d hd

theorem tallies_closeBlock (top : ContextId) (position : Nat) :
    Tallies R Any (closeBlock top position) (closeBlock top position) := by
  refine tallies_get fun R₁ m k _ ht => ?_
  rw [show (k.process.contextAt top).kind = (m.process.contextAt top).kind from
    (congrArg Context.kind (ht.bare_contextAt top) :), ht.contexts]
  have hrefuse : Meets R₁ Any ((throw .contextUnderflow : Act Machine Unit) m)
      ((throw .contextUnderflow : Act Machine Unit) k) := ht.throw (.same _ nofun)
  cases (m.process.contextAt top).kind with
  | function => exact hrefuse
  | moduleRoot => exact hrefuse
  | block =>
      rcases hcontexts : m.current.contexts with _ | ⟨c, _ | ⟨outer, rest⟩⟩
      · exact hrefuse
      · exact hrefuse
      · refine Meets.bind (Joins.lift (ht.modifyCurrent
          (fun _ _ h => (congrArg (fun a : Task => { a with contexts := outer :: rest }) h :))
          ⟨ht.current.register, ht.current.stack⟩ ?_)) fun R₂ _ _ m₁ k₁ _ ht₁ _ _ _ => ?_
        · rw [hcontexts]
          exact List.subset_cons_self _ _
        · refine Meets.bind (ht₁.modifyProcess (ht₁.process.releaseContext top)).lift fun R₃ _ _ m₂ k₂ _ ht₂ _ _ _ => ?_
          exact (ht₂.setCursor outer (position + 1)).lift

/-! ## One instruction -/

theorem tallies_jumpWhen (truth : Bool) (position : Nat) (operand : Operand) :
    Tallies R Same (jumpWhen truth position operand) (jumpWhen truth position operand) := by
  refine tallies_readRegister.bind fun R₁ v w _ hv => ?_
  rw [hv.isTrue]
  split
  · refine (tallies_jumpTarget position operand).bind fun _ a b _ hab => ?_
    cases hab
    exact tallies_same _
  · exact tallies_same _

theorem tracks_index : Tracks R Same index index := by
  refine tallies_pop.tracks_bind fun R₁ c d h₁ hc => tallies_readRegister.tracks_bind fun R₂ i j h₂ hi => ?_
  refine (tallies_fastIndex (hc.mono h₂) hi).tracks_bind fun R₃ x y h₃ hx => ?_
  cases hx with
  | some h => exact (tallies_accept (.value h)).tracks
  | none =>
      refine (tallies_getMember (hc.mono (h₂.trans h₃)) _).tracks_bind fun R₄ f g h₄ hf => ?_
      exact (tracks_call hf (hi.mono (h₃.trans h₄)) .result).accept

theorem tracks_store : Tracks R Same store store := by
  refine tallies_pop.tracks_bind fun R₁ i j h₁ hi => tallies_pop.tracks_bind fun R₂ c d h₂ hc => ?_
  refine tallies_readRegister.tracks_bind fun R₃ v w h₃ hv => ?_
  have hi := hi.mono (h₂.trans h₃)
  have hc := hc.mono h₃
  refine (tallies_fastStore hc hi hv).tracks_bind fun R₄ done done' h₄ hdone => ?_
  cases hdone
  split
  · exact (tallies_same Flow.next).tracks
  · refine (tallies_getMember (hc.mono h₄) _).tracks_bind fun R₅ f g h₅ hf => ?_
    refine (tallies_newTuple (.cons (hi.mono (h₄.trans h₅)) (.cons (hv.mono (h₄.trans h₅)) .nil))).tracks_bind
      fun R₆ p q h₆ hp => ?_
    refine (tracks_call (hf.mono h₆) hp .keep).bind (fun r s => ?_) fun R₇ r r' h₇ hr => ?_
    · cases r <;> rfl
    · refine (tallies_setRegister (hv.mono (h₄.trans (h₅.trans (h₆.trans h₇))))).bind fun R₈ _ _ _ _ => ?_
      cases hr with
      | value _ => exact tallies_same Flow.next
      | parked => exact tallies_same Flow.suspend

theorem tallies_returnValue (operand : Operand) : Tallies R Value.Pairs (returnValue operand) (returnValue operand) :=
  (tallies_operandOr operand tallies_readRegister).bind fun _ _ _ _ hv => (tallies_setRegister hv).bind fun _ _ _ hle _ =>
    tallies_pure fun _ hle' => hv.mono (hle.trans hle')

theorem tallies_isA (operand : Operand) : Tallies R Same
    (do
      let v ← match operand with
        | .name _ => readRegister
        | _ => pop
      let c ← expectClass (← namedOr operand readRegister)
      (do return .ofBool ((← get).isInstance v c) : Act Machine Value) >>= fun v => accept (.value v))
    (do
      let v ← match operand with
        | .name _ => readRegister
        | _ => pop
      let c ← expectClass (← namedOr operand readRegister)
      (do return .ofBool ((← get).isInstance v c) : Act Machine Value) >>= fun v => accept (.value v)) := by
  have hrest : ∀ {R₁ : Pairing} {v w : Value}, v.Pairs R₁ w → Tallies R₁ Same
      (do
        let c ← expectClass (← namedOr operand readRegister)
        (do return .ofBool ((← get).isInstance v c) : Act Machine Value) >>= fun v => accept (.value v))
      (do
        let c ← expectClass (← namedOr operand readRegister)
        (do return .ofBool ((← get).isInstance w c) : Act Machine Value) >>= fun v => accept (.value v)) := by
    intro R₁ v w hv
    refine (tallies_namedOr operand tallies_readRegister).bind fun R₂ x y h₂ hx => ?_
    refine (tallies_expectClass hx).bind fun R₃ c d h₃ hc => Tallies.yields (tallies_get fun R₄ m k h₄ ht => ?_)
    cases hc
    rw [ht.isInstance (hv.mono (h₂.trans (h₃.trans h₄)))]
    exact ht.pure (Value.pairs_ofBool _)
  cases operand with
  | name name => exact tallies_readRegister.bind fun _ _ _ _ hv => hrest hv
  | none => exact tallies_pop.bind fun _ _ _ _ hv => hrest hv
  | scalar s => exact tallies_pop.bind fun _ _ _ _ hv => hrest hv
  | text s => exact tallies_pop.bind fun _ _ _ _ hv => hrest hv

theorem tallies_operator (op : Op) (operand : Operand) : Tallies R Same
    (if operand.isNone then do
        let lhs ← pop
        (do binary op lhs (← readRegister)) >>= fun v => accept (.value v)
      else do
        let lhs ← readRegister
        (do binary op lhs (← operandValue operand)) >>= fun v => accept (.value v))
    (if operand.isNone then do
        let lhs ← pop
        (do binary op lhs (← readRegister)) >>= fun v => accept (.value v)
      else do
        let lhs ← readRegister
        (do binary op lhs (← operandValue operand)) >>= fun v => accept (.value v)) := by
  split
  · refine tallies_pop.bind fun R₁ v w _ hv => Tallies.yields ?_
    exact tallies_readRegister.bind fun _ _ _ hle hx => tallies_binary op (hv.mono hle) hx
  · refine tallies_readRegister.bind fun R₁ v w _ hv => Tallies.yields ?_
    exact (tallies_operandValue operand).bind fun _ _ _ hle hx => tallies_binary op (hv.mono hle) hx

theorem tallies_raise : Tallies R (Same (α := Flow))
    (do
      let v ← readRegister
      let m ← get
      if m.isInstance v .error then throw (.raised (← expectObject v "Error"))
      throw (.notAnError (m.typeName v)))
    (do
      let v ← readRegister
      let m ← get
      if m.isInstance v .error then throw (.raised (← expectObject v "Error"))
      throw (.notAnError (m.typeName v))) := by
  refine tallies_readRegister.bind fun R₁ v w _ hv => tallies_get fun R₂ m k h₂ ht => ?_
  have hv := hv.mono h₂
  dsimp only
  rw [ht.isInstance hv, ht.typeName hv]
  split
  · refine Tallies.run ((tallies_expectObject hv "Error").bind fun R₃ a b _ hab => ?_) ht
    exact Tallies.bind (A := Any) (tallies_throw (.raised hab)) fun _ _ _ _ _ => tallies_refuse nofun
  · exact ht.throw (.same _ nofun)

/-- Every instruction does the same on both sides, if it starts no process. -/
theorem meets_step (ht : m.Twin R k) {top : ContextId} (htop : m.top? = some top) (position : Nat) (i : Instruction)
    (hn : (step top position i m).2.host.nursery = []) :
    Meets R Same (step top position i m) (step top position i k) := by
  obtain ⟨op, operand⟩ := i
  have hname : Tallies R Same (nameOperand position operand) (nameOperand position operand) :=
    tallies_nameOperand position operand
  have hpushed : ∀ {R' : Pairing} {v w : Value}, v.Pairs R' w → Tallies R' Same
      (do push v; return .next : Act Machine Flow) (do push w; return .next) := fun hv =>
    (tallies_push hv).bind fun _ _ _ _ _ => tallies_same Flow.next
  have hregister : ∀ {R' : Pairing}, Tallies R' Value.Pairs readRegister readRegister := tallies_readRegister
  have hrun : ∀ {act : Act Machine Flow}, Tallies R Same act act → Meets R Same (act m) (act k) := fun h => h.run ht
  have htrack : ∀ {act : Act Machine Flow}, Tracks R Same act act → (act m).2.host.nursery = [] →
      Meets R Same (act m) (act k) := fun h => h R m k (le_refl R) ht
  unfold step at hn ⊢
  cases op with
  | nop => exact hrun (tallies_same Flow.next)
  | load => exact hrun (tallies_operandOr operand tallies_pop).yields
  | push => exact hrun ((tallies_operandOr operand hregister).bind fun _ _ _ _ hv => hpushed hv)
  | peek => exact hrun (tallies_peek _).yields
  | dup => exact hrun ((tallies_peek 0).bind fun _ _ _ _ hv => hpushed hv)
  | pushNone => exact hrun (hpushed .none)
  | clear => exact hrun (tallies_accept (.value .none))
  | setField =>
      refine hrun (hname.bind fun R₁ name name' _ hname => tallies_pop.bind fun R₂ v w _ hv => ?_)
      cases hname
      exact hregister.bind fun R₃ x y hle hx => (tallies_setField (hv.mono hle) name hx).bind fun _ _ _ _ _ =>
        tallies_same Flow.next
  | bind =>
      refine hrun (hname.bind fun R₁ name name' _ hname => hregister.bind fun R₂ v w _ hv => ?_)
      cases hname
      exact (tallies_bind hv name).bind fun _ _ _ _ _ => tallies_same Flow.next
  | assign =>
      refine hrun (hname.bind fun R₁ name name' _ hname => hregister.bind fun R₂ v w _ hv => ?_)
      cases hname
      exact (tallies_assign hv name).bind fun _ _ _ _ _ => tallies_same Flow.next
  | member =>
      refine hrun (hname.bind fun R₁ name name' _ hname => hregister.bind fun R₂ v w _ hv => ?_)
      cases hname
      exact (tallies_getMember hv name).yields
  | memberPush =>
      refine hrun (hname.bind fun R₁ name name' _ hname => hregister.bind fun R₂ v w _ hv => ?_)
      cases hname
      refine (tallies_getMember hv name).bind fun R₃ x y _ hx => (tallies_push hx).bind fun R₄ _ _ hle _ => ?_
      exact tallies_accept (.value (hx.mono hle))
  | call =>
      refine htrack ((tallies_namedOr operand tallies_pop).tracks_bind fun R₁ v w _ hv => ?_) hn
      exact hregister.tracks_bind fun R₂ x y hle hx => (tracks_call (hv.mono hle) hx .result).accept
  | callBare =>
      refine htrack ((tallies_namedOr operand hregister).tracks_bind fun R₁ v w _ hv => ?_) hn
      exact (tracks_call hv .none .result).accept
  | jump =>
      refine hrun ((tallies_jumpTarget position operand).bind fun R₁ target target' _ htarget => ?_)
      cases htarget
      exact tallies_same _
  | jumpIf => exact hrun (tallies_jumpWhen true position operand)
  | jumpUnless => exact hrun (tallies_jumpWhen false position operand)
  | handler =>
      refine hrun ((tallies_jumpTarget position operand).bind fun R₁ target target' _ htarget => ?_)
      cases htarget
      refine Tallies.bind (A := Any) (fun R₂ m k _ ht => Joins.lift (ht.modifyProcess ?_)) fun _ _ _ _ _ =>
        tallies_same Flow.next
      exact ht.process.modifyContext top
        (fun _ _ h => (congrArg (fun c : Context => { c with handler := some target }) h :))
        (fun h => ⟨h.receiver, h.locals, h.error⟩) fun _ => rfl
  | ret => exact hrun ((tallies_returnValue operand).discard.bind fun _ _ _ _ _ => tallies_same Flow.finished)
  | exit =>
      refine hrun ((tallies_returnValue operand).bind fun R₁ v w _ hv => ?_)
      refine Tallies.bind (A := Any) (fun R₂ m k hle ht => Joins.lift (ht.modifyProcess ?_)) fun _ _ _ _ _ =>
        tallies_same Flow.finished
      exact ht.process.setExit (hv.mono hle)
  | openBlock =>
      exact Meets.bind (ht.openBlock htop position).lift fun _ _ _ _ _ _ ht' _ _ _ => ht'.pure rfl
  | closeBlock => exact hrun ((tallies_closeBlock top position).bind fun _ _ _ _ _ => tallies_same Flow.stay)
  | array => exact hrun ((tallies_popMany _).bind fun _ _ _ _ h => tallies_newArray h).yields
  | tuple => exact hrun ((tallies_popMany _).bind fun _ _ _ _ h => tallies_newTuple h).yields
  | index => exact htrack tracks_index hn
  | store => exact htrack tracks_store hn
  | element =>
      refine hrun ((tallies_element operand).bind fun R₁ v w _ hv => ?_)
      cases hv with
      | some h => exact tallies_accept (.value h)
      | none => exact tallies_refuse nofun
  | elementOr =>
      refine hrun ((tallies_element operand).bind fun R₁ v w _ hv => ?_)
      cases hv with
      | some h => exact tallies_accept (.value h)
      | none => exact tallies_same Flow.next
  | length =>
      refine hrun (Tallies.yields ((tallies_peek 0).bind fun R₁ v w _ hv => (tallies_arguments hv).bind
        fun R₂ xs ys _ h => ?_))
      rw [h.length_eq]
      exact tallies_pure fun _ _ => .scalar _
  | not =>
      refine hrun (Tallies.yields (hregister.bind fun R₁ v w _ hv => ?_))
      rw [hv.isTrue]
      exact tallies_pure fun _ _ => Value.pairs_ofBool _
  | inc => exact hrun ((tallies_increase .inc operand 1).bind fun _ _ _ _ _ => tallies_same Flow.next)
  | dec => exact hrun ((tallies_increase .dec operand (-1)).bind fun _ _ _ _ _ => tallies_same Flow.next)
  | isA => exact hrun (tallies_isA operand)
  | loadModule =>
      refine hrun (hname.bind fun R₁ name name' _ hname => ?_)
      cases hname
      exact (tallies_loadModule name).bind fun _ _ _ _ hr => tallies_accept hr
  | raise => exact hrun tallies_raise
  | wait => exact hrun (hregister.bind fun R₁ v w _ hv => (tallies_wait hv).bind fun _ _ _ _ hr => tallies_accept hr)
  | _ => exact hrun (tallies_operator _ operand)

end Machine

end Spool
