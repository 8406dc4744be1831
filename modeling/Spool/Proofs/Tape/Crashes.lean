import Spool.Proofs.Tape.Guarded
import Spool.Proofs.Tape.Literals

/-!
# No crash but one

What has been taken in of a source is in order: labels and classes are where the assembler looks for them, and nothing is
larger than the source. So each step comes to what it would come to without bounds, up to the check of the finished tape,
where a jump with a very large offset overshoots the largest number before it can be found to be out of range.
-/

namespace Spool

/-- A jump whose offset cannot be added to its position. -/
def Instruction.Overshoots (i : Instruction) (position : Nat) : Prop :=
  i.op.isJump ∧ ∃ offset : Int64, i.operand.int? = some offset ∧ 2 ^ 63 ≤ (position : Int) + offset.toInt

theorem Op.shape_of_isJump {op : Op} (h : op.isJump) : op.shape = .offset := by
  cases op <;> first | rfl | cases h

namespace Guarded

variable {a : Assembler} {b : Builder} {i : Instruction} {m : CompiledModule} {lines : List (List Char)} {n position size : Nat}

/-! ## The check -/

theorem addInt_eq (hposition : position < 2 ^ 63) (offset : Int64) : addInt (.ofNat position) offset =
    if 2 ^ 63 ≤ (position : Int) + offset.toInt then .error .overflow else .ok (.ofNat position + offset) := by
  have hat := Int64.toInt_ofNat_of_lt hposition
  have hmin := Int64.le_toInt offset
  unfold addInt
  by_cases hlarge : 2 ^ 63 ≤ (position : Int) + offset.toInt
  · have hno : ¬ fitsInt ((Int64.ofNat position).toInt + offset.toInt) := by
      rw [fitsInt_iff, hat]
      omega
    rw [if_neg hno, if_pos hlarge]
  · have hfits : fitsInt ((Int64.ofNat position).toInt + offset.toInt) := by
      rw [fitsInt_iff, hat]
      omega
    rw [if_pos hfits, if_neg hlarge]

theorem toInt_add_of_lt (hposition : position < 2 ^ 63) {offset : Int64} (hsum : (position : Int) + offset.toInt < 2 ^ 63) :
    (Int64.ofNat position + offset).toInt = (position : Int) + offset.toInt := by
  have hmin := Int64.le_toInt offset
  rw [Int64.toInt_add, Int64.toInt_ofNat_of_lt hposition]
  exact Int.bmod_eq_of_le (by omega) (by omega)

/-- A jump that overshoots is the only thing that cannot be checked. -/
theorem flaw?_of_overshoots (hposition : position < 2 ^ 63) (h : i.Overshoots position) :
    flaw? i position size = .error .overflow ∧ i.flaw? position size = some .overflow := by
  obtain ⟨hjump, offset, hoffset, hlarge⟩ := h
  have hshape := Op.shape_of_isJump hjump
  have hmax := Int64.toInt_maxValue
  constructor
  · unfold flaw?
    simp only [hshape, hoffset, hjump, if_true]
    rw [addInt_eq hposition, if_pos hlarge]
    rfl
  · unfold Instruction.flaw?
    simp only [hshape, hoffset, hjump, if_true]
    exact if_pos (by omega)

theorem overshoots_of_flaw? (h : i.flaw? position size = some .overflow) : i.Overshoots position := by
  have hmax := Int64.toInt_maxValue
  unfold Instruction.flaw? at h
  split at h
  case h_5 =>
    split at h
    · cases h
    · rename_i offset hoffset
      split at h
      · rename_i hjump
        dsimp only at h
        split at h
        · exact ⟨hjump, offset, hoffset, by omega⟩
        · split at h <;> cases h
      · split at h <;> cases h
  case h_7 =>
    split at h
    · split at h <;> cases h
    · cases h
  all_goals cases h

/-- Where the sum is in range the check finds what is there. -/
theorem flaw?_of_not_overshoots (hposition : position < 2 ^ 63) (hsize : size < 2 ^ 63) (h : ¬ i.Overshoots position) :
    flaw? i position size = .ok (i.flaw? position size) := by
  unfold flaw?
  split
  · rename_i offset hshape hoffset
    split
    · rename_i hjump
      have hsum : (position : Int) + offset.toInt < 2 ^ 63 := by
        by_contra hlarge
        exact h ⟨hjump, offset, hoffset, by omega⟩
      rw [addInt_eq hposition, if_neg (by omega)]
      have htarget := toInt_add_of_lt hposition hsum
      have hlow : Int64.ofNat position + offset < 0 ↔ (position : Int) + offset.toInt < 0 := by
        rw [Int64.lt_iff_toInt_lt, htarget]
        rfl
      have hhigh : Int64.ofNat size < Int64.ofNat position + offset ↔ (size : Int) < (position : Int) + offset.toInt := by
        rw [Int64.lt_iff_toInt_lt, htarget, Int64.toInt_ofNat_of_lt hsize]
      have hmax := Int64.toInt_maxValue
      have hflaw : i.flaw? position size =
          if (position : Int) + offset.toInt < 0 || (position : Int) + offset.toInt > size then
            some (.malformed "jump target out of range") else none := by
        unfold Instruction.flaw?
        simp only [hshape, hoffset, hjump, if_true]
        exact if_neg (by omega)
      rw [hflaw]
      change Except.ok _ = _
      simp only [hlow, hhigh, gt_iff_lt]
    · rfl
  · rfl

theorem flawFrom?_eq (hsize : size < 2 ^ 63) : ∀ (is : List Instruction) (start : Nat), start + is.length ≤ size →
    (Tape.flawFrom? size start is = some .overflow → flawFrom? size start is = .error .overflow) ∧
      (Tape.flawFrom? size start is ≠ some .overflow →
        flawFrom? size start is = .ok (Tape.flawFrom? size start is)) := by
  intro is
  induction is with
  | nil => exact fun _ _ => ⟨fun h => (by cases h), fun _ => rfl⟩
  | cons i rest ih =>
      intro start hle
      rw [List.length_cons] at hle
      rw [flawFrom?, Tape.flawFrom?]
      by_cases hover : i.Overshoots start
      · obtain ⟨hcrash, hflaw⟩ : flaw? i start size = .error .overflow ∧ i.flaw? start size = some .overflow :=
          flaw?_of_overshoots (by omega) hover
        rw [hcrash, hflaw]
        exact ⟨fun _ => rfl, fun h => absurd rfl h⟩
      · rw [flaw?_of_not_overshoots (by omega) hsize hover]
        cases hflaw : i.flaw? start size with
        | none => exact ih (start + 1) (by omega)
        | some flaw => cases flaw with
          | malformed reason => exact ⟨fun h => (by cases h), fun _ => rfl⟩
          | overflow => exact absurd (overshoots_of_flaw? hflaw) hover

/-- The check comes to no end at a jump that overshoots, if it has found nothing before. -/
theorem flawFrom?_eq_overflow : ∀ (is : List Instruction) (start : Nat), start + is.length < 2 ^ 63 →
    (Tape.flawFrom? size start is = some .overflow ↔
      ∃ (k : Nat) (i : Instruction), is[k]? = some i ∧ i.Overshoots (start + k) ∧
        ∀ j < k, ∀ i' : Instruction, is[j]? = some i' → i'.flaw? (start + j) size = none) := by
  intro is
  induction is with
  | nil => simp [Tape.flawFrom?]
  | cons i rest ih =>
      intro start hle
      rw [List.length_cons] at hle
      have hshift : ∀ j, start + 1 + j = start + (j + 1) := fun j => by omega
      rw [Tape.flawFrom?]
      constructor
      · intro h
        split at h
        · cases h
        · rename_i hflaw
          exact ⟨0, i, rfl, overshoots_of_flaw? hflaw, fun j hj => absurd hj (Nat.not_lt_zero j)⟩
        · rename_i hflaw
          obtain ⟨k, i', hi', hover, hbefore⟩ := (ih (start + 1) (by omega)).1 h
          refine ⟨k + 1, i', hi', hshift k ▸ hover, fun j hj i'' hi'' => ?_⟩
          cases j with
          | zero =>
              cases hi''
              exact hflaw
          | succ j => exact hshift j ▸ hbefore j (by omega) i'' hi''
      · rintro ⟨k, i', hi', hover, hbefore⟩
        cases k with
        | zero =>
            cases hi'
            have hflaw : i.flaw? start size = some .overflow := (flaw?_of_overshoots (by omega) hover).2
            rw [hflaw]
        | succ k =>
            have hfirst : i.flaw? start size = none := hbefore 0 (Nat.succ_pos k) i rfl
            rw [hfirst]
            exact (ih (start + 1) (by omega)).2 ⟨k, i', hi', (hshift k).symm ▸ hover, fun j hj i'' hi'' =>
              (hshift j).symm ▸ hbefore (j + 1) (by omega) i'' hi''⟩

theorem validate_of_flawFrom? {flaw : HostError}
    (h : Tape.flawFrom? m.tape.size 0 m.tape.instructions.toList = some flaw) : m.validate = .error flaw := by
  simp [CompiledModule.validate, CompiledModule.flaw?, Tape.flaw?, h]

theorem functionFlaw?_ne_overflow (m : CompiledModule) (f : FunctionDef) : m.functionFlaw? f ≠ some .overflow := by
  intro h
  unfold CompiledModule.functionFlaw? at h
  split at h
  · cases h
  · split at h
    · split at h <;> cases h
    · cases h

theorem classFlaw?_ne_overflow (m : CompiledModule) (c : ClassDef) : m.classFlaw? c ≠ some .overflow := by
  intro h
  unfold CompiledModule.classFlaw? at h
  split at h <;> cases h

/-- Functions and classes have flaws of another kind. -/
theorem validate_eq_overflow : m.validate = .error .overflow ↔
    Tape.flawFrom? m.tape.size 0 m.tape.instructions.toList = some .overflow := by
  refine ⟨fun h => ?_, validate_of_flawFrom?⟩
  have hflaw : m.flaw? = some .overflow := by
    unfold CompiledModule.validate at h
    split at h
    · cases h
      assumption
    · cases h
  simp only [CompiledModule.flaw?, Option.orElse_eq_orElse, Option.orElse_eq_or, Option.or_eq_some_iff] at hflaw
  rcases hflaw with htape | ⟨-, hfunctions | ⟨-, hclasses⟩⟩
  · unfold Tape.flaw? at htape
    split at htape
    · cases htape
      assumption
    · split at htape <;> cases htape
  · obtain ⟨f, _, hf⟩ := List.exists_of_findSome?_eq_some hfunctions
    exact absurd hf (functionFlaw?_ne_overflow m f)
  · obtain ⟨c, _, hc⟩ := List.exists_of_findSome?_eq_some hclasses
    exact absurd hc (classFlaw?_ne_overflow m c)

/-! ## Where the check gives up -/

/-- Work that crashes where it finds that a sum does not fit in a word, and nowhere else. -/
def CrashesLike {α : Type} (x : Trial HostError α) (result : Except HostError α) : Prop :=
  (result = .error .overflow → x = ExceptT.mk (.error .overflow)) ∧ (result ≠ .error .overflow → x = calm result)

theorem CrashesLike.of_ne {α : Type} {result : Except HostError α} (h : result ≠ .error .overflow) :
    CrashesLike (calm result) result :=
  ⟨fun heq => absurd heq h, fun _ => rfl⟩

/-- Nothing that comes after the check can go wrong. -/
theorem CrashesLike.then_return {α β : Type} {x : Trial HostError α} {result : Except HostError α} (h : CrashesLike x result)
    (b : β) : CrashesLike (x >>= fun _ => pure b) (result >>= fun _ => pure b) := by
  rcases result with e | a
  · by_cases he : e = .overflow
    · subst he
      rw [h.1 rfl]
      exact ⟨fun _ => rfl, fun hne => absurd rfl hne⟩
    · rw [h.2 fun heq => he (Except.error.inj heq)]
      exact .of_ne fun heq => he (Except.error.inj heq)
  · rw [h.2 fun heq => by cases heq]
    exact .of_ne fun heq => by cases heq

theorem validate_crashesLike (hsize : m.tape.size < 2 ^ 63) : CrashesLike (validate m) m.validate := by
  obtain ⟨hcrash, hcalm⟩ := flawFrom?_eq hsize m.tape.instructions.toList 0 (by simp [Tape.size])
  rw [CrashesLike, ne_eq, validate_eq_overflow]
  constructor
  · intro h
    unfold validate
    rw [hcrash h]
    rfl
  · intro h
    unfold validate
    rw [lift_bind (hcalm h)]
    cases hflaw : Tape.flawFrom? m.tape.size 0 m.tape.instructions.toList with
    | none => rfl
    | some flaw =>
        rw [validate_of_flawFrom? hflaw]
        rfl

/-! ## Statements -/

/-- The tables are read where something stands. -/
structure Stable (a : Assembler) : Prop where
  labels : ∀ {name label}, a.labels.get? name = some label → label < a.builder.labels.size
  classes : ∀ c, a.builder.openClass = some c → c < a.builder.classes.size

theorem labelOf_eq (a : Assembler) (name : String) : labelOf a name = .ok (a.label name) := by
  unfold labelOf Assembler.label
  cases a.labels.get? name with
  | some label => rfl
  | none =>
      dsimp only
      rw [newLabel_eq]
      rfl

theorem define_eq (ha : Stable a) (name : String) : define a name = calm (a.define name) := by
  unfold define Assembler.define
  split
  · rfl
  · have hlt : (({ a with defined := name :: a.defined } : Assembler).label name).1 <
        (({ a with defined := name :: a.defined } : Assembler).label name).2.builder.labels.size := by
      unfold Assembler.label
      split
      · exact ha.labels ‹_›
      · simp [Builder.newLabel]
    change (liftM (labelOf { a with defined := name :: a.defined } name) : Trial AssemblyError _) >>= _ = _
    rw [lift_bind (labelOf_eq _ _)]
    generalize ({ a with defined := name :: a.defined } : Assembler).label name = met at hlt
    obtain ⟨label, a'⟩ := met
    dsimp only
    rw [lift_bind (bindLabel_eq hlt)]
    rfl

theorem jumpTo_eq (a : Assembler) (line : Nat) (op : Op) (target : List Char) :
    jumpTo a line op target = calm (a.jumpTo line op target) := by
  unfold jumpTo Assembler.jumpTo
  dsimp only
  split
  · rfl
  · split
    · rfl
    · change (liftM (labelOf _ _) : Trial AssemblyError _) >>= _ = _
      rw [lift_bind (labelOf_eq _ _)]
      rfl

theorem instruction_eq (a : Assembler) (line : Nat) (op : Op) (text : List Char) :
    instruction a line op text = calm (a.instruction line op text) := by
  by_cases hat : ∃ target, text = '@' :: target
  · obtain ⟨target, rfl⟩ := hat
    exact jumpTo_eq a line op target
  · have hguarded : instruction a line op text = readLiteral text >>= fun operand =>
        if Literal.fits op.shape operand then pure { a with builder := a.builder.emit op operand }
        else throw (.misfit op) := by
      unfold instruction
      split
      · exact absurd ⟨_, rfl⟩ hat
      · rfl
    have hplain : a.instruction line op text = Literal.read text >>= fun operand =>
        if Literal.fits op.shape operand then pure { a with builder := a.builder.emit op operand }
        else throw (.misfit op) := by
      unfold Assembler.instruction
      split
      · exact absurd ⟨_, rfl⟩ hat
      · rfl
    rw [hguarded, hplain, readLiteral_eq]
    refine calm_bind_eq fun operand _ => ?_
    split <;> rfl

theorem function_eq (ha : Stable a) (words : List (List Char)) : function a words = calm (a.function words) := by
  unfold function Assembler.function
  refine calm_bind_eq fun x _ => ?_
  refine calm_bind_eq fun flags _ => ?_
  rw [lift_bind (addFunction_eq ha.classes _ _)]
  rfl

theorem beginClass_eq (a : Assembler) (words : List (List Char)) : beginClass a words = calm (a.beginClass words) := by
  unfold beginClass Assembler.beginClass
  split
  · rfl
  · refine calm_bind_eq fun x _ => ?_
    refine calm_bind_eq fun y _ => ?_
    refine calm_bind_eq fun fields _ => ?_
    rw [lift_bind (addClass_eq _ _ _ _)]
    rfl

theorem endClass_eq (ha : Stable a) : endClass a = calm a.endClass := by
  unfold endClass Assembler.endClass
  cases a.builder.hasOpenClass with
  | false => rfl
  | true =>
      change (liftM (closeClass a.builder) : Trial AssemblyError _) >>= _ = _
      rw [lift_bind (closeClass_eq ha.classes)]
      rfl

theorem directive_eq (ha : Stable a) (name : String) (words : List (List Char)) :
    directive a name words = calm (a.directive name words) := by
  by_cases hfunction : name = "func"
  · subst hfunction
    exact function_eq ha words
  by_cases hclass : name = "class"
  · subst hclass
    exact beginClass_eq a words
  by_cases hend : name = "end"
  · subst hend
    exact endClass_eq ha
  have hguarded : directive a name words = throw (.unknownDirective name) := by
    unfold directive
    split
    · exact absurd rfl hfunction
    · exact absurd rfl hclass
    · exact absurd rfl hend
    · rfl
  have hplain : a.directive name words = .error (.unknownDirective name) := by
    unfold Assembler.directive
    split
    · exact absurd rfl hfunction
    · exact absurd rfl hclass
    · exact absurd rfl hend
    · rfl
  rw [hguarded, hplain]
  rfl

theorem statement_eq (ha : Stable a) (line : Nat) (s : Statement) : statement a line s = calm (a.statement line s) := by
  cases s with
  | blank => rfl
  | label name => exact define_eq ha _
  | directive name words => exact directive_eq ha _ _
  | instruction mnemonic operand column =>
      unfold statement Assembler.statement
      dsimp only
      cases Op.ofName? (String.ofList mnemonic) with
      | none => rfl
      | some op => exact instruction_eq _ _ _ _

/-! ## Lines -/

/-- What has been taken in is in order. -/
theorem stable_of_taken (h : Source.Taken lines n a) : Stable a where
  labels := h.labelled.numbered.lt
  classes c hc := by
    obtain ⟨k, hk, ⟨line, hline, hkind⟩, rfl, _⟩ := h.grouped.opened hc
    rw [h.grouped.classes.size]
    exact Source.above_lt_above hline hkind hk

theorem lines_eq {file : String} : ∀ {rest : List String} {n : Nat} {a : Assembler}, Source.Taken lines n a →
    lines.drop n = rest.map String.toList → lines.length < 2 ^ 63 →
    (∀ line ∈ lines, Statement.byteSize line < 2 ^ 63) →
      Guarded.lines file n rest a = calm (Assembler.lines file (n + 1) rest a) := by
  intro rest
  induction rest with
  | nil => exact fun _ _ _ _ => rfl
  | cons text rest ih =>
      intro n a ht hdrop hlength hbytes
      have hn : lines[n]? = some text.toList := by
        rw [← List.head?_drop, hdrop]
        rfl
      have hlt : n < lines.length := (List.getElem?_eq_some_iff.1 hn).1
      have hfits := hbytes _ (List.mem_of_getElem? hn)
      rw [Guarded.lines, Assembler.lines, lift_bind (addSize_eq (by omega)), lift_bind (readLine_eq (by omega)),
        statement_eq (stable_of_taken ht)]
      cases hs : a.statement (n + 1) (Statement.ofLine text.toList) with
      | error cause => rfl
      | ok a' =>
          refine ih (ht.step hn hs) ?_ hlength hbytes
          rw [← List.tail_drop, hdrop]
          rfl

/-! ## The finished tape -/

theorem malformed_of_resolve {labels : Array (Option Nat)} {e : HostError} : ∀ {jumps : List (Nat × Nat)}
    {instructions : Array Instruction}, Builder.resolve labels jumps instructions = .error e →
      ∃ text, e = .malformedModule text := by
  intro jumps
  induction jumps with
  | nil => exact fun h => by cases h
  | cons jump rest ih =>
      intro instructions h
      rw [Builder.resolve] at h
      split at h
      · cases h
        exact ⟨_, rfl⟩
      · exact ih h

theorem finishDraft_crashesLike (hopen : ∀ c, b.openClass = some c → c < b.classes.size)
    (hinside : b.instructions.size < 2 ^ 63) (hfilled : Filled b.labels b.jumps.toList b.instructions.size)
    (hout : ∀ out, Builder.resolve b.labels b.jumps.toList b.instructions = .ok out → out.size = b.instructions.size) :
    CrashesLike (finishDraft b) b.finish := by
  obtain ⟨classes, hb⟩ := Source.endClass_frame b
  have hresolve := resolve_eq (Nat.le_of_lt hinside) hfilled
  unfold finishDraft Builder.finish Builder.draft
  rw [lift_bind (closeClass_eq hopen), hb]
  simp only [hresolve]
  rw [calm_bind]
  cases hr : Builder.resolve b.labels b.jumps.toList b.instructions with
  | error e =>
      obtain ⟨text, rfl⟩ := malformed_of_resolve hr
      exact .of_ne fun h => by cases h
  | ok out =>
      have hsize : out.size < 2 ^ 63 := hout out hr ▸ hinside
      exact (validate_crashesLike (m := {
        name := b.name
        tape := { instructions := out, places := if b.places.all Option.isNone then #[] else b.places, sourceLines := b.sourceLines }
        functions := b.functions
        classes }) hsize).then_return _

end Guarded

namespace Source

open Guarded

variable {lines : List (List Char)} {a : Assembler} {m : CompiledModule} {n p : Nat} {op file : String}

/-- The instruction at a position is a jump that is written with an offset, and the sum is too large. -/
def Overshoots (lines : List (List Char)) (p : Nat) : Prop :=
  ∃ n line op offset, lines[n]? = some line ∧ Line.isInstruction line ∧ position lines n = p ∧
    Op.ofName? (String.ofList (Line.mnemonic line)) = some op ∧ op.isJump ∧
    Literal.read (Line.operand line) = .ok (.scalar (.int offset)) ∧ 2 ^ 63 ≤ (p : Int) + offset.toInt

theorem position_le (lines : List (List Char)) (n : Nat) : position lines n ≤ lines.length :=
  Nat.le_trans List.countP_le_length (List.length_take_le' n lines)

/-- The labels of all jumps are bound. -/
theorem Taken.filled (ht : Taken lines lines.length a) (hused : ∀ use ∈ a.used, use.1 ∈ a.defined)
    (hlength : lines.length < 2 ^ 63) : Filled a.builder.labels a.builder.jumps.toList a.builder.instructions.size := by
  intro jump hjump
  obtain ⟨i, hi⟩ := List.getElem?_of_mem hjump
  obtain ⟨k, line, hk, hline, hkind, -, hpos, target, htarget, hlabel⟩ :=
    ht.labelled.jumps.exists_line (i := i) (r := jump) (by simpa using hi)
  obtain ⟨use, huse, huse', -⟩ := ht.labelled.used.row hk hline hkind
  have hname : use.1 = target := String.toList_inj.1 (List.cons.inj (huse'.symm.trans htarget)).2
  obtain ⟨j, hj, hdefines⟩ := ht.labelled.defined.1 (hname ▸ hused use (Array.mem_of_getElem? huse))
  have hbound := ht.labelled.bound hj hdefines
  rw [Assembler.bound?, hlabel, Option.bind_some] at hbound
  have hinstruction : Line.isInstruction line := by
    simp only [Line.isJump, Bool.and_eq_true] at hkind
    exact hkind.1
  refine ⟨?_, some (position lines j), Option.join_eq_some_iff.1 hbound, fun t ht' => ?_⟩
  · rw [hpos, ht.coded.instructions.size]
    exact above_lt_above hline hinstruction hk
  · cases ht'
    exact Nat.lt_of_le_of_lt (position_le lines j) hlength

/-- A jump to a label does not overshoot. -/
theorem Taken.overshoots (ht : Taken lines lines.length a) (hused : ∀ use ∈ a.used, use.1 ∈ a.defined)
    (hlength : lines.length < 2 ^ 63) {out : Array Instruction}
    (hresolve : Builder.resolve a.builder.labels a.builder.jumps.toList a.builder.instructions = .ok out) {i : Instruction}
    (hi : out[p]? = some i) (hover : i.Overshoots p) : Overshoots lines p := by
  have hsize := (Builder.resolve_eq_ok ht.labelled.nodup_jumps hresolve).1.trans ht.coded.instructions.size
  obtain ⟨k, line, -, hk, hline, rfl⟩ := exists_of_lt_above (hsize ▸ (Array.getElem?_eq_some_iff.1 hi).1)
  obtain ⟨hjump, offset, hoffset, hlarge⟩ := hover
  by_cases hat : (Line.operand line).head? = some '@'
  · exfalso
    obtain ⟨rest, hrest⟩ := List.head?_eq_some_iff.1 hat
    have htarget : Line.operand line = '@' :: (String.ofList rest).toList := by simpa using hrest
    obtain ⟨i', j, hi', -, -, hoperand⟩ := ht.aim hused hresolve hk hline htarget
    cases hi'.symm.trans hi
    have hj := position_le lines j
    have hk' := position_le lines k
    rw [hoperand] at hoffset
    cases hoffset
    rw [Int64.toInt_ofInt_of_le (by omega) (by omega)] at hlarge
    unfold position at hj hk' hlarge
    omega
  · obtain ⟨i', hi', hwrites⟩ := ht.unaimed hresolve hk hline hat
    cases hi'.symm.trans hi
    obtain ⟨hread, hfits⟩ := hwrites.operand hat
    rw [Op.shape_of_isJump hjump] at hfits
    cases hoperand : i.operand with
    | scalar s =>
        rw [hoperand] at hread hfits hoffset
        cases s with
        | int value =>
            cases hoffset
            exact ⟨k, line, i.op, _, hk, hline, rfl, hwrites.op, hjump, hread, hlarge⟩
        | _ => cases hfits
    | _ =>
        rw [hoperand] at hfits
        cases hfits

theorem Taken.exists_of_overshoots (ht : Taken lines lines.length a) {out : Array Instruction}
    (hresolve : Builder.resolve a.builder.labels a.builder.jumps.toList a.builder.instructions = .ok out)
    (h : Overshoots lines p) : ∃ i, out[p]? = some i ∧ i.Overshoots p := by
  obtain ⟨k, line, op, offset, hk, hline, rfl, hop, hjump, hread, hlarge⟩ := h
  have hat : (Line.operand line).head? ≠ some '@' := by
    intro hhead
    obtain ⟨rest, hrest⟩ := List.head?_eq_some_iff.1 hhead
    exact Literal.read_at rest _ (hrest ▸ hread)
  obtain ⟨i, hi, hwrites⟩ := ht.unaimed hresolve hk hline hat
  obtain rfl : i.op = op := Option.some.inj (hwrites.op.symm.trans hop)
  have hoperand : i.operand = .scalar (.int offset) := Except.ok.inj ((hwrites.operand hat).1.symm.trans hread)
  exact ⟨i, hi, hjump, offset, by rw [hoperand]; rfl, hlarge⟩

/-- A draft that has been made is checked. -/
theorem finish_of_draft {b : Builder} (h : b.draft = .ok m) : b.finish = m.validate >>= fun _ => pure m := by
  unfold Builder.finish
  rw [h]
  rfl

theorem resolve_of_draft {b : Builder} (h : b.draft = .ok m) :
    Builder.resolve b.labels b.jumps.toList b.instructions = .ok m.tape.instructions := by
  obtain ⟨classes, hb⟩ := endClass_frame b
  unfold Builder.draft at h
  rw [hb] at h
  obtain ⟨out, hresolve, h⟩ := ok_of_bind h
  cases h
  exact hresolve

theorem malformed_of_draft {b : Builder} {e : HostError} (h : b.draft = .error e) : ∃ text, e = .malformedModule text := by
  unfold Builder.draft at h
  cases hresolve : Builder.resolve b.endClass.labels b.endClass.jumps.toList b.endClass.instructions with
  | error e' =>
      simp only [hresolve] at h
      cases h
      exact malformed_of_resolve hresolve
  | ok out =>
      simp only [hresolve] at h
      cases h

/-- The check gives up where the first thing that is wrong is a jump that overshoots. -/
theorem Taken.finish_eq_overflow (ht : Taken lines lines.length a) (hused : ∀ use ∈ a.used, use.1 ∈ a.defined)
    (hlength : lines.length < 2 ^ 63) : a.builder.finish = .error .overflow ↔
      ∃ m p, a.builder.draft = .ok m ∧ Overshoots lines p ∧
        ∀ j < p, ∀ i, m.tape.instructions[j]? = some i → i.flaw? j m.tape.size = none := by
  cases hdraft : a.builder.draft with
  | error e =>
      have hfinish : a.builder.finish = .error e := by
        unfold Builder.finish
        rw [hdraft]
        rfl
      rw [hfinish]
      obtain ⟨text, rfl⟩ := malformed_of_draft hdraft
      refine iff_of_false (fun h => by cases h) ?_
      rintro ⟨_, _, h, _⟩
      cases h
  | ok m =>
      have hresolve := resolve_of_draft hdraft
      have hsize : m.tape.size < 2 ^ 63 := by
        have hfilled := (Builder.resolve_eq_ok ht.labelled.nodup_jumps hresolve).1.trans ht.coded.instructions.size
        exact Nat.lt_of_le_of_lt (Nat.le_trans (Nat.le_of_eq hfilled) (position_le lines lines.length)) hlength
      have hvalidate : a.builder.finish = .error .overflow ↔ m.validate = .error .overflow := by
        rw [finish_of_draft hdraft]
        cases m.validate with
        | error e => exact ⟨fun h => congrArg _ (Except.error.inj h), fun h => congrArg _ (Except.error.inj h)⟩
        | ok _ => exact iff_of_false (fun h => by cases h) fun h => by cases h
      rw [hvalidate, validate_eq_overflow, flawFrom?_eq_overflow _ 0 (by simpa [Tape.size] using hsize)]
      simp only [Nat.zero_add, Array.getElem?_toList, Except.ok.injEq]
      constructor
      · rintro ⟨p, i, hi, hover, hbefore⟩
        exact ⟨m, p, rfl, ht.overshoots hused hlength hresolve hi hover, hbefore⟩
      · rintro ⟨_, p, rfl, hover, hbefore⟩
        obtain ⟨i, hi, hover⟩ := ht.exists_of_overshoots hresolve hover
        exact ⟨p, i, hi, hover, hbefore⟩

theorem finish_eq_overflow : a.finish file = .error .overflow ↔
    (∀ use ∈ a.used, use.1 ∈ a.defined) ∧ a.builder.finish = .error .overflow := by
  unfold Assembler.finish
  generalize hfind : Array.find? _ a.used = undefined
  cases undefined with
  | some use =>
      have hbad := Array.find?_some hfind
      refine iff_of_false (fun h => by cases h) fun h => ?_
      simp [h.1 use (Array.mem_of_find?_eq_some hfind)] at hbad
  | none =>
      refine (and_iff_right fun use huse => ?_).symm
      simpa using Array.find?_eq_none.1 hfind use huse

theorem Taken.finish_crashesLike (ht : Taken lines lines.length a) (hlength : lines.length < 2 ^ 63) (file : String) :
    CrashesLike (Guarded.finish a file) (a.finish file) := by
  unfold Guarded.finish Assembler.finish
  generalize hfind : Array.find? _ a.used = undefined
  cases undefined with
  | some use => exact .of_ne fun h => by cases h
  | none =>
      have hused : ∀ use ∈ a.used, use.1 ∈ a.defined := fun use huse => by
        simpa using Array.find?_eq_none.1 hfind use huse
      have hsize := ht.coded.instructions.size
      exact finishDraft_crashesLike (stable_of_taken ht).classes
        (hsize ▸ Nat.lt_of_le_of_lt (position_le lines lines.length) hlength) (ht.filled hused hlength)
        fun out hresolve => (Builder.resolve_eq_ok ht.labelled.nodup_jumps hresolve).1

/-! ## Sizes -/

theorem byteSize_reverse (cs : List Char) : Statement.byteSize cs.reverse = Statement.byteSize cs := by
  induction cs with
  | nil => rfl
  | cons c rest ih =>
      rw [List.reverse_cons, Statement.byteSize_append, ih]
      exact Nat.add_comm _ _

theorem byteSize_dropReturn_le (reversed : List Char) :
    Statement.byteSize (Text.dropReturn reversed) ≤ Statement.byteSize reversed := by
  unfold Text.dropReturn
  split
  · rw [byteSize_reverse]
    exact Nat.le_add_left _ _
  · exact Nat.le_of_eq (byteSize_reverse reversed)

/-- No line is larger than the source, and there are not more lines than bytes. -/
theorem linesFrom_le (current cs : List Char) :
    (∀ line ∈ Text.linesFrom current cs, Statement.byteSize line ≤ Statement.byteSize current + Statement.byteSize cs) ∧
      (Text.linesFrom current cs).length ≤ Statement.byteSize current + Statement.byteSize cs := by
  have hcons : ∀ c cs, Statement.byteSize (c :: cs) = c.utf8Size + Statement.byteSize cs := fun _ _ => rfl
  fun_induction Text.linesFrom current cs with
  | case1 => simp
  | case2 current hne =>
      cases current with
      | nil => exact absurd rfl hne
      | cons c rest =>
          have hpos := c.utf8Size_pos
          have hc := hcons c rest
          refine ⟨fun line hline => ?_, ?_⟩
          · rw [List.mem_singleton.1 hline, byteSize_reverse]
            exact Nat.le_add_right _ _
          · rw [List.length_singleton]
            omega
  | case3 current cs ih =>
      have hc := hcons '\n' cs
      have hone : '\n'.utf8Size = 1 := rfl
      have hempty : Statement.byteSize [] = 0 := rfl
      obtain ⟨hsizes, hlength⟩ := ih
      refine ⟨List.forall_mem_cons.2 ⟨?_, fun line hline => ?_⟩, ?_⟩
      · exact Nat.le_trans (byteSize_dropReturn_le current) (Nat.le_add_right _ _)
      · have hline := hsizes line hline
        omega
      · rw [List.length_cons]
        omega
  | case4 current c cs _ ih =>
      rw [hcons c cs]
      rw [hcons c current] at ih
      exact ⟨fun line hline => by have hline := ih.1 line hline; omega, by have hlength := ih.2; omega⟩

theorem linesOf_le (source : String) : (∀ line ∈ linesOf source, Statement.byteSize line ≤ Statement.byteSize source.toList) ∧
    (linesOf source).length ≤ Statement.byteSize source.toList := by
  have hlines : linesOf source = Text.linesFrom [] source.toList := by
    simp [linesOf, Text.lines, Function.comp_def]
  have hempty : Statement.byteSize [] = 0 := rfl
  rw [hlines]
  simpa [hempty] using linesFrom_le [] source.toList

/-- The module that a source stands for, before it is checked: all lines are accepted, and all labels defined. -/
def Drafts (name file source : String) (m : CompiledModule) : Prop :=
  ∃ a, Assembler.lines file 1 (Text.lines source) { builder := ({ name : Builder }.source source) } = .ok a ∧
    (∀ use ∈ a.used, use.1 ∈ a.defined) ∧ a.builder.draft = .ok m

/-- The lines have been taken in or refused without a crash, and what is left is to finish. -/
theorem guarded_cases (name file source : String) (hbytes : Statement.byteSize source.toList < 2 ^ 63) :
    (∃ a, Taken (linesOf source) (linesOf source).length a ∧
      Assembler.lines file 1 (Text.lines source) { builder := ({ name : Builder }.source source) } = .ok a ∧
      assemble name file source = a.finish file ∧
      Guarded.assemble name file source = (Guarded.finish a file).run) ∨
    ∃ k cause, Assembler.lines file 1 (Text.lines source) { builder := ({ name : Builder }.source source) } =
        .error (.assembly file k cause) ∧ assemble name file source = .error (.assembly file k cause) ∧
      Guarded.assemble name file source = .ok (assemble name file source) := by
  obtain ⟨hsizes, hlength⟩ := linesOf_le source
  have hstart := Taken.start (linesOf source) name source
  have hlines : Guarded.lines file 0 (Text.lines source) { builder := ({ name : Builder }.source source) } =
      calm (Assembler.lines file 1 (Text.lines source) { builder := ({ name : Builder }.source source) }) :=
    lines_eq hstart rfl (by omega) fun line hline => Nat.lt_of_le_of_lt (hsizes line hline) hbytes
  have hassemble : assemble name file source =
      Assembler.lines file 1 (Text.lines source) { builder := ({ name : Builder }.source source) } >>= (·.finish file) := rfl
  have hguarded : Guarded.assemble name file source = (Guarded.lines file 0 (Text.lines source)
      { builder := ({ name : Builder }.source source) } >>= fun a => Guarded.finish a file).run := rfl
  rw [hlines, calm_bind] at hguarded
  rw [hguarded, hassemble]
  cases htaken : Assembler.lines file 1 (Text.lines source) { builder := ({ name : Builder }.source source) } with
  | ok a => exact .inl ⟨a, hstart.run (Nat.zero_le _) rfl htaken, rfl, rfl, rfl⟩
  | error e =>
      obtain ⟨k, _, _, cause, _, _, _, rfl⟩ := hstart.refused rfl htaken
      exact .inr ⟨k + 1, cause, rfl, rfl, rfl⟩

/-- The assembler does not crash but for one reason, the overflow of a sum in the check of a finished tape. It comes to that
where the first thing wrong on the tape is a jump that is written with an offset whose sum with the position is too large for a
signed word. Nothing else that is done with words can go wrong: where that sum does not, the assembler that stops at every
cut, every reading of a table and every sum or difference that goes wrong comes to the same module or the same error. -/
theorem assembler_crashes_iff (name file source : String) (hbytes : Statement.byteSize source.toList < 2 ^ 63) :
    (assemble name file source = .error .overflow ↔ ∃ m p, Drafts name file source m ∧ Overshoots (linesOf source) p ∧
      ∀ j < p, ∀ i, m.tape.instructions[j]? = some i → i.flaw? j m.tape.size = none) ∧
    (assemble name file source = .error .overflow → Guarded.assemble name file source = .error .overflow) ∧
    (assemble name file source ≠ .error .overflow →
      Guarded.assemble name file source = .ok (assemble name file source)) := by
  have hlength : (linesOf source).length < 2 ^ 63 := Nat.lt_of_le_of_lt (linesOf_le source).2 hbytes
  unfold Drafts
  rcases guarded_cases name file source hbytes with ⟨a, ht, htaken, hfinish, hguarded⟩ | ⟨k, cause, hrefused, herror, hguarded⟩
  · obtain ⟨hcrash, hcalm⟩ := ht.finish_crashesLike hlength file
    rw [hfinish, hguarded]
    refine ⟨?_, fun h => congrArg ExceptT.run (hcrash h), fun h => congrArg ExceptT.run (hcalm h)⟩
    rw [htaken, finish_eq_overflow]
    constructor
    · rintro ⟨hused, hover⟩
      obtain ⟨m, p, hdraft, hrest⟩ := (ht.finish_eq_overflow hused hlength).1 hover
      exact ⟨m, p, ⟨a, rfl, hused, hdraft⟩, hrest⟩
    · rintro ⟨m, p, ⟨a', heq, hused, hdraft⟩, hrest⟩
      cases heq
      exact ⟨hused, (ht.finish_eq_overflow hused hlength).2 ⟨m, p, hdraft, hrest⟩⟩
  · rw [hguarded, herror]
    refine ⟨iff_of_false (fun h => by cases h) ?_, fun h => (by cases h), fun _ => rfl⟩
    rintro ⟨m, p, ⟨a, htaken, _⟩, _⟩
    cases hrefused.symm.trans htaken

/-- A jump by the largest offset. -/
def farText : String := "jmp 9223372036854775807"

/-- From the first position the sum is in range, and the jump is found to lead off the tape. -/
theorem assembler_crashes_iff_first : Statement.byteSize farText.toList < 2 ^ 63 ∧
    Guarded.assemble "main" "main.rasm" farText = .ok (assemble "main" "main.rasm" farText) := by
  have hbytes : Statement.byteSize farText.toList < 2 ^ 63 := by decide +kernel
  obtain ⟨hcrash, -, hcalm⟩ := assembler_crashes_iff "main" "main.rasm" farText hbytes
  refine ⟨hbytes, hcalm fun herror => ?_⟩
  obtain ⟨_, p, -, ⟨n, line, _, offset, hn, -, rfl, -, -, -, hlarge⟩, -⟩ := hcrash.1 herror
  have hlength : (linesOf farText).length = 1 := by decide +kernel
  obtain rfl : n = 0 := by
    have hlt := (List.getElem?_eq_some_iff.1 hn).1
    omega
  have hposition : position (linesOf farText) 0 = 0 := rfl
  have hoffset := Int64.toInt_lt offset
  omega

/-- From the second position it is not. -/
theorem largest_offset_overflows : assemble "main" "main.rasm" ("nop\n" ++ farText) = .error .overflow := by
  have herror : ∀ x : Except HostError CompiledModule, x.map (fun _ => ()) = .error .overflow → x = .error .overflow := by
    rintro (e | m) h
    · exact congrArg _ (Except.error.inj h)
    · cases h
  exact herror _ (by decide +kernel)

end Source

end Spool
