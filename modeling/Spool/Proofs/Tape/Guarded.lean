import Mathlib.Algebra.Group.Int.Defs
import Spool.Proofs.Tape.Placement
import Spool.Tape.Guarded

/-!
# Where the assembler crashes

Texts are cut where a character ends, tables are read where something stands, and sizes and positions are bounded by the
length of the source. So each operation does what it would do with numbers of any size, but for one: the check of a finished
tape adds the offset of a jump to its position, and an offset may be as large as a word can hold.
-/

namespace Spool.Guarded

variable {ε α β : Type}

/-! ## Trials -/

theorem calm_bind (x : Except ε α) (f : α → Trial ε β) : calm x >>= f = match x with
    | .ok a => f a
    | .error e => calm (.error e) := by
  cases x <;> rfl

/-- A trial follows work that cannot crash if it does so wherever the work is not refused. -/
theorem calm_bind_eq {x : Except ε α} {f : α → Trial ε β} {g : α → Except ε β} (h : ∀ a, x = .ok a → f a = calm (g a)) :
    calm x >>= f = calm (x >>= g) := by
  rw [calm_bind]
  cases x with
  | ok a => exact h a rfl
  | error e => rfl

/-- What has not crashed is carried on with. -/
theorem lift_bind {x : Except Crash α} {a : α} (h : x = .ok a) (f : α → Trial ε β) : (liftM x : Trial ε α) >>= f = f a := by
  rw [h]
  rfl

/-! ## Words -/

theorem addSize_eq {a b : Nat} (h : a + b < 2 ^ 64) : addSize a b = .ok (a + b) := if_pos h

theorem subSize_eq {a b : Nat} (h : b ≤ a) : subSize a b = .ok (a - b) := if_pos h

theorem fitsInt_iff {n : Int} : fitsInt n ↔ -2 ^ 63 ≤ n ∧ n < 2 ^ 63 := by
  have hmin : Int64.minValue.toInt = -2 ^ 63 := by decide
  have hmax := Int64.toInt_maxValue
  unfold fitsInt
  rw [Bool.and_eq_true, decide_eq_true_eq, decide_eq_true_eq, hmin, hmax]
  omega

theorem subInt_eq {a b : Nat} (ha : a < 2 ^ 63) (hb : b < 2 ^ 63) :
    subInt (.ofNat a) (.ofNat b) = .ok (.ofInt ((a : Int) - b)) := by
  have hfits : fitsInt ((Int64.ofNat a).toInt - (Int64.ofNat b).toInt) := by
    rw [fitsInt_iff, Int64.toInt_ofNat_of_lt ha, Int64.toInt_ofNat_of_lt hb]
    omega
  unfold subInt
  rw [if_pos hfits, Int64.ofInt_sub, Int64.ofInt_eq_ofNat, Int64.ofInt_eq_ofNat]

theorem fetch_eq {xs : Array α} {i : Nat} {x : α} (h : xs[i]? = some x) : fetch xs i = .ok x := by
  unfold fetch
  rw [h]

theorem fetch_isOk {xs : Array α} {i : Nat} (h : i < xs.size) : ∃ x, fetch xs i = .ok x :=
  ⟨xs[i], fetch_eq (Array.getElem?_eq_getElem h)⟩

/-! ## Texts -/

open Statement in
theorem byteSize_cons (c : Char) (cs : List Char) : ∃ n, byteSize (c :: cs) = n + 1 ∧ c.utf8Size ≤ n + 1 ∧
    n + 1 - c.utf8Size = byteSize cs := by
  have hpos := c.utf8Size_pos
  have hsum : byteSize (c :: cs) = c.utf8Size + byteSize cs := rfl
  exact ⟨byteSize (c :: cs) - 1, by omega, by omega, by omega⟩

theorem before_append (xs ys : List Char) : before (xs ++ ys) (Statement.byteSize xs) = .ok xs := by
  induction xs with
  | nil => cases ys <;> rfl
  | cons c xs ih =>
      obtain ⟨n, hn, hle, hrest⟩ := byteSize_cons c xs
      rw [hn, List.cons_append, before, if_pos hle, hrest, ih]
      rfl

theorem after_append (xs ys : List Char) : after (xs ++ ys) (Statement.byteSize xs) = .ok ys := by
  induction xs with
  | nil => cases ys <;> rfl
  | cons c xs ih =>
      obtain ⟨n, hn, hle, hrest⟩ := byteSize_cons c xs
      rw [hn, List.cons_append, after, if_pos hle, hrest, ih]

/-- The scan for a comment stops where the line is cut. -/
theorem commentAt?_cases (state : Quoting) (position : Nat) (cs : List Char) :
    commentAt? state position cs = none ∧ stripCommentFrom state cs = cs ∨
      commentAt? state position cs = some (position + Statement.byteSize (stripCommentFrom state cs)) := by
  fun_induction commentAt? state position cs with
  | case1 => exact .inl ⟨rfl, rfl⟩
  | case2 => exact .inr rfl
  | case3 state position c rest hcut ih =>
      have hstrip : stripCommentFrom state (c :: rest) = c :: stripCommentFrom (state.next c) rest := by
        rw [stripCommentFrom]
        exact hcut
      rw [hstrip]
      refine ih.imp (fun h => ⟨h.1, congrArg _ h.2⟩) fun hsome => hsome.trans ?_
      exact congrArg some (Nat.add_assoc _ _ _)

theorem stripComment_eq (line : List Char) : stripComment line = .ok (Spool.stripComment line) := by
  unfold stripComment
  rcases commentAt?_cases .outside 0 line with ⟨hnone, hsame⟩ | hsome
  · rw [hnone]
    exact congrArg Except.ok hsame.symm
  · rw [hsome, Nat.zero_add]
    obtain ⟨rest, hrest⟩ := stripCommentFrom_isPrefix .outside line
    have hcut := before_append (stripCommentFrom .outside line) rest
    rwa [hrest] at hcut

theorem blankAt?_cases (position : Nat) (cs : List Char) :
    blankAt? position cs = none ∧ cs.takeWhile (fun c => !Text.isBlank c) = cs ∨
      blankAt? position cs = some (position + Statement.byteSize (cs.takeWhile fun c => !Text.isBlank c)) := by
  fun_induction blankAt? position cs with
  | case1 => exact .inl ⟨rfl, rfl⟩
  | case2 position c rest hblank => exact .inr (by simp [hblank, Statement.byteSize])
  | case3 position c rest hword ih =>
      have htake : (c :: rest).takeWhile (fun c => !Text.isBlank c) = c :: rest.takeWhile fun c => !Text.isBlank c := by
        simp [hword]
      rw [htake]
      refine ih.imp (fun h => ⟨h.1, congrArg _ h.2⟩) fun hsome => hsome.trans ?_
      exact congrArg some (Nat.add_assoc _ _ _)

theorem splitWord_eq (text : List Char) : splitWord text = .ok (Text.splitWord text) := by
  have hsplit := List.takeWhile_append_dropWhile (p := fun c => !Text.isBlank c) (l := text)
  unfold splitWord
  rcases blankAt?_cases 0 text with ⟨hnone, hsame⟩ | hsome
  · rw [hnone]
    rw [hsame] at hsplit
    have hdrop : text.dropWhile (fun c => !Text.isBlank c) = [] := by simpa using hsplit
    exact congrArg Except.ok (Prod.ext hsame.symm hdrop.symm)
  · rw [hsome, Nat.zero_add]
    have hbefore := before_append (text.takeWhile fun c => !Text.isBlank c) (text.dropWhile fun c => !Text.isBlank c)
    have hafter := after_append (text.takeWhile fun c => !Text.isBlank c) (text.dropWhile fun c => !Text.isBlank c)
    rw [hsplit] at hbefore hafter
    simp only [hbefore, hafter]
    rfl

/-! ## Lines -/

theorem byteSize_le_of_isPrefix {xs ys : List Char} (h : xs <+: ys) : Statement.byteSize xs ≤ Statement.byteSize ys := by
  obtain ⟨rest, rfl⟩ := h
  rw [Statement.byteSize_append]
  exact Nat.le_add_right _ _

theorem byteSize_trimLeft_le (cs : List Char) : Statement.byteSize (Text.trimLeft cs) ≤ Statement.byteSize cs := by
  have hsplit := List.takeWhile_append_dropWhile (p := Text.isBlank) (l := cs)
  rw [Text.trimLeft, ← congrArg Statement.byteSize hsplit, Statement.byteSize_append]
  exact Nat.le_add_left _ _

theorem readLine_eq {line : List Char} (h : Statement.byteSize line + 1 < 2 ^ 64) :
    readLine line = .ok (Statement.ofLine line) := by
  have hle := byteSize_trimLeft_le (Text.trimRight (Spool.stripComment line))
  have hprefix : Text.trimRight (Spool.stripComment line) <+: line :=
    (Text.trimRight_isPrefix _).trans (stripCommentFrom_isPrefix .outside line)
  have hfits := byteSize_le_of_isPrefix hprefix
  unfold readLine
  rw [Line.ofLine_eq, stripComment_eq, Line.mnemonic, Line.operand, Line.bare]
  change (if (Text.trimLeft (Text.trimRight (Spool.stripComment line))).isEmpty then pure Statement.blank else _) = _
  generalize Text.trimLeft (Text.trimRight (Spool.stripComment line)) = trimmed at hle
  rw [subSize_eq hle]
  change (if trimmed.isEmpty then _ else addSize _ 1 >>= _) = _
  rw [addSize_eq (by omega)]
  cases trimmed with
  | nil => rfl
  | cons c rest =>
      by_cases hc : c = '.'
      · subst hc
        change (splitWord rest >>= fun x => pure (Statement.directive x.1 (Text.words x.2)) : Except Crash Statement) = _
        rw [splitWord_eq]
        rfl
      · cases hl : Statement.labelName? (c :: rest) with
        | some name => simp [hc, bind, Except.bind, pure, Except.pure]
        | none => simp [hc, splitWord_eq, bind, Except.bind, pure, Except.pure]

/-! ## Literals -/

theorem startsNumber_eq (first : UInt8) : startsNumber first =
    decide (48 ≤ first.toNat ∧ first.toNat ≤ 57 ∨ first.toNat = 45 ∨ first.toNat = 43) := by
  simp only [startsNumber, UInt8.le_iff_toNat_le, ← UInt8.toNat_inj, UInt8.reduceToNat, Bool.decide_or, Bool.decide_and,
    Bool.or_assoc]

/-- A character that takes more than one byte starts with a large one. -/
theorem exists_firstByte (c : Char) (rest : List Char) : ∃ first, firstByte (c :: rest) = .ok first ∧
    (first.toNat = c.toNat ∨ 192 ≤ first.toNat ∧ 128 ≤ c.toNat) := by
  have hfetch : ∀ first others, String.utf8EncodeChar c = first :: others → firstByte (c :: rest) = .ok first := by
    intro first others h
    refine fetch_eq ?_
    rw [List.flatMap_cons, h]
    rfl
  have hc : c.toNat = c.val.toNat := rfl
  unfold String.utf8EncodeChar at hfetch
  simp only at hfetch
  split at hfetch
  · exact ⟨_, hfetch _ _ rfl, .inl (by rw [UInt8.toNat_ofNat', hc]; omega)⟩
  · split at hfetch
    · exact ⟨_, hfetch _ _ rfl, .inr (by rw [UInt8.toNat_ofNat', hc]; omega)⟩
    · split at hfetch
      · exact ⟨_, hfetch _ _ rfl, .inr (by rw [UInt8.toNat_ofNat', hc]; omega)⟩
      · exact ⟨_, hfetch _ _ rfl, .inr (by rw [UInt8.toNat_ofNat', hc]; omega)⟩

theorem startsNumber_of_char {c : Char} {first : UInt8}
    (h : first.toNat = c.toNat ∨ 192 ≤ first.toNat ∧ 128 ≤ c.toNat) :
    startsNumber first = (c.isDigit || c = '-' || c = '+') := by
  have heq : ∀ d : Char, c = d ↔ c.toNat = d.toNat := fun d => ⟨congrArg Char.toNat, Char.toNat_inj.1⟩
  have hdigit : c.isDigit = decide (48 ≤ c.toNat ∧ c.toNat ≤ 57) := by
    simp only [Char.isDigit, UInt32.le_iff_toNat_le, ge_iff_le, Bool.decide_and]
    rfl
  rw [startsNumber_eq, hdigit, Bool.eq_iff_iff]
  simp only [decide_eq_true_eq, Bool.or_eq_true, heq, show '-'.toNat = 45 from rfl, show '+'.toNat = 43 from rfl]
  omega

/-- Neither a text nor a character. -/
theorem read_of_unquoted {c : Char} {rest : List Char} (htext : c ≠ '"') (hchar : c ≠ '\'') : Literal.read (c :: rest) =
    if c.isDigit || c = '-' || c = '+' then Literal.readNumber (c :: rest)
    else if isIdentifier (c :: rest) then .ok (.name (String.ofList (c :: rest)))
    else .error (.badOperand (String.ofList (c :: rest))) := by
  unfold Literal.read
  split
  · rename_i heq
    cases heq
  · rename_i heq
    exact absurd (List.cons.inj heq).1 htext
  · rename_i heq
    exact absurd (List.cons.inj heq).1 hchar
  · rename_i heq
    cases heq
    rfl

theorem readLiteral_eq (text : List Char) : readLiteral text = calm (Literal.read text) := by
  unfold readLiteral
  split
  · rfl
  · rfl
  · rfl
  · rename_i hnil htext hchar
    cases text with
    | nil => exact absurd rfl hnil
    | cons c rest =>
        obtain ⟨first, hfirst, hsame⟩ := exists_firstByte c rest
        rw [lift_bind hfirst, startsNumber_of_char hsame,
          read_of_unquoted (fun h => htext rest (h ▸ rfl)) fun h => hchar rest (h ▸ rfl)]
        split
        · rfl
        · split <;> rfl

/-! ## The draft of a tape -/

variable {b : Builder} {label : Nat}

theorem newLabel_eq (b : Builder) : newLabel b = .ok b.newLabel := by
  have hsize : (b.labels.push none).size = b.labels.size + 1 := Array.size_push _
  unfold newLabel
  simp only [hsize]
  rw [subSize_eq (Nat.le_add_left _ _)]
  rfl

theorem bindLabel_eq (h : label < b.labels.size) : bindLabel b label = .ok (b.bindLabel label) := by
  obtain ⟨_, hx⟩ := fetch_isOk h
  unfold bindLabel
  rw [hx]
  rfl

theorem addFunction_eq (h : ∀ c, b.openClass = some c → c < b.classes.size) (name : String) (flags : Flags) :
    addFunction b name flags = .ok (b.function name flags) := by
  unfold addFunction Builder.function Builder.openClassName
  cases hopen : b.openClass with
  | none => rfl
  | some c =>
      have hc := Array.getElem?_eq_getElem (h c hopen)
      simp only [fetch_eq hc, Option.bind_some, hc]
      rfl

theorem addClass_eq (b : Builder) (name : String) (superName : Option String) (fields : List String) :
    addClass b name superName fields = .ok (b.beginClass name superName fields) := by
  unfold addClass Builder.beginClass
  simp only [Array.size_push]
  rw [subSize_eq (Nat.le_add_left _ _)]
  rfl

theorem closeClass_eq (h : ∀ c, b.openClass = some c → c < b.classes.size) : closeClass b = .ok b.endClass := by
  unfold closeClass
  cases hopen : b.openClass with
  | none =>
      have hsame : b.endClass = b := by
        unfold Builder.endClass
        rw [hopen]
      rw [hsame]
  | some c =>
      obtain ⟨_, hx⟩ := fetch_isOk (h c hopen)
      simp only [hx]
      rfl

/-- The jumps are on the tape, and their labels are in the table and bound to positions. -/
def Filled (labels : Array (Option Nat)) (jumps : List (Nat × Nat)) (size : Nat) : Prop :=
  ∀ jump ∈ jumps, jump.1 < size ∧ ∃ target?, labels[jump.2]? = some target? ∧ ∀ target, target? = some target → target < 2 ^ 63

/-- The offset of a jump is the difference of two positions. -/
theorem resolve_eq {labels : Array (Option Nat)} : ∀ {jumps : List (Nat × Nat)} {instructions : Array Instruction},
    instructions.size ≤ 2 ^ 63 → Filled labels jumps instructions.size →
      resolve labels jumps instructions = calm (Builder.resolve labels jumps instructions) := by
  intro jumps
  induction jumps with
  | nil => exact fun _ _ => rfl
  | cons jump rest ih =>
      intro instructions hsize hjumps
      obtain ⟨position, label⟩ := jump
      obtain ⟨⟨hposition, target?, hat, hlt⟩, hrest⟩ := List.forall_mem_cons.1 hjumps
      dsimp only at hposition hat
      rw [resolve, Builder.resolve, lift_bind (fetch_eq hat), hat]
      cases target? with
      | none => rfl
      | some target =>
          obtain ⟨_, hx⟩ := fetch_isOk hposition
          dsimp only [Option.join_some]
          rw [lift_bind (subInt_eq (hlt target rfl) (Nat.lt_of_lt_of_le hposition hsize)), hx]
          exact ih (by simpa using hsize) (by simpa [Filled] using hrest)

end Spool.Guarded
