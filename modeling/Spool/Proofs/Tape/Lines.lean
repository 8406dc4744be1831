import Spool.Tape.Statement

/-!
# Lines of a source

What a line says is told by what is left of it without its comment and the blanks at both ends: nothing, a directive, a
label, or an instruction. Reading a line as a statement finds just that.

A table gets one row for each line of a kind, in the order of the lines. So the row of a line stands at the number of lines
of that kind above it. What holds of the rows is said for the first lines of a source and carried on line by line.
-/

namespace Spool

theorem Text.trimRight_isPrefix (cs : List Char) : Text.trimRight cs <+: cs := by
  rw [Text.trimRight, ← List.reverse_suffix, List.reverse_reverse]
  exact List.dropWhile_suffix _

theorem stripCommentFrom_isPrefix (state : Quoting) (cs : List Char) : stripCommentFrom state cs <+: cs := by
  fun_induction stripCommentFrom state cs with
  | case1 => exact List.nil_prefix
  | case2 => exact List.nil_prefix
  | case3 state c rest _ ih => exact (List.prefix_cons_inj c).2 ih

/-- A prefix that does not consist of blanks has all the blanks in front. -/
theorem takeWhile_of_isPrefix {α : Type} {p : α → Bool} {xs ys : List α} (hp : xs <+: ys) (hx : xs.dropWhile p ≠ []) :
    xs.takeWhile p = ys.takeWhile p := by
  induction xs generalizing ys with
  | nil => simp at hx
  | cons x xs ih =>
      obtain ⟨rest, rfl⟩ := hp
      cases hpx : p x with
      | true =>
          simp only [List.dropWhile_cons, hpx, ↓reduceIte] at hx
          simp [hpx, ih (List.prefix_append xs rest) hx]
      | false => simp [hpx]

namespace Statement

theorem byteSize_append (xs ys : List Char) : byteSize (xs ++ ys) = byteSize xs + byteSize ys := by
  induction xs with
  | nil => simp [byteSize]
  | cons x xs ih => simp only [byteSize, List.cons_append, List.foldr_cons] at ih ⊢; omega

theorem labelName?_eq_some {text name : List Char} :
    labelName? text = some name ↔ text = name ++ [':'] ∧ isIdentifier name := by
  unfold labelName?
  constructor
  · intro h
    split at h
    · rename_i rest hrev
      split at h
      · rename_i hid
        cases h
        exact ⟨by simpa using congrArg List.reverse hrev, hid⟩
      · cases h
    · cases h
  · rintro ⟨rfl, hid⟩
    simp [hid]

/-- No name starts with a dot. -/
theorem labelName?_dot (rest : List Char) : labelName? ('.' :: rest) = none := by
  refine Option.eq_none_iff_forall_ne_some.2 fun name hname => ?_
  obtain ⟨heq, hid⟩ := labelName?_eq_some.1 hname
  cases name with
  | nil => simp [isIdentifier] at hid
  | cons c cs =>
      obtain ⟨rfl, _⟩ := List.cons.inj heq
      have hstart : isIdentifierStart '.' = false := by decide
      simp [isIdentifier, hstart] at hid

theorem labelName?_isSome (text : List Char) :
    (labelName? text).isSome = (text.getLast? = some ':' && isIdentifier text.dropLast) := by
  rw [Bool.eq_iff_iff, Option.isSome_iff_exists, Bool.and_eq_true, decide_eq_true_eq]
  constructor
  · rintro ⟨name, hname⟩
    obtain ⟨rfl, hid⟩ := labelName?_eq_some.1 hname
    simpa using hid
  · rintro ⟨hlast, hid⟩
    obtain ⟨name, rfl⟩ := List.getLast?_eq_some_iff.1 hlast
    exact ⟨name, labelName?_eq_some.2 ⟨rfl, by simpa using hid⟩⟩

end Statement

namespace Line

/-- A line without its comment and the blanks at both ends. -/
def bare (line : List Char) : List Char := Text.trimLeft (Text.trimRight (stripComment line))

/-- A line with a name and a colon. -/
def IsLabel (line : List Char) (name : String) : Prop := bare line = name.toList ++ [':'] ∧ isIdentifier name.toList

/-- Not empty, not a directive and not a label. -/
def isInstruction (line : List Char) : Bool :=
  let text := bare line
  !text.isEmpty && text.head? ≠ some '.' && !(text.getLast? = some ':' && isIdentifier text.dropLast)

/-- The first word of a line. -/
def mnemonic (line : List Char) : List Char := (Text.splitWord (bare line)).1

/-- What follows the first word. -/
def operand (line : List Char) : List Char := Text.trim (Text.splitWord (bare line)).2

/-- Where the first word starts, counted in bytes from one. -/
def column (line : List Char) : Nat := Statement.byteSize (line.takeWhile Text.isBlank) + 1

/-- The words of a line that starts with a dot. -/
def directive? (line : List Char) : Option (List Char × List (List Char)) :=
  match bare line with
  | '.' :: rest => some ((Text.splitWord rest).1, Text.words (Text.splitWord rest).2)
  | _ => none

theorem column_eq {line : List Char} (hb : bare line ≠ []) :
    Statement.byteSize (Text.trimRight (stripComment line)) - Statement.byteSize (bare line) + 1 = column line := by
  have hprefix : Text.trimRight (stripComment line) <+: line :=
    (Text.trimRight_isPrefix _).trans (stripCommentFrom_isPrefix .outside line)
  have hsplit := congrArg Statement.byteSize
    (List.takeWhile_append_dropWhile (p := Text.isBlank) (l := Text.trimRight (stripComment line)))
  rw [Statement.byteSize_append, takeWhile_of_isPrefix hprefix hb] at hsplit
  rw [bare, column, Text.trimLeft, ← hsplit, Nat.add_sub_cancel]

/-! ## Statements -/

theorem ofLine_eq (line : List Char) : Statement.ofLine line =
    match bare line with
    | [] => .blank
    | '.' :: rest => .directive (Text.splitWord rest).1 (Text.words (Text.splitWord rest).2)
    | _ =>
      match Statement.labelName? (bare line) with
      | some name => .label name
      | none => .instruction (mnemonic line) (operand line)
          (Statement.byteSize (Text.trimRight (stripComment line)) - Statement.byteSize (bare line) + 1) := rfl

theorem directive?_eq_some {line name : List Char} {words : List (List Char)} :
    directive? line = some (name, words) ↔ Statement.ofLine line = .directive name words := by
  rw [ofLine_eq, directive?]
  cases hb : bare line with
  | nil => simp
  | cons c rest =>
      by_cases hc : c = '.'
      · subst hc
        simp
      · cases Statement.labelName? (c :: rest) <;> simp [hc]

theorem isLabel_iff {line : List Char} {name : String} :
    IsLabel line name ↔ Statement.ofLine line = .label name.toList := by
  rw [IsLabel, ← Statement.labelName?_eq_some, ofLine_eq]
  cases hb : bare line with
  | nil => simp [Statement.labelName?]
  | cons c rest =>
      by_cases hc : c = '.'
      · subst hc
        simp [Statement.labelName?_dot]
      · cases Statement.labelName? (c :: rest) <;> simp [hc]

theorem isInstruction_iff {line : List Char} :
    isInstruction line ↔ ∃ name text place, Statement.ofLine line = .instruction name text place := by
  rw [ofLine_eq, isInstruction, ← Statement.labelName?_isSome]
  cases hb : bare line with
  | nil => simp
  | cons c rest =>
      by_cases hc : c = '.'
      · subst hc
        simp
      · cases Statement.labelName? (c :: rest) <;> simp [hc]

/-- The parts of an instruction as they stand in the line. -/
theorem parts_of_ofLine {line name text : List Char} {place : Nat}
    (h : Statement.ofLine line = .instruction name text place) :
    name = mnemonic line ∧ text = operand line ∧ place = column line := by
  rw [ofLine_eq] at h
  split at h
  · cases h
  · cases h
  · rename_i hnil _
    split at h
    · cases h
    · cases h
      exact ⟨rfl, rfl, column_eq hnil⟩

end Line

namespace Source

/-! ## Lines above a line -/

variable {α : Type} {lines : List (List Char)} {kind : List Char → Bool} {line : List Char} {k n : Nat}

/-- How many lines of a kind stand above a line. -/
def above (kind : List Char → Bool) (lines : List (List Char)) (k : Nat) : Nat := (lines.take k).countP kind

theorem above_succ (hk : lines[k]? = some line) :
    above kind lines (k + 1) = above kind lines k + if kind line then 1 else 0 := by
  rw [above, above, List.take_add_one, hk, List.countP_append]
  simp [List.countP_cons]

theorem above_le_above {j : Nat} (h : j ≤ k) : above kind lines j ≤ above kind lines k := by
  have htake : (lines.take j).Sublist (lines.take k) := by
    rw [← Nat.min_eq_left h, ← List.take_take]
    exact List.take_sublist _ _
  exact htake.countP_le

theorem above_of_length_le (h : lines.length ≤ k) : above kind lines k = above kind lines lines.length := by
  rw [above, above, List.take_of_length_le h, List.take_length]

theorem above_lt_above (hk : lines[k]? = some line) (hkind : kind line) (h : k < n) :
    above kind lines k < above kind lines n :=
  calc above kind lines k
    _ < above kind lines (k + 1) := by rw [above_succ hk, if_pos hkind]; exact Nat.lt_succ_self _
    _ ≤ above kind lines n := above_le_above h

theorem eq_of_above_eq {j : Nat} {line' : List Char} (hj : lines[j]? = some line) (hk : lines[k]? = some line')
    (hkind : kind line) (hkind' : kind line') (h : above kind lines j = above kind lines k) : j = k := by
  rcases Nat.lt_trichotomy j k with hlt | heq | hlt
  · exact absurd h (Nat.ne_of_lt (above_lt_above hj hkind hlt))
  · exact heq
  · exact absurd h.symm (Nat.ne_of_lt (above_lt_above hk hkind' hlt))

theorem exists_of_lt_above {i : Nat} (hi : i < above kind lines n) :
    ∃ k line, k < n ∧ lines[k]? = some line ∧ kind line ∧ above kind lines k = i := by
  induction n with
  | zero => simp [above] at hi
  | succ n ih =>
      cases hn : lines[n]? with
      | none =>
          have hlen : lines.length ≤ n := List.getElem?_eq_none_iff.1 hn
          rw [above_of_length_le (Nat.le_succ_of_le hlen), ← above_of_length_le hlen] at hi
          obtain ⟨k, line, hk, hrest⟩ := ih hi
          exact ⟨k, line, Nat.lt_succ_of_lt hk, hrest⟩
      | some line =>
          rw [above_succ hn] at hi
          by_cases hlast : i < above kind lines n
          · obtain ⟨k, line, hk, hrest⟩ := ih hlast
            exact ⟨k, line, Nat.lt_succ_of_lt hk, hrest⟩
          · split at hi
            · exact ⟨n, line, Nat.lt_succ_self n, hn, ‹_›, by omega⟩
            · omega

/-! ## Tables with a row for each line of a kind -/

/-- The first `n` lines have filled a table: each line of the kind stands in its row. -/
structure Fills (kind : List Char → Bool) (lines : List (List Char)) (n : Nat) (rows : Array α)
    (row : Nat → List Char → α → Prop) : Prop where
  size : rows.size = above kind lines n
  row : ∀ {k line}, k < n → lines[k]? = some line → kind line → ∃ r, rows[above kind lines k]? = some r ∧ row k line r

variable {rows : Array α} {row row' : Nat → List Char → α → Prop}

theorem Fills.empty : Fills kind lines 0 (#[] : Array α) row :=
  ⟨rfl, fun hk => absurd hk (Nat.not_lt_zero _)⟩

theorem Fills.mono (hf : Fills kind lines n rows row)
    (hrow : ∀ {k line r}, k < n → lines[k]? = some line → kind line → row k line r → row' k line r) :
    Fills kind lines n rows row' :=
  ⟨hf.size, fun hk hline hkind =>
    have ⟨r, hr, hin⟩ := hf.row hk hline hkind
    ⟨r, hr, hrow hk hline hkind hin⟩⟩

theorem Fills.skip (hf : Fills kind lines n rows row) (hn : lines[n]? = some line) (hkind : kind line = false) :
    Fills kind lines (n + 1) rows row where
  size := by rw [hf.size, above_succ hn, hkind]; rfl
  row {k line'} hk hline hkind' := by
    refine hf.row (Nat.lt_of_le_of_ne (Nat.le_of_lt_succ hk) ?_) hline hkind'
    rintro rfl
    cases hline.symm.trans hn
    simp [hkind] at hkind'

theorem Fills.push (hf : Fills kind lines n rows row) (hn : lines[n]? = some line) (hkind : kind line) {r : α}
    (hr : row n line r) : Fills kind lines (n + 1) (rows.push r) row where
  size := by rw [Array.size_push, hf.size, above_succ hn, if_pos hkind]
  row {k line'} hk hline hkind' := by
    by_cases hlast : k = n
    · subst hlast
      cases hline.symm.trans hn
      exact ⟨r, by rw [← hf.size, Array.getElem?_push_size], hr⟩
    · obtain ⟨r', hr', hin⟩ := hf.row (by omega) hline hkind'
      have hlt := (Array.getElem?_eq_some_iff.1 hr').1
      exact ⟨r', by rw [Array.getElem?_push, if_neg (Nat.ne_of_lt hlt), hr'], hin⟩

/-- Every row comes from a line. -/
theorem Fills.exists_line (hf : Fills kind lines n rows row) {i : Nat} {r : α} (hr : rows[i]? = some r) :
    ∃ k line, k < n ∧ lines[k]? = some line ∧ kind line ∧ above kind lines k = i ∧ row k line r := by
  have hi : i < above kind lines n := hf.size ▸ (Array.getElem?_eq_some_iff.1 hr).1
  obtain ⟨k, line, hk, hline, hkind, rfl⟩ := exists_of_lt_above hi
  obtain ⟨r', hr', hin⟩ := hf.row hk hline hkind
  cases hr'.symm.trans hr
  exact ⟨k, line, hk, hline, hkind, rfl, hin⟩

end Source

end Spool
