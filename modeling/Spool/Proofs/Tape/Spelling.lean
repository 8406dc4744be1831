import Spool.Proofs.Tape.Literals

/-!
# Spelling

Every text can be written as a literal, and read back from a line that holds it.
-/

namespace Spool

namespace Text

variable {c : Char} {xs ys : List Char}

/-- Escapes what could not stand in a literal between double quotes. -/
def spellChar : Char → List Char
  | '\\' => ['\\', '\\']
  | '"' => ['\\', '"']
  | '\n' => ['\\', 'n']
  | '\r' => ['\\', 'r']
  | c => [c]

def spell (cs : List Char) : List Char := cs.flatMap spellChar

/-- A character is written as it is, or by an escape that stands for it. -/
theorem spellChar_eq (c : Char) : (c ≠ '\\' ∧ c ≠ '"' ∧ c ≠ '\n' ∧ spellChar c = [c]) ∨
    ∃ e, e ≠ '\n' ∧ escape? e = some c ∧ spellChar c = ['\\', e] := by
  unfold spellChar
  split
  · exact .inr ⟨_, by decide, rfl, rfl⟩
  · exact .inr ⟨_, by decide, rfl, rfl⟩
  · exact .inr ⟨_, by decide, rfl, rfl⟩
  · exact .inr ⟨_, by decide, rfl, rfl⟩
  · rename_i hbackslash hquote hnewline _
    exact .inl ⟨hbackslash, hquote, hnewline, rfl⟩

theorem spells_spell (s : List Char) : Spells (spell s) s := by
  induction s with
  | nil => exact .nil
  | cons c s ih =>
      rw [spell, List.flatMap_cons]
      rcases spellChar_eq c with ⟨hbackslash, _, _, hc⟩ | ⟨e, _, hescape, hc⟩ <;> rw [hc]
      · exact .plain hbackslash ih
      · exact .escape hescape ih

theorem isSealed_spell (s : List Char) : isSealed '"' (spell s) := by
  induction s with
  | nil => rfl
  | cons c s ih =>
      rw [spell, List.flatMap_cons]
      rcases spellChar_eq c with ⟨hbackslash, hquote, _, hc⟩ | ⟨e, _, _, hc⟩ <;> rw [hc]
      · rw [List.singleton_append, isSealed_plain hbackslash, Bool.and_eq_true, decide_eq_true_eq]
        exact ⟨hquote, ih⟩
      · exact ih

theorem newline_not_mem_spell (s : List Char) : '\n' ∉ spell s := by
  rw [spell, List.mem_flatMap]
  rintro ⟨c, _, hmem⟩
  rcases spellChar_eq c with ⟨_, _, hnewline, hc⟩ | ⟨e, hnewline, _, hc⟩ <;> rw [hc] at hmem
  · exact hnewline (List.mem_singleton.1 hmem).symm
  · simp [hnewline.symm] at hmem

/-! ## Blanks at the ends -/

theorem trimLeft_append (h : ∀ c ∈ xs, isBlank c) : trimLeft (xs ++ ys) = trimLeft ys :=
  List.dropWhile_append_of_pos h

theorem trimLeft_cons (hc : isBlank c = false) : trimLeft (c :: ys) = c :: ys :=
  List.dropWhile_cons_of_neg (by simp [hc])

theorem trimRight_append (h : ∀ c ∈ ys, isBlank c) : trimRight (xs ++ ys) = trimRight xs := by
  rw [trimRight, List.reverse_append, List.dropWhile_append_of_pos fun c hc => h c (List.mem_reverse.1 hc), trimRight]

theorem trimRight_concat (hc : isBlank c = false) : trimRight (xs ++ [c]) = xs ++ [c] := by
  simp [trimRight, hc]

theorem splitWord_append (hx : ∀ c ∈ xs, isBlank c = false) (hy : ∀ c ∈ ys.head?, isBlank c) :
    splitWord (xs ++ ys) = (xs, ys) := by
  have hword : ∀ c ∈ xs, !isBlank c := fun c hc => by simp [hx c hc]
  rw [splitWord, List.takeWhile_append_of_pos hword, List.dropWhile_append_of_pos hword]
  cases ys with
  | nil => simp
  | cons c ys => simp [hy c rfl]

end Text

namespace Literal

/-- A text between double quotes, with escapes. -/
def written (s : String) : List Char := '"' :: (Text.spell s.toList ++ ['"'])

theorem head?_written (s : String) : (written s).head? ≠ some '@' := by simp [written]

theorem read_written (s : String) : read (written s) = .ok (.text s) :=
  read_eq_text_iff.2 ⟨_, rfl, Text.spells_spell s.toList⟩

theorem closes_written (s : String) : Quoting.Closes (written s) :=
  ((Text.spells_spell s.toList).closes_iff (.inl rfl)).2 (Text.isSealed_spell s.toList)

end Literal

/-! ## Writing a line -/

namespace Line

theorem ofLine_of_isInstruction {line : List Char} (h : isInstruction line) :
    Statement.ofLine line = .instruction (mnemonic line) (operand line) (column line) := by
  obtain ⟨name, text, place, hline⟩ := isInstruction_iff.1 h
  obtain ⟨rfl, rfl, rfl⟩ := parts_of_ofLine hline
  exact hline

/-- What a line with a literal holds besides it: a mnemonic, the blanks in front and behind, and nothing or a comment at the
end. It is all one line. -/
structure Frame (op : Op) where
  before : List Char
  word : List Char
  between : List Char
  after : List Char
  comment : List Char
  word_op : Op.ofName? (String.ofList word) = some op
  before_blank : ∀ c ∈ before, Text.isBlank c
  between_ne_nil : between ≠ []
  between_blank : ∀ c ∈ between, Text.isBlank c
  after_blank : ∀ c ∈ after, Text.isBlank c
  comment_head : ∀ c ∈ comment.head?, c = ';'
  single : '\n' ∉ before ++ between ++ after ++ comment

namespace Frame

variable {op : Op} (f : Frame op) (s : String)

/-- The line with a text as its operand. -/
def line : List Char := f.before ++ f.word ++ f.between ++ Literal.written s ++ (f.after ++ f.comment)

theorem word_ne_nil : f.word ≠ [] := (Op.isAlpha_of_ofName? f.word_op).1

theorem line_ne_nil : f.line s ≠ [] := by simp [line, Literal.written]

theorem word_isAlpha : ∀ c ∈ f.word, c.isAlpha := (Op.isAlpha_of_ofName? f.word_op).2

theorem front_inert : ∀ c ∈ f.before ++ f.word ++ f.between, c ≠ ';' ∧ c ≠ '"' ∧ c ≠ '\'' := by
  intro c hc
  rcases List.mem_append.1 hc with hc | hc
  · rcases List.mem_append.1 hc with hc | hc
    · exact Text.inert_of_isBlank (f.before_blank c hc)
    · exact Text.inert_of_isAlpha (f.word_isAlpha c hc)
  · exact Text.inert_of_isBlank (f.between_blank c hc)

theorem stripComment_back : stripCommentFrom .outside (f.after ++ f.comment) = f.after := by
  have hafter : ∀ c ∈ f.after, c ≠ ';' ∧ c ≠ '"' ∧ c ≠ '\'' := fun c hc => Text.inert_of_isBlank (f.after_blank c hc)
  rw [Quoting.stripCommentFrom_append (Quoting.stripCommentFrom_outside hafter),
    Quoting.run_outside fun c hc => (hafter c hc).2]
  have hcomment := f.comment_head
  cases hc : f.comment with
  | nil => exact List.append_nil f.after
  | cons c rest =>
      cases hcomment c (by rw [hc]; rfl)
      exact List.append_nil f.after

theorem stripComment_line : stripComment (f.line s) = f.before ++ (f.word ++ f.between ++ Literal.written s) ++ f.after := by
  have hliteral : stripCommentFrom .outside (Literal.written s) = Literal.written s :=
    (Text.spells_spell s.toList).stripComment_eq (.inl rfl) (Text.isSealed_spell s.toList)
  rw [line, List.append_assoc (f.before ++ f.word ++ f.between), stripComment,
    Quoting.stripCommentFrom_append (Quoting.stripCommentFrom_outside f.front_inert),
    Quoting.run_outside fun c hc => (f.front_inert c hc).2, Quoting.stripCommentFrom_append hliteral,
    (Literal.closes_written s).1, f.stripComment_back]
  simp only [List.append_assoc]

/-- The mnemonic and the literal are what is left of the line. -/
theorem bare_line : bare (f.line s) = f.word ++ (f.between ++ Literal.written s) := by
  have hend : f.before ++ (f.word ++ f.between ++ Literal.written s) =
      (f.before ++ f.word ++ f.between ++ '"' :: Text.spell s.toList) ++ ['"'] := by
    simp only [Literal.written, List.append_assoc, List.cons_append]
  obtain ⟨c, rest, hword⟩ := List.exists_cons_of_ne_nil f.word_ne_nil
  have hc : Text.isBlank c = false := Text.isBlank_of_isAlpha (f.word_isAlpha c (by simp [hword]))
  rw [bare, stripComment_line, Text.trimRight_append f.after_blank, hend, Text.trimRight_concat (by decide), ← hend,
    Text.trimLeft_append f.before_blank, List.append_assoc, hword, List.cons_append, Text.trimLeft_cons hc]

theorem isInstruction_line : isInstruction (f.line s) := by
  obtain ⟨c, rest, hword⟩ := List.exists_cons_of_ne_nil f.word_ne_nil
  have hdot : c ≠ '.' := by
    rintro rfl
    exact absurd (f.word_isAlpha '.' (by simp [hword])) (by decide)
  have hlast : (bare (f.line s)).getLast? = some '"' := by
    rw [bare_line, Literal.written, ← List.cons_append, ← List.append_assoc, ← List.append_assoc, List.getLast?_concat]
  simp [isInstruction, hlast]
  simp [bare_line, hword, hdot]

theorem ofLine_line : Statement.ofLine (f.line s) = .instruction f.word (Literal.written s) (column (f.line s)) := by
  have hgap : ∀ c ∈ (f.between ++ Literal.written s).head?, Text.isBlank c := by
    obtain ⟨c, rest, hbetween⟩ := List.exists_cons_of_ne_nil f.between_ne_nil
    simp [hbetween, f.between_blank c (by simp [hbetween])]
  have hsplit := Text.splitWord_append (fun c hc => Text.isBlank_of_isAlpha (f.word_isAlpha c hc)) hgap
  have htrim : Text.trim (f.between ++ Literal.written s) = Literal.written s := by
    rw [Text.trim, Text.trimLeft_append f.between_blank, Literal.written, Text.trimLeft_cons (by decide), ← List.cons_append,
      Text.trimRight_concat (by decide)]
  rw [ofLine_of_isInstruction (f.isInstruction_line s), mnemonic, operand, bare_line, hsplit, htrim]

theorem newline_not_mem_line : '\n' ∉ f.line s := by
  have hword : '\n' ∉ f.word := fun h => absurd (f.word_isAlpha _ h) (by decide)
  have hliteral : '\n' ∉ Literal.written s := by
    simp [Literal.written, Text.newline_not_mem_spell]
  have hsingle := f.single
  simp only [line, List.mem_append, not_or] at hsingle ⊢
  exact ⟨⟨⟨⟨hsingle.1.1.1, hword⟩, hsingle.1.1.2⟩, hliteral⟩, hsingle.1.2, hsingle.2⟩

end Frame

end Line

/-! ## Whole sources -/

theorem Assembler.instruction_plain {a : Assembler} {n : Nat} {op : Op} {text : List Char} {operand : Operand}
    (htext : text.head? ≠ some '@') (hread : Literal.read text = .ok operand) (hfits : Literal.fits op.shape operand) :
    a.instruction n op text = .ok { a with builder := a.builder.emit op operand } := by
  unfold instruction
  split
  · exact absurd rfl htext
  · rw [hread]
    exact if_pos hfits

theorem Text.linesFrom_of_not_mem {cs current : List Char} (hne : current.reverse ++ cs ≠ []) (h : '\n' ∉ cs) :
    Text.linesFrom current cs = [current.reverse ++ cs] := by
  induction cs generalizing current with
  | nil =>
      cases current with
      | nil => exact absurd rfl hne
      | cons c current => simp [Text.linesFrom]
  | cons c cs ih =>
      rw [List.mem_cons, not_or] at h
      rw [Text.linesFrom, if_neg (Ne.symm h.1), ih (by simp) h.2]
      simp

theorem Text.lines_ofList {cs : List Char} (hne : cs ≠ []) (h : '\n' ∉ cs) :
    Text.lines (String.ofList cs) = [String.ofList cs] := by
  rw [Text.lines, String.toList_ofList, linesFrom_of_not_mem (by simpa using hne) h]
  rfl

/-- A draft of one instruction that takes any operand and knows its place. -/
theorem Builder.finish_single {b : Builder} {i : Instruction} {place : Place} (hshape : i.op.shape = .optionalValue)
    (hinstructions : b.instructions = #[i]) (hplaces : b.places = #[some place]) (hjumps : b.jumps = #[])
    (hfunctions : b.functions = #[]) (hclasses : b.classes = #[]) (hopen : b.openClass = none) :
    ∃ m, b.finish = .ok m ∧ m.tape.instructions = #[i] := by
  let m : CompiledModule :=
    { name := b.name, tape := { instructions := #[i], places := #[some place], sourceLines := b.sourceLines } }
  have hend : b.endClass = b := by rw [Builder.endClass, hopen]
  have hresolve : resolve b.labels b.jumps.toList b.instructions = .ok #[i] := by
    rw [hjumps, hinstructions]
    rfl
  have hkept : (if b.places.all Option.isNone then #[] else b.places) = #[some place] := by simp [hplaces]
  have hvalid : m.validate = .ok () := by
    have hflaw : i.flaw? 0 1 = none := by simp [Instruction.flaw?, hshape]
    simp [m, CompiledModule.validate, CompiledModule.flaw?, Tape.flaw?, Tape.size, Tape.flawFrom?, hflaw]
  refine ⟨m, ?_, rfl⟩
  unfold finish draft
  simp only [hend, hresolve, hkept, hfunctions, hclasses]
  exact congrArg (· >>= fun _ => .ok m) hvalid

namespace Source

/-- Every text has a literal. A line with the literal is taken as one instruction with the text as its operand, wherever it
stands, and makes up a source of its own. -/
theorem text_literal_round_trip {op : Op} (hshape : op.shape = .optionalValue) (f : Line.Frame op) (s : String) :
    (∀ (a : Assembler) (n : Nat), a.statement n (Statement.ofLine (f.line s)) =
      .ok { a with builder := (a.builder.locate n (Line.column (f.line s))).emit op (.text s) }) ∧
    ∀ name file, ∃ m, assemble name file (String.ofList (f.line s)) = .ok m ∧ m.tape.instructions = #[⟨op, .text s⟩] := by
  have htakes : ∀ (a : Assembler) (n : Nat), a.statement n (Statement.ofLine (f.line s)) =
      .ok { a with builder := (a.builder.locate n (Line.column (f.line s))).emit op (.text s) } := by
    intro a n
    have hfits : Literal.fits op.shape (.text s) := by rw [hshape]; rfl
    rw [f.ofLine_line, Assembler.statement, f.word_op]
    exact Assembler.instruction_plain (Literal.head?_written s) (Literal.read_written s) hfits
  refine ⟨htakes, fun name file => ?_⟩
  have hlines := Text.lines_ofList (f.line_ne_nil s) (f.newline_not_mem_line s)
  let start : Assembler := { builder := ({ name : Builder }.source (String.ofList (f.line s))) }
  let built : Builder := (start.builder.locate 1 (Line.column (f.line s))).emit op (.text s)
  have hrun : Assembler.lines file 1 (Text.lines (String.ofList (f.line s))) start = .ok { start with builder := built } := by
    rw [hlines, Assembler.lines, String.toList_ofList, htakes]
    rfl
  obtain ⟨m, hm, hinstructions⟩ := Builder.finish_single (b := built) hshape rfl rfl rfl rfl rfl rfl
  refine ⟨m, ?_, hinstructions⟩
  calc assemble name file (String.ofList (f.line s))
    _ = Assembler.lines file 1 (Text.lines (String.ofList (f.line s))) start >>= (·.finish file) := rfl
    _ = built.finish := by rw [hrun]; rfl
    _ = .ok m := hm

/-- Blanks on all sides, and a quote that is never closed in the comment. -/
def sampleFrame : Line.Frame .load where
  before := "  ".toList
  word := "Res".toList
  between := "\t ".toList
  after := " \t".toList
  comment := ";\"\\".toList
  word_op := by decide
  before_blank := List.all_eq_true.1 (by decide)
  between_ne_nil := by decide
  between_blank := List.all_eq_true.1 (by decide)
  after_blank := List.all_eq_true.1 (by decide)
  comment_head := by simp
  single := by decide

/-- All that has to be escaped, and what looks like a comment. -/
def sampleString : String := " ;\"'\\\r\n"

theorem text_literal_round_trip_quotes : Op.load.shape = .optionalValue ∧
    String.ofList (sampleFrame.line sampleString) = "  Res\t \" ;\\\"'\\\\\\r\\n\" \t;\"\\" ∧
    (∀ (a : Assembler) (n : Nat), a.statement n (Statement.ofLine (sampleFrame.line sampleString)) =
      .ok { a with builder :=
        (a.builder.locate n (Line.column (sampleFrame.line sampleString))).emit .load (.text sampleString) }) ∧
    ∀ name file, ∃ m, assemble name file (String.ofList (sampleFrame.line sampleString)) = .ok m ∧
      m.tape.instructions = #[⟨.load, .text sampleString⟩] :=
  ⟨rfl, by decide +kernel, text_literal_round_trip rfl sampleFrame sampleString⟩

end Source

end Spool
