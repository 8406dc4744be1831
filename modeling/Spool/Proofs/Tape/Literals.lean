import Spool.Proofs.Tape.Placement
import Spool.Text.Quoted

/-!
# Quoted operands

Where a literal ends is decided twice. The search for a comment follows the quotes from the left and counts an escaped one as
text; an operand is read by taking off the quotes at its two ends. The two agree on a literal just when no quote of its kind
stands in it without a backslash. So much is known of the text of a quoted operand in a source that is accepted, and every
text can be written as one.
-/

namespace Spool

namespace Quoting

variable {state : Quoting} {xs ys : List Char}

/-- Where the scan stands after some text. -/
def run (state : Quoting) (cs : List Char) : Quoting := cs.foldl next state

@[simp] theorem run_nil (state : Quoting) : state.run [] = state := rfl

@[simp] theorem run_cons (state : Quoting) (c : Char) (cs : List Char) : state.run (c :: cs) = (state.next c).run cs := rfl

theorem run_append (state : Quoting) (xs ys : List Char) : state.run (xs ++ ys) = (state.run xs).run ys :=
  List.foldl_append

/-- At some point of the text, its two ends included, the scan is outside quotes. -/
def Surfaces (state : Quoting) (cs : List Char) : Prop := ∃ p, p <+: cs ∧ state.run p = outside

/-- The text is quoted from its first character to its last: a scan that comes to it from outside is outside again at the
end, and not before. -/
def Closes (cs : List Char) : Prop :=
  outside.run cs = outside ∧ ∀ p, p <+: cs → p ≠ [] → outside.run p = outside → p = cs

theorem surfaces_outside (cs : List Char) : Surfaces outside cs := ⟨[], List.nil_prefix, rfl⟩

theorem surfaces_nil : Surfaces state [] ↔ state = outside := by
  simp [Surfaces]

theorem surfaces_cons {c : Char} : Surfaces state (c :: xs) ↔ state = outside ∨ Surfaces (state.next c) xs := by
  constructor
  · rintro ⟨p, hp, hrun⟩
    cases p with
    | nil => exact .inl hrun
    | cons d p =>
        obtain ⟨hd, hp⟩ := List.cons_prefix_cons.1 hp
        exact .inr ⟨p, hp, hd ▸ hrun⟩
  · rintro (rfl | ⟨p, hp, hrun⟩)
    · exact surfaces_outside _
    · exact ⟨c :: p, List.cons_prefix_cons.2 ⟨rfl, hp⟩, hrun⟩

theorem run_outside (h : ∀ c ∈ xs, c ≠ '"' ∧ c ≠ '\'') : outside.run xs = outside := by
  induction xs with
  | nil => rfl
  | cons c xs ih =>
      have hc := h c List.mem_cons_self
      simpa [next, hc] using ih fun d hd => h d (List.mem_cons_of_mem c hd)

/-! ## Comments -/

/-- A scan goes on behind text that holds no comment. -/
theorem stripCommentFrom_append (h : stripCommentFrom state xs = xs) :
    stripCommentFrom state (xs ++ ys) = xs ++ stripCommentFrom (state.run xs) ys := by
  fun_induction stripCommentFrom state xs with
  | case1 => rfl
  | case2 => cases h
  | case3 state c xs hcut ih =>
      rw [List.cons_append, stripCommentFrom.eq_3 _ _ _ hcut, ih (List.cons.inj h).2]
      rfl

theorem stripCommentFrom_outside (h : ∀ c ∈ xs, c ≠ ';' ∧ c ≠ '"' ∧ c ≠ '\'') : stripCommentFrom outside xs = xs := by
  induction xs with
  | nil => rfl
  | cons c xs ih =>
      obtain ⟨hcomment, hquotes⟩ := h c List.mem_cons_self
      have hrest := ih fun d hd => h d (List.mem_cons_of_mem c hd)
      rw [stripCommentFrom.eq_3 _ _ _ fun _ hc => hcomment hc]
      simp [next, hquotes, hrest]

theorem stripCommentFrom_of_not_surfaces (h : ¬ Surfaces state xs) : stripCommentFrom state xs = xs := by
  induction xs generalizing state with
  | nil => cases state <;> rfl
  | cons c xs ih =>
      rw [surfaces_cons, not_or] at h
      rw [stripCommentFrom.eq_3 _ _ _ fun hstate _ => h.1 hstate, ih h.2]

end Quoting

/-! ## Escapes -/

namespace Text

variable {body s : List Char} {quote : Char}

/-- What stands between the quotes of a literal, and the text it stands for: a backslash starts an escape, and any other
character stands for itself. -/
inductive Spells : List Char → List Char → Prop
  | nil : Spells [] []
  | plain {c : Char} {body s : List Char} (hc : c ≠ '\\') (h : Spells body s) : Spells (c :: body) (c :: s)
  | escape {c d : Char} {body s : List Char} (hc : escape? c = some d) (h : Spells body s) :
      Spells ('\\' :: c :: body) (d :: s)

/-- Each quote of a kind follows a backslash that escapes it. -/
def isSealed (quote : Char) : List Char → Bool
  | [] => true
  | '\\' :: _ :: rest => isSealed quote rest
  | c :: rest => c ≠ quote && isSealed quote rest

theorem unescape_plain {c : Char} (hc : c ≠ '\\') (rest : List Char) :
    unescape (c :: rest) = (unescape rest).map (c :: ·) := by
  rw [unescape]
  · exact fun _ _ h _ => hc h
  · exact fun h _ => hc h

theorem isSealed_plain {c : Char} (hc : c ≠ '\\') (rest : List Char) :
    isSealed quote (c :: rest) = (c ≠ quote && isSealed quote rest) := by
  rw [isSealed]
  exact fun _ _ h _ => hc h

theorem spells_of_unescape (h : unescape body = some s) : Spells body s := by
  fun_induction unescape body generalizing s with
  | case1 =>
      cases h
      exact .nil
  | case2 c rest ih =>
      obtain ⟨d, hd, h⟩ := Option.bind_eq_some_iff.1 h
      obtain ⟨s, hs, rfl⟩ := Option.map_eq_some_iff.1 h
      exact .escape hd (ih hs)
  | case3 => cases h
  | case4 c rest hescape hlast ih =>
      obtain ⟨s, hs, rfl⟩ := Option.map_eq_some_iff.1 h
      refine .plain (fun hc => ?_) (ih hs)
      cases rest with
      | nil => exact hlast hc rfl
      | cons d rest => exact hescape d rest hc rfl

theorem unescape_eq_some_iff : unescape body = some s ↔ Spells body s := by
  refine ⟨spells_of_unescape, fun h => ?_⟩
  induction h with
  | nil => rfl
  | plain hc _ ih => rw [unescape_plain hc, ih, Option.map_some]
  | escape hc _ ih => rw [unescape, hc, ih, Option.bind_some, Option.map_some]

/-- From inside a literal the scan comes out at the first quote that is not escaped. -/
theorem Spells.isSealed_iff (h : Spells body s) (hq : quote ≠ '\\') :
    isSealed quote body ↔ ¬ Quoting.Surfaces (.inside quote) body := by
  induction h with
  | nil => simp [isSealed, Quoting.surfaces_nil]
  | @plain c _ _ hc _ ih =>
      by_cases hcq : c = quote
      · subst hcq
        simp [isSealed_plain hc, Quoting.surfaces_cons, Quoting.next, hc, Quoting.surfaces_outside]
      · simp [isSealed_plain hc, Quoting.surfaces_cons, Quoting.next, hc, hcq, ih]
  | escape _ _ ih => simp [isSealed, Quoting.surfaces_cons, Quoting.next, ih]

theorem Spells.run_inside (h : Spells body s) (hsealed : isSealed quote body) :
    (Quoting.inside quote).run body = .inside quote := by
  induction h with
  | nil => rfl
  | plain hc _ ih =>
      rw [isSealed_plain hc, Bool.and_eq_true, decide_eq_true_eq] at hsealed
      rw [Quoting.run_cons, Quoting.next, if_neg hc, if_neg hsealed.1, ih hsealed.2]
  | escape _ _ ih => exact ih hsealed

/-- The two readers agree on a literal just when no bare quote stands inside. -/
theorem Spells.closes_iff (h : Spells body s) (hq : quote = '"' ∨ quote = '\'') :
    Quoting.Closes (quote :: (body ++ [quote])) ↔ isSealed quote body := by
  have hbackslash : quote ≠ '\\' := by rcases hq with rfl | rfl <;> decide
  have hopen : Quoting.outside.next quote = .inside quote := if_pos (by simpa using hq)
  rw [h.isSealed_iff hbackslash]
  constructor
  · rintro ⟨_, hfirst⟩ ⟨p, hp, hrun⟩
    have hwhole := hfirst (quote :: p) (List.cons_prefix_cons.2 ⟨rfl, hp.trans (List.prefix_append _ _)⟩)
      (List.cons_ne_nil _ _) (by rw [Quoting.run_cons, hopen, hrun])
    rw [(List.cons.inj hwhole).2] at hp
    exact absurd hp.length_le (by simp)
  · intro hin
    refine ⟨?_, fun p hp hne hrun => ?_⟩
    · rw [Quoting.run_cons, hopen, Quoting.run_append, h.run_inside ((h.isSealed_iff hbackslash).2 hin)]
      simp [Quoting.next, hbackslash]
    · cases p with
      | nil => exact absurd rfl hne
      | cons c p =>
          obtain ⟨rfl, hp⟩ := List.cons_prefix_cons.1 hp
          rcases List.prefix_concat_iff.1 hp with rfl | hp
          · rfl
          · rw [Quoting.run_cons, hopen] at hrun
            exact absurd ⟨p, hp, hrun⟩ hin

/-- No comment starts in a literal without bare quotes. -/
theorem Spells.stripComment_eq (h : Spells body s) (hq : quote = '"' ∨ quote = '\'') (hsealed : isSealed quote body) :
    stripComment (quote :: (body ++ [quote])) = quote :: (body ++ [quote]) := by
  have hbackslash : quote ≠ '\\' := by rcases hq with rfl | rfl <;> decide
  have hcomment : quote ≠ ';' := by rcases hq with rfl | rfl <;> decide
  have hopen : Quoting.outside.next quote = .inside quote := if_pos (by simpa using hq)
  have hbody := Quoting.stripCommentFrom_of_not_surfaces ((h.isSealed_iff hbackslash).1 hsealed)
  rw [stripComment, stripCommentFrom.eq_3 _ _ _ fun _ => hcomment, hopen, Quoting.stripCommentFrom_append hbody,
    h.run_inside hsealed, stripCommentFrom.eq_3 _ _ _ fun _ => hcomment, stripCommentFrom.eq_1]

end Text

/-! ## Mnemonics -/

theorem Text.isBlank_of_isAlpha {c : Char} (h : c.isAlpha) : Text.isBlank c = false := by
  have hupper (hc : c.isUpper) : 65 ≤ c.toNat ∧ c.toNat ≤ 90 := of_decide_eq_true hc
  have hlower (hc : c.isLower) : 97 ≤ c.toNat ∧ c.toNat ≤ 122 :=
    (Bool.and_eq_true_iff.1 hc).imp (fun h => of_decide_eq_true h) fun h => of_decide_eq_true h
  have hcode := (Bool.or_eq_true_iff.1 h).imp hupper hlower
  simp only [Text.isBlank, Bool.or_eq_false_iff, Bool.and_eq_false_iff, decide_eq_false_iff_not]
  omega

/-- A mnemonic consists of letters. -/
theorem Op.isAlpha_of_ofName? {word : List Char} {op : Op} (h : Op.ofName? (String.ofList word) = some op) :
    word ≠ [] ∧ ∀ c ∈ word, c.isAlpha := by
  have hname : op.name.toList = word.map Char.toLower := by
    simpa using List.find?_some h
  have hlower : op.name.toList ≠ [] ∧ op.name.toList.all Char.isLower := by
    cases op <;> decide
  rw [hname] at hlower
  refine ⟨fun hnil => hlower.1 (by rw [hnil, List.map_nil]), fun c hc => ?_⟩
  have hc := List.all_eq_true.1 hlower.2 c.toLower (List.mem_map_of_mem hc)
  refine Bool.or_eq_true_iff.2 ?_
  unfold Char.toLower at hc
  split at hc
  · rename_i hupper
    exact .inl (decide_eq_true hupper)
  · exact .inr hc

theorem Text.inert_of_isBlank {c : Char} (h : Text.isBlank c) : c ≠ ';' ∧ c ≠ '"' ∧ c ≠ '\'' := by
  refine ⟨?_, ?_, ?_⟩ <;> rintro rfl <;> exact absurd h (by decide)

theorem Text.inert_of_isAlpha {c : Char} (h : c.isAlpha) : c ≠ ';' ∧ c ≠ '"' ∧ c ≠ '\'' := by
  refine ⟨?_, ?_, ?_⟩ <;> rintro rfl <;> exact absurd h (by decide)

theorem Text.exists_append_trimLeft (cs : List Char) :
    ∃ lead, cs = lead ++ Text.trimLeft cs ∧ ∀ c ∈ lead, Text.isBlank c :=
  ⟨cs.takeWhile Text.isBlank, List.takeWhile_append_dropWhile.symm, List.all_eq_true.1 List.all_takeWhile⟩

/-! ## Reading a literal -/

namespace Literal

variable {text : List Char}

theorem body?_eq_some {quote : Char} {rest body : List Char} : body? quote rest = some body ↔ rest = body ++ [quote] := by
  unfold body?
  constructor
  · intro h
    split at h
    · rename_i c inner hrev
      split at h
      · rename_i hc
        cases h
        simpa [hc] using congrArg List.reverse hrev
      · cases h
    · cases h
  · rintro rfl
    simp

theorem readNumber_ne_quoted {s : String} {b : Int8} :
    readNumber text ≠ .ok (.text s) ∧ readNumber text ≠ .ok (.scalar (.char b)) := by
  unfold readNumber
  split
  · simp
  · split <;> simp

/-- A quoted text reads as what it spells. -/
theorem read_eq_text_iff {s : String} :
    read text = .ok (.text s) ↔ ∃ body, text = '"' :: (body ++ ['"']) ∧ Text.Spells body s.toList := by
  constructor
  · intro h
    unfold read at h
    split at h
    · cases h
    · unfold readText at h
      split at h
      · cases h
      · rename_i body hbody
        split at h
        · rename_i cs hcs
          cases h
          exact ⟨body, by rw [body?_eq_some.1 hbody], by simpa using Text.unescape_eq_some_iff.1 hcs⟩
        · cases h
    · unfold readChar at h
      repeat' split at h
      all_goals cases h
    · split at h
      · exact absurd h (readNumber_ne_quoted (b := 0)).1
      · split at h <;> cases h
  · rintro ⟨body, rfl, hs⟩
    simp [read, readText, body?_eq_some.2 rfl, Text.unescape_eq_some_iff.2 hs]

/-- A quoted character is one byte. -/
theorem read_eq_char_iff {b : Int8} : read text = .ok (.scalar (.char b)) ↔
    ∃ body c, text = '\'' :: (body ++ ['\'']) ∧ Text.Spells body [c] ∧ c.toNat < 128 ∧ b = c.toNat.toUInt8.toInt8 := by
  constructor
  · intro h
    unfold read at h
    split at h
    · cases h
    · unfold readText at h
      repeat' split at h
      all_goals cases h
    · unfold readChar at h
      split at h
      · cases h
      · rename_i body hbody
        split at h
        · cases h
        · rename_i c hc
          split at h
          · rename_i hascii
            cases h
            exact ⟨body, c, by rw [body?_eq_some.1 hbody], Text.unescape_eq_some_iff.1 hc, hascii, rfl⟩
          · cases h
        · cases h
    · split at h
      · exact absurd h (readNumber_ne_quoted (s := "")).2
      · split at h <;> cases h
  · rintro ⟨body, c, rfl, hc, hascii, rfl⟩
    simp [read, readChar, body?_eq_some.2 rfl, Text.unescape_eq_some_iff.2 hc, hascii]

/-- What starts as a label does is no literal. -/
theorem read_at (target : List Char) (operand : Operand) : read ('@' :: target) ≠ .ok operand := by
  have hid : isIdentifier ('@' :: target) = false := by simp [isIdentifier, isIdentifierStart]
  simp [read, hid]

end Literal

/-! ## Operands in their lines -/

namespace Line

/-- The mnemonic and the operand stand in the line with blanks in front. -/
theorem operand_in_line (line : List Char) : ∃ lead gap rest,
    line = lead ++ mnemonic line ++ gap ++ (operand line ++ rest) ∧
      (∀ c ∈ lead, Text.isBlank c) ∧ ∀ c ∈ gap, Text.isBlank c := by
  obtain ⟨cut, hcut⟩ := (Text.trimRight_isPrefix (stripComment line)).trans (stripCommentFrom_isPrefix .outside line)
  obtain ⟨lead, hlead, hleadBlank⟩ := Text.exists_append_trimLeft (Text.trimRight (stripComment line))
  obtain ⟨gap, hgap, hgapBlank⟩ := Text.exists_append_trimLeft (Text.splitWord (bare line)).2
  obtain ⟨tail, htail⟩ := Text.trimRight_isPrefix (Text.trimLeft (Text.splitWord (bare line)).2)
  have hword : mnemonic line ++ (Text.splitWord (bare line)).2 = bare line := List.takeWhile_append_dropWhile
  refine ⟨lead, gap, tail ++ cut, ?_, hleadBlank, hgapBlank⟩
  calc line
    _ = Text.trimRight (stripComment line) ++ cut := hcut.symm
    _ = lead ++ bare line ++ cut := congrArg (· ++ cut) hlead
    _ = lead ++ (mnemonic line ++ (Text.splitWord (bare line)).2) ++ cut := by rw [hword]
    _ = lead ++ (mnemonic line ++ (gap ++ (operand line ++ tail))) ++ cut := by
      rw [operand, Text.trim, htail]
      exact congrArg (fun rest => lead ++ (mnemonic line ++ rest) ++ cut) hgap
    _ = lead ++ mnemonic line ++ gap ++ (operand line ++ (tail ++ cut)) := by simp only [List.append_assoc]

/-- The operand of a line stands between two quotes and is the spelling of a text. A scan of the line comes to the first
quote from outside, and it leaves the literal at the last one, and not before, just when no quote in between is bare. -/
def Quotes (quote : Char) (line s : List Char) : Prop :=
  ∃ front body rest, line = front ++ (operand line ++ rest) ∧ Quoting.outside.run front = .outside ∧
    operand line = quote :: (body ++ [quote]) ∧ Text.Spells body s ∧ (Quoting.Closes (operand line) ↔ Text.isSealed quote body)

/-- Only blanks and a mnemonic stand in front of an operand. -/
theorem quotes_iff {op : Op} {line s : List Char} {quote : Char} (hop : Op.ofName? (String.ofList (mnemonic line)) = some op)
    (hq : quote = '"' ∨ quote = '\'') :
    Quotes quote line s ↔ ∃ body, operand line = quote :: (body ++ [quote]) ∧ Text.Spells body s := by
  constructor
  · rintro ⟨_, body, _, _, _, hoperand, hs, _⟩
    exact ⟨body, hoperand, hs⟩
  · rintro ⟨body, hoperand, hs⟩
    obtain ⟨lead, gap, rest, hline, hlead, hgap⟩ := operand_in_line line
    refine ⟨lead ++ mnemonic line ++ gap, body, rest, hline, Quoting.run_outside fun c hc => ?_, hoperand, hs,
      hoperand ▸ hs.closes_iff hq⟩
    rcases List.mem_append.1 hc with hc | hc
    · rcases List.mem_append.1 hc with hc | hc
      · exact (Text.inert_of_isBlank (hlead c hc)).2
      · exact (Text.inert_of_isAlpha ((Op.isAlpha_of_ofName? hop).2 c hc)).2
    · exact (Text.inert_of_isBlank (hgap c hc)).2

end Line

namespace Source

variable {lines : List (List Char)} {m : CompiledModule} {name file source : String} {k : Nat} {line : List Char}
  {i : Instruction}

/-- An operand that is no number is read from its line. -/
theorem Placed.operand_eq_iff (hp : Placed lines m) (hk : lines[k]? = some line) (hline : Line.isInstruction line)
    (hi : m.tape.instructions[position lines k]? = some i) {operand : Operand} (hnumber : ∀ n, operand ≠ .scalar (.int n)) :
    i.operand = operand ↔ Literal.read (Line.operand line) = .ok operand := by
  obtain ⟨i', hi', _, _, hread, haims⟩ := hp.instructions.row (List.getElem?_eq_some_iff.1 hk).1 hk hline
  cases hi'.symm.trans hi
  by_cases hat : (Line.operand line).head? = some '@'
  · obtain ⟨target, htarget⟩ := List.head?_eq_some_iff.1 hat
    obtain ⟨_, _, _, _, hjump⟩ := (haims (String.ofList target) (by simpa using htarget)).aim
    rw [htarget, hjump]
    exact ⟨fun h => absurd h.symm (hnumber _), fun h => absurd h (Literal.read_at target operand)⟩
  · rw [hread hat, Except.ok.injEq]

/-- An instruction has a text or a character for its operand when it is written with quotes at both ends and what stands
between spells the text or the character. A bare quote there is taken as a part of it, although a scan of the line leaves the
literal at that quote. -/
theorem quoted_operands (h : assemble name file source = .ok m) (hk : (linesOf source)[k]? = some line)
    (hline : Line.isInstruction line) (hi : m.tape.instructions[position (linesOf source) k]? = some i) :
    (∀ s, i.operand = .text s ↔ Line.Quotes '"' line s.toList) ∧
      ∀ b, i.operand = .scalar (.char b) ↔ ∃ c, c.toNat < 128 ∧ b = c.toNat.toUInt8.toInt8 ∧ Line.Quotes '\'' line [c] := by
  have hp := placed_of_assemble h
  obtain ⟨i', hi', hop, _⟩ := hp.instructions.row (List.getElem?_eq_some_iff.1 hk).1 hk hline
  cases hi'.symm.trans hi
  constructor
  · intro s
    rw [hp.operand_eq_iff hk hline hi (by simp), Literal.read_eq_text_iff, Line.quotes_iff hop (.inl rfl)]
  · intro b
    rw [hp.operand_eq_iff hk hline hi (by simp), Literal.read_eq_char_iff]
    simp only [Line.quotes_iff hop (.inr rfl)]
    constructor
    · rintro ⟨body, c, hoperand, hc, hascii, hbyte⟩
      exact ⟨c, hascii, hbyte, body, hoperand, hc⟩
    · rintro ⟨c, hascii, hbyte, body, hoperand, hc⟩
      exact ⟨body, c, hoperand, hc, hascii, hbyte⟩

theorem exists_instruction (name file : String) (haccepted : (assemble name file source).toOption.isSome)
    (hk : (linesOf source)[k]? = some line) (hline : Line.isInstruction line) :
    ∃ m i, assemble name file source = .ok m ∧ m.tape.instructions[position (linesOf source) k]? = some i := by
  cases hm : assemble name file source with
  | error e =>
      rw [hm] at haccepted
      cases haccepted
  | ok m =>
      obtain ⟨i, hi, _⟩ := (placed_of_assemble hm).instructions.row (List.getElem?_eq_some_iff.1 hk).1 hk hline
      exact ⟨m, i, rfl, hi⟩

/-- Quotes and semicolons in literals, and a comment with both. -/
def quotedText : String := "res \"a;\\\"b\" ; it's \"c\n push ';'"

theorem quoted_operands_semicolon : ∃ m i, assemble "main" "main.rasm" quotedText = .ok m ∧
    (linesOf quotedText)[1]? = some " push ';'".toList ∧ Line.isInstruction " push ';'".toList ∧
    m.tape.instructions[position (linesOf quotedText) 1]? = some i ∧
    (∀ s, i.operand = .text s ↔ Line.Quotes '"' " push ';'".toList s.toList) ∧
      ∀ b, i.operand = .scalar (.char b) ↔
        ∃ c, c.toNat < 128 ∧ b = c.toNat.toUInt8.toInt8 ∧ Line.Quotes '\'' " push ';'".toList [c] := by
  have hk : (linesOf quotedText)[1]? = some " push ';'".toList := by decide +kernel
  have hline : Line.isInstruction " push ';'".toList := by decide +kernel
  obtain ⟨m, i, hm, hi⟩ := exists_instruction "main" "main.rasm" (by decide +kernel) hk hline
  exact ⟨m, i, hm, hk, hline, hi, quoted_operands hm hk hline hi⟩

/-- Two literals in a row. -/
def adjacentText : String := "res \"a\" \"b\""

/-- The quotes in the middle are not escaped, and the two literals are read as one. -/
theorem adjacent_literals_join : ∃ m i, assemble "main" "main.rasm" adjacentText = .ok m ∧
    (linesOf adjacentText)[0]? = some adjacentText.toList ∧ Line.isInstruction adjacentText.toList ∧
    m.tape.instructions[position (linesOf adjacentText) 0]? = some i ∧ i.operand = .text "a\" \"b" ∧
    Line.operand adjacentText.toList = '"' :: ("a\" \"b".toList ++ ['"']) ∧
    ¬ Text.isSealed '"' "a\" \"b".toList ∧ ¬ Quoting.Closes (Line.operand adjacentText.toList) := by
  have hk : (linesOf adjacentText)[0]? = some adjacentText.toList := by decide +kernel
  have hline : Line.isInstruction adjacentText.toList := by decide +kernel
  have hoperand : Line.operand adjacentText.toList = '"' :: ("a\" \"b".toList ++ ['"']) := by decide +kernel
  have hspells : Text.Spells "a\" \"b".toList "a\" \"b".toList := Text.unescape_eq_some_iff.1 (by decide +kernel)
  have hbare : ¬ Text.isSealed '"' "a\" \"b".toList := by decide +kernel
  obtain ⟨m, i, hm, hi⟩ := exists_instruction "main" "main.rasm" (by decide +kernel) hk hline
  refine ⟨m, i, hm, hk, hline, hi, ?_, hoperand, hbare, ?_⟩
  · exact ((placed_of_assemble hm).operand_eq_iff hk hline hi (by simp)).2 (Literal.read_eq_text_iff.2 ⟨_, hoperand, hspells⟩)
  · rwa [hoperand, hspells.closes_iff (.inl rfl)]

end Source

end Spool
