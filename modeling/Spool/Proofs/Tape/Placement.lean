import Mathlib.Data.List.Nodup
import Spool.Proofs.Tape.Layout

/-!
# What an assembled module looks like

Once all lines have been taken in, the class that is still open ends with the source and the jumps are filled in. Everything
then stands where its line says. A source whose labels do not fit together is refused, with the line at fault.
-/

namespace Spool

theorem Instruction.jump_in_range {i : Instruction} {position size : Nat} {offset : Int64} (hf : i.flaw? position size = none)
    (hjump : i.op.isJump) (hoperand : i.operand = .scalar (.int offset)) :
    0 ≤ (position : Int) + offset.toInt ∧ (position : Int) + offset.toInt ≤ size := by
  have hshape : i.op.shape = .offset := by
    unfold Op.isJump at hjump
    split at hjump <;> simp_all [Op.shape]
  unfold flaw? at hf
  simp only [hshape, hoperand, Operand.int?, Scalar.toInt?, hjump, if_true] at hf
  split at hf
  · cases hf
  · split at hf
    · cases hf
    · rename_i hrange
      simpa [not_or, Int.not_lt] using hrange

/-- A finished module has no flaws, and of the draft it keeps all but the offsets of the jumps. -/
theorem Builder.finish_eq_ok {b : Builder} {m : CompiledModule} (h : b.finish = .ok m) :
    resolve b.labels b.jumps.toList b.instructions = .ok m.tape.instructions ∧
      m.tape.places = (if b.places.all Option.isNone then #[] else b.places) ∧ m.functions = b.functions ∧
      m.classes = b.endClass.classes ∧ m.tape.flaw? = none := by
  obtain ⟨classes, hb⟩ := Source.endClass_frame b
  unfold Builder.finish Builder.draft at h
  obtain ⟨_, hdraft, h⟩ := ok_of_bind h
  obtain ⟨_, hvalid, h⟩ := ok_of_bind h
  cases h
  obtain ⟨instructions, hresolve, hdraft⟩ := ok_of_bind hdraft
  cases hdraft
  rw [hb] at hresolve hvalid ⊢
  exact ⟨hresolve, rfl, rfl, rfl, (CompiledModule.of_validate _ hvalid).1⟩

namespace Source

variable {lines : List (List Char)} {line : List Char} {a : Assembler} {m : CompiledModule}

/-- The lines of a source. -/
def linesOf (source : String) : List (List Char) := (Text.lines source).map String.toList

/-- The operand of a jump leads from its own line to the one line that defines the label, and so stays on the tape. -/
structure Aims (lines : List (List Char)) (k : Nat) (target : String) (size : Nat) (operand : Operand) : Prop where
  aim : ∃ j, Defines lines j target ∧ (∀ i, Defines lines i target → i = j) ∧ position lines j ≤ size ∧
    operand = .scalar (.int (Int64.ofInt ((position lines j : Int) - position lines k)))
  within : ∀ offset, operand = .scalar (.int offset) →
    0 ≤ (position lines k : Int) + offset.toInt ∧ (position lines k : Int) + offset.toInt ≤ size

/-- Everything stands on the tape where its line says. -/
structure Placed (lines : List (List Char)) (m : CompiledModule) : Prop where
  instructions : Fills Line.isInstruction lines lines.length m.tape.instructions fun k line i =>
    Op.ofName? (String.ofList (Line.mnemonic line)) = some i.op ∧
      m.tape.place? (position lines k) = some ⟨(k + 1).toUInt32, (Line.column line).toUInt32⟩ ∧
      ((Line.operand line).head? ≠ some '@' → Literal.read (Line.operand line) = .ok i.operand) ∧
      ∀ target : String, Line.operand line = '@' :: target.toList → Aims lines k target m.tape.size i.operand
  functions : Fills (Line.isDirective "func") lines lines.length m.functions fun k line f =>
    Line.Declares line f ∧ f.start = position lines k ∧ ∀ name, f.owner = some name ↔ InClass lines k name
  classes : Fills (Line.isDirective "class") lines lines.length m.classes fun k line c =>
    Line.Opens line c ∧ c.start = position lines k ∧ c.stop = position lines (classEnd lines k)
  apart : ∀ {j k}, j < k → Has (Line.isDirective "class") lines j → Has (Line.isDirective "class") lines k →
    classEnd lines j < k
  ends : ∀ {e}, Has (Line.isDirective "end") lines e → ∃ k < e, Has (Line.isDirective "class") lines k ∧ classEnd lines k = e

theorem lt_length_of_has {kind : List Char → Bool} {k : Nat} (h : Has kind lines k) : k < lines.length := by
  obtain ⟨line, hline, _⟩ := h
  exact (List.getElem?_eq_some_iff.1 hline).1

theorem lt_length_of_defines {k : Nat} {name : String} (h : Defines lines k name) : k < lines.length := by
  obtain ⟨line, hline, _⟩ := h
  exact (List.getElem?_eq_some_iff.1 hline).1

/-! ## Jumps -/

/-- No two jumps stand at one position. -/
theorem Labelled.nodup_jumps {n : Nat} (hl : Labelled lines n a) : (a.builder.jumps.toList.map Prod.fst).Nodup := by
  refine List.nodup_iff_getElem?_ne_getElem?.2 fun i j hij hj heq => ?_
  rw [List.length_map, Array.length_toList] at hj
  obtain ⟨_, hi'⟩ : ∃ r, a.builder.jumps[i]? = some r := ⟨_, Array.getElem?_eq_getElem (Nat.lt_trans hij hj)⟩
  obtain ⟨_, hj'⟩ : ∃ r, a.builder.jumps[j]? = some r := ⟨_, Array.getElem?_eq_getElem hj⟩
  simp only [List.getElem?_map, Array.getElem?_toList, hi', hj', Option.map_some, Option.some.injEq] at heq
  obtain ⟨k, line, _, hk, hjump, rfl, hpos, _⟩ := hl.jumps.exists_line hi'
  obtain ⟨k', line', _, hk', hjump', rfl, hpos', _⟩ := hl.jumps.exists_line hj'
  simp only [Line.isJump, Bool.and_eq_true] at hjump hjump'
  have hsame : k = k' := eq_of_above_eq hk hk' hjump.1 hjump'.1 (hpos.symm.trans (heq.trans hpos'))
  subst hsame
  exact Nat.lt_irrefl _ hij

/-- Where a jump stands it is an instruction that is written with a label. -/
theorem Labelled.isJump_of_mem {n k : Nat} (hl : Labelled lines n a) (hk : lines[k]? = some line)
    (hline : Line.isInstruction line) (hmem : position lines k ∈ a.builder.jumps.toList.map Prod.fst) : Line.isJump line := by
  obtain ⟨r, hr, hpos⟩ := List.mem_map.1 hmem
  obtain ⟨i, hi⟩ := List.getElem?_of_mem hr
  obtain ⟨k', line', _, hk', hjump, _, hpos', _⟩ := hl.jumps.exists_line (by simpa using hi)
  have hinstruction : Line.isInstruction line' := by
    simp only [Line.isJump, Bool.and_eq_true] at hjump
    exact hjump.1
  have hsame : k' = k := eq_of_above_eq hk' hk hinstruction hline (hpos'.symm.trans hpos)
  subst hsame
  cases hk'.symm.trans hk
  exact hjump

/-- A filled-in jump leads to the line that defines its label. -/
theorem Taken.aim (ht : Taken lines lines.length a) (hused : ∀ use ∈ a.used, use.1 ∈ a.defined) {out : Array Instruction}
    (hresolve : Builder.resolve a.builder.labels a.builder.jumps.toList a.builder.instructions = .ok out) {k : Nat}
    (hk : lines[k]? = some line) (hline : Line.isInstruction line) {target : String}
    (htarget : Line.operand line = '@' :: target.toList) : ∃ i j, out[position lines k]? = some i ∧ Line.Writes line i ∧
      Defines lines j target ∧ i.operand = .scalar (.int (Int64.ofInt ((position lines j : Int) - position lines k))) := by
  have hlt : k < lines.length := (List.getElem?_eq_some_iff.1 hk).1
  have hjump : Line.isJump line := by simp [Line.isJump, hline, htarget]
  have hname : ∀ {name : String}, Line.operand line = '@' :: name.toList → name = target := fun h =>
    String.toList_inj.1 (List.cons.inj (h.symm.trans htarget)).2
  obtain ⟨use, huse, huse', _⟩ := ht.labelled.used.row hlt hk hjump
  obtain ⟨j, hj, hdefines⟩ := ht.labelled.defined.1 (hname huse' ▸ hused use (Array.mem_of_getElem? huse))
  obtain ⟨⟨_, label⟩, hr, rfl, target', htarget', hlabel⟩ := ht.labelled.jumps.row hlt hk hjump
  cases hname htarget'
  obtain ⟨_, _, hjumps⟩ := Builder.resolve_eq_ok ht.labelled.nodup_jumps hresolve
  obtain ⟨t, ht', hout⟩ := hjumps (position lines k) label (Array.mem_toList_iff.2 (Array.mem_of_getElem? hr))
  have hbound := ht.labelled.bound hj hdefines
  rw [Assembler.bound?, hlabel, Option.bind_some, ht', Option.join_some, Option.some.injEq] at hbound
  subst hbound
  obtain ⟨i, hi, hop, hwrites, _⟩ := ht.coded.instructions.row hlt hk hline
  exact ⟨_, j, hout.trans (congrArg _ hi), ⟨hop, hwrites, fun h => absurd (by simp [htarget]) h⟩, hdefines, rfl⟩

/-- What is no jump is left as it is. -/
theorem Taken.unaimed (ht : Taken lines lines.length a) {out : Array Instruction}
    (hresolve : Builder.resolve a.builder.labels a.builder.jumps.toList a.builder.instructions = .ok out) {k : Nat}
    (hk : lines[k]? = some line) (hline : Line.isInstruction line) (hjump : (Line.operand line).head? ≠ some '@') :
    ∃ i, out[position lines k]? = some i ∧ Line.Writes line i := by
  obtain ⟨_, hothers, _⟩ := Builder.resolve_eq_ok ht.labelled.nodup_jumps hresolve
  obtain ⟨i, hi, hwrites⟩ := ht.coded.instructions.row (List.getElem?_eq_some_iff.1 hk).1 hk hline
  refine ⟨i, (hothers _ fun hmem => hjump ?_).trans hi, hwrites⟩
  have := ht.labelled.isJump_of_mem hk hline hmem
  simp only [Line.isJump, Bool.and_eq_true, decide_eq_true_eq] at this
  exact this.2

/-! ## The finished module -/

/-- The place of an instruction is that of its line. -/
theorem Taken.place (ht : Taken lines lines.length a) (hplaces : m.tape.places =
    if a.builder.places.all Option.isNone then #[] else a.builder.places) {k : Nat} (hk : lines[k]? = some line)
    (hline : Line.isInstruction line) : m.tape.place? (position lines k) = some ⟨(k + 1).toUInt32, (Line.column line).toUInt32⟩ := by
  obtain ⟨place, hplace, rfl⟩ := ht.coded.places.row (List.getElem?_eq_some_iff.1 hk).1 hk hline
  have hsome : ¬ a.builder.places.all Option.isNone := by
    rw [Array.all_eq_true']
    intro hall
    have := hall _ (Array.mem_of_getElem? hplace)
    simp at this
  rw [Tape.place?, hplaces, if_neg hsome]
  exact congrArg Option.join hplace

theorem Taken.used_defined (h : a.finish file = .ok m) : (∀ use ∈ a.used, use.1 ∈ a.defined) ∧ a.builder.finish = .ok m := by
  unfold Assembler.finish at h
  split at h
  · cases h
  · rename_i hnone
    refine ⟨fun use huse => ?_, h⟩
    have := Array.find?_eq_none.1 hnone use huse
    simpa using this

/-- The check of the finished tape says that the offset does not lead off it. -/
theorem Taken.aims (ht : Taken lines lines.length a) (hused : ∀ use ∈ a.used, use.1 ∈ a.defined)
    (hresolve : Builder.resolve a.builder.labels a.builder.jumps.toList a.builder.instructions = .ok m.tape.instructions)
    (hflaw : m.tape.flaw? = none) {k : Nat} (hk : lines[k]? = some line) (hline : Line.isInstruction line) {target : String}
    (htarget : Line.operand line = '@' :: target.toList) :
    ∃ i, m.tape.instructions[position lines k]? = some i ∧ Line.Writes line i ∧ Aims lines k target m.tape.size i.operand := by
  obtain ⟨i, j, hi, hwrites, hdefines, hoperand⟩ := ht.aim hused hresolve hk hline htarget
  have hsize : m.tape.size = position lines lines.length :=
    (Builder.resolve_eq_ok ht.labelled.nodup_jumps hresolve).1.trans ht.coded.instructions.size
  have hj := lt_length_of_defines hdefines
  refine ⟨i, hi, hwrites, ⟨j, hdefines, fun j' hd => ?_, ?_, hoperand⟩, fun offset hoffset => ?_⟩
  · exact ht.labelled.once (lt_length_of_defines hd) hj hd hdefines
  · rw [hsize]
    exact above_le_above (Nat.le_of_lt hj)
  · exact Instruction.jump_in_range (Tape.flaw?_of_getElem? hflaw hi) (hwrites.jump (by simp [htarget])) hoffset

theorem Taken.placed {file : String} (ht : Taken lines lines.length a) (h : a.finish file = .ok m) : Placed lines m := by
  obtain ⟨hused, hfinish⟩ := used_defined h
  obtain ⟨hresolve, hplaces, hfunctions, hclasses, hflaw⟩ := Builder.finish_eq_ok hfinish
  constructor
  case instructions =>
    refine ⟨(Builder.resolve_eq_ok ht.labelled.nodup_jumps hresolve).1.trans ht.coded.instructions.size,
      fun {k line} _ hk hline => ?_⟩
    have hplace := ht.place hplaces hk hline
    by_cases hat : (Line.operand line).head? = some '@'
    · obtain ⟨rest, hrest⟩ := List.head?_eq_some_iff.1 hat
      have htarget : Line.operand line = '@' :: (String.ofList rest).toList := by simpa using hrest
      obtain ⟨i, hi, hwrites, haims⟩ := ht.aims hused hresolve hflaw hk hline htarget
      refine ⟨i, hi, hwrites.op, hplace, fun h => absurd hat h, fun target htarget' => ?_⟩
      cases String.toList_inj.1 (List.cons.inj (htarget'.symm.trans htarget)).2
      exact haims
    · obtain ⟨i, hi, hwrites⟩ := ht.unaimed hresolve hk hline hat
      exact ⟨i, hi, hwrites.op, hplace, fun _ => (hwrites.operand hat).1, fun _ htarget => absurd (by simp [htarget]) hat⟩
  case functions => exact hfunctions ▸ ht.grouped.functions
  case classes =>
    rw [hclasses]
    refine (ht.grouped.stops ht.coded.instructions.size).mono fun {k _ _} _ _ _ ⟨hopens, hstart, hstop⟩ =>
      ⟨hopens, hstart, hstop.trans ?_⟩
    rcases Nat.le_total (classEnd lines k) lines.length with hle | hle
    · rw [Nat.min_eq_left hle]
    · rw [Nat.min_eq_right hle]
      exact (above_of_length_le hle).symm
  case apart =>
    intro j k hjk hj hk
    exact ht.grouped.apart hjk (lt_length_of_has hk) hj hk
  case ends =>
    intro e he
    exact ht.grouped.ends (lt_length_of_has he) he

/-! ## Refusals -/

/-- Where the lines are left off, all lines above have been taken in. -/
theorem Taken.refused {file : String} {e : HostError} : ∀ {rest : List String} {n : Nat} {a : Assembler}, Taken lines n a →
    lines.drop n = rest.map String.toList → Assembler.lines file (n + 1) rest a = .error e →
    ∃ k line a cause, lines[k]? = some line ∧ Taken lines k a ∧ a.statement (k + 1) (Statement.ofLine line) = .error cause ∧
      e = .assembly file (k + 1) cause := by
  intro rest
  induction rest with
  | nil =>
      intro n a _ _ h
      cases h
  | cons text rest ih =>
      intro n a ht hdrop h
      have hn : lines[n]? = some text.toList := by
        rw [← List.head?_drop, hdrop]
        rfl
      rw [Assembler.lines] at h
      split at h
      · rename_i a₁ hstatement
        refine ih (ht.step hn hstatement) ?_ h
        rw [← List.tail_drop, hdrop]
        rfl
      · rename_i cause hstatement
        cases h
        exact ⟨n, _, a, cause, hn, ht, hstatement, rfl⟩

/-- All lines above can be taken in, and this one is refused. -/
def Refuses (lines : List (List Char)) (k : Nat) (cause : AssemblyError) : Prop :=
  ∃ line a, lines[k]? = some line ∧ Taken lines k a ∧ a.statement (k + 1) (Statement.ofLine line) = .error cause

/-- An instruction here is written with a label. -/
def Refers (lines : List (List Char)) (k : Nat) (label : String) : Prop :=
  ∃ line, lines[k]? = some line ∧ Line.isInstruction line ∧ Line.operand line = '@' :: label.toList

/-- Either all lines are taken in and what is left is to finish, or one of them is refused. -/
theorem assemble_cases (name file source : String) :
    (∃ a, Taken (linesOf source) (linesOf source).length a ∧ assemble name file source = a.finish file) ∨
    ∃ k cause, Refuses (linesOf source) k cause ∧ assemble name file source = .error (.assembly file (k + 1) cause) := by
  have hstart := Taken.start (linesOf source) name source
  have hassemble : assemble name file source =
      Assembler.lines file 1 (Text.lines source) { builder := ({ name : Builder }.source source) } >>= (·.finish file) := rfl
  rw [hassemble]
  cases hlines : Assembler.lines file 1 (Text.lines source) { builder := ({ name : Builder }.source source) } with
  | ok a => exact .inl ⟨a, hstart.run (Nat.zero_le _) rfl hlines, rfl⟩
  | error e =>
      obtain ⟨k, line, a, cause, hk, ht, hstatement, rfl⟩ := hstart.refused rfl hlines
      exact .inr ⟨k, cause, ⟨line, a, hk, ht, hstatement⟩, rfl⟩

theorem placed_of_assemble {name file source : String} (h : assemble name file source = .ok m) :
    Placed (linesOf source) m := by
  rcases assemble_cases name file source with ⟨a, ht, hfinish⟩ | ⟨k, cause, _, herror⟩
  · exact ht.placed (hfinish.symm.trans h)
  · cases herror.symm.trans h

/-- A label is not defined again. -/
theorem Refuses.labelTwice {j k : Nat} {label : String} {cause : AssemblyError} (hr : Refuses lines k cause) (hjk : j < k)
    (hj : Defines lines j label) (hk : Defines lines k label) : cause = .labelTwice label := by
  obtain ⟨line, a, hline, ht, h⟩ := hr
  rw [Line.isLabel_iff.1 ((defines_iff hline).1 hk), Assembler.statement, Assembler.define, String.ofList_toList,
    if_pos (by simpa using ht.labelled.defined.2 ⟨j, hjk, hj⟩)] at h
  cases h
  rfl

theorem refused_of_defines_twice {name file source label : String} {j k : Nat} (hjk : j < k)
    (hj : Defines (linesOf source) j label) (hk : Defines (linesOf source) k label) :
    ∃ n cause, n ≤ k ∧ (n = k → cause = .labelTwice label) ∧
      assemble name file source = .error (.assembly file (n + 1) cause) := by
  rcases assemble_cases name file source with ⟨a, ht, _⟩ | ⟨n, cause, hr, herror⟩
  · exact absurd (ht.labelled.once (lt_length_of_defines hj) (lt_length_of_defines hk) hj hk) (Nat.ne_of_lt hjk)
  · refine ⟨n, cause, Nat.le_of_not_lt fun hlt => ?_, ?_, herror⟩
    · obtain ⟨_, a, _, ht, _⟩ := hr
      exact absurd (ht.labelled.once (Nat.lt_trans hjk hlt) hlt hj hk) (Nat.ne_of_lt hjk)
    · rintro rfl
      exact hr.labelTwice hjk hj hk

/-- The last check finds a label that is used and not defined. -/
theorem Taken.finish_undefined {label : String} {k : Nat} (ht : Taken lines lines.length a) (file : String)
    (hk : Refers lines k label) (hnone : ∀ j, ¬ Defines lines j label) :
    ∃ n label', Refers lines n label' ∧ (∀ j, ¬ Defines lines j label') ∧
      a.finish file = .error (.assembly file (n + 1) (.undefinedLabel label')) := by
  obtain ⟨line, hline, hinstruction, hoperand⟩ := hk
  have hjump : Line.isJump line := by simp [Line.isJump, hinstruction, hoperand]
  obtain ⟨⟨label', _⟩, huse, huse', _⟩ := ht.labelled.used.row (List.getElem?_eq_some_iff.1 hline).1 hline hjump
  have hlabel : label' = label := String.toList_inj.1 (List.cons.inj (huse'.symm.trans hoperand)).2
  subst hlabel
  unfold Assembler.finish
  split
  · rename_i label number hfind
    obtain ⟨i, hi⟩ := Array.getElem?_of_mem (Array.mem_of_find?_eq_some hfind)
    obtain ⟨n, line', _, hn, hjump', _, hoperand', rfl⟩ := ht.labelled.used.exists_line hi
    simp only [Line.isJump, Bool.and_eq_true] at hjump'
    refine ⟨n, label, ⟨line', hn, hjump'.1, hoperand'⟩, fun j hd => ?_, rfl⟩
    have hundefined := Array.find?_some hfind
    have hdefined := ht.labelled.defined.2 ⟨j, lt_length_of_defines hd, hd⟩
    simp [hdefined] at hundefined
  · rename_i hfind
    have hdefined := Array.find?_eq_none.1 hfind _ (Array.mem_of_getElem? huse)
    obtain ⟨j, _, hd⟩ := ht.labelled.defined.1 (show label' ∈ a.defined by simpa using hdefined)
    exact absurd hd (hnone j)

/-- Everything stands where the source says. In an accepted source there is one instruction for each instruction line, in the
order of the lines and with the operation of its first word, and it knows the line and the column of that word, in 32 bits each. A jump leads
to the one line that defines its label, and stays on the tape. Functions and classes start where they are declared, a function
belongs to the class that is open there, and a class stops at its end or that of the source. A source in which a label is
defined twice is refused at the second definition, if not at a line above it; one in which a label is used and
not defined is refused too, with such a use, if not with a line that is wrong in itself. -/
theorem assembled_in_place (name file source : String) :
    (∀ m, assemble name file source = .ok m → Placed (linesOf source) m) ∧
    (∀ j k label, j < k → Defines (linesOf source) j label → Defines (linesOf source) k label →
      ∃ n cause, n ≤ k ∧ (n = k → cause = .labelTwice label) ∧
        assemble name file source = .error (.assembly file (n + 1) cause)) ∧
    ∀ k label, Refers (linesOf source) k label → (∀ j, ¬ Defines (linesOf source) j label) →
      ∃ n cause, assemble name file source = .error (.assembly file (n + 1) cause) ∧
        (Refuses (linesOf source) n cause ∨
          ∃ label', cause = .undefinedLabel label' ∧ Refers (linesOf source) n label' ∧
            ∀ j, ¬ Defines (linesOf source) j label') := by
  refine ⟨fun m h => placed_of_assemble h, fun j k label hjk hj hk => refused_of_defines_twice hjk hj hk,
    fun k label hk hnone => ?_⟩
  rcases assemble_cases name file source with ⟨a, ht, hfinish⟩ | ⟨n, cause, hr, herror⟩
  · obtain ⟨n, label', hn, hnone', herror⟩ := ht.finish_undefined file hk hnone
    exact ⟨n, _, hfinish.trans herror, .inr ⟨label', rfl, hn, hnone'⟩⟩
  · exact ⟨n, cause, herror, .inl hr⟩

/-- Jumps ahead and back, a comment, a semicolon that starts none, and a class with a method. -/
def sampleText : String :=
  "  jmp @done ; over the class\n.class A : Object x\n.func f async\ntop:\n\tres \"a;b\"\n\tifn @top\n\tret\n.end\ndone:\n  ret 0\n"

theorem assembled_in_place_sample :
    (∃ m, assemble "main" "main.rasm" sampleText = .ok m ∧ Placed (linesOf sampleText) m) ∧
    (Defines (linesOf "a:\na:") 0 "a" ∧ Defines (linesOf "a:\na:") 1 "a" ∧
      ∃ n cause, n ≤ 1 ∧ (n = 1 → cause = .labelTwice "a") ∧
        assemble "main" "main.rasm" "a:\na:" = .error (.assembly "main.rasm" (n + 1) cause)) ∧
    Refers (linesOf "b:\njmp @a") 1 "a" ∧ (∀ j, ¬ Defines (linesOf "b:\njmp @a") j "a") ∧
      ∃ n cause, assemble "main" "main.rasm" "b:\njmp @a" = .error (.assembly "main.rasm" (n + 1) cause) ∧
        (Refuses (linesOf "b:\njmp @a") n cause ∨ ∃ label', cause = .undefinedLabel label' ∧
          Refers (linesOf "b:\njmp @a") n label' ∧ ∀ j, ¬ Defines (linesOf "b:\njmp @a") j label') := by
  have hfirst : Defines (linesOf "a:\na:") 0 "a" := ⟨"a:".toList, by decide +kernel, by decide +kernel, by decide +kernel⟩
  have hagain : Defines (linesOf "a:\na:") 1 "a" := ⟨"a:".toList, by decide +kernel, by decide +kernel, by decide +kernel⟩
  have hrefers : Refers (linesOf "b:\njmp @a") 1 "a" :=
    ⟨"jmp @a".toList, by decide +kernel, by decide +kernel, by decide +kernel⟩
  have hnone : ∀ j, ¬ Defines (linesOf "b:\njmp @a") j "a" := by
    rintro j ⟨line, hline, hbare, _⟩
    have hall : ∀ line ∈ linesOf "b:\njmp @a", Line.bare line ≠ "a".toList ++ [':'] := by decide +kernel
    exact hall line (List.mem_of_getElem? hline) hbare
  refine ⟨?_, ⟨hfirst, hagain, (assembled_in_place "main" "main.rasm" _).2.1 0 1 "a" (by decide) hfirst hagain⟩,
    hrefers, hnone, (assembled_in_place "main" "main.rasm" _).2.2 1 "a" hrefers hnone⟩
  have haccepted : (assemble "main" "main.rasm" sampleText).toOption.isSome := by decide +kernel
  cases hm : assemble "main" "main.rasm" sampleText with
  | error e =>
      rw [hm] at haccepted
      cases haccepted
  | ok m => exact ⟨m, rfl, (assembled_in_place "main" "main.rasm" sampleText).1 m hm⟩

end Source

end Spool
