import Spool.Proofs.Registry.Checked
import Spool.Proofs.Tape.Assembler
import Spool.Proofs.Tape.Lines

/-!
# Where things stand

An assembled module follows its source line by line: one instruction for each instruction line, jumps to where their labels
are defined, functions and classes from where they are declared. Each line takes the assembler one step on, and what the
lines so far have laid down is carried through every step.
-/

namespace Spool

namespace Line

/-- The line starts with a dot and this word. -/
def isDirective (name : String) (line : List Char) : Bool := (directive? line).any fun d => d.1 = name.toList

/-- An instruction that is written with a label. -/
def isJump (line : List Char) : Bool := isInstruction line && (operand line).head? = some '@'

/-- An instruction as the line has it. A label says nothing yet about the operand. -/
structure Writes (line : List Char) (i : Instruction) : Prop where
  op : Op.ofName? (String.ofList (mnemonic line)) = some i.op
  jump : (operand line).head? = some '@' → i.op.isJump
  operand : (operand line).head? ≠ some '@' →
    Literal.read (operand line) = .ok i.operand ∧ Literal.fits i.op.shape i.operand

/-- A function as the line declares it. -/
def Declares (line : List Char) (f : FunctionDef) : Prop :=
  ∃ words, directive? line = some ("func".toList, f.name.toList :: words) ∧ isIdentifier f.name.toList ∧
    Assembler.readFlags words = .ok f.flags

/-- A class as the line declares it. -/
def Opens (line : List Char) (c : ClassDef) : Prop :=
  ∃ words rest, directive? line = some ("class".toList, c.name.toList :: words) ∧ isIdentifier c.name.toList ∧
    Assembler.readSuper words = .ok (c.superName, rest) ∧ Assembler.readFields rest = .ok c.fields

variable {line : List Char} {s : Statement}

theorem isInstruction_eq_false (hs : Statement.ofLine line = s)
    (h : ∀ name text place, s ≠ .instruction name text place) : isInstruction line = false := by
  rw [← Bool.not_eq_true, isInstruction_iff, hs]
  rintro ⟨name, text, place, heq⟩
  exact h name text place heq

theorem directive?_eq_none (hs : Statement.ofLine line = s) (h : ∀ name words, s ≠ .directive name words) :
    directive? line = none := by
  refine Option.eq_none_iff_forall_ne_some.2 fun d hd => ?_
  exact h d.1 d.2 (hs.symm.trans (directive?_eq_some.1 hd))

theorem isJump_eq_false (hi : isInstruction line = false) : isJump line = false := by
  simp [isJump, hi]

end Line

namespace Source

variable {lines : List (List Char)} {line : List Char} {n : Nat}

/-! ## Positions -/

/-- A line of a kind stands here. -/
def Has (kind : List Char → Bool) (lines : List (List Char)) (k : Nat) : Prop := ∃ line, lines[k]? = some line ∧ kind line

/-- The label of a name is defined here. -/
def Defines (lines : List (List Char)) (k : Nat) (name : String) : Prop :=
  ∃ line, lines[k]? = some line ∧ Line.IsLabel line name

/-- How many instructions stand above a line. -/
def position (lines : List (List Char)) (k : Nat) : Nat := above Line.isInstruction lines k

/-- The line that ends a class: the first end after it, or the end of the source. -/
def classEnd (lines : List (List Char)) (k : Nat) : Nat :=
  k + 1 + (lines.drop (k + 1)).findIdx (Line.isDirective "end")

/-- A class of the name is open at a line. -/
def InClass (lines : List (List Char)) (k : Nat) (name : String) : Prop :=
  ∃ j line words, j < k ∧ lines[j]? = some line ∧ Line.directive? line = some ("class".toList, name.toList :: words) ∧
    k ≤ classEnd lines j

theorem lt_classEnd (lines : List (List Char)) (k : Nat) : k < classEnd lines k := by
  unfold classEnd
  omega

theorem isDirective_classEnd {k : Nat} (h : lines[classEnd lines k]? = some line) : Line.isDirective "end" line := by
  unfold classEnd at h
  rw [← List.getElem?_drop] at h
  obtain ⟨hlt, rfl⟩ := List.getElem?_eq_some_iff.1 h
  exact List.findIdx_getElem (w := hlt)

theorem classEnd_le {k e : Nat} (h : k < e) (he : lines[e]? = some line) (hend : Line.isDirective "end" line) :
    classEnd lines k ≤ e := by
  unfold classEnd
  have hdrop : (lines.drop (k + 1))[e - (k + 1)]? = some line := by
    rw [List.getElem?_drop, ← he]
    congr 1
    omega
  obtain ⟨hlt, rfl⟩ := List.getElem?_eq_some_iff.1 hdrop
  have : (lines.drop (k + 1)).findIdx (Line.isDirective "end") ≤ e - (k + 1) := by
    by_contra hnot
    have := List.not_of_lt_findIdx (Nat.lt_of_not_le hnot)
    rw [hend] at this
    cases this
  omega

/-- Unless a line ends a class it is not where one ends. -/
theorem classEnd_ne {k : Nat} (hn : lines[n]? = some line) (hend : Line.isDirective "end" line = false) :
    classEnd lines k ≠ n := by
  rintro rfl
  simp [isDirective_classEnd hn] at hend

/-! ## Instructions -/

/-- Instructions stand as their lines write them, and know the places of the lines. -/
structure Coded (lines : List (List Char)) (n : Nat) (instructions : Array Instruction) (places : Array (Option Place)) :
    Prop where
  instructions : Fills Line.isInstruction lines n instructions fun _ line i => Line.Writes line i
  places : Fills Line.isInstruction lines n places fun k line place =>
    place = some ⟨(k + 1).toUInt32, (Line.column line).toUInt32⟩

variable {instructions : Array Instruction} {places : Array (Option Place)}

theorem Coded.skip (hc : Coded lines n instructions places) (hn : lines[n]? = some line)
    (hline : Line.isInstruction line = false) : Coded lines (n + 1) instructions places :=
  ⟨hc.instructions.skip hn hline, hc.places.skip hn hline⟩

theorem Coded.push (hc : Coded lines n instructions places) (hn : lines[n]? = some line) (hline : Line.isInstruction line)
    {i : Instruction} (hi : Line.Writes line i) :
    Coded lines (n + 1) (instructions.push i) (places.push (some ⟨(n + 1).toUInt32, (Line.column line).toUInt32⟩)) :=
  ⟨hc.instructions.push hn hline hi, hc.places.push hn hline rfl⟩

/-! ## Labels and jumps -/

/-- A label is bound to the position of the line that defines it, and there is one such line. Jumps are listed with the labels
of the names they are written with, and these names with their lines. -/
structure Labelled (lines : List (List Char)) (n : Nat) (a : Assembler) : Prop where
  numbered : Assembler.Numbered a.labels a.builder.labels
  defined : ∀ {name}, name ∈ a.defined ↔ ∃ k < n, Defines lines k name
  bound : ∀ {k name}, k < n → Defines lines k name →
    Assembler.bound? a.labels a.builder.labels name = some (position lines k)
  once : ∀ {j k name}, j < n → k < n → Defines lines j name → Defines lines k name → j = k
  jumps : Fills Line.isJump lines n a.builder.jumps fun k line jump =>
    jump.1 = position lines k ∧ ∃ target : String, Line.operand line = '@' :: target.toList ∧ a.labels.get? target = some jump.2
  used : Fills Line.isJump lines n a.used fun k line use => Line.operand line = '@' :: use.1.toList ∧ use.2 = k + 1

variable {a a' : Assembler} {name : String} {number : Nat}

theorem lt_of_defines {k : Nat} (hk : k < n + 1) (hd : Defines lines k name) (hn : ¬ Defines lines n name) : k < n := by
  refine Nat.lt_of_le_of_ne (Nat.le_of_lt_succ hk) ?_
  rintro rfl
  exact hn hd

theorem exists_defines_succ (hn : ¬ Defines lines n name) :
    (∃ k < n + 1, Defines lines k name) ↔ ∃ k < n, Defines lines k name :=
  ⟨fun ⟨k, hk, hd⟩ => ⟨k, lt_of_defines hk hd hn, hd⟩, fun ⟨k, hk, hd⟩ => ⟨k, Nat.lt_succ_of_lt hk, hd⟩⟩

theorem Labelled.skip (hl : Labelled lines n a) (hn : lines[n]? = some line) (hjump : Line.isJump line = false)
    (hlabel : ∀ name, ¬ Defines lines n name) : Labelled lines (n + 1) a where
  numbered := hl.numbered
  defined := hl.defined.trans (exists_defines_succ (hlabel _)).symm
  bound hk hd := hl.bound (lt_of_defines hk hd (hlabel _)) hd
  once hj hk hd hd' := hl.once (lt_of_defines hj hd (hlabel _)) (lt_of_defines hk hd' (hlabel _)) hd hd'
  jumps := hl.jumps.skip hn hjump
  used := hl.used.skip hn hjump

theorem Labelled.rebuild (hl : Labelled lines n a) {b : Builder} (hlabels : b.labels = a.builder.labels)
    (hjumps : b.jumps = a.builder.jumps) : Labelled lines n { a with builder := b } where
  numbered := by rw [hlabels]; exact hl.numbered
  defined := hl.defined
  bound := by rw [hlabels]; exact hl.bound
  once := hl.once
  jumps := by rw [hjumps]; exact hl.jumps
  used := hl.used

theorem Labelled.label (hl : Labelled lines n a) (hn : lines[n]? = some line) (hjump : Line.isJump line = false)
    (hname : ∀ n', Defines lines n n' ↔ n' = name) (hsize : a.builder.position = position lines n) (hfresh : name ∉ a.defined)
    (hlabel : ({ a with defined := name :: a.defined } : Assembler).label name = (number, a')) :
    Labelled lines (n + 1) { a' with builder := a'.builder.bindLabel number } := by
  obtain ⟨l, names, places, heq, hlabels⟩ := Assembler.label_eq { a with defined := name :: a.defined } name
  rw [heq] at hlabel
  cases hlabel
  have hnone : ∀ k < n, ¬ Defines lines k name := fun k hk hd => hfresh (hl.defined.2 ⟨k, hk, hd⟩)
  exact {
    numbered := (hlabels.numbered hl.numbered).bind _ _
    defined := by
      intro n'
      rw [List.mem_cons, hl.defined]
      constructor
      · rintro (rfl | ⟨k, hk, hd⟩)
        · exact ⟨n, Nat.lt_succ_self n, (hname _).2 rfl⟩
        · exact ⟨k, Nat.lt_succ_of_lt hk, hd⟩
      · rintro ⟨k, hk, hd⟩
        by_cases hlast : k = n
        · subst hlast
          exact .inl ((hname n').1 hd)
        · exact .inr ⟨k, by omega, hd⟩
    bound := by
      intro k n' hk hd
      refine (Assembler.bound?_bind (hlabels.numbered hl.numbered) hlabels.get? _ _).trans ?_
      by_cases hlast : k = n
      · subst hlast
        rw [if_pos ((hname n').1 hd)]
        exact congrArg some hsize
      · have hne : n' ≠ name := by
          rintro rfl
          exact hnone k (by omega) hd
        rw [if_neg hne, hlabels.bound?]
        exact hl.bound (by omega) hd
    once := by
      intro j k n' hj hk hd hd'
      by_cases hne : n' = name
      · subst hne
        have hlast : ∀ {i}, i < n + 1 → Defines lines i n' → i = n := fun {i} hi hd =>
          Nat.eq_of_lt_succ_of_not_lt hi fun hlt => hnone i hlt hd
        rw [hlast hj hd, hlast hk hd']
      · have hnot : ¬ Defines lines n n' := fun h => hne ((hname n').1 h)
        exact hl.once (lt_of_defines hj hd hnot) (lt_of_defines hk hd' hnot) hd hd'
    jumps := (hl.jumps.skip hn hjump).mono fun _ _ _ ⟨hpos, target, htarget, hget⟩ =>
      ⟨hpos, target, htarget, hlabels.kept hget⟩
    used := hl.used.skip hn hjump }

theorem Labelled.jump (hl : Labelled lines n a) (hn : lines[n]? = some line) (hjump : Line.isJump line)
    (hnone : ∀ name, ¬ Defines lines n name) (hsize : a.builder.position = position lines n) {column : Nat}
    (htarget : Line.operand line = '@' :: name.toList)
    (hlabel : ({ a with builder := a.builder.locate (n + 1) column, used := a.used.push (name, n + 1) } : Assembler).label name
      = (number, a')) (op : Op) : Labelled lines (n + 1) { a' with builder := a'.builder.jump op number } := by
  obtain ⟨l, names, places, heq, hlabels⟩ := Assembler.label_eq
    { a with builder := a.builder.locate (n + 1) column, used := a.used.push (name, n + 1) } name
  rw [heq] at hlabel
  cases hlabel
  exact {
    numbered := hlabels.numbered hl.numbered
    defined := hl.defined.trans (exists_defines_succ (hnone _)).symm
    bound := fun hk hd => (hlabels.bound? _).trans (hl.bound (lt_of_defines hk hd (hnone _)) hd)
    once := fun hj hk hd hd' => hl.once (lt_of_defines hj hd (hnone _)) (lt_of_defines hk hd' (hnone _)) hd hd'
    jumps := (hl.jumps.mono fun _ _ _ ⟨hpos, target, htarget, hget⟩ => ⟨hpos, target, htarget, hlabels.kept hget⟩).push hn hjump
      ⟨hsize, name, htarget, hlabels.get?⟩
    used := hl.used.push hn hjump ⟨htarget, rfl⟩ }

/-! ## Functions and classes -/

/-- Functions and classes stand as their lines declare them. A class whose end has been met stops there, and the class that
is open is the one whose end has not been met. -/
structure Grouped (lines : List (List Char)) (n : Nat) (b : Builder) : Prop where
  functions : Fills (Line.isDirective "func") lines n b.functions fun k line f =>
    Line.Declares line f ∧ f.start = position lines k ∧ ∀ name, f.owner = some name ↔ InClass lines k name
  classes : Fills (Line.isDirective "class") lines n b.classes fun k line c =>
    Line.Opens line c ∧ c.start = position lines k ∧
      (classEnd lines k < n → c.stop = position lines (classEnd lines k)) ∧
      (n ≤ classEnd lines k → b.openClass = some (above (Line.isDirective "class") lines k))
  opened : ∀ {c}, b.openClass = some c → ∃ k < n, Has (Line.isDirective "class") lines k ∧
    above (Line.isDirective "class") lines k = c ∧ n ≤ classEnd lines k
  apart : ∀ {j k}, j < k → k < n → Has (Line.isDirective "class") lines j → Has (Line.isDirective "class") lines k →
    classEnd lines j < k
  ends : ∀ {e}, e < n → Has (Line.isDirective "end") lines e →
    ∃ k < e, Has (Line.isDirective "class") lines k ∧ classEnd lines k = e

variable {b b' : Builder}

theorem Grouped.congr (hg : Grouped lines n b) (hfunctions : b'.functions = b.functions) (hclasses : b'.classes = b.classes)
    (hopen : b'.openClass = b.openClass) : Grouped lines n b' where
  functions := hfunctions ▸ hg.functions
  classes := by rw [hclasses, hopen]; exact hg.classes
  opened := by rw [hopen]; exact hg.opened
  apart := hg.apart
  ends := hg.ends

theorem lt_of_has {kind : List Char → Bool} {k : Nat} (hn : lines[n]? = some line) (hline : kind line = false) (hk : k < n + 1)
    (hh : Has kind lines k) : k < n := by
  refine Nat.lt_of_le_of_ne (Nat.le_of_lt_succ hk) ?_
  rintro rfl
  obtain ⟨line', hn', hkind⟩ := hh
  cases hn.symm.trans hn'
  simp [hline] at hkind

/-- A class is over once no class is open. -/
theorem Grouped.classEnd_lt (hg : Grouped lines n b) (hopen : b.openClass = none) {k : Nat} (hk : k < n)
    (hclass : Has (Line.isDirective "class") lines k) : classEnd lines k < n := by
  obtain ⟨line, hline, hkind⟩ := hclass
  obtain ⟨c, _, _, _, _, hstill⟩ := hg.classes.row hk hline hkind
  refine Nat.lt_of_not_le fun hle => ?_
  cases (hstill hle).symm.trans hopen

theorem Grouped.openClassName (hg : Grouped lines n b) (name : String) :
    b.openClassName = some name ↔ InClass lines n name := by
  unfold Builder.openClassName
  constructor
  · intro h
    obtain ⟨c, hc, hname⟩ := Option.bind_eq_some_iff.1 h
    obtain ⟨k, hk, ⟨line, hline, hkind⟩, rfl, hend⟩ := hg.opened hc
    obtain ⟨d, hd, ⟨words, rest, hdirective, _⟩, _⟩ := hg.classes.row hk hline hkind
    rw [hd] at hname
    cases hname
    exact ⟨k, line, words, hk, hline, hdirective, hend⟩
  · rintro ⟨k, line, words, hk, hline, hdirective, hend⟩
    have hkind : Line.isDirective "class" line := by simp [Line.isDirective, hdirective]
    obtain ⟨d, hd, ⟨words', rest, hdirective', _⟩, _, _, hstill⟩ := hg.classes.row hk hline hkind
    rw [hstill hend, Option.bind_some, hd, Option.map_some]
    rw [hdirective] at hdirective'
    simp only [Option.some.injEq, Prod.mk.injEq, List.cons.injEq, true_and] at hdirective'
    exact congrArg some (String.toList_inj.1 hdirective'.1).symm

/-- A line that is no end leaves the classes as they are. -/
theorem Grouped.classes_skip (hg : Grouped lines n b) (hn : lines[n]? = some line)
    (hclass : Line.isDirective "class" line = false) (hend : Line.isDirective "end" line = false) :
    Fills (Line.isDirective "class") lines (n + 1) b.classes fun k line c =>
      Line.Opens line c ∧ c.start = position lines k ∧
        (classEnd lines k < n + 1 → c.stop = position lines (classEnd lines k)) ∧
        (n + 1 ≤ classEnd lines k → b.openClass = some (above (Line.isDirective "class") lines k)) :=
  (hg.classes.skip hn hclass).mono fun {k _ _} _ _ _ ⟨hopens, hstart, hstop, hstill⟩ =>
    have hne : classEnd lines k ≠ n := classEnd_ne hn hend
    ⟨hopens, hstart, fun h => hstop (by omega), fun h => hstill (by omega)⟩

theorem Grouped.opened_skip (hg : Grouped lines n b) (hn : lines[n]? = some line) (hend : Line.isDirective "end" line = false)
    {c : Nat} (hc : b.openClass = some c) : ∃ k < n + 1, Has (Line.isDirective "class") lines k ∧
      above (Line.isDirective "class") lines k = c ∧ n + 1 ≤ classEnd lines k := by
  obtain ⟨k, hk, hclass, habove, hle⟩ := hg.opened hc
  have hne : classEnd lines k ≠ n := classEnd_ne hn hend
  exact ⟨k, by omega, hclass, habove, by omega⟩

theorem Grouped.skip (hg : Grouped lines n b) (hn : lines[n]? = some line) (hfunction : Line.isDirective "func" line = false)
    (hclass : Line.isDirective "class" line = false) (hend : Line.isDirective "end" line = false) :
    Grouped lines (n + 1) b where
  functions := hg.functions.skip hn hfunction
  classes := hg.classes_skip hn hclass hend
  opened := hg.opened_skip hn hend
  apart hjk hk hj hk' := hg.apart hjk (lt_of_has hn hclass hk hk') hj hk'
  ends he hh := hg.ends (lt_of_has hn hend he hh) hh

theorem Grouped.function (hg : Grouped lines n b) (hn : lines[n]? = some line) (hsize : b.position = position lines n)
    {words : List (List Char)} {flags : Flags} (hline : Line.directive? line = some ("func".toList, name.toList :: words))
    (hname : isIdentifier name.toList) (hflags : Assembler.readFlags words = .ok flags) :
    Grouped lines (n + 1) (b.function name flags) := by
  have hclass : Line.isDirective "class" line = false := by simp [Line.isDirective, hline]
  have hend : Line.isDirective "end" line = false := by simp [Line.isDirective, hline]
  exact {
    functions := hg.functions.push hn (by simp [Line.isDirective, hline])
      ⟨⟨words, hline, hname, hflags⟩, hsize, hg.openClassName⟩
    classes := hg.classes_skip hn hclass hend
    opened := hg.opened_skip hn hend
    apart := fun hjk hk hj hk' => hg.apart hjk (lt_of_has hn hclass hk hk') hj hk'
    ends := fun he hh => hg.ends (lt_of_has hn hend he hh) hh }

theorem Grouped.beginClass (hg : Grouped lines n b) (hn : lines[n]? = some line) (hsize : b.position = position lines n)
    (hopen : b.openClass = none) {words rest : List (List Char)} {superName : Option String} {fields : List String}
    (hline : Line.directive? line = some ("class".toList, name.toList :: words)) (hname : isIdentifier name.toList)
    (hsuper : Assembler.readSuper words = .ok (superName, rest)) (hfields : Assembler.readFields rest = .ok fields) :
    Grouped lines (n + 1) (b.beginClass name superName fields) := by
  have hfunction : Line.isDirective "func" line = false := by simp [Line.isDirective, hline]
  have hclass : Line.isDirective "class" line := by simp [Line.isDirective, hline]
  have hend : Line.isDirective "end" line = false := by simp [Line.isDirective, hline]
  have hover : ∀ {k}, k < n → Has (Line.isDirective "class") lines k → classEnd lines k < n := hg.classEnd_lt hopen
  have hlast : n < classEnd lines n := lt_classEnd lines n
  have hrows : Fills (Line.isDirective "class") lines n b.classes fun k line c =>
      Line.Opens line c ∧ c.start = position lines k ∧
        (classEnd lines k < n + 1 → c.stop = position lines (classEnd lines k)) ∧
        (n + 1 ≤ classEnd lines k → some b.classes.size = some (above (Line.isDirective "class") lines k)) :=
    hg.classes.mono fun hk hk' hkind ⟨hopens, hstart, hstop, _⟩ =>
      have hlt := hover hk ⟨_, hk', hkind⟩
      ⟨hopens, hstart, fun _ => hstop hlt, fun _ => by omega⟩
  exact {
    functions := hg.functions.skip hn hfunction
    classes := hrows.push hn hclass
      ⟨⟨words, rest, hline, hname, hsuper, hfields⟩, hsize, fun _ => by omega, fun _ => congrArg some hg.classes.size⟩
    opened := by
      intro c hc
      cases hc
      exact ⟨n, Nat.lt_succ_self n, ⟨line, hn, hclass⟩, hg.classes.size.symm, hlast⟩
    apart := by
      intro j k hjk hk hj hk'
      by_cases hkn : k = n
      · subst hkn
        exact hover hjk hj
      · exact hg.apart hjk (by omega) hj hk'
    ends := fun he hh => hg.ends (lt_of_has hn hend he hh) hh }

/-- To end the class that is open, if there is one, gives every class the stop it has if the source goes no further. -/
theorem Grouped.stops (hg : Grouped lines n b) (hsize : b.position = position lines n) :
    Fills (Line.isDirective "class") lines n b.endClass.classes fun k line c =>
      Line.Opens line c ∧ c.start = position lines k ∧ c.stop = position lines (min (classEnd lines k) n) := by
  cases hopen : b.openClass with
  | none =>
      rw [Builder.endClass, hopen]
      exact hg.classes.mono fun hk hk' hkind ⟨hopens, hstart, hstop, _⟩ =>
        have hlt := hg.classEnd_lt hopen hk ⟨_, hk', hkind⟩
        ⟨hopens, hstart, by rw [Nat.min_eq_left (Nat.le_of_lt hlt), hstop hlt]⟩
  | some c =>
      obtain ⟨k, hk, ⟨line, hline, hkind⟩, rfl, hle⟩ := hg.opened hopen
      rw [Builder.endClass, hopen]
      refine ⟨by rw [Array.size_modify, hg.classes.size], fun {j line'} hj hline' hkind' => ?_⟩
      obtain ⟨d, hd, hopens, hstart, hstop, hstill⟩ := hg.classes.row hj hline' hkind'
      rw [Array.getElem?_modify, hd]
      by_cases hjk : j = k
      · subst hjk
        refine ⟨{ d with stop := b.position }, by simp, hopens, hstart, ?_⟩
        rw [Nat.min_eq_right hle, ← hsize]
      · have hover : classEnd lines j < n := by
          refine Nat.lt_of_not_le fun hlej => hjk (eq_of_above_eq hline' hline hkind' hkind ?_)
          exact Option.some.inj ((hstill hlej).symm.trans hopen)
        rw [if_neg fun h => hjk (eq_of_above_eq hline' hline hkind' hkind h.symm)]
        exact ⟨d, rfl, hopens, hstart, by rw [Nat.min_eq_left (Nat.le_of_lt hover), hstop hover]⟩

theorem endClass_frame (b : Builder) : ∃ classes, b.endClass = { b with classes, openClass := none } := by
  unfold Builder.endClass
  split
  · exact ⟨_, rfl⟩
  · rename_i hopen
    exact ⟨b.classes, by rw [← hopen]⟩

theorem Grouped.endClass (hg : Grouped lines n b) (hn : lines[n]? = some line) (hsize : b.position = position lines n) {c : Nat}
    (hopen : b.openClass = some c) {words : List (List Char)} (hline : Line.directive? line = some ("end".toList, words)) :
    Grouped lines (n + 1) b.endClass := by
  have hfunction : Line.isDirective "func" line = false := by simp [Line.isDirective, hline]
  have hclass : Line.isDirective "class" line = false := by simp [Line.isDirective, hline]
  have hend : Line.isDirective "end" line := by simp [Line.isDirective, hline]
  have hover : ∀ {k}, k < n → classEnd lines k ≤ n := fun hk => classEnd_le hk hn hend
  obtain ⟨classes, hb⟩ := endClass_frame b
  have hrows := hg.stops hsize
  rw [hb] at hrows ⊢
  exact {
    functions := hg.functions.skip hn hfunction
    classes := (hrows.mono fun hk _ _ ⟨hopens, hstart, hstop⟩ =>
      ⟨hopens, hstart, fun _ => by rw [hstop, Nat.min_eq_left (hover hk)],
        fun h => absurd (hover hk) (by omega)⟩).skip hn hclass
    opened := nofun
    apart := fun hjk hk' hj hk'' => hg.apart hjk (lt_of_has hn hclass hk' hk'') hj hk''
    ends := by
      intro e he hh
      by_cases hlast : e = n
      · obtain ⟨k, hk, hkclass, _, hle⟩ := hg.opened hopen
        exact ⟨k, by omega, hkclass, by have := hover hk; omega⟩
      · exact hg.ends (by omega) hh }

/-! ## Line by line -/

/-- The first `n` lines have been taken in. -/
structure Taken (lines : List (List Char)) (n : Nat) (a : Assembler) : Prop where
  coded : Coded lines n a.builder.instructions a.builder.places
  labelled : Labelled lines n a
  grouped : Grouped lines n a.builder

theorem defines_iff (hn : lines[n]? = some line) : Defines lines n name ↔ Line.IsLabel line name := by
  rw [Defines, hn]
  simp

/-- Asking for a label changes the labels of the tape only. -/
theorem builder_of_label (h : a.label name = (number, a')) : ∃ labels, a'.builder = { a.builder with labels } := by
  obtain ⟨_, _, labels, heq, _⟩ := Assembler.label_eq a name
  rw [heq] at h
  cases h
  exact ⟨labels, rfl⟩

/-- A line that is no directive declares nothing. -/
theorem Grouped.undirected (hg : Grouped lines n b) (hn : lines[n]? = some line) (hline : Line.directive? line = none) :
    Grouped lines (n + 1) b :=
  have hnot : ∀ name, Line.isDirective name line = false := fun name => by simp [Line.isDirective, hline]
  hg.skip hn (hnot _) (hnot _) (hnot _)

theorem Taken.blank (ht : Taken lines n a) (hn : lines[n]? = some line) (hs : Statement.ofLine line = .blank) :
    Taken lines (n + 1) a := by
  have hi := Line.isInstruction_eq_false hs (by simp)
  have hnone : ∀ name, ¬ Defines lines n name := by simp [defines_iff hn, Line.isLabel_iff, hs]
  exact ⟨ht.coded.skip hn hi, ht.labelled.skip hn (Line.isJump_eq_false hi) hnone,
    ht.grouped.undirected hn (Line.directive?_eq_none hs (by simp))⟩

theorem Taken.label (ht : Taken lines n a) (hn : lines[n]? = some line) {name : List Char}
    (hs : Statement.ofLine line = .label name) (hfresh : String.ofList name ∉ a.defined)
    (hlabel : ({ a with defined := String.ofList name :: a.defined } : Assembler).label (String.ofList name) = (number, a')) :
    Taken lines (n + 1) { a' with builder := a'.builder.bindLabel number } := by
  have hi := Line.isInstruction_eq_false hs (by simp)
  have hone : ∀ n', Defines lines n n' ↔ n' = String.ofList name := by
    intro n'
    rw [defines_iff hn, Line.isLabel_iff, hs, Statement.label.injEq]
    constructor
    · rintro rfl
      exact String.ofList_toList.symm
    · rintro rfl
      exact String.toList_ofList.symm
  obtain ⟨labels, hb⟩ := builder_of_label hlabel
  constructor
  · change Coded lines (n + 1) a'.builder.instructions a'.builder.places
    rw [hb]
    exact ht.coded.skip hn hi
  · exact ht.labelled.label hn (Line.isJump_eq_false hi) hone ht.coded.instructions.size hfresh hlabel
  · exact (ht.grouped.undirected hn (Line.directive?_eq_none hs (by simp))).congr (congrArg Builder.functions hb :)
      (congrArg Builder.classes hb :) (congrArg Builder.openClass hb :)

/-- A directive changes the functions and the classes only. -/
theorem Taken.directive (ht : Taken lines n a) (hn : lines[n]? = some line) {word : List Char} {words : List (List Char)}
    (hs : Statement.ofLine line = .directive word words) (hinstructions : b.instructions = a.builder.instructions)
    (hplaces : b.places = a.builder.places) (hlabels : b.labels = a.builder.labels) (hjumps : b.jumps = a.builder.jumps)
    (hb : Grouped lines (n + 1) b) : Taken lines (n + 1) { a with builder := b } := by
  have hi := Line.isInstruction_eq_false hs (by simp)
  have hnone : ∀ name, ¬ Defines lines n name := by simp [defines_iff hn, Line.isLabel_iff, hs]
  refine ⟨?_, (ht.labelled.skip hn (Line.isJump_eq_false hi) hnone).rebuild hlabels hjumps, hb⟩
  rw [hinstructions, hplaces]
  exact ht.coded.skip hn hi

theorem Taken.jump (ht : Taken lines n a) (hn : lines[n]? = some line) {word target : List Char} {op : Op} {column : Nat}
    (hs : Statement.ofLine line = .instruction word ('@' :: target) column) (hop : Op.ofName? (String.ofList word) = some op)
    (hjump : op.isJump)
    (hlabel : ({ a with builder := a.builder.locate (n + 1) column, used := a.used.push (String.ofList target, n + 1) } :
      Assembler).label (String.ofList target) = (number, a')) :
    Taken lines (n + 1) { a' with builder := a'.builder.jump op number } := by
  obtain ⟨rfl, htext, rfl⟩ := Line.parts_of_ofLine hs
  have hi : Line.isInstruction line := Line.isInstruction_iff.2 ⟨_, _, _, hs⟩
  have hnone : ∀ name, ¬ Defines lines n name := by simp [defines_iff hn, Line.isLabel_iff, hs]
  have hwrites : Line.Writes line ⟨op, .scalar (.int 0)⟩ :=
    ⟨hop, fun _ => hjump, fun h => absurd (congrArg List.head? htext.symm) h⟩
  obtain ⟨labels, hb⟩ := builder_of_label hlabel
  constructor
  · change Coded lines (n + 1) (a'.builder.instructions.push _) (a'.builder.places.push a'.builder.place)
    rw [hb]
    exact ht.coded.push hn hi hwrites
  · exact ht.labelled.jump hn (by simp [Line.isJump, hi, ← htext]) hnone ht.coded.instructions.size (by simp [← htext]) hlabel op
  · exact (ht.grouped.undirected hn (Line.directive?_eq_none hs (by simp))).congr (congrArg Builder.functions hb :)
      (congrArg Builder.classes hb :) (congrArg Builder.openClass hb :)

theorem Taken.plain (ht : Taken lines n a) (hn : lines[n]? = some line) {word text : List Char} {op : Op} {operand : Operand}
    {column : Nat} (hs : Statement.ofLine line = .instruction word text column)
    (hop : Op.ofName? (String.ofList word) = some op) (htext : text.head? ≠ some '@')
    (hread : Literal.read text = .ok operand) (hfits : Literal.fits op.shape operand) :
    Taken lines (n + 1) { a with builder := (a.builder.locate (n + 1) column).emit op operand } := by
  obtain ⟨rfl, rfl, rfl⟩ := Line.parts_of_ofLine hs
  have hi : Line.isInstruction line := Line.isInstruction_iff.2 ⟨_, _, _, hs⟩
  have hnone : ∀ name, ¬ Defines lines n name := by simp [defines_iff hn, Line.isLabel_iff, hs]
  exact ⟨ht.coded.push hn hi ⟨hop, fun h => absurd h htext, fun _ => ⟨hread, hfits⟩⟩,
    (ht.labelled.skip hn (by simp [Line.isJump, htext]) hnone).rebuild rfl rfl,
    (ht.grouped.undirected hn (Line.directive?_eq_none hs (by simp))).congr rfl rfl rfl⟩

theorem Taken.step (ht : Taken lines n a) (hn : lines[n]? = some line)
    (h : a.statement (n + 1) (Statement.ofLine line) = .ok a') : Taken lines (n + 1) a' := by
  have hsize : a.builder.position = position lines n := ht.coded.instructions.size
  generalize hs : Statement.ofLine line = s at h
  cases Assembler.takes_statement h with
  | blank => exact ht.blank hn hs
  | label hfresh hlabel => exact ht.label hn hs hfresh hlabel
  | @function name words flags hname hflags =>
      have hline := Line.directive?_eq_some.2 hs
      rw [← String.toList_ofList (l := name)] at hline hname
      exact ht.directive hn hs rfl rfl rfl rfl (ht.grouped.function hn hsize hline hname hflags)
  | @beginClass name words rest superName fields hopen hname hsuper hfields =>
      have hline := Line.directive?_eq_some.2 hs
      rw [← String.toList_ofList (l := name)] at hline hname
      exact ht.directive hn hs rfl rfl rfl rfl (ht.grouped.beginClass hn hsize hopen hline hname hsuper hfields)
  | endClass hopen =>
      obtain ⟨classes, hb⟩ := endClass_frame a.builder
      have hgrouped := ht.grouped.endClass hn hsize hopen (Line.directive?_eq_some.2 hs)
      rw [hb] at hgrouped ⊢
      exact ht.directive hn hs rfl rfl rfl rfl hgrouped
  | jump hop hjump hlabel => exact ht.jump hn hs hop hjump hlabel
  | plain hop htext hread hfits => exact ht.plain hn hs hop htext hread hfits

/-- An assembler that has only been given the source has taken in nothing. -/
theorem Taken.start (lines : List (List Char)) (name source : String) :
    Taken lines 0 { builder := ({ name : Builder }).source source } where
  coded := ⟨.empty, .empty⟩
  labelled := {
    numbered := ⟨nofun, nofun⟩
    defined := by simp
    bound := by simp
    once := by simp
    jumps := .empty
    used := .empty }
  grouped := {
    functions := .empty
    classes := .empty
    opened := nofun
    apart := by simp
    ends := by simp }

/-- The lines from one on are taken in one by one. -/
theorem Taken.run {file : String} : ∀ {rest : List String} {n : Nat} {a : Assembler}, Taken lines n a → n ≤ lines.length →
    lines.drop n = rest.map String.toList → Assembler.lines file (n + 1) rest a = .ok a' → Taken lines lines.length a' := by
  intro rest
  induction rest with
  | nil =>
      intro n a ht hle hdrop h
      cases h
      exact Nat.le_antisymm hle (List.drop_eq_nil_iff.1 hdrop) ▸ ht
  | cons text rest ih =>
      intro n a ht hle hdrop h
      have hn : lines[n]? = some text.toList := by
        rw [← List.head?_drop, hdrop]
        rfl
      rw [Assembler.lines] at h
      split at h
      · rename_i a₁ hstatement
        refine ih (ht.step hn hstatement) (List.getElem?_eq_some_iff.1 hn).1 ?_ h
        rw [← List.tail_drop, hdrop]
        rfl
      · cases h

end Source

end Spool
