import Spool.Text.Basic

/-!
# Statements

What one line of assembly text says, before its names and operands are read. A line holds an
instruction unless nothing is left of it without its comment, it starts with a dot, or it is an
identifier followed by a colon.
-/

namespace Spool

def isIdentifierStart (c : Char) : Bool := c.isAlpha || c = '_'

def isIdentifierRest (c : Char) : Bool := c.isAlphanum || c = '_'

/-- A letter or an underscore, then letters, digits and underscores, all ASCII; a dollar sign may
stand in front. -/
def isIdentifier (cs : List Char) : Bool :=
  let body := match cs with
    | '$' :: rest => rest
    | _ => cs
  match body with
  | c :: rest => isIdentifierStart c && rest.all isIdentifierRest
  | [] => false

/-- Where a scan of a line stands: outside quotes, or inside the given quotes, right after a backslash
or not. -/
inductive Quoting where
  | outside
  | inside (quote : Char)
  | escaped (quote : Char)
  deriving DecidableEq, Repr

namespace Quoting

def next : Quoting → Char → Quoting
  | outside, c => if c = '"' || c = '\'' then inside c else outside
  | inside q, c => if c = '\\' then escaped q else if c = q then outside else inside q
  | escaped q, _ => inside q

end Quoting

/-- Cuts at the first semicolon that stands outside quotes. -/
def stripCommentFrom : Quoting → List Char → List Char
  | _, [] => []
  | .outside, ';' :: _ => []
  | state, c :: rest => c :: stripCommentFrom (state.next c) rest

def stripComment (line : List Char) : List Char := stripCommentFrom .outside line

inductive Statement where
  | blank
  | label (name : List Char)
  | directive (name : List Char) (words : List (List Char))
  | instruction (mnemonic operand : List Char) (column : Nat)
  deriving DecidableEq, Repr

namespace Statement

def byteSize (cs : List Char) : Nat := cs.foldr (fun c n => c.utf8Size + n) 0

/-- The name of a label line: an identifier and a colon. -/
def labelName? (text : List Char) : Option (List Char) :=
  match text.reverse with
  | ':' :: rest => if isIdentifier rest.reverse then some rest.reverse else none
  | _ => none

def ofLine (line : List Char) : Statement :=
  let text := Text.trimRight (stripComment line)
  let trimmed := Text.trimLeft text
  let column := byteSize text - byteSize trimmed + 1
  match trimmed with
  | [] => blank
  | '.' :: rest =>
    let (name, rest) := Text.splitWord rest
    directive name (Text.words rest)
  | _ =>
    match labelName? trimmed with
    | some name => label name
    | none =>
      let (mnemonic, rest) := Text.splitWord trimmed
      instruction mnemonic (Text.trim rest) column

end Statement

end Spool
