import Spool.Text.Hidden

/-!
# Quoted text

Literals in a source are read by `unescape`; listings write text between double quotes with `quoted`.
-/

namespace Spool.Text

/-- The character that a letter after a backslash stands for. -/
def escape? : Char → Option Char
  | 'n' => some '\n'
  | 't' => some '\t'
  | 'r' => some '\r'
  | '0' => some '\x00'
  | '\\' => some '\\'
  | '"' => some '"'
  | '\'' => some '\''
  | _ => none

/-- The text of a literal; a backslash must start a known escape. -/
def unescape : List Char → Option (List Char)
  | [] => some []
  | '\\' :: c :: rest => (escape? c).bind fun c => (unescape rest).map (c :: ·)
  | ['\\'] => none
  | c :: rest => (unescape rest).map (c :: ·)

def hexText (n : Nat) : List Char := Nat.toDigits 16 n

/-- A single quote stands for itself; hidden characters are written by their number. -/
def escapeChar (c : Char) : List Char :=
  match c with
  | '\x00' => ['\\', '0']
  | '\t' => ['\\', 't']
  | '\r' => ['\\', 'r']
  | '\n' => ['\\', 'n']
  | '\\' => ['\\', '\\']
  | '"' => ['\\', '"']
  | c => if isHidden c then '\\' :: 'u' :: '\x7b' :: (hexText c.toNat ++ ['\x7d']) else [c]

def quoted (s : String) : String := String.ofList ('"' :: (s.toList.flatMap escapeChar ++ ['"']))

end Spool.Text
