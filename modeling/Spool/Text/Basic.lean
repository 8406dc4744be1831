/-!
# Blanks and lines

White space as Unicode has it, and the ways a line is cut along it. A line ends at a line feed, or at a carriage return and a
line feed. The last line needs no end.
-/

namespace Spool.Text

def isBlank (c : Char) : Bool :=
  let n := c.toNat
  (9 ≤ n && n ≤ 13) || n = 32 || n = 0x85 || n = 0xa0 || n = 0x1680 || (0x2000 ≤ n && n ≤ 0x200a)
    || n = 0x2028 || n = 0x2029 || n = 0x202f || n = 0x205f || n = 0x3000

def trimLeft (cs : List Char) : List Char := cs.dropWhile isBlank

def trimRight (cs : List Char) : List Char := (cs.reverse.dropWhile isBlank).reverse

def trim (cs : List Char) : List Char := trimRight (trimLeft cs)

def trimText (s : String) : String := String.ofList (trim s.toList)

/-- The first word, and all that follows it. -/
def splitWord (cs : List Char) : List Char × List Char :=
  (cs.takeWhile fun c => !isBlank c, cs.dropWhile fun c => !isBlank c)

/-- The words gathered so far, the last one in reverse. -/
def wordsFrom : (current : List Char) → List Char → List (List Char)
  | [], [] => []
  | current, [] => [current.reverse]
  | current, c :: cs =>
    if isBlank c then
      if current.isEmpty then wordsFrom [] cs else current.reverse :: wordsFrom [] cs
    else wordsFrom (c :: current) cs

/-- The longest runs of characters other than blanks. -/
def words (cs : List Char) : List (List Char) := wordsFrom [] cs

/-! ## Lines -/

/-- Drops one carriage return at the end. -/
def dropReturn (reversed : List Char) : List Char :=
  match reversed with
  | '\r' :: rest => rest.reverse
  | _ => reversed.reverse

/-- The lines from a point on, given the start of the current one in reverse. -/
def linesFrom : (current : List Char) → List Char → List (List Char)
  | [], [] => []
  | current, [] => [current.reverse]
  | current, c :: cs =>
    if c = '\n' then dropReturn current :: linesFrom [] cs else linesFrom (c :: current) cs

def lines (text : String) : List String := (linesFrom [] text.toList).map String.ofList

end Spool.Text
