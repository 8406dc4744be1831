/-!
# Paths

Paths of files, written with slashes. A path keeps the spelling it was given. It leads from place to
place; a place is given by the names on the straight way there.
-/

namespace Spool.Path

/-- The parts between slashes; empty parts count for nothing. -/
def parts (path : String) : List String := (path.splitOn "/").filter fun s => s ≠ ""

/-- The names from the working directory, or from the root `/`, to a place. Places around the working
directory begin with two dots for each step out. -/
abbrev Place := List String

/-- Where a path starts. -/
def start (path : String) : Place := if path.startsWith "/" then ["/"] else []

/-- The parts as steps; a slash at the end is a step that stays. -/
def steps (path : String) : List String := parts path ++ if path.endsWith "/" then ["."] else []

/-- One step out; there is nothing around the root. -/
def outside (place : Place) : Place :=
  match place.getLast? with
  | none | some ".." => place ++ [".."]
  | some "/" => place
  | some _ => place.dropLast

/-- One dot stays, two dots lead out and a name leads in. -/
def step (place : Place) (part : String) : Place :=
  if part = "." then place else if part = ".." then outside place else place ++ [part]

/-- The places on the way, without the one it leads to. -/
def passed : Place → List String → List Place
  | _, [] => []
  | place, part :: rest => place :: passed (step place part) rest

/-- Where a path leads if every step of it can be made. -/
def target (path : String) : Place := (steps path).foldl step (start path)

/-- The last part, if it is a name. Dots at the end of a longer path count for nothing. -/
def fileName? (path : String) : Option String :=
  let named := match parts path with
    | [] => []
    | first :: rest => first :: rest.filter fun s => s ≠ "."
  match named.getLast? with
  | some "." => none
  | some ".." => none
  | last => last

/-- The file name up to its last dot, unless the dot is at its start. -/
def stem? (path : String) : Option String :=
  (fileName? path).map fun name =>
    match (name.splitOn ".").reverse with
    | _ :: first :: rest =>
      let stem := String.intercalate "." (first :: rest).reverse
      if stem = "" then name else stem
    | _ => name

/-- A reversed path without the slashes, and single dots after a slash, at its end. -/
def trimEnd : List Char → List Char
  | '/' :: rest => trimEnd rest
  | '.' :: '/' :: rest => trimEnd rest
  | reversed => reversed

/-- Everything before the last part; there is nothing before the start. -/
def parent? (path : String) : Option String :=
  let reversed := trimEnd path.toList.reverse
  if reversed.isEmpty then none
  else
    let before := reversed.dropWhile (· ≠ '/')
    let kept := trimEnd before
    some (String.ofList (if kept.isEmpty then before.take 1 else kept.reverse))

/-- The text before the last slash, if there is any: a path that leads to where the last step is made. -/
def shorter? (path : String) : Option String :=
  match path.toList.reverse.dropWhile (· ≠ '/') with
  | _ :: last :: rest => some (String.ofList (last :: rest).reverse)
  | _ => none

/-- A path below a directory; a path that starts with a slash stands for itself. -/
def join (directory path : String) : String :=
  if path.startsWith "/" || directory = "" then path
  else if directory.endsWith "/" then directory ++ path
  else directory ++ "/" ++ path

end Spool.Path
