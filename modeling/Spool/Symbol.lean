import Std.Data.HashMap

/-!
# Symbols

A table that gives every text a number. Numbers are dense, count from zero in the order in which texts
are first added, and never change. Adding probes the table first and inserts only on a miss; between
the two steps another client of the table may have inserted the same text.
-/

namespace Spool

structure SymbolTable where
  texts : Array String := #[]
  numbers : Std.HashMap String Nat := {}

namespace SymbolTable

def size (t : SymbolTable) : Nat := t.texts.size

def isEmpty (t : SymbolTable) : Bool := t.texts.isEmpty

def lookup (t : SymbolTable) (text : String) : Option Nat := t.numbers[text]?

def get? (t : SymbolTable) (n : Nat) : Option String := t.texts[n]?

/-- The number of a text, given a new number if it has none. -/
def getOrAdd (t : SymbolTable) (text : String) : Nat × SymbolTable :=
  match t.lookup text with
  | some n => (n, t)
  | none =>
    let n := t.texts.size
    (n, { texts := t.texts.push text, numbers := t.numbers.insert text n })

def add (t : SymbolTable) (text : String) : Nat × SymbolTable :=
  match t.lookup text with
  | some n => (n, t)
  | none => t.getOrAdd text

/-- The names that the machine itself looks up. -/
def wellKnown : List String :=
  ["self", "new", "__index__", "__set__", "message", "stacktrace", "module", "function", "line", "col",
    "text", "value", "builtins"]

def addAll (t : SymbolTable) (texts : List String) : SymbolTable :=
  texts.foldl (fun t text => (t.add text).2) t

end SymbolTable

end Spool
