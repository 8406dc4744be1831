/-!
# Bindings

A finite map kept in the order in which its keys were first bound. Members of objects, local
variables, method tables and recorded edges are all bindings.
-/

namespace Spool

structure Bindings (κ ν : Type) where
  entries : List (κ × ν) := []
  deriving DecidableEq, Repr, Inhabited

namespace Bindings

variable {κ ν : Type} [DecidableEq κ]

/-- The value at a key in a list of entries; the first entry counts. -/
def find (k : κ) : List (κ × ν) → Option ν
  | [] => none
  | (key, v) :: rest => if key = k then some v else find k rest

/-- Replaces the value in place, or adds the key at the end. -/
def put (k : κ) (v : ν) : List (κ × ν) → List (κ × ν)
  | [] => [(k, v)]
  | (key, old) :: rest => if key = k then (key, v) :: rest else (key, old) :: put k v rest

def get? (b : Bindings κ ν) (k : κ) : Option ν := find k b.entries

def contains (b : Bindings κ ν) (k : κ) : Bool := (b.get? k).isSome

def insert (b : Bindings κ ν) (k : κ) (v : ν) : Bindings κ ν := ⟨put k v b.entries⟩

def erase (b : Bindings κ ν) (k : κ) : Bindings κ ν := ⟨b.entries.filter fun e => e.1 ≠ k⟩

def ofList (entries : List (κ × ν)) : Bindings κ ν :=
  entries.foldl (fun b e => b.insert e.1 e.2) {}

omit [DecidableEq κ] in
def keys (b : Bindings κ ν) : List κ := b.entries.map Prod.fst

omit [DecidableEq κ] in
def values (b : Bindings κ ν) : List ν := b.entries.map Prod.snd

omit [DecidableEq κ] in
def size (b : Bindings κ ν) : Nat := b.entries.length

omit [DecidableEq κ] in
def isEmpty (b : Bindings κ ν) : Bool := b.entries.isEmpty

/-! ## Looking up after a change -/

theorem find_put (k k' : κ) (v : ν) (entries : List (κ × ν)) :
    find k' (put k v entries) = if k = k' then some v else find k' entries := by
  induction entries with
  | nil => simp [put, find]
  | cons e rest ih =>
    obtain ⟨key, old⟩ := e
    by_cases h : key = k
    · subst h; by_cases h' : key = k' <;> simp [put, find, h']
    · by_cases h' : key = k'
      · subst h'; simp [put, find, h, Ne.symm h]
      · simp [put, find, h, h', ih]

theorem get?_insert (b : Bindings κ ν) (k k' : κ) (v : ν) :
    (b.insert k v).get? k' = if k = k' then some v else b.get? k' :=
  find_put k k' v b.entries

theorem find_filter_ne (k k' : κ) (entries : List (κ × ν)) :
    find k' (entries.filter fun e => e.1 ≠ k) = if k = k' then none else find k' entries := by
  induction entries with
  | nil => simp [find]
  | cons e rest ih =>
    obtain ⟨key, v⟩ := e
    by_cases h : key = k
    · subst h
      by_cases h' : key = k'
      · subst h'; simp_all
      · simp_all [find]
    · by_cases h' : key = k'
      · subst h'; simp [find, h, Ne.symm h]
      · simp_all [find]

theorem get?_erase (b : Bindings κ ν) (k k' : κ) :
    (b.erase k).get? k' = if k = k' then none else b.get? k' :=
  find_filter_ne k k' b.entries

end Bindings

end Spool
