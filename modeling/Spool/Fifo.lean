/-!
# Queues

A first-in first-out queue as two lists; `toList` is its content in order.
-/

namespace Spool

structure Fifo (α : Type) where
  front : List α := []
  /-- Added last first. -/
  back : List α := []
  deriving Repr, Inhabited

namespace Fifo

variable {α : Type}

def toList (q : Fifo α) : List α := q.front ++ q.back.reverse

def size (q : Fifo α) : Nat := q.front.length + q.back.length

def isEmpty (q : Fifo α) : Bool := q.front.isEmpty && q.back.isEmpty

def push (q : Fifo α) (a : α) : Fifo α := { q with back := a :: q.back }

def pop? (q : Fifo α) : Option (α × Fifo α) :=
  match q.front with
  | a :: front => some (a, { q with front })
  | [] =>
    match q.back.reverse with
    | a :: front => some (a, { front })
    | [] => none

@[simp] theorem toList_push (q : Fifo α) (a : α) : (q.push a).toList = q.toList ++ [a] := by
  simp [toList, push]

theorem isEmpty_iff (q : Fifo α) : q.isEmpty ↔ q.toList = [] := by
  simp [isEmpty, toList]

theorem pop?_eq_none_iff (q : Fifo α) : q.pop? = none ↔ q.toList = [] := by
  obtain ⟨front, back⟩ := q
  cases front with
  | cons a front => simp [pop?, toList]
  | nil => cases h : back.reverse <;> simp [pop?, toList, h]

theorem toList_of_pop? {q q' : Fifo α} {a : α} (h : q.pop? = some (a, q')) :
    q.toList = a :: q'.toList := by
  obtain ⟨front, back⟩ := q
  cases front with
  | cons b front =>
    simp [pop?] at h
    obtain ⟨rfl, rfl⟩ := h
    simp [toList]
  | nil =>
    cases hb : back.reverse with
    | nil => simp [pop?, hb] at h
    | cons b rest =>
      simp [pop?, hb] at h
      obtain ⟨rfl, rfl⟩ := h
      simp [toList, hb]

end Fifo

end Spool
