/-! # Sorting by insertion

The order is given as a test. Items of which neither has to stand before the other keep the places
they had relative to each other. -/

namespace PatternCircuit

/-- Puts an item in front of the first one that it may precede. -/
def insertSorted {α : Type} (le : α → α → Bool) (a : α) : List α → List α
  | [] => [a]
  | b :: rest => if le a b then a :: b :: rest else b :: insertSorted le a rest

/-- The items in ascending order. -/
def sortBy {α : Type} (le : α → α → Bool) : List α → List α
  | [] => []
  | a :: rest => insertSorted le a (sortBy le rest)

end PatternCircuit
