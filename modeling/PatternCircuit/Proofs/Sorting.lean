import Mathlib.Data.List.Sort
import PatternCircuit.Sorting

/-! # Sorting rearranges its input into ascending order

It is the library's insertion sort, by the relation that the test decides. -/

namespace PatternCircuit

open List

variable {α : Type} (le : α → α → Bool)

theorem insertSorted_eq_orderedInsert (a : α) (xs : List α) :
    insertSorted le a xs = xs.orderedInsert (le · · = true) a := by
  induction xs with
  | nil => rfl
  | cons b rest ih => rw [insertSorted, orderedInsert_cons, ih]

theorem sortBy_eq_insertionSort (xs : List α) :
    sortBy le xs = xs.insertionSort (le · · = true) := by
  induction xs with
  | nil => rfl
  | cons a rest ih => rw [sortBy, insertionSort_cons, ih, insertSorted_eq_orderedInsert]

theorem insertSorted_perm (a : α) (xs : List α) : insertSorted le a xs ~ a :: xs :=
  insertSorted_eq_orderedInsert le a xs ▸ perm_orderedInsert _ a xs

theorem sortBy_perm (xs : List α) : sortBy le xs ~ xs :=
  sortBy_eq_insertionSort le xs ▸ perm_insertionSort _ xs

@[simp] theorem mem_sortBy {a : α} {xs : List α} : a ∈ sortBy le xs ↔ a ∈ xs :=
  sortBy_eq_insertionSort le xs ▸ mem_insertionSort _

/-! ### Order of the result -/

section Order

variable {le} (htotal : ∀ a b, le a b = true ∨ le b a = true)
  (htrans : ∀ {a b c}, le a b = true → le b c = true → le a c = true)
include htotal htrans

theorem pairwise_insertSorted (a : α) {xs : List α} (h : xs.Pairwise (le · · = true)) :
    (insertSorted le a xs).Pairwise (le · · = true) := by
  have : Std.Total (le · · = true) := ⟨htotal⟩
  have : IsTrans α (le · · = true) := ⟨fun _ _ _ => htrans⟩
  rw [insertSorted_eq_orderedInsert]
  exact h.orderedInsert a xs

theorem pairwise_sortBy (xs : List α) : (sortBy le xs).Pairwise (le · · = true) := by
  have : Std.Total (le · · = true) := ⟨htotal⟩
  have : IsTrans α (le · · = true) := ⟨fun _ _ _ => htrans⟩
  rw [sortBy_eq_insertionSort]
  exact pairwise_insertionSort _ xs

/-- Rearranged items are sorted alike if the order tells any two of them apart. -/
theorem sortBy_eq_of_perm (hantisymm : ∀ {a b}, le a b = true → le b a = true → a = b)
    {xs ys : List α} (h : xs ~ ys) : sortBy le xs = sortBy le ys := by
  have hperm : sortBy le xs ~ sortBy le ys :=
    ((sortBy_perm le xs).trans h).trans (sortBy_perm le ys).symm
  exact hperm.eq_of_pairwise (fun _ _ _ _ => hantisymm) (pairwise_sortBy htotal htrans xs)
    (pairwise_sortBy htotal htrans ys)

end Order

end PatternCircuit
