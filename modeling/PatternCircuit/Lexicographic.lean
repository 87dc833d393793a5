/-! # Lexicographic order

Number sequences compare at their first difference, and a sequence stands before its extensions.
Texts compare by their code points, which is also the order of their encoded bytes. -/

namespace PatternCircuit.Lexicographic

/-- The first sequence does not stand after the second. -/
def le : List Nat → List Nat → Bool
  | [], _ => true
  | _ :: _, [] => false
  | m :: ms, n :: ns => if m = n then le ms ns else decide (m < n)

/-- The code points of a text. -/
def points (s : String) : List Nat := s.toList.map Char.toNat

/-- The first text does not stand after the second. -/
def textLe (s t : String) : Bool := le (points s) (points t)

theorem le_cons_self (x : Nat) (xs ys : List Nat) : le (x :: xs) (x :: ys) = le xs ys := if_pos rfl

theorem le_cons_of_ne {x y : Nat} (h : x ≠ y) (xs ys : List Nat) :
    le (x :: xs) (y :: ys) = decide (x < y) := if_neg h

/-- It is the library's order on lists. -/
theorem le_iff {xs ys : List Nat} : le xs ys = true ↔ List.le xs ys := by
  induction xs generalizing ys with
  | nil => exact iff_of_true rfl (List.nil_le ys)
  | cons x xs ih =>
      cases ys with
      | nil => exact iff_of_false Bool.false_ne_true (fun h => h (List.nil_lt_cons x xs))
      | cons y ys =>
          have hcons : List.le (x :: xs) (y :: ys) ↔ x < y ∨ x = y ∧ List.le xs ys :=
            List.cons_le_cons_iff
          rw [hcons]
          by_cases h : x = y
          · simp [h, le_cons_self, ih]
          · simp [h, le_cons_of_ne h]

theorem le_total (xs ys : List Nat) : le xs ys = true ∨ le ys xs = true :=
  (List.le_total xs ys).imp le_iff.mpr le_iff.mpr

theorem le_antisymm {xs ys : List Nat} (h : le xs ys = true) (h' : le ys xs = true) : xs = ys :=
  List.le_antisymm (le_iff.mp h) (le_iff.mp h')

theorem le_trans {xs ys zs : List Nat} (h : le xs ys = true) (h' : le ys zs = true) :
    le xs zs = true :=
  le_iff.mpr (List.le_trans (le_iff.mp h) (le_iff.mp h'))

theorem le_append_left (xs ys zs : List Nat) : le (xs ++ ys) (xs ++ zs) = le ys zs := by
  induction xs with
  | nil => rfl
  | cons x xs ih => rw [List.cons_append, List.cons_append, le_cons_self, ih]

/-- The first difference of two sequences of one length decides, whatever follows them. -/
theorem le_append_of_ne {xs ys : List Nat} (hlength : xs.length = ys.length) (hne : xs ≠ ys)
    (h : le xs ys = true) (xs' ys' : List Nat) : le (xs ++ xs') (ys ++ ys') = true := by
  induction xs generalizing ys with
  | nil =>
      cases ys with
      | nil => exact absurd rfl hne
      | cons y ys => cases hlength
  | cons x xs ih =>
      cases ys with
      | nil => cases hlength
      | cons y ys =>
          by_cases e : x = y
          · subst e
            have hrest : xs ≠ ys := fun k => hne (by rw [k])
            rw [le_cons_self] at h
            rw [List.cons_append, List.cons_append, le_cons_self]
            exact ih (Nat.succ.inj hlength) hrest h
          · rw [le_cons_of_ne e] at h
            rw [List.cons_append, List.cons_append, le_cons_of_ne e]
            exact h

/-! ### Texts -/

theorem points_inj {s t : String} (h : points s = points t) : s = t := by
  have hi : Function.Injective Char.toNat := fun c d hcd => Char.toNat_inj.mp hcd
  exact String.toList_inj.mp ((List.map_inj_right fun c d hcd => hi hcd).mp h)

theorem textLe_total (s t : String) : textLe s t = true ∨ textLe t s = true :=
  le_total (points s) (points t)

theorem textLe_trans {s t u : String} (h : textLe s t = true) (h' : textLe t u = true) :
    textLe s u = true :=
  le_trans h h'

theorem textLe_antisymm {s t : String} (h : textLe s t = true) (h' : textLe t s = true) : s = t :=
  points_inj (le_antisymm h h')

end PatternCircuit.Lexicographic
