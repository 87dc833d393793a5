import Mathlib.Data.ZMod.Basic
import Mathlib.Tactic.LinearCombination
import Mathlib.Tactic.Ring
import PatternCircuit.Circuit.Scalar

/-! # Arithmetic of circuit values

Circuit values are the integers modulo the order of the field. The gates need of the order only that
it has no common factor with a number up to 256, and that it is large. -/

namespace PatternCircuit.Scalar

/-- The residue class of a circuit value. -/
def residue (x : Scalar) : ZMod fieldOrder := (x.val : ZMod fieldOrder)

theorem residue_injective {x y : Scalar} (h : x.residue = y.residue) : x = y := by
  apply ext
  have hmod := (ZMod.natCast_eq_natCast_iff' x.val y.val fieldOrder).mp h
  rwa [Nat.mod_eq_of_lt x.isLt, Nat.mod_eq_of_lt y.isLt] at hmod

@[simp] theorem residue_ofNat (n : Nat) : (ofNat n).residue = (n : ZMod fieldOrder) := by
  rw [residue, ofNat, ZMod.natCast_mod]

@[simp] theorem residue_zero : (0 : Scalar).residue = 0 :=
  (residue_ofNat 0).trans Nat.cast_zero

@[simp] theorem residue_one : (1 : Scalar).residue = 1 :=
  (residue_ofNat 1).trans Nat.cast_one

@[simp] theorem residue_256 : (256 : Scalar).residue = 256 := residue_ofNat 256

@[simp] theorem residue_add (x y : Scalar) : (x + y).residue = x.residue + y.residue :=
  (residue_ofNat _).trans (Nat.cast_add _ _)

@[simp] theorem residue_mul (x y : Scalar) : (x * y).residue = x.residue * y.residue :=
  (residue_ofNat _).trans (Nat.cast_mul _ _)

@[simp] theorem residue_neg (x : Scalar) : (-x).residue = -x.residue := by
  refine (residue_ofNat _).trans ?_
  rw [Nat.cast_sub (Nat.le_of_lt x.isLt), ZMod.natCast_self, zero_sub]
  rfl

@[simp] theorem residue_sub (x y : Scalar) : (x - y).residue = x.residue - y.residue := by
  rw [sub_eq_add_neg, ← residue_neg, ← residue_add]
  rfl

@[simp] theorem residue_ofInt (z : Int) : (ofInt z).residue = (z : ZMod fieldOrder) := by
  cases z with
  | ofNat n => simp [ofInt]
  | negSucc n => simp [ofInt, Int.negSucc_eq]

@[simp] theorem residue_ofByte (b : UInt8) : (ofByte b).residue = (b.toNat : ZMod fieldOrder) :=
  residue_ofNat _

theorem residue_eq_zero {x : Scalar} : x = 0 ↔ x.residue = 0 := by
  constructor
  · rintro rfl
    exact residue_zero
  · intro h
    exact residue_injective (h.trans residue_zero.symm)

/-! ### Small numbers -/

theorem coprime_fieldOrder {n : Nat} (hpos : 0 < n) (hle : n ≤ 256) : n.Coprime fieldOrder := by
  have hall : ∀ n < 257, 0 < n → n.Coprime fieldOrder := by decide +kernel
  exact hall n (by omega) hpos

theorem isUnit_natCast {n : Nat} (hpos : 0 < n) (hle : n ≤ 256) : IsUnit (n : ZMod fieldOrder) :=
  (ZMod.isUnit_iff_coprime n fieldOrder).mpr (coprime_fieldOrder hpos hle)

/-- Integers of small size are determined by their residues. -/
theorem eq_zero_of_intCast_eq_zero {z : Int} (h : (z : ZMod fieldOrder) = 0)
    (hsmall : z.natAbs < 2 ^ 20) : z = 0 := by
  have hdvd := (ZMod.intCast_zmod_eq_zero_iff_dvd z fieldOrder).mp h
  refine Int.eq_zero_of_dvd_of_natAbs_lt_natAbs hdvd (Nat.lt_trans hsmall ?_)
  decide +kernel

/-- The difference of two bytes that are not equal is a unit. -/
theorem isUnit_sub_of_ne {a b : UInt8} (h : a ≠ b) :
    IsUnit ((a.toNat : ZMod fieldOrder) - (b.toNat : ZMod fieldOrder)) := by
  have ha := a.toNat_lt
  have hb := b.toNat_lt
  have hne : a.toNat ≠ b.toNat := fun heq => h (UInt8.toNat_inj.mp heq)
  rcases Nat.lt_or_gt_of_ne hne with hlt | hlt
  · rw [← neg_sub, ← Nat.cast_sub (Nat.le_of_lt hlt)]
    exact (isUnit_natCast (by omega) (by omega)).neg
  · rw [← Nat.cast_sub (Nat.le_of_lt hlt)]
    exact isUnit_natCast (by omega) (by omega)

/-! ### Inverses -/

/-- Repeated division keeps both remainders multiples of `x`, up to the greatest common divisor. -/
theorem coefficient_mul {R : Type} [CommRing R] (x : R) (r : Nat) (s : Int) (k : Nat) (t : Int)
    (hr : (r : R) = s * x) (hk : (k : R) = t * x) :
    (coefficient r s k t : R) * x = (Nat.gcd r k : R) := by
  fun_induction coefficient r s k t with
  | case1 r s => rw [Nat.gcd_zero_right, hr]
  | case2 r s k t ih =>
      have hgcd : Nat.gcd r (k + 1) = Nat.gcd (k + 1) (r % (k + 1)) := by
        rw [Nat.gcd_comm r (k + 1), Nat.gcd_rec (k + 1) r, Nat.gcd_comm]
      rw [hgcd]
      apply ih hk
      have hdivision : (r : R) =
          ((k + 1 : Nat) : R) * (r / (k + 1) : Nat) + (r % (k + 1) : Nat) := by
        rw [← Nat.cast_mul, ← Nat.cast_add, Nat.div_add_mod]
      generalize r / (k + 1) = q at hdivision ⊢
      rw [Int.cast_sub, Int.cast_mul, Int.cast_natCast]
      linear_combination hr - hdivision - (q : R) * hk

theorem inverse_mul (x : Scalar) :
    x.inverse.residue * x.residue = (Nat.gcd fieldOrder x.val : ZMod fieldOrder) := by
  rw [inverse, residue_ofInt]
  refine coefficient_mul x.residue fieldOrder 0 x.val 1 ?_ ?_
  · simp
  · simp [residue]

theorem inverse_mul_of_isUnit {x : Scalar} (h : IsUnit x.residue) :
    x.inverse.residue * x.residue = 1 := by
  have hcoprime := (ZMod.isUnit_iff_coprime x.val fieldOrder).mp h
  rw [inverse_mul, Nat.gcd_comm, hcoprime, Nat.cast_one]

end PatternCircuit.Scalar
