import PatternCircuit.Circuit.Witness
import PatternCircuit.Proofs.Circuit.Field

/-! # What the gates enforce

Whatever the cells of a row hold, an enabled gate forces its result cell to the value that the
operands and the bound determine, and the honest values pass it. -/

namespace PatternCircuit

namespace Scalar

theorem eq_of_sub_eq_zero {x y : Scalar} (h : x - y = 0) : x = y := by
  rw [residue_eq_zero, residue_sub, sub_eq_zero] at h
  exact residue_injective h

theorem sub_self_eq_zero (x : Scalar) : x - x = 0 := by
  rw [residue_eq_zero, residue_sub, sub_self]

theorem mem_byteTable_iff {x : Scalar} : x ∈ byteTable ↔ ∃ b, x = ofByte b := by
  simp only [byteTable, byteTableSize, List.mem_map, List.mem_range]
  constructor
  · rintro ⟨n, hn, rfl⟩
    refine ⟨.ofNat n, ?_⟩
    rw [ofByte, UInt8.toNat_ofNat_of_lt' hn]
  · rintro ⟨b, rfl⟩
    exact ⟨b.toNat, b.toNat_lt, rfl⟩

theorem isByte_iff {x : Scalar} : x.isByte = true ↔ x ∈ byteTable := by
  have horder : byteTableSize < fieldOrder := by decide +kernel
  simp only [isByte, byteTable, decide_eq_true_eq, List.mem_map, List.mem_range]
  constructor
  · intro hlt
    exact ⟨x.val, hlt, ext (Nat.mod_eq_of_lt x.isLt)⟩
  · rintro ⟨n, hn, rfl⟩
    exact Nat.lt_of_le_of_lt (Nat.mod_le n fieldOrder) hn

/-! ### Bits -/

theorem ofBool_mul (p q : Bool) : ofBool p * ofBool q = ofBool (p && q) := by
  cases p <;> cases q <;> rfl

theorem ofBool_join (p q : Bool) :
    ofBool p + ofBool q - ofBool p * ofBool q = ofBool (p || q) := by
  cases p <;> cases q <;> rfl

theorem one_sub_ofBool (p : Bool) : 1 - ofBool p = ofBool !p := by
  cases p <;> rfl

theorem ofByte_mul_ofBool (b : UInt8) (p : Bool) :
    ofByte b * ofBool p = ofByte (if p then b else 0) := by
  apply residue_injective
  cases p <;> simp [ofBool]

theorem ofNat_add (m n : Nat) : ofNat m + ofNat n = ofNat (m + n) := by
  apply residue_injective
  simp

end Scalar

open Scalar

/-! ### Comparisons -/

/-- A test whose gap wraps around at 256: the result bit is forced although nothing else says that
it is a bit. -/
theorem wrapped_sound {lo hi : UInt8} {gap result : Scalar} (hbit : result * (1 - result) = 0)
    (hgap : gap - (ofByte hi - ofByte lo + 256 * (1 - result)) = 0) (hbyte : gap ∈ byteTable) :
    result = ofBool (lo ≤ hi) := by
  obtain ⟨g, rfl⟩ := mem_byteTable_iff.mp hbyte
  rw [residue_eq_zero] at hbit hgap
  simp only [residue_mul, residue_sub, residue_add, residue_one, residue_256, residue_ofByte]
    at hbit hgap
  have hlo := lo.toNat_lt
  have hhi := hi.toNat_lt
  have hg := g.toNat_lt
  -- The wrap-around is an integer `m` with `256 * (1 - result) = m`, so `m * (256 - m)` vanishes.
  obtain ⟨m, hm⟩ : ∃ m : Int, m = (g.toNat : Int) - hi.toNat + lo.toNat := ⟨_, rfl⟩
  have hwrap : (m : ZMod fieldOrder) = 256 * (1 - result.residue) := by
    rw [hm]
    push_cast
    linear_combination hgap
  have hproduct : ((m * (256 - m) : Int) : ZMod fieldOrder) = 0 := by
    push_cast
    rw [hwrap]
    linear_combination (65536 : ZMod fieldOrder) * hbit
  have hzero := eq_zero_of_intCast_eq_zero hproduct (by
    have hle : (m * (256 - m)).natAbs ≤ 511 * 511 := by
      rw [Int.natAbs_mul]
      exact Nat.mul_le_mul (by omega) (by omega)
    omega)
  have hunit : IsUnit ((256 : Nat) : ZMod fieldOrder) := isUnit_natCast (by decide) (by decide)
  rcases mul_eq_zero.mp hzero with hnone | hfull
  · have hle : lo ≤ hi := by
      rw [UInt8.le_iff_toNat_le]
      omega
    have hresult : (1 - result.residue) = 0 := by
      apply hunit.mul_left_cancel
      rw [hnone] at hwrap
      push_cast at hwrap ⊢
      rw [mul_zero, ← hwrap]
    rw [decide_eq_true hle]
    apply residue_injective
    rw [show (ofBool true).residue = 1 from residue_one]
    linear_combination -hresult
  · have hnot : ¬lo ≤ hi := by
      rw [UInt8.le_iff_toNat_le]
      omega
    have hm256 : m = 256 := by omega
    have hresult : (1 - result.residue) = 1 := by
      apply hunit.mul_left_cancel
      rw [hm256] at hwrap
      push_cast at hwrap ⊢
      rw [mul_one, ← hwrap]
    rw [decide_eq_false hnot]
    apply residue_injective
    rw [show (ofBool false).residue = 0 from residue_zero]
    linear_combination -hresult

theorem equal_sound {byte bound : UInt8} {inverse result : Scalar}
    (hresult : result - (1 - (ofByte byte - ofByte bound) * inverse) = 0)
    (hvanish : (ofByte byte - ofByte bound) * result = 0) : result = ofBool (byte == bound) := by
  by_cases heq : byte = bound
  · subst heq
    have h := eq_of_sub_eq_zero hresult
    rw [sub_self_eq_zero] at h
    rw [h, beq_self_eq_true]
    apply residue_injective
    simp only [residue_sub, residue_mul, residue_zero, residue_one, zero_mul, sub_zero]
    exact residue_one.symm
  · rw [residue_eq_zero, residue_mul, residue_sub, residue_ofByte, residue_ofByte] at hvanish
    have hzero : result = 0 :=
      residue_eq_zero.mpr ((isUnit_sub_of_ne heq).mul_right_eq_zero.mp hvanish)
    rw [hzero, beq_eq_false_iff_ne.mpr heq]
    rfl

namespace Comparison

/-- A comparison gate on a byte forces its result. -/
theorem sound {test : Comparison} {bound byte : UInt8} {x : RowValues}
    (hgate : ∀ p ∈ test.gate.polynomials x, p = 0)
    (hrange : test.isRanged = true → x.b ∈ byteTable) (ha : x.a = ofByte byte)
    (hk : x.k = ofByte bound) : x.c = ofBool (test.holds bound byte) := by
  cases test with
  | equal =>
      simp only [gate, Gate.polynomials, ha, hk] at hgate
      exact equal_sound (hgate _ List.mem_cons_self) (hgate _ (by simp))
  | atLeast =>
      simp only [gate, Gate.polynomials, ha, hk] at hgate
      exact wrapped_sound (hgate _ (by simp)) (hgate _ (by simp)) (hrange rfl)
  | atMost =>
      simp only [gate, Gate.polynomials, ha, hk] at hgate
      exact wrapped_sound (hgate _ (by simp)) (hgate _ (by simp)) (hrange rfl)

theorem wrapped_complete {lo hi : UInt8} {gap : Scalar}
    (hgap : gap = if lo ≤ hi then .ofNat (hi.toNat - lo.toNat)
      else .ofNat (256 + hi.toNat - lo.toNat)) :
    ofBool (lo ≤ hi) * (1 - ofBool (lo ≤ hi)) = 0 ∧
      gap - (ofByte hi - ofByte lo + 256 * (1 - ofBool (lo ≤ hi))) = 0 ∧ gap ∈ byteTable := by
  have hlo := lo.toNat_lt
  have hhi := hi.toNat_lt
  refine ⟨?_, ?_, ?_⟩
  · rw [one_sub_ofBool, ofBool_mul, Bool.and_not_self]
    rfl
  · rw [hgap, one_sub_ofBool, residue_eq_zero]
    by_cases hle : lo ≤ hi
    · have hnat : lo.toNat ≤ hi.toNat := UInt8.le_iff_toNat_le.mp hle
      simp only [hle, if_true, decide_true, Bool.not_true, residue_sub, residue_add, residue_mul,
        residue_ofByte, residue_ofNat, residue_256, Nat.cast_sub hnat]
      rw [show (ofBool false).residue = 0 from residue_zero]
      ring
    · have hnat : lo.toNat ≤ 256 + hi.toNat := by omega
      simp only [hle, if_false, decide_false, Bool.not_false, residue_sub, residue_add, residue_mul,
        residue_ofByte, residue_ofNat, residue_256, Nat.cast_sub hnat]
      rw [show (ofBool true).residue = 1 from residue_one]
      push_cast
      ring
  · rw [hgap]
    simp only [byteTable, byteTableSize, List.mem_map, List.mem_range]
    by_cases hle : lo ≤ hi
    · exact ⟨hi.toNat - lo.toNat, by omega, by rw [if_pos hle]⟩
    · refine ⟨256 + hi.toNat - lo.toNat, ?_, by rw [if_neg hle]⟩
      rw [UInt8.le_iff_toNat_le] at hle
      omega

theorem equal_complete {byte bound : UInt8} {inverse : Scalar}
    (hinverse : inverse = (ofByte byte - ofByte bound).inverse) :
    ofBool (byte == bound) - (1 - (ofByte byte - ofByte bound) * inverse) = 0 ∧
      (ofByte byte - ofByte bound) * ofBool (byte == bound) = 0 := by
  subst hinverse
  by_cases heq : byte = bound
  · subst heq
    rw [beq_self_eq_true, residue_eq_zero, residue_eq_zero]
    simp only [residue_sub, residue_mul, residue_one, residue_ofByte, sub_self, zero_mul, sub_zero]
    exact ⟨sub_eq_zero.mpr residue_one, trivial⟩
  · have hunit : IsUnit (ofByte byte - ofByte bound).residue := by
      rw [residue_sub, residue_ofByte, residue_ofByte]
      exact isUnit_sub_of_ne heq
    have hmul := inverse_mul_of_isUnit hunit
    rw [beq_eq_false_iff_ne.mpr heq, residue_eq_zero, residue_eq_zero,
      show ofBool false = (0 : Scalar) from rfl]
    generalize ofByte byte - ofByte bound = difference at hmul
    simp only [residue_sub, residue_mul, residue_one, residue_zero, mul_zero, and_true]
    linear_combination hmul

/-- The aid and the result of a comparison pass its gate. -/
theorem complete {test : Comparison} {bound byte : UInt8} {x : RowValues} (ha : x.a = ofByte byte)
    (hb : x.b = test.aid bound byte) (hc : x.c = ofBool (test.holds bound byte))
    (hk : x.k = ofByte bound) :
    (∀ p ∈ test.gate.polynomials x, p = 0) ∧ (test.isRanged = true → x.b ∈ byteTable) := by
  cases test with
  | equal =>
      obtain ⟨hresult, hvanish⟩ := equal_complete (hb.trans rfl)
      simp only [gate, Gate.polynomials, ha, hc, hk, List.forall_mem_cons]
      exact ⟨⟨hresult, hvanish, by simp⟩, fun hranged => by cases hranged⟩
  | atLeast =>
      obtain ⟨hbit, hgap, hbyte⟩ := wrapped_complete (hb.trans rfl)
      simp only [gate, Gate.polynomials, ha, hc, hk, List.forall_mem_cons]
      exact ⟨⟨hbit, hgap, by simp⟩, fun _ => hbyte⟩
  | atMost =>
      obtain ⟨hbit, hgap, hbyte⟩ := wrapped_complete (hb.trans rfl)
      simp only [gate, Gate.polynomials, ha, hc, hk, List.forall_mem_cons]
      exact ⟨⟨hbit, hgap, by simp⟩, fun _ => hbyte⟩

end Comparison

theorem Combination.polynomials_gate (way : Combination) (x : RowValues) :
    way.gate.polynomials x = [x.c - way.apply x.a x.b] := by
  cases way <;> rfl

/-! ### Rows -/

namespace Row

/-- What a row says about the cells under an assignment, whatever the prover puts into the cells
that only help the gates. -/
def Enforces (v : Assignment) (index : Nat) : Row → Prop
  | constant value => v ⟨.c, index⟩ = ofBool value
  | input _ => v ⟨.b, index⟩ ∈ byteTable
  | compare test bound _ source =>
      ∀ byte, v source = ofByte byte → v ⟨.c, index⟩ = ofBool (test.holds bound byte)
  | combine way left right => v ⟨.c, index⟩ = way.apply (v left) (v right)
  | negate source => v ⟨.c, index⟩ = 1 - v source

/-- The constraints on one row. -/
structure Meets (v : Assignment) (index : Nat) (row : Row) : Prop where
  gate : ∀ g, row.gate? = some g → ∀ p ∈ g.polynomials (v.rowValues index row), p = 0
  range : row.isRanged = true → v ⟨.b, index⟩ ∈ byteTable
  copies : ∀ copy ∈ row.copies index, v copy.1 = v copy.2
  constant : ∀ value, row = .constant value → v ⟨.c, index⟩ = ofBool value

theorem Meets.enforces {v : Assignment} {index : Nat} {row : Row} (h : row.Meets v index) :
    row.Enforces v index := by
  cases row with
  | constant value => exact h.constant value rfl
  | input position => exact h.range rfl
  | compare test bound position source =>
      intro byte hbyte
      have hcopy := h.copies (⟨.a, index⟩, source) (by simp [Row.copies])
      exact Comparison.sound (h.gate test.gate rfl) h.range (hcopy.trans hbyte) rfl
  | combine way left right =>
      have hleft : v ⟨.a, index⟩ = v left := h.copies (⟨.a, index⟩, left) (by simp [Row.copies])
      have hright : v ⟨.b, index⟩ = v right := h.copies (⟨.b, index⟩, right) (by simp [Row.copies])
      have hpoly := h.gate way.gate rfl
      rw [Combination.polynomials_gate, List.forall_mem_singleton] at hpoly
      show v ⟨.c, index⟩ = way.apply (v left) (v right)
      rw [← hleft, ← hright]
      exact eq_of_sub_eq_zero hpoly
  | negate source =>
      have hcopy : v ⟨.a, index⟩ = v source := h.copies (⟨.a, index⟩, source) (by simp [Row.copies])
      have hpoly := h.gate .neg rfl
      show v ⟨.c, index⟩ = 1 - v source
      rw [← hcopy]
      exact eq_of_sub_eq_zero (hpoly _ List.mem_cons_self)

section Complete

variable {v : Assignment} {index : Nat}

theorem meets_constant {value : Bool} (hc : v ⟨.c, index⟩ = ofBool value) :
    (Row.constant value).Meets v index where
  gate := by simp [gate?]
  range := by simp [isRanged]
  copies := by simp [Row.copies]
  constant := by
    rintro _ ⟨⟩
    exact hc

theorem meets_input {position : Nat} {byte : UInt8} (hb : v ⟨.b, index⟩ = ofByte byte) :
    (Row.input position).Meets v index where
  gate := by simp [gate?]
  range _ := mem_byteTable_iff.mpr ⟨byte, hb⟩
  copies := by simp [Row.copies]
  constant := by simp

theorem meets_compare {test : Comparison} {bound byte : UInt8} {position : Nat} {source : Cell}
    (hsource : v source = ofByte byte) (ha : v ⟨.a, index⟩ = v source)
    (hb : v ⟨.b, index⟩ = test.aid bound byte)
    (hc : v ⟨.c, index⟩ = ofBool (test.holds bound byte)) :
    (Row.compare test bound position source).Meets v index := by
  have hcomplete := Comparison.complete
    (x := v.rowValues index (.compare test bound position source)) (ha.trans hsource) hb hc rfl
  refine ⟨?_, hcomplete.2, by simpa [Row.copies] using ha, by simp⟩
  rintro _ ⟨⟩
  exact hcomplete.1

theorem meets_combine {way : Combination} {left right : Cell} (ha : v ⟨.a, index⟩ = v left)
    (hb : v ⟨.b, index⟩ = v right) (hc : v ⟨.c, index⟩ = way.apply (v left) (v right)) :
    (Row.combine way left right).Meets v index := by
  refine ⟨?_, by simp [isRanged], by simpa [Row.copies] using ⟨ha, hb⟩, by simp⟩
  rintro _ ⟨⟩
  rw [Combination.polynomials_gate, List.forall_mem_singleton, Assignment.rowValues, ha, hb, hc]
  exact sub_self_eq_zero _

theorem meets_negate {source : Cell} (ha : v ⟨.a, index⟩ = v source)
    (hc : v ⟨.c, index⟩ = 1 - v source) : (Row.negate source).Meets v index := by
  refine ⟨?_, by simp [isRanged], by simpa [Row.copies] using ha, by simp⟩
  rintro _ ⟨⟩
  rw [Gate.polynomials, List.forall_mem_singleton, Assignment.rowValues, ha, hc]
  exact sub_self_eq_zero _

end Complete

theorem satisfied_iff {v : Assignment} {index : Nat} {row : Row} :
    row.satisfied v index = true ↔ row.Meets v index := by
  have hgate : (row.gate?.all fun g => g.holds (v.rowValues index row)) = true ↔
      ∀ g, row.gate? = some g → ∀ p ∈ g.polynomials (v.rowValues index row), p = 0 := by
    cases row.gate? <;> simp [Gate.holds]
  have hrange : (!row.isRanged || (v ⟨.b, index⟩).isByte) = true ↔
      (row.isRanged = true → v ⟨.b, index⟩ ∈ byteTable) := by
    rw [← isByte_iff]
    cases row.isRanged <;> simp
  have hcopies : ((row.copies index).all fun copy => v copy.1 = v copy.2) = true ↔
      ∀ copy ∈ row.copies index, v copy.1 = v copy.2 := by
    simp
  unfold satisfied
  rw [Bool.and_eq_true, Bool.and_eq_true, Bool.and_eq_true, hgate, hrange, hcopies]
  constructor
  · rintro ⟨⟨⟨hgate, hrange⟩, hcopies⟩, hconstant⟩
    exact ⟨hgate, hrange, hcopies, by rintro value rfl; simpa using hconstant⟩
  · rintro ⟨hgate, hrange, hcopies, hconstant⟩
    refine ⟨⟨⟨hgate, hrange⟩, hcopies⟩, ?_⟩
    cases row with
    | constant value => simpa using hconstant value rfl
    | _ => rfl

end Row

namespace Layout

variable {l : Layout} {v : Assignment} {publicValue : Nat → Scalar}

/-- A layout is satisfied row by row and output by output. -/
theorem satisfies_iff : l.Satisfies v publicValue ↔
    (∀ (i : Nat) row, l.rows[i]? = some row → row.Meets v i) ∧
      ∀ (i : Nat) cell, l.outputs[i]? = some cell → v cell = publicValue i := by
  have hmem : ∀ copy, copy ∈ l.copies ↔
      ∃ (i : Nat) (row : Row), l.rows[i]? = some row ∧ copy ∈ row.copies i := by
    intro copy
    simp only [copies, List.mem_flatMap, Prod.exists, List.mem_zipIdx_iff_getElem?,
      Array.getElem?_toList]
    exact exists_comm
  constructor
  · rintro ⟨hgates, hranges, hcopies, hconstants, houtputs⟩
    refine ⟨fun i row hi => ⟨fun g => hgates i row g hi, hranges i row hi, ?_, ?_⟩, houtputs⟩
    · exact fun copy hcopy => hcopies copy ((hmem copy).mpr ⟨i, row, hi, hcopy⟩)
    · rintro value rfl
      exact hconstants i value hi
  · rintro ⟨hrows, houtputs⟩
    refine ⟨fun i row g hi => (hrows i row hi).gate g, fun i row hi => (hrows i row hi).range, ?_,
      fun i value hi => (hrows i _ hi).constant value rfl, houtputs⟩
    intro copy hcopy
    obtain ⟨i, row, hi, hcopy⟩ := (hmem copy).mp hcopy
    exact (hrows i row hi).copies copy hcopy

theorem satisfied_iff_satisfies : l.satisfied v publicValue = true ↔ l.Satisfies v publicValue := by
  rw [satisfied, Bool.and_eq_true, List.all_eq_true, List.all_eq_true, satisfies_iff]
  simp only [Prod.forall, List.mem_zipIdx_iff_getElem?, Array.getElem?_toList, decide_eq_true_eq,
    Row.satisfied_iff]
  exact and_congr forall_comm forall_comm

end Layout

end PatternCircuit
