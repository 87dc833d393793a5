import PatternCircuit.Program.Basic

/-! # Sizes of circuits -/

namespace PatternCircuit

namespace Op

/-- The rows that an operation takes; an operation on `n` operands is folded pairwise. -/
def rowCount : Op → Nat
  | equals _ | atLeast _ | atMost _ | neg _ | disclose _ => 1
  | conj operands | disj operands => operands.length - 1
  | storeState _ _ | storeChanged _ | storeCarry _ => 0

end Op

/-- The rows that one run of a step takes. -/
def stepRowCount : List Op → Nat
  | [] => 0
  | op :: rest => op.rowCount + stepRowCount rest

namespace Program

/-- Two constants, one row per byte with those of all steps, and one acceptance row per byte. -/
def requiredRows (p : Program) (inputLength : Nat) : Nat :=
  2 + inputLength * (1 + stepRowCount p.step + stepRowCount (p.reveals.flatMap Reveal.step)) +
    inputLength

/-- The byte table alone takes this many doublings. -/
def minLogRows : Nat := 9

/-- Rows set aside beside the required ones. -/
def slackRows : Nat := 16

/-- The least `k` from `minLogRows` on such that the required and the slack rows fit in `2 ^ k`. -/
def logRows (p : Program) (inputLength : Nat) : Nat :=
  max minLogRows (Nat.log2 (p.requiredRows inputLength + slackRows - 1) + 1)

end Program

end PatternCircuit
