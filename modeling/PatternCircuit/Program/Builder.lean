import PatternCircuit.ByteSet
import PatternCircuit.Program.Basic
import PatternCircuit.Sorting

/-! # Building a step

A builder collects the operations of one step. Comparisons and disjunctions that were asked for
before are answered with the earlier result, and constants fold away. -/

namespace PatternCircuit

/-- How often a request was answered with an earlier result. -/
structure Hits where
  equality : Nat
  range : Nat
  disjunction : Nat
deriving DecidableEq, Repr

/-- The operations so far and the results they can be asked for again. -/
structure Builder where
  ops : Array Op
  equalities : List (UInt8 × Operand)
  ranges : List ((UInt8 × UInt8) × Operand)
  /-- Keyed by the sorted operands. -/
  disjunctions : List (List Operand × Operand)
  hits : Hits
deriving DecidableEq

namespace Builder

def empty : Builder := ⟨#[], [], [], [], ⟨0, 0, 0⟩⟩

/-- Runs of at least this many codes are tested with two inequalities. -/
def rangeThreshold : Nat := 16

/-- Appends an operation and names its result. -/
def emit (b : Builder) (op : Op) : Operand × Builder :=
  (.node b.ops.size, { b with ops := b.ops.push op })

/-- Appends an operation without a result. -/
def store (b : Builder) (op : Op) : Builder := { b with ops := b.ops.push op }

/-- Whether the input is `code`. -/
def equal (b : Builder) (code : UInt8) : Operand × Builder :=
  match b.equalities.lookup code with
  | some o => (o, { b with hits := { b.hits with equality := b.hits.equality + 1 } })
  | none =>
      let (o, b) := b.emit (.equals code)
      (o, { b with equalities := (code, o) :: b.equalities })

/-- Whether the input lies between `lo` and `hi`. -/
def range (b : Builder) (lo hi : UInt8) : Operand × Builder :=
  match b.ranges.lookup (lo, hi) with
  | some o => (o, { b with hits := { b.hits with range := b.hits.range + 1 } })
  | none =>
      let (lower, b) := b.emit (.atLeast lo)
      let (upper, b) := b.emit (.atMost hi)
      let (o, b) := b.emit (.conj [lower, upper])
      (o, { b with ranges := ((lo, hi), o) :: b.ranges })

/-- Whether one of the operands holds. -/
def any (b : Builder) (operands : List Operand) : Operand × Builder :=
  if operands.contains (.const true) then (.const true, b)
  else
    match (sortBy Operand.le (operands.filter fun o => o != .const false)).eraseDups with
    | [] => (.const false, b)
    | [o] => (o, b)
    | signature =>
        match b.disjunctions.lookup signature with
        | some o => (o, { b with hits := { b.hits with disjunction := b.hits.disjunction + 1 } })
        | none =>
            let (o, b) := b.emit (.disj signature)
            (o, { b with disjunctions := (signature, o) :: b.disjunctions })

/-- Whether all of the operands hold. -/
def all (b : Builder) (operands : List Operand) : Operand × Builder :=
  if operands.contains (.const false) then (.const false, b)
  else
    match (operands.filter fun o => o != .const true).eraseDups with
    | [] => (.const true, b)
    | [o] => (o, b)
    | kept => b.emit (.conj kept)

/-- Whether the operand does not hold. -/
def not (b : Builder) (operand : Operand) : Operand × Builder :=
  match operand with
  | .const value => (.const !value, b)
  | o => b.emit (.neg o)

/-- One equality test per code. -/
def equalEach (b : Builder) : List UInt8 → List Operand × Builder
  | [] => ([], b)
  | code :: codes =>
      let (o, b) := b.equal code
      let (os, b) := b.equalEach codes
      (o :: os, b)

/-- The tests of one run: a range if it is long, otherwise its codes one by one. -/
def testRun (b : Builder) (run : UInt8 × UInt8) : List Operand × Builder :=
  if rangeThreshold ≤ run.2.toNat - run.1.toNat + 1 then
    let (o, b) := b.range run.1 run.2
    ([o], b)
  else b.equalEach (ByteSet.interval run.1 run.2)

def testRuns (b : Builder) : List (UInt8 × UInt8) → List Operand × Builder
  | [] => ([], b)
  | run :: runs =>
      let (os, b) := b.testRun run
      let (rest, b) := b.testRuns runs
      (os ++ rest, b)

/-- Whether the input is in the set. -/
def byteTest (b : Builder) (set : ByteSet) : Operand × Builder :=
  let (parts, b) := b.testRuns set.runs
  b.any parts

/-! ### Results -/

def rangeLe (r s : UInt8 × UInt8) : Bool := r.1 < s.1 || (r.1 == s.1 && r.2 ≤ s.2)

/-- The ranges tested so far, in ascending order. -/
def testedRanges (b : Builder) : List (UInt8 × UInt8) := sortBy rangeLe (b.ranges.map Prod.fst)

/-- The codes tested for equality so far, in ascending order. -/
def testedCodes (b : Builder) : List UInt8 :=
  sortBy (fun c d => c ≤ d) (b.equalities.map Prod.fst)

def step (b : Builder) : List Op := b.ops.toList

end Builder

end PatternCircuit
