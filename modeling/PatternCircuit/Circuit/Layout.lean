import PatternCircuit.Circuit.Gate
import PatternCircuit.Program.Basic

/-! # Circuit layouts

A layout is a list of rows. Each row states which earlier cells it copies and what it computes from
them; two constants come first. -/

namespace PatternCircuit

inductive Column where
  | a
  | b
  | c
deriving DecidableEq, Repr

def Column.name : Column → String
  | a => "a"
  | b => "b"
  | c => "c"

structure Cell where
  column : Column
  row : Nat
deriving DecidableEq, Repr

/-- A test of an input byte against a bound. -/
inductive Comparison where
  | equal
  | atLeast
  | atMost
deriving DecidableEq, Repr

namespace Comparison

def gate : Comparison → Gate
  | equal => .isEqual
  | atLeast => .atLeast
  | atMost => .atMost

/-- Whether the gap is range-checked. -/
def isRanged : Comparison → Bool
  | equal => false
  | atLeast | atMost => true

/-- The result of the test. -/
def holds (bound byte : UInt8) : Comparison → Bool
  | equal => byte == bound
  | atLeast => bound ≤ byte
  | atMost => byte ≤ bound

/-- The value that lets the gate confirm the result. -/
def aid (bound byte : UInt8) : Comparison → Scalar
  | equal => (Scalar.ofByte byte - Scalar.ofByte bound).inverse
  | atLeast =>
      if bound ≤ byte then .ofNat (byte.toNat - bound.toNat)
      else .ofNat (256 + byte.toNat - bound.toNat)
  | atMost =>
      if byte ≤ bound then .ofNat (bound.toNat - byte.toNat)
      else .ofNat (256 + bound.toNat - byte.toNat)

end Comparison

/-- A way to combine two cells into one. -/
inductive Combination where
  | conj
  | disj
  | sum
deriving DecidableEq, Repr

namespace Combination

def gate : Combination → Gate
  | conj => .conj
  | disj => .disj
  | sum => .sum

def apply (x y : Scalar) : Combination → Scalar
  | conj => x * y
  | disj => x + y - x * y
  | sum => x + y

end Combination

/-- One row of a circuit. -/
inductive Row where
  | constant (value : Bool)
  /-- The input byte at a position. -/
  | input (position : Nat)
  /-- A test of the input byte at a position, copied from `source`. -/
  | compare (test : Comparison) (bound : UInt8) (position : Nat) (source : Cell)
  | combine (way : Combination) (left right : Cell)
  | negate (source : Cell)
deriving DecidableEq, Repr

namespace Row

def gate? : Row → Option Gate
  | constant _ | input _ => none
  | compare test _ _ _ => some test.gate
  | combine way _ _ => some way.gate
  | negate _ => some .neg

/-- Whether cell `b` is range-checked. -/
def isRanged : Row → Bool
  | input _ => true
  | compare test _ _ _ => test.isRanged
  | _ => false

/-- The fixed value of a row. -/
def bound? : Row → Option UInt8
  | compare _ bound _ _ => some bound
  | _ => none

/-- The names of the enabled selectors in alphabetical order. -/
def selectors (row : Row) : List String :=
  (row.gate?.map Gate.selector).toList ++ if row.isRanged then ["range"] else []

/-- The cells of row number `index` that are copies, with what they copy. -/
def copies (index : Nat) : Row → List (Cell × Cell)
  | constant _ | input _ => []
  | compare _ _ _ source => [(⟨.a, index⟩, source)]
  | combine _ left right => [(⟨.a, index⟩, left), (⟨.b, index⟩, right)]
  | negate source => [(⟨.a, index⟩, source)]

end Row

structure Layout where
  rows : Array Row
  verdict : Cell
  /-- The disclosed bytes, reveal by reveal. -/
  disclosed : List Cell
deriving DecidableEq

namespace Layout

/-- The cells that have to equal the public values. -/
def outputs (l : Layout) : List Cell := l.verdict :: l.disclosed

/-- All copies in the order of the rows. -/
def copies (l : Layout) : List (Cell × Cell) :=
  l.rows.toList.zipIdx.flatMap fun r => r.1.copies r.2

end Layout

/-! ### Placing rows -/

/-- The rows placed so far. -/
structure Sheet where
  rows : Array Row
deriving DecidableEq

namespace Sheet

def start : Sheet := ⟨#[.constant false, .constant true]⟩

/-- The cell of a constant. -/
def constant (value : Bool) : Cell := ⟨.c, value.toNat⟩

/-- Appends a row and names one of its cells. -/
def place (s : Sheet) (row : Row) (column : Column) : Cell × Sheet :=
  (⟨column, s.rows.size⟩, ⟨s.rows.push row⟩)

/-- Combines a cell with further ones, from left to right. -/
def combineFrom (way : Combination) : Cell → List Cell → Sheet → Cell × Sheet
  | first, [], s => (first, s)
  | first, cell :: rest, s =>
      let placed := s.place (.combine way first cell) .c
      combineFrom way placed.1 rest placed.2

/-- Combines all cells; without any, the result is a constant. -/
def combineAll (way : Combination) (neutral : Bool) : List Cell → Sheet → Cell × Sheet
  | [], s => (constant neutral, s)
  | first :: rest, s => combineFrom way first rest s

end Sheet

end PatternCircuit
