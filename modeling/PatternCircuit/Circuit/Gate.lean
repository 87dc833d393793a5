import PatternCircuit.Circuit.Scalar

/-! # Gates

A row has three cells `a`, `b` and `c` and a fixed value `k`. An enabled gate demands that its
polynomials vanish on the row; an enabled range check demands that `b` is a byte. -/

namespace PatternCircuit

/-- The values of one row. -/
structure RowValues where
  a : Scalar
  b : Scalar
  c : Scalar
  k : Scalar
deriving DecidableEq

inductive Gate where
  | isEqual
  | atLeast
  | atMost
  | conj
  | disj
  | neg
  | sum
deriving DecidableEq, Repr

namespace Gate

/-- All gates in the order of their numbers. -/
def all : List Gate := [isEqual, atLeast, atMost, conj, disj, neg, sum]

def name : Gate → String
  | isEqual => "is_equal"
  | atLeast => "at_least"
  | atMost => "at_most"
  | conj => "and"
  | disj => "or"
  | neg => "not"
  | sum => "add"

/-- The name of the selector that enables a gate. -/
def selector : Gate → String
  | isEqual => "eq"
  | atLeast => "ge"
  | atMost => "le"
  | g => g.name

/-- What has to vanish. Comparisons have the bound in `k` and their result in `c`. In `b`, an
equality test has the inverse of the difference; an inequality has the gap, wrapped around at 256 if
the test fails. -/
def polynomials (g : Gate) (x : RowValues) : List Scalar :=
  match g with
  | isEqual => [x.c - (1 - (x.a - x.k) * x.b), (x.a - x.k) * x.c]
  | atLeast => [x.c * (1 - x.c), x.b - (x.a - x.k + 256 * (1 - x.c))]
  | atMost => [x.c * (1 - x.c), x.b - (x.k - x.a + 256 * (1 - x.c))]
  | conj => [x.c - x.a * x.b]
  | disj => [x.c - (x.a + x.b - x.a * x.b)]
  | neg => [x.c - (1 - x.a)]
  | sum => [x.c - (x.a + x.b)]

def holds (g : Gate) (x : RowValues) : Bool := (g.polynomials x).all fun p => p = 0

end Gate

/-- The number of entries of the byte table. -/
def byteTableSize : Nat := 256

/-- The values that pass a range check. -/
def byteTable : List Scalar := (List.range byteTableSize).map Scalar.ofNat

/-- Membership in the byte table. -/
def Scalar.isByte (x : Scalar) : Bool := x.val < byteTableSize

/-! ### Failures -/

/-- What fails on a row: a polynomial of an enabled gate, or the range check. -/
inductive RowFailure where
  | gate (index : Nat) (gate : Gate)
  | range
deriving DecidableEq, Repr

namespace RowFailure

def text : RowFailure → String
  | gate index g => s!"Constraint {index} in gate {Gate.all.idxOf g} ('{g.name}')"
  | range => "Lookup 0"

/-- The polynomials with this index that do not vanish on a row, gate by gate. -/
def ofIndex (gates : List Gate) (x : RowValues) (index : Nat) : List RowFailure :=
  Gate.all.filterMap fun g =>
    if gates.contains g && (g.polynomials x)[index]?.any fun p => p ≠ 0 then some (gate index g)
    else none

/-- What fails on a row with the given gates and range check enabled: first polynomials of gates
come before second ones, and the range check is last. -/
def ofRow (gates : List Gate) (ranged : Bool) (x : RowValues) : List RowFailure :=
  ofIndex gates x 0 ++ ofIndex gates x 1 ++ if ranged && !x.b.isByte then [range] else []

end RowFailure

end PatternCircuit
