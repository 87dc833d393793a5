/-! # Step programs

A compiled pattern is a fixed list of operations that runs once per input byte. The transition step
runs forward over the input and computes the next automaton states; every reveal step runs backward
and discloses the bytes that it does not mask out. -/

namespace PatternCircuit

/-- A bit that an operation reads at byte position `t`. -/
inductive Operand where
  /-- State `index` before the byte. -/
  | state (index : Nat)
  /-- State `index` after the byte. -/
  | nextState (index : Nat)
  /-- Some state other than the idle one is active after the byte. -/
  | changed
  /-- The carry stored at position `t + 1`. -/
  | carry
  /-- The result of an earlier operation of the same step. -/
  | node (id : Nat)
  | const (value : Bool)
deriving DecidableEq, Repr

namespace Operand

/-- Place in the order of operands: kinds as declared, then their numbers. -/
def rank : Operand → Nat × Nat
  | state i => (0, i)
  | nextState i => (1, i)
  | changed => (2, 0)
  | carry => (3, 0)
  | node i => (4, i)
  | const b => (5, b.toNat)

def le (a b : Operand) : Bool :=
  a.rank.1 < b.rank.1 || (a.rank.1 == b.rank.1 && a.rank.2 ≤ b.rank.2)

/-- How messages name an operand. -/
def text : Operand → String
  | state i => s!"State({i})"
  | nextState i => s!"NextState({i})"
  | changed => "Changed"
  | carry => "Carry"
  | node i => s!"Node({i})"
  | const b => s!"Const({b})"

end Operand

/-- One operation of a step. Comparisons test the current input byte. -/
inductive Op where
  | equals (code : UInt8)
  | atLeast (bound : UInt8)
  | atMost (bound : UInt8)
  | conj (operands : List Operand)
  | disj (operands : List Operand)
  | neg (operand : Operand)
  | storeState (state : Nat) (value : Operand)
  | storeChanged (value : Operand)
  | storeCarry (value : Operand)
  /-- Discloses the input byte where the mask is set, and zero elsewhere. -/
  | disclose (mask : Operand)
deriving DecidableEq, Repr

namespace Op

/-- Later operations may read the result. -/
def isValue : Op → Bool
  | equals _ | atLeast _ | atMost _ | conj _ | disj _ | neg _ => true
  | storeState _ _ | storeChanged _ | storeCarry _ | disclose _ => false

def operands : Op → List Operand
  | equals _ | atLeast _ | atMost _ => []
  | conj os | disj os => os
  | neg o | storeState _ o | storeChanged o | storeCarry o | disclose o => [o]

/-- The automaton state that the operation stores. -/
def storedState? : Op → Option Nat
  | storeState s _ => some s
  | _ => none

def isStoreChanged : Op → Bool
  | storeChanged _ => true
  | _ => false

def isStoreCarry : Op → Bool
  | storeCarry _ => true
  | _ => false

def isDisclose : Op → Bool
  | disclose _ => true
  | _ => false

end Op

/-- How the accept state's activity over all positions becomes the verdict. -/
inductive Acceptance where
  /-- How many positions accept. -/
  | count
  /-- Whether some position accepts. -/
  | any
  /-- Whether every position after the first accepts. -/
  | all
deriving DecidableEq, Repr

namespace Acceptance

/-- The name in options, artifacts and on the command line. -/
def name : Acceptance → String
  | count => "count"
  | any => "exists"
  | all => "universal"

def ofName? (s : String) : Option Acceptance :=
  if s = "count" then some count
  else if s = "exists" then some any
  else if s = "universal" then some all
  else none

/-- The name in reports. -/
def title : Acceptance → String
  | count => "Count"
  | any => "Exists"
  | all => "Universal"

/-- What is reported for a name that is not an acceptance mode. -/
def unknownName (s : String) : String := s!"unknown acceptance mode '{s}'"

end Acceptance

/-- A named disclosure of the bytes consumed on some edges of the automaton. -/
structure Reveal where
  name : String
  edges : List (Nat × Nat)
  step : List Op
deriving DecidableEq, Repr

structure Program where
  stateCount : Nat
  acceptState : Nat
  acceptance : Acceptance
  step : List Op
  reveals : List Reveal
deriving DecidableEq, Repr

end PatternCircuit
