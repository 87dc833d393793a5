import PatternCircuit.Automaton.Inflow
import PatternCircuit.Program.Builder

/-! # The transition step

A state other than the start is active after a byte if one of its incoming edges fired. The start is
active exactly when no other state is. -/

namespace PatternCircuit

/-- The transition step and the comparisons that it makes. -/
structure TransitionCode where
  step : List Op
  ranges : List (UInt8 × UInt8)
  equalities : List UInt8
  hits : Hits
deriving DecidableEq

namespace Inflow

/-- Whether the input byte is one that the edge from `source` under `l` takes. -/
def emitTest (a : Inflow) (source : Nat) (l : Label) (b : Builder) : Operand × Builder :=
  if l.negated then
    let (excluded, b) := b.byteTest (a.exclusions.getD source .empty)
    b.not excluded
  else b.byteTest l.bytes

/-- For each edge, whether it fires. -/
def emitFired (a : Inflow) : List (Nat × Label) → Builder → List Operand × Builder
  | [], b => ([], b)
  | (source, l) :: rest, b =>
      let (test, b) := a.emitTest source l b
      let (fired, b) := b.all [.state source, test]
      let (others, b) := a.emitFired rest b
      (fired :: others, b)

/-- Stores the given states and lists their values. -/
def emitStates (a : Inflow) : List Nat → Builder → List Operand × Builder
  | [], b => ([], b)
  | target :: rest, b =>
      let (fired, b) := a.emitFired (a.predecessors target) b
      let (value, b) := b.any fired
      let (values, b) := a.emitStates rest (b.store (.storeState target value))
      (value :: values, b)

def transitionCode (a : Inflow) : TransitionCode :=
  let (values, b) := a.emitStates ((List.range a.stateCount).drop 1) .empty
  let (moved, b) := b.any values
  let b := b.store (.storeChanged moved)
  let (idle, b) := b.not moved
  let b := b.store (.storeState 0 idle)
  ⟨b.step, b.testedRanges, b.testedCodes, b.hits⟩

end Inflow

end PatternCircuit
