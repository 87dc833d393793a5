import PatternCircuit.Automaton.Inflow
import PatternCircuit.Program.Builder

/-! # Reveal steps

A reveal step runs backward. Its carry says that the run around the current byte goes on, without
falling back to the start, until it accepts or the input ends. Bytes consumed on the chosen edges
are disclosed where the carry holds. -/

namespace PatternCircuit.Inflow

/-- For each edge, whether it was taken. -/
def emitTaken : List (Nat × Nat) → Builder → List Operand × Builder
  | [], b => ([], b)
  | (source, target) :: rest, b =>
      let (taken, b) := b.all [.state source, .nextState target]
      let (others, b) := emitTaken rest b
      (taken :: others, b)

def revealStep (acceptState : Nat) (edges : List (Nat × Nat)) : List Op :=
  let (reach, b) := Builder.empty.any [.nextState acceptState, .carry]
  let (carried, b) := b.all [.changed, reach]
  let b := b.store (.storeCarry carried)
  let (taken, b) := emitTaken edges b
  let (onEdge, b) := b.any taken
  let (mask, b) := b.all [onEdge, carried]
  (b.store (.disclose mask)).step

/-- The reveal of the bytes consumed on the given edges, of which there has to be one. -/
def reveal (a : Inflow) (name : String) (edges : List (Nat × Nat)) : Except RevealFault Reveal :=
  if edges.isEmpty then .error (.noEdges name)
  else
    match edges.find? fun e => a.stateCount ≤ e.1 || a.stateCount ≤ e.2 with
    | some e => .error (.edgeOutside name e.1 e.2 a.stateCount)
    | none => .ok ⟨name, edges, revealStep a.acceptState edges⟩

end PatternCircuit.Inflow
