import PatternCircuit.Program.Validity

/-! # Running a program

The transition step turns the states before a byte into the states after it. The states start with
only the idle one active; reveal steps then walk back from the last byte, with the carry set. -/

namespace PatternCircuit

/-- What one execution of a step can read. -/
structure Frame where
  input : UInt8
  state : Array Bool
  next : Array Bool
  changed : Bool
  carry : Bool

/-- The value of an operand, given the results of the earlier nodes. -/
def Frame.read (f : Frame) (nodes : Array Bool) : Operand → Bool
  | .state i => f.state.getD i false
  | .nextState i => f.next.getD i false
  | .changed => f.changed
  | .carry => f.carry
  | .node id => nodes.getD id false
  | .const value => value

/-- What one execution of a step has stored. -/
structure Stores where
  next : Array Bool
  changed : Bool
  carry : Bool
  disclosed : UInt8
deriving DecidableEq

/-- The results of the nodes run so far and their stores. -/
structure StepRun where
  nodes : Array Bool
  stores : Stores
deriving DecidableEq

namespace StepRun

def start (count : Nat) : StepRun := ⟨#[], ⟨Array.replicate count false, false, false, 0⟩⟩

/-- Adds the result of a node. -/
def result (r : StepRun) (value : Bool) : StepRun := { r with nodes := r.nodes.push value }

/-- Runs one operation; those without a result leave `false` as theirs. -/
def exec (f : Frame) (r : StepRun) : Op → StepRun
  | .equals code => r.result (f.input == code)
  | .atLeast bound => r.result (bound ≤ f.input)
  | .atMost bound => r.result (f.input ≤ bound)
  | .conj operands => r.result (operands.all (f.read r.nodes))
  | .disj operands => r.result (operands.any (f.read r.nodes))
  | .neg operand => r.result (!f.read r.nodes operand)
  | .storeState state value =>
      ⟨r.nodes.push false,
        { r.stores with next := r.stores.next.setIfInBounds state (f.read r.nodes value) }⟩
  | .storeChanged value =>
      ⟨r.nodes.push false, { r.stores with changed := f.read r.nodes value }⟩
  | .storeCarry value => ⟨r.nodes.push false, { r.stores with carry := f.read r.nodes value }⟩
  | .disclose mask =>
      ⟨r.nodes.push false,
        { r.stores with disclosed := if f.read r.nodes mask then f.input else r.stores.disclosed }⟩

end StepRun

def runStep (step : List Op) (f : Frame) (count : Nat) : StepRun :=
  step.foldl (StepRun.exec f) (StepRun.start count)

inductive Verdict where
  | matched (holds : Bool)
  | counted (times : Nat)
deriving DecidableEq, Repr

namespace Verdict

/-- The number that is made public. -/
def value : Verdict → Nat
  | matched holds => holds.toNat
  | counted times => times

def text : Verdict → String
  | matched holds => s!"Match({holds})"
  | counted times => s!"Count({times})"

end Verdict

/-- One byte of a run with the states around it. -/
structure TraceRow where
  input : UInt8
  state : Array Bool
  next : Array Bool
  changed : Bool
deriving DecidableEq

/-- The input with every byte that is not disclosed zeroed. -/
structure RevealVector where
  name : String
  bytes : List UInt8
deriving DecidableEq

structure Evaluation where
  /-- The active states at every position, from before the first byte to after the last. -/
  states : List (Array Bool)
  changed : List Bool
  verdict : Verdict
  reveals : List RevealVector
deriving DecidableEq

/-- The verdict followed by the reveals, byte by byte. -/
def Evaluation.publicOutputs (e : Evaluation) : List Nat :=
  e.verdict.value :: e.reveals.flatMap fun r => r.bytes.map UInt8.toNat

namespace Program

/-- Only the idle state is active. -/
def initialState (p : Program) : Array Bool :=
  (Array.replicate p.stateCount false).setIfInBounds 0 true

/-- The states after the rows so far, the latest row first. -/
def currentState (p : Program) : List TraceRow → Array Bool
  | [] => p.initialState
  | row :: _ => row.next

/-- Runs the transition step on one more byte. -/
def advance (p : Program) (rows : List TraceRow) (byte : UInt8) : List TraceRow :=
  let state := p.currentState rows
  let stores := (runStep p.step ⟨byte, state, #[], false, false⟩ p.stateCount).stores
  ⟨byte, state, stores.next, stores.changed⟩ :: rows

/-- The rows of a run, the latest byte first. -/
def trace (p : Program) (input : List UInt8) : List TraceRow := input.foldl p.advance []

/-- Runs a reveal step on the byte before those that are done. -/
def revealByte (count : Nat) (step : List Op) (done : Bool × List UInt8) (row : TraceRow) :
    Bool × List UInt8 :=
  let stores := (runStep step ⟨row.input, row.state, row.next, row.changed, done.1⟩ count).stores
  (stores.carry, stores.disclosed :: done.2)

/-- Walks back over the rows of a run. -/
def revealBytes (count : Nat) (step : List Op) (rows : List TraceRow) : List UInt8 :=
  (rows.foldl (revealByte count step) (true, [])).2

/-- Whether the accept state is active. -/
def accepting (p : Program) (state : Array Bool) : Bool := state.getD p.acceptState false

/-- The verdict on the active states at every position. -/
def verdict (p : Program) (states : List (Array Bool)) : Verdict :=
  match p.acceptance with
  | .count => .counted (states.countP p.accepting)
  | .any => .matched (states.any p.accepting)
  | .all => .matched ((states.drop 1).all p.accepting)

/-- A run of a well-formed program. -/
def run (p : Program) (input : List UInt8) : Evaluation :=
  let rows := p.trace input
  let states := p.initialState :: (rows.map TraceRow.next).reverse
  { states
    changed := (rows.map TraceRow.changed).reverse
    verdict := p.verdict states
    reveals := p.reveals.map fun r => ⟨r.name, revealBytes p.stateCount r.step rows⟩ }

def evaluate (p : Program) (input : List UInt8) : Except ProgramFault Evaluation :=
  match p.validate with
  | .error fault => .error fault
  | .ok () => .ok (p.run input)

end Program

/-- The input filled up with zeros, which it must not contain itself. -/
def padInput (input : List UInt8) (length : Nat) : Except InputFault (List UInt8) :=
  if length < input.length then .error (.tooLong input.length length)
  else
    match input.findIdx? fun b => b == 0 with
    | some offset => .error (.zeroByte offset)
    | none => .ok (input ++ List.replicate (length - input.length) 0)

end PatternCircuit
