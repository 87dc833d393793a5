import PatternCircuit.Circuit.Layout

/-! # The layout of a program

The transition step is laid out once per byte, then the acceptance of all positions, then every
reveal step once per byte from the last one back. Nothing is laid out for an operand that has no
cell; well-formed programs have none. -/

namespace PatternCircuit

/-- The cells that one run of a step can read. -/
structure CellFrame where
  position : Nat
  input : Cell
  state : Array Cell
  next : Array Cell
  changed : Option Cell
  carry : Option Cell

namespace CellFrame

/-- The cell of an operand, given those of the earlier nodes. -/
def cell? (f : CellFrame) (nodes : Array (Option Cell)) : Operand → Option Cell
  | .state i => f.state[i]?
  | .nextState i => f.next[i]?
  | .changed => f.changed
  | .carry => f.carry
  | .node id => nodes[id]?.join
  | .const value => some (Sheet.constant value)

def cells? (f : CellFrame) (nodes : Array (Option Cell)) : List Operand → Option (List Cell)
  | [] => some []
  | o :: os => do
      let cell ← f.cell? nodes o
      let cells ← f.cells? nodes os
      pure (cell :: cells)

end CellFrame

/-- The cells of the nodes laid out so far and of their stores. -/
structure StepCells where
  nodes : Array (Option Cell)
  next : Array (Option Cell)
  changed : Option Cell
  carry : Option Cell
  disclosed : Option Cell
deriving DecidableEq

namespace StepCells

def start (count : Nat) : StepCells := ⟨#[], Array.replicate count none, none, none, none⟩

/-- Adds the cell of a node. -/
def result (r : StepCells) (placed : Cell × Sheet) : StepCells × Sheet :=
  ({ r with nodes := r.nodes.push (some placed.1) }, placed.2)

/-- Adds a node without a cell. -/
def silent (r : StepCells) : StepCells := { r with nodes := r.nodes.push none }

/-- Lays out a comparison of the input byte. -/
def compare (f : CellFrame) (r : StepCells) (s : Sheet) (test : Comparison) (bound : UInt8) :
    StepCells × Sheet :=
  r.result (s.place (.compare test bound f.position f.input) .c)

/-- Lays out one operation. -/
def exec? (f : CellFrame) (r : StepCells) (s : Sheet) : Op → Option (StepCells × Sheet)
  | .equals code => some (r.compare f s .equal code)
  | .atLeast bound => some (r.compare f s .atLeast bound)
  | .atMost bound => some (r.compare f s .atMost bound)
  | .conj operands => do
      let cells ← f.cells? r.nodes operands
      pure (r.result (s.combineAll .conj true cells))
  | .disj operands => do
      let cells ← f.cells? r.nodes operands
      pure (r.result (s.combineAll .disj false cells))
  | .neg operand => do
      let cell ← f.cell? r.nodes operand
      pure (r.result (s.place (.negate cell) .c))
  | .storeState state value => do
      let cell ← f.cell? r.nodes value
      if state < r.next.size then
        pure ({ r.silent with next := r.next.setIfInBounds state (some cell) }, s)
      else none
  | .storeChanged value => do
      let cell ← f.cell? r.nodes value
      pure ({ r.silent with changed := some cell }, s)
  | .storeCarry value => do
      let cell ← f.cell? r.nodes value
      pure ({ r.silent with carry := some cell }, s)
  | .disclose mask => do
      let cell ← f.cell? r.nodes mask
      let placed := s.place (.combine .conj f.input cell) .c
      pure ({ r.silent with disclosed := some placed.1 }, placed.2)

/-- Lays out operations one after the other. -/
def run? (f : CellFrame) : List Op → StepCells → Sheet → Option (StepCells × Sheet)
  | [], r, s => some (r, s)
  | op :: rest, r, s => do
      let done ← r.exec? f s op
      run? f rest done.1 done.2

end StepCells

/-- The cells around one input byte. -/
structure PlacedByte where
  position : Nat
  input : Cell
  state : Array Cell
  next : Array Cell
  changed : Cell

/-- All of the optional cells, if none is missing. -/
def allCells? : List (Option Cell) → Option (List Cell)
  | [] => some []
  | cell :: rest => do
      let c ← cell
      let cs ← allCells? rest
      pure (c :: cs)

namespace Program

/-- The constants that only the idle state is active at first. -/
def initialCells (p : Program) : Array Cell :=
  ((List.range p.stateCount).map fun i => Sheet.constant (i == 0)).toArray

/-- The state cells after the bytes so far, the latest byte first. -/
def currentCells (p : Program) : List PlacedByte → Array Cell
  | [] => p.initialCells
  | byte :: _ => byte.next

/-- Lays out the transition step for one more byte. -/
def placeByte? (p : Program) (bytes : List PlacedByte) (s : Sheet) :
    Option (List PlacedByte × Sheet) := do
  let position := bytes.length
  let state := p.currentCells bytes
  let input := s.place (.input position) .b
  let done ← StepCells.run? ⟨position, input.1, state, #[], none, none⟩ p.step
    (StepCells.start p.stateCount) input.2
  let next ← allCells? done.1.next.toList
  let changed ← done.1.changed
  pure (⟨position, input.1, state, next.toArray, changed⟩ :: bytes, done.2)

/-- Lays out the transition step for all bytes; the latest byte comes first. -/
def placeBytes? (p : Program) : Nat → Option (List PlacedByte × Sheet)
  | 0 => some ([], Sheet.start)
  | count + 1 => do
      let before ← p.placeBytes? count
      p.placeByte? before.1 before.2

/-- Lays out the acceptance of the state cells at every position. -/
def placeVerdict? (p : Program) (states : List (Array Cell)) (s : Sheet) :
    Option (Cell × Sheet) := do
  let cells ← allCells? (states.map fun state => state[p.acceptState]?)
  match p.acceptance with
  | .count => pure (s.combineAll .sum false cells)
  | .any => pure (s.combineAll .disj false cells)
  | .all => pure (s.combineAll .conj true (cells.drop 1))

/-- Lays out a reveal step from the last byte back; `carry` is the cell of the byte after, and
`disclosed` has the cells of the bytes after. -/
def placeReveal? (count : Nat) (step : List Op) :
    List PlacedByte → (carry : Cell) → (disclosed : List Cell) → Sheet → Option (List Cell × Sheet)
  | [], _, disclosed, s => some (disclosed, s)
  | byte :: earlier, carry, disclosed, s => do
      let done ← StepCells.run?
        ⟨byte.position, byte.input, byte.state, byte.next, some byte.changed, some carry⟩ step
        (StepCells.start count) s
      let carried ← done.1.carry
      let cell ← done.1.disclosed
      placeReveal? count step earlier carried (cell :: disclosed) done.2

def placeReveals? (count : Nat) (bytes : List PlacedByte) :
    List Reveal → Sheet → Option (List Cell × Sheet)
  | [], s => some ([], s)
  | reveal :: rest, s => do
      let first ← placeReveal? count reveal.step bytes (Sheet.constant true) [] s
      let others ← placeReveals? count bytes rest first.2
      pure (first.1 ++ others.1, others.2)

/-- The layout of a program over an input of the given length. -/
def layout? (p : Program) (inputLength : Nat) : Option Layout := do
  let forward ← p.placeBytes? inputLength
  let states := p.initialCells :: (forward.1.map PlacedByte.next).reverse
  let verdict ← p.placeVerdict? states forward.2
  let reveals ← placeReveals? p.stateCount forward.1 p.reveals verdict.2
  pure ⟨reveals.2.rows, verdict.1, reveals.1⟩

end Program

end PatternCircuit
