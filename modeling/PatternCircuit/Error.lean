import PatternCircuit.Program.Basic
import PatternCircuit.Text.Quoted

/-! # What can go wrong, and how it is reported -/

namespace PatternCircuit

/-- Why a pattern, or its expanded form, cannot be read. -/
inductive PatternCause where
  | emptyAlternative
  | unmatchedClose
  /-- The group opened at this offset of the expanded form is never closed. -/
  | missingClose (opened : Nat)
  | danglingPostfix (operator : UInt8)
  | trailingEscape
  /-- A byte that nothing can be read from, behind a whole pattern. -/
  | unexpected (byte : UInt8)
  | unexpectedEnd
  | bareCaret
  | unterminatedClass
  | emptyClass
deriving DecidableEq, Repr

def PatternCause.message : PatternCause → String
  | emptyAlternative => "empty alternative"
  | unmatchedClose => "unmatched ')'"
  | missingClose opened => s!"missing ')' for '(' at {opened}"
  | danglingPostfix operator => s!"dangling postfix operator '{Ascii.toChar operator}'"
  | trailingEscape => "trailing escape"
  | unexpected byte => "unexpected " ++ Quoted.quoteChar (Ascii.toChar byte)
  | unexpectedEnd => "unexpected end of pattern"
  | bareCaret => "unescaped '^' outside a character class"
  | unterminatedClass => "unterminated character class"
  | emptyClass => "empty character class"

structure PatternFault where
  cause : PatternCause
  offset : Nat
deriving DecidableEq, Repr

def PatternFault.message (f : PatternFault) : String := s!"{f.cause.message} at offset {f.offset}"

/-- A class range that makes no sense. -/
structure RangeFault where
  /-- The ends belong to different families; otherwise they are not ascending. -/
  mixed : Bool
  lo : UInt8
  hi : UInt8
  offset : Nat
deriving DecidableEq, Repr

def RangeFault.message (f : RangeFault) : String :=
  (if f.mixed then "inconsistent range types " else "invalid range ") ++
    s!"{Ascii.toChar f.lo}-{Ascii.toChar f.hi} at offset {f.offset}"

/-- Numbers between brackets, as in `[1, 2]`. -/
def numbersText (ns : List Nat) : String :=
  "[" ++ String.intercalate ", " (ns.map toString) ++ "]"

/-- Why an automaton cannot be turned into a step program. -/
inductive StructureFault where
  | noAccept
  | manyAccept (states : List Nat)
  | idleAccept
  | notSingleRepeat
deriving DecidableEq, Repr

def StructureFault.message : StructureFault → String
  | noAccept => "automaton has no accept state"
  | manyAccept states =>
      s!"automaton has {states.length} accept states {numbersText states}, expected exactly one"
  | idleAccept =>
      "accept state coincides with the idle state 0 (pattern matches the empty string)"
  | notSingleRepeat =>
      "universal acceptance requires a single repeated unit " ++
        "(two states, accept entered only from itself and the idle state)"

/-- Why a disclosure cannot be compiled. -/
inductive RevealFault where
  | duplicateName (name : String)
  | noEdges (name : String)
  | edgeOutside (name : String) (source target stateCount : Nat)
deriving DecidableEq, Repr

def RevealFault.message : RevealFault → String
  | duplicateName name => s!"duplicate reveal name '{name}'"
  | noEdges name => s!"reveal '{name}' has no edges"
  | edgeOutside name source target stateCount =>
      s!"reveal '{name}' edge ({source}, {target}) is outside the {stateCount}-state automaton"

/-- Why an exported automaton cannot be loaded. -/
inductive GraphFault where
  | noStates
  | unknownTarget (state target : Nat)
  | malformedKey (key : String)
  | notDeterministic (state : Nat) (key : String)
deriving DecidableEq, Repr

def GraphFault.message : GraphFault → String
  | noStates => "graph has no states"
  | unknownTarget state target => s!"state {state} has an edge to unknown state {target}"
  | malformedKey key => "malformed transition key " ++ Quoted.quote key
  | notDeterministic state key => s!"state {state} is not deterministic on " ++ Quoted.quote key

/-- Why a program is malformed. -/
inductive ProgramFault where
  | tooFewStates (count : Nat)
  | acceptOutOfRange (accept count : Nat)
  | unknownState (step : String) (node state : Nat)
  | unreadable (step : String) (node : Nat) (operand : Operand)
  | revealStore
  | stateStores (state times : Nat)
  | changedStores
  | revealStores (name : String)
  | revealWritesState (name : String)
  | revealEdge (name : String) (source target : Nat)
deriving DecidableEq, Repr

def ProgramFault.message : ProgramFault → String
  | tooFewStates count => s!"expected at least 2 states, got {count}"
  | acceptOutOfRange accept count => s!"accept state {accept} out of range 1..{count}"
  | unknownState step node state => s!"{step}: node {node} stores unknown state {state}"
  | unreadable step node operand => s!"{step}: node {node} cannot read {operand.text}"
  | revealStore => "reveal store in transition step"
  | stateStores state times => s!"state {state} stored {times} times in transition step"
  | changedStores => "state_changed must be stored exactly once"
  | revealStores name => s!"reveal '{name}' must store one carry and one reveal"
  | revealWritesState name => s!"reveal '{name}' writes transition state"
  | revealEdge name source target => s!"reveal '{name}' edge ({source}, {target}) out of range"

/-- Why an input cannot be padded. -/
inductive InputFault where
  | tooLong (length padded : Nat)
  | zeroByte (offset : Nat)
deriving DecidableEq, Repr

def InputFault.message : InputFault → String
  | tooLong length padded => s!"input of {length} bytes exceeds padded length {padded}"
  | zeroByte offset => s!"zero byte at offset {offset} collides with the padding sentinel"

/-- Why a circuit cannot be given an input or an instance. -/
inductive CircuitFault where
  | inputLength (expected got : Nat)
  | noInput
deriving DecidableEq, Repr

def CircuitFault.message : CircuitFault → String
  | inputLength expected got => s!"Expected {expected} input bytes but got {got}"
  | noInput => "public inputs need a known private input"

inductive Error where
  | pattern (fault : PatternFault)
  | range (fault : RangeFault)
  | structural (fault : StructureFault)
  | subPattern (sub : String)
  | reveal (fault : RevealFault)
  | graph (fault : GraphFault)
  | circuit (fault : CircuitFault)
  | program (fault : ProgramFault)
  | input (fault : InputFault)
deriving DecidableEq, Repr

namespace Error

def message : Error → String
  | pattern fault => "Parse error: " ++ fault.message
  | range fault => "Range error: " ++ fault.message
  | structural fault => "Structural invariant violated: " ++ fault.message
  | subPattern sub => "Sub-pattern not found: " ++ sub
  | reveal fault => "Invalid reveal: " ++ fault.message
  | graph fault => "Invalid graph: " ++ fault.message
  | circuit fault => "Circuit error: " ++ fault.message
  | program fault => "Malformed program: " ++ fault.message
  | input fault => "Invalid input: " ++ fault.message

/-- The message and, below it, what it rests on. -/
def chain (e : Error) : List String :=
  match e with
  | pattern fault => [e.message, fault.message]
  | _ => [e.message]

end Error

end PatternCircuit
