import PatternCircuit.Automaton.Dfa
import PatternCircuit.Error

/-! # Inflow of an automaton

The automaton seen from its targets: which states lead into a state and on which bytes. A step
program is written from this table. It exists only when exactly one state accepts and that state is
not the start, where the program idles. -/

namespace PatternCircuit

structure Inflow where
  stateCount : Nat
  acceptState : Nat
  /-- For each state the sources of its incoming edges, ascending, with their labels. -/
  incoming : Array (List (Nat × Label))
  /-- For each state the bytes listed on its outgoing edges; a negated edge excludes them. -/
  exclusions : Array ByteSet
  /-- Targets of the negated edges that leave the start. -/
  anchors : List Nat
  /-- Bytes on which the start is not left. -/
  idle : ByteSet
deriving DecidableEq

/-- The bytes listed on the outgoing edges of a state. -/
def Dfa.listedBytes (d : Dfa) (state : Nat) : ByteSet :=
  (d.edges state).foldl (fun s e => s.union e.1.bytes) .empty

/-- The label of the last edge between two states. -/
def Dfa.labelBetween? (d : Dfa) (source target : Nat) : Option Label :=
  ((d.edges source).filter fun e => e.2 == target).getLast?.map Prod.fst

/-- The sources of the edges into a state, ascending, with their labels. -/
def Dfa.sources (d : Dfa) (target : Nat) : List (Nat × Label) :=
  (List.range d.states.size).filterMap fun s => (d.labelBetween? s target).map fun l => (s, l)

namespace Inflow

/-- The bytes that an edge leaving a state takes, given the bytes listed on all its edges. -/
def bytesTaken (listed : ByteSet) (l : Label) : ByteSet :=
  if l.negated then listed.compl else l.bytes

/-- The bytes matched by the edge that leaves `source` under `l`. -/
def matched (a : Inflow) (source : Nat) (l : Label) : ByteSet :=
  bytesTaken (a.exclusions.getD source .empty) l

/-- The sources of the edges into a state with their labels. -/
def predecessors (a : Inflow) (target : Nat) : List (Nat × Label) := a.incoming.getD target []

/-- The only accept state, which has to differ from the start. -/
def acceptOf (d : Dfa) : Except StructureFault Nat :=
  match d.acceptStates with
  | [] => .error .noAccept
  | [s] => if s = 0 then .error .idleAccept else .ok s
  | states => .error (.manyAccept states)

def ofDfa (d : Dfa) : Except StructureFault Inflow := do
  let accept ← acceptOf d
  let listed := d.listedBytes 0
  let leaving := (d.edges 0).foldl (fun s e => s.union (bytesTaken listed e.1)) ByteSet.empty
  pure
    { stateCount := d.states.size
      acceptState := accept
      incoming := ((List.range d.states.size).map d.sources).toArray
      exclusions := ((List.range d.states.size).map d.listedBytes).toArray
      anchors := ((d.edges 0).filter fun e => e.1.negated).map Prod.snd
      idle := leaving.compl }

/-- Two states, the accept state entered from the start and from itself only. -/
def isSingleRepeat (a : Inflow) : Bool :=
  a.stateCount == 2 && (a.predecessors a.acceptState).map Prod.fst == [0, a.acceptState]

/-- The edges under a label, by target and then by source. -/
def edgesUnder (a : Inflow) (l : Label) : List (Nat × Nat) :=
  (List.range a.stateCount).flatMap fun target =>
    ((a.predecessors target).filter fun p => p.2 == l).map fun p => (p.1, target)

end Inflow

end PatternCircuit
