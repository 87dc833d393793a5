import PatternCircuit.Automaton.Refinement
import PatternCircuit.Lexicographic

/-! # Minimal automata

States are merged along the coarsest partition that keeps accepting states apart and respects every
label. Merged states are ordered by their joined names, the start excepted, which stays first. -/

namespace PatternCircuit.Dfa

/-- The states that can be reached from the start, in ascending order. -/
def reachable (d : Dfa) : List Nat :=
  Search.reachable d.states.size (fun s => (d.edges s).map Prod.snd)
    (if d.states.isEmpty then [] else [0])

/-- The labels on the edges of some states, in ascending order. -/
def alphabet (d : Dfa) (states : List Nat) : List Label :=
  sortBy Label.le (states.flatMap fun s => (d.edges s).map Prod.fst).eraseDups

/-- For each state, the given states that have an edge into it under the label. -/
def predecessors (d : Dfa) (states : List Nat) (l : Label) : Array (List Nat) :=
  states.foldr
    (fun s table => (d.edges s).foldr
      (fun e table => if e.1 = l then table.modify e.2 (s :: ·) else table) table)
    (Array.replicate d.states.size [])

/-- Accepting and rejecting states apart, as far as there are any. -/
def initialGroups (d : Dfa) (states : List Nat) : List (List Nat) :=
  [states.filter d.isAccept, states.filter fun s => !d.isAccept s].filter fun g => !g.isEmpty

/-- The coarsest partition of the reachable states that respects acceptance and labels. -/
def refinement (d : Dfa) : Refinement :=
  let states := d.reachable
  Refinement.run ((d.alphabet states).map (d.predecessors states)) states.length
    (Refinement.start d.states.size (d.initialGroups states))

/-! ### Merging blocks -/

def stateText (d : Dfa) (state : Nat) : String :=
  match d.states[state]? with
  | some s => s.name
  | none => ""

/-- The states of a block in the order of their names, and the names joined. -/
def keyed (d : Dfa) (block : List Nat) : String × List Nat :=
  let members := sortBy (fun a b => Lexicographic.textLe (d.stateText a) (d.stateText b)) block
  (String.intercalate "," (members.map d.stateText), members)

/-- The blocks in the order of their keys, the one that holds the start exchanged to the front. -/
def arrange (d : Dfa) (blocks : List (List Nat)) : Array (String × List Nat) :=
  let sorted := (sortBy (fun a b => Lexicographic.textLe a.1 b.1) (blocks.map d.keyed)).toArray
  match sorted.findIdx? fun b => b.2.contains 0 with
  | some i => sorted.swapIfInBounds 0 i
  | none => sorted

/-- For each state the place of its block. -/
def places (d : Dfa) (arranged : Array (String × List Nat)) : Array Nat :=
  arranged.toList.zipIdx.foldl
    (fun place b => b.1.2.foldl (fun place s => place.setIfInBounds s b.2) place)
    (Array.replicate d.states.size 0)

/-- One state per block. -/
def merge (d : Dfa) (blocks : List (List Nat)) : Dfa :=
  let arranged := d.arrange blocks
  let place := d.places arranged
  ⟨arranged.map fun (name, members) =>
    { name, members
      accept := (members.head?.map d.isAccept).getD false
      edges := mergeEdges (members.flatMap fun s =>
        (d.edges s).map fun e => (e.1, place.getD e.2 0)) }⟩

def minimize (d : Dfa) : Dfa := d.merge d.refinement.blocks.toList

end PatternCircuit.Dfa
