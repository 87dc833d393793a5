import PatternCircuit.Automaton.Closure
import PatternCircuit.Sorting

/-! # Deterministic automata

State zero is the start. The states of a determinised automaton are numbered and named in the order
in which a breadth-first search discovers them. -/

namespace PatternCircuit

structure DfaState where
  name : String
  /-- The states of an earlier automaton that this one stands for. -/
  members : List Nat
  accept : Bool
  edges : List (Label × Nat)
deriving DecidableEq

/-- The target of the edge with exactly this label. -/
def DfaState.target? (s : DfaState) (l : Label) : Option Nat :=
  (s.edges.find? fun e => e.1 == l).map Prod.snd

structure Dfa where
  states : Array DfaState
deriving DecidableEq

namespace Dfa

/-! ### State names -/

/-- The letters of the number `n` in bijective base 26, which has no letter for zero. -/
def letters (n : Nat) : List Char :=
  if n = 0 then []
  else letters ((n - 1) / 26) ++ [Char.ofNat (65 + (n - 1) % 26)]
termination_by n
decreasing_by omega

/-- State names run `A`, …, `Z`, `AA`, `AB`, …. -/
def stateName (index : Nat) : String := String.ofList (letters (index + 1))

/-! ### Determinisation -/

/-- The number of the closure with the given members; one that is not known yet gets the next
number. -/
def number (n : Nfa) (known : Array Closure) (members : List Nat) : Nat × Array Closure :=
  match known.findIdx? fun c => c.members == members with
  | some i => (i, known)
  | none => (known.size, known.push (.ofMembers n members))

/-- The edges of a closure on the given symbols. -/
def expand (n : Nfa) (c : Closure) :
    List Symbol → Array Closure → List (Label × Nat) × Array Closure
  | [], known => ([], known)
  | a :: as, known =>
      let (target, known) := number n known (c.successors n a)
      let (edges, known) := expand n c as known
      ((.ofSymbol a, target) :: edges, known)

/-- Expands the closures in order of their numbers; those below `edges.size` are done. -/
def discover (n : Nfa) :
    Nat → Array Closure → Array (List (Label × Nat)) →
      Array Closure × Array (List (Label × Nat))
  | 0, known, edges => (known, edges)
  | rounds + 1, known, edges =>
      match known[edges.size]? with
      | none => (known, edges)
      | some c =>
          let (out, known) := expand n c c.alphabet known
          discover n rounds known (edges.push out)

/-- The automaton whose states are the closures met from the start closure on. There are no more of
them than sets of states. -/
def ofNfa (n : Nfa) : Dfa :=
  let (known, edges) := discover n (Nat.pow 2 n.states.size) #[Closure.ofSeeds n [n.start]] #[]
  ⟨(known.zip edges).mapIdx fun i s =>
    { name := stateName i, members := s.1.members, accept := s.1.accept, edges := s.2 }⟩

/-! ### Use -/

def edges (d : Dfa) (state : Nat) : List (Label × Nat) :=
  match d.states[state]? with
  | some s => s.edges
  | none => []

def isAccept (d : Dfa) (state : Nat) : Bool :=
  match d.states[state]? with
  | some s => s.accept
  | none => false

def acceptStates (d : Dfa) : List Nat := (List.range d.states.size).filter d.isAccept

def edgeCount (d : Dfa) : Nat := (d.states.toList.flatMap DfaState.edges).length

/-- The target of the first edge whose label holds the symbol. -/
def step? (d : Dfa) (state : Nat) (a : Symbol) : Option Nat :=
  ((d.edges state).find? fun e => e.1.contains a).map Prod.snd

/-- The state after a word, if it can be read. -/
def run? (d : Dfa) (state : Nat) : List Symbol → Option Nat
  | [] => some state
  | a :: word => (d.step? state a).bind fun next => d.run? next word

def accepts (d : Dfa) (word : List Symbol) : Bool :=
  match d.run? 0 word with
  | some state => d.isAccept state
  | none => false

/-! ### Merging edges -/

/-- Edges are ordered by label, then by target. -/
def edgeLe (e f : Label × Nat) : Bool :=
  if e.1 = f.1 then e.2 ≤ f.2 else e.1.le f.1

/-- One edge per target, on all symbols that lead there, in ascending order. -/
def mergeEdges (edges : List (Label × Nat)) : List (Label × Nat) :=
  sortBy edgeLe ((edges.map Prod.snd).eraseDups.map fun t =>
    ((edges.filter fun e => e.2 == t).foldl (fun l e => l.union e.1) .empty, t))

end Dfa

end PatternCircuit
