import PatternCircuit.Pattern.Tree

/-! # Nondeterministic automata

The automaton of a tree has one entry and one exit state per subtree. Its wires are listed in the
order in which the states' edges are kept. -/

namespace PatternCircuit

/-- An edge out of a state; without a symbol it is taken silently. -/
structure NfaEdge where
  symbol : Option Symbol
  target : Nat
deriving DecidableEq

/-- An edge together with the state it leaves. -/
structure Wire where
  source : Nat
  symbol : Option Symbol
  target : Nat
deriving DecidableEq

def Wire.edge (w : Wire) : NfaEdge := ⟨w.symbol, w.target⟩

structure Nfa where
  states : Array (List NfaEdge)
  start : Nat
  accept : Nat
deriving DecidableEq

namespace Nfa

/-- Where a state stands: the start takes precedence over the accept state. -/
inductive Role where
  | start
  | inner
  | accept
deriving DecidableEq

def role (n : Nfa) (state : Nat) : Role :=
  if state = n.start then .start
  else if state = n.accept then .accept
  else .inner

def edges (n : Nfa) (state : Nat) : List NfaEdge := n.states.getD state []

/-- The states one silent step away. -/
def silent (n : Nfa) (state : Nat) : List Nat :=
  ((n.edges state).filter fun e => e.symbol.isNone).map NfaEdge.target

/-- The states one step on `a` away. -/
def targets (n : Nfa) (a : Symbol) (state : Nat) : List Nat :=
  ((n.edges state).filter fun e => e.symbol == some a).map NfaEdge.target

end Nfa

/-! ### The automaton of a tree -/

namespace Tree

mutual

/-- The wires from `entry` to `exit` for a tree, and the first state number left unused when
numbers from `next` on are free. -/
def wires (entry exit next : Nat) : Tree → List Wire × Nat
  | empty _ => ([⟨entry, none, exit⟩], next)
  | text _ a => ([⟨entry, some a, exit⟩], next)
  | cat _ parts => chain entry exit next parts
  | alt _ parts => fan entry exit next parts
  | star _ body =>
      let (inner, free) := wires next (next + 1) (next + 2) body
      ([⟨entry, none, next⟩, ⟨entry, none, exit⟩] ++ inner ++
        [⟨next + 1, none, next⟩, ⟨next + 1, none, exit⟩], free)

/-- One part after the other. -/
def chain (entry exit next : Nat) : List Tree → List Wire × Nat
  | [] => ([], next)
  | part :: rest =>
      match rest with
      | [] => wires entry exit next part
      | _ :: _ =>
          let (first, free) := wires entry next (next + 1) part
          let (later, free) := chain next exit free rest
          (first ++ later, free)

/-- All parts side by side. -/
def fan (entry exit next : Nat) : List Tree → List Wire × Nat
  | [] => ([], next)
  | part :: rest =>
      let (first, free) := wires next (next + 1) (next + 2) part
      let (later, free) := fan entry exit free rest
      (⟨entry, none, next⟩ :: (first ++ ⟨next + 1, none, exit⟩ :: later), free)

end

end Tree

namespace Nfa

/-- Puts a wire in front of the edges of its source. -/
def attach (w : Wire) (states : Array (List NfaEdge)) : Array (List NfaEdge) :=
  states.modify w.source (w.edge :: ·)

/-- The states below `size` with the edges that the wires give them. -/
def ofWires (size start accept : Nat) (ws : List Wire) : Nfa :=
  ⟨ws.foldr attach (Array.replicate size []), start, accept⟩

def ofTree (t : Tree) : Nfa :=
  let (ws, size) := t.wires 0 1 2
  ofWires size 0 1 ws

end Nfa

end PatternCircuit
