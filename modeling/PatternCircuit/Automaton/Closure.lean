import PatternCircuit.Automaton.Nfa
import PatternCircuit.Automaton.Search
import PatternCircuit.Label

/-! # Closures under silent steps -/

namespace PatternCircuit

/-- A set of automaton states that no silent step leaves. -/
structure Closure where
  /-- In ascending order. -/
  members : List Nat
  accept : Bool
  /-- The symbols on the members' edges, in ascending order. -/
  alphabet : List Symbol
deriving DecidableEq

namespace Closure

/-- The states reached from the seeds by silent steps, in ascending order. -/
def spread (n : Nfa) (seeds : List Nat) : List Nat :=
  Search.reachable n.states.size n.silent seeds

/-- The closure with the given members. -/
def ofMembers (n : Nfa) (members : List Nat) : Closure :=
  { members
    accept := members.any fun s => n.role s == .accept
    alphabet := (Label.ofSymbols (members.flatMap fun s =>
      (n.edges s).filterMap NfaEdge.symbol)).symbols }

def ofSeeds (n : Nfa) (seeds : List Nat) : Closure := ofMembers n (spread n seeds)

/-- The states reached from a closure by one step on `a` and then silent steps. -/
def successors (n : Nfa) (c : Closure) (a : Symbol) : List Nat :=
  spread n (c.members.flatMap (n.targets a))

def move (n : Nfa) (c : Closure) (a : Symbol) : Closure := ofMembers n (c.successors n a)

def key (c : Closure) : String := String.intercalate "," (c.members.map toString)

end Closure

end PatternCircuit
