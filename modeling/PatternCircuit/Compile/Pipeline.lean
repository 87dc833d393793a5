import PatternCircuit.Automaton.Minimal
import PatternCircuit.Compile.Journal
import PatternCircuit.Pattern.Parser
import PatternCircuit.Program.Reveal
import PatternCircuit.Program.Transition

/-! # Compiling patterns -/

namespace PatternCircuit

open Journaled

/-! ### Automata -/

/-- The minimal automaton of a pattern, with a report of the automata on the way. -/
def minimalDfaJournaled (pattern : String) : Journaled Dfa := do
  let tree ← ofExcept (Tree.ofPattern pattern)
  let nfa := Nfa.ofTree tree
  report (.nfaBuilt nfa.states.size tree.size)
  let dfa := Dfa.ofNfa nfa
  report (.dfaBuilt dfa.states.size nfa.states.size)
  let states := dfa.reachable
  let minimal := dfa.minimize
  report (.minimized states.length minimal.states.size
    (minimal.states.size - (dfa.initialGroups states).length))
  pure minimal

def minimalDfa (pattern : String) : Except Error Dfa := (minimalDfaJournaled pattern).outcome

def Inflow.ofDfaJournaled (d : Dfa) : Journaled Inflow := do
  let a ← lift .structural (Inflow.ofDfa d)
  report (.inverted a.stateCount a.acceptState a.anchors.length)
  pure a

/-! ### Reveals -/

/-- The labels of an automaton in order of first appearance. -/
def Dfa.labels (d : Dfa) : List Label :=
  (d.states.toList.flatMap fun s => s.edges.map Prod.fst).eraseDups

/-- The edges whose labels are among the given ones, label by label. -/
def Inflow.edgesUnderAny (a : Inflow) (labels : List Label) : List (Nat × Nat) :=
  (labels.flatMap a.edgesUnder).eraseDups

/-- Whether `sub` stands somewhere in a word. -/
def occursIn (sub : List UInt8) : List UInt8 → Bool
  | [] => sub.isEmpty
  | b :: rest => sub.isPrefixOf (b :: rest) || occursIn sub rest

/-- The edges that carry a label of the sub-pattern's own automaton. The sub-pattern has to occur
literally in the pattern. -/
def substringEdgesJournaled (pattern sub : String) (a : Inflow) : Journaled (List (Nat × Nat)) := do
  if sub.isEmpty || !occursIn sub.toUTF8.toList pattern.toUTF8.toList then
    ofExcept (.error (.subPattern sub))
  else
    let labels := (← minimalDfaJournaled sub).labels
    let edges := a.edgesUnderAny labels
    if edges.isEmpty then ofExcept (.error (.subPattern sub))
    else
      let origins := (edges.map Prod.fst).eraseDups.length
      if labels.length == 1 && 1 < origins then report (.repeatedLabel sub origins)
      report (.subPatternResolved sub labels.length edges)
      pure edges

def substringEdges (pattern sub : String) (a : Inflow) : Except Error (List (Nat × Nat)) :=
  (substringEdgesJournaled pattern sub a).outcome

/-- The edges that a request asks for. -/
def RevealRequest.resolve (pattern : String) (a : Inflow) :
    RevealRequest → Journaled (List (Nat × Nat))
  | substring sub _ => substringEdgesJournaled pattern sub a
  | edges _ es => pure es

/-- Compiles the requests in order; the names in `used` are taken. -/
def compileReveals (pattern : String) (a : Inflow) (used : List String) :
    List RevealRequest → Journaled (List Reveal)
  | [] => pure []
  | request :: rest => do
      if used.contains request.name then ofExcept (.error (.reveal (.duplicateName request.name)))
      else
        let edges ← request.resolve pattern a
        let reveal ← lift .reveal (a.reveal request.name edges)
        let reveals ← compileReveals pattern a (request.name :: used) rest
        pure (reveal :: reveals)

/-! ### Programs -/

/-- The acceptance that is compiled for the requested one. A single repeated unit is matched as a
whole; nothing else can be. -/
def resolveAcceptance (requested : Acceptance) (a : Inflow) : Journaled Acceptance :=
  match requested with
  | .count => pure .count
  | .any =>
      if a.isSingleRepeat then do
        report .singleRepeat
        pure .all
      else pure .any
  | .all => if a.isSingleRepeat then pure .all else ofExcept (.error (.structural .notSingleRepeat))

/-- Compiles an automaton; the pattern is consulted for sub-patterns only. -/
def compileAutomatonJournaled (pattern : String) (d : Dfa) (options : Options) :
    Journaled Artifact := do
  let a ← Inflow.ofDfaJournaled d
  let acceptance ← resolveAcceptance options.acceptance a
  let code := a.transitionCode
  report (.stepBuilt code.step.length code.ranges.length code.equalities.length code.hits)
  let reveals ← compileReveals pattern a [] options.reveals
  let program : Program := ⟨a.stateCount, a.acceptState, acceptance, code.step, reveals⟩
  lift .program program.validate
  report (.compiled pattern program.stateCount program.step.length acceptance reveals.length)
  pure
    { pattern, program
      graph := d.toGraph
      metadata :=
        { stateCount := a.stateCount
          acceptState := a.acceptState
          ranges := code.ranges
          equalities := code.equalities
          stepOps := program.step.length
          anchors := a.anchors
          idle := a.idle } }

def compileAutomaton (pattern : String) (d : Dfa) (options : Options) : Except Error Artifact :=
  (compileAutomatonJournaled pattern d options).outcome

def compileJournaled (pattern : String) (options : Options) : Journaled Artifact := do
  let d ← minimalDfaJournaled pattern
  compileAutomatonJournaled pattern d options

def compile (pattern : String) (options : Options) : Except Error Artifact :=
  (compileJournaled pattern options).outcome

/-- Runs a program and reports its verdict. -/
def evaluateJournaled (p : Program) (input : List UInt8) : Journaled Evaluation := do
  let e ← lift .program (p.evaluate input)
  report (.evaluated input.length p.stateCount e.verdict)
  pure e

end PatternCircuit
