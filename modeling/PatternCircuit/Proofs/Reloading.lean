import PatternCircuit.Proofs.Automaton.Canonical
import PatternCircuit.Proofs.Compile.Automaton

/-! # Reloaded automata

A pattern need not be compiled from its text again: the graph of its automaton can be kept and read
back. What is compiled does not depend on the names of the states, which are all that reading the
graph changes. -/

namespace PatternCircuit

/-- The inflow of an automaton does not depend on the names of its states. -/
theorem Inflow.ofDfa_renumber (d : Dfa) : ofDfa d.renumber = ofDfa d := by
  have haccept : d.renumber.acceptStates = d.acceptStates := by
    rw [Dfa.acceptStates, Dfa.acceptStates, Dfa.size_renumber, Dfa.isAccept_renumber]
  have hlisted : d.renumber.listedBytes = d.listedBytes := by
    funext s
    rw [Dfa.listedBytes, Dfa.listedBytes, Dfa.edges_renumber]
  have hsources : d.renumber.sources = d.sources := by
    funext t
    simp only [Dfa.sources, Dfa.labelBetween?, Dfa.size_renumber, Dfa.edges_renumber]
  rw [ofDfa, ofDfa, acceptOf, acceptOf, haccept, hlisted, hsources, Dfa.size_renumber,
    Dfa.edges_renumber]

/-- The artifact or the error, and the journal, do not depend on the names of the states. -/
theorem compileAutomatonJournaled_renumber (pattern : String) (d : Dfa) (options : Options) :
    compileAutomatonJournaled pattern d.renumber options =
      compileAutomatonJournaled pattern d options := by
  rw [compileAutomatonJournaled, compileAutomatonJournaled, Inflow.ofDfaJournaled,
    Inflow.ofDfaJournaled, Inflow.ofDfa_renumber, Dfa.toGraph_renumber]

/-- The automaton of a pattern can be read back from its graph. It has the same accept states and
the same edges in the same ascending order, and whatever is asked of it, it compiles to what the
pattern compiles to. -/
theorem reloaded_automaton_compiles_alike {pattern : String} {d : Dfa}
    (h : minimalDfa pattern = .ok d) :
    ∃ reloaded, Dfa.ofGraph d.toGraph = .ok reloaded ∧
      reloaded.states.size = d.states.size ∧
      (∀ s, reloaded.isAccept s = d.isAccept s ∧ reloaded.edges s = d.edges s ∧
        (reloaded.edges s).Pairwise (Dfa.edgeLe · · = true)) ∧
      ∀ options, compileAutomaton pattern reloaded options = compile pattern options := by
  obtain ⟨tree, _, hproper, hd⟩ := exists_tree_of_minimalDfa h
  have hcanonical : d.Canonical := hd ▸ Dfa.canonical_minimize_ofTree hproper
  refine ⟨d.renumber, hcanonical.ofGraph_toGraph, d.size_renumber, ?_, ?_⟩
  · intro s
    rw [Dfa.isAccept_renumber, Dfa.edges_renumber]
    exact ⟨rfl, rfl, (hcanonical.edges s).sorted⟩
  · intro options
    rw [compile_of_minimalDfa h, compileAutomaton, compileAutomatonJournaled_renumber,
      compileAutomaton]

/-- In the graph of `(\^|,)+\n` the keys of the second state stand in another order than its edges;
the reloaded automaton has the order of the edges again, and compiles to the same artifact. -/
theorem reloaded_automaton_of_escaped_keys :
    ∃ d reloaded artifact, minimalDfa "(\\^|,)+\\n" = .ok d ∧
      Dfa.ofGraph d.toGraph = .ok reloaded ∧
      (d.toGraph.map fun s => s.transitions.entries.map Prod.fst) =
        [["\\,,\\^"], ["\\,,\\^", "\\x0a"], []] ∧
      ((reloaded.edges 1).map fun e => e.1.key) = ["\\x0a", "\\,,\\^"] ∧
      compileAutomaton "(\\^|,)+\\n" reloaded ⟨.any, []⟩ = .ok artifact ∧
      compile "(\\^|,)+\\n" ⟨.any, []⟩ = .ok artifact := by
  have hgraph : (minimalDfa "(\\^|,)+\\n").toOption.any (fun d =>
      decide ((d.toGraph.map fun s => s.transitions.entries.map Prod.fst) =
        [["\\,,\\^"], ["\\,,\\^", "\\x0a"], []]) &&
      decide (((d.edges 1).map fun e => e.1.key) = ["\\x0a", "\\,,\\^"])) = true := by
    decide +kernel
  have hrun : (compile "(\\^|,)+\\n" ⟨.any, []⟩).toOption.any (fun _ => true) = true := by
    decide +kernel
  obtain ⟨d, hd, hgraph⟩ := Outcome.exists_ok_of_any hgraph
  rw [Bool.and_eq_true, decide_eq_true_eq, decide_eq_true_eq] at hgraph
  obtain ⟨hkeys, hedges⟩ := hgraph
  obtain ⟨artifact, hartifact, _⟩ := Outcome.exists_ok_of_any hrun
  obtain ⟨reloaded, hreloaded, _, hsame, hcompile⟩ := reloaded_automaton_compiles_alike hd
  rw [← (hsame 1).2.1] at hedges
  exact ⟨d, reloaded, artifact, hd, hreloaded, hkeys, hedges, (hcompile _).trans hartifact,
    hartifact⟩

end PatternCircuit
