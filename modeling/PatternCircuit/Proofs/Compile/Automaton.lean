import PatternCircuit.Proofs.Automaton.Graph
import PatternCircuit.Proofs.Compile.Pipeline
import PatternCircuit.Proofs.Pattern.Parser

/-! # The automaton of a pattern

Every pattern has one automaton: it accepts the symbol words of the pattern's tree, all its states
are in use, and no two of them accept the same words. -/

namespace PatternCircuit

/-- The automaton of a pattern is the minimal one of its tree. -/
theorem exists_tree_of_minimalDfa {pattern : String} {d : Dfa} (h : minimalDfa pattern = .ok d) :
    ∃ tree, Tree.ofPattern pattern = .ok tree ∧ tree.Proper ∧
      d = (Dfa.ofNfa (.ofTree tree)).minimize := by
  obtain ⟨tree, htree, hd⟩ := minimalDfa_eq_ok.mp h
  obtain ⟨dialect, hexpand, hparse⟩ := Outcome.bind_eq_ok.mp htree
  exact ⟨tree, htree, (Tree.shaped_ofPattern hexpand hparse).proper, hd⟩

/-- The automata that programs are compiled from: those of patterns and those read from a graph. -/
inductive Obtained : Dfa → Prop where
  | pattern {pattern : String} {d : Dfa} : minimalDfa pattern = .ok d → Obtained d
  | graph {graph : List GraphState} {d : Dfa} : Dfa.ofGraph graph = .ok d → Obtained d

theorem Obtained.wellFormed {d : Dfa} (h : Obtained d) : d.WellFormed := by
  cases h with
  | pattern hpattern =>
      obtain ⟨tree, _, hproper, rfl⟩ := exists_tree_of_minimalDfa hpattern
      exact (Dfa.minimize_ofTree hproper).1.wellFormed
  | graph hgraph => exact Dfa.wellFormed_ofGraph hgraph

/-- The automaton of a pattern accepts exactly the symbol words of the tree. Each of its states is
reached by a word and leads to acceptance by a word, its edges are on inhabited and disjoint labels
to different states, and different states accept different words. -/
theorem minimalDfa_canonical {pattern : String} {d : Dfa} (h : minimalDfa pattern = .ok d) :
    ∃ tree, Tree.ofPattern pattern = .ok tree ∧
      (∀ w, d.accepts w = true ↔ w ∈ tree.language) ∧
      (∀ s < d.states.size, (∃ w, d.run? 0 w = some s) ∧
        ∃ w t, d.run? s w = some t ∧ d.isAccept t = true) ∧
      (∀ s < d.states.size, (∀ e ∈ d.edges s, e.1.isEmpty = false ∧ e.2 < d.states.size) ∧
        (d.edges s).Pairwise (fun e f => e.1.overlaps f.1 = false) ∧
        ((d.edges s).map Prod.snd).Nodup) ∧
      ∀ s < d.states.size, ∀ t < d.states.size, s ≠ t → d.residual s ≠ d.residual t := by
  obtain ⟨tree, htree, hproper, rfl⟩ := exists_tree_of_minimalDfa h
  obtain ⟨hminimal, hlanguage⟩ := Dfa.minimize_ofTree hproper
  refine ⟨tree, htree, ?_, ?_, ?_, ?_⟩
  · intro w
    rw [Dfa.accepts_iff, hlanguage]
  · intro s hs
    exact ⟨Dfa.exists_run?_minimize_ofTree tree hs, hminimal.live s hs⟩
  · intro s _
    refine ⟨?_, ?_, hminimal.nodup s⟩
    · intro e he
      have hsymbol := Dfa.exists_symbol_minimize_ofTree tree he
      exact ⟨(Label.isEmpty_eq_false_iff e.1).mpr hsymbol, hminimal.inRange s e he⟩
    · apply (hminimal.deterministic s).imp
      intro e f hapart
      refine Bool.eq_false_iff.mpr fun hoverlaps => ?_
      obtain ⟨a, ha⟩ := (Label.overlaps_eq_true_iff e.1 f.1).mp hoverlaps
      exact hapart a ha
  · intro s hs t ht hne heq
    exact hne (hminimal.distinct s hs t ht heq)

/-- In `[^a]b|ac` the marker and the listed byte lead to different states, since only behind the byte
can `c` be read. -/
theorem minimalDfa_canonical_listed_byte :
    ∃ d tree, minimalDfa "[^a]b|ac" = .ok d ∧ Tree.ofPattern "[^a]b|ac" = .ok tree ∧
      [Symbol.negate, .byte 98] ∈ tree.language ∧ [Symbol.negate, .byte 99] ∉ tree.language ∧
      d.states.size = 4 ∧
      ∀ s < 4, (∃ w, d.run? 0 w = some s) ∧ ∀ t < 4, s ≠ t → d.residual s ≠ d.residual t := by
  have hrun : (minimalDfa "[^a]b|ac").toOption.any (fun d =>
      d.accepts [.negate, .byte 98] && !d.accepts [.negate, .byte 99] &&
        d.states.size == 4) = true := by decide +kernel
  obtain ⟨d, hd, hrun⟩ := Outcome.exists_ok_of_any hrun
  rw [Bool.and_eq_true, Bool.and_eq_true, Bool.not_eq_true', beq_iff_eq] at hrun
  obtain ⟨⟨haccept, hreject⟩, hsize⟩ := hrun
  obtain ⟨tree, htree, haccepts, huse, _, hdistinct⟩ := minimalDfa_canonical hd
  rw [hsize] at huse hdistinct
  refine ⟨d, tree, hd, htree, (haccepts _).mp haccept, ?_, hsize, ?_⟩
  · intro hmem
    exact Bool.eq_false_iff.mp hreject ((haccepts _).mpr hmem)
  · intro s hs
    exact ⟨(huse s hs).1, hdistinct s hs⟩

end PatternCircuit
