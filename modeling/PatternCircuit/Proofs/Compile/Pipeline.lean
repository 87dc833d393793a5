import PatternCircuit.Compile.Pipeline
import PatternCircuit.Proofs.Program.Emission

/-! # The stages of a compilation -/

namespace PatternCircuit

open Journaled

theorem mapError_eq_ok {α ε : Type} {x : Except ε α} {wrap : ε → Error} {a : α} :
    x.mapError wrap = .ok a ↔ x = .ok a := by
  cases x with
  | error e =>
      show Except.error (wrap e) = .ok a ↔ Except.error e = .ok a
      simp
  | ok value =>
      show Except.ok value = .ok a ↔ Except.ok value = .ok a
      simp

theorem mapError_eq_error {α ε : Type} {x : Except ε α} {wrap : ε → Error} {e : Error} :
    x.mapError wrap = .error e ↔ ∃ fault, x = .error fault ∧ wrap fault = e := by
  cases x with
  | error fault =>
      show Except.error (wrap fault) = .error e ↔ _
      simp
  | ok value =>
      show Except.ok value = .error e ↔ _
      simp

theorem minimalDfa_eq_ok {pattern : String} {d : Dfa} :
    minimalDfa pattern = .ok d ↔
      ∃ tree, Tree.ofPattern pattern = .ok tree ∧ d = (Dfa.ofNfa (.ofTree tree)).minimize := by
  simp only [minimalDfa, minimalDfaJournaled, outcome_bind, outcome_ofExcept, outcome_report,
    outcome_pure, Outcome.bind_eq_ok]
  constructor
  · rintro ⟨tree, htree, _, _, _, _, _, _, hd⟩
    cases hd
    exact ⟨tree, htree, rfl⟩
  · rintro ⟨tree, htree, rfl⟩
    exact ⟨tree, htree, (), trivial, (), trivial, (), trivial, rfl⟩

/-- The compiled reveals are those of the automaton, under their own names and edges. -/
theorem reveal_of_mem_compileReveals {pattern : String} {a : Inflow} {used : List String}
    {requests : List RevealRequest} {reveals : List Reveal}
    (h : (compileReveals pattern a used requests).outcome = .ok reveals) :
    ∀ r ∈ reveals, a.reveal r.name r.edges = .ok r := by
  induction requests generalizing used reveals with
  | nil =>
      cases h
      simp
  | cons request requests ih =>
      rw [compileReveals] at h
      split at h
      · cases h
      · simp only [outcome_bind, outcome_lift, outcome_pure, Outcome.bind_eq_ok,
          mapError_eq_ok] at h
        obtain ⟨edges, _, first, hfirst, rest, hrest, hresult⟩ := h
        cases hresult
        refine List.forall_mem_cons.mpr ⟨?_, ih hrest⟩
        obtain ⟨_, _, rfl⟩ := Inflow.reveal_eq_ok_iff.mp hfirst
        exact hfirst

/-- Universal acceptance is compiled for automata of one shape only. -/
theorem isSingleRepeat_of_resolveAcceptance {requested : Acceptance} {a : Inflow}
    (h : (resolveAcceptance requested a).outcome = .ok .all) : a.isSingleRepeat = true := by
  by_contra hshape
  cases requested with
  | count => cases h
  | any =>
      rw [resolveAcceptance, if_neg hshape] at h
      cases h
  | all =>
      rw [resolveAcceptance, if_neg hshape] at h
      cases h

/-- The artifact that an automaton is compiled to, part by part. -/
theorem artifact_of_compileAutomaton {pattern : String} {d : Dfa} {options : Options}
    {artifact : Artifact} (h : compileAutomaton pattern d options = .ok artifact) :
    ∃ a acceptance reveals, Inflow.ofDfa d = .ok a ∧
      (resolveAcceptance options.acceptance a).outcome = .ok acceptance ∧
      (compileReveals pattern a [] options.reveals).outcome = .ok reveals ∧
      artifact =
        { pattern
          program := ⟨a.stateCount, a.acceptState, acceptance, a.transitionCode.step, reveals⟩
          graph := d.toGraph
          metadata := ⟨a.stateCount, a.acceptState, a.transitionCode.ranges,
            a.transitionCode.equalities, a.transitionCode.step.length, a.anchors, a.idle⟩ } := by
  simp only [compileAutomaton, compileAutomatonJournaled, Inflow.ofDfaJournaled, outcome_bind,
    outcome_lift, outcome_report, outcome_pure, Outcome.bind_eq_ok, mapError_eq_ok] at h
  obtain ⟨a, ⟨_, ha, _, _, hpure⟩, acceptance, hacceptance, _, _, reveals, hreveals, _, _, _, _,
    hresult⟩ := h
  cases hpure
  cases hresult
  exact ⟨a, acceptance, reveals, ha, hacceptance, hreveals, rfl⟩

/-- What the program of a compiled automaton is made of. -/
theorem program_of_compileAutomaton {pattern : String} {d : Dfa} {options : Options}
    {artifact : Artifact} (h : compileAutomaton pattern d options = .ok artifact) :
    ∃ a acceptance reveals, Inflow.ofDfa d = .ok a ∧
      (resolveAcceptance options.acceptance a).outcome = .ok acceptance ∧
      (compileReveals pattern a [] options.reveals).outcome = .ok reveals ∧
      artifact.program =
        ⟨a.stateCount, a.acceptState, acceptance, a.transitionCode.step, reveals⟩ := by
  obtain ⟨a, acceptance, reveals, ha, hacceptance, hreveals, rfl⟩ := artifact_of_compileAutomaton h
  exact ⟨a, acceptance, reveals, ha, hacceptance, hreveals, rfl⟩

/-- The program of a compiled automaton is written from its inflow. -/
theorem exists_writtenFrom {pattern : String} {d : Dfa} {options : Options} {artifact : Artifact}
    (h : compileAutomaton pattern d options = .ok artifact) :
    ∃ a, Inflow.ofDfa d = .ok a ∧ artifact.program.WrittenFrom a := by
  obtain ⟨a, acceptance, reveals, ha, _, hreveals, hprogram⟩ := program_of_compileAutomaton h
  rw [hprogram]
  exact ⟨a, ha, rfl, rfl, rfl, reveal_of_mem_compileReveals hreveals⟩

/-- An automaton is compiled whenever it has an inflow, the acceptance suits it and the reveals
compile: the program made of these parts is well formed. -/
theorem exists_compileAutomaton (pattern : String) {d : Dfa} {a : Inflow} {options : Options}
    {acceptance : Acceptance} {reveals : List Reveal} (ha : Inflow.ofDfa d = .ok a)
    (hacceptance : (resolveAcceptance options.acceptance a).outcome = .ok acceptance)
    (hreveals : (compileReveals pattern a [] options.reveals).outcome = .ok reveals) :
    ∃ artifact, compileAutomaton pattern d options = .ok artifact ∧
      artifact.program =
        ⟨a.stateCount, a.acceptState, acceptance, a.transitionCode.step, reveals⟩ := by
  let program : Program :=
    ⟨a.stateCount, a.acceptState, acceptance, a.transitionCode.step, reveals⟩
  have hwritten : program.WrittenFrom a :=
    ⟨rfl, rfl, rfl, reveal_of_mem_compileReveals hreveals⟩
  simp only [compileAutomaton, compileAutomatonJournaled, Inflow.ofDfaJournaled, outcome_bind,
    outcome_lift, outcome_report, outcome_pure, Outcome.bind_eq_ok, mapError_eq_ok]
  exact ⟨_, ⟨a, ⟨a, ha, (), trivial, rfl⟩, acceptance, hacceptance, (), trivial, reveals, hreveals,
    (), hwritten.validate ha, (), trivial, rfl⟩, rfl⟩

/-- Every automaton with an inflow can be compiled to count, with all reveals that compile. -/
theorem exists_compileAutomaton_count (pattern : String) {d : Dfa} {a : Inflow}
    (ha : Inflow.ofDfa d = .ok a) {requests : List RevealRequest} {reveals : List Reveal}
    (hreveals : (compileReveals pattern a [] requests).outcome = .ok reveals) :
    ∃ artifact, compileAutomaton pattern d ⟨.count, requests⟩ = .ok artifact ∧
      artifact.program =
        ⟨a.stateCount, a.acceptState, .count, a.transitionCode.step, reveals⟩ :=
  exists_compileAutomaton pattern ha rfl hreveals

theorem compile_eq_ok {pattern : String} {options : Options} {artifact : Artifact} :
    compile pattern options = .ok artifact ↔
      ∃ d, minimalDfa pattern = .ok d ∧ compileAutomaton pattern d options = .ok artifact := by
  simp only [compile, compileJournaled, outcome_bind, Outcome.bind_eq_ok]
  rfl

theorem compile_of_minimalDfa {pattern : String} {d : Dfa} (h : minimalDfa pattern = .ok d)
    (options : Options) : compile pattern options = compileAutomaton pattern d options := by
  rw [minimalDfa] at h
  rw [compile, compileJournaled, outcome_bind, h]
  rfl

/-- What compiles with any acceptance also compiles to count, by the same steps. -/
theorem exists_compile_count {pattern : String} {options : Options} {artifact : Artifact}
    (h : compile pattern options = .ok artifact) :
    ∃ counting, compile pattern ⟨.count, options.reveals⟩ = .ok counting ∧
      counting.program = { artifact.program with acceptance := .count } := by
  obtain ⟨d, hmin, hautomaton⟩ := compile_eq_ok.mp h
  obtain ⟨a, acceptance, reveals, ha, _, hreveals, hprogram⟩ :=
    program_of_compileAutomaton hautomaton
  obtain ⟨counting, hcounting, hcount⟩ := exists_compileAutomaton_count pattern ha hreveals
  refine ⟨counting, compile_eq_ok.mpr ⟨d, hmin, hcounting⟩, ?_⟩
  rw [hcount, hprogram]

end PatternCircuit
