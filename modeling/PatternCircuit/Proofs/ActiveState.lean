import PatternCircuit.Proofs.Compile.Automaton
import PatternCircuit.Proofs.Program.Trace

/-! # One active state at a time

A compiled automaton is in one state at every position of a run, and each byte takes it along the
only edge that matches the byte, or back to the start. -/

namespace PatternCircuit

/-- Every automaton that has an inflow compiles. At every position of a run of its program exactly
one state is active. The next one is the target of the only edge that matches the byte, or the start
if there is none, and the change flag says that it is not the start. -/
theorem exists_unique_active_state {d : Dfa} {a : Inflow} (hd : Obtained d)
    (ha : Inflow.ofDfa d = .ok a) (pattern : String) :
    (∃ artifact, compileAutomaton pattern d ⟨.count, []⟩ = .ok artifact) ∧
      ∀ options artifact, compileAutomaton pattern d options = .ok artifact → ∀ x : List UInt8,
        ∃ e, artifact.program.evaluate x = .ok e ∧
          e.states.length = x.length + 1 ∧ e.changed.length = x.length ∧
          (∀ states ∈ e.states, states.size = d.states.size) ∧
          (∀ t ≤ x.length, ∃! q, e.activeAt t q = true) ∧
          ∀ (t : Nat) (c : UInt8) (q : Nat), x[t]? = some c → e.activeAt t q = true →
            ∃ q', e.activeAt (t + 1) q' = true ∧ e.changed[t]? = some (decide (q' ≠ 0)) ∧
              ((∃ l, a.matchingEdges d q c = [(l, q')]) ∨
                (a.matchingEdges d q c = [] ∧ q' = 0)) := by
  have hwell := hd.wellFormed
  have hnone : (compileReveals pattern a [] []).outcome = .ok [] := rfl
  obtain ⟨counting, hcounting, _⟩ := exists_compileAutomaton_count pattern ha hnone
  refine ⟨⟨counting, hcounting⟩, fun options artifact hcompile x => ?_⟩
  obtain ⟨a', ha', hp⟩ := exists_writtenFrom hcompile
  obtain rfl : a = a' := Except.ok.inj (ha.symm.trans ha')
  refine ⟨_, Program.evaluate_of_validate (hp.validate ha) x, ?_, ?_, ?_, ?_, ?_⟩
  · simp [Program.states_run]
  · exact artifact.program.length_changed_run x
  · intro states hstates
    rw [Program.states_run, List.mem_map] at hstates
    obtain ⟨t, _, rfl⟩ := hstates
    rw [(oneHot_stateAfter hwell ha hp _).size, hp.stateCount, Inflow.stateCount_ofDfa ha]
  · intro t ht
    refine ⟨d.active (x.take t), (activeAt_run_iff hwell ha hp ht _).mpr rfl, fun q hq => ?_⟩
    exact (activeAt_run_iff hwell ha hp ht q).mp hq
  · intro t c q hget hq
    obtain ⟨ht, rfl⟩ := List.getElem?_eq_some_iff.mp hget
    rw [activeAt_run_iff hwell ha hp (Nat.le_of_lt ht)] at hq
    subst hq
    refine ⟨d.restart (d.active (x.take t)) x[t], ?_, ?_, ?_⟩
    · rw [activeAt_run_iff hwell ha hp ht, List.take_succ_eq_append_getElem ht, Dfa.active_concat]
    · rw [Program.getElem?_changed_run, hget, Option.map_some, changed_rowAfter hwell ha hp]
    · exact matchingEdges_ofDfa hwell ha (active_lt hwell ha hp _) x[t]

/-- Behind the marker of `[^a]b|ac` only `b` leads on: of `bbc` the first two bytes are taken, and
the third sends the run back. -/
theorem exists_unique_active_state_unlisted_byte :
    ∃ d a artifact e, minimalDfa "[^a]b|ac" = .ok d ∧ Inflow.ofDfa d = .ok a ∧
      compileAutomaton "[^a]b|ac" d ⟨.count, []⟩ = .ok artifact ∧
      artifact.program.evaluate [98, 98, 99] = .ok e ∧
      (∀ t ≤ 3, ∃! q, e.activeAt t q = true) ∧ e.activeAt 2 a.acceptState = true ∧
      a.matchingEdges d a.acceptState 99 = [] ∧ e.activeAt 3 0 = true := by
  have hrun : (minimalDfa "[^a]b|ac").toOption.any (fun d =>
      (Inflow.ofDfa d).toOption.any fun a =>
        (a.matchingEdges d a.acceptState 99).isEmpty &&
        (compileAutomaton "[^a]b|ac" d ⟨.count, []⟩).toOption.any fun artifact =>
          (artifact.program.evaluate [98, 98, 99]).toOption.any fun e =>
            e.activeAt 2 a.acceptState) = true := by
    decide +kernel
  obtain ⟨d, hd, hrun⟩ := Outcome.exists_ok_of_any hrun
  obtain ⟨a, ha, hrun⟩ := Outcome.exists_ok_of_any hrun
  rw [Bool.and_eq_true, List.isEmpty_iff] at hrun
  obtain ⟨hnone, hrun⟩ := hrun
  obtain ⟨artifact, hcompile, hrun⟩ := Outcome.exists_ok_of_any hrun
  obtain ⟨e, heval, haccept⟩ := Outcome.exists_ok_of_any hrun
  obtain ⟨_, hall⟩ := exists_unique_active_state (.pattern hd) ha "[^a]b|ac"
  obtain ⟨e', heval', _, _, _, hunique, hstep⟩ := hall _ artifact hcompile [98, 98, 99]
  obtain rfl := Except.ok.inj (heval.symm.trans heval')
  obtain ⟨q', hnext, _, hedge⟩ := hstep 2 99 a.acceptState rfl haccept
  cases hedge with
  | inl hedge =>
      obtain ⟨l, hl⟩ := hedge
      rw [hnone] at hl
      cases hl
  | inr hedge =>
      rw [hedge.2] at hnext
      exact ⟨d, a, artifact, e, hd, ha, hcompile, heval, hunique, haccept, hnone, hnext⟩

end PatternCircuit
