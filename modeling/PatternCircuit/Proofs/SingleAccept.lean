import PatternCircuit.Proofs.Compile.Automaton

/-! # Patterns with one accept state

A step program needs an automaton with one accept state other than the start. Since the states of a
minimal automaton differ in what can be read from them, this is a property of the language: all its
words can be continued in the same ways, and none of them is empty. -/

namespace PatternCircuit

/-- All words of a language have the same continuations. -/
def ContinueAlike (L : Language Symbol) : Prop :=
  ∀ u ∈ L, ∀ v ∈ L, ∀ z, u ++ z ∈ L ↔ v ++ z ∈ L

namespace Dfa

variable {d : Dfa} {s t : Nat} {u v : List Symbol}

/-- Words with the same continuations lead to the same state. -/
theorem Minimal.eq_iff_continuations (hd : d.Minimal) (hu : d.run? 0 u = some s)
    (hv : d.run? 0 v = some t) :
    s = t ↔ ∀ z, u ++ z ∈ d.residual 0 ↔ v ++ z ∈ d.residual 0 := by
  have hquotient : d.residual s = d.residual t ↔
      ∀ z, u ++ z ∈ d.residual 0 ↔ v ++ z ∈ d.residual 0 := by
    rw [residual_of_run? hu, residual_of_run? hv]
    exact Set.ext_iff
  rw [← hquotient]
  constructor
  · intro heq
    rw [heq]
  · exact hd.distinct s (run?_lt hd.inRange hd.pos hu) t (run?_lt hd.inRange hd.pos hv)

/-- The accept state is unique exactly when all accepted words have the same continuations. -/
theorem Minimal.accept_unique_iff (hd : d.Minimal)
    (hreach : ∀ s < d.states.size, ∃ w, d.run? 0 w = some s) :
    (∀ s t, d.isAccept s = true → d.isAccept t = true → s = t) ↔ ContinueAlike (d.residual 0) := by
  constructor
  · rintro hunique u ⟨s, hu, hs⟩ v ⟨t, hv, ht⟩
    exact (hd.eq_iff_continuations hu hv).mp (hunique s t hs ht)
  · intro halike s t hs ht
    obtain ⟨u, hu⟩ := hreach s (lt_size_of_isAccept hs)
    obtain ⟨v, hv⟩ := hreach t (lt_size_of_isAccept ht)
    exact (hd.eq_iff_continuations hu hv).mpr (halike u ⟨s, hu, hs⟩ v ⟨t, hv, ht⟩)

theorem Minimal.exists_accept (hd : d.Minimal) : ∃ s, d.isAccept s = true := by
  obtain ⟨w, s, _, hs⟩ := hd.live 0 hd.pos
  exact ⟨s, hs⟩

theorem mem_acceptStates : s ∈ d.acceptStates ↔ d.isAccept s = true := by
  rw [acceptStates, List.mem_filter, List.mem_range]
  exact ⟨And.right, fun hs => ⟨lt_size_of_isAccept hs, hs⟩⟩

theorem acceptStates_eq_singleton (hs : d.isAccept s = true)
    (hunique : ∀ t, d.isAccept t = true → t = s) : d.acceptStates = [s] := by
  have hnodup : d.acceptStates.Nodup := List.nodup_range.filter _
  rw [← List.perm_singleton, List.perm_ext_iff_of_nodup hnodup (List.nodup_singleton s)]
  intro t
  rw [mem_acceptStates, List.mem_singleton]
  exact ⟨hunique t, fun heq => heq ▸ hs⟩

end Dfa

namespace Inflow

variable {d : Dfa} {s t : Nat}

theorem acceptOf_of_unique (hs : d.isAccept s = true)
    (hunique : ∀ t, d.isAccept t = true → t = s) :
    acceptOf d = if s = 0 then .error .idleAccept else .ok s := by
  rw [acceptOf, Dfa.acceptStates_eq_singleton hs hunique]

theorem acceptOf_of_ne (hs : d.isAccept s = true) (ht : d.isAccept t = true) (hne : s ≠ t) :
    acceptOf d = .error (.manyAccept d.acceptStates) := by
  have hmem := Dfa.mem_acceptStates.mpr hs
  have hmem' := Dfa.mem_acceptStates.mpr ht
  unfold acceptOf
  split
  · rename_i hnone
    rw [hnone] at hmem
    cases hmem
  · rename_i q hone
    rw [hone, List.mem_singleton] at hmem hmem'
    exact absurd (hmem.trans hmem'.symm) hne
  · rfl

theorem outcome_ofDfaJournaled_of_error {fault : StructureFault} (h : acceptOf d = .error fault) :
    (ofDfaJournaled d).outcome = .error (.structural fault) := by
  simp only [ofDfaJournaled, ofDfa, h, Journaled.outcome_bind, Journaled.outcome_lift]
  rfl

theorem exists_outcome_ofDfaJournaled (h : acceptOf d = .ok s) :
    ∃ a, (ofDfaJournaled d).outcome = .ok a := by
  simp only [ofDfaJournaled, ofDfa, h, Journaled.outcome_bind, Journaled.outcome_lift]
  exact ⟨_, rfl⟩

theorem ofDfa_of_outcome {a : Inflow} (h : (ofDfaJournaled d).outcome = .ok a) :
    ofDfa d = .ok a := by
  simp only [ofDfaJournaled, Journaled.outcome_bind, Journaled.outcome_lift,
    Journaled.outcome_report, Journaled.outcome_pure, Outcome.bind_eq_ok, mapError_eq_ok] at h
  obtain ⟨a', ha, _, _, heq⟩ := h
  cases heq
  exact ha

/-- The table of a minimal automaton exists, or the start accepts, or several states do. -/
theorem outcome_ofDfaJournaled_cases (hd : d.Minimal)
    (hreach : ∀ s < d.states.size, ∃ w, d.run? 0 w = some s) :
    (ContinueAlike (d.residual 0) ∧ [] ∉ d.residual 0 ∧ ∃ a, (ofDfaJournaled d).outcome = .ok a) ∨
      (ContinueAlike (d.residual 0) ∧ [] ∈ d.residual 0 ∧
        (ofDfaJournaled d).outcome = .error (.structural .idleAccept)) ∨
      ¬ContinueAlike (d.residual 0) ∧
        (ofDfaJournaled d).outcome = .error (.structural (.manyAccept d.acceptStates)) := by
  by_cases halike : ContinueAlike (d.residual 0)
  · have hunique := (hd.accept_unique_iff hreach).mpr halike
    obtain ⟨s, hs⟩ := hd.exists_accept
    have haccept := acceptOf_of_unique hs fun t ht => hunique t s ht hs
    rw [Dfa.nil_mem_residual]
    by_cases hzero : s = 0
    · rw [if_pos hzero] at haccept
      exact .inr (.inl ⟨halike, hzero ▸ hs, outcome_ofDfaJournaled_of_error haccept⟩)
    · rw [if_neg hzero] at haccept
      refine .inl ⟨halike, fun hstart => hzero ?_, exists_outcome_ofDfaJournaled haccept⟩
      exact hunique s 0 hs hstart
  · have htwo : ∃ s t, d.isAccept s = true ∧ d.isAccept t = true ∧ s ≠ t := by
      by_contra hnone
      refine halike ((hd.accept_unique_iff hreach).mp fun s t hs ht => ?_)
      by_contra hne
      exact hnone ⟨s, t, hs, ht, hne⟩
    obtain ⟨s, t, hs, ht, hne⟩ := htwo
    exact .inr (.inr ⟨halike, outcome_ofDfaJournaled_of_error (acceptOf_of_ne hs ht hne)⟩)

end Inflow

/-- The automaton of a pattern can be turned around exactly when no word of the pattern is empty and
all have the same continuations. Its accept state is then the one that exactly the words of the
pattern lead to; otherwise the start accepts, or several states do. -/
theorem inflow_exists_iff_continue_alike {pattern : String} {d : Dfa}
    (h : minimalDfa pattern = .ok d) :
    ∃ tree, Tree.ofPattern pattern = .ok tree ∧
      ((∃ a, (Inflow.ofDfaJournaled d).outcome = .ok a) ↔
        [] ∉ tree.language ∧ ContinueAlike tree.language) ∧
      ((Inflow.ofDfaJournaled d).outcome = .error (.structural .idleAccept) ↔
        [] ∈ tree.language ∧ ContinueAlike tree.language) ∧
      ((Inflow.ofDfaJournaled d).outcome = .error (.structural (.manyAccept d.acceptStates)) ↔
        ¬ContinueAlike tree.language) ∧
      ∀ a, (Inflow.ofDfaJournaled d).outcome = .ok a → a.acceptState ≠ 0 ∧
        ∀ w, d.run? 0 w = some a.acceptState ↔ w ∈ tree.language := by
  obtain ⟨tree, htree, hproper, rfl⟩ := exists_tree_of_minimalDfa h
  obtain ⟨hd, hlanguage⟩ := Dfa.minimize_ofTree hproper
  have hcases := Inflow.outcome_ofDfaJournaled_cases hd
    fun s hs => Dfa.exists_run?_minimize_ofTree tree hs
  rw [hlanguage] at hcases
  refine ⟨tree, htree, ?_, ?_, ?_, ?_⟩
  · rcases hcases with ⟨halike, hnil, hok⟩ | ⟨_, hnil, herror⟩ | ⟨halike, herror⟩
    · exact iff_of_true hok ⟨hnil, halike⟩
    · simp [herror, hnil]
    · simp [herror, halike]
  · rcases hcases with ⟨_, hnil, _, hok⟩ | ⟨halike, hnil, herror⟩ | ⟨halike, herror⟩
    · simp [hok, hnil]
    · exact iff_of_true herror ⟨hnil, halike⟩
    · simp [herror, halike]
  · rcases hcases with ⟨halike, _, _, hok⟩ | ⟨halike, _, herror⟩ | ⟨halike, herror⟩
    · simp [hok, halike]
    · simp [herror, halike]
    · exact iff_of_true herror halike
  · intro a ha
    have hinflow := Inflow.ofDfa_of_outcome ha
    refine ⟨(Inflow.acceptState_ofDfa hinflow).1, fun w => ?_⟩
    rw [← hlanguage, Inflow.mem_residual_ofDfa hinflow]

/-- Both words of `ab|b` end in the accept state. In `a|ab` only the first word can be continued, so
there are two accept states. -/
theorem inflow_exists_iff_shared_ending :
    ∃ d tree a d' tree', minimalDfa "ab|b" = .ok d ∧ Tree.ofPattern "ab|b" = .ok tree ∧
      (Inflow.ofDfaJournaled d).outcome = .ok a ∧ ContinueAlike tree.language ∧
      [.byte 97, .byte 98] ∈ tree.language ∧ d.run? 0 [.byte 98] = some a.acceptState ∧
      minimalDfa "a|ab" = .ok d' ∧ Tree.ofPattern "a|ab" = .ok tree' ∧
      ¬ContinueAlike tree'.language ∧
      (Inflow.ofDfaJournaled d').outcome = .error (.structural (.manyAccept [1, 2])) := by
  have hshared : (minimalDfa "ab|b").toOption.any (fun d =>
      (Inflow.ofDfaJournaled d).outcome.toOption.any fun a =>
        d.run? 0 [.byte 97, .byte 98] = some a.acceptState &&
          d.run? 0 [.byte 98] = some a.acceptState) = true := by decide +kernel
  have hnested : (minimalDfa "a|ab").toOption.any (fun d => d.acceptStates = [1, 2]) = true := by
    decide +kernel
  obtain ⟨d, hd, hshared⟩ := Outcome.exists_ok_of_any hshared
  obtain ⟨a, ha, hruns⟩ := Outcome.exists_ok_of_any hshared
  rw [Bool.and_eq_true, decide_eq_true_eq, decide_eq_true_eq] at hruns
  obtain ⟨tree, htree, hexists, _, _, haccept⟩ := inflow_exists_iff_continue_alike hd
  obtain ⟨d', hd', hstates⟩ := Outcome.exists_ok_of_any hnested
  rw [decide_eq_true_eq] at hstates
  obtain ⟨tree', htree', _, _, hmany, _⟩ := inflow_exists_iff_continue_alike hd'
  have hone : d'.isAccept 1 = true := Dfa.mem_acceptStates.mp (by simp [hstates])
  have htwo : d'.isAccept 2 = true := Dfa.mem_acceptStates.mp (by simp [hstates])
  have herror := Inflow.outcome_ofDfaJournaled_of_error
    (Inflow.acceptOf_of_ne hone htwo (by decide))
  have hnot := hmany.mp herror
  rw [hstates] at herror
  exact ⟨d, tree, a, d', tree', hd, htree, ha, (hexists.mp ⟨a, ha⟩).2,
    ((haccept a ha).2 _).mp hruns.1, hruns.2, hd', htree', hnot, herror⟩

end PatternCircuit
