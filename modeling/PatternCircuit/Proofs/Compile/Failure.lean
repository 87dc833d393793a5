import PatternCircuit.Proofs.Compile.Pipeline

/-! # How compilation fails

Compiling an automaton fails while it is turned around, while the acceptance is settled or while the
reveals are compiled, each with errors of its own kind. The program that comes out of these stages
always passes the check at the end. -/

namespace PatternCircuit

open Journaled

/-! ### Errors of patterns -/

/-- The error says that a pattern cannot be read. -/
def Error.OfPattern (e : Error) : Prop := (∃ fault, e = .pattern fault) ∨ ∃ fault, e = .range fault

namespace Token

theorem ofPattern_of_classMembers {opened pos : Nat} {bytes : List UInt8} {e : Error}
    (h : classMembers opened pos bytes = .error e) : e.OfPattern := by
  fun_induction classMembers opened pos bytes with
  | case1 =>
      cases h
      exact .inl ⟨_, rfl⟩
  | case2 => cases h
  | case3 =>
      cases h
      exact .inl ⟨_, rfl⟩
  | case4 pos letter tail ih => exact ih (Outcome.eq_error_of_bind (fun _ => ⟨_, rfl⟩) h)
  | case5 =>
      cases h
      exact .inr ⟨_, rfl⟩
  | case6 pos lo dash hi tail _ _ _ _ ih =>
      exact ih (Outcome.eq_error_of_bind (fun _ => ⟨_, rfl⟩) h)
  | case7 pos lo dash hi tail _ _ _ ih => exact ih (Outcome.eq_error_of_bind (fun _ => ⟨_, rfl⟩) h)
  | case8 pos byte tail _ _ _ _ ih => exact ih (Outcome.eq_error_of_bind (fun _ => ⟨_, rfl⟩) h)

theorem ofPattern_of_readClass {opened : Nat} {bytes : List UInt8} {e : Error}
    (h : readClass opened bytes = .error e) : e.OfPattern := by
  cases Outcome.bind_eq_error.mp h with
  | inl hmembers => exact ofPattern_of_classMembers hmembers
  | inr hempty =>
      obtain ⟨⟨members, stop, rest⟩, _, hempty⟩ := hempty
      dsimp only at hempty
      split at hempty
      · cases hempty
        exact .inl ⟨_, rfl⟩
      · cases hempty

theorem ofPattern_of_readAll {pos : Nat} {bytes : List UInt8} {e : Error}
    (h : readAll pos bytes = .error e) : e.OfPattern := by
  fun_induction readAll pos bytes with
  | case1 => cases h
  | case2 =>
      cases h
      exact .inl ⟨_, rfl⟩
  | case3 pos letter rest ih => exact ih (Outcome.eq_error_of_bind (fun _ => ⟨_, rfl⟩) h)
  | case4 pos rest e' hclass =>
      cases h
      exact ofPattern_of_readClass hclass
  | case5 pos rest token stop tail hclass _ ih =>
      exact ih (Outcome.eq_error_of_bind (fun _ => ⟨_, rfl⟩) h)
  | case6 =>
      cases h
      exact .inl ⟨_, rfl⟩
  | case7 pos rest ih => exact ih (Outcome.eq_error_of_bind (fun _ => ⟨_, rfl⟩) h)
  | case8 pos byte bytes _ _ _ _ _ ih => exact ih (Outcome.eq_error_of_bind (fun _ => ⟨_, rfl⟩) h)

end Token

theorem Tree.ofPattern_of_error {pattern : String} {e : Error}
    (h : Tree.ofPattern pattern = .error e) : e.OfPattern := by
  cases Outcome.bind_eq_error.mp h with
  | inl hexpand =>
      exact Token.ofPattern_of_readAll (Outcome.eq_error_of_bind (fun _ => ⟨_, rfl⟩) hexpand)
  | inr hparse =>
      obtain ⟨d, _, hparse⟩ := hparse
      unfold Dialect.parse at hparse
      split at hparse
      · cases hparse
      · cases hparse
        exact .inl ⟨_, rfl⟩

theorem minimalDfa_of_error {pattern : String} {e : Error} (h : minimalDfa pattern = .error e) :
    e.OfPattern := by
  simp only [minimalDfa, minimalDfaJournaled, outcome_bind, outcome_ofExcept, outcome_report,
    outcome_pure] at h
  exact Tree.ofPattern_of_error (Outcome.eq_error_of_bind (fun _ => ⟨_, rfl⟩) h)

/-! ### Stages -/

/-- The error says that reveals cannot be compiled as requested. -/
def Error.OfReveals (e : Error) : Prop :=
  e.OfPattern ∨ (∃ sub, e = .subPattern sub) ∨ ∃ fault, e = .reveal fault

theorem ofReveals_of_substringEdges {pattern sub : String} {a : Inflow} {e : Error}
    (h : (substringEdgesJournaled pattern sub a).outcome = .error e) : e.OfReveals := by
  unfold substringEdgesJournaled at h
  split at h
  · cases h
    exact .inr (.inl ⟨_, rfl⟩)
  · rw [outcome_bind] at h
    cases Outcome.bind_eq_error.mp h with
    | inl hsub => exact .inl (minimalDfa_of_error hsub)
    | inr hedges =>
        obtain ⟨d, _, hedges⟩ := hedges
        dsimp only at hedges
        split at hedges
        · cases hedges
          exact .inr (.inl ⟨_, rfl⟩)
        · split at hedges <;> cases hedges

theorem ofReveals_of_compileReveals {pattern : String} {a : Inflow} {used : List String}
    {requests : List RevealRequest} {e : Error}
    (h : (compileReveals pattern a used requests).outcome = .error e) : e.OfReveals := by
  induction requests generalizing used with
  | nil => cases h
  | cons request requests ih =>
      rw [compileReveals] at h
      split at h
      · cases h
        exact .inr (.inr ⟨_, rfl⟩)
      · simp only [outcome_bind, outcome_lift, outcome_pure, Outcome.bind_eq_error,
          mapError_eq_error] at h
        rcases h with hresolve | ⟨edges, _, hrest⟩
        · cases request with
          | substring sub name => exact ofReveals_of_substringEdges hresolve
          | edges name es => cases hresolve
        · rcases hrest with ⟨fault, _, rfl⟩ | ⟨reveal, _, hrest⟩
          · exact .inr (.inr ⟨_, rfl⟩)
          · rcases hrest with hrest | ⟨_, _, hpure⟩
            · exact ih hrest
            · cases hpure

/-- The stages in which compiling an automaton can fail, with their errors. -/
inductive StageFails (pattern : String) (d : Dfa) (options : Options) : Error → Prop where
  /-- The automaton has no inflow. -/
  | inflow {fault : StructureFault} :
      Inflow.ofDfa d = .error fault → StageFails pattern d options (.structural fault)
  /-- The acceptance does not suit the automaton. -/
  | acceptance {a : Inflow} {e : Error} : Inflow.ofDfa d = .ok a →
      (resolveAcceptance options.acceptance a).outcome = .error e → StageFails pattern d options e
  /-- A reveal cannot be compiled. -/
  | reveals {a : Inflow} {acceptance : Acceptance} {e : Error} : Inflow.ofDfa d = .ok a →
      (resolveAcceptance options.acceptance a).outcome = .ok acceptance →
      (compileReveals pattern a [] options.reveals).outcome = .error e →
      StageFails pattern d options e

/-- The error is that of a run: a malformed program or an unsuitable input. -/
def Error.OfRun (e : Error) : Prop := (∃ fault, e = .program fault) ∨ ∃ fault, e = .input fault

theorem structural_of_resolveAcceptance {requested : Acceptance} {a : Inflow} {e : Error}
    (h : (resolveAcceptance requested a).outcome = .error e) :
    e = .structural .notSingleRepeat := by
  cases requested with
  | count => cases h
  | any =>
      rw [resolveAcceptance] at h
      split at h <;> cases h
  | all =>
      rw [resolveAcceptance] at h
      split at h
      · cases h
      · cases h
        rfl

theorem StageFails.not_ofRun {pattern : String} {d : Dfa} {options : Options} {e : Error}
    (h : StageFails pattern d options e) : ¬e.OfRun := by
  cases h with
  | inflow _ => simp [Error.OfRun]
  | acceptance _ hacceptance =>
      rw [structural_of_resolveAcceptance hacceptance]
      simp [Error.OfRun]
  | reveals _ _ hreveals =>
      rcases ofReveals_of_compileReveals hreveals with (⟨_, rfl⟩ | ⟨_, rfl⟩) | ⟨_, rfl⟩ | ⟨_, rfl⟩
      all_goals simp [Error.OfRun]

/-- A failing stage ends the compilation with its error. -/
theorem StageFails.compileAutomaton {pattern : String} {d : Dfa} {options : Options} {e : Error}
    (h : StageFails pattern d options e) :
    PatternCircuit.compileAutomaton pattern d options = .error e := by
  simp only [PatternCircuit.compileAutomaton, compileAutomatonJournaled, Inflow.ofDfaJournaled,
    outcome_bind, outcome_lift, outcome_report, outcome_pure]
  cases h with
  | inflow ha =>
      rw [ha]
      rfl
  | @acceptance a e ha hacceptance =>
      rw [ha]
      show ((resolveAcceptance options.acceptance a).outcome >>= _) = _
      rw [hacceptance]
      rfl
  | @reveals a acceptance e ha hacceptance hreveals =>
      rw [ha]
      show ((resolveAcceptance options.acceptance a).outcome >>= _) = _
      rw [hacceptance]
      show ((compileReveals pattern a [] options.reveals).outcome >>= _) = _
      rw [hreveals]
      rfl

/-- Compiling an automaton fails in one of three stages, with an error that is never about a
malformed program, or it gives an artifact with a well-formed program. Whatever comes out of the
stages passes the check at the end. -/
theorem compileAutomaton_stage_fails_or_valid (pattern : String) (d : Dfa) (options : Options) :
    ((∃ e, compileAutomaton pattern d options = .error e ∧ StageFails pattern d options e ∧
        ¬e.OfRun) ∨
      ∃ artifact, compileAutomaton pattern d options = .ok artifact ∧
        artifact.program.validate = .ok ()) ∧
    ∀ a acceptance reveals, Inflow.ofDfa d = .ok a →
      (resolveAcceptance options.acceptance a).outcome = .ok acceptance →
      (compileReveals pattern a [] options.reveals).outcome = .ok reveals →
      Program.validate ⟨a.stateCount, a.acceptState, acceptance, a.transitionCode.step, reveals⟩ =
        .ok () := by
  have hvalid : ∀ a acceptance reveals, Inflow.ofDfa d = .ok a →
      (compileReveals pattern a [] options.reveals).outcome = .ok reveals →
      Program.validate ⟨a.stateCount, a.acceptState, acceptance, a.transitionCode.step, reveals⟩ =
        .ok () := by
    intro a acceptance reveals ha hreveals
    apply Program.WrittenFrom.validate _ ha
    exact ⟨rfl, rfl, rfl, reveal_of_mem_compileReveals hreveals⟩
  refine ⟨?_, fun a acceptance reveals ha _ hreveals => hvalid a acceptance reveals ha hreveals⟩
  have hfails : ∀ e, StageFails pattern d options e → ∃ e,
      compileAutomaton pattern d options = .error e ∧ StageFails pattern d options e ∧ ¬e.OfRun :=
    fun e he => ⟨e, he.compileAutomaton, he, he.not_ofRun⟩
  cases ha : Inflow.ofDfa d with
  | error fault => exact .inl (hfails _ (.inflow ha))
  | ok a =>
      cases hacceptance : (resolveAcceptance options.acceptance a).outcome with
      | error e => exact .inl (hfails _ (.acceptance ha hacceptance))
      | ok acceptance =>
          cases hreveals : (compileReveals pattern a [] options.reveals).outcome with
          | error e => exact .inl (hfails _ (.reveals ha hacceptance hreveals))
          | ok reveals =>
              obtain ⟨artifact, hartifact, hprogram⟩ :=
                exists_compileAutomaton pattern ha hacceptance hreveals
              refine .inr ⟨artifact, hartifact, ?_⟩
              rw [hprogram]
              exact hvalid a acceptance reveals ha hreveals

end PatternCircuit
