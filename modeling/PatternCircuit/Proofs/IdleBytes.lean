import PatternCircuit.Proofs.Compile.Automaton
import PatternCircuit.Proofs.Program.Trace

/-! # The recorded idle bytes

An artifact records the bytes that no edge of the start takes. The step program does not ask for
edges: it leaves the start active whenever no other state becomes active, and so also on a byte that
an edge takes from the start to itself. -/

namespace PatternCircuit

/-- With only the start active, the transition step on the byte leaves the start active. -/
def Program.StaysIdle (p : Program) (b : UInt8) : Prop :=
  (runStep p.step ⟨b, p.initialState, #[], false, false⟩ p.stateCount).stores.next.getD 0 false =
    true

instance (p : Program) (b : UInt8) : Decidable (p.StaysIdle b) :=
  inferInstanceAs (Decidable (_ = true))

/-- An edge from the start to itself takes the byte. -/
def Dfa.LoopsAtStart (d : Dfa) (b : UInt8) : Prop :=
  ∃ l, (l, 0) ∈ d.edges 0 ∧ b ∈ Inflow.bytesTaken (d.listedBytes 0) l

variable {d : Dfa} {a : Inflow}

theorem loopsAtStart_iff (hd : d.WellFormed) {b : UInt8} :
    d.LoopsAtStart b ↔ d.byteStep? 0 b = some 0 :=
  (Dfa.byteStep?_eq_some_iff hd.deterministic).symm

/-- The step program stays idle on a byte that no edge of the start takes, or that an edge takes
back to the start. -/
theorem staysIdle_iff (hd : d.WellFormed) (ha : Inflow.ofDfa d = .ok a) {p : Program}
    (hp : p.WrittenFrom a) {b : UInt8} :
    p.StaysIdle b ↔ d.byteStep? 0 b = none ∨ d.byteStep? 0 b = some 0 := by
  have hstart : OneHot p.initialState a.stateCount 0 := by
    rw [← hp.stateCount]
    apply oneHot_initialState p
    rw [hp.stateCount, Inflow.stateCount_ofDfa ha]
    exact hd.pos
  have hnext := oneHot_next hd ha (f := ⟨b, p.initialState, #[], false, false⟩) hstart
  rw [Program.StaysIdle, hp.step, hp.stateCount, hnext.getD_eq_true_iff, Dfa.restart]
  cases d.byteStep? 0 b with
  | none => simp
  | some t => simp [eq_comm]

/-- The idle bytes of an inflow are those that no edge of the start takes. -/
theorem mem_idle_ofDfa (ha : Inflow.ofDfa d = .ok a) {b : UInt8} :
    b ∈ a.idle ↔ d.byteStep? 0 b = none := by
  unfold Inflow.ofDfa at ha
  obtain ⟨accept, _, hpure⟩ := Outcome.bind_eq_ok.mp ha
  cases hpure
  have htaken : ((d.edges 0).foldl (fun s e =>
      s.union (Inflow.bytesTaken (d.listedBytes 0) e.1)) ByteSet.empty).contains b =
        (d.edges 0).any fun e => (Inflow.bytesTaken (d.listedBytes 0) e.1).contains b := by
    rw [ByteSet.contains_foldl_union, ByteSet.contains_empty, Bool.false_or]
  change ByteSet.contains (ByteSet.compl _) b = true ↔ _
  rw [ByteSet.contains_compl, htaken, Dfa.byteStep?, Option.map_eq_none_iff, List.find?_eq_none,
    Bool.not_eq_true', List.any_eq_false]

/-- A compiled program stays idle on the recorded bytes and on those that an edge takes from the
start to itself, which are not recorded. The record is exact when there are none of these. -/
theorem idle_bytes_exact_iff {pattern : String} {options : Options} {artifact : Artifact}
    (hd : Obtained d) (h : compileAutomaton pattern d options = .ok artifact) :
    (∀ b, artifact.program.StaysIdle b ↔ b ∈ artifact.metadata.idle ∨ d.LoopsAtStart b) ∧
      (∀ b, d.LoopsAtStart b → b ∉ artifact.metadata.idle) ∧
      ((∀ b, b ∈ artifact.metadata.idle ↔ artifact.program.StaysIdle b) ↔
        ∀ b, ¬d.LoopsAtStart b) := by
  have hwell := hd.wellFormed
  obtain ⟨a, acceptance, reveals, ha, _, hreveals, rfl⟩ := artifact_of_compileAutomaton h
  have hidle : ∀ b, b ∈ a.idle ↔ d.byteStep? 0 b = none := fun b => mem_idle_ofDfa ha
  have hstays : ∀ b, Program.StaysIdle ⟨a.stateCount, a.acceptState, acceptance,
      a.transitionCode.step, reveals⟩ b ↔ b ∈ a.idle ∨ d.LoopsAtStart b := by
    intro b
    rw [staysIdle_iff hwell ha ⟨rfl, rfl, rfl, reveal_of_mem_compileReveals hreveals⟩, hidle,
      loopsAtStart_iff hwell]
  have hloops : ∀ b, d.LoopsAtStart b → b ∉ a.idle := by
    intro b hloop hmem
    rw [loopsAtStart_iff hwell, (hidle b).mp hmem] at hloop
    cases hloop
  refine ⟨hstays, hloops, fun hexact b hloop => ?_, fun hnone b => ?_⟩
  · exact hloops b hloop ((hexact b).mpr ((hstays b).mpr (.inr hloop)))
  · rw [hstays b, or_iff_left (hnone b)]

/-- The start of `a*b` has an edge to itself on `a`. The program stays idle on `a`, and `a` is not
recorded. -/
theorem idle_bytes_miss_loop :
    ∃ d artifact, minimalDfa "a*b" = .ok d ∧ compileAutomaton "a*b" d ⟨.any, []⟩ = .ok artifact ∧
      d.LoopsAtStart 97 ∧ artifact.program.StaysIdle 97 ∧ 97 ∉ artifact.metadata.idle ∧
      ¬∀ b, b ∈ artifact.metadata.idle ↔ artifact.program.StaysIdle b := by
  have hrun : (minimalDfa "a*b").toOption.any (fun d =>
      (compileAutomaton "a*b" d ⟨.any, []⟩).toOption.any fun artifact =>
        decide ((Label.ofSymbol (.byte 97), 0) ∈ d.edges 0)) = true := by
    decide +kernel
  obtain ⟨d, hd, hrun⟩ := Outcome.exists_ok_of_any hrun
  obtain ⟨artifact, hartifact, hedge⟩ := Outcome.exists_ok_of_any hrun
  obtain ⟨hstays, hmissed, hexact⟩ := idle_bytes_exact_iff (.pattern hd) hartifact
  have hloop : d.LoopsAtStart 97 :=
    ⟨_, of_decide_eq_true hedge, Dfa.contains_bytesTaken.mpr (by simp)⟩
  refine ⟨d, artifact, hd, hartifact, hloop, (hstays 97).mpr (.inr hloop), hmissed 97 hloop, ?_⟩
  rw [hexact]
  exact fun hnone => hnone 97 hloop

end PatternCircuit
