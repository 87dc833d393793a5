import PatternCircuit.Proofs.RevealVector

/-! # What the public outputs tell about the input

The verdict and the change flags are functions of the active states, and a reveal vector reads the
input at the shown positions only. Of two inputs with the same active states, the public outputs
therefore tell apart exactly those that differ in a disclosed byte. -/

namespace PatternCircuit

/-! ### Change flags -/

section Changed

variable {p : Program} {a : Inflow} (hp : p.WrittenFrom a)
include hp

theorem changed_rowAfter_eq_any (x : List UInt8) (c : UInt8) :
    (p.rowAfter x c).changed =
      ((List.range p.stateCount).drop 1).any fun i => (p.rowAfter x c).next.getD i false := by
  obtain ⟨_, hchanged, hnext⟩ := a.transitionCode_stores ⟨c, p.stateAfter x, #[], false, false⟩
  rw [Program.rowAfter, hp.stateCount, hp.step, hchanged, Inflow.moves, Bool.eq_iff_iff,
    List.any_eq_true, List.any_eq_true]
  refine exists_congr fun i => and_congr_right fun hi => ?_
  obtain ⟨hne, hlt⟩ := Inflow.mem_drop_one_range.mp hi
  rw [hnext i hlt, if_neg hne]

/-- A byte changes the run exactly if some state other than the start is active behind it. -/
theorem changed_run_eq_map (x : List UInt8) :
    (p.run x).changed = ((p.run x).states.drop 1).map fun states =>
      ((List.range p.stateCount).drop 1).any fun i => states.getD i false := by
  apply List.ext_getElem?
  intro t
  rw [p.getElem?_changed_run, List.getElem?_map, List.getElem?_drop, Nat.add_comm 1 t]
  by_cases ht : t < x.length
  · rw [List.getElem?_eq_getElem ht, Option.map_some, p.getElem?_states_run ht, Option.map_some,
      changed_rowAfter_eq_any hp, Program.next_rowAfter, List.take_succ_eq_append_getElem ht]
  · rw [List.getElem?_eq_none (Nat.le_of_not_lt ht), List.getElem?_eq_none]
    · rfl
    · simp only [Program.states_run, List.length_map, List.length_range]
      omega

end Changed

/-! ### Runs with the same states -/

/-- Some reveal vector holds a byte other than zero at position `b`. -/
def Evaluation.Discloses (e : Evaluation) (b : Nat) : Prop :=
  ∃ v ∈ e.reveals, ∃ c, v.bytes[b]? = some c ∧ c ≠ 0

section SameStates

variable {p : Program} {a : Inflow} (hp : p.WrittenFrom a) {x y : List UInt8}
  (hstates : (p.run x).states = (p.run y).states)

include hstates in
theorem length_eq_of_states_eq : x.length = y.length := by
  have hlength := congrArg List.length hstates
  rw [Program.states_run, Program.states_run] at hlength
  simpa using hlength

include hp hstates

theorem shows_iff_of_states_eq (edges : List (Nat × Nat)) (b : Nat) :
    (p.run x).Shows p.acceptState edges b ↔ (p.run y).Shows p.acceptState edges b := by
  apply Evaluation.shows_congr hstates
  rw [changed_run_eq_map hp, changed_run_eq_map hp, hstates]

/-- Vectors are equal if the inputs agree where the reveal shows a byte. -/
theorem vector_eq_of_agree {r : Reveal}
    (hagree : ∀ b, (p.run x).Shows p.acceptState r.edges b → x[b]? = y[b]?) :
    p.vector x r = p.vector y r := by
  refine congrArg (RevealVector.mk r.name) (List.ext_getElem? fun b => ?_)
  have hx := p.getElem?_bytes_vector x r b
  have hy := p.getElem?_bytes_vector y r b
  have hsame := shows_iff_of_states_eq hp hstates r.edges b
  by_cases hshows : (p.run x).Shows p.acceptState r.edges b
  · simp only [if_pos hshows] at hx
    simp only [if_pos (hsame.mp hshows)] at hy
    exact hx.trans ((congrArg _ (hagree b hshows)).trans hy.symm)
  · simp only [if_neg hshows] at hx
    simp only [if_neg fun hshown => hshows (hsame.mpr hshown)] at hy
    have hzero : x[b]?.map (fun _ => (0 : UInt8)) = y[b]?.map fun _ => 0 := by
      rw [← List.getElem?_map, ← List.getElem?_map, List.map_const', List.map_const',
        length_eq_of_states_eq hstates]
    exact hx.trans (hzero.trans hy.symm)

/-- Inputs without zeros that agree where the one is disclosed have the same vectors. -/
theorem reveals_eq_of_agree (hzero : 0 ∉ x)
    (hagree : ∀ b, (p.run x).Discloses b → x[b]? = y[b]?) :
    (p.run x).reveals = (p.run y).reveals := by
  rw [hp.reveals_run, hp.reveals_run]
  apply List.map_congr_left
  intro r hr
  apply vector_eq_of_agree hp hstates
  intro b hshows
  by_cases hb : b < x.length
  · apply hagree
    refine ⟨p.vector x r, ?_, x[b], ?_, fun heq => hzero (heq ▸ List.getElem_mem hb)⟩
    · rw [hp.reveals_run]
      exact List.mem_map_of_mem hr
    · rw [p.getElem?_bytes_vector, List.getElem?_eq_getElem hb, Option.map_some, if_pos hshows]
  · have hlength := length_eq_of_states_eq hstates
    rw [List.getElem?_eq_none (Nat.le_of_not_lt hb), List.getElem?_eq_none]
    exact hlength ▸ Nat.le_of_not_lt hb

end SameStates

/-! ### Public outputs -/

theorem bytes_eq_of_publicOutputs_eq {e f : Evaluation}
    (hlengths : e.reveals.map (fun v => v.bytes.length) = f.reveals.map fun v => v.bytes.length)
    (h : e.publicOutputs = f.publicOutputs) :
    e.reveals.map RevealVector.bytes = f.reveals.map RevealVector.bytes := by
  have hflat := (List.cons.inj h).2
  rw [List.flatMap_def, List.flatMap_def] at hflat
  have hnumbers := List.eq_iff_flatten_eq.mpr ⟨hflat, by simpa [Function.comp_def] using hlengths⟩
  have hinjective : Function.Injective (List.map UInt8.toNat) :=
    List.map_injective_iff.mpr fun b c hbc => UInt8.toNat_inj.mp hbc
  apply List.map_injective_iff.mpr hinjective
  simpa [Function.comp_def] using hnumbers

/-- A byte other than zero in a vector is the input byte. -/
theorem getElem?_of_mem_reveals {p : Program} {a : Inflow} (hp : p.WrittenFrom a)
    {x bytes : List UInt8} (hbytes : bytes ∈ (p.run x).reveals.map RevealVector.bytes) {b : Nat}
    {c : UInt8} (hc : bytes[b]? = some c) (hne : c ≠ 0) : x[b]? = some c := by
  rw [hp.reveals_run, List.map_map] at hbytes
  obtain ⟨r, _, rfl⟩ := List.mem_map.mp hbytes
  rw [Function.comp_apply, p.getElem?_bytes_vector, Option.map_eq_some_iff] at hc
  obtain ⟨c', hc', hif⟩ := hc
  split at hif
  · rw [hc', hif]
  · exact absurd hif.symm hne

/-- Two inputs with the same active states have the same verdict. Their public outputs are the same
exactly if the inputs agree in every disclosed byte, where the one input is free of zeros. -/
theorem public_outputs_eq_iff_agree {pattern : String} {d : Dfa} {options : Options}
    {artifact : Artifact} (h : compileAutomaton pattern d options = .ok artifact)
    {x y : List UInt8} (hzero : 0 ∉ x) :
    ∃ e f, artifact.program.evaluate x = .ok e ∧ artifact.program.evaluate y = .ok f ∧
      (e.states = f.states → e.verdict = f.verdict ∧
        (e.publicOutputs = f.publicOutputs ↔ ∀ b, e.Discloses b → x[b]? = y[b]?) ∧
        ((∀ b, e.Discloses b → x[b]? = y[b]?) → e.reveals = f.reveals)) := by
  obtain ⟨a, ha, hp⟩ := exists_writtenFrom h
  generalize artifact.program = p at hp
  have hvalid := hp.validate ha
  refine ⟨_, _, Program.evaluate_of_validate hvalid x, Program.evaluate_of_validate hvalid y, ?_⟩
  intro hstates
  have hverdict : (p.run x).verdict = (p.run y).verdict := congrArg p.verdict hstates
  have hagreeing := reveals_eq_of_agree hp hstates hzero
  refine ⟨hverdict, ⟨?_, ?_⟩, hagreeing⟩
  · intro houtputs b hdiscloses
    have hlengths : (p.run x).reveals.map (fun v => v.bytes.length) =
        (p.run y).reveals.map fun v => v.bytes.length := by
      rw [hp.reveals_run, hp.reveals_run, List.map_map, List.map_map]
      apply List.map_congr_left
      intro r _
      rw [Function.comp_apply, Function.comp_apply, p.length_bytes_vector, p.length_bytes_vector,
        length_eq_of_states_eq hstates]
    have hbytes := bytes_eq_of_publicOutputs_eq hlengths houtputs
    obtain ⟨v, hv, c, hc, hne⟩ := hdiscloses
    have hmem : v.bytes ∈ (p.run x).reveals.map RevealVector.bytes := List.mem_map_of_mem hv
    rw [getElem?_of_mem_reveals hp hmem hc hne, getElem?_of_mem_reveals hp (hbytes ▸ hmem) hc hne]
  · intro hagree
    rw [Evaluation.publicOutputs, Evaluation.publicOutputs, hverdict, hagreeing hagree]

/-- With the last byte of `[^;]+;[ab]` disclosed, `zz;a` and `qr;a` have the same public outputs. -/
theorem public_outputs_eq_hidden_field :
    ∃ d artifact e f, minimalDfa "[^;]+;[ab]" = .ok d ∧
      compileAutomaton "[^;]+;[ab]" d ⟨.any, [.substring "[ab]" none]⟩ = .ok artifact ∧
      artifact.program.evaluate [122, 122, 59, 97] = .ok e ∧
      artifact.program.evaluate [113, 114, 59, 97] = .ok f ∧ e.states = f.states ∧
      e.publicOutputs = [1, 0, 0, 0, 97] ∧ f.publicOutputs = e.publicOutputs := by
  have hrun : (minimalDfa "[^;]+;[ab]").toOption.any (fun d =>
      (compileAutomaton "[^;]+;[ab]" d ⟨.any, [.substring "[ab]" none]⟩).toOption.any fun artifact =>
        (artifact.program.evaluate [122, 122, 59, 97]).toOption.any fun e =>
          (artifact.program.evaluate [113, 114, 59, 97]).toOption.any fun f =>
            e.states == f.states && e.publicOutputs == [1, 0, 0, 0, 97] &&
              e.reveals.map RevealVector.bytes == [[0, 0, 0, 97]]) = true := by
    decide +kernel
  obtain ⟨d, hd, hrun⟩ := Outcome.exists_ok_of_any hrun
  obtain ⟨artifact, hcompile, hrun⟩ := Outcome.exists_ok_of_any hrun
  obtain ⟨e, heval, hrun⟩ := Outcome.exists_ok_of_any hrun
  obtain ⟨f, hevalf, hrun⟩ := Outcome.exists_ok_of_any hrun
  simp only [Bool.and_eq_true, beq_iff_eq] at hrun
  obtain ⟨⟨hstates, houtputs⟩, hbytes⟩ := hrun
  obtain ⟨e', f', heval', hevalf', hsame⟩ := @public_outputs_eq_iff_agree _ _ _ _ hcompile
    [122, 122, 59, 97] [113, 114, 59, 97] (by decide)
  obtain rfl := Except.ok.inj (heval.symm.trans heval')
  obtain rfl := Except.ok.inj (hevalf.symm.trans hevalf')
  have hagree : ∀ b, e.Discloses b →
      [122, 122, 59, 97][b]? = ([113, 114, 59, 97] : List UInt8)[b]? := by
    intro b hdiscloses
    obtain ⟨v, hv, c, hc, hne⟩ := hdiscloses
    have hmem : v.bytes ∈ e.reveals.map RevealVector.bytes := List.mem_map_of_mem hv
    rw [hbytes, List.mem_singleton] at hmem
    rw [hmem] at hc
    have hcheck : ∀ b < 4, ([0, 0, 0, 97] : List UInt8)[b]? ≠ some 0 →
        [122, 122, 59, 97][b]? = ([113, 114, 59, 97] : List UInt8)[b]? := by decide
    refine hcheck b (List.getElem?_eq_some_iff.mp hc).1 fun hzero => hne ?_
    exact Option.some.inj (hc.symm.trans hzero)
  exact ⟨d, artifact, e, f, hd, hcompile, heval, hevalf, hstates, houtputs,
    ((hsame hstates).2.1.mpr hagree).symm⟩

end PatternCircuit
