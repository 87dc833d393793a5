import PatternCircuit.Proofs.Disclosure

/-! # What a reveal vector holds

An entry of a reveal vector is the input byte if the byte is consumed on a chosen edge and the run
goes on from there until it accepts or the input ends; otherwise it is zero. Of the chosen edges only
the set matters, neither their order nor how often one is listed. -/

namespace PatternCircuit

/-! ### Shown bytes -/

namespace Evaluation

variable (e : Evaluation)

/-- Some stretch from byte `b` on is unbroken and ends in acceptance or with the input. -/
def Sustained (acceptState b : Nat) : Prop :=
  ∃ last < e.changed.length, b ≤ last ∧ e.Unbroken b (last + 1) ∧
    (e.activeAt (last + 1) acceptState = true ∨ last + 1 = e.changed.length)

/-- Byte `b` is consumed on one of the edges, and the run goes on from there. -/
def Shows (acceptState : Nat) (edges : List (Nat × Nat)) (b : Nat) : Prop :=
  e.takes edges b = true ∧ e.Sustained acceptState b

instance (b t : Nat) : Decidable (e.Unbroken b t) :=
  inferInstanceAs (Decidable (∀ s, b ≤ s → s < t → e.changed[s]? = some true))

instance (acceptState b : Nat) : Decidable (e.Sustained acceptState b) :=
  inferInstanceAs (Decidable (∃ last < e.changed.length, b ≤ last ∧ e.Unbroken b (last + 1) ∧
    (e.activeAt (last + 1) acceptState = true ∨ last + 1 = e.changed.length)))

instance (acceptState : Nat) (edges : List (Nat × Nat)) (b : Nat) :
    Decidable (e.Shows acceptState edges b) :=
  inferInstanceAs (Decidable (e.takes edges b = true ∧ e.Sustained acceptState b))

variable {e}

theorem sustained_iff {acceptState b : Nat} (hb : b < e.changed.length) :
    e.Sustained acceptState b ↔
      e.Completes acceptState b ∨ e.Unbroken b e.changed.length := by
  constructor
  · intro h
    obtain ⟨last, hlt, hle, hunbroken, hend⟩ := h
    cases hend with
    | inl haccept => exact .inl ⟨last + 1, by omega, hlt, hunbroken, haccept⟩
    | inr hlast => exact .inr (hlast ▸ hunbroken)
  · intro h
    cases h with
    | inl hcompletes =>
        obtain ⟨t, hlt, hle, hunbroken, haccept⟩ := hcompletes
        cases t with
        | zero => omega
        | succ last => exact ⟨last, hle, by omega, hunbroken, .inl haccept⟩
    | inr hunbroken =>
        have hlast : e.changed.length - 1 + 1 = e.changed.length := by omega
        refine ⟨e.changed.length - 1, by omega, by omega, ?_, .inr hlast⟩
        rwa [hlast]

/-- What is shown depends on the states and the change flags only. -/
theorem shows_congr {f : Evaluation} (hstates : e.states = f.states)
    (hchanged : e.changed = f.changed) (acceptState : Nat) (edges : List (Nat × Nat)) (b : Nat) :
    e.Shows acceptState edges b ↔ f.Shows acceptState edges b := by
  unfold Shows takes Sustained Unbroken activeAt
  rw [hstates, hchanged]

end Evaluation

/-! ### The set of edges -/

theorem Frame.takes_eq_of_mem_iff {edges edges' : List (Nat × Nat)}
    (h : ∀ edge, edge ∈ edges' ↔ edge ∈ edges) (f : Frame) : f.takes edges' = f.takes edges := by
  rw [Bool.eq_iff_iff, takes, takes, List.any_eq_true, List.any_eq_true]
  simp only [h]

/-- The walk back discloses the same bytes for every list of the same edges. -/
theorem Program.revealBytes_eq_of_mem_iff {edges edges' : List (Nat × Nat)}
    (h : ∀ edge, edge ∈ edges' ↔ edge ∈ edges) (count acceptState : Nat) (rows : List TraceRow) :
    revealBytes count (Inflow.revealStep acceptState edges') rows =
      revealBytes count (Inflow.revealStep acceptState edges) rows := by
  obtain ⟨bytes, hfold, hbytes⟩ := foldl_revealByte count acceptState edges rows.reverse
  obtain ⟨bytes', hfold', hbytes'⟩ := foldl_revealByte count acceptState edges' rows.reverse
  rw [List.reverse_reverse] at hfold hfold'
  rw [revealBytes, revealBytes, hfold, hfold']
  apply List.ext_getElem?
  intro i
  have hdisclosed : disclosed acceptState edges' (rows.reverse.drop (i + 1)) =
      disclosed acceptState edges (rows.reverse.drop (i + 1)) := by
    funext row
    rw [disclosed, disclosed, Frame.takes_eq_of_mem_iff h]
  rw [hbytes', hbytes, hdisclosed]

/-! ### The vectors of a program -/

namespace Program

/-- Only the transition step matters for the rows of a run. -/
theorem trace_congr {p q : Program} (hcount : p.stateCount = q.stateCount) (hstep : p.step = q.step)
    (x : List UInt8) : p.trace x = q.trace x := by
  have hadvance : p.advance = q.advance := by
    funext rows byte
    have hstate : p.currentState rows = q.currentState rows := by
      cases rows with
      | nil => rw [currentState, currentState, initialState, initialState, hcount]
      | cons row rows => rfl
    rw [advance, advance, hstate, hstep, hcount]
  rw [trace, trace, hadvance]

/-- The vector of the bytes that a run discloses on the edges of a reveal. -/
def vector (p : Program) (x : List UInt8) (r : Reveal) : RevealVector :=
  ⟨r.name, revealBytes p.stateCount (Inflow.revealStep p.acceptState r.edges) (p.trace x)⟩

theorem length_bytes_vector (p : Program) (x : List UInt8) (r : Reveal) :
    (p.vector x r).bytes.length = x.length := by
  rw [vector, length_revealBytes, length_trace]

theorem getElem?_bytes_vector (p : Program) (x : List UInt8) (r : Reveal) (b : Nat) :
    (p.vector x r).bytes[b]? =
      x[b]?.map fun c => if (p.run x).Shows p.acceptState r.edges b then c else 0 := by
  rw [vector, getElem?_revealBytes]
  by_cases hb : b < x.length
  · have hlength := p.length_changed_run x
    have hiff : (p.run x).Shows p.acceptState r.edges b ↔ (p.run x).takes r.edges b = true ∧
        ((p.run x).Completes p.acceptState b ∨ (p.run x).Unbroken b x.length) := by
      rw [Evaluation.Shows, Evaluation.sustained_iff (hlength.symm ▸ hb), hlength]
    rw [List.getElem?_eq_getElem hb, Option.map_some, Option.map_some]
    by_cases hshows : (p.run x).Shows p.acceptState r.edges b
    · rw [if_pos (hiff.mp hshows), if_pos hshows]
    · rw [if_neg fun htakes => hshows (hiff.mpr htakes), if_neg hshows]
  · rw [List.getElem?_eq_none (Nat.le_of_not_lt hb)]
    rfl

/-- A program that is written from an inflow gives the vectors of its reveals. -/
theorem WrittenFrom.reveals_run {p : Program} {a : Inflow} (hp : p.WrittenFrom a)
    (x : List UInt8) : (p.run x).reveals = p.reveals.map (p.vector x) := by
  apply List.map_congr_left
  intro r hr
  have hwritten := (Inflow.reveal_eq_ok_iff.mp (hp.reveals r hr)).2.2
  have hstep : r.step = Inflow.revealStep p.acceptState r.edges := by
    rw [hp.acceptState]
    exact congrArg Reveal.step hwritten
  rw [hstep, vector]

end Program

/-! ### Programs with one reveal -/

/-- The program that is written from an inflow, with some reveals. -/
def Inflow.program (a : Inflow) (acceptance : Acceptance) (reveals : List Reveal) : Program :=
  ⟨a.stateCount, a.acceptState, acceptance, a.transitionCode.step, reveals⟩

/-- The program with one reveal runs on every input and gives the vector of that reveal. -/
theorem evaluate_program_reveal {d : Dfa} {a : Inflow} (ha : Inflow.ofDfa d = .ok a)
    (acceptance : Acceptance) {r : Reveal} (hr : a.reveal r.name r.edges = .ok r)
    (x : List UInt8) :
    (a.program acceptance [r]).evaluate x = .ok ((a.program acceptance [r]).run x) ∧
      ((a.program acceptance [r]).run x).reveals = [(a.program acceptance [r]).vector x r] := by
  have hp : (a.program acceptance [r]).WrittenFrom a := by
    refine ⟨rfl, rfl, rfl, fun r' hr' => ?_⟩
    rw [List.mem_singleton.mp hr', hr]
  exact ⟨Program.evaluate_of_validate (hp.validate ha) x, hp.reveals_run x⟩

/-- Reveals of the same edges have the same vector, whatever their names. -/
theorem bytes_vector_program_eq {a : Inflow} (acceptance : Acceptance) {r r' : Reveal}
    (h : ∀ edge, edge ∈ r'.edges ↔ edge ∈ r.edges) (x : List UInt8) :
    ((a.program acceptance [r']).vector x r').bytes =
      ((a.program acceptance [r]).vector x r).bytes := by
  have htrace : (a.program acceptance [r']).trace x = (a.program acceptance [r]).trace x :=
    Program.trace_congr rfl rfl x
  rw [Program.vector, Program.vector, htrace]
  exact Program.revealBytes_eq_of_mem_iff h a.stateCount a.acceptState _

/-- The reveal of a list of edges of an automaton can be written, and the program with it runs on
every input. The vector holds the bytes that are consumed on one of the edges and from which the run
goes on until it accepts or the input ends, and zero elsewhere. Every other list of the same edges
gives the same vector. -/
theorem reveal_vector_closed_form {d : Dfa} {a : Inflow} (ha : Inflow.ofDfa d = .ok a)
    (acceptance : Acceptance) (name : String) (edges : List (Nat × Nat)) (hne : edges ≠ [])
    (hin : ∀ edge ∈ edges, edge.1 < a.stateCount ∧ edge.2 < a.stateCount) (x : List UInt8) :
    ∃ r e v, a.reveal name edges = .ok r ∧ (a.program acceptance [r]).evaluate x = .ok e ∧
      e.states.length = x.length + 1 ∧ e.changed.length = x.length ∧
      e.reveals = [v] ∧ v.name = name ∧ v.bytes.length = x.length ∧
      (∀ (b : Nat) (c : UInt8), x[b]? = some c →
        v.bytes[b]? = some (if e.Shows a.acceptState edges b then c else 0)) ∧
      ∀ (name' : String) (edges' : List (Nat × Nat)), (∀ edge, edge ∈ edges' ↔ edge ∈ edges) →
        ∃ r' e', a.reveal name' edges' = .ok r' ∧
          (a.program acceptance [r']).evaluate x = .ok e' ∧ e'.reveals = [⟨name', v.bytes⟩] := by
  let r : Reveal := ⟨name, edges, Inflow.revealStep a.acceptState edges⟩
  have hr : a.reveal r.name r.edges = .ok r := Inflow.reveal_eq_ok_iff.mpr ⟨hne, hin, rfl⟩
  obtain ⟨heval, hreveals⟩ := evaluate_program_reveal ha acceptance hr x
  refine ⟨r, _, _, hr, heval, ?_, Program.length_changed_run _ x, hreveals, rfl,
    Program.length_bytes_vector _ x r, ?_, ?_⟩
  · simp [Program.states_run]
  · intro b c hc
    rw [Program.getElem?_bytes_vector, hc, Option.map_some]
    rfl
  · intro name' edges' hsame
    have hne' : edges' ≠ [] := by
      intro hnil
      obtain ⟨edge, hedge⟩ := List.exists_mem_of_ne_nil edges hne
      have hmem := (hsame edge).mpr hedge
      rw [hnil] at hmem
      cases hmem
    have hin' : ∀ edge ∈ edges', edge.1 < a.stateCount ∧ edge.2 < a.stateCount := by
      intro edge hedge
      exact hin edge ((hsame edge).mp hedge)
    let r' : Reveal := ⟨name', edges', Inflow.revealStep a.acceptState edges'⟩
    have hr' : a.reveal r'.name r'.edges = .ok r' :=
      Inflow.reveal_eq_ok_iff.mpr ⟨hne', hin', rfl⟩
    obtain ⟨heval', hreveals'⟩ := evaluate_program_reveal ha acceptance hr' x
    have hbytes := @bytes_vector_program_eq a acceptance r r' hsame x
    refine ⟨r', _, hr', heval', ?_⟩
    rw [hreveals', ← hbytes]
    rfl

/-- Of `abbcxabbxab` the vector of `b` in `ab+c` holds the `b`s of the match and the last one, behind
which the input ends, but not those of the attempt that `x` breaks. That one edge is listed twice
changes nothing. -/
theorem reveal_vector_repeated_edge :
    ∃ d a r e v, minimalDfa "ab+c" = .ok d ∧ Inflow.ofDfa d = .ok a ∧
      a.reveal "b" [(1, 2), (2, 2), (1, 2)] = .ok r ∧
      (a.program .any [r]).evaluate [97, 98, 98, 99, 120, 97, 98, 98, 120, 97, 98] = .ok e ∧
      e.reveals = [v] ∧ v.bytes = [0, 98, 98, 0, 0, 0, 0, 0, 0, 0, 98] ∧
      e.Shows a.acceptState [(1, 2), (2, 2), (1, 2)] 2 ∧
      ¬e.Shows a.acceptState [(1, 2), (2, 2), (1, 2)] 7 ∧
      e.Shows a.acceptState [(1, 2), (2, 2), (1, 2)] 10 ∧
      ∃ r' e', a.reveal "b" [(2, 2), (1, 2)] = .ok r' ∧
        (a.program .any [r']).evaluate [97, 98, 98, 99, 120, 97, 98, 98, 120, 97, 98] = .ok e' ∧
        e'.reveals = [⟨"b", v.bytes⟩] := by
  have hrun : (minimalDfa "ab+c").toOption.any (fun d => (Inflow.ofDfa d).toOption.any fun a =>
      a.stateCount == 4 && (a.reveal "b" [(1, 2), (2, 2), (1, 2)]).toOption.any fun r =>
        ((a.program .any [r]).evaluate
          [97, 98, 98, 99, 120, 97, 98, 98, 120, 97, 98]).toOption.any fun e =>
            e.reveals.map RevealVector.bytes == [[0, 98, 98, 0, 0, 0, 0, 0, 0, 0, 98]]) = true := by
    decide +kernel
  obtain ⟨d, hd, hrun⟩ := Outcome.exists_ok_of_any hrun
  obtain ⟨a, ha, hrun⟩ := Outcome.exists_ok_of_any hrun
  rw [Bool.and_eq_true, beq_iff_eq] at hrun
  obtain ⟨hcount, hrun⟩ := hrun
  obtain ⟨r, hr, hrun⟩ := Outcome.exists_ok_of_any hrun
  obtain ⟨e, heval, hrun⟩ := Outcome.exists_ok_of_any hrun
  obtain ⟨r', e', v, hr', heval', _, _, hreveals, _, _, hshown, hsame⟩ :=
    reveal_vector_closed_form ha .any "b" [(1, 2), (2, 2), (1, 2)] (by simp)
      (by simp [hcount]) [97, 98, 98, 99, 120, 97, 98, 98, 120, 97, 98]
  obtain rfl := Except.ok.inj (hr.symm.trans hr')
  obtain rfl := Except.ok.inj (heval.symm.trans heval')
  rw [beq_iff_eq, hreveals] at hrun
  have hbytes : v.bytes = [0, 98, 98, 0, 0, 0, 0, 0, 0, 0, 98] := (List.cons.inj hrun).1
  rw [hbytes] at hshown
  refine ⟨d, a, r, e, v, hd, ha, hr, heval, hreveals, hbytes, ?_, ?_, ?_, ?_⟩
  · simpa using hshown 2 98 rfl
  · simpa using hshown 7 98 rfl
  · simpa using hshown 10 98 rfl
  · exact hsame "b" [(2, 2), (1, 2)] (by simp)

end PatternCircuit
