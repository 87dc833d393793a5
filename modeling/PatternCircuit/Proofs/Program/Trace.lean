import PatternCircuit.Program.Reveal
import PatternCircuit.Proofs.Automaton.Inflow
import PatternCircuit.Proofs.Program.Run
import PatternCircuit.Proofs.Program.Transition

/-! # The active state of a run

At every position of a run exactly one state is active: the one that the automaton's byte steps lead
to, where a byte that cannot be taken leads back to the start. -/

namespace PatternCircuit

/-- Exactly one of the states is active. -/
structure OneHot (states : Array Bool) (count active : Nat) : Prop where
  size : states.size = count
  lt : active < count
  getD : ∀ i < count, states.getD i false = decide (i = active)

theorem OneHot.getD_eq_true_iff {states : Array Bool} {count active : Nat}
    (h : OneHot states count active) (i : Nat) : states.getD i false = true ↔ i = active := by
  by_cases hi : i < count
  · rw [h.getD i hi, decide_eq_true_eq]
  · have hne : i ≠ active := fun heq => hi (heq ▸ h.lt)
    have hsize : ¬i < states.size := h.size ▸ hi
    simp [hne, Array.getD_eq_getD_getElem?, hsize]

theorem oneHot_initialState (p : Program) (h : 0 < p.stateCount) :
    OneHot p.initialState p.stateCount 0 where
  size := by simp [Program.initialState]
  lt := h
  getD i hi := by
    rw [Program.initialState, Inflow.getD_setIfInBounds]
    by_cases hzero : i = 0
    · simp [hzero, h]
    · simp [hzero, Array.getD_eq_getD_getElem?, hi]

namespace Dfa

/-- The state after a byte, which is the start if no edge takes the byte. -/
def restart (d : Dfa) (s : Nat) (x : UInt8) : Nat := (d.byteStep? s x).getD 0

/-- The state after some input. -/
def active (d : Dfa) (x : List UInt8) : Nat := x.foldl d.restart 0

theorem active_concat (d : Dfa) (x : List UInt8) (c : UInt8) :
    d.active (x ++ [c]) = d.restart (d.active x) c := by
  simp [active]

end Dfa

/-- The program is written from an inflow. -/
structure Program.WrittenFrom (p : Program) (a : Inflow) : Prop where
  stateCount : p.stateCount = a.stateCount
  acceptState : p.acceptState = a.acceptState
  step : p.step = a.transitionCode.step
  reveals : ∀ r ∈ p.reveals, a.reveal r.name r.edges = .ok r

/-- The edges of a state that match a byte. -/
def Inflow.matchingEdges (a : Inflow) (d : Dfa) (s : Nat) (x : UInt8) : List (Label × Nat) :=
  (d.edges s).filter fun e => (a.matched s e.1).contains x

section Compiled

variable {d : Dfa} {a : Inflow} (hd : d.WellFormed) (ha : Inflow.ofDfa d = .ok a)
include hd ha

/-- With one active state, the edges that fire are those of the automaton's byte step. -/
theorem fires_of_oneHot {f : Frame} {q : Nat} (hf : OneHot f.state a.stateCount q) {t : Nat}
    (ht : t < a.stateCount) : a.fires f t = decide (d.byteStep? q f.input = some t) := by
  rw [Inflow.stateCount_ofDfa ha] at hf ht
  rw [Bool.eq_iff_iff, decide_eq_true_eq, Dfa.byteStep?_eq_some_iff hd.deterministic]
  simp only [Inflow.fires, List.any_eq_true, Bool.and_eq_true, Prod.exists,
    Inflow.mem_predecessors_ofDfa ha hd ht]
  constructor
  · rintro ⟨s, l, hmem, hactive, htaken⟩
    have hs := Dfa.lt_size_of_mem_edges hmem
    rw [hf.getD s hs, decide_eq_true_eq] at hactive
    rw [Inflow.matched_ofDfa ha hs, hactive] at htaken
    exact ⟨l, hactive ▸ hmem, htaken⟩
  · rintro ⟨l, hmem, htaken⟩
    have hq := Dfa.lt_size_of_mem_edges hmem
    refine ⟨q, l, hmem, ?_, ?_⟩
    · rw [hf.getD q hq, decide_eq_true rfl]
    · rwa [Inflow.matched_ofDfa ha hq]

theorem moves_of_oneHot {f : Frame} {q : Nat} (hf : OneHot f.state a.stateCount q) :
    a.moves f = decide (d.restart q f.input ≠ 0) := by
  rw [Bool.eq_iff_iff, decide_eq_true_eq, Inflow.moves, List.any_eq_true]
  constructor
  · rintro ⟨t, ht, hfires⟩
    obtain ⟨hne, hlt⟩ := Inflow.mem_drop_one_range.mp ht
    rw [fires_of_oneHot hd ha hf hlt, decide_eq_true_eq] at hfires
    rwa [Dfa.restart, hfires, Option.getD_some]
  · intro hne
    obtain ⟨t, ht⟩ : ∃ t, d.byteStep? q f.input = some t := by
      cases hstep : d.byteStep? q f.input with
      | none => simp [Dfa.restart, hstep] at hne
      | some t => exact ⟨t, rfl⟩
    have hlt := Dfa.byteStep?_lt hd.inRange hd.deterministic ht
    rw [← Inflow.stateCount_ofDfa ha] at hlt
    rw [Dfa.restart, ht, Option.getD_some] at hne
    refine ⟨t, Inflow.mem_drop_one_range.mpr ⟨hne, hlt⟩, ?_⟩
    rw [fires_of_oneHot hd ha hf hlt, ht, decide_eq_true rfl]

/-- The transition step moves the active state along the automaton. -/
theorem oneHot_next {f : Frame} {q : Nat} (hf : OneHot f.state a.stateCount q) :
    OneHot (runStep a.transitionCode.step f a.stateCount).stores.next a.stateCount
      (d.restart q f.input) := by
  obtain ⟨hsize, _, hnext⟩ := a.transitionCode_stores f
  have hpos : 0 < a.stateCount := Nat.lt_of_le_of_lt (Nat.zero_le q) hf.lt
  refine ⟨hsize, ?_, ?_⟩
  · unfold Dfa.restart
    cases hstep : d.byteStep? q f.input with
    | none => exact hpos
    | some t =>
        rw [Inflow.stateCount_ofDfa ha]
        exact Dfa.byteStep?_lt hd.inRange hd.deterministic hstep
  · intro i hi
    rw [hnext i hi, moves_of_oneHot hd ha hf, fires_of_oneHot hd ha hf hi]
    by_cases hzero : i = 0
    · rw [if_pos hzero, hzero, Bool.eq_iff_iff]
      simp [eq_comm]
    · rw [if_neg hzero, decide_eq_decide, Dfa.restart]
      cases d.byteStep? q f.input with
      | none => simp [hzero]
      | some t => simp [eq_comm]

/-- The only active state after some input. -/
theorem oneHot_stateAfter {p : Program} (hp : p.WrittenFrom a) (x : List UInt8) :
    OneHot (p.stateAfter x) p.stateCount (d.active x) := by
  induction x using List.reverseRecOn with
  | nil =>
      apply oneHot_initialState p
      rw [hp.stateCount, Inflow.stateCount_ofDfa ha]
      exact hd.pos
  | append_singleton x c ih =>
      rw [hp.stateCount] at ih
      rw [Program.stateAfter_concat, Dfa.active_concat, hp.stateCount, hp.step]
      exact oneHot_next hd ha ih

theorem active_lt {p : Program} (hp : p.WrittenFrom a) (x : List UInt8) :
    d.active x < d.states.size := by
  have hhot := oneHot_stateAfter hd ha hp x
  rw [← Inflow.stateCount_ofDfa ha, ← hp.stateCount]
  exact hhot.lt

/-- The active state at a position is the one that the automaton is in. -/
theorem activeAt_run_iff {p : Program} (hp : p.WrittenFrom a) {x : List UInt8} {t : Nat}
    (ht : t ≤ x.length) (q : Nat) :
    (p.run x).activeAt t q = true ↔ q = d.active (x.take t) := by
  have hhot := oneHot_stateAfter hd ha hp (x.take t)
  rw [p.activeAt_run ht, hhot.getD_eq_true_iff]

theorem changed_rowAfter {p : Program} (hp : p.WrittenFrom a) (x : List UInt8) (c : UInt8) :
    (p.rowAfter x c).changed = decide (d.restart (d.active x) c ≠ 0) := by
  have hhot := oneHot_stateAfter hd ha hp x
  rw [Program.rowAfter, hp.stateCount, hp.step, (a.transitionCode_stores _).2.1]
  rw [hp.stateCount] at hhot
  exact moves_of_oneHot hd ha hhot

/-- At most one edge of a state matches a byte, and the byte leads along it. -/
theorem matchingEdges_ofDfa {s : Nat} (hs : s < d.states.size) (x : UInt8) :
    (∃ l, a.matchingEdges d s x = [(l, d.restart s x)]) ∨
      (a.matchingEdges d s x = [] ∧ d.restart s x = 0) := by
  have hedges : a.matchingEdges d s x =
      (d.edges s).filter fun e => (Inflow.bytesTaken (d.listedBytes s) e.1).contains x := by
    simp [Inflow.matchingEdges, Inflow.matched_ofDfa ha hs]
  have hnodup : (a.matchingEdges d s x).Nodup := (hd.nodup s).of_map.filter _
  rw [hedges] at hnodup ⊢
  have hmem : ∀ e, e ∈ (d.edges s).filter
      (fun e => (Inflow.bytesTaken (d.listedBytes s) e.1).contains x) ↔ e ∈ d.edges s ∧
        (Inflow.bytesTaken (d.listedBytes s) e.1).contains x = true := fun e => List.mem_filter
  generalize (d.edges s).filter
    (fun e => (Inflow.bytesTaken (d.listedBytes s) e.1).contains x) = taking at hnodup hmem
  cases taking with
  | nil =>
      refine .inr ⟨rfl, ?_⟩
      cases hstep : d.byteStep? s x with
      | none => rw [Dfa.restart, hstep, Option.getD_none]
      | some t =>
          obtain ⟨l, hl⟩ := (Dfa.byteStep?_eq_some_iff hd.deterministic).mp hstep
          cases (hmem (l, t)).mpr hl
  | cons e rest =>
      have he := (hmem e).mp List.mem_cons_self
      have hstep : d.byteStep? s x = some e.2 :=
        (Dfa.byteStep?_eq_some_iff hd.deterministic).mpr ⟨e.1, he⟩
      have hrest : rest = [] := by
        refine List.eq_nil_iff_forall_not_mem.mpr fun f hf => ?_
        have hf' := (hmem f).mp (List.mem_cons_of_mem e hf)
        rw [Dfa.eq_of_taken hd.deterministic he.1 hf'.1 he.2 hf'.2] at hnodup
        exact (List.nodup_cons.mp hnodup).1 hf
      refine .inl ⟨e.1, ?_⟩
      rw [hrest, Dfa.restart, hstep, Option.getD_some]

end Compiled

end PatternCircuit
