import Mathlib.Data.List.Induction
import PatternCircuit.Program.Evaluation

/-! # Runs of a program

A run goes through the states after every beginning of the input. -/

namespace PatternCircuit

namespace Evaluation

/-- State `q` is active at position `t`. -/
def activeAt (e : Evaluation) (t q : Nat) : Bool := (e.states[t]?.getD #[]).getD q false

end Evaluation

namespace Program

theorem evaluate_of_validate {p : Program} (h : p.validate = .ok ()) (x : List UInt8) :
    p.evaluate x = .ok (p.run x) := by
  rw [evaluate, h]

/-- The active states after some input. -/
def stateAfter (p : Program) (x : List UInt8) : Array Bool := p.currentState (p.trace x)

theorem trace_concat (p : Program) (x : List UInt8) (c : UInt8) :
    p.trace (x ++ [c]) = p.advance (p.trace x) c := by
  simp [trace]

theorem stateAfter_concat (p : Program) (x : List UInt8) (c : UInt8) :
    p.stateAfter (x ++ [c]) =
      (runStep p.step ⟨c, p.stateAfter x, #[], false, false⟩ p.stateCount).stores.next := by
  rw [stateAfter, trace_concat]
  rfl

theorem input_trace (p : Program) (x : List UInt8) :
    (p.trace x).map TraceRow.input = x.reverse := by
  induction x using List.reverseRecOn with
  | nil => rfl
  | append_singleton x c ih =>
      rw [trace_concat, List.reverse_append, ← ih]
      rfl

theorem length_trace (p : Program) (x : List UInt8) : (p.trace x).length = x.length := by
  simpa using congrArg List.length (p.input_trace x)

/-- The row of a byte that is read behind some input. -/
def rowAfter (p : Program) (x : List UInt8) (c : UInt8) : TraceRow :=
  let stores := (runStep p.step ⟨c, p.stateAfter x, #[], false, false⟩ p.stateCount).stores
  ⟨c, p.stateAfter x, stores.next, stores.changed⟩

theorem next_rowAfter (p : Program) (x : List UInt8) (c : UInt8) :
    (p.rowAfter x c).next = p.stateAfter (x ++ [c]) :=
  (p.stateAfter_concat x c).symm

/-- Row `t` of a run is that of byte `t` behind the first `t` bytes. -/
theorem getElem?_reverse_trace (p : Program) (x : List UInt8) (t : Nat) :
    (p.trace x).reverse[t]? = x[t]?.map (p.rowAfter (x.take t)) := by
  induction x using List.reverseRecOn with
  | nil => rfl
  | append_singleton x c ih =>
      have hrows : (p.trace (x ++ [c])).reverse = (p.trace x).reverse ++ [p.rowAfter x c] := by
        rw [trace_concat]
        exact List.reverse_cons
      have hlength : (p.trace x).reverse.length = x.length := by
        rw [List.length_reverse, length_trace]
      rw [hrows]
      rcases Nat.lt_trichotomy t x.length with hlt | heq | hgt
      · rw [List.getElem?_append_left (by omega), List.getElem?_append_left hlt, ih,
          List.take_append_of_le_length (by omega)]
      · simp [heq, hlength]
      · rw [List.getElem?_eq_none, List.getElem?_eq_none, Option.map_none]
        all_goals rw [List.length_append, List.length_singleton]
        all_goals omega

theorem next_trace (p : Program) (x : List UInt8) :
    ((p.trace x).map TraceRow.next).reverse =
      (List.range x.length).map fun t => p.stateAfter (x.take (t + 1)) := by
  apply List.ext_getElem?
  intro t
  rw [← List.map_reverse, List.getElem?_map, getElem?_reverse_trace, List.getElem?_map]
  by_cases ht : t < x.length
  · rw [List.getElem?_eq_getElem ht, List.getElem?_range ht, Option.map_some, Option.map_some,
      Option.map_some, next_rowAfter, List.take_succ_eq_append_getElem ht]
  · rw [List.getElem?_eq_none (by omega), List.getElem?_eq_none (by simpa using ht)]
    rfl

/-- Position `t` of a run holds the states after the first `t` bytes. -/
theorem states_run (p : Program) (x : List UInt8) :
    (p.run x).states = (List.range (x.length + 1)).map fun t => p.stateAfter (x.take t) := by
  show p.initialState :: ((p.trace x).map TraceRow.next).reverse = _
  rw [next_trace, List.range_succ_eq_map, List.map_cons, List.map_map]
  rfl

theorem getElem?_states_run (p : Program) {x : List UInt8} {t : Nat} (ht : t ≤ x.length) :
    (p.run x).states[t]? = some (p.stateAfter (x.take t)) := by
  rw [states_run, List.getElem?_map, List.getElem?_range (by omega)]
  rfl

theorem activeAt_run (p : Program) {x : List UInt8} {t : Nat} (ht : t ≤ x.length) (q : Nat) :
    (p.run x).activeAt t q = (p.stateAfter (x.take t)).getD q false := by
  rw [Evaluation.activeAt, getElem?_states_run p ht, Option.getD_some]

theorem getElem?_changed_run (p : Program) (x : List UInt8) (t : Nat) :
    (p.run x).changed[t]? = x[t]?.map fun c => (p.rowAfter (x.take t) c).changed := by
  show ((p.trace x).map TraceRow.changed).reverse[t]? = _
  rw [← List.map_reverse, List.getElem?_map, getElem?_reverse_trace, Option.map_map]
  rfl

theorem length_changed_run (p : Program) (x : List UInt8) :
    (p.run x).changed.length = x.length := by
  simp [run, length_trace]

theorem length_revealBytes (count : Nat) (step : List Op) (rows : List TraceRow) :
    (revealBytes count step rows).length = rows.length := by
  have hfold : ∀ done : Bool × List UInt8,
      (rows.foldl (revealByte count step) done).2.length = rows.length + done.2.length := by
    induction rows with
    | nil => simp
    | cons row rows ih =>
        intro done
        rw [List.foldl_cons, ih, revealByte, List.length_cons, List.length_cons]
        omega
  exact hfold (true, [])

theorem verdict_run_count {p : Program} (hcount : p.acceptance = .count) (x : List UInt8) :
    (p.run x).verdict = .counted ((List.range (x.length + 1)).countP fun t =>
      p.accepting (p.stateAfter (x.take t))) := by
  have hverdict : (p.run x).verdict = .counted ((p.run x).states.countP p.accepting) := by
    simp [run, verdict, hcount]
  rw [hverdict, states_run, List.countP_map]
  rfl

theorem verdict_run_any {p : Program} (hany : p.acceptance = .any) (x : List UInt8) :
    (p.run x).verdict = .matched ((List.range (x.length + 1)).any fun t =>
      p.accepting (p.stateAfter (x.take t))) := by
  have hverdict : (p.run x).verdict = .matched ((p.run x).states.any p.accepting) := by
    simp [run, verdict, hany]
  rw [hverdict, states_run, List.any_map]
  rfl

theorem verdict_run_all {p : Program} (hall : p.acceptance = .all) (x : List UInt8) :
    (p.run x).verdict = .matched ((List.range x.length).all fun t =>
      p.accepting (p.stateAfter (x.take (t + 1)))) := by
  have hverdict : (p.run x).verdict = .matched (((p.run x).states.drop 1).all p.accepting) := by
    simp [run, verdict, hall]
  rw [hverdict, states_run, List.range_succ_eq_map, List.map_cons, List.drop_succ_cons,
    List.drop_zero, List.map_map, List.all_map]
  rfl

end Program

end PatternCircuit
