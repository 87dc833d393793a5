import PatternCircuit.Program.Reveal
import PatternCircuit.Proofs.Program.Run
import PatternCircuit.Proofs.Program.Transition

/-! # What a reveal step discloses

A reveal step walks back over a run. At each byte it knows whether the run goes on from there, byte
after byte, until it accepts or the input ends; the byte is disclosed if it does and if the byte was
consumed on a chosen edge. -/

namespace PatternCircuit

open Builder

/-! ### One step -/

namespace Frame

/-- The run goes on over this byte: the byte moves it, and it accepts behind the byte or goes on. -/
def goesOn (f : Frame) (acceptState : Nat) : Bool :=
  f.changed && (f.next.getD acceptState false || f.carry)

/-- One of the edges is taken. -/
def takes (f : Frame) (edges : List (Nat × Nat)) : Bool :=
  edges.any fun e => f.state.getD e.1 false && f.next.getD e.2 false

end Frame

namespace Inflow

theorem givesAny_emitTaken {count : Nat} (edges : List (Nat × Nat)) {b : Builder}
    (h : b.Sound count) : GivesAny count b (fun f => f.takes edges) (emitTaken edges b) := by
  induction edges generalizing b with
  | nil => exact givesAny_nil h
  | cons edge edges ih =>
      have hsource : Known b.ops (.state edge.1) := trivial
      have htarget : Known b.ops (.nextState edge.2) := trivial
      have htaken : Gives count b
          (fun f => f.state.getD edge.1 false && f.next.getD edge.2 false)
          (b.all [.state edge.1, .nextState edge.2]) := gives_both h hsource htarget
      exact htaken.toAny.append (ih htaken.sound)

theorem storesCarry {count : Nat} (b : Builder) (o : Operand) (f : Frame) :
    (run count (b.store (.storeCarry o)).ops f).stores =
      { (run count b.ops f).stores with carry := read count b.ops f o } := by
  rw [store, run_push]
  rfl

theorem storesDisclosed {count : Nat} (b : Builder) (o : Operand) (f : Frame) :
    (run count (b.store (.disclose o)).ops f).stores =
      { (run count b.ops f).stores with
        disclosed := if read count b.ops f o then f.input
          else (run count b.ops f).stores.disclosed } := by
  rw [store, run_push]
  rfl

/-- The carry says that the run goes on; the byte is disclosed if it does and an edge is taken. -/
theorem revealStep_stores (count acceptState : Nat) (edges : List (Nat × Nat)) (f : Frame) :
    let stores := (runStep (revealStep acceptState edges) f count).stores
    stores.carry = f.goesOn acceptState ∧
      stores.disclosed = if f.takes edges && f.goesOn acceptState then f.input else 0 := by
  let reach := Builder.empty.any [.nextState acceptState, .carry]
  let carried := reach.2.all [.changed, reach.1]
  let kept := carried.2.store (.storeCarry carried.1)
  let taken := emitTaken edges kept
  let onEdge := taken.2.any taken.1
  let mask := onEdge.2.all [onEdge.1, carried.1]
  have hreach := gives_any (sound_empty count) [.nextState acceptState, .carry] (by simp [Known])
  have hchanged : Known reach.2.ops .changed := trivial
  have hcarried := gives_both hreach.sound hchanged hreach.known
  have hkept := extends_store count carried.2 (.storeCarry carried.1)
  have hedge := (givesAny_emitTaken edges
    (sound_store hcarried.sound (.storeCarry carried.1))).any
  have hknown := hkept.known hcarried.known
  have hmask := gives_both hedge.sound hedge.known (hedge.extension.known hknown)
  have hgoesOn : read count carried.2.ops f carried.1 = f.goesOn acceptState := by
    rw [hcarried.read, hreach.read, List.any_cons, List.any_cons, List.any_nil, Bool.or_false]
    rfl
  have hmasked : read count mask.2.ops f mask.1 = (f.takes edges && f.goesOn acceptState) := by
    rw [hmask.read, hedge.read, hedge.extension.read _ hknown, hkept.read _ hcarried.known,
      hgoesOn]
  have hbefore : (run count mask.2.ops f).stores =
      { (run count Builder.empty.ops f).stores with carry := f.goesOn acceptState } := by
    rw [hmask.stores, hedge.stores, ← hgoesOn, ← hreach.stores, ← hcarried.stores]
    exact storesCarry carried.2 carried.1 f
  intro stores
  have hstores : stores = { (run count mask.2.ops f).stores with
      disclosed := if f.takes edges && f.goesOn acceptState then f.input
        else (run count mask.2.ops f).stores.disclosed } := by
    rw [← hmasked]
    exact storesDisclosed mask.2 mask.1 f
  rw [hstores, hbefore]
  exact ⟨rfl, rfl⟩

/-- A reveal has an edge, its edges exist, and its step is written from them. -/
theorem reveal_eq_ok_iff {a : Inflow} {name : String} {edges : List (Nat × Nat)} {r : Reveal} :
    a.reveal name edges = .ok r ↔ edges ≠ [] ∧
      (∀ e ∈ edges, e.1 < a.stateCount ∧ e.2 < a.stateCount) ∧
      r = ⟨name, edges, revealStep a.acceptState edges⟩ := by
  have hfind : (edges.find? fun e => a.stateCount ≤ e.1 || a.stateCount ≤ e.2) = none ↔
      ∀ e ∈ edges, e.1 < a.stateCount ∧ e.2 < a.stateCount := by
    simp [List.find?_eq_none]
  rw [← hfind, reveal]
  cases edges with
  | nil => simp
  | cons edge edges =>
      cases (edge :: edges).find? fun e => a.stateCount ≤ e.1 || a.stateCount ≤ e.2 with
      | some e => simp
      | none => simp [eq_comm]

end Inflow

/-! ### The walk back -/

/-- What a reveal step sees of a row when the carry behind the row is known. -/
def TraceRow.frame (row : TraceRow) (carry : Bool) : Frame :=
  ⟨row.input, row.state, row.next, row.changed, carry⟩

/-- The run goes on over the rows until it accepts or they end. -/
def goesOn (acceptState : Nat) : List TraceRow → Bool
  | [] => true
  | row :: rest => (row.frame (goesOn acceptState rest)).goesOn acceptState

/-- The disclosed byte of the first row. -/
def disclosed (acceptState : Nat) (edges : List (Nat × Nat)) (rest : List TraceRow)
    (row : TraceRow) : UInt8 :=
  if (row.frame (goesOn acceptState rest)).takes edges && goesOn acceptState (row :: rest) then
    row.input
  else 0

theorem revealByte_revealStep (count acceptState : Nat) (edges : List (Nat × Nat))
    (row : TraceRow) (rest : List TraceRow) (bytes : List UInt8) :
    Program.revealByte count (Inflow.revealStep acceptState edges)
        (goesOn acceptState rest, bytes) row =
      (goesOn acceptState (row :: rest), disclosed acceptState edges rest row :: bytes) := by
  obtain ⟨hcarry, hdisclosed⟩ := Inflow.revealStep_stores count acceptState edges
    (row.frame (goesOn acceptState rest))
  rw [goesOn, disclosed, goesOn, ← hcarry]
  rw [← hcarry] at hdisclosed
  exact congrArg (fun byte => (_, byte :: bytes)) hdisclosed

/-- Walking back over rows, which come latest first. -/
theorem foldl_revealByte (count acceptState : Nat) (edges : List (Nat × Nat))
    (rows : List TraceRow) :
    ∃ bytes, rows.reverse.foldl
        (Program.revealByte count (Inflow.revealStep acceptState edges)) (true, []) =
          (goesOn acceptState rows, bytes) ∧
      ∀ i, bytes[i]? = rows[i]?.map (disclosed acceptState edges (rows.drop (i + 1))) := by
  induction rows with
  | nil => exact ⟨[], rfl, fun i => rfl⟩
  | cons row rest ih =>
      obtain ⟨bytes, hfold, hbytes⟩ := ih
      refine ⟨disclosed acceptState edges rest row :: bytes, ?_, ?_⟩
      · rw [List.reverse_cons, List.foldl_append, hfold]
        exact revealByte_revealStep count acceptState edges row rest bytes
      · intro i
        cases i with
        | zero => rfl
        | succ i =>
            rw [List.getElem?_cons_succ, List.getElem?_cons_succ, List.drop_succ_cons]
            exact hbytes i

end PatternCircuit
