import PatternCircuit.Proofs.Circuit.Gate
import PatternCircuit.Proofs.Circuit.Placement
import PatternCircuit.Proofs.Program.Run

/-! # What the cells of a layout hold

Under any assignment that passes the rows of a layout, every cell holds the value that running the
program on the input bytes gives. -/

namespace PatternCircuit

open Scalar

/-! ### Combining cells -/

namespace Combination

/-- The value that does not change what it is combined with. -/
def neutral : Combination → Bool
  | conj => true
  | disj | sum => false

theorem apply_neutral (way : Combination) (x : Scalar) :
    way.apply (ofBool way.neutral) x = x := by
  apply residue_injective
  have hone : (ofBool true).residue = 1 := residue_one
  have hzero : (ofBool false).residue = 0 := residue_zero
  cases way <;> simp [apply, neutral, hone, hzero]

theorem foldl_conj (bits : List Bool) (b : Bool) :
    (bits.map ofBool).foldl (fun x y => conj.apply x y) (ofBool b) = ofBool (b && bits.all id) := by
  induction bits generalizing b with
  | nil => simp
  | cons bit bits ih =>
      rw [List.map_cons, List.foldl_cons, apply, ofBool_mul, ih, List.all_cons, id, Bool.and_assoc]

theorem foldl_disj (bits : List Bool) (b : Bool) :
    (bits.map ofBool).foldl (fun x y => disj.apply x y) (ofBool b) = ofBool (b || bits.any id) := by
  induction bits generalizing b with
  | nil => simp
  | cons bit bits ih =>
      rw [List.map_cons, List.foldl_cons, apply, ofBool_join, ih, List.any_cons, id, Bool.or_assoc]

theorem foldl_sum (bits : List Bool) (n : Nat) :
    (bits.map ofBool).foldl (fun x y => sum.apply x y) (Scalar.ofNat n) =
      Scalar.ofNat (n + bits.countP id) := by
  induction bits generalizing n with
  | nil => simp
  | cons bit bits ih =>
      rw [List.map_cons, List.foldl_cons, apply, ofBool, ofNat_add, ih, List.countP_cons]
      congr 1
      cases bit
      · simp
      · simp
        omega

end Combination

/-- The cells of the two constants hold them. -/
def HoldsConstants (v : Assignment) : Prop := ∀ value, v (Sheet.constant value) = ofBool value

namespace Sheet

/-- The rows hold under an assignment. -/
def Enforced (v : Assignment) (s : Sheet) : Prop :=
  ∀ (i : Nat) row, s.rows[i]? = some row → row.Enforces v i

variable {v : Assignment} {s s' : Sheet}

theorem Enforced.of_keeps (h : s'.Enforced v) (hk : s.Keeps s') : s.Enforced v :=
  fun i row hi => h i row (hk i row hi)

theorem Enforced.constants (h : s.Enforced v) (hs : Sheet.start.Keeps s) : HoldsConstants v := by
  intro value
  cases value
  · exact h 0 _ (hs 0 _ rfl)
  · exact h 1 _ (hs 1 _ rfl)

theorem Enforced.last {row : Row} (h : Enforced v ⟨s.rows.push row⟩) :
    row.Enforces v s.rows.size :=
  h s.rows.size row (by simp)

theorem keeps_combineFrom (way : Combination) (first : Cell) (rest : List Cell) (s : Sheet) :
    s.Keeps (combineFrom way first rest s).2 := by
  induction rest generalizing first s with
  | nil => exact .refl s
  | cons cell rest ih => exact (keeps_push s _).trans (ih _ _)

theorem keeps_combineAll (way : Combination) (neutral : Bool) (cells : List Cell) (s : Sheet) :
    s.Keeps (combineAll way neutral cells s).2 := by
  cases cells with
  | nil => exact .refl s
  | cons first rest => exact keeps_combineFrom way first rest s

theorem combineFrom_value {way : Combination} {first : Cell} {rest : List Cell}
    (h : (combineFrom way first rest s).2.Enforced v) :
    v (combineFrom way first rest s).1 =
      (rest.map v).foldl (fun x y => way.apply x y) (v first) := by
  induction rest generalizing first s with
  | nil => rfl
  | cons cell rest ih =>
      have hrow : v (s.place (.combine way first cell) .c).1 = way.apply (v first) (v cell) :=
        (h.of_keeps (keeps_combineFrom way _ rest _)).last
      rw [combineFrom, ih h, List.map_cons, List.foldl_cons, hrow]

theorem combineAll_value {way : Combination} {cells : List Cell}
    (h : (combineAll way way.neutral cells s).2.Enforced v)
    (hneutral : v (Sheet.constant way.neutral) = ofBool way.neutral) :
    v (combineAll way way.neutral cells s).1 =
      (cells.map v).foldl (fun x y => way.apply x y) (ofBool way.neutral) := by
  cases cells with
  | nil => exact hneutral
  | cons first rest =>
      rw [List.map_cons, List.foldl_cons, Combination.apply_neutral]
      exact combineFrom_value h

section Bits

variable {cells : List Cell} {bits : List Bool} (hconstant : HoldsConstants v)
  (hcells : cells.map v = bits.map ofBool)
include hconstant hcells

theorem combineAll_conj (h : (combineAll .conj true cells s).2.Enforced v) :
    v (combineAll .conj true cells s).1 = ofBool (bits.all id) := by
  have hvalue := combineAll_value h (hconstant true)
  rwa [hcells, Combination.foldl_conj, Combination.neutral, Bool.true_and] at hvalue

theorem combineAll_disj (h : (combineAll .disj false cells s).2.Enforced v) :
    v (combineAll .disj false cells s).1 = ofBool (bits.any id) := by
  have hvalue := combineAll_value h (hconstant false)
  rwa [hcells, Combination.foldl_disj, Combination.neutral, Bool.false_or] at hvalue

theorem combineAll_sum (h : (combineAll .sum false cells s).2.Enforced v) :
    v (combineAll .sum false cells s).1 = Scalar.ofNat (bits.countP id) := by
  have hvalue := combineAll_value h (hconstant false)
  rw [hcells] at hvalue
  exact hvalue.trans ((Combination.foldl_sum bits 0).trans (by rw [Nat.zero_add]))

end Bits

end Sheet

/-! ### Steps -/

/-- The cells that are there hold the bits. -/
def ShowsBits (v : Assignment) (cells : Array Cell) (bits : Array Bool) : Prop :=
  ∀ (i : Nat) cell, cells[i]? = some cell → v cell = ofBool (bits.getD i false)

/-- The cells of a frame hold its values. -/
structure CellFrame.Shows (v : Assignment) (f : CellFrame) (g : Frame) : Prop where
  input : v f.input = ofByte g.input
  state : ShowsBits v f.state g.state
  next : ShowsBits v f.next g.next
  changed : ∀ cell, f.changed = some cell → v cell = ofBool g.changed
  carry : ∀ cell, f.carry = some cell → v cell = ofBool g.carry

/-- One bit per slot, which the cell in it holds if there is one. -/
structure ShowsSlots (v : Assignment) (slots : Array (Option Cell)) (bits : Array Bool) : Prop where
  size : slots.size = bits.size
  value : ∀ (i : Nat) cell, slots[i]?.join = some cell → v cell = ofBool (bits.getD i false)

namespace ShowsSlots

variable {v : Assignment} {slots : Array (Option Cell)} {bits : Array Bool}

theorem push (h : ShowsSlots v slots bits) {slot : Option Cell} {bit : Bool}
    (hslot : ∀ cell, slot = some cell → v cell = ofBool bit) :
    ShowsSlots v (slots.push slot) (bits.push bit) where
  size := by simp [h.size]
  value i cell hcell := by
    rw [Array.getElem?_push] at hcell
    rw [Array.getD_eq_getD_getElem?, Array.getElem?_push, ← h.size]
    by_cases hi : i = slots.size
    · rw [if_pos hi] at hcell ⊢
      exact hslot cell hcell
    · rw [if_neg hi] at hcell ⊢
      rw [← Array.getD_eq_getD_getElem?]
      exact h.value i cell hcell

theorem set (h : ShowsSlots v slots bits) (i : Nat) {cell : Cell} {bit : Bool}
    (hcell : v cell = ofBool bit) :
    ShowsSlots v (slots.setIfInBounds i (some cell)) (bits.setIfInBounds i bit) where
  size := by simp [h.size]
  value j cell' hcell' := by
    rw [Array.getElem?_setIfInBounds] at hcell'
    rw [Array.getD_eq_getD_getElem?, Array.getElem?_setIfInBounds, ← h.size]
    by_cases hij : i = j
    · by_cases hi : i < slots.size
      · rw [if_pos hij, if_pos hi] at hcell' ⊢
        cases hcell'
        exact hcell
      · rw [if_pos hij, if_neg hi] at hcell'
        cases hcell'
    · rw [if_neg hij] at hcell' ⊢
      rw [← Array.getD_eq_getD_getElem?]
      exact h.value j cell' hcell'

theorem replicate (v : Assignment) (count : Nat) :
    ShowsSlots v (Array.replicate count none) (Array.replicate count false) where
  size := by simp
  value i cell hcell := by
    rw [Array.getElem?_replicate] at hcell
    split at hcell <;> cases hcell

end ShowsSlots

/-- The cells of what has been laid out hold what the run has computed. -/
structure StepCells.Shows (v : Assignment) (r : StepCells) (run : StepRun) : Prop where
  nodes : ShowsSlots v r.nodes run.nodes
  next : ShowsSlots v r.next run.stores.next
  changed : ∀ cell, r.changed = some cell → v cell = ofBool run.stores.changed
  carry : ∀ cell, r.carry = some cell → v cell = ofBool run.stores.carry
  disclosed : ∀ cell, r.disclosed = some cell → v cell = ofByte run.stores.disclosed
  hidden : r.disclosed = none → run.stores.disclosed = 0

namespace StepCells

variable {v : Assignment} {s s' : Sheet} {f : CellFrame} {g : Frame} {r r' : StepCells}
  {run : StepRun} {op : Op}

theorem shows_start (v : Assignment) (count : Nat) :
    (start count).Shows v (StepRun.start count) where
  nodes := .replicate v 0
  next := .replicate v count
  changed := nofun
  carry := nofun
  disclosed := nofun
  hidden _ := rfl

theorem Shows.result (h : r.Shows v run) {placed : Cell × Sheet} {value : Bool}
    (hcell : v placed.1 = ofBool value) : (r.result placed).1.Shows v (run.result value) :=
  { h with nodes := h.nodes.push (by rintro _ ⟨⟩; exact hcell) }

section Operands

variable (hconstant : HoldsConstants v) (hf : f.Shows v g) (hr : r.Shows v run)
include hconstant hf hr

theorem cell?_value {o : Operand} {cell : Cell} (h : f.cell? r.nodes o = some cell) :
    v cell = ofBool (g.read run.nodes o) := by
  cases o with
  | state i => exact hf.state i cell h
  | nextState i => exact hf.next i cell h
  | changed => exact hf.changed cell h
  | carry => exact hf.carry cell h
  | node id => exact hr.nodes.value id cell h
  | const value =>
      cases h
      exact hconstant value

theorem cells?_value {os : List Operand} {cells : List Cell}
    (h : f.cells? r.nodes os = some cells) :
    cells.map v = (os.map (g.read run.nodes)).map ofBool := by
  induction os generalizing cells with
  | nil =>
      cases h
      rfl
  | cons o os ih =>
      obtain ⟨cell, hcell, h⟩ := Option.bind_eq_some_iff.mp h
      obtain ⟨rest, hrest, h⟩ := Option.bind_eq_some_iff.mp h
      cases h
      simp only [List.map_cons]
      rw [cell?_value hconstant hf hr hcell, ih hrest]

end Operands

theorem keeps_exec? (h : r.exec? f s op = some (r', s')) : s.Keeps s' := by
  cases op with
  | equals _ | atLeast _ | atMost _ =>
      cases h
      exact Sheet.keeps_push s _
  | conj _ | disj _ =>
      obtain ⟨cells, -, h⟩ := Option.bind_eq_some_iff.mp h
      cases h
      exact Sheet.keeps_combineAll _ _ cells s
  | neg _ | disclose _ =>
      obtain ⟨cell, -, h⟩ := Option.bind_eq_some_iff.mp h
      cases h
      exact Sheet.keeps_push s _
  | storeState state _ =>
      obtain ⟨cell, -, h⟩ := Option.bind_eq_some_iff.mp h
      split at h
      · cases h
        exact .refl s
      · cases h
  | storeChanged _ | storeCarry _ =>
      obtain ⟨cell, -, h⟩ := Option.bind_eq_some_iff.mp h
      cases h
      exact .refl s

theorem keeps_run? {ops : List Op} (h : run? f ops r s = some (r', s')) : s.Keeps s' := by
  induction ops generalizing r s with
  | nil =>
      cases h
      exact .refl _
  | cons op ops ih =>
      obtain ⟨done, hexec, h⟩ := Option.bind_eq_some_iff.mp h
      exact (keeps_exec? hexec).trans (ih h)

/-- Laying out an operation mirrors running it, as long as no step discloses twice. -/
theorem shows_exec? (hs' : s'.Enforced v) (hconstant : HoldsConstants v) (hf : f.Shows v g)
    (hr : r.Shows v run) (h : r.exec? f s op = some (r', s'))
    (hdisclose : op.isDisclose = true → r.disclosed = none) : r'.Shows v (run.exec g op) := by
  have hcompare : ∀ test bound, (r.compare f s test bound).2.Enforced v →
      (r.compare f s test bound).1.Shows v (run.result (test.holds bound g.input)) :=
    fun test bound hrow => hr.result (hrow.last g.input hf.input)
  cases op with
  | equals code =>
      cases h
      exact hcompare .equal code hs'
  | atLeast bound =>
      cases h
      exact hcompare .atLeast bound hs'
  | atMost bound =>
      cases h
      exact hcompare .atMost bound hs'
  | conj operands =>
      obtain ⟨cells, hcells, h⟩ := Option.bind_eq_some_iff.mp h
      cases h
      have hvalue := Sheet.combineAll_conj hconstant (cells?_value hconstant hf hr hcells) hs'
      rw [List.all_map] at hvalue
      exact hr.result hvalue
  | disj operands =>
      obtain ⟨cells, hcells, h⟩ := Option.bind_eq_some_iff.mp h
      cases h
      have hvalue := Sheet.combineAll_disj hconstant (cells?_value hconstant hf hr hcells) hs'
      rw [List.any_map] at hvalue
      exact hr.result hvalue
  | neg operand =>
      obtain ⟨cell, hcell, h⟩ := Option.bind_eq_some_iff.mp h
      cases h
      apply hr.result
      have hrow : v ⟨.c, s.rows.size⟩ = 1 - v cell := hs'.last
      rw [cell?_value hconstant hf hr hcell, one_sub_ofBool] at hrow
      exact hrow
  | storeState state value =>
      obtain ⟨cell, hcell, h⟩ := Option.bind_eq_some_iff.mp h
      have hvalue := cell?_value hconstant hf hr hcell
      split at h
      · cases h
        exact { hr with
          nodes := hr.nodes.push nofun
          next := hr.next.set state hvalue }
      · cases h
  | storeChanged value =>
      obtain ⟨cell, hcell, h⟩ := Option.bind_eq_some_iff.mp h
      have hvalue := cell?_value hconstant hf hr hcell
      cases h
      exact { hr with
        nodes := hr.nodes.push nofun
        changed := by rintro _ ⟨⟩; exact hvalue }
  | storeCarry value =>
      obtain ⟨cell, hcell, h⟩ := Option.bind_eq_some_iff.mp h
      have hvalue := cell?_value hconstant hf hr hcell
      cases h
      exact { hr with
        nodes := hr.nodes.push nofun
        carry := by rintro _ ⟨⟩; exact hvalue }
  | disclose mask =>
      obtain ⟨cell, hcell, h⟩ := Option.bind_eq_some_iff.mp h
      have hvalue := cell?_value hconstant hf hr hcell
      cases h
      have hrow : v ⟨.c, s.rows.size⟩ = v f.input * v cell := hs'.last
      rw [hf.input, hvalue, ofByte_mul_ofBool, ← hr.hidden (hdisclose rfl)] at hrow
      exact { hr with
        nodes := hr.nodes.push nofun
        disclosed := by rintro _ ⟨⟩; exact hrow
        hidden := nofun }

theorem disclosed_exec? (h : r.exec? f s op = some (r', s')) (hop : op.isDisclose = false) :
    r'.disclosed = r.disclosed := by
  cases op with
  | equals _ | atLeast _ | atMost _ =>
      cases h
      rfl
  | conj _ | disj _ | neg _ | storeChanged _ | storeCarry _ =>
      obtain ⟨cell, -, h⟩ := Option.bind_eq_some_iff.mp h
      cases h
      rfl
  | storeState state _ =>
      obtain ⟨cell, -, h⟩ := Option.bind_eq_some_iff.mp h
      split at h <;> cases h
      rfl
  | disclose _ => cases hop

theorem shows_run?_of_shows {ops : List Op} (hs' : s'.Enforced v)
    (hconstant : HoldsConstants v) (hf : f.Shows v g) (hr : r.Shows v run)
    (h : run? f ops r s = some (r', s'))
    (honce : ops.countP Op.isDisclose = 0 ∨
      r.disclosed = none ∧ ops.countP Op.isDisclose ≤ 1) :
    r'.Shows v (ops.foldl (StepRun.exec g) run) := by
  induction ops generalizing r run s with
  | nil =>
      cases h
      exact hr
  | cons op ops ih =>
      obtain ⟨done, hexec, h⟩ := Option.bind_eq_some_iff.mp h
      have hkeeps := keeps_run? h
      rw [List.countP_cons] at honce
      have hstep := shows_exec? (hs'.of_keeps hkeeps) hconstant hf hr hexec (by
        intro hop
        rw [if_pos hop] at honce
        exact (honce.resolve_left (by omega)).1)
      apply ih hstep h
      by_cases hop : op.isDisclose = true
      · rw [if_pos hop] at honce
        exact .inl (by omega)
      · rw [if_neg hop, Nat.add_zero] at honce
        rwa [disclosed_exec? hexec (by simpa using hop)]

/-- Laying out a step mirrors running it. -/
theorem shows_run? {step : List Op} {count : Nat} (hs' : s'.Enforced v)
    (hconstant : HoldsConstants v) (hf : f.Shows v g)
    (h : run? f step (start count) s = some (r', s')) (honce : step.countP Op.isDisclose ≤ 1) :
    r'.Shows v (runStep step g count) :=
  shows_run?_of_shows hs' hconstant hf (shows_start v count) h (.inr ⟨rfl, honce⟩)

end StepCells

/-! ### Forward pass -/

/-- The cells around a byte hold the values of a row of the trace. -/
structure PlacedByte.Shows (v : Assignment) (byte : PlacedByte) (row : TraceRow) : Prop where
  input : v byte.input = ofByte row.input
  state : ShowsBits v byte.state row.state
  next : ShowsBits v byte.next row.next
  changed : v byte.changed = ofBool row.changed

namespace Program

variable {p : Program} {v : Assignment} {s s' : Sheet}

theorem shows_initialCells (p : Program) (hconstant : HoldsConstants v) :
    ShowsBits v p.initialCells p.initialState := by
  intro i cell hcell
  have hi : i < p.stateCount := by
    simpa [initialCells] using (Array.getElem?_eq_some_iff.mp hcell).1
  obtain rfl : Sheet.constant (i == 0) = cell := by
    simpa [initialCells, hi] using hcell
  have hbit : p.initialState.getD i false = (i == 0) := by
    rw [initialState, Array.getD_eq_getD_getElem?, Array.getElem?_setIfInBounds]
    by_cases hzero : 0 = i
    · subst hzero
      simp [hi]
    · simp [hzero, hi, Ne.symm hzero]
  rw [hconstant, hbit]

theorem shows_currentCells {bytes : List PlacedByte} {rows : List TraceRow}
    (hconstant : HoldsConstants v) (hbytes : List.Forall₂ (PlacedByte.Shows v) bytes rows) :
    ShowsBits v (p.currentCells bytes) (p.currentState rows) := by
  cases hbytes with
  | nil => exact p.shows_initialCells hconstant
  | cons hbyte _ => exact hbyte.next

theorem keeps_placeByte? {bytes bytes' : List PlacedByte}
    (h : p.placeByte? bytes s = some (bytes', s')) : s.Keeps s' := by
  obtain ⟨done, hrun, h⟩ := Option.bind_eq_some_iff.mp h
  obtain ⟨next, -, h⟩ := Option.bind_eq_some_iff.mp h
  obtain ⟨changed, -, h⟩ := Option.bind_eq_some_iff.mp h
  cases h
  exact (Sheet.keeps_push s _).trans (StepCells.keeps_run? hrun)

theorem keeps_start_placeBytes? {n : Nat} {bytes : List PlacedByte}
    (h : p.placeBytes? n = some (bytes, s)) : Sheet.start.Keeps s := by
  induction n generalizing bytes s with
  | zero =>
      cases h
      exact .refl _
  | succ n ih =>
      obtain ⟨before, hbefore, h⟩ := Option.bind_eq_some_iff.mp h
      exact (ih hbefore).trans (keeps_placeByte? h)

theorem shows_placeByte? (hs' : s'.Enforced v) (hconstant : HoldsConstants v)
    (honce : p.step.countP Op.isDisclose = 0) {bytes bytes' : List PlacedByte} {x : List UInt8}
    (hbytes : List.Forall₂ (PlacedByte.Shows v) bytes (p.trace x))
    (h : p.placeByte? bytes s = some (bytes', s')) :
    ∃ b, List.Forall₂ (PlacedByte.Shows v) bytes' (p.trace (x ++ [b])) := by
  obtain ⟨done, hrun, h⟩ := Option.bind_eq_some_iff.mp h
  obtain ⟨next, hnext, h⟩ := Option.bind_eq_some_iff.mp h
  obtain ⟨changed, hchanged, h⟩ := Option.bind_eq_some_iff.mp h
  cases h
  have hinput : v ⟨.b, s.rows.size⟩ ∈ byteTable :=
    (hs'.of_keeps (StepCells.keeps_run? hrun)).last
  obtain ⟨b, hb⟩ := mem_byteTable_iff.mp hinput
  have hstate := shows_currentCells (p := p) hconstant hbytes
  have hshows := StepCells.shows_run? hs' hconstant
    (g := ⟨b, p.currentState (p.trace x), #[], false, false⟩)
    ⟨hb, hstate, by simp [ShowsBits], by simp, by simp⟩ hrun (by omega)
  refine ⟨b, ?_⟩
  rw [trace_concat]
  refine .cons ⟨hb, hstate, ?_, hshows.changed changed hchanged⟩ hbytes
  intro i cell hcell
  apply hshows.next.value i cell
  rw [List.getElem?_toArray] at hcell
  rw [← Array.getElem?_toList, eq_map_of_allCells? hnext, List.getElem?_map, hcell]
  rfl

/-- The forward pass holds the trace of the bytes in its input cells. -/
theorem shows_placeBytes? (honce : p.step.countP Op.isDisclose = 0) {n : Nat}
    {bytes : List PlacedByte} (h : p.placeBytes? n = some (bytes, s)) (hs : s.Enforced v) :
    ∃ x, x.length = n ∧ List.Forall₂ (PlacedByte.Shows v) bytes (p.trace x) := by
  induction n generalizing bytes s with
  | zero =>
      cases h
      exact ⟨[], rfl, .nil⟩
  | succ n ih =>
      have hconstant := hs.constants (keeps_start_placeBytes? h)
      obtain ⟨before, hbefore, h⟩ := Option.bind_eq_some_iff.mp h
      obtain ⟨x, hlength, hbytes⟩ := ih hbefore (hs.of_keeps (keeps_placeByte? h))
      obtain ⟨b, hbytes'⟩ := shows_placeByte? hs hconstant honce hbytes h
      exact ⟨x ++ [b], by simp [hlength], hbytes'⟩

/-! ### Verdict and reveals -/

theorem map_accepting {cells : List Cell} {states : List (Array Cell)} {bits : List (Array Bool)}
    (hstates : List.Forall₂ (ShowsBits v) states bits)
    (h : allCells? (states.map fun state => state[p.acceptState]?) = some cells) :
    cells.map v = (bits.map p.accepting).map ofBool := by
  induction hstates generalizing cells with
  | nil =>
      cases h
      rfl
  | cons hstate _ ih =>
      obtain ⟨cell, hcell, h⟩ := Option.bind_eq_some_iff.mp h
      obtain ⟨rest, hrest, h⟩ := Option.bind_eq_some_iff.mp h
      cases h
      simp only [List.map_cons]
      rw [ih hrest, hstate _ cell hcell]
      rfl

/-- The verdict cell holds the verdict. -/
theorem placeVerdict?_value {placed : Cell × Sheet} (hs' : placed.2.Enforced v)
    (hconstant : HoldsConstants v) {states : List (Array Cell)} {bits : List (Array Bool)}
    (hstates : List.Forall₂ (ShowsBits v) states bits)
    (h : p.placeVerdict? states s = some placed) :
    v placed.1 = Scalar.ofNat (p.verdict bits).value := by
  obtain ⟨cells, hcells, h⟩ := Option.bind_eq_some_iff.mp h
  have hmap := map_accepting hstates hcells
  cases hacceptance : p.acceptance with
  | count =>
      simp only [hacceptance] at h
      obtain rfl := Option.some.inj h
      rw [Sheet.combineAll_sum hconstant hmap hs', List.countP_map, verdict, hacceptance]
      rfl
  | any =>
      simp only [hacceptance] at h
      obtain rfl := Option.some.inj h
      rw [Sheet.combineAll_disj hconstant hmap hs', List.any_map, verdict, hacceptance]
      rfl
  | all =>
      simp only [hacceptance] at h
      obtain rfl := Option.some.inj h
      have hdrop : (cells.drop 1).map v = ((bits.drop 1).map p.accepting).map ofBool := by
        rw [List.map_drop, hmap, ← List.map_drop, ← List.map_drop]
      rw [Sheet.combineAll_conj hconstant hdrop hs', List.all_map, verdict, hacceptance]
      rfl

theorem keeps_placeVerdict? {placed : Cell × Sheet} {states : List (Array Cell)}
    (h : p.placeVerdict? states s = some placed) : s.Keeps placed.2 := by
  obtain ⟨cells, -, h⟩ := Option.bind_eq_some_iff.mp h
  split at h <;> obtain rfl := Option.some.inj h
  all_goals exact Sheet.keeps_combineAll _ _ _ s

theorem keeps_placeReveal? {count : Nat} {step : List Op} {bytes : List PlacedByte} {carry : Cell}
    {disclosed cells : List Cell}
    (h : placeReveal? count step bytes carry disclosed s = some (cells, s')) : s.Keeps s' := by
  induction bytes generalizing carry disclosed s with
  | nil =>
      cases h
      exact .refl _
  | cons byte bytes ih =>
      obtain ⟨done, hrun, h⟩ := Option.bind_eq_some_iff.mp h
      obtain ⟨carried, -, h⟩ := Option.bind_eq_some_iff.mp h
      obtain ⟨cell, -, h⟩ := Option.bind_eq_some_iff.mp h
      exact (StepCells.keeps_run? hrun).trans (ih h)

/-- The cells of a reveal hold the bytes that it discloses. -/
theorem placeReveal?_value {count : Nat} {step : List Op} (hs' : s'.Enforced v)
    (hconstant : HoldsConstants v) (honce : step.countP Op.isDisclose ≤ 1)
    {bytes : List PlacedByte} {rows : List TraceRow}
    (hbytes : List.Forall₂ (PlacedByte.Shows v) bytes rows) {carry : Cell}
    {disclosed cells : List Cell} {done : Bool × List UInt8} (hcarry : v carry = ofBool done.1)
    (hdisclosed : disclosed.map v = done.2.map ofByte)
    (h : placeReveal? count step bytes carry disclosed s = some (cells, s')) :
    cells.map v = (rows.foldl (revealByte count step) done).2.map ofByte := by
  induction hbytes generalizing carry disclosed done s with
  | nil =>
      cases h
      exact hdisclosed
  | @cons byte row _ _ hbyte _ ih =>
      obtain ⟨placed, hrun, h⟩ := Option.bind_eq_some_iff.mp h
      obtain ⟨carried, hcarried, h⟩ := Option.bind_eq_some_iff.mp h
      obtain ⟨cell, hcell, h⟩ := Option.bind_eq_some_iff.mp h
      have hshows := StepCells.shows_run? (hs'.of_keeps (keeps_placeReveal? h)) hconstant
        (g := ⟨row.input, row.state, row.next, row.changed, done.1⟩)
        ⟨hbyte.input, hbyte.state, hbyte.next, by rintro _ ⟨⟩; exact hbyte.changed,
          by rintro _ ⟨⟩; exact hcarry⟩ hrun honce
      refine ih (hshows.carry carried hcarried) ?_ h
      rw [List.map_cons, hshows.disclosed cell hcell, hdisclosed]
      rfl

theorem keeps_placeReveals? {count : Nat} {bytes : List PlacedByte} {reveals : List Reveal}
    {cells : List Cell} (h : placeReveals? count bytes reveals s = some (cells, s')) :
    s.Keeps s' := by
  induction reveals generalizing cells s with
  | nil =>
      cases h
      exact .refl _
  | cons r reveals ih =>
      obtain ⟨first, hfirst, h⟩ := Option.bind_eq_some_iff.mp h
      obtain ⟨others, hothers, h⟩ := Option.bind_eq_some_iff.mp h
      cases h
      exact (keeps_placeReveal? hfirst).trans (ih hothers)

theorem placeReveals?_value {count : Nat} {reveals : List Reveal} (hs' : s'.Enforced v)
    (hconstant : HoldsConstants v) (hreveals : ∀ r ∈ reveals, r.Valid count)
    {bytes : List PlacedByte} {rows : List TraceRow}
    (hbytes : List.Forall₂ (PlacedByte.Shows v) bytes rows) {cells : List Cell}
    (h : placeReveals? count bytes reveals s = some (cells, s')) :
    cells.map v = (reveals.flatMap fun r => revealBytes count r.step rows).map ofByte := by
  induction reveals generalizing cells s with
  | nil =>
      cases h
      rfl
  | cons r reveals ih =>
      obtain ⟨first, hfirst, h⟩ := Option.bind_eq_some_iff.mp h
      obtain ⟨others, hothers, h⟩ := Option.bind_eq_some_iff.mp h
      cases h
      have honce := (hreveals r (by simp)).disclose
      have hcarry : v (Sheet.constant true) = ofBool ((true, []) : Bool × List UInt8).1 :=
        hconstant true
      have hvalue := placeReveal?_value (hs'.of_keeps (keeps_placeReveals? hothers)) hconstant
        (by omega) hbytes hcarry rfl hfirst
      rw [List.map_append, hvalue, ih (fun r' hr' => hreveals r' (by simp [hr'])) hothers,
        List.flatMap_cons, List.map_append]
      rfl

/-! ### Layouts -/

theorem map_publicOutputs (p : Program) (x : List UInt8) :
    (p.run x).publicOutputs.map Scalar.ofNat =
      Scalar.ofNat (p.run x).verdict.value ::
        (p.reveals.flatMap fun r => revealBytes p.stateCount r.step (p.trace x)).map ofByte := by
  simp only [Evaluation.publicOutputs, List.map_cons, run, List.flatMap_map, List.map_flatMap,
    List.map_map]
  rfl

/-- The outputs of a layout hold the public values of a run over the bytes in its input cells. -/
theorem Valid.outputs_value (hp : p.Valid) {n : Nat} {l : Layout} (hl : p.layout? n = some l)
    (hv : (⟨l.rows⟩ : Sheet).Enforced v) :
    ∃ x, x.length = n ∧ (inputCells l.rows).map v = x.map ofByte ∧
      l.outputs.map v = (p.run x).publicOutputs.map Scalar.ofNat := by
  obtain ⟨l', bytes, s, hl', hplace, -, -, hinputs, -, -⟩ := hp.exists_layout? n
  obtain rfl : l = l' := Option.some.inj (hl.symm.trans hl')
  obtain ⟨forward, hforward, h⟩ := Option.bind_eq_some_iff.mp hl
  obtain rfl : forward = (bytes, s) := Option.some.inj (hforward.symm.trans hplace)
  obtain ⟨verdict, hverdict, h⟩ := Option.bind_eq_some_iff.mp h
  obtain ⟨reveals, hreveals, h⟩ := Option.bind_eq_some_iff.mp h
  cases h
  have hkeeps₁ := keeps_placeReveals? hreveals
  have hkeeps := (keeps_placeVerdict? hverdict).trans hkeeps₁
  have hconstant := hv.constants ((keeps_start_placeBytes? hplace).trans hkeeps)
  obtain ⟨x, hlength, hbytes⟩ := shows_placeBytes? hp.disclose hplace (hv.of_keeps hkeeps)
  refine ⟨x, hlength, ?_, ?_⟩
  · have hinput : (bytes.map PlacedByte.input).map v = x.reverse.map ofByte := by
      rw [← p.input_trace, ← List.forall₂_eq_eq_eq]
      simpa using hbytes.imp fun _ _ hbyte => hbyte.input
    rw [hinputs, List.map_reverse, hinput, List.map_reverse, List.reverse_reverse]
  · have hstates : List.Forall₂ (ShowsBits v)
        (p.initialCells :: (bytes.map PlacedByte.next).reverse) (p.run x).states := by
      refine .cons (p.shows_initialCells hconstant) (List.forall₂_reverse_iff.mpr ?_)
      simpa using hbytes.imp fun _ _ hbyte => hbyte.next
    rw [map_publicOutputs, Layout.outputs, List.map_cons,
      placeVerdict?_value (hv.of_keeps hkeeps₁) hconstant hstates hverdict,
      placeReveals?_value hv hconstant hp.reveals hbytes hreveals]
    rfl

end Program

end PatternCircuit
