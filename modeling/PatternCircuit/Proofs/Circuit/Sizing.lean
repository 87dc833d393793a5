import PatternCircuit.Proofs.Circuit.Correctness

/-! # Circuits have room for their rows

The rows of a layout can be counted without laying it out. The count leaves out nothing and has at
most one row too many, and in a circuit sized by it the byte table, the layout and the public values
all find their rows. -/

namespace PatternCircuit

/-! ### Rows of a step -/

namespace Sheet

theorem size_place (s : Sheet) (row : Row) (column : Column) :
    (s.place row column).2.rows.size = s.rows.size + 1 :=
  Array.size_push row

theorem size_combineFrom (way : Combination) (first : Cell) (rest : List Cell) (s : Sheet) :
    (combineFrom way first rest s).2.rows.size = s.rows.size + rest.length := by
  induction rest generalizing first s with
  | nil => rfl
  | cons cell rest ih =>
      rw [combineFrom, ih, size_place, List.length_cons]
      omega

/-- Combining cells pairwise takes one row less than there are cells, and none for no cell. -/
theorem size_combineAll (way : Combination) (neutral : Bool) (cells : List Cell) (s : Sheet) :
    (combineAll way neutral cells s).2.rows.size = s.rows.size + (cells.length - 1) := by
  cases cells with
  | nil => rfl
  | cons first rest => exact size_combineFrom way first rest s

end Sheet

theorem CellFrame.length_cells? {f : CellFrame} {nodes : Array (Option Cell)} {os : List Operand}
    {cells : List Cell} (h : f.cells? nodes os = some cells) : cells.length = os.length := by
  induction os generalizing cells with
  | nil =>
      cases h
      rfl
  | cons o os ih =>
      obtain ⟨cell, -, h⟩ := Option.bind_eq_some_iff.mp h
      obtain ⟨rest, hrest, h⟩ := Option.bind_eq_some_iff.mp h
      cases h
      rw [List.length_cons, List.length_cons, ih hrest]

namespace StepCells

variable {f : CellFrame} {r r' : StepCells} {s s' : Sheet}

/-- An operation takes the rows that are counted for it. -/
theorem size_exec? {op : Op} (h : r.exec? f s op = some (r', s')) :
    s'.rows.size = s.rows.size + op.rowCount := by
  cases op with
  | equals _ | atLeast _ | atMost _ =>
      cases h
      exact s.size_place _ _
  | conj _ | disj _ =>
      obtain ⟨cells, hcells, h⟩ := Option.bind_eq_some_iff.mp h
      cases h
      rw [Op.rowCount, ← CellFrame.length_cells? hcells]
      exact Sheet.size_combineAll _ _ cells s
  | neg _ | disclose _ =>
      obtain ⟨cell, -, h⟩ := Option.bind_eq_some_iff.mp h
      cases h
      exact s.size_place _ _
  | storeState _ _ =>
      obtain ⟨cell, -, h⟩ := Option.bind_eq_some_iff.mp h
      split at h
      · cases h
        rfl
      · cases h
  | storeChanged _ | storeCarry _ =>
      obtain ⟨cell, -, h⟩ := Option.bind_eq_some_iff.mp h
      cases h
      rfl

theorem size_run? {step : List Op} (h : run? f step r s = some (r', s')) :
    s'.rows.size = s.rows.size + stepRowCount step := by
  induction step generalizing r s with
  | nil =>
      cases h
      rfl
  | cons op step ih =>
      obtain ⟨done, hexec, h⟩ := Option.bind_eq_some_iff.mp h
      rw [ih h, size_exec? hexec, stepRowCount]
      omega

end StepCells

theorem stepRowCount_append (step step' : List Op) :
    stepRowCount (step ++ step') = stepRowCount step + stepRowCount step' := by
  induction step with
  | nil => exact (Nat.zero_add _).symm
  | cons op step ih =>
      rw [List.cons_append, stepRowCount, stepRowCount, ih]
      omega

/-- Every disclosure takes a row. -/
theorem countP_isDisclose_le (step : List Op) :
    step.countP Op.isDisclose ≤ stepRowCount step := by
  induction step with
  | nil => exact Nat.le_refl 0
  | cons op step ih =>
      have hop : (if op.isDisclose then 1 else 0) ≤ op.rowCount := by
        cases op <;> simp [Op.isDisclose, Op.rowCount]
      rw [List.countP_cons, stepRowCount]
      omega

/-! ### Rows of a layout -/

namespace Program

variable {p : Program} {s s' : Sheet}

theorem size_placeByte? {bytes bytes' : List PlacedByte}
    (h : p.placeByte? bytes s = some (bytes', s')) :
    s'.rows.size = s.rows.size + (1 + stepRowCount p.step) ∧ bytes'.length = bytes.length + 1 := by
  obtain ⟨done, hrun, h⟩ := Option.bind_eq_some_iff.mp h
  obtain ⟨next, -, h⟩ := Option.bind_eq_some_iff.mp h
  obtain ⟨changed, -, h⟩ := Option.bind_eq_some_iff.mp h
  cases h
  refine ⟨?_, rfl⟩
  rw [StepCells.size_run? hrun, Sheet.size_place]
  omega

theorem size_placeBytes? {n : Nat} {bytes : List PlacedByte}
    (h : p.placeBytes? n = some (bytes, s)) :
    s.rows.size = 2 + n * (1 + stepRowCount p.step) ∧ bytes.length = n := by
  induction n generalizing bytes s with
  | zero =>
      cases h
      exact ⟨by simp [Sheet.start], rfl⟩
  | succ n ih =>
      obtain ⟨before, hbefore, h⟩ := Option.bind_eq_some_iff.mp h
      obtain ⟨hsize, hlength⟩ := ih hbefore
      obtain ⟨hsize', hlength'⟩ := size_placeByte? h
      rw [Nat.succ_mul]
      omega

/-- The rows that accepting at all positions around `n` bytes takes. Universal acceptance leaves the
first position out. -/
def verdictRowCount (p : Program) (n : Nat) : Nat :=
  match p.acceptance with
  | .count | .any => n
  | .all => n - 1

theorem verdictRowCount_of_count_or_any {n : Nat} (h : p.acceptance = .count ∨ p.acceptance = .any) :
    p.verdictRowCount n = n := by
  rw [verdictRowCount]
  cases h with
  | inl h => rw [h]
  | inr h => rw [h]

theorem verdictRowCount_of_all {n : Nat} (h : p.acceptance = .all) :
    p.verdictRowCount n = n - 1 := by
  rw [verdictRowCount, h]

theorem size_placeVerdict? {states : List (Array Cell)} {verdict : Cell}
    (h : p.placeVerdict? states s = some (verdict, s')) :
    s'.rows.size = s.rows.size + p.verdictRowCount (states.length - 1) := by
  obtain ⟨cells, hcells, h⟩ := Option.bind_eq_some_iff.mp h
  have hlength : cells.length = states.length := by
    have hslots := congrArg List.length (eq_map_of_allCells? hcells)
    simpa using hslots.symm
  rw [verdictRowCount, ← hlength]
  cases hacceptance : p.acceptance with
  | count | any =>
      rw [hacceptance] at h
      obtain rfl : (Sheet.combineAll _ _ cells s).2 = s' := congrArg Prod.snd (Option.some.inj h)
      exact Sheet.size_combineAll _ _ cells s
  | all =>
      rw [hacceptance] at h
      obtain rfl : (Sheet.combineAll _ _ (cells.drop 1) s).2 = s' :=
        congrArg Prod.snd (Option.some.inj h)
      rw [Sheet.size_combineAll, List.length_drop]

theorem size_placeReveal? {count : Nat} {step : List Op} {bytes : List PlacedByte} {carry : Cell}
    {disclosed cells : List Cell}
    (h : placeReveal? count step bytes carry disclosed s = some (cells, s')) :
    s'.rows.size = s.rows.size + bytes.length * stepRowCount step := by
  induction bytes generalizing carry disclosed s with
  | nil =>
      cases h
      simp
  | cons byte bytes ih =>
      obtain ⟨done, hrun, h⟩ := Option.bind_eq_some_iff.mp h
      obtain ⟨carried, -, h⟩ := Option.bind_eq_some_iff.mp h
      obtain ⟨cell, -, h⟩ := Option.bind_eq_some_iff.mp h
      rw [ih h, StepCells.size_run? hrun, List.length_cons, Nat.succ_mul]
      omega

theorem size_placeReveals? {count : Nat} {bytes : List PlacedByte} {reveals : List Reveal}
    {cells : List Cell} (h : placeReveals? count bytes reveals s = some (cells, s')) :
    s'.rows.size = s.rows.size + bytes.length * stepRowCount (reveals.flatMap Reveal.step) := by
  induction reveals generalizing cells s with
  | nil =>
      cases h
      rfl
  | cons r reveals ih =>
      obtain ⟨first, hfirst, h⟩ := Option.bind_eq_some_iff.mp h
      obtain ⟨others, hothers, h⟩ := Option.bind_eq_some_iff.mp h
      cases h
      rw [ih hothers, size_placeReveal? hfirst, List.flatMap_cons, stepRowCount_append,
        Nat.mul_add, Nat.add_assoc]

/-- A layout has the required rows, less what universal acceptance saves. -/
theorem size_layout? {n : Nat} {l : Layout} (h : p.layout? n = some l) :
    l.rows.size + (n - p.verdictRowCount n) = p.requiredRows n := by
  obtain ⟨forward, hforward, h⟩ := Option.bind_eq_some_iff.mp h
  obtain ⟨verdict, hverdict, h⟩ := Option.bind_eq_some_iff.mp h
  obtain ⟨reveals, hreveals, h⟩ := Option.bind_eq_some_iff.mp h
  cases h
  obtain ⟨hsize, hlength⟩ := size_placeBytes? hforward
  have hsaved : p.verdictRowCount n ≤ n := by
    unfold verdictRowCount
    cases p.acceptance <;> simp
  rw [size_placeReveals? hreveals, size_placeVerdict? hverdict, hsize, hlength, requiredRows,
    Nat.mul_add n (1 + stepRowCount p.step)]
  simp only [List.length_cons, List.length_reverse, List.length_map, hlength,
    Nat.add_sub_cancel]
  omega

/-! ### Room for all of them -/

/-- The circuit has the fewest doublings, but at least `minLogRows`, that give room for the required
rows and the slack. -/
theorem logRows_le_iff {n k : Nat} :
    p.logRows n ≤ k ↔ minLogRows ≤ k ∧ p.requiredRows n + slackRows ≤ 2 ^ k := by
  have hne : p.requiredRows n + slackRows - 1 ≠ 0 := by
    rw [slackRows]
    omega
  rw [logRows, Nat.max_le, Nat.add_one_le_iff, Nat.log2_lt hne, slackRows]
  omega

/-- Each reveal of a valid program takes at least the row of its disclosure for every byte. -/
theorem Valid.public_lt_requiredRows (hp : p.Valid) (n : Nat) :
    1 + p.reveals.length * n < p.requiredRows n := by
  have hreveals : ∀ reveals : List Reveal, (∀ r ∈ reveals, r.Valid p.stateCount) →
      reveals.length ≤ stepRowCount (reveals.flatMap Reveal.step) := by
    intro reveals hvalid
    induction reveals with
    | nil => exact Nat.le_refl 0
    | cons r reveals ih =>
        have hfirst := countP_isDisclose_le r.step
        rw [(hvalid r (by simp)).disclose] at hfirst
        have hothers := ih fun r' hr' => hvalid r' (by simp [hr'])
        rw [List.flatMap_cons, stepRowCount_append, List.length_cons]
        omega
  have hbytes := Nat.mul_le_mul_left n (hreveals p.reveals hp.reveals)
  rw [requiredRows, Nat.mul_add n (1 + stepRowCount p.step), Nat.mul_comm p.reveals.length]
  omega

end Program

namespace Circuit

/-- A valid program has a layout over any number of bytes. It takes the required rows, one less if
acceptance is universal and there is a byte. In the circuit sized for the program the byte table, the
layout and the public values fit into the rows that are not reserved, so that checking it fails for
want of an input only. -/
theorem sized_circuit_has_room {p : Program} (hvalid : p.validate = .ok ()) (n : Nat) :
    ∃ l, (ofProgram p n).layout? = some l ∧
      (p.acceptance = .count ∨ p.acceptance = .any → l.rows.size = p.requiredRows n) ∧
      (p.acceptance = .all → l.rows.size = p.requiredRows n - min 1 n) ∧
      byteTableSize ≤ 2 ^ p.logRows n - reservedRows ∧
      l.rows.size ≤ 2 ^ p.logRows n - reservedRows ∧
      1 + p.reveals.length * n ≤ 2 ^ p.logRows n - reservedRows ∧
      ∀ input publicValues, publicValues.length ≤ 1 + p.reveals.length * n →
        (∀ fault, (⟨p, n, input⟩ : Circuit).check (p.logRows n) publicValues = .error fault →
          fault = .synthesis) ∧
        ∀ x, input = some x → x.length = n →
          ∃ passed, (⟨p, n, input⟩ : Circuit).check (p.logRows n) publicValues = .ok passed := by
  have hp := Program.valid_of_validate hvalid
  obtain ⟨l, -, -, hl, -⟩ := hp.exists_layout? n
  have hlayout : ∀ input, (⟨p, n, input⟩ : Circuit).layout? = some l := fun input =>
    (layout?_of_validate hvalid).trans hl
  have hsize := Program.size_layout? hl
  have hcount := hp.public_lt_requiredRows n
  obtain ⟨hmin, hfits⟩ := Program.logRows_le_iff.mp (Nat.le_refl (p.logRows n))
  have hpow : 2 ^ 9 ≤ 2 ^ p.logRows n := Nat.pow_le_pow_right (by decide) hmin
  rw [Program.slackRows] at hfits
  have htable : byteTableSize + reservedRows ≤ 2 ^ p.logRows n := by
    rw [byteTableSize, reservedRows]
    omega
  have hrows : l.rows.size + reservedRows ≤ 2 ^ p.logRows n := by
    rw [reservedRows]
    omega
  have hpublic : 1 + p.reveals.length * n + reservedRows ≤ 2 ^ p.logRows n := by
    rw [reservedRows]
    omega
  refine ⟨l, hlayout none, ?_, ?_, Nat.le_sub_of_add_le htable, Nat.le_sub_of_add_le hrows,
    Nat.le_sub_of_add_le hpublic, ?_⟩
  · intro hacceptance
    rw [← hsize, Program.verdictRowCount_of_count_or_any hacceptance, Nat.sub_self, Nat.add_zero]
  · intro hacceptance
    rw [Program.verdictRowCount_of_all hacceptance] at hsize
    omega
  · intro input publicValues hgiven
    have hcheck := (mockRun_check ⟨p, n, input⟩ (p.logRows n) publicValues).eq_of_rows
      (hlayout input) htable hrows (Nat.le_trans (Nat.add_le_add_right hgiven _) hpublic)
    constructor
    · intro fault hfault
      rw [hcheck] at hfault
      split at hfault
      · cases hfault
      · cases hfault
        rfl
    · intro x hinput hx
      obtain ⟨l', hl', hknown, -⟩ := exists_witness (c := ⟨p, n, input⟩) hvalid hinput hx
      obtain rfl : l = l' := Option.some.inj ((hlayout input).symm.trans hl')
      exact ⟨_, hcheck.trans (if_pos hknown)⟩

/-- Combines no, one and several operands; the transition step takes four rows and the reveal step
three. -/
def foldingProgram : Program where
  stateCount := 2
  acceptState := 1
  acceptance := .all
  step := [.equals 97, .conj [], .disj [.node 0], .disj [.node 2, .state 1, .const false],
    .neg (.node 3), .storeState 1 (.node 3), .storeState 0 (.node 4), .storeChanged (.node 1)]
  reveals := [⟨"folded", [(0, 1)], [.conj [.changed, .carry, .nextState 1], .storeCarry (.node 0),
    .disclose (.node 0)]⟩]

/-- Over a hundred bytes one row of 902 is saved, and a thousand rows have room for the layout. -/
theorem sized_circuit_folding :
    foldingProgram.validate = .ok () ∧ foldingProgram.logRows 100 = 10 ∧
      ∃ l, (ofProgram foldingProgram 100).layout? = some l ∧ l.rows.size = 901 ∧
        l.rows.size ≤ 2 ^ 10 - reservedRows ∧
        ∀ publicValues, publicValues.length ≤ 101 →
          ∃ passed, (⟨foldingProgram, 100, some (List.replicate 100 97)⟩ : Circuit).check 10
            publicValues = .ok passed := by
  have hvalid : foldingProgram.validate = .ok () := by decide
  have hlog : foldingProgram.logRows 100 = 10 := by decide +kernel
  obtain ⟨l, hl, -, hsize, -, hfits, -, hcheck⟩ := sized_circuit_has_room hvalid 100
  rw [hlog] at hfits hcheck
  refine ⟨hvalid, hlog, l, hl, hsize rfl, hfits, ?_⟩
  intro publicValues hlength
  exact (hcheck _ publicValues hlength).2 _ rfl List.length_replicate

end Circuit

end PatternCircuit
