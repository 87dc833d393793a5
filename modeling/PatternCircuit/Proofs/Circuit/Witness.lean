import PatternCircuit.Proofs.Circuit.Gate
import PatternCircuit.Proofs.Circuit.Sheet

/-! # The witness satisfies its rows

Filling a sheet row by row from known input bytes leaves no cell unknown and passes every gate,
range check, copy and constant. -/

namespace PatternCircuit

open Scalar

/-- The rows filled one after the other. -/
def fillRows (input : Nat → Option UInt8) (rows : Array Row) : Witness :=
  rows.foldl (fun w row => ⟨w.rows.push (row.fill input w)⟩) ⟨#[]⟩

theorem fillRows_push (input : Nat → Option UInt8) (rows : Array Row) (row : Row) :
    fillRows input (rows.push row) =
      ⟨(fillRows input rows).rows.push (row.fill input (fillRows input rows))⟩ := by
  simp [fillRows]

theorem Row.fill_congr (input : Nat → Option UInt8) {w w' : Witness} {index : Nat} {row : Row}
    (h : ∀ copy ∈ row.copies index, w.slot copy.2 = w'.slot copy.2) :
    row.fill input w = row.fill input w' := by
  cases row with
  | constant _ | input _ => rfl
  | compare test bound position source =>
      simp only [copies, List.forall_mem_cons] at h
      rw [fill, fill, h.1]
  | combine way left right =>
      simp only [copies, List.forall_mem_cons] at h
      rw [fill, fill, h.1, h.2.1]
  | negate source =>
      simp only [copies, List.forall_mem_cons] at h
      rw [fill, fill, h.1]

namespace Sheet

theorem copy_lt_of_linked {s : Sheet} {i : Nat} {row : Row} (h : row.Linked s i) :
    ∀ copy ∈ row.copies i, copy.2.row < i := by
  cases row with
  | constant _ | input _ => nofun
  | compare test bound position source => simpa [Row.copies] using h.2
  | combine way left right => simpa [Row.copies] using ⟨h.1.2, h.2.2⟩
  | negate source => simpa [Row.copies] using h.2

theorem size_fillRows {s : Sheet} (h : s.WellPlaced) (input : Nat → Option UInt8) :
    (fillRows input s.rows).rows.size = s.rows.size := by
  induction h with
  | start => rfl
  | push _ _ ih => rw [fillRows_push, Array.size_push, Array.size_push, ih]

/-- Every row of the witness is what the finished witness gives for it, since a row copies nothing
that comes after it. -/
theorem fillRows_row {s : Sheet} (h : s.WellPlaced) (input : Nat → Option UInt8) {i : Nat}
    {row : Row} (hi : s.rows[i]? = some row) :
    (fillRows input s.rows).rows[i]? = some (row.fill input (fillRows input s.rows)) := by
  induction h generalizing i row with
  | start =>
      match i with
      | 0 | 1 =>
          cases hi
          rfl
  | @push s last hs hlast ih =>
      have hsize := size_fillRows hs input
      -- The slots below the last row do not change.
      have hslot : ∀ cell : Cell, cell.row < s.rows.size →
          (fillRows input s.rows).slot cell = (fillRows input (s.rows.push last)).slot cell := by
        intro cell hlt
        rw [fillRows_push, Witness.slot, Witness.slot, Array.getElem?_push, if_neg (by omega)]
      rw [Array.getElem?_push] at hi
      by_cases hlt : i = s.rows.size
      · rw [if_pos hlt] at hi
        cases hi
        have hfill := Row.fill_congr input fun copy hcopy =>
          hslot copy.2 (copy_lt_of_linked (linked_of_placed hlast) copy hcopy)
        rw [← hfill, fillRows_push, Array.getElem?_push, hsize, if_pos hlt]
      · rw [if_neg hlt] at hi
        have hbound := (Array.getElem?_eq_some_iff.mp hi).1
        have hfill := Row.fill_congr input fun copy hcopy =>
          hslot copy.2 (Nat.lt_trans (copy_lt_of_linked (hs.linked hi) copy hcopy) hbound)
        rw [← hfill, ← ih hi, fillRows_push, Array.getElem?_push, if_neg (by omega)]

variable {s : Sheet} {input : Nat → Option UInt8}

theorem slot_fillRows (h : s.WellPlaced) {i : Nat} {row : Row} (hi : s.rows[i]? = some row)
    (column : Column) :
    (fillRows input s.rows).slot ⟨column, i⟩ =
      (row.fill input (fillRows input s.rows)).slot column := by
  rw [Witness.slot, fillRows_row h input hi]

section Known

variable (h : s.WellPlaced)
  (hinput : ∀ position < (inputCells s.rows).length, (input position).isSome = true)
include h hinput

theorem slot_input {i position : Nat} (hi : s.rows[i]? = some (.input position)) :
    ∃ byte, input position = some byte ∧
      (fillRows input s.rows).slot ⟨.b, i⟩ = .known (ofByte byte) := by
  obtain ⟨byte, hbyte⟩ := Option.isSome_iff_exists.mp (hinput position (h.linked hi))
  refine ⟨byte, hbyte, ?_⟩
  rw [slot_fillRows h hi, Row.fill, hbyte]
  rfl

/-- The inputs and results of all rows are known. -/
theorem slot_output {i : Nat} {row : Row} (hi : s.rows[i]? = some row) :
    ∃ x, (fillRows input s.rows).slot ⟨row.output, i⟩ = .known x := by
  induction i using Nat.strongRecOn generalizing row with
  | _ i ih =>
      have hlive : ∀ cell : Cell, s.Live cell → cell.row < i →
          ∃ x, (fillRows input s.rows).slot cell = .known x := by
        rintro ⟨column, index⟩ ⟨row', hrow', rfl⟩ hlt
        exact ih index hlt hrow'
      have hlinked := h.linked hi
      cases row with
      | constant value =>
          rw [slot_fillRows h hi]
          exact ⟨_, rfl⟩
      | input position =>
          obtain ⟨byte, -, hslot⟩ := slot_input h hinput hi
          exact ⟨_, hslot⟩
      | compare test bound position source =>
          obtain ⟨byte, hbyte, -⟩ := slot_input h hinput hlinked.1.1
          rw [slot_fillRows h hi, Row.fill, hbyte]
          exact ⟨_, rfl⟩
      | combine way left right =>
          obtain ⟨x, hx⟩ := hlive left hlinked.1.1 hlinked.1.2
          obtain ⟨y, hy⟩ := hlive right hlinked.2.1 hlinked.2.2
          rw [slot_fillRows h hi, Row.fill, hx, hy]
          exact ⟨_, rfl⟩
      | negate source =>
          obtain ⟨x, hx⟩ := hlive source hlinked.1 hlinked.2
          rw [slot_fillRows h hi, Row.fill, hx]
          exact ⟨_, rfl⟩

theorem slot_live {cell : Cell} (hcell : s.Live cell) :
    ∃ x, (fillRows input s.rows).slot cell = .known x := by
  obtain ⟨row, hrow, hcolumn⟩ := hcell
  have hslot := slot_output h hinput hrow
  rwa [hcolumn] at hslot

theorem isKnown_fillRows : (fillRows input s.rows).isKnown = true := by
  rw [Witness.isKnown, Array.all_eq_true]
  intro i hi
  have hbound : i < s.rows.size := by rwa [size_fillRows h input] at hi
  have hrow : s.rows[i]? = some s.rows[i] := Array.getElem?_eq_getElem hbound
  have hfill := fillRows_row h input hrow
  rw [Array.getElem?_eq_getElem hi, Option.some_inj] at hfill
  rw [hfill]
  have hlinked := h.linked hrow
  generalize s.rows[i] = row at hlinked
  cases row with
  | constant value => rfl
  | input position =>
      obtain ⟨byte, hbyte⟩ := Option.isSome_iff_exists.mp (hinput position hlinked)
      simp [Row.fill, hbyte, RowSlots.isKnown, Slot.ofOption]
  | compare test bound position source =>
      obtain ⟨byte, hbyte, -⟩ := slot_input h hinput hlinked.1.1
      obtain ⟨x, hx⟩ := slot_live h hinput ⟨_, hlinked.1.1, hlinked.1.2.symm⟩
      simp [Row.fill, hbyte, hx, RowSlots.isKnown, Slot.ofOption]
  | combine way left right =>
      obtain ⟨x, hx⟩ := slot_live h hinput hlinked.1.1
      obtain ⟨y, hy⟩ := slot_live h hinput hlinked.2.1
      simp [Row.fill, hx, hy, RowSlots.isKnown, Slot.map₂]
  | negate source =>
      obtain ⟨x, hx⟩ := slot_live h hinput hlinked.1
      simp [Row.fill, hx, RowSlots.isKnown, Slot.map]

/-- The witness passes every row. -/
theorem meets_fillRows {i : Nat} {row : Row} (hi : s.rows[i]? = some row) :
    row.Meets (fillRows input s.rows).assignment i := by
  have hlinked := h.linked hi
  have hvalue : ∀ column, (fillRows input s.rows).assignment ⟨column, i⟩ =
      ((row.fill input (fillRows input s.rows)).slot column).value := fun column =>
    congrArg Slot.value (slot_fillRows h hi column)
  have hcell : ∀ {cell : Cell} {x : Scalar}, (fillRows input s.rows).slot cell = .known x →
      (fillRows input s.rows).assignment cell = x := fun hslot => congrArg Slot.value hslot
  cases row with
  | constant value => exact Row.meets_constant (hvalue .c)
  | input position =>
      obtain ⟨byte, -, hslot⟩ := slot_input h hinput hi
      exact Row.meets_input (hcell hslot)
  | compare test bound position source =>
      obtain ⟨column, index⟩ := source
      obtain rfl : column = .b := hlinked.1.2
      obtain ⟨byte, hbyte, hslot⟩ := slot_input h hinput hlinked.1.1
      have hb := hvalue .b
      have hc := hvalue .c
      rw [Row.fill, hbyte] at hb hc
      exact Row.meets_compare (hcell hslot) (hvalue .a) hb hc
  | combine way left right =>
      obtain ⟨x, hx⟩ := slot_live h hinput hlinked.1.1
      obtain ⟨y, hy⟩ := slot_live h hinput hlinked.2.1
      have hc := hvalue .c
      rw [Row.fill, hx, hy] at hc
      apply Row.meets_combine (hvalue .a) (hvalue .b)
      rw [hcell hx, hcell hy]
      exact hc
  | negate source =>
      obtain ⟨x, hx⟩ := slot_live h hinput hlinked.1
      have hc := hvalue .c
      rw [Row.fill, hx] at hc
      apply Row.meets_negate (hvalue .a)
      rw [hcell hx]
      exact hc

end Known

/-- The witness of an input holds it in the input cells. -/
theorem map_inputCells_fillRows (h : s.WellPlaced) {x : List UInt8}
    (hx : x.length = (inputCells s.rows).length) :
    (inputCells s.rows).map (fillRows (fun position => x[position]?) s.rows).assignment =
      x.map ofByte := by
  have hinput : ∀ position < (inputCells s.rows).length, x[position]?.isSome = true := by
    intro position hposition
    rw [List.getElem?_eq_getElem (by omega)]
    rfl
  refine List.ext_getElem? fun k => ?_
  rw [List.getElem?_map, List.getElem?_map]
  cases hk : (inputCells s.rows)[k]? with
  | none =>
      rw [List.getElem?_eq_none_iff, ← hx, ← List.getElem?_eq_none_iff] at hk
      rw [hk]
      rfl
  | some cell =>
      obtain ⟨hrow, hcolumn⟩ := h.row_of_inputCells hk
      obtain ⟨byte, hbyte, hslot⟩ := slot_input h hinput hrow
      rw [← hcolumn] at hslot
      rw [hbyte]
      exact congrArg some (congrArg Slot.value hslot)

end Sheet

end PatternCircuit
