import PatternCircuit.Circuit.Layout

/-! # Sheets made row by row

A row copies nothing but the inputs and results of earlier rows, a comparison copies the input byte
of its own position, and the inputs are numbered in the order of their rows. -/

namespace PatternCircuit

namespace Row

/-- The column of the cell that later rows may copy. -/
def output : Row → Column
  | input _ => .b
  | _ => .c

/-- The cell of an input byte. -/
def inputCell? (index : Nat) : Row → Option Cell
  | input _ => some ⟨.b, index⟩
  | _ => none

end Row

/-- The cells of the input bytes in the order of the rows. -/
def inputCells (rows : Array Row) : List Cell :=
  rows.toList.zipIdx.filterMap fun r => r.1.inputCell? r.2

theorem inputCells_push (rows : Array Row) (row : Row) :
    inputCells (rows.push row) = inputCells rows ++ (row.inputCell? rows.size).toList := by
  rw [inputCells, Array.toList_push, List.zipIdx_append, List.filterMap_append]
  cases hcell : row.inputCell? rows.size <;> simp [inputCells, hcell]

namespace Sheet

/-- The cell is an input or the result of a row. -/
def Live (s : Sheet) (cell : Cell) : Prop :=
  ∃ row, s.rows[cell.row]? = some row ∧ row.output = cell.column

/-- Rows stay where they are. -/
def Keeps (s s' : Sheet) : Prop := ∀ (i : Nat) row, s.rows[i]? = some row → s'.rows[i]? = some row

theorem Keeps.refl (s : Sheet) : s.Keeps s := fun _ _ h => h

theorem Keeps.trans {s s' s'' : Sheet} (h : s.Keeps s') (h' : s'.Keeps s'') : s.Keeps s'' :=
  fun i row hi => h' i row (h i row hi)

theorem keeps_push (s : Sheet) (row : Row) : s.Keeps ⟨s.rows.push row⟩ := by
  intro i row' hi
  have hlt := (Array.getElem?_eq_some_iff.mp hi).1
  rw [Array.getElem?_push, if_neg (by omega), hi]

theorem Live.keep {s s' : Sheet} {cell : Cell} (h : s.Live cell) (hk : s.Keeps s') :
    s'.Live cell := by
  obtain ⟨row, hrow, hcolumn⟩ := h
  exact ⟨row, hk _ _ hrow, hcolumn⟩

end Sheet

/-- What a row copies is there before it. -/
def Row.Placed (s : Sheet) : Row → Prop
  | constant _ => True
  | input position => position = (inputCells s.rows).length
  | compare _ _ position source =>
      s.rows[source.row]? = some (.input position) ∧ source.column = .b
  | combine _ left right => s.Live left ∧ s.Live right
  | negate source => s.Live source

/-- What row number `index` of a finished sheet copies comes before it. -/
def Row.Linked (s : Sheet) (index : Nat) : Row → Prop
  | constant _ => True
  | input position => position < (inputCells s.rows).length
  | compare _ _ position source =>
      (s.rows[source.row]? = some (.input position) ∧ source.column = .b) ∧ source.row < index
  | combine _ left right => (s.Live left ∧ left.row < index) ∧ s.Live right ∧ right.row < index
  | negate source => s.Live source ∧ source.row < index

namespace Sheet

theorem Live.row_lt {s : Sheet} {cell : Cell} (h : s.Live cell) : cell.row < s.rows.size := by
  obtain ⟨row, hrow, -⟩ := h
  exact (Array.getElem?_eq_some_iff.mp hrow).1

/-- A sheet that is made by placing one row after the other. -/
inductive WellPlaced : Sheet → Prop where
  | start : WellPlaced Sheet.start
  | push {s : Sheet} {row : Row} : WellPlaced s → row.Placed s → WellPlaced ⟨s.rows.push row⟩

theorem WellPlaced.keeps_start {s : Sheet} (h : s.WellPlaced) : Sheet.start.Keeps s := by
  induction h with
  | start => exact .refl _
  | push _ _ ih => exact ih.trans (keeps_push _ _)

theorem WellPlaced.live_constant {s : Sheet} (h : s.WellPlaced) (value : Bool) :
    s.Live (constant value) := by
  have hstart : Sheet.start.Live (constant value) := by
    cases value
    · exact ⟨.constant false, rfl, rfl⟩
    · exact ⟨.constant true, rfl, rfl⟩
  exact hstart.keep h.keeps_start

theorem linked_of_placed {s : Sheet} {row : Row} (h : row.Placed s) :
    row.Linked ⟨s.rows.push row⟩ s.rows.size := by
  have hkeep := keeps_push s row
  cases row with
  | constant _ => trivial
  | input position =>
      show position < (inputCells (s.rows.push (.input position))).length
      simp [inputCells_push, Row.inputCell?, show position = _ from h]
  | compare test bound position source =>
      exact ⟨⟨hkeep _ _ h.1, h.2⟩, (Array.getElem?_eq_some_iff.mp h.1).1⟩
  | combine way left right =>
      exact ⟨⟨h.1.keep hkeep, h.1.row_lt⟩, h.2.keep hkeep, h.2.row_lt⟩
  | negate source => exact ⟨Live.keep h hkeep, Live.row_lt h⟩

theorem linked_push {s : Sheet} {i : Nat} {row : Row} (h : row.Linked s i) (last : Row) :
    row.Linked ⟨s.rows.push last⟩ i := by
  have hkeep := keeps_push s last
  cases row with
  | constant _ => trivial
  | input position =>
      apply Nat.lt_of_lt_of_le h
      rw [inputCells_push, List.length_append]
      exact Nat.le_add_right _ _
  | compare test bound position source => exact ⟨⟨hkeep _ _ h.1.1, h.1.2⟩, h.2⟩
  | combine way left right =>
      exact ⟨⟨h.1.1.keep hkeep, h.1.2⟩, h.2.1.keep hkeep, h.2.2⟩
  | negate source => exact ⟨h.1.keep hkeep, h.2⟩

theorem WellPlaced.linked {s : Sheet} (h : s.WellPlaced) {i : Nat} {row : Row}
    (hi : s.rows[i]? = some row) : row.Linked s i := by
  induction h with
  | start =>
      match i with
      | 0 | 1 =>
          cases hi
          trivial
  | @push s last hs hlast ih =>
      rw [Array.getElem?_push] at hi
      by_cases hsize : i = s.rows.size
      · rw [if_pos hsize] at hi
        cases hi
        rw [hsize]
        exact linked_of_placed hlast
      · rw [if_neg hsize] at hi
        exact linked_push (ih hi) last

/-- Input cell number `k` belongs to the byte at position `k`. -/
theorem WellPlaced.row_of_inputCells {s : Sheet} (h : s.WellPlaced) {k : Nat} {cell : Cell}
    (hk : (inputCells s.rows)[k]? = some cell) :
    s.rows[cell.row]? = some (.input k) ∧ cell.column = .b := by
  induction h with
  | start => cases hk
  | @push s last hs hlast ih =>
      rw [inputCells_push, List.getElem?_append] at hk
      by_cases hlt : k < (inputCells s.rows).length
      · rw [if_pos hlt] at hk
        exact ⟨keeps_push s last _ _ (ih hk).1, (ih hk).2⟩
      · rw [if_neg hlt] at hk
        cases last with
        | input position =>
            obtain ⟨hzero, rfl⟩ :
                k - (inputCells s.rows).length = 0 ∧ ⟨.b, s.rows.size⟩ = cell := by
              simpa [Row.inputCell?, List.getElem?_singleton] using hk
            have hposition : position = k := by
              rw [show position = _ from hlast]
              omega
            simp [hposition]
        | _ => simp [Row.inputCell?] at hk

/-- What placing rows other than inputs does. -/
structure Extends (s s' : Sheet) : Prop where
  wellPlaced : s'.WellPlaced
  keeps : s.Keeps s'
  inputs : inputCells s'.rows = inputCells s.rows

theorem WellPlaced.extends_self {s : Sheet} (h : s.WellPlaced) : s.Extends s := ⟨h, .refl s, rfl⟩

theorem Extends.trans {s s' s'' : Sheet} (h : s.Extends s') (h' : s'.Extends s'') :
    s.Extends s'' := ⟨h'.wellPlaced, h.keeps.trans h'.keeps, h'.inputs.trans h.inputs⟩

section Placing

variable {s : Sheet} (h : s.WellPlaced)
include h

theorem extends_place (row : Row) (hrow : row.Placed s) (hcolumn : row.output = .c) :
    s.Extends (s.place row .c).2 ∧ (s.place row .c).2.Live (s.place row .c).1 := by
  refine ⟨⟨h.push hrow, keeps_push s row, ?_⟩, row, by simp [place], hcolumn⟩
  cases row with
  | input position => cases hcolumn
  | _ => simp [place, inputCells_push, Row.inputCell?]

theorem extends_combineFrom (way : Combination) {first : Cell} (hfirst : s.Live first)
    {rest : List Cell} (hrest : ∀ cell ∈ rest, s.Live cell) :
    s.Extends (combineFrom way first rest s).2 ∧
      (combineFrom way first rest s).2.Live (combineFrom way first rest s).1 := by
  induction rest generalizing s first with
  | nil => exact ⟨h.extends_self, hfirst⟩
  | cons cell rest ih =>
      obtain ⟨hplace, hlive⟩ := extends_place h (.combine way first cell)
        ⟨hfirst, hrest cell (by simp)⟩ rfl
      obtain ⟨hnext, hresult⟩ := ih hplace.wellPlaced hlive fun cell' hcell =>
        (hrest cell' (by simp [hcell])).keep hplace.keeps
      exact ⟨hplace.trans hnext, hresult⟩

theorem extends_combineAll (way : Combination) (neutral : Bool) {cells : List Cell}
    (hcells : ∀ cell ∈ cells, s.Live cell) :
    s.Extends (combineAll way neutral cells s).2 ∧
      (combineAll way neutral cells s).2.Live (combineAll way neutral cells s).1 := by
  cases cells with
  | nil => exact ⟨h.extends_self, h.live_constant neutral⟩
  | cons first rest =>
      exact extends_combineFrom h way (hcells first (by simp)) fun cell hcell =>
        hcells cell (by simp [hcell])

end Placing

end Sheet

end PatternCircuit
