import PatternCircuit.Circuit.Layout

/-! # Witnesses and satisfaction

The witness fills a layout row by row from the input bytes. A circuit is satisfied by any assignment
of its cells that passes every gate, range check, copy, constant and public value. -/

namespace PatternCircuit

/-- What the witness puts into a cell. -/
inductive Slot where
  /-- Nothing. -/
  | blank
  /-- A value that the input decides, when the input is not known. -/
  | unknown
  | known (value : Scalar)
deriving DecidableEq

namespace Slot

def ofOption : Option Scalar → Slot
  | some value => known value
  | none => unknown

def map (f : Scalar → Scalar) : Slot → Slot
  | known x => known (f x)
  | slot => slot

/-- Known only if both are. -/
def map₂ (f : Scalar → Scalar → Scalar) : Slot → Slot → Slot
  | known x, known y => known (f x y)
  | _, _ => unknown

/-- An empty cell counts as zero. -/
def value : Slot → Scalar
  | known x => x
  | _ => 0

end Slot

structure RowSlots where
  a : Slot
  b : Slot
  c : Slot
deriving DecidableEq

def RowSlots.slot (r : RowSlots) : Column → Slot
  | .a => r.a
  | .b => r.b
  | .c => r.c

def RowSlots.isKnown (r : RowSlots) : Bool := r.a ≠ .unknown && r.b ≠ .unknown && r.c ≠ .unknown

/-- The slots of all rows. -/
structure Witness where
  rows : Array RowSlots
deriving DecidableEq

namespace Witness

def slot (w : Witness) (cell : Cell) : Slot :=
  match w.rows[cell.row]? with
  | some r => r.slot cell.column
  | none => .blank

/-- No cell has an unknown value. -/
def isKnown (w : Witness) : Bool := w.rows.all RowSlots.isKnown

end Witness

/-- What a row computes from the input and the rows before it. -/
def Row.fill (input : Nat → Option UInt8) (w : Witness) : Row → RowSlots
  | constant value => ⟨.blank, .blank, .known (.ofBool value)⟩
  | Row.input position => ⟨.blank, .ofOption ((input position).map .ofByte), .blank⟩
  | compare test bound position source =>
      ⟨w.slot source, .ofOption ((input position).map fun byte => test.aid bound byte),
        .ofOption ((input position).map fun byte => .ofBool (test.holds bound byte))⟩
  | combine way left right =>
      ⟨w.slot left, w.slot right,
        .map₂ (fun x y => way.apply x y) (w.slot left) (w.slot right)⟩
  | negate source => ⟨w.slot source, .blank, (w.slot source).map fun x => 1 - x⟩

/-- The witness of a layout. -/
def Layout.witness (l : Layout) (input : Nat → Option UInt8) : Witness :=
  l.rows.foldl (fun w row => ⟨w.rows.push (row.fill input w)⟩) ⟨#[]⟩

/-! ### Satisfaction -/

/-- A value for every cell. -/
abbrev Assignment := Cell → Scalar

def Witness.assignment (w : Witness) : Assignment := fun cell => (w.slot cell).value

/-- The values of a row under an assignment. -/
def Assignment.rowValues (v : Assignment) (index : Nat) (row : Row) : RowValues :=
  ⟨v ⟨.a, index⟩, v ⟨.b, index⟩, v ⟨.c, index⟩, (row.bound?.map Scalar.ofByte).getD 0⟩

namespace Row

/-- The enabled gate and range check pass, copies agree and constants have their value. -/
def satisfied (v : Assignment) (index : Nat) (row : Row) : Bool :=
  (row.gate?.all fun g => g.holds (v.rowValues index row)) &&
  (!row.isRanged || (v ⟨.b, index⟩).isByte) &&
  ((row.copies index).all fun copy => v copy.1 = v copy.2) &&
  match row with
  | constant value => v ⟨.c, index⟩ = .ofBool value
  | _ => true

end Row

namespace Layout

/-- All rows are satisfied and the outputs have the public values. -/
def satisfied (l : Layout) (v : Assignment) (publicValue : Nat → Scalar) : Bool :=
  (l.rows.toList.zipIdx.all fun r => r.1.satisfied v r.2) &&
  l.outputs.zipIdx.all fun o => v o.1 = publicValue o.2

/-- The constraints of a layout, one by one. -/
structure Satisfies (l : Layout) (v : Assignment) (publicValue : Nat → Scalar) : Prop where
  gates : ∀ (i : Nat) (row : Row) (g : Gate), l.rows[i]? = some row → row.gate? = some g →
    ∀ p ∈ g.polynomials (v.rowValues i row), p = 0
  ranges : ∀ (i : Nat) (row : Row), l.rows[i]? = some row → row.isRanged = true →
    v ⟨.b, i⟩ ∈ byteTable
  copies : ∀ copy ∈ l.copies, v copy.1 = v copy.2
  constants : ∀ (i : Nat) (value : Bool), l.rows[i]? = some (.constant value) →
    v ⟨.c, i⟩ = .ofBool value
  outputs : ∀ (i : Nat) (cell : Cell), l.outputs[i]? = some cell → v cell = publicValue i

end Layout

end PatternCircuit
