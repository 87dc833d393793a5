import PatternCircuit.Circuit.Synthesis
import PatternCircuit.Proofs.Circuit.Sheet
import PatternCircuit.Proofs.Program.Validity

/-! # The layout of a valid program

A valid program can be laid out over inputs of any length: every operand that a step reads has a
cell by then, and so has every value that a later step, the verdict or a reveal needs. -/

namespace PatternCircuit

/-- A cell that may be missing unless it is needed, and is live if it is there. -/
def Sheet.Holds (s : Sheet) (needed : Bool) (slot : Option Cell) : Prop :=
  (needed = true → slot.isSome = true) ∧ ∀ cell, slot = some cell → s.Live cell

namespace Sheet.Holds

variable {s s' : Sheet} {needed : Bool} {slot : Option Cell}

theorem exists_live (h : s.Holds needed slot) (hneeded : needed = true) :
    ∃ cell, slot = some cell ∧ s.Live cell := by
  obtain ⟨cell, hcell⟩ := Option.isSome_iff_exists.mp (h.1 hneeded)
  exact ⟨cell, hcell, h.2 cell hcell⟩

theorem of_live {cell : Cell} (h : s.Live cell) : s.Holds needed (some cell) :=
  ⟨fun _ => rfl, by rintro _ ⟨⟩; exact h⟩

theorem none : s.Holds false none := ⟨nofun, nofun⟩

theorem keep (h : s.Holds needed slot) (hk : s.Keeps s') : s'.Holds needed slot :=
  ⟨h.1, fun cell hcell => (h.2 cell hcell).keep hk⟩

/-- A slot after one more operation: the operation fills it or leaves it alone. -/
theorem update {slot' : Option Cell} {fills : Bool} (h : s.Holds needed slot) (hk : s.Keeps s')
    (hslot : (slot' = slot ∧ fills = false) ∨ s'.Holds true slot') :
    s'.Holds (needed || fills) slot' := by
  rcases hslot with ⟨rfl, rfl⟩ | hnew
  · rw [Bool.or_false]
    exact h.keep hk
  · exact ⟨fun _ => hnew.1 rfl, hnew.2⟩

end Sheet.Holds

/-! ### Steps -/

/-- The cells that a step may read are there. -/
structure CellFrame.Ready (count : Nat) (kind : StepKind) (s : Sheet) (f : CellFrame) : Prop where
  input : s.rows[f.input.row]? = some (.input f.position)
  column : f.input.column = .b
  state : ∀ i < count, s.Holds true f.state[i]?
  next : ∀ i < count, s.Holds (kind == .reveal) f.next[i]?
  changed : s.Holds (kind == .reveal) f.changed
  carry : s.Holds (kind == .reveal) f.carry

theorem CellFrame.Ready.keep {count : Nat} {kind : StepKind} {s s' : Sheet} {f : CellFrame}
    (h : f.Ready count kind s) (hk : s.Keeps s') : f.Ready count kind s' where
  input := hk _ _ h.input
  column := h.column
  state i hi := (h.state i hi).keep hk
  next i hi := (h.next i hi).keep hk
  changed := h.changed.keep hk
  carry := h.carry.keep hk

/-- The cells of what has been laid out are there. -/
structure StepCells.Ready (count : Nat) (done : List Op) (s : Sheet) (r : StepCells) : Prop where
  size : r.nodes.size = done.length
  next_size : r.next.size = count
  nodes : ∀ (id : Nat) op, done[id]? = some op → s.Holds op.isValue r.nodes[id]?.join
  next : ∀ i, s.Holds (done.any fun op => op.storedState? == some i) r.next[i]?.join
  changed : s.Holds (done.any Op.isStoreChanged) r.changed
  carry : s.Holds (done.any Op.isStoreCarry) r.carry
  disclosed : s.Holds (done.any Op.isDisclose) r.disclosed

namespace StepCells

theorem ready_start (count : Nat) (s : Sheet) : (start count).Ready count [] s where
  size := rfl
  next_size := by simp [start]
  nodes := nofun
  next i := by
    have hslot : (start count).next[i]?.join = none := by
      rw [start, Array.getElem?_replicate]
      split <;> rfl
    rw [hslot]
    exact .none
  changed := .none
  carry := .none
  disclosed := .none

variable {count : Nat} {kind : StepKind} {s s' : Sheet} {f : CellFrame} {r r' : StepCells}
  {done rest : List Op} {op : Op}

/-- One more operation adds a node and fills the slots that it has to. -/
theorem Ready.push (h : r.Ready count done s) (hk : s.Keeps s') (slot : Option Cell)
    (hnodes : r'.nodes = r.nodes.push slot) (hslot : s'.Holds op.isValue slot)
    (hsize : r'.next.size = r.next.size)
    (hnext : ∀ i, (r'.next[i]?.join = r.next[i]?.join ∧ (op.storedState? == some i) = false) ∨
      s'.Holds true r'.next[i]?.join)
    (hchanged : (r'.changed = r.changed ∧ op.isStoreChanged = false) ∨ s'.Holds true r'.changed)
    (hcarry : (r'.carry = r.carry ∧ op.isStoreCarry = false) ∨ s'.Holds true r'.carry)
    (hdisclosed : (r'.disclosed = r.disclosed ∧ op.isDisclose = false) ∨
      s'.Holds true r'.disclosed) :
    r'.Ready count (done ++ [op]) s' where
  size := by simp [hnodes, h.size]
  next_size := hsize.trans h.next_size
  nodes id op' hop := by
    rw [hnodes, Array.getElem?_push, h.size]
    rw [List.getElem?_append] at hop
    by_cases hid : id < done.length
    · rw [if_pos hid] at hop
      rw [if_neg (by omega)]
      exact (h.nodes id op' hop).keep hk
    · rw [if_neg hid, List.getElem?_singleton] at hop
      have heq : id = done.length := by
        by_contra hne
        rw [if_neg (by omega)] at hop
        cases hop
      rw [if_pos (by omega)] at hop
      cases hop
      rw [if_pos heq]
      exact hslot
  next i := by simpa using (h.next i).update hk (hnext i)
  changed := by simpa using h.changed.update hk hchanged
  carry := by simpa using h.carry.update hk hcarry
  disclosed := by simpa using h.disclosed.update hk hdisclosed

/-- An operation with a result adds its cell. -/
theorem Ready.result (h : r.Ready count done s) (hop : op.isValue = true) {placed : Cell × Sheet}
    (hplaced : s.Extends placed.2 ∧ placed.2.Live placed.1) :
    (r.result placed).1.Ready count (done ++ [op]) placed.2 := by
  have hstores : op.storedState? = none ∧ op.isStoreChanged = false ∧ op.isStoreCarry = false ∧
      op.isDisclose = false := by
    cases op <;> simp_all [Op.isValue, Op.storedState?, Op.isStoreChanged, Op.isStoreCarry,
      Op.isDisclose]
  obtain ⟨hstate, hchanged, hcarry, hdisclose⟩ := hstores
  exact h.push hplaced.1.keeps (some placed.1) rfl (.of_live hplaced.2) rfl
    (fun i => .inl ⟨rfl, by simp [hstate]⟩) (.inl ⟨rfl, hchanged⟩) (.inl ⟨rfl, hcarry⟩)
    (.inl ⟨rfl, hdisclose⟩)

/-! ### Operands -/

section Step

variable (hs : s.WellPlaced) (hf : f.Ready count kind s) (hr : r.Ready count done s)
include hs hf hr

theorem holds_cell? {o : Operand}
    (ho : o.readable count kind (done ++ rest) done.length = true) :
    s.Holds true (f.cell? r.nodes o) := by
  cases o with
  | state i => exact hf.state i (by simpa [Operand.readable] using ho)
  | nextState i =>
      simp only [Operand.readable, Bool.and_eq_true, decide_eq_true_eq] at ho
      have hnext := hf.next i ho.2
      rwa [ho.1] at hnext
  | changed =>
      have hchanged := hf.changed
      rwa [show (kind == .reveal) = true from ho] at hchanged
  | carry =>
      have hcarry := hf.carry
      rwa [show (kind == .reveal) = true from ho] at hcarry
  | node target =>
      simp only [Operand.readable, Bool.and_eq_true, decide_eq_true_eq] at ho
      rw [List.getElem?_append_left ho.1] at ho
      cases hop : done[target]? with
      | none => simp [hop] at ho
      | some op =>
          have hvalue : op.isValue = true := by simpa [hop] using ho.2
          have hnode := hr.nodes target op hop
          rwa [hvalue] at hnode
  | const value => exact .of_live (hs.live_constant value)

theorem exists_cell? {o : Operand}
    (ho : o.readable count kind (done ++ rest) done.length = true) :
    ∃ cell, f.cell? r.nodes o = some cell ∧ s.Live cell :=
  (holds_cell? hs hf hr ho).exists_live rfl

theorem exists_cells? (os : List Operand)
    (hos : ∀ o ∈ os, o.readable count kind (done ++ rest) done.length = true) :
    ∃ cells, f.cells? r.nodes os = some cells ∧ ∀ cell ∈ cells, s.Live cell := by
  induction os with
  | nil => exact ⟨[], rfl, nofun⟩
  | cons o os ih =>
      obtain ⟨cell, hcell, hlive⟩ := exists_cell? hs hf hr (hos o (by simp))
      obtain ⟨cells, hcells, hall⟩ := ih fun o' ho' => hos o' (by simp [ho'])
      refine ⟨cell :: cells, by simp [CellFrame.cells?, hcell, hcells], ?_⟩
      simpa using ⟨hlive, hall⟩

/-- An operation that reads what it may can be laid out. -/
theorem exists_exec? (hstored : ∀ i, op.storedState? = some i → i < count)
    (hop : ∀ o ∈ op.operands, o.readable count kind (done ++ rest) done.length = true) :
    ∃ r' s', r.exec? f s op = some (r', s') ∧ s.Extends s' ∧ r'.Ready count (done ++ [op]) s' := by
  have hcompare : ∀ test bound,
      s.Extends (r.compare f s test bound).2 ∧
        (op.isValue = true → (r.compare f s test bound).1.Ready count (done ++ [op])
          (r.compare f s test bound).2) := by
    intro test bound
    have hplaced := Sheet.extends_place hs (.compare test bound f.position f.input)
      ⟨hf.input, hf.column⟩ rfl
    exact ⟨hplaced.1, fun hvalue => hr.result hvalue hplaced⟩
  cases op with
  | equals code => exact ⟨_, _, rfl, (hcompare .equal code).1, (hcompare .equal code).2 rfl⟩
  | atLeast bound => exact ⟨_, _, rfl, (hcompare .atLeast bound).1, (hcompare .atLeast bound).2 rfl⟩
  | atMost bound => exact ⟨_, _, rfl, (hcompare .atMost bound).1, (hcompare .atMost bound).2 rfl⟩
  | conj operands =>
      obtain ⟨cells, hcells, hlive⟩ := exists_cells? hs hf hr operands hop
      have hplaced := Sheet.extends_combineAll hs .conj true hlive
      exact ⟨_, _, by rw [exec?, hcells]; rfl, hplaced.1, hr.result rfl hplaced⟩
  | disj operands =>
      obtain ⟨cells, hcells, hlive⟩ := exists_cells? hs hf hr operands hop
      have hplaced := Sheet.extends_combineAll hs .disj false hlive
      exact ⟨_, _, by rw [exec?, hcells]; rfl, hplaced.1, hr.result rfl hplaced⟩
  | neg operand =>
      obtain ⟨cell, hcell, hlive⟩ := exists_cell? hs hf hr (hop operand (by simp [Op.operands]))
      have hplaced := Sheet.extends_place hs (.negate cell) hlive rfl
      exact ⟨_, _, by rw [exec?, hcell]; rfl, hplaced.1, hr.result rfl hplaced⟩
  | storeState state value =>
      obtain ⟨cell, hcell, hlive⟩ := exists_cell? hs hf hr (hop value (by simp [Op.operands]))
      have hstate : state < r.next.size := by
        rw [hr.next_size]
        exact hstored state rfl
      have hexec : r.exec? f s (.storeState state value) =
          some ({ r.silent with next := r.next.setIfInBounds state (some cell) }, s) := by
        simp [exec?, hcell, hstate]
      refine ⟨_, s, hexec, hs.extends_self, hr.push (.refl s) none rfl .none
        Array.size_setIfInBounds (fun i => ?_) (.inl ⟨rfl, rfl⟩) (.inl ⟨rfl, rfl⟩)
        (.inl ⟨rfl, rfl⟩)⟩
      by_cases hi : state = i
      · subst hi
        refine .inr ?_
        rw [Array.getElem?_setIfInBounds_self_of_lt hstate]
        exact .of_live hlive
      · refine .inl ⟨?_, by simpa [Op.storedState?] using hi⟩
        rw [Array.getElem?_setIfInBounds_ne hi]
  | storeChanged value =>
      obtain ⟨cell, hcell, hlive⟩ := exists_cell? hs hf hr (hop value (by simp [Op.operands]))
      have hexec : r.exec? f s (.storeChanged value) =
          some ({ r.silent with changed := some cell }, s) := by
        rw [exec?, hcell]
        rfl
      exact ⟨_, s, hexec, hs.extends_self, hr.push (.refl s) none rfl .none rfl
        (fun i => .inl ⟨rfl, rfl⟩) (.inr (.of_live hlive)) (.inl ⟨rfl, rfl⟩) (.inl ⟨rfl, rfl⟩)⟩
  | storeCarry value =>
      obtain ⟨cell, hcell, hlive⟩ := exists_cell? hs hf hr (hop value (by simp [Op.operands]))
      have hexec : r.exec? f s (.storeCarry value) =
          some ({ r.silent with carry := some cell }, s) := by
        rw [exec?, hcell]
        rfl
      exact ⟨_, s, hexec, hs.extends_self, hr.push (.refl s) none rfl .none rfl
        (fun i => .inl ⟨rfl, rfl⟩) (.inl ⟨rfl, rfl⟩) (.inr (.of_live hlive)) (.inl ⟨rfl, rfl⟩)⟩
  | disclose mask =>
      obtain ⟨cell, hcell, hlive⟩ := exists_cell? hs hf hr (hop mask (by simp [Op.operands]))
      have hexec : r.exec? f s (.disclose mask) =
          some ({ r.silent with disclosed := some (s.place (.combine .conj f.input cell) .c).1 },
            (s.place (.combine .conj f.input cell) .c).2) := by
        rw [exec?, hcell]
        rfl
      obtain ⟨hext, hresult⟩ := Sheet.extends_place hs (.combine .conj f.input cell)
        ⟨⟨_, hf.input, hf.column.symm⟩, hlive⟩ rfl
      exact ⟨_, _, hexec, hext, hr.push hext.keeps none rfl .none rfl
        (fun i => .inl ⟨rfl, rfl⟩) (.inl ⟨rfl, rfl⟩) (.inl ⟨rfl, rfl⟩) (.inr (.of_live hresult))⟩

end Step

theorem exists_run?_of_ready (hs : s.WellPlaced) (hf : f.Ready count kind s)
    (hr : r.Ready count done s) (hstep : WellFormedStep count kind (done ++ rest)) :
    ∃ r' s', run? f rest r s = some (r', s') ∧ s.Extends s' ∧
      r'.Ready count (done ++ rest) s' := by
  induction rest generalizing done r s with
  | nil => exact ⟨r, s, rfl, hs.extends_self, by rwa [List.append_nil]⟩
  | cons op rest ih =>
      obtain ⟨hstored, hop⟩ := hstep done.length op (by simp)
      obtain ⟨r₁, s₁, hexec, hext, hready⟩ := exists_exec? hs hf hr hstored hop
      obtain ⟨r₂, s₂, hrun, hext₂, hready₂⟩ := ih hext.wellPlaced (hf.keep hext.keeps) hready
        (by rwa [List.append_assoc])
      refine ⟨r₂, s₂, by rw [run?, hexec]; exact hrun, hext.trans hext₂, ?_⟩
      rwa [List.append_assoc] at hready₂

/-- A well-formed step can be laid out. -/
theorem exists_run? (f : CellFrame) {step : List Op} (hstep : WellFormedStep count kind step)
    (hs : s.WellPlaced) (hf : f.Ready count kind s) :
    ∃ r s', run? f step (start count) s = some (r, s') ∧ s.Extends s' ∧ r.Ready count step s' :=
  exists_run?_of_ready hs hf (ready_start count s) hstep

end StepCells

/-! ### Forward pass -/

theorem eq_map_of_allCells? {slots : List (Option Cell)} {cells : List Cell}
    (h : allCells? slots = some cells) : slots = cells.map some := by
  induction slots generalizing cells with
  | nil =>
      cases h
      rfl
  | cons slot slots ih =>
      obtain ⟨cell, rfl, h⟩ := Option.bind_eq_some_iff.mp h
      obtain ⟨rest, hrest, h⟩ := Option.bind_eq_some_iff.mp h
      cases h
      rw [List.map_cons, ← ih hrest]

theorem exists_allCells? {s : Sheet} {slots : List (Option Cell)}
    (h : ∀ slot ∈ slots, s.Holds true slot) :
    ∃ cells, allCells? slots = some cells ∧ ∀ cell ∈ cells, s.Live cell := by
  induction slots with
  | nil => exact ⟨[], rfl, nofun⟩
  | cons slot slots ih =>
      obtain ⟨cell, rfl, hlive⟩ := (h slot (by simp)).exists_live rfl
      obtain ⟨cells, hcells, hall⟩ := ih fun slot' hslot => h slot' (by simp [hslot])
      refine ⟨cell :: cells, by simp [allCells?, hcells], ?_⟩
      simpa using ⟨hlive, hall⟩

theorem any_of_countP {step : List Op} {test : Op → Bool} (h : step.countP test = 1) :
    step.any test = true := by
  rw [List.any_eq_true, ← List.countP_pos_iff]
  omega

/-- A step that stores every state has a cell for every next state. -/
theorem StepCells.Ready.exists_next {count : Nat} {step : List Op} {s : Sheet} {r : StepCells}
    (h : r.Ready count step s) (hstates : ∀ i < count, storeCount step i = 1) :
    ∃ next, allCells? r.next.toList = some next ∧
      ∀ i < count, s.Holds true next.toArray[i]? := by
  have hslots : ∀ i < count, s.Holds true r.next[i]?.join := by
    intro i hi
    have hslot := h.next i
    rwa [any_of_countP (hstates i hi)] at hslot
  obtain ⟨next, hnext, -⟩ := exists_allCells? (s := s) fun slot (hslot : slot ∈ r.next.toList) => by
    obtain ⟨i, hi⟩ := List.mem_iff_getElem?.mp hslot
    rw [Array.getElem?_toList] at hi
    have hlt := (Array.getElem?_eq_some_iff.mp hi).1
    rw [h.next_size] at hlt
    have hholds := hslots i hlt
    rwa [hi] at hholds
  refine ⟨next, hnext, fun i hi => ?_⟩
  have hcell : r.next[i]?.join = next[i]? := by
    rw [← Array.getElem?_toList, eq_map_of_allCells? hnext, List.getElem?_map]
    cases next[i]? <;> rfl
  rw [List.getElem?_toArray, ← hcell]
  exact hslots i hi

/-- The cells around a byte are there. -/
structure PlacedByte.Ready (count : Nat) (s : Sheet) (byte : PlacedByte) : Prop where
  input : s.rows[byte.input.row]? = some (.input byte.position)
  column : byte.input.column = .b
  state : ∀ i < count, s.Holds true byte.state[i]?
  next : ∀ i < count, s.Holds true byte.next[i]?
  changed : s.Live byte.changed

theorem PlacedByte.Ready.keep {count : Nat} {s s' : Sheet} {byte : PlacedByte}
    (h : byte.Ready count s) (hk : s.Keeps s') : byte.Ready count s' where
  input := hk _ _ h.input
  column := h.column
  state i hi := (h.state i hi).keep hk
  next i hi := (h.next i hi).keep hk
  changed := h.changed.keep hk

namespace Program

/-- The transition step is laid out for some bytes, the latest one first. -/
structure Forward (p : Program) (bytes : List PlacedByte) (s : Sheet) : Prop where
  wellPlaced : s.WellPlaced
  ready : ∀ byte ∈ bytes, byte.Ready p.stateCount s
  inputs : inputCells s.rows = (bytes.map PlacedByte.input).reverse

theorem holds_initialCells (p : Program) {s : Sheet} (h : s.WellPlaced) :
    ∀ i < p.stateCount, s.Holds true p.initialCells[i]? := by
  intro i hi
  have hcell : p.initialCells[i]? = some (Sheet.constant (i == 0)) := by
    simp [initialCells, hi]
  rw [hcell]
  exact .of_live (h.live_constant _)

theorem Forward.holds_currentCells {p : Program} {bytes : List PlacedByte} {s : Sheet}
    (h : p.Forward bytes s) : ∀ i < p.stateCount, s.Holds true (p.currentCells bytes)[i]? := by
  cases bytes with
  | nil => exact p.holds_initialCells h.wellPlaced
  | cons byte bytes => exact (h.ready byte (by simp)).next

/-- Placing the input byte behind those so far. -/
theorem Forward.place_input {p : Program} {bytes : List PlacedByte} {s : Sheet}
    (h : p.Forward bytes s) {input : Cell × Sheet}
    (hinput : input = s.place (.input bytes.length) .b) :
    input.2.WellPlaced ∧ s.Keeps input.2 ∧
      input.2.rows[input.1.row]? = some (.input bytes.length) ∧ input.1.column = .b ∧
      inputCells input.2.rows = (bytes.map PlacedByte.input).reverse ++ [input.1] := by
  subst hinput
  refine ⟨h.wellPlaced.push ?_, Sheet.keeps_push s _, by simp [Sheet.place], rfl, ?_⟩
  · simp [Row.Placed, h.inputs]
  · simp [Sheet.place, inputCells_push, Row.inputCell?, h.inputs]

theorem Valid.exists_placeByte? {p : Program} (hp : p.Valid) {bytes : List PlacedByte} {s : Sheet}
    (h : p.Forward bytes s) :
    ∃ byte s', p.placeByte? bytes s = some (byte :: bytes, s') ∧ p.Forward (byte :: bytes) s' := by
  obtain ⟨input, hinput⟩ : ∃ input, input = s.place (.input bytes.length) .b := ⟨_, rfl⟩
  obtain ⟨hwell, hkeep, hrow, hcolumn, hinputs⟩ := h.place_input hinput
  have hstate : ∀ i < p.stateCount, input.2.Holds true (p.currentCells bytes)[i]? := fun i hi =>
    (h.holds_currentCells i hi).keep hkeep
  obtain ⟨r, s', hrun, hext, hready⟩ := StepCells.exists_run?
    ⟨bytes.length, input.1, p.currentCells bytes, #[], none, none⟩ hp.wellFormed hwell
    ⟨hrow, hcolumn, hstate, fun i _ => .none, .none, .none⟩
  obtain ⟨next, hnext, hcells⟩ := hready.exists_next hp.states
  obtain ⟨changed, hchanged, hlive⟩ := hready.changed.exists_live (any_of_countP hp.changed)
  refine ⟨⟨bytes.length, input.1, p.currentCells bytes, next.toArray, changed⟩, s', ?_,
    hext.wellPlaced, ?_, ?_⟩
  · simp only [placeByte?, ← hinput, hrun]
    simp [hnext, hchanged]
  · intro byte hbyte
    rcases List.mem_cons.mp hbyte with rfl | hold
    · exact ⟨hext.keeps _ _ hrow, hcolumn, fun i hi => (hstate i hi).keep hext.keeps, hcells, hlive⟩
    · exact (h.ready byte hold).keep (hkeep.trans hext.keeps)
  · rw [hext.inputs, hinputs]
    simp

/-- The transition step of a valid program can be laid out for any number of bytes. -/
theorem Valid.exists_placeBytes? {p : Program} (hp : p.Valid) (n : Nat) :
    ∃ bytes s, p.placeBytes? n = some (bytes, s) ∧ p.Forward bytes s ∧ bytes.length = n := by
  induction n with
  | zero => exact ⟨[], .start, rfl, ⟨.start, nofun, rfl⟩, rfl⟩
  | succ n ih =>
      obtain ⟨bytes, s, hplace, hforward, hlength⟩ := ih
      obtain ⟨byte, s', hbyte, hnext⟩ := hp.exists_placeByte? hforward
      refine ⟨byte :: bytes, s', ?_, hnext, by simp [hlength]⟩
      rw [placeBytes?, hplace]
      exact hbyte

/-! ### Verdict and reveals -/

theorem exists_placeVerdict? (p : Program) {states : List (Array Cell)} {s : Sheet}
    (hs : s.WellPlaced) (hstates : ∀ state ∈ states, s.Holds true state[p.acceptState]?) :
    ∃ verdict s', p.placeVerdict? states s = some (verdict, s') ∧ s.Extends s' ∧
      s'.Live verdict := by
  obtain ⟨cells, hcells, hlive⟩ := exists_allCells? (s := s)
    fun slot (hslot : slot ∈ states.map fun state => state[p.acceptState]?) => by
      obtain ⟨state, hstate, rfl⟩ := List.mem_map.mp hslot
      exact hstates state hstate
  cases hacceptance : p.acceptance with
  | count =>
      exact ⟨_, _, by simp only [placeVerdict?, hcells, hacceptance]; rfl,
        Sheet.extends_combineAll hs .sum false hlive⟩
  | any =>
      exact ⟨_, _, by simp only [placeVerdict?, hcells, hacceptance]; rfl,
        Sheet.extends_combineAll hs .disj false hlive⟩
  | all =>
      exact ⟨_, _, by simp only [placeVerdict?, hcells, hacceptance]; rfl,
        Sheet.extends_combineAll hs .conj true fun cell (hcell : cell ∈ cells.drop 1) =>
          hlive cell (List.mem_of_mem_drop hcell)⟩

theorem exists_placeReveal? {count : Nat} {r : Reveal} (hr : r.Valid count)
    {bytes : List PlacedByte} {carry : Cell} {disclosed : List Cell} {s : Sheet}
    (hs : s.WellPlaced) (hbytes : ∀ byte ∈ bytes, byte.Ready count s) (hcarry : s.Live carry)
    (hdisclosed : ∀ cell ∈ disclosed, s.Live cell) :
    ∃ cells s', placeReveal? count r.step bytes carry disclosed s = some (cells, s') ∧
      s.Extends s' ∧ (∀ cell ∈ cells, s'.Live cell) ∧
      cells.length = bytes.length + disclosed.length := by
  induction bytes generalizing carry disclosed s with
  | nil => exact ⟨disclosed, s, rfl, hs.extends_self, hdisclosed, by simp⟩
  | cons byte bytes ih =>
      have hbyte := hbytes byte (by simp)
      obtain ⟨done, s₁, hrun, hext, hready⟩ := StepCells.exists_run?
        ⟨byte.position, byte.input, byte.state, byte.next, some byte.changed, some carry⟩
        hr.wellFormed hs
        ⟨hbyte.input, hbyte.column, hbyte.state, hbyte.next, .of_live hbyte.changed,
          .of_live hcarry⟩
      obtain ⟨carried, hcarried, hlive⟩ := hready.carry.exists_live (any_of_countP hr.carry)
      obtain ⟨cell, hcell, hcellLive⟩ := hready.disclosed.exists_live (any_of_countP hr.disclose)
      have hall : ∀ cell' ∈ cell :: disclosed, s₁.Live cell' := List.forall_mem_cons.mpr
        ⟨hcellLive, fun cell' hcell' => (hdisclosed cell' hcell').keep hext.keeps⟩
      obtain ⟨cells, s₂, hplace, hext₂, hcells, hlength⟩ := ih hext.wellPlaced
        (fun byte' hbyte' => (hbytes byte' (by simp [hbyte'])).keep hext.keeps) hlive hall
      refine ⟨cells, s₂, ?_, hext.trans hext₂, hcells, ?_⟩
      · simp only [placeReveal?, hrun]
        simpa [hcarried, hcell] using hplace
      · rw [hlength, List.length_cons, List.length_cons]
        omega

theorem exists_placeReveals? {count : Nat} {bytes : List PlacedByte} {reveals : List Reveal}
    (hreveals : ∀ r ∈ reveals, r.Valid count) {s : Sheet} (hs : s.WellPlaced)
    (hbytes : ∀ byte ∈ bytes, byte.Ready count s) :
    ∃ cells s', placeReveals? count bytes reveals s = some (cells, s') ∧ s.Extends s' ∧
      (∀ cell ∈ cells, s'.Live cell) ∧ cells.length = reveals.length * bytes.length := by
  induction reveals generalizing s with
  | nil => exact ⟨[], s, rfl, hs.extends_self, nofun, by simp⟩
  | cons r reveals ih =>
      obtain ⟨first, s₁, hfirst, hext, hlive, hlength⟩ :=
        exists_placeReveal? (hreveals r (by simp)) hs hbytes (hs.live_constant true)
          (List.forall_mem_nil s.Live)
      obtain ⟨others, s₂, hothers, hext₂, hlive₂, hlength₂⟩ :=
        ih (fun r' hr' => hreveals r' (by simp [hr'])) hext.wellPlaced
          fun byte hbyte => (hbytes byte hbyte).keep hext.keeps
      refine ⟨first ++ others, s₂, by simp [placeReveals?, hfirst, hothers], hext.trans hext₂,
        ?_, ?_⟩
      · intro cell hcell
        rcases List.mem_append.mp hcell with hcell | hcell
        · exact (hlive cell hcell).keep hext₂.keeps
        · exact hlive₂ cell hcell
      · rw [List.length_append, hlength, hlength₂, List.length_cons, Nat.succ_mul]
        simp [Nat.add_comm]

/-- A valid program can be laid out over inputs of any length, with one input cell per byte. -/
theorem Valid.exists_layout? {p : Program} (hp : p.Valid) (n : Nat) :
    ∃ l bytes s, p.layout? n = some l ∧ p.placeBytes? n = some (bytes, s) ∧ bytes.length = n ∧
      (⟨l.rows⟩ : Sheet).WellPlaced ∧ inputCells l.rows = (bytes.map PlacedByte.input).reverse ∧
      (∀ cell ∈ l.outputs, (⟨l.rows⟩ : Sheet).Live cell) ∧
      l.outputs.length = 1 + p.reveals.length * n := by
  obtain ⟨bytes, s, hplace, hforward, hlength⟩ := hp.exists_placeBytes? n
  have hstates : ∀ state ∈ p.initialCells :: (bytes.map PlacedByte.next).reverse,
      s.Holds true state[p.acceptState]? := by
    intro state hstate
    simp only [List.mem_cons, List.mem_reverse, List.mem_map] at hstate
    rcases hstate with rfl | ⟨byte, hbyte, rfl⟩
    · exact p.holds_initialCells hforward.wellPlaced _ hp.accept_lt
    · exact (hforward.ready byte hbyte).next _ hp.accept_lt
  obtain ⟨verdict, s₁, hverdict, hext, hlive⟩ := p.exists_placeVerdict? hforward.wellPlaced hstates
  obtain ⟨cells, s₂, hreveals, hext₂, hcells, hcount⟩ := exists_placeReveals? hp.reveals
    hext.wellPlaced fun byte hbyte => (hforward.ready byte hbyte).keep hext.keeps
  refine ⟨⟨s₂.rows, verdict, cells⟩, bytes, s, by simp [layout?, hplace, hverdict, hreveals],
    hplace, hlength, hext₂.wellPlaced, ?_, ?_, ?_⟩
  · rw [hext₂.inputs, hext.inputs, hforward.inputs]
  · simpa [Layout.outputs] using ⟨hlive.keep hext₂.keeps, hcells⟩
  · rw [Layout.outputs, List.length_cons, hcount, hlength, Nat.add_comm]

end Program

end PatternCircuit
