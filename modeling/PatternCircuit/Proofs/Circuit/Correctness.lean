import PatternCircuit.Proofs.Circuit.Prover
import PatternCircuit.Proofs.Circuit.Simulation
import PatternCircuit.Proofs.Circuit.Witness

/-! # Circuits state what running the program gives

Whoever satisfies a circuit knows an input whose run has the public values, and the witness of an
input satisfies the circuit with exactly the public values of its run. -/

namespace PatternCircuit

open Scalar

theorem Scalar.ofByte_injective : Function.Injective ofByte := by
  intro a b h
  have hval : ∀ byte : UInt8, (ofByte byte).val = byte.toNat := fun byte =>
    Nat.mod_eq_of_lt (Nat.lt_trans byte.toNat_lt (by decide +kernel))
  rw [← UInt8.toNat_inj, ← hval, ← hval, h]

namespace Circuit

theorem layout?_of_validate {c : Circuit} (h : c.program.validate = .ok ()) :
    c.layout? = c.program.layout? c.inputLength := by
  rw [layout?, h]

theorem outputs_agree_iff {cells : List Cell} {values : List Nat} {v : Assignment}
    (h : cells.map v = values.map Scalar.ofNat) (publicValue : Nat → Scalar) :
    (∀ (i : Nat) cell, cells[i]? = some cell → v cell = publicValue i) ↔
      ∀ i < values.length, publicValue i = Scalar.ofNat (values.getD i 0) := by
  have hlength : cells.length = values.length := by
    rw [← List.length_map v, h, List.length_map]
  have hcell : ∀ i (hi : i < values.length), ∃ cell, cells[i]? = some cell ∧
      v cell = Scalar.ofNat (values.getD i 0) := by
    intro i hi
    have hvalue := congrArg (fun list => list[i]?) h
    simp only [List.getElem?_map, List.getElem?_eq_getElem hi, Option.map_some] at hvalue
    obtain ⟨cell, hcell, heq⟩ := Option.map_eq_some_iff.mp hvalue
    refine ⟨cell, hcell, ?_⟩
    rw [heq, List.getD_eq_getElem?_getD, List.getElem?_eq_getElem hi]
    rfl
  constructor
  · intro hall i hi
    obtain ⟨cell, hi, heq⟩ := hcell i hi
    rw [← hall i cell hi, heq]
  · intro hall i cell hi
    have hlt : i < values.length := by
      rw [← hlength]
      exact (List.getElem?_eq_some_iff.mp hi).1
    obtain ⟨cell', hcell', heq⟩ := hcell i hlt
    obtain rfl : cell = cell' := Option.some.inj (hi.symm.trans hcell')
    rw [hall i hlt, heq]

/-- Any assignment that satisfies the circuit has bytes in the input cells, and the public values
are those of running the program on them. -/
theorem public_values_of_satisfies (c : Circuit) (hvalid : c.program.validate = .ok ()) :
    ∃ l, c.layout? = some l ∧ (inputCells l.rows).length = c.inputLength ∧
      l.outputs.length = 1 + c.program.reveals.length * c.inputLength ∧
      ∀ v publicValue, l.Satisfies v publicValue →
        ∃ x e, x.length = c.inputLength ∧ (inputCells l.rows).map v = x.map ofByte ∧
          c.program.evaluate x = .ok e ∧
          e.publicOutputs.length = 1 + c.program.reveals.length * c.inputLength ∧
          ∀ i < 1 + c.program.reveals.length * c.inputLength,
            publicValue i = Scalar.ofNat (e.publicOutputs.getD i 0) := by
  have hp := Program.valid_of_validate hvalid
  obtain ⟨l, bytes, -, hl, -, hlength, -, hinputs, -, houtputs⟩ := hp.exists_layout? c.inputLength
  refine ⟨l, (layout?_of_validate hvalid).trans hl, by simp [hinputs, hlength], houtputs, ?_⟩
  intro v publicValue h
  obtain ⟨hrows, hpublic⟩ := Layout.satisfies_iff.mp h
  obtain ⟨x, hx, hinput, hvalues⟩ := hp.outputs_value hl fun i row hi => (hrows i row hi).enforces
  have hcount : (c.program.run x).publicOutputs.length =
      1 + c.program.reveals.length * c.inputLength := by
    rw [← houtputs, ← List.length_map Scalar.ofNat, ← hvalues, List.length_map]
  refine ⟨x, c.program.run x, hx, hinput, Program.evaluate_of_validate hvalid x, hcount, ?_⟩
  rw [← hcount]
  exact (outputs_agree_iff hvalues publicValue).mp hpublic

/-- Accepts after the letter `a`, and discloses those that the input ends with. -/
def letterProgram : Program where
  stateCount := 2
  acceptState := 1
  acceptance := .any
  step := [.equals 97, .neg (.node 0), .storeState 1 (.node 0), .storeState 0 (.node 1),
    .storeChanged (.node 0)]
  reveals := [⟨"letter", [(0, 1)], [.conj [.changed, .carry], .storeCarry (.node 0),
    .disclose (.node 0)]⟩]

/-- An assignment that satisfies the circuit of the letter `a` over two bytes. -/
theorem public_values_letter :
    letterProgram.validate = .ok () ∧
      ∃ l v x e, (ofProgram letterProgram 2).layout? = some l ∧
        l.Satisfies v (fun i => Scalar.ofNat ([1, 0, 97].getD i 0)) ∧
        (inputCells l.rows).map v = x.map ofByte ∧ letterProgram.evaluate x = .ok e ∧
        ∀ i < 3, Scalar.ofNat ([1, 0, 97].getD i 0) = Scalar.ofNat (e.publicOutputs.getD i 0) := by
  have hvalid : letterProgram.validate = .ok () := by decide
  obtain ⟨l, hl, -, -, hsound⟩ := public_values_of_satisfies (ofProgram letterProgram 2) hvalid
  have hwitness : (ofProgram letterProgram 2).layout?.all (fun l =>
      l.satisfied (l.witness fun i => [98, 97][i]?).assignment fun i =>
        Scalar.ofNat ([1, 0, 97].getD i 0)) = true := by
    decide +kernel
  rw [hl, Option.all_some] at hwitness
  have hsatisfies := Layout.satisfied_iff_satisfies.mp hwitness
  obtain ⟨x, e, -, hinput, he, -, hpublic⟩ := hsound _ _ hsatisfies
  exact ⟨hvalid, l, _, x, e, hl, hsatisfies, hinput, he, hpublic⟩

/-- In a circuit with enough rows, checking compares the public values. -/
theorem check_of_rows {c : Circuit} {l : Layout} (hl : c.layout? = some l)
    (hknown : (l.witness c.byteAt).isKnown = true) {logRows : Nat} {publicValues : List Scalar}
    (htable : byteTableSize + reservedRows ≤ 2 ^ logRows)
    (hrows : l.rows.size + reservedRows ≤ 2 ^ logRows)
    (hpublic : publicValues.length + reservedRows ≤ 2 ^ logRows) :
    c.check logRows publicValues =
      .ok (l.satisfied (l.witness c.byteAt).assignment fun i => publicValues.getD i 0) := by
  rw [(mockRun_check c logRows publicValues).eq_of_rows hl htable hrows hpublic, if_pos hknown]

/-- The witness of an input passes every row and has the public values of its run in the outputs. -/
theorem exists_witness {c : Circuit} (hvalid : c.program.validate = .ok ()) {x : List UInt8}
    (hinput : c.input = some x) (hx : x.length = c.inputLength) :
    ∃ l, c.layout? = some l ∧ (l.witness c.byteAt).isKnown = true ∧
      (∀ (i : Nat) row, l.rows[i]? = some row → row.Meets (l.witness c.byteAt).assignment i) ∧
      l.outputs.map (l.witness c.byteAt).assignment =
        (c.program.run x).publicOutputs.map Scalar.ofNat ∧
      l.outputs.length = c.publicCount := by
  have hp := Program.valid_of_validate hvalid
  obtain ⟨l, bytes, -, hl, -, hlength, hwell, hinputs, -, hcount⟩ := hp.exists_layout? c.inputLength
  have hcells : x.length = (inputCells l.rows).length := by simp [hinputs, hlength, hx]
  have hbytes : c.byteAt = fun position => x[position]? := by
    funext position
    rw [byteAt, hinput]
    rfl
  have hknown : ∀ position < (inputCells l.rows).length, x[position]?.isSome = true := by
    intro position hposition
    rw [List.getElem?_eq_getElem (by omega)]
    rfl
  rw [hbytes]
  have hmeets : ∀ (i : Nat) row, l.rows[i]? = some row →
      row.Meets (fillRows (fun position => x[position]?) l.rows).assignment i :=
    fun i row hi => Sheet.meets_fillRows hwell hknown hi
  refine ⟨l, (layout?_of_validate hvalid).trans hl, Sheet.isKnown_fillRows hwell hknown, hmeets,
    ?_, hcount⟩
  obtain ⟨x', -, hx', hvalues⟩ := hp.outputs_value hl fun i row hi => (hmeets i row hi).enforces
  have hsame : x'.map ofByte = x.map ofByte :=
    hx'.symm.trans (Sheet.map_inputCells_fillRows hwell hcells)
  rwa [List.map_injective_iff.mpr ofByte_injective hsame] at hvalues

/-- The witness of an input satisfies the circuit, its outputs are the public values of running the
program, and in a circuit with enough rows it passes with these public values and no others. -/
theorem check_iff_public_values (c : Circuit) (hvalid : c.program.validate = .ok ())
    (x : List UInt8) (hx : x.length = c.inputLength) :
    ∃ d e l, c.withInput x = .ok d ∧ c.program.evaluate x = .ok e ∧ d.layout? = some l ∧
      d.publicValues = .ok (e.publicOutputs.map Scalar.ofNat) ∧
      e.publicOutputs.length = d.publicCount ∧
      d.publicCount = 1 + c.program.reveals.length * c.inputLength ∧
      (l.witness d.byteAt).isKnown = true ∧
      l.Satisfies (l.witness d.byteAt).assignment
        (fun i => Scalar.ofNat (e.publicOutputs.getD i 0)) ∧
      l.outputs.map (l.witness d.byteAt).assignment = e.publicOutputs.map Scalar.ofNat ∧
      ∀ logRows publicValues, byteTableSize + reservedRows ≤ 2 ^ logRows →
        l.rows.size + reservedRows ≤ 2 ^ logRows →
        publicValues.length + reservedRows ≤ 2 ^ logRows →
        d.check logRows publicValues = .ok (decide (∀ i < d.publicCount,
          publicValues.getD i 0 = Scalar.ofNat (e.publicOutputs.getD i 0))) := by
  have hd : c.withInput x = .ok { c with input := some x } := by
    rw [withInput, if_neg (by simpa using hx)]
  have he := Program.evaluate_of_validate hvalid x
  obtain ⟨l, hl, hknown, hmeets, hvalues, hcount⟩ :=
    exists_witness (c := { c with input := some x }) hvalid rfl hx
  have hlength : (c.program.run x).publicOutputs.length = c.publicCount := by
    rw [← List.length_map Scalar.ofNat, ← hvalues, List.length_map, hcount]
    rfl
  refine ⟨_, _, l, hd, he, hl, by simp [publicValues, he], hlength, rfl, hknown, ?_, hvalues, ?_⟩
  · exact Layout.satisfies_iff.mpr ⟨hmeets, (outputs_agree_iff hvalues _).mpr fun _ _ => rfl⟩
  · intro logRows publicValues htable hrows hpublic
    rw [check_of_rows hl hknown htable hrows hpublic, Except.ok.injEq, Bool.eq_iff_iff,
      decide_eq_true_eq, Layout.satisfied_iff_satisfies, Layout.satisfies_iff,
      and_iff_right hmeets, outputs_agree_iff hvalues, hlength]
    rfl

/-- Checking the circuit of the letter `a` over two bytes, once with a public value missing. -/
theorem check_letter :
    letterProgram.validate = .ok () ∧ [98, 97].length = (ofProgram letterProgram 2).inputLength ∧
      ∃ d l, (ofProgram letterProgram 2).withInput [98, 97] = .ok d ∧ d.layout? = some l ∧
        d.check 9 [1, 0, 97] = .ok true ∧ d.check 9 [1, 0] = .ok false := by
  have hvalid : letterProgram.validate = .ok () := by decide
  obtain ⟨d, e, l, hd, he, hl, -, -, -, -, -, -, hcheck⟩ :=
    check_iff_public_values (ofProgram letterProgram 2) hvalid [98, 97] rfl
  obtain rfl : d = ⟨letterProgram, 2, some [98, 97]⟩ := Except.ok.inj (hd.symm.trans rfl)
  obtain rfl : e = letterProgram.run [98, 97] :=
    Except.ok.inj (he.symm.trans (Program.evaluate_of_validate hvalid _))
  have hsize : (Circuit.layout? ⟨letterProgram, 2, some [98, 97]⟩).all (fun l =>
      l.rows.size + reservedRows ≤ 2 ^ 9) = true := by
    decide +kernel
  rw [hl, Option.all_some, decide_eq_true_eq] at hsize
  refine ⟨hvalid, rfl, _, l, hd, hl, ?_, ?_⟩
  · rw [hcheck 9 [1, 0, 97] (by decide) hsize (by decide)]
    decide +kernel
  · rw [hcheck 9 [1, 0] (by decide) hsize (by decide)]
    decide +kernel

end Circuit

end PatternCircuit
