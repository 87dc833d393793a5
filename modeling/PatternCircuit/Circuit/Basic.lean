import PatternCircuit.Artifact.Basic
import PatternCircuit.Circuit.Sizing
import PatternCircuit.Circuit.Synthesis
import PatternCircuit.Circuit.Witness

/-! # Circuits

A circuit is a program over an input of fixed length. Its public values are the verdict and the
disclosed bytes; the input itself stays private. -/

namespace PatternCircuit

structure Circuit where
  program : Program
  inputLength : Nat
  /-- The private input, if it is known. -/
  input : Option (List UInt8)
deriving DecidableEq

/-- Why a circuit cannot be checked. -/
inductive CheckFault where
  | synthesis
  | tooFewRows (logRows : Nat)
  | publicTooLong
deriving DecidableEq, Repr

namespace Circuit

def ofProgram (p : Program) (inputLength : Nat) : Circuit := ⟨p, inputLength, none⟩

/-- The circuit of an artifact whose program is well formed. -/
def ofArtifact (a : Artifact) (inputLength : Nat) : Except ProgramFault Circuit :=
  match a.program.validate with
  | .error fault => .error fault
  | .ok () => .ok (ofProgram a.program inputLength)

/-- Sets the private input. -/
def withInput (c : Circuit) (input : List UInt8) : Except CircuitFault Circuit :=
  if input.length ≠ c.inputLength then .error (.inputLength c.inputLength input.length)
  else .ok { c with input := some input }

def withoutInput (c : Circuit) : Circuit := ofProgram c.program c.inputLength

/-- The number of public values: the verdict and all reveals. -/
def publicCount (c : Circuit) : Nat := 1 + c.program.reveals.length * c.inputLength

/-- The public values that running the program gives. -/
def publicValues (c : Circuit) : Except Error (List Scalar) :=
  match c.input with
  | none => .error (.circuit .noInput)
  | some input =>
      match c.program.evaluate input with
      | .error fault => .error (.program fault)
      | .ok e => .ok (e.publicOutputs.map Scalar.ofNat)

/-- The input byte at a position, if the input is known. -/
def byteAt (c : Circuit) (position : Nat) : Option UInt8 :=
  c.input.bind fun input => input[position]?

/-- The layout of a circuit whose program is well formed. -/
def layout? (c : Circuit) : Option Layout :=
  match c.program.validate with
  | .error _ => none
  | .ok () => c.program.layout? c.inputLength

/-! ### Checking -/

/-- No circuit has fewer rows. -/
def minRows : Nat := 8

/-- Rows that no value can be put in. -/
def reservedRows : Nat := 6

/-- Checks the witness against public values, where those that are not given are zero, in a circuit
of `2 ^ logRows` rows. This stands for a run of halo2's mock prover, which lies outside: that it has
these limits on the rows and tests exactly the constraints of the layout is assumed. -/
def check (c : Circuit) (logRows : Nat) (publicValues : List Scalar) : Except CheckFault Bool :=
  if Nat.pow 2 logRows < minRows then .error (.tooFewRows logRows)
  else
    let usable := Nat.pow 2 logRows - reservedRows
    if usable < publicValues.length then .error .publicTooLong
    else
      match c.layout? with
      | none => .error .synthesis
      | some l =>
          if usable < byteTableSize then .error (.tooFewRows logRows)
          else
            let w := l.witness c.byteAt
            if !w.isKnown then .error .synthesis
            else if usable < l.rows.size then .error (.tooFewRows logRows)
            else .ok (l.satisfied w.assignment fun i => publicValues.getD i 0)

end Circuit

end PatternCircuit
