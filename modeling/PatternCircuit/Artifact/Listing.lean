import PatternCircuit.Artifact.Basic

/-! # Listings

An artifact as readable text, one operation per line. -/

namespace PatternCircuit.Listing

def operandText : Operand → String
  | .state i => s!"s[t][{i}]"
  | .nextState i => s!"s[t+1][{i}]"
  | .changed => "changed[t]"
  | .carry => "carry[t+1]"
  | .node id => s!"n{id}"
  | .const value => toString value

def operandsText (os : List Operand) : String := String.intercalate ", " (os.map operandText)

/-- What node `id` computes or stores. -/
def body (id : Nat) : Op → String
  | .equals code => s!"n{id} = input == {code.toNat}"
  | .atLeast bound => s!"n{id} = input >= {bound.toNat}"
  | .atMost bound => s!"n{id} = input <= {bound.toNat}"
  | .conj os => s!"n{id} = and({operandsText os})"
  | .disj os => s!"n{id} = or({operandsText os})"
  | .neg o => s!"n{id} = not({operandText o})"
  | .storeState state value => s!"s[t+1][{state}] = {operandText value}"
  | .storeChanged value => s!"changed[t] = {operandText value}"
  | .storeCarry value => s!"carry[t] = {operandText value}"
  | .disclose mask => s!"reveal[t] = input * {operandText mask}"

/-- Fills a text up with blanks on the right. -/
def padRight (width : Nat) (s : String) : String :=
  s ++ String.ofList (List.replicate (width - s.length) ' ')

/-- The column at which annotations start. -/
def annotationColumn : Nat := 40

/-- The line of node `id`; annotated equality tests show their byte if it is visible. -/
def line (annotate : Bool) (id : Nat) (op : Op) : String :=
  match op with
  | .equals code =>
      if annotate && Ascii.isGraphic code then
        padRight annotationColumn (body id op) ++ s!" # '{Ascii.toChar code}'"
      else body id op
  | _ => body id op

def stepLines (annotate : Bool) (step : List Op) : List String :=
  step.zipIdx.map fun n => "  " ++ line annotate n.2 n.1

def acceptText (p : Program) : String :=
  match p.acceptance with
  | .count => s!"count = sum(t in 0..=N) s[t][{p.acceptState}]"
  | .any => s!"match = or(t in 0..=N) s[t][{p.acceptState}]"
  | .all => s!"match = and(t in 1..=N) s[t][{p.acceptState}]"

def rangeText (r : UInt8 × UInt8) : String := s!"{r.1.toNat}..={r.2.toNat}"

def edgeText (e : Nat × Nat) : String := s!"{e.1}->{e.2}"

def revealLines (annotate : Bool) (r : Reveal) : List String :=
  ("reveal " ++ Quoted.quote r.name ++ " [" ++ String.intercalate ", " (r.edges.map edgeText) ++
    "] t from N-1 down to 0:") :: stepLines annotate r.step

def lines (annotate : Bool) (a : Artifact) : List String :=
  ["; pattern: " ++ a.pattern,
    s!"; states: {a.program.stateCount}, accept: {a.program.acceptState}",
    "; ranges: [" ++ String.intercalate ", " (a.metadata.ranges.map rangeText) ++ "]"] ++
  (a.metadata.anchors.map fun target =>
    s!"; anchor: 0 -> {target} (idle on {a.metadata.idle.text})") ++
  ["step t:"] ++ stepLines annotate a.program.step ++
  ["accept: " ++ acceptText a.program] ++
  a.program.reveals.flatMap (revealLines annotate)

end PatternCircuit.Listing

namespace PatternCircuit

/-- The listing of an artifact whose program is well formed. -/
def Artifact.listing (annotate : Bool) (a : Artifact) : Except ProgramFault String :=
  match a.program.validate with
  | .error fault => .error fault
  | .ok () => .ok (String.join ((Listing.lines annotate a).map (· ++ "\n")))

end PatternCircuit
