import PatternCircuit.Automaton.Graph
import PatternCircuit.Program.Codec

/-! # Compiled artifacts and compilation options

An artifact is a program with everything needed to inspect it. -/

namespace PatternCircuit

/-- Facts about a compiled program. -/
structure Metadata where
  stateCount : Nat
  acceptState : Nat
  /-- Byte ranges tested with a pair of inequalities. -/
  ranges : List (UInt8 × UInt8)
  /-- Byte codes tested for equality. -/
  equalities : List UInt8
  stepOps : Nat
  /-- Targets of the negated edges that leave the idle state. -/
  anchors : List Nat
  /-- Bytes on which the idle state stays idle. -/
  idle : ByteSet
deriving DecidableEq

structure Artifact where
  pattern : String
  program : Program
  graph : List GraphState
  metadata : Metadata
deriving DecidableEq

/-- A requested disclosure. -/
inductive RevealRequest where
  /-- The bytes matched by a part of the pattern's text. -/
  | substring (pattern : String) (name : Option String)
  /-- The bytes consumed on edges of the minimal automaton. -/
  | edges (name : String) (edges : List (Nat × Nat))
deriving DecidableEq, Repr

/-- The name of the reveal; a part of the pattern's text names itself. -/
def RevealRequest.name : RevealRequest → String
  | substring pattern name => name.getD pattern
  | edges name _ => name

structure Options where
  acceptance : Acceptance := .any
  reveals : List RevealRequest := []
deriving DecidableEq, Repr

/-! ### JSON form -/

namespace Metadata

def rangeToJson (r : UInt8 × UInt8) : Json := .array [.ofByte r.1, .ofByte r.2]

def anchorToJson (target : Nat) : Json := .object [("target", .ofNat target)]

def anchorOfJson? (j : Json) : Option Nat :=
  match j.record? ["target"] with
  | some [some target] => target.word?
  | _ => none

def toJson (m : Metadata) : Json :=
  .object [("state_count", .ofNat m.stateCount), ("accept_state", .ofNat m.acceptState),
    ("ranges", .ofList rangeToJson m.ranges), ("equalities", .ofList .ofByte m.equalities),
    ("step_ops", .ofNat m.stepOps), ("anchors", .ofList anchorToJson m.anchors),
    ("idle_loop", .ofList .ofByte m.idle.toList)]

def ofJson? (j : Json) : Option Metadata :=
  match j.record? ["state_count", "accept_state", "ranges", "equalities", "step_ops", "anchors",
    "idle_loop"] with
  | some [some count, some accept, some ranges, some equalities, some ops, some anchors,
      some idle] => do
      let count ← count.word?
      let accept ← accept.word?
      let ranges ← ranges.list? (Json.pair? Json.byte? Json.byte?)
      let equalities ← equalities.list? Json.byte?
      let ops ← ops.word?
      let anchors ← anchors.list? anchorOfJson?
      let idle ← idle.list? Json.byte?
      pure ⟨count, accept, ranges, equalities, ops, anchors, .ofList idle⟩
  | _ => none

end Metadata

namespace Artifact

def toJson (a : Artifact) : Json :=
  .object [("pattern", .string a.pattern), ("program", a.program.toJson),
    ("graph", graphToJson a.graph), ("metadata", a.metadata.toJson)]

def ofJson? (j : Json) : Option Artifact :=
  match j.record? ["pattern", "program", "graph", "metadata"] with
  | some [some pattern, some program, some graph, some metadata] => do
      let pattern ← pattern.string?
      let program ← Program.ofJson? program
      let graph ← graphOfJson? graph
      let metadata ← Metadata.ofJson? metadata
      pure ⟨pattern, program, graph, metadata⟩
  | _ => none

end Artifact

namespace RevealRequest

def toJson : RevealRequest → Json
  | substring pattern name =>
      .object ([("kind", .string "substring"), ("pattern", .string pattern)] ++
        match name with
        | some n => [("name", .string n)]
        | none => [])
  | edges name es =>
      .object [("kind", .string "edges"), ("name", .string name), ("edges", edgesToJson es)]

def substringOfJson? (j : Json) : Option RevealRequest :=
  match j.record? ["pattern", "name"] with
  | some [some pattern, name] => do
      let pattern ← pattern.string?
      let name ← (name.getD .null).nullable? Json.string?
      pure (substring pattern name)
  | _ => none

def edgesOfJson? (j : Json) : Option RevealRequest :=
  match j.record? ["name", "edges"] with
  | some [some name, some pairs] => do
      let name ← name.string?
      let es ← PatternCircuit.edgesOfJson? pairs
      pure (edges name es)
  | _ => none

/-- A request of the given kind, read from its other fields. -/
def ofKind? (kind content : Json) : Option RevealRequest := do
  let kind ← kind.string?
  if kind = "substring" then substringOfJson? content
  else if kind = "edges" then edgesOfJson? content
  else none

/-- How deep a request may nest: options hold it two levels down and nest at most 127 levels. -/
def maxLevels : Nat := 125

/-- The kind is a field of its own, or the first item of a list. -/
def ofJson? (j : Json) : Option RevealRequest :=
  if j.isSound maxLevels then
    match j with
    | .object fields =>
        match Json.single? "kind" fields with
        | some (some kind) => ofKind? kind (.object fields)
        | _ => none
    | .array (kind :: rest) => ofKind? kind (.array rest)
    | _ => none
  else none

end RevealRequest

namespace Options

def toJson (o : Options) : Json :=
  .object [("acceptance", o.acceptance.toJson), ("reveals", .ofList RevealRequest.toJson o.reveals)]

/-- Missing fields have their default. -/
def ofJson? (j : Json) : Option Options :=
  match j.record? ["acceptance", "reveals"] with
  | some [acceptance, reveals] => do
      let acceptance ← acceptance.elim (some .any) Acceptance.ofJson?
      let reveals ← reveals.elim (some []) (Json.list? RevealRequest.ofJson?)
      pure ⟨acceptance, reveals⟩
  | _ => none

end Options

end PatternCircuit
