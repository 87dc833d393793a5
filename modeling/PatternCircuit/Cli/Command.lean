import PatternCircuit.Artifact.Listing
import PatternCircuit.Circuit.Basic
import PatternCircuit.Cli.Arguments
import PatternCircuit.Cli.Session
import PatternCircuit.Compile.Pipeline
import PatternCircuit.Json.Printer
import PatternCircuit.Json.Reader

/-! # Running commands -/

namespace PatternCircuit.Cli

/-! ### Reports -/

/-- A failure: what was attempted and, below it, why it failed. -/
structure Failure where
  context : String
  causes : List String
deriving DecidableEq, Repr

namespace Failure

/-- Fills a number up with blanks on the left to a width of five. -/
def numberText (n : Nat) : String :=
  String.ofList (List.replicate (5 - (toString n).length) ' ') ++ toString n

/-- A cause behind a margin; its further lines are indented as far as the first. -/
def indent (margin : String) (cause : String) : String :=
  let blanks := String.ofList (List.replicate margin.length ' ')
  margin ++ String.intercalate ("\n" ++ blanks) (cause.splitOn "\n")

/-- Several causes are numbered from zero. -/
def causesText : List String → String
  | [] => ""
  | [cause] => "\n\nCaused by:\n" ++ indent "    " cause
  | causes => "\n\nCaused by:" ++
      String.join (causes.zipIdx.map fun c => "\n" ++ indent (numberText c.2 ++ ": ") c.1)

def text (f : Failure) : String := "Error: " ++ f.context ++ causesText f.causes ++ "\n"

end Failure

namespace Report

def success (output : String) : Report := ⟨output, "", 0⟩

def failure (f : Failure) : Report := ⟨"", f.text, 1⟩

/-- Wrong usage has an exit code of its own; its message is reported as plain text. -/
def usage (fault : UsageFault) : Report := ⟨"", Terminal.plain fault.message, 2⟩

def ofOutcome : Except Failure String → Report
  | .ok output => success output
  | .error f => failure f

end Report

/-- Puts an error under what was attempted. -/
def during {α : Type} (context : String) (x : Except Error α) : Except Failure α :=
  x.mapError fun e => ⟨context, e.chain⟩

/-! ### Texts -/

/-- Zero bytes show as a dot, other invisible ones in hexadecimal. -/
def displayByte (b : UInt8) : String :=
  if b = 0 then "."
  else if Ascii.isPrintable b then String.ofList [Ascii.toChar b]
  else "\\x" ++ Numeral.hexByte b

def displayBytes (bs : List UInt8) : String := String.join (bs.map displayByte)

def textLines (lines : List String) : String := String.join (lines.map (· ++ "\n"))

def helpText : String :=
  textLines ([about, "", "Commands:"] ++ Action.all.map fun a => s!"  {a.name}: {a.summary}")

def summaryLines (a : Artifact) (path : String) : List String :=
  ["✅ Compiled " ++ Quoted.quote a.pattern,
    s!"   States: {a.program.stateCount}",
    s!"   Ops per byte: {a.program.step.length}",
    s!"   Reveals: {a.program.reveals.length}",
    "   Output: " ++ Quoted.quote path]

def verdictLine : Verdict → String
  | .matched true => "✅ Match"
  | .matched false => "❌ No match"
  | .counted times => s!"📊 Matches: {times}"

/-! ### Actions -/

def compilePattern (pattern : String) (options : Options) : Except Failure Artifact :=
  during ("Failed to compile pattern " ++ Quoted.quote pattern) (compile pattern options)

/-- The bytes of the input, padded on request. -/
def inputBytes (input : String) : Option Nat → Except Failure (List UInt8)
  | none => .ok input.toUTF8.toList
  | some length =>
      during "Failed to pad input" ((padInput input.toUTF8.toList length).mapError .input)

def graphText (pattern : String) : Except Failure String := do
  let d ← during ("Failed to build automaton for " ++ Quoted.quote pattern) (minimalDfa pattern)
  pure ((graphToJson d.toGraph).pretty ++ "\n")

def renderText (pattern : String) (options : Options) (annotate : Bool) :
    Except Failure String := do
  let a ← compilePattern pattern options
  during "Failed to render listing" ((a.listing annotate).mapError .program)

def evalText (pattern input : String) (options : Options) (pad : Option Nat) :
    Except Failure String := do
  let a ← compilePattern pattern options
  let bytes ← inputBytes input pad
  let e ← during "Evaluation failed" ((a.program.evaluate bytes).mapError .program)
  pure (textLines
    (["🔍 Pattern: " ++ Quoted.quote pattern ++ s!" ({a.program.acceptance.title})",
      "   Input: " ++ displayBytes bytes, verdictLine e.verdict] ++
      e.reveals.map fun r => "   Reveal " ++ Quoted.quote r.name ++ ": " ++ displayBytes r.bytes))

/-- Lays the circuit of an artifact out over an input and checks it. -/
def checkArtifact (a : Artifact) (bytes : List UInt8) : Except Failure Unit := do
  let c ← during "Failed to render circuit" ((Circuit.ofArtifact a bytes.length).mapError .program)
  let c ← during "Failed to set circuit input" ((c.withInput bytes).mapError .circuit)
  let values ← during "Failed to compute public inputs" c.publicValues
  match c.check (a.program.logRows bytes.length) values with
  | .ok true => .ok ()
  | .ok false => .error ⟨"Constraint check failed", []⟩
  | .error .synthesis => .error ⟨"Mock prover failed to run: Synthesis", []⟩
  | .error (.tooFewRows k) =>
      .error ⟨"Mock prover failed to run: NotEnoughRowsAvailable \x7b current_k: " ++ toString k ++
        " \x7d", []⟩
  | .error .publicTooLong => .error ⟨"Mock prover failed to run: InstanceTooLarge", []⟩

def checkText (pattern input : String) (options : Options) (pad : Option Nat) :
    Except Failure String := do
  let a ← compilePattern pattern options
  let bytes ← inputBytes input pad
  checkArtifact a bytes
  pure (textLines
    [s!"🔑 Laying out circuit with k={a.program.logRows bytes.length} over {bytes.length} bytes...",
      "🔍 Running mock prover...", "✅ Circuit is satisfied"])

/-! ### Sessions -/

/-- Reads options from the text of a file. -/
def readOptions (content : String) : Except Failure Options :=
  match (Json.parse? content).bind Options.ofJson? with
  | some o => .ok o
  | none => .error ⟨"Failed to parse options JSON", []⟩

/-- Goes on with the options, which may have to be read from a file. -/
def withOptions (source : OptionSource) (next : Options → Session) : Session :=
  match source.file with
  | none => next (source.override {})
  | some path =>
      .load path fun
        | .error fault =>
            .finish (.failure
              ⟨"Failed to read options file: " ++ Quoted.quote path, [fault.message]⟩)
        | .ok content =>
            match readOptions content with
            | .ok o => next (source.override o)
            | .error f => .finish (.failure f)

/-- Saves an artifact, or prints it if no file is named. -/
def writeArtifact (a : Artifact) : Option String → Session
  | none => .finish (.success (a.toJson.pretty ++ "\n"))
  | some path =>
      .save path a.toJson.pretty fun
        | .ok () => .finish (.success (textLines (summaryLines a path)))
        | .error fault =>
            .finish (.failure
              ⟨"Failed to write artifact to " ++ Quoted.quote path, [fault.message]⟩)

def Command.session : Command → Session
  | .help => .finish (.success helpText)
  | .compile pattern source output =>
      withOptions source fun o =>
        match compilePattern pattern o with
        | .ok a => writeArtifact a output
        | .error f => .finish (.failure f)
  | .graph pattern => .finish (.ofOutcome (graphText pattern))
  | .render pattern source annotate =>
      withOptions source fun o => .finish (.ofOutcome (renderText pattern o annotate))
  | .eval pattern input source pad =>
      withOptions source fun o => .finish (.ofOutcome (evalText pattern input o pad))
  | .check pattern input source pad =>
      withOptions source fun o => .finish (.ofOutcome (checkText pattern input o pad))

/-- The session that the words of a command line ask for. -/
def session (words : List String) : Session :=
  match Command.parse words with
  | .ok command => command.session
  | .error fault => .finish (.usage fault)

end PatternCircuit.Cli
