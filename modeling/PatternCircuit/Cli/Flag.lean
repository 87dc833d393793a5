import PatternCircuit.Artifact.Basic
import PatternCircuit.Text.Blank
import PatternCircuit.Text.Terminal

/-! # Flags of the command line -/

namespace PatternCircuit.Cli

inductive Flag where
  | mode
  | reveal
  | revealEdges
  | options
  | output
  | pad
  | annotate
deriving DecidableEq, Repr

namespace Flag

def long : Flag → String
  | mode => "mode"
  | reveal => "reveal"
  | revealEdges => "reveal-edges"
  | options => "options"
  | output => "output"
  | pad => "pad"
  | annotate => "annotate"

def short? : Flag → Option Char
  | mode => some 'm'
  | reveal => some 'r'
  | output => some 'o'
  | _ => none

/-- How messages name the value, for flags that take one. -/
def placeholder? : Flag → Option String
  | mode => some "MODE"
  | reveal => some "REVEAL"
  | revealEdges => some "REVEAL_EDGES"
  | options => some "FILE"
  | output => some "OUTPUT"
  | pad => some "PAD"
  | annotate => none

def isRepeatable : Flag → Bool
  | reveal | revealEdges => true
  | _ => false

/-- How messages name a flag. -/
def text (f : Flag) : String :=
  match f.placeholder? with
  | some name => "--" ++ f.long ++ " <" ++ name ++ ">"
  | none => "--" ++ f.long

end Flag

/-- Why the words of a command line make no command. -/
inductive UsageFault where
  | noCommand
  | unknownCommand (word : String)
  | unexpectedArgument (word : String)
  | missingValue (flag : Flag)
  | repeated (flag : Flag)
  | invalidValue (flag : Flag) (value reason : String)
  | unexpectedValue (flag : String) (value : String)
  | missingArguments (names : List String)
deriving DecidableEq, Repr

/-- What the program is for. -/
def about : String := "Compile regular expressions into zero-knowledge circuits"

/-- An error with a hint at the help. -/
def usageError (reason : String) : String :=
  Terminal.highlight "error:" ++ " " ++ reason ++ "\n\nFor more information, try '" ++
    Terminal.highlight "--help" ++ "'.\n"

/-- The message for a terminal, on which given words and names of flags stand out; without a command
it tells what the program is for. -/
def UsageFault.message : UsageFault → String
  | noCommand => about ++ "\n"
  | unknownCommand word => usageError s!"unrecognized subcommand '{Terminal.highlight word}'"
  | unexpectedArgument word => usageError s!"unexpected argument '{Terminal.highlight word}' found"
  | missingValue flag => usageError
      s!"a value is required for '{Terminal.highlight flag.text}' but none was supplied"
  | repeated flag => usageError
      s!"the argument '{Terminal.highlight flag.text}' cannot be used multiple times"
  | invalidValue flag value reason => usageError
      s!"invalid value '{Terminal.highlight value}' for '{Terminal.highlight flag.text}': {reason}"
  | unexpectedValue flag value => usageError
      (s!"unexpected value '{Terminal.highlight value}' for '{Terminal.highlight flag}' found" ++
        "; no more were expected")
  | missingArguments names => usageError
      ("the following required arguments were not provided:" ++
        String.join (names.map fun name => "\n  " ++ Terminal.highlight s!"<{name}>"))

/-! ### Values -/

/-- A flag with its value. -/
inductive Setting where
  | mode (acceptance : Acceptance)
  | reveal (sub : String)
  | revealEdges (request : RevealRequest)
  | options (path : String)
  | output (path : String)
  | pad (length : Nat)
  | annotate
deriving DecidableEq, Repr

def Setting.flag : Setting → Flag
  | mode _ => .mode
  | reveal _ => .reveal
  | revealEdges _ => .revealEdges
  | options _ => .options
  | output _ => .output
  | pad _ => .pad
  | annotate => .annotate

def readState (cs : List Char) : Except String Nat :=
  match Numeral.readWord (Text.trim cs) with
  | .ok n => .ok n
  | .error _ => .error s!"bad state '{String.ofList cs}'"

/-- An edge is written `FROM:TO`. -/
def readEdge (cs : List Char) : Except String (Nat × Nat) :=
  match Text.splitFirst? ':' cs with
  | none => .error s!"expected FROM:TO, got '{String.ofList cs}'"
  | some (source, target) => do
      let s ← readState source
      let t ← readState target
      pure (s, t)

def readEdges : List (List Char) → Except String (List (Nat × Nat))
  | [] => .ok []
  | part :: rest => do
      let edge ← readEdge part
      let edges ← readEdges rest
      pure (edge :: edges)

/-- Edges to reveal are written `NAME=FROM:TO,…`. -/
def readEdgeReveal (spec : String) : Except String RevealRequest :=
  match Text.splitFirst? '=' spec.toList with
  | none => .error s!"expected NAME=FROM:TO,..., got '{spec}'"
  | some (name, edges) =>
      if name.isEmpty then .error "reveal name must not be empty"
      else (readEdges (Text.splitAll ',' edges)).map (.edges (String.ofList name))

/-- Reads the value of a flag; a path must not be empty. -/
def Flag.read (f : Flag) (value : String) : Except UsageFault Setting :=
  match f with
  | mode =>
      match Acceptance.ofName? value with
      | some a => .ok (.mode a)
      | none => .error (.invalidValue f value (Acceptance.unknownName value))
  | reveal => .ok (.reveal value)
  | revealEdges =>
      match readEdgeReveal value with
      | .ok request => .ok (.revealEdges request)
      | .error reason => .error (.invalidValue f value reason)
  | options => if value.isEmpty then .error (.missingValue f) else .ok (.options value)
  | output => if value.isEmpty then .error (.missingValue f) else .ok (.output value)
  | pad =>
      match Numeral.readWord value.toList with
      | .ok n => .ok (.pad n)
      | .error fault => .error (.invalidValue f value fault.message)
  | annotate => .ok .annotate

end PatternCircuit.Cli
