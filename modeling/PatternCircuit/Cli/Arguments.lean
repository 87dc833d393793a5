import PatternCircuit.Cli.Flag

/-! # Reading the command line

Words are read from left to right. A flag's value is checked only when the next flag or argument
shows that the value is complete, or at the end; a value attached to its flag is checked at once. -/

namespace PatternCircuit.Cli

inductive Action where
  | compile
  | graph
  | render
  | eval
  | check
deriving DecidableEq, Repr

namespace Action

def all : List Action := [compile, graph, render, eval, check]

def name : Action → String
  | compile => "compile"
  | graph => "graph"
  | render => "render"
  | eval => "eval"
  | check => "check"

def ofName? (word : String) : Option Action := all.find? fun a => a.name == word

/-- What an action does, in one line. -/
def summary : Action → String
  | compile => "Compile a pattern and write the artifact JSON"
  | graph => "Print the minimal automaton as JSON"
  | render => "Print a human-readable listing of the compiled circuit"
  | eval => "Evaluate a pattern over an input natively"
  | check => "Lay the circuit out and verify it"

def flags : Action → List Flag
  | compile => [.mode, .reveal, .revealEdges, .options, .output]
  | graph => []
  | render => [.mode, .reveal, .revealEdges, .options, .annotate]
  | eval | check => [.mode, .reveal, .revealEdges, .options, .pad]

/-- The names of the arguments, all of which are required. -/
def arguments : Action → List String
  | compile | graph | render => ["PATTERN"]
  | eval | check => ["PATTERN", "INPUT"]

end Action

/-! ### Words -/

/-- What a word looks like. -/
inductive Word where
  /-- The end of the flags. -/
  | divider
  | long (name : String) (value : Option String)
  | short (letter : Char) (rest : List Char)
  | plain (text : String)
deriving DecidableEq, Repr

def Word.ofString (s : String) : Word :=
  match s.toList with
  | ['-', '-'] => .divider
  | '-' :: '-' :: name =>
      match Text.splitFirst? '=' name with
      | some (name, value) => .long (String.ofList name) (some (String.ofList value))
      | none => .long (String.ofList name) none
  | '-' :: letter :: rest => .short letter rest
  | _ => .plain s

/-- The value attached to a short flag, which an equals sign may precede. -/
def attachedValue : List Char → Option String
  | [] => none
  | '=' :: value => some (String.ofList value)
  | value => some (String.ofList value)

/-! ### Drafts -/

/-- A command line read so far. -/
structure Draft where
  settings : List Setting
  arguments : List String
  /-- The flag that was read last, with its value if that has been read. -/
  pending : Option (Flag × Option String)
deriving DecidableEq, Repr

/-- Reading stops early when help is asked for. -/
inductive Stop where
  | help
  | fault (fault : UsageFault)
deriving DecidableEq, Repr

namespace Draft

def empty : Draft := ⟨[], [], none⟩

/-- Takes a flag up with its value. -/
def accept (d : Draft) (f : Flag) (value : String) : Except Stop Draft :=
  if !f.isRepeatable && d.settings.any fun s => s.flag == f then .error (.fault (.repeated f))
  else
    match f.read value with
    | .ok setting => .ok { d with settings := d.settings ++ [setting] }
    | .error fault => .error (.fault fault)

/-- Takes up the flag that was read last. -/
def settle (d : Draft) : Except Stop Draft :=
  match d.pending with
  | none => .ok d
  | some (f, none) => .error (.fault (.missingValue f))
  | some (f, some value) => { d with pending := none }.accept f value

/-- Reads a flag and what is attached to it. -/
def readFlag (d : Draft) (f : Flag) (attached : Option String) : Except Stop Draft :=
  match f.placeholder?, attached with
  | some _, none => do
      let d ← d.settle
      pure { d with pending := some (f, none) }
  | some _, some value => do
      let d ← d.settle
      d.accept f value
  | none, none => do
      let d ← d.settle
      d.accept f ""
  | none, some value => .error (.fault (.unexpectedValue f.text value))

def readArgument (a : Action) (d : Draft) (word : String) : Except Stop Draft :=
  if d.arguments.length < a.arguments.length then do
    let d ← d.settle
    pure { d with arguments := d.arguments ++ [word] }
  else .error (.fault (.unexpectedArgument word))

/-- A request for help, once what came before it is checked. -/
def readHelp (d : Draft) : Except Stop Draft := do
  let _ ← d.settle
  .error .help

def readLong (a : Action) (d : Draft) (name : String) (value : Option String) :
    Except Stop Draft :=
  match a.flags.find? fun f => f.long == name with
  | some f => d.readFlag f value
  | none =>
      if name = "help" then
        match value with
        | none => d.readHelp
        | some v => .error (.fault (.unexpectedValue "--help" v))
      else .error (.fault (.unexpectedArgument ("--" ++ name)))

def readShort (a : Action) (d : Draft) (letter : Char) (rest : List Char) : Except Stop Draft :=
  match a.flags.find? fun f => f.short? == some letter with
  | some f => d.readFlag f (attachedValue rest)
  | none =>
      if letter = 'h' then d.readHelp
      else .error (.fault (.unexpectedArgument (String.ofList ['-', letter])))

/-- A plain word is the value that a flag waits for, or an argument. -/
def readPlain (a : Action) (d : Draft) (word : String) : Except Stop Draft :=
  match d.pending with
  | some (f, none) => .ok { d with pending := some (f, some word) }
  | _ => d.readArgument a word

/-- Reads words that are arguments whatever they look like. -/
def readArguments (a : Action) (d : Draft) : List String → Except Stop Draft
  | [] => d.settle
  | word :: rest => do
      let d ← d.readArgument a word
      d.readArguments a rest

def readWords (a : Action) (d : Draft) : List String → Except Stop Draft
  | [] => d.settle
  | word :: rest =>
      match Word.ofString word with
      | .divider => d.readArguments a rest
      | .long name value => do
          let d ← d.readLong a name value
          d.readWords a rest
      | .short letter letters => do
          let d ← d.readShort a letter letters
          d.readWords a rest
      | .plain text => do
          let d ← d.readPlain a text
          d.readWords a rest

/-! ### Settings of a draft -/

def mode? (d : Draft) : Option Acceptance :=
  d.settings.findSome? fun
    | .mode a => some a
    | _ => none

def optionsFile? (d : Draft) : Option String :=
  d.settings.findSome? fun
    | .options path => some path
    | _ => none

def output? (d : Draft) : Option String :=
  d.settings.findSome? fun
    | .output path => some path
    | _ => none

def pad? (d : Draft) : Option Nat :=
  d.settings.findSome? fun
    | .pad length => some length
    | _ => none

def annotate (d : Draft) : Bool := d.settings.any fun s => s.flag == .annotate

/-- The requested reveals: sub-patterns first, then edges. -/
def reveals (d : Draft) : List RevealRequest :=
  (d.settings.filterMap fun
    | .reveal sub => some (.substring sub none)
    | _ => none) ++
  d.settings.filterMap fun
    | .revealEdges request => some request
    | _ => none

end Draft

/-! ### Commands -/

/-- Where compilation options come from: a file, overridden by flags. -/
structure OptionSource where
  file : Option String
  mode : Option Acceptance
  reveals : List RevealRequest
deriving DecidableEq, Repr

/-- Given reveals take the place of all those in the file. -/
def OptionSource.override (s : OptionSource) (o : Options) : Options :=
  { acceptance := s.mode.getD o.acceptance
    reveals := if s.reveals.isEmpty then o.reveals else s.reveals }

inductive Command where
  | help
  | compile (pattern : String) (options : OptionSource) (output : Option String)
  | graph (pattern : String)
  | render (pattern : String) (options : OptionSource) (annotate : Bool)
  | eval (pattern input : String) (options : OptionSource) (pad : Option Nat)
  | check (pattern input : String) (options : OptionSource) (pad : Option Nat)
deriving DecidableEq, Repr

namespace Command

/-- The command of a complete draft. -/
def ofDraft (a : Action) (d : Draft) : Except UsageFault Command :=
  let source : OptionSource := ⟨d.optionsFile?, d.mode?, d.reveals⟩
  match a, d.arguments with
  | .compile, [pattern] => .ok (compile pattern source d.output?)
  | .graph, [pattern] => .ok (graph pattern)
  | .render, [pattern] => .ok (render pattern source d.annotate)
  | .eval, [pattern, input] => .ok (eval pattern input source d.pad?)
  | .check, [pattern, input] => .ok (check pattern input source d.pad?)
  | a, given => .error (.missingArguments (a.arguments.drop given.length))

def ofAction (a : Action) (words : List String) : Except UsageFault Command :=
  match Draft.empty.readWords a words with
  | .ok d => ofDraft a d
  | .error .help => .ok help
  | .error (.fault fault) => .error fault

/-- The word names an action or asks for help. -/
def isKnown (word : String) : Bool := (Action.ofName? word).isSome || word == "help"

/-- The command after the word for help: one known word may follow, and nothing after it. -/
def helpOn : List String → Except UsageFault Command
  | [] => .ok help
  | word :: rest =>
      if !isKnown word then .error (.unknownCommand word)
      else
        match rest with
        | [] => .ok help
        | next :: _ => .error (.unknownCommand next)

/-- A first word that is not a flag has to name an action. -/
def ofFirst (word : String) (rest : List String) : Except UsageFault Command :=
  match Action.ofName? word with
  | some a => ofAction a rest
  | none => if word = "help" then helpOn rest else .error (.unknownCommand word)

/-- Reads the words of a command line. -/
def parse : List String → Except UsageFault Command
  | [] => .error .noCommand
  | word :: rest =>
      match Word.ofString word with
      | .divider =>
          match rest with
          | [] => .error .noCommand
          | next :: _ =>
              if isKnown next then .error (.unexpectedArgument next)
              else .error (.unknownCommand next)
      | .long name value =>
          if name = "help" then
            match value with
            | none => .ok help
            | some v => .error (.unexpectedValue "--help" v)
          else .error (.unexpectedArgument ("--" ++ name))
      | .short letter _ =>
          if letter = 'h' then .ok help
          else .error (.unexpectedArgument (String.ofList ['-', letter]))
      | .plain text => ofFirst text rest

end Command

end PatternCircuit.Cli
