import PatternCircuit.Cli.Command

/-! # The command line program -/

open PatternCircuit.Cli

/-- System codes may also be reported negated: 21 is a directory in place of a file, and 36 is a
name that is too long. -/
def fileFault : IO.Error → FileFault
  | .noFileOrDirectory _ _ _ => .missing
  | .inappropriateType _ code _ =>
      if code = 21 || code = 0xffffffeb then .isDirectory else .notDirectory
  | .invalidArgument file code details =>
      if code = 36 || code = 0xffffffdc then .nameTooLong
      else .other (toString (IO.Error.invalidArgument file code details))
  | e => .other (toString e)

def loadFile (path : String) : IO (Except FileFault String) := do
  match ← (IO.FS.readBinFile path).toBaseIO with
  | .error e => pure (.error (fileFault e))
  | .ok bytes =>
      match String.fromUTF8? bytes with
      | some content => pure (.ok content)
      | none => pure (.error .notText)

def saveFile (path content : String) : IO (Except FileFault Unit) := do
  match ← (IO.FS.writeFile path content).toBaseIO with
  | .error e => pure (.error (fileFault e))
  | .ok () => pure (.ok ())

/-- Runs a session on real files. -/
def runSession : Session → IO Report
  | .finish report => pure report
  | .load path next => do runSession (next (← loadFile path))
  | .save path content next => do runSession (next (← saveFile path content))

def main (args : List String) : IO UInt32 := do
  let report ← runSession (session args)
  (← IO.getStdout).putStr report.output
  (← IO.getStderr).putStr report.errors
  pure report.exitCode.toUInt32
