/-! # Sessions

A session says which files it reads and writes and how it goes on from there. It can be run on real
files or in a workspace that is a value itself. -/

namespace PatternCircuit.Cli

/-- Why a file cannot be read or written. -/
inductive FileFault where
  | missing
  | notDirectory
  | isDirectory
  | nameTooLong
  | notText
  | other (reason : String)
deriving DecidableEq, Repr

def FileFault.message : FileFault → String
  | missing => "No such file or directory (os error 2)"
  | notDirectory => "Not a directory (os error 20)"
  | isDirectory => "Is a directory (os error 21)"
  | nameTooLong => "File name too long (os error 36)"
  | notText => "stream did not contain valid UTF-8"
  | other reason => reason

/-- What a finished session leaves behind. -/
structure Report where
  output : String
  errors : String
  exitCode : UInt8
deriving DecidableEq, Repr

inductive Session where
  | finish (report : Report)
  | load (path : String) (next : Except FileFault String → Session)
  | save (path content : String) (next : Except FileFault Unit → Session)

/-! ### Workspaces -/

/-- The names of the directories on the way to a file and of the file itself. -/
abbrev Path := List String

/-- Files by path; the directories are those on the way to some file. -/
structure Workspace where
  files : List (Path × String)
deriving DecidableEq, Repr

/-- Where a path leads. -/
inductive Place where
  /-- A file, a directory or a name that is still free. -/
  | inside (path : Path)
  /-- A directory around the workspace. -/
  | around
  /-- A name in a directory around the workspace, where nothing is known of. -/
  | outside
deriving DecidableEq, Repr

namespace Workspace

def isFile (w : Workspace) (p : Path) : Bool := w.files.any fun f => f.1 == p

def isDirectory (w : Workspace) (p : Path) : Bool :=
  p.isEmpty || w.files.any fun f => p.isPrefixOf f.1 && p != f.1

/-- What keeps a place from being searched for a name. -/
def searchFault? (w : Workspace) : Place → Option FileFault
  | .inside p =>
      if w.isDirectory p then none else some (if w.isFile p then .notDirectory else .missing)
  | .around => none
  | .outside => some .missing

/-- The place that a name stands for in a directory. -/
def step (name : String) : Place → Place
  | .inside p =>
      if name = "." then .inside p
      else if name = ".." then if p.isEmpty then .around else .inside p.dropLast
      else .inside (p ++ [name])
  | place => if name = "." || name = ".." then place else .outside

/-- Goes from a place along names of at most 255 bytes; all but the last one have to lead to
directories. -/
def walk (w : Workspace) (place : Place) : List String → Except FileFault Place
  | [] => .ok place
  | name :: rest =>
      match w.searchFault? place with
      | some fault => .error fault
      | none =>
          if 255 < name.utf8ByteSize then .error .nameTooLong else w.walk (step name place) rest

/-- The names in a path. -/
def names (path : String) : List String := (path.splitOn "/").filter fun name => name != ""

/-- Follows a path of at most 4095 bytes. -/
def find (w : Workspace) (path : String) : Except FileFault Place :=
  if 4095 < path.utf8ByteSize then .error .nameTooLong
  else w.walk (if path.startsWith "/" then .around else .inside []) (names path)

/-- A path that ends with a slash leads to a directory only. -/
def read (w : Workspace) (path : String) : Except FileFault String := do
  match ← w.find path with
  | .inside p =>
      match w.files.lookup p with
      | some content => if path.endsWith "/" then .error .notDirectory else .ok content
      | none => .error (if w.isDirectory p then .isDirectory else .missing)
  | .around => .error .isDirectory
  | .outside => .error .missing

/-- Replaces or adds a file. -/
def put (w : Workspace) (p : Path) (content : String) : Workspace :=
  ⟨(w.files.filter fun f => f.1 != p) ++ [(p, content)]⟩

/-- What is written outside the workspace is not kept. -/
def write (w : Workspace) (path content : String) : Except FileFault Workspace := do
  match ← w.find path with
  | .inside p =>
      if w.isDirectory p || path.endsWith "/" then .error .isDirectory
      else .ok (w.put p content)
  | .around => .error .isDirectory
  | .outside => if path.endsWith "/" then .error .isDirectory else .ok w

/-- The files that are new or differ from those of an earlier workspace. -/
def changedSince (w earlier : Workspace) : List (Path × String) :=
  w.files.filter fun f => earlier.files.lookup f.1 != some f.2

end Workspace

/-- Runs a session in a workspace. -/
def Session.run (w : Workspace) : Session → Report × Workspace
  | finish report => (report, w)
  | load path next => (next (w.read path)).run w
  | save path content next =>
      match w.write path content with
      | .ok w => (next (.ok ())).run w
      | .error fault => (next (.error fault)).run w

end PatternCircuit.Cli
