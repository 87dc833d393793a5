/-! # Text for terminals

A terminal obeys some characters instead of showing them: control characters, and sequences that an
escape character starts. Plain text is what is left without them; controls that only lay text out
stay in it, and such a control also breaks off an unfinished sequence that is not a string. -/

namespace PatternCircuit.Terminal

/-- What a character is to a terminal. -/
inductive Role where
  | escape
  /-- Breaks off any sequence. -/
  | cancel
  /-- Moves the place where text goes on. -/
  | layout
  | bell
  | control
  | delete
  | intermediate
  | parameter
  /-- Marks a private sequence. -/
  | marker
  | letter
  /-- A character beyond ASCII. -/
  | wide
deriving DecidableEq, Repr

def Role.ofChar (c : Char) : Role :=
  let n := c.toNat
  if n = 0x1b then escape
  else if n = 0x18 || n = 0x1a then cancel
  else if n = 9 || n = 10 || n = 12 || n = 13 then layout
  else if n = 7 then bell
  else if n < 0x20 then control
  else if n < 0x30 then intermediate
  else if n < 0x3c then parameter
  else if n < 0x40 then marker
  else if n < 0x7f then letter
  else if n = 0x7f then delete
  else wide

/-- How far a sequence has come. -/
inductive State where
  /-- Outside all sequences. -/
  | ground
  /-- After the escape character. -/
  | escape
  /-- Before the last character of an escape sequence. -/
  | escapeRest
  /-- Before the letter that ends a control sequence. -/
  | controlSequence
  /-- At the start of a device string. -/
  | deviceStart
  /-- Among the parameters of a device string. -/
  | deviceParameters
  /-- Before the letter that ends the head of a device string. -/
  | deviceRest
  /-- In a string that goes on to its terminator. -/
  | string
  /-- In a string that the bell ends. -/
  | systemCommand
deriving DecidableEq, Repr

namespace State

/-- Controls are obeyed here; in strings they are part of the string. -/
def obeysControls : State → Bool
  | ground | escape | escapeRest | controlSequence => true
  | _ => false

/-- The character after the escape character chooses the kind of sequence. -/
def ofIntroducer (c : Char) : State :=
  if c = '[' then controlSequence
  else if c = ']' then systemCommand
  else if c = 'P' then deviceStart
  else if c = 'X' || c = '^' || c = '_' then string
  else ground

/-- The terminator of a string is a byte, which is also seen inside the encoding of a character. -/
def holdsTerminator (c : Char) : Bool := (String.singleton c).toUTF8.toList.contains 0x9c

/-- The state after a character. -/
def next (s : State) (c : Char) : State :=
  match s, Role.ofChar c with
  | _, .escape => escape
  | _, .cancel => ground
  | s, .layout => if s.obeysControls then ground else s
  | escape, .intermediate => escapeRest
  | escape, .parameter | escape, .marker | escape, .letter => ofIntroducer c
  | escapeRest, .parameter | escapeRest, .marker | escapeRest, .letter => ground
  | controlSequence, .letter => ground
  | deviceStart, .intermediate | deviceParameters, .intermediate => deviceRest
  | deviceStart, .parameter | deviceStart, .marker => deviceParameters
  | deviceStart, .letter => string
  | deviceParameters, .marker | deviceParameters, .letter => string
  | deviceRest, .parameter | deviceRest, .marker | deviceRest, .letter => string
  | string, .wide => if holdsTerminator c then ground else string
  | systemCommand, .bell => ground
  | s, _ => s

/-- The character stays in plain text. -/
def shows (s : State) (c : Char) : Bool :=
  match Role.ofChar c with
  | .layout => s.obeysControls
  | .intermediate | .parameter | .marker | .letter | .wide => s == ground
  | _ => false

/-- The characters that show, from a state on. -/
def visible (s : State) : List Char → List Char
  | [] => []
  | c :: rest => if s.shows c then c :: (s.next c).visible rest else (s.next c).visible rest

end State

/-- The text without what a terminal obeys. -/
def plain (s : String) : String := String.ofList (State.ground.visible s.toList)

/-- The text between sequences that make it stand out and that end this. -/
def highlight (s : String) : String := "\x1b[1m" ++ s ++ "\x1b[0m"

end PatternCircuit.Terminal
