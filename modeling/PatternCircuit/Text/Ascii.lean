/-! # Byte codes of the ASCII characters the pattern language gives a meaning to -/

namespace PatternCircuit.Ascii

@[match_pattern] abbrev openParen : UInt8 := 40
@[match_pattern] abbrev closeParen : UInt8 := 41
@[match_pattern] abbrev star : UInt8 := 42
@[match_pattern] abbrev plus : UInt8 := 43
@[match_pattern] abbrev comma : UInt8 := 44
@[match_pattern] abbrev dash : UInt8 := 45
@[match_pattern] abbrev question : UInt8 := 63
@[match_pattern] abbrev openBracket : UInt8 := 91
@[match_pattern] abbrev backslash : UInt8 := 92
@[match_pattern] abbrev closeBracket : UInt8 := 93
@[match_pattern] abbrev caret : UInt8 := 94
@[match_pattern] abbrev lowerX : UInt8 := 120
@[match_pattern] abbrev bar : UInt8 := 124

/-- Visible characters: everything printable but the blank. -/
def isGraphic (b : UInt8) : Bool := 33 ≤ b && b ≤ 126

/-- Visible characters and the blank. -/
def isPrintable (b : UInt8) : Bool := 32 ≤ b && b ≤ 126

/-- The character with this code; bytes above 127 stand for the first 256 code points. -/
def toChar (b : UInt8) : Char := Char.ofNat b.toNat

/-- The byte of an ASCII character; only its low eight bits count otherwise. -/
def ofChar (c : Char) : UInt8 := c.toNat.toUInt8

/-- The families between whose members a class range may run. -/
inductive Family where
  | digit
  | lower
  | upper
deriving DecidableEq, Repr

/-- The family of a letter or digit. -/
def family? (b : UInt8) : Option Family :=
  if 48 ≤ b && b ≤ 57 then some .digit
  else if 97 ≤ b && b ≤ 122 then some .lower
  else if 65 ≤ b && b ≤ 90 then some .upper
  else none

end PatternCircuit.Ascii
