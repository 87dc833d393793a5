import PatternCircuit.Pattern.Token

/-! # The dialect of a pattern

The expanded form of a pattern, which remembers for each of its bytes the offset of the pattern
token it comes from. -/

namespace PatternCircuit

/-- A pattern as a sequence of tokens, each with the offset it starts at. -/
structure Dialect where
  patternLength : Nat
  tokens : List (Nat × Token)
deriving DecidableEq, Repr

namespace Dialect

/-- Reads the tokens of a pattern's encoded bytes. -/
def ofBytes (bytes : List UInt8) : Except Error Dialect := do
  let tokens ← Token.readAll 0 bytes
  pure ⟨bytes.length, tokens⟩

def expand (pattern : String) : Except Error Dialect := ofBytes pattern.toUTF8.toList

/-- The expanded form. -/
def bytes (d : Dialect) : List UInt8 := d.tokens.flatMap fun t => t.2.expansion

/-- For each byte of the expanded form, the offset of its token. -/
def origins (d : Dialect) : List Nat :=
  d.tokens.flatMap fun t => List.replicate t.2.expansion.length t.1

/-- The pattern offset of an offset into the expanded form; past its end, the pattern's length. -/
def patternOffset (d : Dialect) (offset : Nat) : Nat := d.origins[offset]?.getD d.patternLength

end Dialect

end PatternCircuit
