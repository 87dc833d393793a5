import PatternCircuit.Text.Glyphless
import PatternCircuit.Text.Numeral

/-! # Quoted text, as messages and listings show it -/

namespace PatternCircuit.Quoted

/-- One character between double quotes. -/
def escape (c : Char) : String :=
  if c = '\x00' then "\\0"
  else if c = '\t' then "\\t"
  else if c = '\r' then "\\r"
  else if c = '\n' then "\\n"
  else if c = '\x22' then "\\\""
  else if c = '\\' then "\\\\"
  else if Glyphless.isGlyphless c then "\\u\x7b" ++ Numeral.hex c.toNat ++ "\x7d"
  else String.singleton c

/-- The text between double quotes. -/
def quote (s : String) : String := "\"" ++ String.join (s.toList.map escape) ++ "\""

/-- The character between single quotes, where a double quote needs no escape but a single one. -/
def quoteChar (c : Char) : String :=
  let inner :=
    if c = '\x27' then "\\'"
    else if c = '\x22' then "\""
    else escape c
  "'" ++ inner ++ "'"

end PatternCircuit.Quoted
