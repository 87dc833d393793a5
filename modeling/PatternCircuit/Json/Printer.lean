import PatternCircuit.Json.Basic

/-! # Writing JSON text

The laid-out form puts every item and field on a line of its own, two blanks deeper than its
container; empty containers stay closed. -/

namespace PatternCircuit.Json

def escapedChar (c : Char) : String :=
  if c = '\x22' then "\\\""
  else if c = '\\' then "\\\\"
  else if c = '\x08' then "\\b"
  else if c = '\x0c' then "\\f"
  else if c = '\n' then "\\n"
  else if c = '\r' then "\\r"
  else if c = '\t' then "\\t"
  else if c.toNat < 32 then "\\u00" ++ Numeral.hexByte c.toNat.toUInt8
  else String.singleton c

def stringText (s : String) : String := "\"" ++ String.join (s.toList.map escapedChar) ++ "\""

def lineBreak (depth : Nat) : String := "\n" ++ String.ofList (List.replicate (2 * depth) ' ')

mutual

/-- The laid-out text of a value that stands `depth` levels deep. -/
def prettyAt (depth : Nat) : Json → String
  | null => "null"
  | bool b => if b then "true" else "false"
  | integer n => toString n
  | decimal text => text
  | string s => stringText s
  | garbled => "null"
  | array [] => "[]"
  | array (item :: items) =>
      "[" ++ lineBreak (depth + 1) ++ prettyAt (depth + 1) item ++ prettyItems (depth + 1) items ++
        lineBreak depth ++ "]"
  | object [] => "\x7b\x7d"
  | object ((name, content) :: fields) =>
      "\x7b" ++ lineBreak (depth + 1) ++ stringText name ++ ": " ++ prettyAt (depth + 1) content ++
        prettyFields (depth + 1) fields ++ lineBreak depth ++ "\x7d"

def prettyItems (depth : Nat) : List Json → String
  | [] => ""
  | item :: items => "," ++ lineBreak depth ++ prettyAt depth item ++ prettyItems depth items

def prettyFields (depth : Nat) : List (String × Json) → String
  | [] => ""
  | (name, content) :: fields =>
      "," ++ lineBreak depth ++ stringText name ++ ": " ++ prettyAt depth content ++
        prettyFields depth fields

end

def pretty (j : Json) : String := prettyAt 0 j

end PatternCircuit.Json
