import PatternCircuit.Text.Ascii

/-! # Reading and writing numerals

Decimal numerals are unsigned 64-bit words; hexadecimal digits are written in lower case. -/

namespace PatternCircuit.Numeral

/-- Words are below this bound. -/
def wordBound : Nat := 0x10000000000000000

/-- Why a text is not a decimal word. -/
inductive Fault where
  | missing
  | badDigit
  | overflow
deriving DecidableEq, Repr

def Fault.message : Fault → String
  | .missing => "cannot parse integer from empty string"
  | .badDigit => "invalid digit found in string"
  | .overflow => "number too large to fit in target type"

/-- Reads on with the digits seen so far worth `value`; the first fault in reading order wins. -/
def readDigits (value : Nat) : List Char → Except Fault Nat
  | [] => .ok value
  | c :: rest =>
      if c.isDigit then
        let value := value * 10 + (c.toNat - 48)
        if value < wordBound then readDigits value rest else .error .overflow
      else .error .badDigit

/-- Reads a decimal word, which may carry a leading plus sign. -/
def readWord (text : List Char) : Except Fault Nat :=
  match text with
  | [] => .error .missing
  | '+' :: [] => .error .badDigit
  | '+' :: digits => readDigits 0 digits
  | digits => readDigits 0 digits

/-- The value of a hexadecimal digit, in either case. -/
def hexValue? (b : UInt8) : Option UInt8 :=
  if 48 ≤ b && b ≤ 57 then some (b - 48)
  else if 97 ≤ b && b ≤ 102 then some (b - 87)
  else if 65 ≤ b && b ≤ 70 then some (b - 55)
  else none

/-- Reads two characters as a byte: two digits, or a plus sign and one digit. -/
def readHexPair? (high low : UInt8) : Option UInt8 :=
  if high = Ascii.plus then hexValue? low
  else do
    let h ← hexValue? high
    let l ← hexValue? low
    pure (h * 16 + l)

/-- The lower-case digit of a value below sixteen. -/
def hexDigit (n : Nat) : Char :=
  Char.ofNat (if n < 10 then 48 + n else 87 + n)

/-- Two lower-case hexadecimal digits. -/
def hexByte (b : UInt8) : String :=
  String.ofList [hexDigit (b.toNat / 16), hexDigit (b.toNat % 16)]

/-- A number in lower-case hexadecimal without leading zeros. -/
def hex (n : Nat) : String := String.ofList (Nat.toDigits 16 n)

end PatternCircuit.Numeral
