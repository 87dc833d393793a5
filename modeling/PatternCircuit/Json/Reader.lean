import PatternCircuit.Json.Basic

/-! # Reading JSON text -/

namespace PatternCircuit.Json.Reader

def skipBlanks : List Char → List Char
  | c :: rest =>
      if c = ' ' || c = '\n' || c = '\t' || c = '\r' then skipBlanks rest else c :: rest
  | [] => []

/-! ### Strings -/

def hexValue? (c : Char) : Option Nat :=
  if '0' ≤ c && c ≤ '9' then some (c.toNat - 48)
  else if 'a' ≤ c && c ≤ 'f' then some (c.toNat - 87)
  else if 'A' ≤ c && c ≤ 'F' then some (c.toNat - 55)
  else none

/-- A code unit of four hexadecimal digits. -/
def unit? (a b c d : Char) : Option Nat := do
  let a ← hexValue? a
  let b ← hexValue? b
  let c ← hexValue? c
  let d ← hexValue? d
  pure (((a * 16 + b) * 16 + c) * 16 + d)

def isHighUnit (n : Nat) : Bool := 0xD800 ≤ n && n < 0xDC00

def isLowUnit (n : Nat) : Bool := 0xDC00 ≤ n && n < 0xE000

/-- The character of a one-letter escape. -/
def shortEscape? (c : Char) : Option Char :=
  if c = '\x22' || c = '\\' || c = '/' then some c
  else if c = 'b' then some '\x08'
  else if c = 'f' then some '\x0c'
  else if c = 'n' then some '\n'
  else if c = 'r' then some '\r'
  else if c = 't' then some '\t'
  else none

/-- Reads up to the closing quote. The characters read so far are reversed in `acc`, or `none` after
half a pair of code units; control characters have to be escaped. -/
def stringBody (acc : Option (List Char)) : List Char → Option (Option String × List Char)
  | [] => none
  | '\x22' :: rest => some (acc.map fun cs => String.ofList cs.reverse, rest)
  | '\\' :: 'u' :: a :: b :: c :: d :: '\\' :: 'u' :: e :: f :: g :: h :: rest =>
      match unit? a b c d, unit? e f g h with
      | some high, some low =>
          if isHighUnit high && isLowUnit low then
            stringBody
              (acc.map (Char.ofNat (0x10000 + (high - 0xD800) * 1024 + (low - 0xDC00)) :: ·)) rest
          else if isHighUnit high || isLowUnit high then
            stringBody none ('\\' :: 'u' :: e :: f :: g :: h :: rest)
          else
            stringBody (acc.map (Char.ofNat high :: ·)) ('\\' :: 'u' :: e :: f :: g :: h :: rest)
      | _, _ => none
  | '\\' :: 'u' :: a :: b :: c :: d :: rest =>
      match unit? a b c d with
      | some n =>
          if isHighUnit n || isLowUnit n then stringBody none rest
          else stringBody (acc.map (Char.ofNat n :: ·)) rest
      | none => none
  | '\\' :: e :: rest =>
      match shortEscape? e with
      | some c => stringBody (acc.map (c :: ·)) rest
      | none => none
  | c :: rest =>
      if c.toNat < 32 || c = '\\' then none else stringBody (acc.map (c :: ·)) rest

/-! ### Numbers -/

def digits : List Char → List Char × List Char
  | c :: rest =>
      if c.isDigit then
        let (ds, tail) := digits rest
        (c :: ds, tail)
      else ([], c :: rest)
  | [] => ([], [])

def natOf (ds : List Char) : Nat := ds.foldl (fun n c => n * 10 + (c.toNat - 48)) 0

/-- The fraction of a number: a point and at least one digit, or nothing. -/
def fraction? : List Char → Option (List Char × List Char)
  | '.' :: rest =>
      match digits rest with
      | ([], _) => none
      | (ds, tail) => some ('.' :: ds, tail)
  | rest => some ([], rest)

/-- The exponent of a number, or nothing. -/
def exponent? : List Char → Option (List Char × List Char)
  | c :: rest =>
      if c = 'e' || c = 'E' then
        let (sign, rest) := match rest with
          | s :: tail => if s = '+' || s = '-' then ([s], tail) else ([], rest)
          | [] => ([], [])
        match digits rest with
        | ([], _) => none
        | (ds, tail) => some ('e' :: sign ++ ds, tail)
      else some ([], c :: rest)
  | [] => some ([], [])

/-- The value of an exponent. -/
def exponentOf : List Char → Int
  | 'e' :: '-' :: ds => -(natOf ds : Int)
  | 'e' :: '+' :: ds => natOf ds
  | 'e' :: ds => natOf ds
  | _ => 0

/-- The least number that floating point rounds to infinity. -/
def doubleBound : Nat := Nat.pow 2 1024 - Nat.pow 2 970

/-- A number times a power of ten is too large for floating point. The bound has 309 digits, so that
only numbers of as many places are computed. -/
def exceedsDouble (n : Nat) (exponent : Int) : Bool :=
  let places := ((toString n).length : Int) + exponent
  if n = 0 || places < 309 then false
  else if 309 < places then true
  else doubleBound * Nat.pow 10 (-exponent).toNat ≤ n * Nat.pow 10 exponent.toNat

/-- A number without its sign; a leading zero stands alone. -/
def magnitude? (negative : Bool) (cs : List Char) : Option (Json × List Char) :=
  match digits cs with
  | ([], _) => none
  | ('0' :: _ :: _, _) => none
  | (whole, rest) => do
      let (frac, rest) ← fraction? rest
      let (expo, rest) ← exponent? rest
      let n := natOf whole
      if exceedsDouble (natOf (whole ++ frac.drop 1)) (exponentOf expo - (frac.drop 1).length) then
        pure (garbled, rest)
      else if frac.isEmpty && expo.isEmpty && !(negative && n == 0) then
        pure (integer (if negative then -(n : Int) else n), rest)
      else
        let sign := if negative then ['-'] else []
        pure (decimal (String.ofList (sign ++ whole ++ frac ++ expo)), rest)

def number? : List Char → Option (Json × List Char)
  | '-' :: rest => magnitude? true rest
  | cs => magnitude? false cs

/-! ### Values -/

/-- The fields of an object without a garbled name. -/
def named? : List (Option String × Json) → Option (List (String × Json))
  | [] => some []
  | (none, _) :: _ => none
  | (some name, content) :: rest => (named? rest).map ((name, content) :: ·)

mutual

/-- Reads one value. Every call spends one unit of fuel, and no value has more parts than
characters. -/
def value? (fuel : Nat) (cs : List Char) : Option (Json × List Char) :=
  match fuel with
  | 0 => none
  | fuel + 1 =>
      match skipBlanks cs with
      | 'n' :: 'u' :: 'l' :: 'l' :: rest => some (null, rest)
      | 't' :: 'r' :: 'u' :: 'e' :: rest => some (bool true, rest)
      | 'f' :: 'a' :: 'l' :: 's' :: 'e' :: rest => some (bool false, rest)
      | '\x22' :: rest => (stringBody (some []) rest).map fun r => (r.1.elim garbled string, r.2)
      | '[' :: rest =>
          match skipBlanks rest with
          | ']' :: rest => some (array [], rest)
          | rest => (items? fuel rest).map fun r => (array r.1, r.2)
      | '\x7b' :: rest =>
          match skipBlanks rest with
          | '\x7d' :: rest => some (object [], rest)
          | rest => (fields? fuel rest).map fun r => ((named? r.1).elim garbled object, r.2)
      | rest => number? rest

/-- Reads the items of an array up to its closing bracket. -/
def items? (fuel : Nat) (cs : List Char) : Option (List Json × List Char) :=
  match fuel with
  | 0 => none
  | fuel + 1 => do
      let (item, rest) ← value? fuel cs
      match skipBlanks rest with
      | ',' :: rest => do
          let (items, rest) ← items? fuel rest
          pure (item :: items, rest)
      | ']' :: rest => pure ([item], rest)
      | _ => none

/-- Reads the fields of an object up to its closing brace. -/
def fields? (fuel : Nat) (cs : List Char) :
    Option (List (Option String × Json) × List Char) :=
  match fuel with
  | 0 => none
  | fuel + 1 =>
      match skipBlanks cs with
      | '\x22' :: rest => do
          let (name, rest) ← stringBody (some []) rest
          match skipBlanks rest with
          | ':' :: rest => do
              let (content, rest) ← value? fuel rest
              match skipBlanks rest with
              | ',' :: rest => do
                  let (fields, rest) ← fields? fuel rest
                  pure ((name, content) :: fields, rest)
              | '\x7d' :: rest => pure ([(name, content)], rest)
              | _ => none
          | _ => none
      | _ => none

end

end PatternCircuit.Json.Reader

namespace PatternCircuit.Json

/-- Reads a text that holds one value and nothing else. -/
def parse? (text : String) : Option Json :=
  let cs := text.toList
  match Reader.value? (2 * cs.length + 1) cs with
  | some (j, rest) => if (Reader.skipBlanks rest).isEmpty then some j else none
  | none => none

end PatternCircuit.Json
