import PatternCircuit.Text.Numeral

/-! # JSON values and how typed values are read off them

Object fields keep their order. A record is read from an object, whose unknown fields are ignored,
or from an array that lists the fields in order; a variant is a bare name or an object with one
field. -/

namespace PatternCircuit

inductive Json where
  | null
  | bool (value : Bool)
  | integer (value : Int)
  /-- A number written with a point or an exponent, kept as its text. -/
  | decimal (text : String)
  | string (value : String)
  /-- Well-formed text without a value: a number too large for floating point, or a string, or a
  name in an object, that breaks up a pair of code units. -/
  | garbled
  | array (items : List Json)
  | object (fields : List (String × Json))

namespace Json

instance : Inhabited Json := ⟨null⟩

def ofNat (n : Nat) : Json := integer n

def ofByte (b : UInt8) : Json := ofNat b.toNat

def ofList {α : Type} (item : α → Json) (xs : List α) : Json := array (xs.map item)

def ofPair (p : Nat × Nat) : Json := array [ofNat p.1, ofNat p.2]

/-! ### Reading -/

def bool? : Json → Option Bool
  | bool b => some b
  | _ => none

def string? : Json → Option String
  | string s => some s
  | _ => none

/-- An unsigned 64-bit integer. -/
def word? : Json → Option Nat
  | integer n => if 0 ≤ n && n < Numeral.wordBound then some n.toNat else none
  | _ => none

def byte? (j : Json) : Option UInt8 := do
  let n ← j.word?
  if n < 256 then some (UInt8.ofNat n) else none

/-- No part is garbled, and containers nest at most so many levels deep. -/
def isSound : Nat → Json → Bool
  | _, garbled => false
  | 0, array _ => false
  | 0, object _ => false
  | levels + 1, array items => items.all (isSound levels)
  | levels + 1, object fields => fields.all fun f => isSound levels f.2
  | _, _ => true

/-- Reads every item of a list; one unreadable item spoils the list. -/
def readAll {α : Type} (item : Json → Option α) : List Json → Option (List α)
  | [] => some []
  | j :: rest => do
      let x ← item j
      let xs ← readAll item rest
      pure (x :: xs)

def list? {α : Type} (item : Json → Option α) : Json → Option (List α)
  | array items => readAll item items
  | _ => none

/-- A pair is an array of exactly two items. -/
def pair? {α β : Type} (first : Json → Option α) (second : Json → Option β) :
    Json → Option (α × β)
  | array [x, y] => do
      let a ← first x
      let b ← second y
      pure (a, b)
  | _ => none

/-- An absent or null value is `none`. -/
def nullable? {α : Type} (item : Json → Option α) : Json → Option (Option α)
  | null => some none
  | j => (item j).map some

/-- The values of one field of an object, in order of appearance. -/
def values (name : String) (fields : List (String × Json)) : List Json :=
  (fields.filter fun f => f.1 == name).map Prod.snd

/-- The value of a field that may be missing but not repeated. -/
def single? (name : String) (fields : List (String × Json)) : Option (Option Json) :=
  match values name fields with
  | [] => some none
  | [j] => some (some j)
  | _ => none

/-- The named fields of an object. -/
def fieldsOf? (fields : List (String × Json)) : List String → Option (List (Option Json))
  | [] => some []
  | name :: names => do
      let value ← single? name fields
      let rest ← fieldsOf? fields names
      pure (value :: rest)

/-- Lines items up with names; too many items are refused. -/
def align? : List Json → List String → Option (List (Option Json))
  | [], names => some (names.map fun _ => none)
  | _ :: _, [] => none
  | j :: items, _ :: names => (align? items names).map (some j :: ·)

/-- The fields of a record, `none` for those that are missing. -/
def record? (names : List String) : Json → Option (List (Option Json))
  | object fields => fieldsOf? fields names
  | array items => align? items names
  | _ => none

/-- The fields of a record that has to be an object. -/
def objectRecord? (names : List String) : Json → Option (List (Option Json))
  | object fields => fieldsOf? fields names
  | _ => none

/-- The name of a variant and its content, if it has one. -/
def variant? : Json → Option (String × Option Json)
  | string name => some (name, none)
  | object [(name, content)] => some (name, some content)
  | _ => none

/-- A variant without content; an explicit null counts as none. -/
def plainVariant? (j : Json) : Option String :=
  match j.variant? with
  | some (name, none) => some name
  | some (name, some null) => some name
  | _ => none

end Json

end PatternCircuit
