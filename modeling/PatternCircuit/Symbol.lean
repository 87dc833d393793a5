import PatternCircuit.ByteSet

/-! # Transition symbols

The dialect of patterns has one symbol per byte and a marker that negates the class around it.
In the order of symbols the marker stands directly after the caret. -/

namespace PatternCircuit

inductive Symbol where
  | byte (code : UInt8)
  | negate
deriving DecidableEq

namespace Symbol

/-- Position in the order of symbols: bytes at even places, the marker after the caret. -/
def rank : Symbol → Nat
  | byte b => 2 * b.toNat
  | negate => 2 * Ascii.caret.toNat + 1

instance : Ord Symbol := ⟨fun a b => compare a.rank b.rank⟩

def le (a b : Symbol) : Bool := (compare a b).isLE

/-- How a symbol is written in a label key. -/
def text : Symbol → String
  | negate => "^"
  | byte b =>
      if b = Ascii.caret || b = Ascii.comma || b = Ascii.backslash then
        "\\" ++ String.singleton (Ascii.toChar b)
      else if Ascii.isPrintable b then String.singleton (Ascii.toChar b)
      else "\\x" ++ Numeral.hexByte b

end Symbol

end PatternCircuit
