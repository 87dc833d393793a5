import PatternCircuit.Sorting
import PatternCircuit.Symbol

/-! # Edge labels

A label is a set of symbols. Its key lists the symbols in ascending order, separated by commas;
reading a key also takes symbols in any order, repeated, or written raw. -/

namespace PatternCircuit

@[ext]
structure Label where
  bytes : ByteSet
  negated : Bool
deriving DecidableEq

namespace Label

def empty : Label := ⟨.empty, false⟩

instance : Inhabited Label := ⟨empty⟩

def insert (l : Label) : Symbol → Label
  | .byte b => { l with bytes := l.bytes.insert b }
  | .negate => { l with negated := true }

def ofSymbol (a : Symbol) : Label := empty.insert a

def ofSymbols (as : List Symbol) : Label := as.foldl insert empty

def contains (l : Label) : Symbol → Bool
  | .byte b => l.bytes.contains b
  | .negate => l.negated

def union (l m : Label) : Label := ⟨l.bytes.union m.bytes, l.negated || m.negated⟩

def isEmpty (l : Label) : Bool := l.bytes.isEmpty && !l.negated

/-- Some symbol is in both labels. -/
def overlaps (l m : Label) : Bool := !(l.bytes.inter m.bytes).isEmpty || (l.negated && m.negated)

/-- The symbols in ascending order: the bytes, with the marker in front of the first byte that comes
after it. -/
def symbols (l : Label) : List Symbol :=
  let bytes := l.bytes.toList.map Symbol.byte
  if l.negated then insertSorted Symbol.le .negate bytes else bytes

/-- Labels are ordered as their ascending symbol sequences are. -/
instance : Ord Label := ⟨fun l m => compare l.symbols m.symbols⟩

def le (l m : Label) : Bool := (compare l m).isLE

/-- The textual form of a label. -/
def key (l : Label) : String := String.intercalate "," (l.symbols.map Symbol.text)

/-! ### Reading keys -/

/-- Reads one symbol off the front of a key. -/
def readSymbol? : List UInt8 → Option (Symbol × List UInt8)
  | [] => none
  | Ascii.caret :: rest => some (.negate, rest)
  | Ascii.backslash :: Ascii.lowerX :: high :: low :: rest =>
      (Numeral.readHexPair? high low).map fun b => (.byte b, rest)
  | Ascii.backslash :: b :: rest =>
      if b = Ascii.caret || b = Ascii.comma || b = Ascii.backslash then some (.byte b, rest)
      else none
  | b :: rest => if b = Ascii.backslash then none else some (.byte b, rest)

theorem readSymbol?_length {bytes rest : List UInt8} {a : Symbol}
    (h : readSymbol? bytes = some (a, rest)) : rest.length < bytes.length := by
  unfold readSymbol? at h
  split at h
  · cases h
  · simp only [Option.some.injEq, Prod.mk.injEq] at h
    obtain ⟨_, rfl⟩ := h
    simp
  · obtain ⟨b, _, hb⟩ := Option.map_eq_some_iff.mp h
    simp only [Prod.mk.injEq] at hb
    obtain ⟨_, rfl⟩ := hb
    simp only [List.length_cons]
    omega
  · split at h
    · simp only [Option.some.injEq, Prod.mk.injEq] at h
      obtain ⟨_, rfl⟩ := h
      simp only [List.length_cons]
      omega
    · cases h
  · split at h
    · cases h
    · simp only [Option.some.injEq, Prod.mk.injEq] at h
      obtain ⟨_, rfl⟩ := h
      simp

/-- Reads comma-separated symbols; a comma at the very end is refused. -/
def readSymbols? (bytes : List UInt8) : Option (List Symbol) :=
  match h : readSymbol? bytes with
  | none => none
  | some (a, []) => some [a]
  | some (a, Ascii.comma :: c :: rest) =>
      have : (c :: rest).length < bytes.length := by
        have := readSymbol?_length h
        simp only [List.length_cons] at this ⊢
        omega
      (readSymbols? (c :: rest)).map (a :: ·)
  | some _ => none
termination_by bytes.length

/-- Reads a key; the empty key is refused, so a label that is read has a symbol. -/
def ofKey? (key : String) : Option Label :=
  (readSymbols? key.toUTF8.toList).map ofSymbols

end Label

end PatternCircuit
