import PatternCircuit.Pattern.Dialect
import PatternCircuit.Pattern.Tree

/-! # Parsing the dialect

The dialect is read by recursive descent over its grammar:

* a choice is one or more sequences separated by bars,
* a sequence is one or more terms,
* a term is an atom followed by postfix operators,
* an atom is a literal, an escaped byte, the negation marker or a choice in parentheses.

`X+` stands for `X` followed by `X*`, and `X?` for `X` or nothing. What is read carries the bytes
that are left behind it, which have become fewer. -/

namespace PatternCircuit.Parser

/-- A tree read off the front of some bytes, the offset behind it and the bytes there. -/
structure Item (bytes : List UInt8) where
  tree : Tree
  stop : Nat
  rest : List UInt8
  shorter : rest.length < bytes.length

/-- Trees read off the front of some bytes, each of one byte at least. -/
structure Items (bytes : List UInt8) where
  trees : List Tree
  stop : Nat
  rest : List UInt8
  shorter : rest.length + trees.length ≤ bytes.length

def isPostfix (byte : UInt8) : Bool :=
  byte = Ascii.star || byte = Ascii.plus || byte = Ascii.question

/-- A postfix operator at `pos` applied to the term before it. -/
def postfixed (operator : UInt8) (pos : Nat) (t : Tree) : Tree :=
  let span : Span := ⟨t.span.start, pos + 1⟩
  if operator = Ascii.star then .star span t
  else if operator = Ascii.plus then .cat span [t, .star span t]
  else .alt span [t, .empty span]

/-- Applies the operators in front of the bytes. -/
def applyOperators (pos : Nat) (t : Tree) : List UInt8 → Tree × Nat × List UInt8
  | [] => (t, pos, [])
  | byte :: rest =>
      if isPostfix byte then applyOperators (pos + 1) (postfixed byte pos t) rest
      else (t, pos, byte :: rest)

theorem length_applyOperators_le (pos : Nat) (t : Tree) (bytes : List UInt8) :
    (applyOperators pos t bytes).2.2.length ≤ bytes.length := by
  induction bytes generalizing pos t with
  | nil => exact Nat.le_refl _
  | cons byte rest ih =>
      rw [applyOperators]
      split
      · exact Nat.le_succ_of_le (ih _ _)
      · exact Nat.le_refl _

/-! ### Assembling what was read -/

section Assembly

variable {bytes : List UInt8}

/-- An atom and the operators behind it. -/
def Item.term (atom : Item bytes) : Item bytes :=
  let applied := applyOperators atom.stop atom.tree atom.rest
  ⟨applied.1, applied.2.1, applied.2.2,
    Nat.lt_of_le_of_lt (length_applyOperators_le _ _ _) atom.shorter⟩

def Items.none (pos : Nat) (bytes : List UInt8) : Items bytes := ⟨[], pos, bytes, Nat.le_refl _⟩

def Items.cons (first : Item bytes) (others : Items first.rest) : Items bytes where
  trees := first.tree :: others.trees
  stop := others.stop
  rest := others.rest
  shorter := by
    have hfirst := first.shorter
    have hothers := others.shorter
    simp only [List.length_cons]
    omega

/-- The same items, one byte further back. -/
def Items.behind (byte : UInt8) (items : Items bytes) : Items (byte :: bytes) :=
  { items with shorter := Nat.le_succ_of_le items.shorter }

/-- The sequence of some terms, of which there has to be one. -/
def Items.sequence (start : Nat) : Items bytes → Except PatternFault (Item bytes)
  | ⟨[], stop, _, _⟩ => .error ⟨.emptyAlternative, stop⟩
  | ⟨t :: ts, stop, rest, shorter⟩ =>
      .ok ⟨.catOf ⟨start, stop⟩ (t :: ts), stop, rest, by
        simp only [List.length_cons] at shorter
        omega⟩

/-- The choice between a sequence and the alternatives to it. -/
def Item.choice (start : Nat) (first : Item bytes) (others : Items first.rest) : Item bytes where
  tree := .altOf ⟨start, others.stop⟩ (first.tree :: others.trees)
  stop := others.stop
  rest := others.rest
  shorter := by
    have hfirst := first.shorter
    have hothers := others.shorter
    omega

/-- The group of a choice behind the parenthesis at `opened`, which has to be closed. -/
def Item.group (opened : Nat) (byte : UInt8) :
    Item bytes → Except PatternFault (Item (byte :: bytes))
  | ⟨_, stop, [], _⟩ => .error ⟨.missingClose opened, stop⟩
  | ⟨t, stop, next :: rest, shorter⟩ =>
      if next = Ascii.closeParen then
        .ok ⟨t.withSpan ⟨opened, stop + 1⟩, stop + 1, rest, by
          simp only [List.length_cons] at shorter ⊢
          omega⟩
      else .error ⟨.missingClose opened, stop⟩

end Assembly

/-! ### Recursive descent -/

mutual

def choice (pos : Nat) (bytes : List UInt8) : Except PatternFault (Item bytes) := do
  let first ← sequence pos bytes
  let others ← barred first.stop first.rest
  pure (first.choice pos others)
termination_by 5 * bytes.length + 4
decreasing_by
  · omega
  · have hfirst := first.shorter
    omega

/-- The sequences that follow, each behind a bar. -/
def barred (pos : Nat) (bytes : List UInt8) : Except PatternFault (Items bytes) :=
  match bytes with
  | [] => pure (.none pos [])
  | byte :: rest =>
      if byte = Ascii.bar then do
        let first ← sequence (pos + 1) rest
        let others ← barred first.stop first.rest
        pure ((Items.cons first others).behind byte)
      else pure (.none pos (byte :: rest))
termination_by 5 * bytes.length
decreasing_by
  · simp only [List.length_cons]
    omega
  · have hfirst := first.shorter
    simp only [List.length_cons]
    omega

def sequence (pos : Nat) (bytes : List UInt8) : Except PatternFault (Item bytes) := do
  let items ← terms pos bytes
  items.sequence pos
termination_by 5 * bytes.length + 3
decreasing_by omega

/-- The terms up to a bar, a closing parenthesis or the end. -/
def terms (pos : Nat) (bytes : List UInt8) : Except PatternFault (Items bytes) :=
  match bytes with
  | [] => pure (.none pos [])
  | byte :: rest =>
      if byte = Ascii.bar || byte = Ascii.closeParen then pure (.none pos (byte :: rest))
      else do
        let first ← term pos (byte :: rest)
        let others ← terms first.stop first.rest
        pure (.cons first others)
termination_by 5 * bytes.length + 2
decreasing_by
  · omega
  · have hfirst := first.shorter
    omega

def term (pos : Nat) (bytes : List UInt8) : Except PatternFault (Item bytes) := do
  let item ← atom pos bytes
  pure item.term
termination_by 5 * bytes.length + 1
decreasing_by omega

def atom (pos : Nat) (bytes : List UInt8) : Except PatternFault (Item bytes) :=
  match bytes with
  | [] => .error ⟨.unexpectedEnd, pos⟩
  | byte :: rest =>
      if byte = Ascii.openParen then do
        let inner ← choice (pos + 1) rest
        inner.group pos byte
      else if isPostfix byte then .error ⟨.danglingPostfix byte, pos⟩
      else if byte = Ascii.backslash then
        match rest with
        | [] => .error ⟨.trailingEscape, pos⟩
        | escaped :: rest =>
            pure ⟨.text ⟨pos, pos + 2⟩ (.byte escaped), pos + 2, rest, by
              simp only [List.length_cons]
              omega⟩
      else if byte = Ascii.caret then
        pure ⟨.text ⟨pos, pos + 1⟩ .negate, pos + 1, rest, Nat.lt_succ_self _⟩
      else pure ⟨.text ⟨pos, pos + 1⟩ (.byte byte), pos + 1, rest, Nat.lt_succ_self _⟩
termination_by 5 * bytes.length
decreasing_by
  simp only [List.length_cons]
  omega

end

/-- The tree of a dialect text. -/
def parse (bytes : List UInt8) : Except PatternFault Tree := do
  let root ← choice 0 bytes
  match root.rest with
  | [] => pure root.tree
  | byte :: _ =>
      if byte = Ascii.closeParen then .error ⟨.unmatchedClose, root.stop⟩
      else .error ⟨.unexpected byte, root.stop⟩

end PatternCircuit.Parser

namespace PatternCircuit

/-- The tree of an expanded pattern; faults are reported at pattern offsets. -/
def Dialect.parse (d : Dialect) : Except Error Tree :=
  match Parser.parse d.bytes with
  | .ok t => .ok t
  | .error fault => .error (.pattern ⟨fault.cause, d.patternOffset fault.offset⟩)

/-- The tree of a pattern. -/
def Tree.ofPattern (pattern : String) : Except Error Tree := do
  let d ← Dialect.expand pattern
  d.parse

end PatternCircuit
