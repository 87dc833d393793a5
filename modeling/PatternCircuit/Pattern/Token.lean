import PatternCircuit.ByteSet
import PatternCircuit.Error
import PatternCircuit.Outcome

/-! # Pattern tokens

A pattern is read as a sequence of tokens: escapes, bracket classes and single bytes. Each token
has an expansion in the dialect, which knows literals, escaped literals, the negation marker,
groups, alternatives and postfix operators only. -/

namespace PatternCircuit

inductive Token where
  /-- A byte that the dialect takes as it stands, operators included. -/
  | plain (byte : UInt8)
  /-- An escape that denotes a control code. -/
  | control (code : UInt8)
  /-- A byte that is written behind a backslash in the dialect. -/
  | escaped (byte : UInt8)
  /-- One byte among the members or, if negated, one byte outside them. -/
  | oneOf (negated : Bool) (members : List UInt8)
deriving DecidableEq, Repr

namespace Token

/-! ### Escapes -/

/-- The control code that a letter denotes behind a backslash. -/
def control? (letter : UInt8) : Option UInt8 :=
  if letter = 110 then some 10
  else if letter = 114 then some 13
  else if letter = 116 then some 9
  else if letter = 118 then some 11
  else if letter = 102 then some 12
  else none

/-- The class that a letter denotes behind a backslash: digits, word characters or blanks. -/
def shorthand? (letter : UInt8) : Option (List UInt8) :=
  if letter = 100 then some (ByteSet.interval 48 57)
  else if letter = 119 then
    some (ByteSet.interval 48 57 ++ ByteSet.interval 65 90 ++ [95] ++ ByteSet.interval 97 122)
  else if letter = 115 then some [32, 9, 10, 11, 12, 13]
  else none

/-- The token of a backslash followed by `letter`. -/
def ofEscape (letter : UInt8) : Token :=
  match shorthand? letter with
  | some members => oneOf false members
  | none =>
      match control? letter with
      | some code => control code
      | none => escaped letter

/-! ### Classes -/

/-- The members that a backslash followed by `letter` adds to a class. -/
def escapedMembers (letter : UInt8) : List UInt8 :=
  match shorthand? letter with
  | some members => members
  | none => [(control? letter).getD letter]

/-- What is wrong with the range from `lo` to `hi` at `offset`. -/
def rangeFault? (lo hi : UInt8) (offset : Nat) : Option RangeFault :=
  if Ascii.family? lo ≠ Ascii.family? hi then some ⟨true, lo, hi, offset⟩
  else if hi ≤ lo then some ⟨false, lo, hi, offset⟩
  else none

/-- A dash between letters or digits makes a range. -/
def isRange (lo dash hi : UInt8) : Bool :=
  dash = Ascii.dash && (Ascii.family? lo).isSome && (Ascii.family? hi).isSome

/-- Reads the members of the class opened at offset `opened` up to its closing bracket. The result
holds the members in order of appearance, the offset behind the bracket and the bytes there. -/
def classMembers (opened : Nat) : Nat → List UInt8 → Except Error (List UInt8 × Nat × List UInt8)
  | _, [] => .error (.pattern ⟨.unterminatedClass, opened⟩)
  | pos, Ascii.closeBracket :: rest => .ok ([], pos + 1, rest)
  | pos, [Ascii.backslash] => .error (.pattern ⟨.trailingEscape, pos⟩)
  | pos, Ascii.backslash :: letter :: rest => do
      let (members, stop, rest) ← classMembers opened (pos + 2) rest
      pure (escapedMembers letter ++ members, stop, rest)
  | pos, lo :: dash :: hi :: rest =>
      if isRange lo dash hi then
        match rangeFault? lo hi pos with
        | some fault => .error (.range fault)
        | none => do
            let (members, stop, rest) ← classMembers opened (pos + 3) rest
            pure (ByteSet.interval lo hi ++ members, stop, rest)
      else do
        let (members, stop, rest) ← classMembers opened (pos + 1) (dash :: hi :: rest)
        pure (lo :: members, stop, rest)
  | pos, byte :: rest => do
      let (members, stop, rest) ← classMembers opened (pos + 1) rest
      pure (byte :: members, stop, rest)

theorem classMembers_length {opened pos : Nat} {bytes members rest : List UInt8} {stop : Nat}
    (h : classMembers opened pos bytes = .ok (members, stop, rest)) :
    rest.length < bytes.length := by
  fun_induction classMembers opened pos bytes generalizing members stop rest with
  | case1 => cases h
  | case2 =>
      cases h
      simp
  | case3 => cases h
  | case4 pos letter tail ih =>
      obtain ⟨⟨ms, st, rs⟩, hr, he⟩ := Outcome.bind_eq_ok.mp h
      have hl := ih hr
      cases he
      simp only [List.length_cons]
      omega
  | case5 => cases h
  | case6 pos lo dash hi tail _ _ _ _ ih =>
      obtain ⟨⟨ms, st, rs⟩, hr, he⟩ := Outcome.bind_eq_ok.mp h
      have hl := ih hr
      cases he
      simp only [List.length_cons]
      omega
  | case7 pos lo dash hi tail _ _ _ ih =>
      obtain ⟨⟨ms, st, rs⟩, hr, he⟩ := Outcome.bind_eq_ok.mp h
      have hl := ih hr
      cases he
      simp only [List.length_cons] at hl ⊢
      omega
  | case8 pos byte tail _ _ _ _ ih =>
      obtain ⟨⟨ms, st, rs⟩, hr, he⟩ := Outcome.bind_eq_ok.mp h
      have hl := ih hr
      cases he
      simp only [List.length_cons]
      omega

/-- Keeps the first occurrence of every byte that is not in `seen`. -/
def distinct (seen : ByteSet) : List UInt8 → List UInt8
  | [] => []
  | b :: rest => if seen.contains b then distinct seen rest else b :: distinct (seen.insert b) rest

/-- Splits the negation mark off the bytes behind an opening bracket. -/
def negation : List UInt8 → Bool × List UInt8
  | Ascii.caret :: rest => (true, rest)
  | bytes => (false, bytes)

/-- The token of a class, given the offset of its opening bracket and the bytes behind it. -/
def readClass (opened : Nat) (bytes : List UInt8) : Except Error (Token × Nat × List UInt8) := do
  let mark := negation bytes
  let (members, stop, rest) ← classMembers opened (opened + 1 + mark.1.toNat) mark.2
  if members.isEmpty then .error (.pattern ⟨.emptyClass, opened⟩)
  else pure (oneOf mark.1 (distinct .empty members), stop, rest)

theorem negation_length (bytes : List UInt8) : (negation bytes).2.length ≤ bytes.length := by
  unfold negation
  split
  · simp
  · exact Nat.le_refl _

theorem readClass_length {opened stop : Nat} {bytes rest : List UInt8} {token : Token}
    (h : readClass opened bytes = .ok (token, stop, rest)) : rest.length < bytes.length := by
  obtain ⟨⟨members, st, rs⟩, hr, he⟩ := Outcome.bind_eq_ok.mp h
  have hl := classMembers_length hr
  have hn := negation_length bytes
  dsimp only at he
  split at he
  · cases he
  · cases he
    omega

/-! ### Expansion -/

/-- The bytes that have a meaning of their own in patterns. -/
def operators : List UInt8 :=
  [Ascii.openParen, Ascii.closeParen, Ascii.bar, Ascii.star, Ascii.plus, Ascii.question,
    Ascii.backslash, Ascii.caret, Ascii.openBracket, Ascii.closeBracket]

/-- A class member in the dialect, behind a backslash where it would be read as an operator. -/
def member (byte : UInt8) : List UInt8 :=
  if operators.contains byte then [Ascii.backslash, byte] else [byte]

/-- The alternatives of a class, separated by bars; a negated class starts with the marker. -/
def alternatives (negated : Bool) (members : List UInt8) : List (List UInt8) :=
  (if negated then [[Ascii.caret]] else []) ++ members.map member

/-- The token written in the dialect. -/
def expansion : Token → List UInt8
  | plain byte => [byte]
  | control code => [code]
  | escaped byte => [Ascii.backslash, byte]
  | oneOf negated members =>
      Ascii.openParen :: (List.intercalate [Ascii.bar] (alternatives negated members) ++
        [Ascii.closeParen])

/-! ### Tokens of a pattern -/

/-- Reads the tokens of the bytes from offset `pos` on, each with the offset it starts at. -/
def readAll (pos : Nat) (bytes : List UInt8) : Except Error (List (Nat × Token)) :=
  match bytes with
  | [] => .ok []
  | [Ascii.backslash] => .error (.pattern ⟨.trailingEscape, pos⟩)
  | Ascii.backslash :: letter :: rest => do
      let tokens ← readAll (pos + 2) rest
      pure ((pos, ofEscape letter) :: tokens)
  | Ascii.openBracket :: rest =>
      match h : readClass pos rest with
      | .error e => .error e
      | .ok (token, stop, tail) => do
          have := readClass_length h
          let tokens ← readAll stop tail
          pure ((pos, token) :: tokens)
  | Ascii.caret :: _ => .error (.pattern ⟨.bareCaret, pos⟩)
  | Ascii.closeBracket :: rest => do
      let tokens ← readAll (pos + 1) rest
      pure ((pos, escaped Ascii.closeBracket) :: tokens)
  | byte :: rest => do
      let tokens ← readAll (pos + 1) rest
      pure ((pos, plain byte) :: tokens)
termination_by bytes.length
decreasing_by all_goals simp only [List.length_cons]; omega

end Token

end PatternCircuit
