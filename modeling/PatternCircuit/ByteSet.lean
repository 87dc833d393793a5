import PatternCircuit.Text.Ascii
import PatternCircuit.Text.Numeral

/-! # Sets of byte codes

A set is kept in four 64-bit words; bit `b % 64` of word `b / 64` says whether code `b` is a member.
Its canonical decomposition is the list of maximal runs of consecutive codes. -/

namespace PatternCircuit

/-- A set of byte codes. -/
@[ext]
structure ByteSet where
  word0 : UInt64
  word1 : UInt64
  word2 : UInt64
  word3 : UInt64
deriving DecidableEq

namespace ByteSet

/-! ### Words -/

def word (s : ByteSet) : Fin 4 → UInt64
  | 0 => s.word0
  | 1 => s.word1
  | 2 => s.word2
  | 3 => s.word3

def ofWords (f : Fin 4 → UInt64) : ByteSet := ⟨f 0, f 1, f 2, f 3⟩

theorem toNat_shiftRight_six (b : UInt8) : (b >>> 6).toNat = b.toNat / 64 := by
  simp [Nat.shiftRight_eq_div_pow]

theorem toNat_shiftRight_six_lt (b : UInt8) : (b >>> 6).toNat < 4 := by
  have hlt := b.toNat_lt
  rw [toNat_shiftRight_six]
  omega

/-- The word in which a code is kept, and its bit in that word. -/
def slot (b : UInt8) : Fin 4 × UInt64 :=
  (⟨(b >>> 6).toNat, toNat_shiftRight_six_lt b⟩, 1 <<< (b &&& 63).toUInt64)

/-- Changes one word. -/
def modify (s : ByteSet) (i : Fin 4) (f : UInt64 → UInt64) : ByteSet :=
  ofWords fun j => if j = i then f (s.word j) else s.word j

/-- Combines the words of two sets one by one. -/
def zipWith (f : UInt64 → UInt64 → UInt64) (s t : ByteSet) : ByteSet :=
  ofWords fun i => f (s.word i) (t.word i)

/-! ### Members -/

def empty : ByteSet := ofWords fun _ => 0

def full : ByteSet := ofWords fun _ => ~~~0

instance : Inhabited ByteSet := ⟨empty⟩

def contains (s : ByteSet) (b : UInt8) : Bool := s.word (slot b).1 &&& (slot b).2 != 0

instance : Membership UInt8 ByteSet := ⟨fun s b => s.contains b = true⟩

instance (b : UInt8) (s : ByteSet) : Decidable (b ∈ s) :=
  inferInstanceAs (Decidable (s.contains b = true))

def isEmpty (s : ByteSet) : Bool := (List.finRange 4).all fun i => s.word i == 0

def insert (s : ByteSet) (b : UInt8) : ByteSet := s.modify (slot b).1 (· ||| (slot b).2)

def erase (s : ByteSet) (b : UInt8) : ByteSet := s.modify (slot b).1 (· &&& ~~~(slot b).2)

/-- Inserts a code and tells whether it was missing before. -/
def add (s : ByteSet) (b : UInt8) : Bool × ByteSet := (!s.contains b, s.insert b)

/-- Erases a code and tells whether it was a member before. -/
def remove (s : ByteSet) (b : UInt8) : Bool × ByteSet := (s.contains b, s.erase b)

def singleton (b : UInt8) : ByteSet := empty.insert b

def union (s t : ByteSet) : ByteSet := zipWith (· ||| ·) s t

def inter (s t : ByteSet) : ByteSet := zipWith (· &&& ·) s t

def diff (s t : ByteSet) : ByteSet := zipWith (fun v w => v &&& ~~~w) s t

def compl (s : ByteSet) : ByteSet := ofWords fun i => ~~~s.word i

/-- The number of members, counted word by word. -/
def size (s : ByteSet) : Nat :=
  (List.finRange 4).foldl (fun n i => n + (s.word i).toBitVec.cpop.toNat) 0

def isSubset (s t : ByteSet) : Bool := (s.diff t).isEmpty

/-- Inserts every code of a list. -/
def insertAll (s : ByteSet) (bs : List UInt8) : ByteSet := bs.foldl insert s

def ofList (bs : List UInt8) : ByteSet := empty.insertAll bs

/-- All byte codes in ascending order. -/
def codes : List UInt8 := (List.range 256).map UInt8.ofNat

/-- The codes from `lo` to `hi`, both included; none when `lo` exceeds `hi`. -/
def interval (lo hi : UInt8) : List UInt8 := codes.filter fun b => lo ≤ b && b ≤ hi

def ofRange (lo hi : UInt8) : ByteSet := ofList (interval lo hi)

/-- The members in ascending order. -/
def toList (s : ByteSet) : List UInt8 := codes.filter s.contains

def min? (s : ByteSet) : Option UInt8 := s.toList.head?

def max? (s : ByteSet) : Option UInt8 := s.toList.getLast?

/-- Adds the next code in ascending order to the runs so far, which are listed latest first: the
latest run grows by the code that follows it, any other code starts a run. -/
def extendRuns : List (UInt8 × UInt8) → UInt8 → List (UInt8 × UInt8)
  | [], b => [(b, b)]
  | (lo, hi) :: rest, b =>
      if hi.toNat + 1 = b.toNat then (lo, b) :: rest else (b, b) :: (lo, hi) :: rest

/-- The maximal runs of consecutive members as inclusive pairs, in ascending order. -/
def runs (s : ByteSet) : List (UInt8 × UInt8) := (s.toList.foldl extendRuns []).reverse

/-! ### Text -/

/-- A byte between quotes: usual escapes, printable ASCII as it stands, otherwise hexadecimal. -/
def escapedByte (b : UInt8) : String :=
  if b = 9 then "\\t"
  else if b = 13 then "\\r"
  else if b = 10 then "\\n"
  else if b = 39 then "\\'"
  else if b = 34 then "\\\""
  else if b = 92 then "\\\\"
  else if Ascii.isPrintable b then String.singleton (Ascii.toChar b)
  else "\\x" ++ Numeral.hexByte b

def runText (run : UInt8 × UInt8) : String :=
  if run.1 = run.2 then escapedByte run.1
  else escapedByte run.1 ++ "-" ++ escapedByte run.2

/-- The runs between braces, as in `{a-c, x}`. -/
def text (s : ByteSet) : String :=
  "\x7b" ++ String.intercalate ", " (s.runs.map runText) ++ "\x7d"

end ByteSet

end PatternCircuit
