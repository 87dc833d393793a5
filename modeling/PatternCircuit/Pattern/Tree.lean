import PatternCircuit.Symbol

/-! # Pattern trees

Every node carries the span of dialect bytes it was read from. -/

namespace PatternCircuit

/-- The bytes from `start` up to but not including `stop`. -/
structure Span where
  start : Nat
  stop : Nat
deriving DecidableEq, Repr

inductive Tree where
  | empty (span : Span)
  | text (span : Span) (symbol : Symbol)
  | cat (span : Span) (parts : List Tree)
  | alt (span : Span) (parts : List Tree)
  | star (span : Span) (body : Tree)

namespace Tree

instance : Inhabited Tree := ⟨empty ⟨0, 0⟩⟩

def span : Tree → Span
  | empty s | text s _ | cat s _ | alt s _ | star s _ => s

/-- The same node over another span. -/
def withSpan (t : Tree) (s : Span) : Tree :=
  match t with
  | empty _ => empty s
  | text _ a => text s a
  | cat _ parts => cat s parts
  | alt _ parts => alt s parts
  | star _ body => star s body

/-- A concatenation of the parts; a single part stands for itself. -/
def catOf (s : Span) : List Tree → Tree
  | [t] => t
  | parts => cat s parts

/-- A choice between the parts; a single part stands for itself. -/
def altOf (s : Span) : List Tree → Tree
  | [t] => t
  | parts => alt s parts

mutual

/-- The number of nodes. -/
def size : Tree → Nat
  | empty _ => 1
  | text _ _ => 1
  | cat _ parts => 1 + sizeAll parts
  | alt _ parts => 1 + sizeAll parts
  | star _ body => 1 + size body

def sizeAll : List Tree → Nat
  | [] => 0
  | t :: rest => size t + sizeAll rest

end

end Tree

end PatternCircuit
