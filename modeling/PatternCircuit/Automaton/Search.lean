/-! # Reachable states

Depth-first search over states numbered from zero. A state is marked when it is pushed, so each one
is expanded at most once and as many rounds as there are states suffice. -/

namespace PatternCircuit.Search

/-- Pushes and marks a state, unless it is marked already or no state at all. -/
def visit (frontier : List Nat × Array Bool) (state : Nat) : List Nat × Array Bool :=
  match frontier with
  | (stack, marks) =>
      if marks.getD state true then (stack, marks)
      else (state :: stack, marks.setIfInBounds state true)

/-- Expands one state of the stack per round. -/
def explore (next : Nat → List Nat) : Nat → List Nat × Array Bool → Array Bool
  | 0, (_, marks) => marks
  | _ + 1, ([], marks) => marks
  | rounds + 1, (state :: stack, marks) =>
      explore next rounds ((next state).foldl visit (stack, marks))

/-- The states below `size` that can be reached from the seeds, in ascending order. -/
def reachable (size : Nat) (next : Nat → List Nat) (seeds : List Nat) : List Nat :=
  let marks := explore next size (seeds.foldl visit ([], Array.replicate size false))
  (List.range size).filter fun s => marks.getD s false

end PatternCircuit.Search
