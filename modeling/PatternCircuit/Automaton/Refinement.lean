import PatternCircuit.Automaton.Dfa

/-! # Partition refinement

Blocks of states are split until the states of a block agree, label by label, on the block their
edges lead to. Blocks that still have to act as splitters wait in a queue; when a block that is not
waiting is split, its smaller half joins the queue. -/

namespace PatternCircuit

/-- A partition of states on its way to the coarsest stable one. -/
structure Refinement where
  blocks : Array (List Nat)
  /-- For each state the number of its block. -/
  blockOf : Array Nat
  /-- Numbers of the blocks that still have to split the others. -/
  queue : List Nat
  /-- Which blocks are in the queue. -/
  queued : Array Bool
  /-- States with an edge into the current splitter; none outside a pass. -/
  marked : Array Bool
deriving DecidableEq

namespace Refinement

def isQueued (r : Refinement) (block : Nat) : Bool := r.queued.getD block false

def isMarked (r : Refinement) (state : Nat) : Bool := r.marked.getD state false

def block (r : Refinement) (b : Nat) : List Nat := r.blocks.getD b []

def setMarks (r : Refinement) (states : List Nat) (value : Bool) : Refinement :=
  { r with marked := states.foldl (fun marks s => marks.setIfInBounds s value) r.marked }

def enqueue (r : Refinement) (block : Nat) : Refinement :=
  { r with queue := r.queue ++ [block], queued := r.queued.setIfInBounds block true }

/-- Replaces a block by its marked states and gives the unmarked ones a block of their own. -/
def divide (r : Refinement) (b : Nat) (inside outside : List Nat) : Refinement :=
  { r with
    blocks := (r.blocks.setIfInBounds b inside).push outside
    blockOf := outside.foldl (fun owner s => owner.setIfInBounds s r.blocks.size) r.blockOf
    queued := r.queued.push false }

/-- Splits a block that has both marked and unmarked states. -/
def split (r : Refinement) (b : Nat) : Refinement :=
  let inside := (r.block b).filter r.isMarked
  let outside := (r.block b).filter fun s => !r.isMarked s
  if outside.isEmpty then r
  else
    let fresh := r.blocks.size
    let smaller := if inside.length ≤ outside.length then b else fresh
    let divided := r.divide b inside outside
    if r.isQueued b then divided.enqueue fresh
    else if divided.isQueued smaller then divided
    else divided.enqueue smaller

/-- The numbers of the blocks that hold one of the states, in ascending order. -/
def blocksOf (r : Refinement) (states : List Nat) : List Nat :=
  (sortBy (fun a b => a ≤ b) (states.map fun s => r.blockOf.getD s 0)).eraseDups

/-- One pass: splits every block that has some, but not all, of the predecessors of the splitter. -/
def splitBy (splitter : List Nat) (r : Refinement) (predecessors : Array (List Nat)) : Refinement :=
  let touched := splitter.flatMap fun s => predecessors.getD s []
  if touched.isEmpty then r
  else
    let marked := r.setMarks touched true
    ((marked.blocksOf touched).foldl split marked).setMarks touched false

/-- Takes splitters off the queue, one per round, and lets each act under every label. -/
def run (predecessors : List (Array (List Nat))) : Nat → Refinement → Refinement
  | 0, r => r
  | rounds + 1, r =>
      match r.queue with
      | [] => r
      | b :: rest =>
          let popped := { r with queue := rest, queued := r.queued.setIfInBounds b false }
          run predecessors rounds (predecessors.foldl (splitBy (r.block b)) popped)

/-- The given groups as blocks, all of them waiting; states are below `size`. -/
def start (size : Nat) (groups : List (List Nat)) : Refinement :=
  { blocks := groups.toArray
    blockOf := groups.zipIdx.foldl
      (fun owner g => g.1.foldl (fun owner s => owner.setIfInBounds s g.2) owner)
      (Array.replicate size 0)
    queue := List.range groups.length
    queued := Array.replicate groups.length true
    marked := Array.replicate size false }

end Refinement

end PatternCircuit
