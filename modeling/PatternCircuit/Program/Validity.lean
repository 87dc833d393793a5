import PatternCircuit.Error

/-! # Well-formed programs

A step reads nothing but what is computed before it. The transition step stores every state and the
change flag exactly once; a reveal step stores one carry, discloses once and stores no state. -/

namespace PatternCircuit

inductive StepKind where
  | transition
  | reveal
deriving DecidableEq, Repr

/-- Node `id` of a step may read the operand. -/
def Operand.readable (count : Nat) (kind : StepKind) (step : List Op) (id : Nat) : Operand → Bool
  | const _ => true
  | state i => i < count
  | nextState i => kind == .reveal && i < count
  | changed => kind == .reveal
  | carry => kind == .reveal
  | node target => target < id && (step[target]?.map Op.isValue).getD false

/-- The first thing wrong with node `id` of a step. -/
def Op.fault? (count : Nat) (kind : StepKind) (name : String) (step : List Op) (id : Nat)
    (op : Op) : Option ProgramFault :=
  match op.storedState?.filter fun s => count ≤ s with
  | some s => some (.unknownState name id s)
  | none =>
      (op.operands.find? fun o => !o.readable count kind step id).map (.unreadable name id)

/-- The first thing wrong with the nodes from number `id` on. -/
def nodesFault? (count : Nat) (kind : StepKind) (name : String) (step : List Op) :
    Nat → List Op → Option ProgramFault
  | _, [] => none
  | id, op :: rest =>
      match op.fault? count kind name step id with
      | some fault => some fault
      | none => nodesFault? count kind name step (id + 1) rest

def stepFault? (count : Nat) (kind : StepKind) (name : String) (step : List Op) :
    Option ProgramFault :=
  nodesFault? count kind name step 0 step

/-- How often a step stores a state. -/
def storeCount (step : List Op) (state : Nat) : Nat :=
  step.countP fun op => op.storedState? == some state

/-- The first of `remaining` states from `state` on that is not stored exactly once. -/
def miscounted? (step : List Op) : (remaining state : Nat) → Option Nat
  | 0, _ => none
  | remaining + 1, state =>
      if storeCount step state = 1 then miscounted? step remaining (state + 1) else some state

namespace Reveal

/-- The first thing wrong with a reveal of an automaton with `count` states. -/
def fault? (count : Nat) (r : Reveal) : Option ProgramFault :=
  match stepFault? count .reveal r.name r.step with
  | some fault => some fault
  | none =>
      if r.step.countP Op.isStoreCarry ≠ 1 ∨ r.step.countP Op.isDisclose ≠ 1 then
        some (.revealStores r.name)
      else if r.step.any fun op => op.storedState?.isSome || op.isStoreChanged then
        some (.revealWritesState r.name)
      else
        (r.edges.find? fun e => count ≤ e.1 || count ≤ e.2).map fun e => .revealEdge r.name e.1 e.2

end Reveal

namespace Program

/-- The first thing wrong with the transition step. -/
def transitionFault? (p : Program) : Option ProgramFault :=
  match stepFault? p.stateCount .transition "transition" p.step with
  | some fault => some fault
  | none =>
      if p.step.any fun op => op.isStoreCarry || op.isDisclose then some .revealStore
      else
        match miscounted? p.step p.stateCount 0 with
        | some s => some (.stateStores s (storeCount p.step s))
        | none => if p.step.countP Op.isStoreChanged = 1 then none else some .changedStores

/-- The first thing wrong with a program. -/
def fault? (p : Program) : Option ProgramFault :=
  if p.stateCount < 2 then some (.tooFewStates p.stateCount)
  else if p.acceptState = 0 ∨ p.stateCount ≤ p.acceptState then
    some (.acceptOutOfRange p.acceptState p.stateCount)
  else
    match p.transitionFault? with
    | some fault => some fault
    | none => p.reveals.findSome? (Reveal.fault? p.stateCount)

def validate (p : Program) : Except ProgramFault Unit :=
  match p.fault? with
  | some fault => .error fault
  | none => .ok ()

end Program

end PatternCircuit
