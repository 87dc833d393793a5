import PatternCircuit.Artifact.Basic
import PatternCircuit.Program.Builder

/-! # The journal of a compilation

Compilation and evaluation report what they did as events. A journaled computation keeps the events
that came before a failure. -/

namespace PatternCircuit

inductive Level where
  | debug
  | info
  | warn
deriving DecidableEq, Repr

def Level.text : Level → String
  | debug => "DEBUG"
  | info => "INFO"
  | warn => "WARN"

inductive Event where
  | nfaBuilt (states nodes : Nat)
  | dfaBuilt (states nfaStates : Nat)
  | minimized (states blocks splits : Nat)
  | inverted (states accept anchors : Nat)
  | singleRepeat
  | stepBuilt (ops ranges equalities : Nat) (hits : Hits)
  | repeatedLabel (sub : String) (origins : Nat)
  | subPatternResolved (sub : String) (labels : Nat) (edges : List (Nat × Nat))
  | compiled (pattern : String) (states ops : Nat) (acceptance : Acceptance) (reveals : Nat)
  | evaluated (bytes states : Nat) (verdict : Verdict)
deriving DecidableEq, Repr

namespace Event

def level : Event → Level
  | singleRepeat | repeatedLabel _ _ => .warn
  | compiled _ _ _ _ _ => .info
  | _ => .debug

/-- Pairs between brackets, as in `[(0, 1), (1, 2)]`. -/
def edgesText (edges : List (Nat × Nat)) : String :=
  "[" ++ String.intercalate ", " (edges.map fun e => s!"({e.1}, {e.2})") ++ "]"

def hitsText (h : Hits) : String :=
  "MemoStats \x7b " ++
    s!"equality_hits: {h.equality}, range_hits: {h.range}, or_hits: {h.disjunction}" ++ " \x7d"

def message : Event → String
  | nfaBuilt states nodes => s!"nfa: {states} states from {nodes} ast nodes"
  | dfaBuilt states nfaStates => s!"dfa: {states} states from {nfaStates} nfa states"
  | minimized states blocks splits =>
      s!"minimize: {states} reachable states into {blocks} blocks after {splits} splits"
  | inverted states accept anchors =>
      s!"lowered: {states} states, accept {accept}, {anchors} anchor edges"
  | singleRepeat => "single repeated unit detected; exists acceptance compiled as universal"
  | stepBuilt ops ranges equalities hits =>
      s!"codegen: {ops} ops, {ranges} ranges, {equalities} equalities, memo hits " ++ hitsText hits
  | repeatedLabel sub origins =>
      "sub-pattern " ++ Quoted.quote sub ++
        s!" labels edges from {origins} different states; every occurrence will be revealed"
  | subPatternResolved sub labels edges =>
      "sub-pattern " ++ Quoted.quote sub ++ s!": {labels} labels, edges {edgesText edges}"
  | compiled pattern states ops acceptance reveals =>
      "compiled " ++ Quoted.quote pattern ++
        s!": {states} states, {ops} ops per byte, {acceptance.title} acceptance, {reveals} reveals"
  | evaluated bytes states verdict =>
      s!"evaluated {bytes} bytes over {states} states: {verdict.text}"

end Event

/-- A computation with the events it reported; those before a failure remain. -/
structure Journaled (α : Type) where
  events : List Event
  outcome : Except Error α

namespace Journaled

def ok {α : Type} (a : α) : Journaled α := ⟨[], .ok a⟩

def bind {α β : Type} (x : Journaled α) (f : α → Journaled β) : Journaled β :=
  match x.outcome with
  | .ok a => ⟨x.events ++ (f a).events, (f a).outcome⟩
  | .error e => ⟨x.events, .error e⟩

instance : Monad Journaled where
  pure := ok
  bind := bind

/-- Reports an event. -/
def report (e : Event) : Journaled Unit := ⟨[e], .ok ()⟩

/-- A computation that reports nothing. -/
def ofExcept {α : Type} (x : Except Error α) : Journaled α := ⟨[], x⟩

/-- A computation that reports nothing, its faults wrapped. -/
def lift {α ε : Type} (wrap : ε → Error) (x : Except ε α) : Journaled α :=
  ⟨[], x.mapError wrap⟩

@[simp] theorem outcome_pure {α : Type} (a : α) : (pure a : Journaled α).outcome = .ok a := rfl

@[simp] theorem outcome_report (e : Event) : (report e).outcome = .ok () := rfl

@[simp] theorem outcome_ofExcept {α : Type} (x : Except Error α) : (ofExcept x).outcome = x := rfl

@[simp] theorem outcome_lift {α ε : Type} (wrap : ε → Error) (x : Except ε α) :
    (lift wrap x).outcome = x.mapError wrap := rfl

@[simp] theorem outcome_bind {α β : Type} (x : Journaled α) (f : α → Journaled β) :
    (x >>= f).outcome = (x.outcome >>= fun a => (f a).outcome) := by
  show (bind x f).outcome = _
  unfold bind
  cases x.outcome <;> rfl

end Journaled

end PatternCircuit
