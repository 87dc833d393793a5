import PatternCircuit.Json.Basic
import PatternCircuit.Program.Evaluation

/-! # JSON form of programs and verdicts -/

namespace PatternCircuit

namespace Operand

def toJson : Operand → Json
  | state i => .object [("state", .ofNat i)]
  | nextState i => .object [("next_state", .ofNat i)]
  | changed => .string "changed"
  | carry => .string "carry"
  | node i => .object [("node", .ofNat i)]
  | const b => .object [("const", .bool b)]

def ofVariant? (name : String) : Option Json → Option Operand
  | none =>
      if name = "changed" then some changed
      else if name = "carry" then some carry
      else none
  | some content =>
      if name = "state" then content.word?.map state
      else if name = "next_state" then content.word?.map nextState
      else if name = "node" then content.word?.map node
      else if name = "const" then content.bool?.map const
      else
        match content with
        | .null => ofVariant? name none
        | _ => none

def ofJson? (j : Json) : Option Operand :=
  match j.variant? with
  | some (name, content) => ofVariant? name content
  | none => none

end Operand

namespace Op

def toJson : Op → Json
  | equals code => .object [("is_equal", .object [("code", .ofByte code)])]
  | atLeast bound => .object [("at_least", .object [("bound", .ofByte bound)])]
  | atMost bound => .object [("at_most", .object [("bound", .ofByte bound)])]
  | conj operands => .object [("and", .ofList Operand.toJson operands)]
  | disj operands => .object [("or", .ofList Operand.toJson operands)]
  | neg operand => .object [("not", operand.toJson)]
  | storeState s value =>
      .object [("store_state", .object [("state", .ofNat s), ("value", value.toJson)])]
  | storeChanged value => .object [("store_changed", value.toJson)]
  | storeCarry value => .object [("store_carry", value.toJson)]
  | disclose mask => .object [("reveal", mask.toJson)]

/-- The byte in the only field of an object. -/
def byteField? (name : String) (j : Json) : Option UInt8 :=
  match j.objectRecord? [name] with
  | some [some value] => value.byte?
  | _ => none

def storeStateOfJson? (j : Json) : Option Op :=
  match j.objectRecord? ["state", "value"] with
  | some [some s, some value] => do
      let s ← s.word?
      let value ← Operand.ofJson? value
      pure (storeState s value)
  | _ => none

def ofVariant? (name : String) (content : Json) : Option Op :=
  if name = "is_equal" then (byteField? "code" content).map equals
  else if name = "at_least" then (byteField? "bound" content).map atLeast
  else if name = "at_most" then (byteField? "bound" content).map atMost
  else if name = "and" then (content.list? Operand.ofJson?).map conj
  else if name = "or" then (content.list? Operand.ofJson?).map disj
  else if name = "not" then (Operand.ofJson? content).map neg
  else if name = "store_state" then storeStateOfJson? content
  else if name = "store_changed" then (Operand.ofJson? content).map storeChanged
  else if name = "store_carry" then (Operand.ofJson? content).map storeCarry
  else if name = "reveal" then (Operand.ofJson? content).map disclose
  else none

def ofJson? (j : Json) : Option Op :=
  match j.variant? with
  | some (name, some content) => ofVariant? name content
  | _ => none

end Op

namespace Acceptance

def toJson (a : Acceptance) : Json := .string a.name

def ofJson? (j : Json) : Option Acceptance := j.plainVariant?.bind ofName?

end Acceptance

def edgesToJson (edges : List (Nat × Nat)) : Json := .ofList .ofPair edges

def edgesOfJson? (j : Json) : Option (List (Nat × Nat)) :=
  j.list? (Json.pair? Json.word? Json.word?)

namespace Reveal

def toJson (r : Reveal) : Json :=
  .object [("name", .string r.name), ("edges", edgesToJson r.edges),
    ("step", .ofList Op.toJson r.step)]

def ofJson? (j : Json) : Option Reveal :=
  match j.record? ["name", "edges", "step"] with
  | some [some name, some edges, some step] => do
      let name ← name.string?
      let edges ← edgesOfJson? edges
      let step ← step.list? Op.ofJson?
      pure ⟨name, edges, step⟩
  | _ => none

end Reveal

namespace Program

def toJson (p : Program) : Json :=
  .object [("state_count", .ofNat p.stateCount), ("accept_state", .ofNat p.acceptState),
    ("acceptance", p.acceptance.toJson), ("step", .ofList Op.toJson p.step),
    ("reveals", .ofList Reveal.toJson p.reveals)]

def ofJson? (j : Json) : Option Program :=
  match j.record? ["state_count", "accept_state", "acceptance", "step", "reveals"] with
  | some [some count, some accept, some acceptance, some step, some reveals] => do
      let count ← count.word?
      let accept ← accept.word?
      let acceptance ← Acceptance.ofJson? acceptance
      let step ← step.list? Op.ofJson?
      let reveals ← reveals.list? Reveal.ofJson?
      pure ⟨count, accept, acceptance, step, reveals⟩
  | _ => none

end Program

def Verdict.toJson : Verdict → Json
  | .matched holds => .object [("match", .bool holds)]
  | .counted times => .object [("count", .ofNat times)]

end PatternCircuit
