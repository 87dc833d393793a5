import PatternCircuit.Artifact.Basic
import PatternCircuit.Proofs.Automaton.Canonical
import PatternCircuit.Proofs.Json

/-! # Artifacts and options survive their JSON form

Every constructor and every record is read back from what is written for it. The values that are
refused hold a number that is no word. -/

namespace PatternCircuit

open Json

/-! ### Programs -/

/-- Its number is a word. -/
def Operand.Fits : Operand → Prop
  | state i | nextState i | node i => i < Numeral.wordBound
  | changed | carry | const _ => True

theorem Operand.roundTrips : RoundTrips toJson ofJson? Fits := by
  intro o p
  cases o with
  | state i => simp [toJson, ofJson?, variant?, ofVariant?, Fits, roundTrips_word.map_eq_some]
  | nextState i => simp [toJson, ofJson?, variant?, ofVariant?, Fits, roundTrips_word.map_eq_some]
  | changed => simp [toJson, ofJson?, variant?, ofVariant?, Fits]
  | carry => simp [toJson, ofJson?, variant?, ofVariant?, Fits]
  | node i => simp [toJson, ofJson?, variant?, ofVariant?, Fits, roundTrips_word.map_eq_some]
  | const b => simp [toJson, ofJson?, variant?, ofVariant?, Fits, roundTrips_bool.map_eq_some]

namespace Op

/-- Its operands fit, and the state that it stores is a word. -/
def Fits (op : Op) : Prop :=
  (∀ o ∈ op.operands, o.Fits) ∧ ∀ s, op.storedState? = some s → s < Numeral.wordBound

theorem byteField?_object (name : String) (b : UInt8) :
    byteField? name (.object [(name, .ofByte b)]) = some b := by
  simp [byteField?, objectRecord?, fieldsOf?, single?, values, roundTrips_byte b]

theorem storeStateOfJson?_eq_some {s : Nat} {o : Operand} {op : Op} :
    storeStateOfJson? (.object [("state", .ofNat s), ("value", o.toJson)]) = some op ↔
      (s < Numeral.wordBound ∧ o.Fits) ∧ storeState s o = op := by
  simp [storeStateOfJson?, objectRecord?, fieldsOf?, single?, values, roundTrips_word.bind_eq_some,
    Operand.roundTrips.bind_eq_some, and_assoc]

theorem roundTrips : RoundTrips toJson ofJson? Fits := by
  have hoperands := roundTrips_list Operand.roundTrips
  intro op op'
  cases op with
  | equals code =>
      simp [toJson, ofJson?, variant?, ofVariant?, byteField?_object, Fits, operands, storedState?]
  | atLeast bound =>
      simp [toJson, ofJson?, variant?, ofVariant?, byteField?_object, Fits, operands, storedState?]
  | atMost bound =>
      simp [toJson, ofJson?, variant?, ofVariant?, byteField?_object, Fits, operands, storedState?]
  | conj os =>
      simp [toJson, ofJson?, variant?, ofVariant?, hoperands.map_eq_some, Fits, operands,
        storedState?]
  | disj os =>
      simp [toJson, ofJson?, variant?, ofVariant?, hoperands.map_eq_some, Fits, operands,
        storedState?]
  | neg o =>
      simp [toJson, ofJson?, variant?, ofVariant?, Operand.roundTrips.map_eq_some, Fits, operands,
        storedState?]
  | storeState s o =>
      simp [toJson, ofJson?, variant?, ofVariant?, storeStateOfJson?_eq_some, Fits, operands,
        storedState?, and_comm]
  | storeChanged o =>
      simp [toJson, ofJson?, variant?, ofVariant?, Operand.roundTrips.map_eq_some, Fits, operands,
        storedState?]
  | storeCarry o =>
      simp [toJson, ofJson?, variant?, ofVariant?, Operand.roundTrips.map_eq_some, Fits, operands,
        storedState?]
  | disclose o =>
      simp [toJson, ofJson?, variant?, ofVariant?, Operand.roundTrips.map_eq_some, Fits, operands,
        storedState?]

end Op

theorem Acceptance.roundTrips : RoundTrips toJson ofJson? fun _ => True := by
  intro a b
  cases a <;> simp [toJson, ofJson?, plainVariant?, variant?, name, ofName?]

/-- The ends of all edges are words. -/
def EdgesFit (edges : List (Nat × Nat)) : Prop :=
  ∀ e ∈ edges, e.1 < Numeral.wordBound ∧ e.2 < Numeral.wordBound

theorem roundTrips_edges : RoundTrips edgesToJson edgesOfJson? EdgesFit :=
  roundTrips_list (roundTrips_pair roundTrips_word roundTrips_word)

/-- All numbers of a reveal are words. -/
@[mk_iff]
structure Reveal.Fits (r : Reveal) : Prop where
  edges : EdgesFit r.edges
  step : ∀ op ∈ r.step, op.Fits

theorem Reveal.roundTrips : RoundTrips toJson ofJson? Fits := by
  intro r s
  have hrecord : r.toJson.record? ["name", "edges", "step"] =
      some [some (.string r.name), some (edgesToJson r.edges), some (.ofList Op.toJson r.step)] :=
    record?_object (by simp)
  simp only [ofJson?, hrecord, Option.bind_eq_bind, roundTrips_string.bind_eq_some,
    roundTrips_edges.bind_eq_some, (roundTrips_list Op.roundTrips).bind_eq_some, Option.pure_def,
    Option.some.injEq, fits_iff, true_and, and_assoc]

/-- All numbers of a program are words. -/
@[mk_iff]
structure Program.Fits (p : Program) : Prop where
  stateCount : p.stateCount < Numeral.wordBound
  acceptState : p.acceptState < Numeral.wordBound
  step : ∀ op ∈ p.step, op.Fits
  reveals : ∀ r ∈ p.reveals, r.Fits

theorem Program.roundTrips : RoundTrips toJson ofJson? Fits := by
  intro p q
  have hrecord : p.toJson.record? ["state_count", "accept_state", "acceptance", "step", "reveals"] =
      some [some (.ofNat p.stateCount), some (.ofNat p.acceptState), some p.acceptance.toJson,
        some (.ofList Op.toJson p.step), some (.ofList Reveal.toJson p.reveals)] :=
    record?_object (by simp)
  simp only [ofJson?, hrecord, Option.bind_eq_bind, roundTrips_word.bind_eq_some,
    Acceptance.roundTrips.bind_eq_some, (roundTrips_list Op.roundTrips).bind_eq_some,
    (roundTrips_list Reveal.roundTrips).bind_eq_some, Option.pure_def, Option.some.injEq, fits_iff,
    true_and, and_assoc]

/-! ### Graphs -/

/-- Ascending entries are kept as they are. -/
theorem Transitions.ofList_entries (t : Transitions) : ofList t.entries = t := by
  have hnodup : (t.entries.map Prod.fst).Nodup :=
    List.pairwise_map.mpr (t.ordered.imp And.right)
  apply Transitions.ext
  refine (entries_ofList_perm hnodup).eq_of_pairwise ?_ (ofList t.entries).ordered t.ordered
  intro e f _ _ hef hfe
  exact absurd (Lexicographic.textLe_antisymm hef.1 hfe.1) hef.2

namespace GraphState

/-- The targets are words. -/
def Fits (s : GraphState) : Prop := ∀ e ∈ s.transitions.entries, e.2 < Numeral.wordBound

theorem readEntries_eq_some {entries entries' : List (String × Nat)} :
    readEntries (entries.map fun e => (e.1, .ofNat e.2)) = some entries' ↔
      (∀ e ∈ entries, e.2 < Numeral.wordBound) ∧ entries = entries' := by
  induction entries generalizing entries' with
  | nil => simp [readEntries]
  | cons e entries ih =>
      simp only [List.map_cons, readEntries, Option.bind_eq_bind, roundTrips_word.bind_eq_some,
        Option.bind_eq_some_iff, ih, Option.pure_def, Option.some.injEq, List.forall_mem_cons,
        and_assoc, exists_and_left, exists_eq_left']

theorem acceptOfJson?_eq_some {accept accept' : Bool} :
    acceptOfJson? (.string (if accept then "accept" else "normal")) = some accept' ↔
      accept = accept' := by
  cases accept <;> simp [acceptOfJson?, plainVariant?, variant?]

theorem roundTrips : RoundTrips toJson ofJson? Fits := by
  intro s t
  have hrecord : s.toJson.record? ["type", "transition"] =
      some [some (.string (if s.accept then "accept" else "normal")),
        some (.object (s.transitions.entries.map fun e => (e.1, .ofNat e.2)))] :=
    record?_object (by simp)
  simp only [ofJson?, hrecord, Option.bind_eq_bind, Option.bind_eq_some_iff, acceptOfJson?_eq_some,
    transitionsOfJson?, Option.map_eq_some_iff, readEntries_eq_some, Option.pure_def,
    Option.some.injEq, Transitions.ofList_entries, Fits, and_assoc, exists_and_left,
    exists_eq_left']

end GraphState

theorem roundTrips_graph :
    RoundTrips graphToJson graphOfJson? fun graph => ∀ s ∈ graph, s.Fits :=
  roundTrips_list GraphState.roundTrips

/-! ### Artifacts -/

namespace Metadata

/-- All numbers are words. -/
@[mk_iff]
structure Fits (m : Metadata) : Prop where
  stateCount : m.stateCount < Numeral.wordBound
  acceptState : m.acceptState < Numeral.wordBound
  stepOps : m.stepOps < Numeral.wordBound
  anchors : ∀ target ∈ m.anchors, target < Numeral.wordBound

theorem roundTrips_anchor : RoundTrips anchorToJson anchorOfJson? (· < Numeral.wordBound) := by
  intro n m
  have hrecord : (anchorToJson n).record? ["target"] = some [some (.ofNat n)] :=
    record?_object (by simp)
  rw [anchorOfJson?, hrecord]
  exact roundTrips_word n m

theorem roundTrips : RoundTrips toJson ofJson? Fits := by
  intro m n
  have hrecord : m.toJson.record? ["state_count", "accept_state", "ranges", "equalities",
      "step_ops", "anchors", "idle_loop"] =
      some [some (.ofNat m.stateCount), some (.ofNat m.acceptState),
        some (.ofList rangeToJson m.ranges), some (.ofList .ofByte m.equalities),
        some (.ofNat m.stepOps), some (.ofList anchorToJson m.anchors),
        some (.ofList .ofByte m.idle.toList)] :=
    record?_object (by simp)
  have hbytes := roundTrips_list roundTrips_byte
  have hranges : RoundTrips (Json.ofList rangeToJson) _ _ :=
    roundTrips_list (roundTrips_pair roundTrips_byte roundTrips_byte)
  simp only [ofJson?, hrecord, Option.bind_eq_bind, roundTrips_word.bind_eq_some,
    hbytes.bind_eq_some, hranges.bind_eq_some, (roundTrips_list roundTrips_anchor).bind_eq_some,
    ByteSet.ofList_toList, Option.pure_def, Option.some.injEq, fits_iff, implies_true, true_and,
    and_assoc]

end Metadata

/-- All numbers of an artifact are words. -/
@[mk_iff]
structure Artifact.Fits (a : Artifact) : Prop where
  program : a.program.Fits
  graph : ∀ s ∈ a.graph, s.Fits
  metadata : a.metadata.Fits

theorem Artifact.roundTrips : RoundTrips toJson ofJson? Fits := by
  intro a b
  have hrecord : a.toJson.record? ["pattern", "program", "graph", "metadata"] =
      some [some (.string a.pattern), some a.program.toJson, some (graphToJson a.graph),
        some a.metadata.toJson] :=
    record?_object (by simp)
  simp only [ofJson?, hrecord, Option.bind_eq_bind, roundTrips_string.bind_eq_some,
    Program.roundTrips.bind_eq_some, roundTrips_graph.bind_eq_some,
    Metadata.roundTrips.bind_eq_some, Option.pure_def, Option.some.injEq, fits_iff, true_and,
    and_assoc]

/-! ### Options -/

namespace RevealRequest

/-- The ends of the edges are words. -/
def Fits : RevealRequest → Prop
  | substring _ _ => True
  | edges _ es => EdgesFit es

theorem isSound_toJson (r : RevealRequest) : r.toJson.isSound maxLevels = true := by
  cases r with
  | substring pattern name => cases name <;> rfl
  | edges name es => simp [toJson, isSound, maxLevels, edgesToJson, ofList, ofPair, ofNat]

theorem ofJson?_object {fields : List (String × Json)} {kind : Json}
    (hsound : (object fields).isSound maxLevels = true)
    (hkind : single? "kind" fields = some (some kind)) :
    ofJson? (.object fields) = ofKind? kind (.object fields) := by
  simp [ofJson?, hsound, hkind]

theorem ofJson?_substring (pattern : String) (name : Option String) :
    ofJson? (substring pattern name).toJson = some (substring pattern name) := by
  have hkind : ofJson? (substring pattern name).toJson =
      ofKind? (.string "substring") (substring pattern name).toJson :=
    ofJson?_object (isSound_toJson (substring pattern name))
      (by cases name <;> simp [single?, values])
  rw [hkind]
  cases name with
  | none =>
      simp [toJson, ofKind?, string?, substringOfJson?, record?, fieldsOf?, single?, values,
        nullable?]
  | some name =>
      simp [toJson, ofKind?, string?, substringOfJson?, record?, fieldsOf?, single?, values,
        nullable?]

theorem roundTrips : RoundTrips toJson ofJson? Fits := by
  intro r s
  cases r with
  | substring pattern name => simp [ofJson?_substring, Fits]
  | edges name es =>
      have hkind : ofJson? (edges name es).toJson =
          ofKind? (.string "edges") (edges name es).toJson :=
        ofJson?_object (isSound_toJson (edges name es)) (by simp [single?, values])
      rw [hkind]
      simp [toJson, ofKind?, string?, edgesOfJson?, record?, fieldsOf?, single?, values, Fits,
        roundTrips_edges.bind_eq_some]

end RevealRequest

def Options.Fits (o : Options) : Prop := ∀ r ∈ o.reveals, r.Fits

theorem Options.roundTrips : RoundTrips toJson ofJson? Fits := by
  intro o q
  have hrecord : o.toJson.record? ["acceptance", "reveals"] =
      some [some o.acceptance.toJson, some (.ofList RevealRequest.toJson o.reveals)] :=
    record?_object (by simp)
  simp only [ofJson?, hrecord, Option.elim_some, Option.bind_eq_bind,
    Acceptance.roundTrips.bind_eq_some, (roundTrips_list RevealRequest.roundTrips).bind_eq_some,
    Option.pure_def, Option.some.injEq, Fits, true_and]

/-- An artifact and options are read back from what is written for them; only values with a number
that is no word are refused, and none is ever read as another. -/
theorem artifact_and_options_round_trip :
    (∀ a b : Artifact, Artifact.ofJson? a.toJson = some b ↔ a.Fits ∧ a = b) ∧
      ∀ o q : Options, Options.ofJson? o.toJson = some q ↔ o.Fits ∧ o = q :=
  ⟨Artifact.roundTrips, Options.roundTrips⟩

example :
    let o : Options := ⟨.count, [.substring "ab" none, .substring "b" (some "tail"),
      .edges "loop" [(1, 1)]]⟩
    Options.ofJson? o.toJson = some o := by
  decide +kernel

end PatternCircuit
