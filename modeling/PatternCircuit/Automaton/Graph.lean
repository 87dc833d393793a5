import PatternCircuit.Automaton.Dfa
import PatternCircuit.Error
import PatternCircuit.Json.Basic
import PatternCircuit.Lexicographic

/-! # Exported automata

An exported automaton has one record per state; its transitions map label keys to targets, in the
order of the keys. -/

namespace PatternCircuit

/-- A key stands strictly before another. -/
def keyBefore (a b : String × Nat) : Prop := Lexicographic.textLe a.1 b.1 = true ∧ a.1 ≠ b.1

/-- Puts an entry at its place; an entry with the same key is replaced. -/
def insertEntry (key : String) (target : Nat) : List (String × Nat) → List (String × Nat)
  | [] => [(key, target)]
  | e :: rest =>
      if key = e.1 then (key, target) :: rest
      else if Lexicographic.textLe key e.1 then (key, target) :: e :: rest
      else e :: insertEntry key target rest

theorem mem_insertEntry {key : String} {target : Nat} {entries : List (String × Nat)}
    {e : String × Nat} (h : e ∈ insertEntry key target entries) :
    e = (key, target) ∨ e ∈ entries := by
  induction entries with
  | nil => simpa [insertEntry] using h
  | cons f rest ih =>
      unfold insertEntry at h
      split at h
      · simp only [List.mem_cons] at h ⊢
        rcases h with h | h
        · exact .inl h
        · exact .inr (.inr h)
      · split at h
        · simp only [List.mem_cons] at h ⊢
          exact h
        · simp only [List.mem_cons] at h ⊢
          rcases h with h | h
          · exact .inr (.inl h)
          · rcases ih h with h | h
            · exact .inl h
            · exact .inr (.inr h)

theorem insertEntry_ordered (key : String) (target : Nat) {entries : List (String × Nat)}
    (h : entries.Pairwise keyBefore) : (insertEntry key target entries).Pairwise keyBefore := by
  induction entries with
  | nil => simp [insertEntry]
  | cons e rest ih =>
      obtain ⟨he, hr⟩ := List.pairwise_cons.mp h
      unfold insertEntry
      split
      · rename_i hk
        exact List.pairwise_cons.mpr ⟨fun f hf => by subst hk; exact he f hf, hr⟩
      · rename_i hk
        split
        · rename_i hle
          refine List.pairwise_cons.mpr ⟨fun f hf => ?_, h⟩
          rcases List.mem_cons.mp hf with rfl | hf
          · exact ⟨hle, hk⟩
          · refine ⟨Lexicographic.textLe_trans hle (he f hf).1, fun hkf => ?_⟩
            have hfe : Lexicographic.textLe f.1 e.1 = true := hkf ▸ hle
            exact (he f hf).2 (Lexicographic.textLe_antisymm (he f hf).1 hfe)
        · rename_i hle
          refine List.pairwise_cons.mpr ⟨fun f hf => ?_, ih hr⟩
          rcases mem_insertEntry hf with rfl | hf
          · refine ⟨?_, fun he' => hk he'.symm⟩
            rcases Lexicographic.textLe_total key e.1 with h' | h'
            · exact absurd h' hle
            · exact h'
          · exact he f hf

/-- Label keys with their targets, ascending and without repetition. -/
structure Transitions where
  entries : List (String × Nat)
  ordered : entries.Pairwise keyBefore

namespace Transitions

def empty : Transitions := ⟨[], .nil⟩

def insert (t : Transitions) (key : String) (target : Nat) : Transitions :=
  ⟨insertEntry key target t.entries, insertEntry_ordered key target t.ordered⟩

/-- Later entries replace earlier ones with the same key. -/
def ofList (entries : List (String × Nat)) : Transitions :=
  entries.foldl (fun t e => t.insert e.1 e.2) empty

theorem ext {s t : Transitions} (h : s.entries = t.entries) : s = t := by
  cases s
  cases t
  cases h
  rfl

instance : DecidableEq Transitions := fun s t =>
  decidable_of_iff (s.entries = t.entries) ⟨ext, fun h => h ▸ rfl⟩

end Transitions

/-- One state of an exported automaton. -/
structure GraphState where
  accept : Bool
  transitions : Transitions
deriving DecidableEq

namespace Dfa

def toGraph (d : Dfa) : List GraphState :=
  d.states.toList.map fun s =>
    ⟨s.accept, Transitions.ofList (s.edges.map fun e => (e.1.key, e.2))⟩

/-- Reads the transitions of a state whose earlier keys hold the symbols in `seen`. -/
def readTransitions (count state : Nat) (seen : Label) :
    List (String × Nat) → Except GraphFault (List (Label × Nat))
  | [] => .ok []
  | (key, target) :: rest =>
      if count ≤ target then .error (.unknownTarget state target)
      else
        match Label.ofKey? key with
        | none => .error (.malformedKey key)
        | some l =>
            if seen.overlaps l then .error (.notDeterministic state key)
            else (readTransitions count state (seen.union l) rest).map ((l, target) :: ·)

/-- Reads the records from number `index` on. -/
def readStates (count index : Nat) : List GraphState → Except GraphFault (List DfaState)
  | [] => .ok []
  | record :: rest => do
      let edges ← readTransitions count index .empty record.transitions.entries
      let states ← readStates count (index + 1) rest
      pure (⟨toString index, [index], record.accept, mergeEdges edges⟩ :: states)

def ofGraph (graph : List GraphState) : Except Error Dfa :=
  if graph.isEmpty then .error (.graph .noStates)
  else
    match readStates graph.length 0 graph with
    | .ok states => .ok ⟨states.toArray⟩
    | .error fault => .error (.graph fault)

end Dfa

/-! ### JSON form -/

namespace GraphState

def toJson (s : GraphState) : Json :=
  .object [("type", .string (if s.accept then "accept" else "normal")),
    ("transition", .object (s.transitions.entries.map fun e => (e.1, .ofNat e.2)))]

def acceptOfJson? (j : Json) : Option Bool := do
  let name ← j.plainVariant?
  if name = "accept" then some true
  else if name = "normal" then some false
  else none

/-- Reads the fields of an object as keys with targets. -/
def readEntries : List (String × Json) → Option (List (String × Nat))
  | [] => some []
  | (key, target) :: rest => do
      let n ← target.word?
      let entries ← readEntries rest
      pure ((key, n) :: entries)

def transitionsOfJson? : Json → Option Transitions
  | .object fields => (readEntries fields).map Transitions.ofList
  | _ => none

def ofJson? (j : Json) : Option GraphState :=
  match j.record? ["type", "transition"] with
  | some [some kind, some transition] => do
      let accept ← acceptOfJson? kind
      let transitions ← transitionsOfJson? transition
      pure ⟨accept, transitions⟩
  | _ => none

end GraphState

def graphToJson (graph : List GraphState) : Json := .ofList GraphState.toJson graph

def graphOfJson? (j : Json) : Option (List GraphState) := j.list? GraphState.ofJson?

end PatternCircuit
