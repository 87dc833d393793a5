import Mathlib.Data.List.Forall2
import PatternCircuit.Automaton.Graph
import PatternCircuit.Outcome
import PatternCircuit.Proofs.Automaton.Minimal

/-! # Automata read from a graph

Loading a graph checks one state after the other and, within a state, one key after the other. What
comes out depends on the records alone: a graph is loaded exactly if its targets exist, its keys can
be read and no record has a symbol under two keys. The automaton is therefore well-formed. -/

namespace PatternCircuit.Dfa

/-! ### Transitions -/

/-- The transitions read behind some symbols lead to states, and no symbol comes twice. -/
structure ReadBehind (count : Nat) (seen : Label) (edges : List (Label × Nat)) : Prop where
  target : ∀ e ∈ edges, e.2 < count
  unseen : ∀ e ∈ edges, ∀ a, e.1.contains a = true → seen.contains a = false
  apart : edges.Pairwise Apart

theorem readBehind_nil (count : Nat) (seen : Label) : ReadBehind count seen [] :=
  ⟨by simp, by simp, .nil⟩

theorem readBehind_cons {count : Nat} {seen : Label} {e : Label × Nat}
    {edges : List (Label × Nat)} :
    ReadBehind count seen (e :: edges) ↔
      e.2 < count ∧ seen.overlaps e.1 = false ∧ ReadBehind count (seen.union e.1) edges := by
  rw [← Bool.not_eq_true, Label.overlaps_eq_true_iff]
  constructor
  · intro h
    obtain ⟨happart, hrest⟩ := List.pairwise_cons.mp h.apart
    refine ⟨h.target e (by simp), ?_, fun f hf => h.target f (by simp [hf]), ?_, hrest⟩
    · intro hoverlap
      obtain ⟨a, hseen, ha⟩ := hoverlap
      exact Bool.eq_false_iff.mp (h.unseen e (by simp) a ha) hseen
    · intro f hf a ha
      rw [Label.contains_union, Bool.or_eq_false_iff]
      exact ⟨h.unseen f (by simp [hf]) a ha,
        Bool.eq_false_iff.mpr fun hea => happart f hf a ⟨hea, ha⟩⟩
  · intro h
    obtain ⟨htarget, hunseen, hrest⟩ := h
    have hunion : ∀ f ∈ edges, ∀ a, f.1.contains a = true →
        seen.contains a = false ∧ e.1.contains a = false := by
      intro f hf a ha
      have hunion := hrest.unseen f hf a ha
      rwa [Label.contains_union, Bool.or_eq_false_iff] at hunion
    refine ⟨List.forall_mem_cons.mpr ⟨htarget, hrest.target⟩,
      List.forall_mem_cons.mpr ⟨?_, fun f hf a ha => (hunion f hf a ha).1⟩,
      List.pairwise_cons.mpr ⟨?_, hrest.apart⟩⟩
    · intro a ha
      exact Bool.eq_false_iff.mpr fun hseen => hunseen ⟨a, hseen, ha⟩
    · intro f hf a ha
      exact Bool.eq_false_iff.mp (hunion f hf a ha.2).2 ha.1

/-- An entry has the key of a label that leads to the same target. -/
def Spells (entry : String × Nat) (e : Label × Nat) : Prop :=
  Label.ofKey? entry.1 = some e.1 ∧ entry.2 = e.2

/-- Transitions are read exactly if their keys can be read, their targets exist and no symbol comes
twice. -/
theorem readTransitions_eq_ok_iff {count state : Nat} {seen : Label}
    {entries : List (String × Nat)} {edges : List (Label × Nat)} :
    readTransitions count state seen entries = .ok edges ↔
      List.Forall₂ Spells entries edges ∧ ReadBehind count seen edges := by
  induction entries generalizing seen edges with
  | nil =>
      rw [readTransitions, List.forall₂_nil_left_iff]
      constructor
      · intro h
        cases h
        exact ⟨rfl, readBehind_nil count seen⟩
      · intro h
        rw [h.1]
  | cons entry entries ih =>
      rw [readTransitions, List.forall₂_cons_left_iff]
      constructor
      · intro h
        split at h
        · cases h
        · rename_i htarget
          split at h
          · cases h
          · rename_i l hkey
            split at h
            · cases h
            · rename_i hoverlaps
              obtain ⟨rest, hrest, rfl⟩ := Outcome.map_eq_ok.mp h
              obtain ⟨hspells, hbehind⟩ := ih.mp hrest
              exact ⟨⟨(l, entry.2), rest, ⟨hkey, rfl⟩, hspells, rfl⟩,
                readBehind_cons.mpr ⟨Nat.lt_of_not_le htarget, by simpa using hoverlaps, hbehind⟩⟩
      · intro h
        obtain ⟨⟨e, rest, ⟨hkey, htarget⟩, hspells, rfl⟩, hbehind⟩ := h
        obtain ⟨hlt, hoverlaps, hrest⟩ := readBehind_cons.mp hbehind
        have hread := ih.mpr ⟨hspells, hrest⟩
        simp only [htarget, Nat.not_le.mpr hlt, hkey, hoverlaps, hread, if_false, Except.map]
        rfl

end PatternCircuit.Dfa

namespace PatternCircuit

/-! ### Records -/

namespace GraphState

/-- No symbol stands under two keys. -/
def KeysApart (s : GraphState) : Prop :=
  ∀ e ∈ s.transitions.entries, ∀ f ∈ s.transitions.entries, ∀ l m a,
    Label.ofKey? e.1 = some l → Label.ofKey? f.1 = some m →
      l.contains a = true → m.contains a = true → e.1 = f.1

/-- In a graph of `count` states the record has existing targets and readable keys, and no symbol
stands under two of them. -/
structure Loadable (count : Nat) (s : GraphState) : Prop where
  target : ∀ e ∈ s.transitions.entries, e.2 < count
  readable : ∀ e ∈ s.transitions.entries, ∃ l, Label.ofKey? e.1 = some l
  apart : s.KeysApart

/-- The transitions under the labels of their keys; keys that cannot be read are left out. -/
def labelled (s : GraphState) : List (Label × Nat) :=
  s.transitions.entries.filterMap fun e => (Label.ofKey? e.1).map fun l => (l, e.2)

/-- The state that record number `index` becomes. -/
def loaded (index : Nat) (s : GraphState) : DfaState :=
  ⟨toString index, [index], s.accept, Dfa.mergeEdges s.labelled⟩

variable {s : GraphState} {count : Nat}

theorem mem_labelled {e : Label × Nat} :
    e ∈ s.labelled ↔ ∃ key, (key, e.2) ∈ s.transitions.entries ∧ Label.ofKey? key = some e.1 := by
  simp only [labelled, List.mem_filterMap, Option.map_eq_some_iff]
  constructor
  · rintro ⟨⟨key, target⟩, hmem, l, hl, rfl⟩
    exact ⟨key, hmem, hl⟩
  · rintro ⟨key, hmem, hl⟩
    exact ⟨(key, e.2), hmem, e.1, hl, rfl⟩

theorem pairwise_apart_labelled_iff : s.labelled.Pairwise Dfa.Apart ↔ s.KeysApart := by
  simp only [labelled, List.pairwise_filterMap, Option.map_eq_some_iff]
  constructor
  · intro h e he f hf l m a hl hm hla hma
    by_contra hne
    -- Entries with different keys stand in one order or the other.
    have hsymm : Std.Symm fun e f : String × Nat =>
        ∀ b, (∃ l, Label.ofKey? e.1 = some l ∧ (l, e.2) = b) →
          ∀ b', (∃ l, Label.ofKey? f.1 = some l ∧ (l, f.2) = b') → Dfa.Apart b b' :=
      ⟨fun e f hef b hb b' hb' => Std.Symm.symm _ _ (hef b' hb' b hb)⟩
    have hapart := h.forall he hf fun heq => hne (heq ▸ rfl)
    exact hapart _ ⟨l, hl, rfl⟩ _ ⟨m, hm, rfl⟩ a ⟨hla, hma⟩
  · intro h
    apply s.transitions.ordered.imp_of_mem
    rintro e f he hf hbefore _ ⟨l, hl, rfl⟩ _ ⟨m, hm, rfl⟩ a ⟨hla, hma⟩
    exact hbefore.2 (h e he f hf l m a hl hm hla hma)

namespace Loadable

variable (h : s.Loadable count)
include h

theorem target_lt : ∀ e ∈ Dfa.mergeEdges s.labelled, e.2 < count := by
  intro e he
  obtain ⟨l, hmem⟩ := (Dfa.mem_mergeEdges.mp he).1
  obtain ⟨key, hkey, _⟩ := mem_labelled.mp hmem
  exact h.target _ hkey

theorem pairwise_apart : (Dfa.mergeEdges s.labelled).Pairwise Dfa.Apart := by
  apply Dfa.pairwise_apart_mergeEdges
  intro e he f hf a hea hfa
  by_contra hne
  have hapart := pairwise_apart_labelled_iff.mpr h.apart
  exact hapart.forall he hf (fun heq => hne (heq ▸ rfl)) a ⟨hea, hfa⟩

end Loadable

end GraphState

/-! ### Reading records -/

namespace Dfa

open GraphState

theorem forall₂_spells_iff {entries : List (String × Nat)} {edges : List (Label × Nat)} :
    List.Forall₂ Spells entries edges ↔ (∀ e ∈ entries, ∃ l, Label.ofKey? e.1 = some l) ∧
      edges = entries.filterMap fun e => (Label.ofKey? e.1).map fun l => (l, e.2) := by
  induction entries generalizing edges with
  | nil => simp
  | cons e entries ih =>
      rw [List.forall₂_cons_left_iff, List.forall_mem_cons]
      constructor
      · rintro ⟨⟨l, target⟩, rest, ⟨hl, rfl⟩, hrest, rfl⟩
        obtain ⟨hreadable, rfl⟩ := ih.mp hrest
        exact ⟨⟨⟨l, hl⟩, hreadable⟩, by simp [hl]⟩
      · rintro ⟨⟨⟨l, hl⟩, hreadable⟩, rfl⟩
        exact ⟨(l, e.2), _, ⟨hl, rfl⟩, ih.mpr ⟨hreadable, rfl⟩, by simp [hl]⟩

theorem readTransitions_record {count state : Nat} {s : GraphState} {edges : List (Label × Nat)} :
    readTransitions count state .empty s.transitions.entries = .ok edges ↔
      s.Loadable count ∧ edges = s.labelled := by
  rw [readTransitions_eq_ok_iff, forall₂_spells_iff]
  constructor
  · rintro ⟨⟨hreadable, rfl⟩, hread⟩
    refine ⟨⟨fun e he => ?_, hreadable, pairwise_apart_labelled_iff.mp hread.apart⟩, rfl⟩
    obtain ⟨l, hl⟩ := hreadable e he
    exact hread.target (l, e.2) (mem_labelled.mpr ⟨e.1, he, hl⟩)
  · rintro ⟨hs, rfl⟩
    refine ⟨⟨hs.readable, rfl⟩, fun e he => ?_, fun _ _ a _ => Label.contains_empty a,
      pairwise_apart_labelled_iff.mpr hs.apart⟩
    obtain ⟨key, hmem, _⟩ := mem_labelled.mp he
    exact hs.target _ hmem

theorem readStates_eq_ok_iff {count index : Nat} {graph : List GraphState}
    {states : List DfaState} :
    readStates count index graph = .ok states ↔
      (∀ s ∈ graph, s.Loadable count) ∧ states = graph.mapIdx fun i s => s.loaded (index + i) := by
  induction graph generalizing index states with
  | nil =>
      rw [readStates]
      simp [eq_comm]
  | cons s graph ih =>
      have hshift : (fun i (s : GraphState) => s.loaded (index + (i + 1))) =
          fun i s => s.loaded (index + 1 + i) := by
        funext i s
        rw [Nat.add_assoc, Nat.add_comm 1]
      rw [readStates, Outcome.bind_eq_ok, List.forall_mem_cons, List.mapIdx_cons, hshift]
      constructor
      · rintro ⟨edges, hedges, hnext⟩
        obtain ⟨rest, hrest, hpure⟩ := Outcome.bind_eq_ok.mp hnext
        obtain ⟨hs, rfl⟩ := readTransitions_record.mp hedges
        obtain ⟨hgraph, rfl⟩ := ih.mp hrest
        cases hpure
        exact ⟨⟨hs, hgraph⟩, rfl⟩
      · rintro ⟨⟨hs, hgraph⟩, rfl⟩
        exact ⟨s.labelled, readTransitions_record.mpr ⟨hs, rfl⟩,
          Outcome.bind_eq_ok.mpr ⟨_, ih.mpr ⟨hgraph, rfl⟩, rfl⟩⟩

/-! ### Graphs -/

/-- A graph is loaded record by record, if it has any and each can be loaded. -/
theorem ofGraph_eq_ok_iff {graph : List GraphState} {d : Dfa} :
    ofGraph graph = .ok d ↔ graph ≠ [] ∧ (∀ s ∈ graph, s.Loadable graph.length) ∧
      d = ⟨(graph.mapIdx loaded).toArray⟩ := by
  have hread : ∀ states, readStates graph.length 0 graph = .ok states ↔
      (∀ s ∈ graph, s.Loadable graph.length) ∧ states = graph.mapIdx loaded := by
    intro states
    simpa only [Nat.zero_add] using @readStates_eq_ok_iff graph.length 0 graph states
  constructor
  · intro h
    rw [ofGraph] at h
    split at h
    · cases h
    · rename_i hempty
      split at h
      · rename_i states hstates
        obtain ⟨hload, rfl⟩ := (hread states).mp hstates
        cases h
        exact ⟨by simpa using hempty, hload, rfl⟩
      · cases h
  · rintro ⟨hne, hload, rfl⟩
    rw [ofGraph, if_neg (by simpa using hne), (hread _).mpr ⟨hload, rfl⟩]

section Loaded

variable {graph : List GraphState} {d : Dfa} (h : ofGraph graph = .ok d)
include h

theorem getElem?_ofGraph (i : Nat) : d.states[i]? = (graph[i]?).map (loaded i) := by
  obtain ⟨_, _, rfl⟩ := ofGraph_eq_ok_iff.mp h
  rw [List.getElem?_toArray, List.getElem?_mapIdx]

theorem size_ofGraph : d.states.size = graph.length := by
  obtain ⟨_, _, rfl⟩ := ofGraph_eq_ok_iff.mp h
  rw [List.size_toArray, List.length_mapIdx]

theorem pos_ofGraph : 0 < d.states.size := by
  rw [size_ofGraph h]
  exact List.length_pos_iff.mpr (ofGraph_eq_ok_iff.mp h).1

/-- What holds of no edges and of the merged edges of every record holds of every state. -/
theorem edges_ofGraph {P : List (Label × Nat) → Prop} (hnil : P [])
    (hrecord : ∀ s : GraphState, s.Loadable d.states.size → P (mergeEdges s.labelled)) (i : Nat) :
    P (d.edges i) := by
  rw [edges, getElem?_ofGraph h]
  cases hget : graph[i]? with
  | none => exact hnil
  | some s =>
      apply hrecord
      rw [size_ofGraph h]
      exact (ofGraph_eq_ok_iff.mp h).2.1 s (List.mem_of_getElem? hget)

theorem wellFormed_ofGraph : d.WellFormed where
  pos := pos_ofGraph h
  inRange := edges_ofGraph h (P := fun es => ∀ e ∈ es, e.2 < d.states.size) (by simp)
    fun _ hs => hs.target_lt
  deterministic := edges_ofGraph h (P := (·.Pairwise Apart)) .nil fun _ hs => hs.pairwise_apart
  nodup := edges_ofGraph h (P := fun es => (es.map Prod.snd).Nodup) .nil
    fun s _ => nodup_mergeEdges s.labelled

end Loaded

end Dfa

end PatternCircuit
