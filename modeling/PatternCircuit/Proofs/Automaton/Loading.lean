import PatternCircuit.Proofs.Automaton.Canonical

/-! # Loaded graphs

Keys can be written in many ways and several keys can lead to one target. A loaded graph has neither
freedom left: it is in canonical form, and its own graph is loaded as it is. -/

namespace PatternCircuit

/-- The symbol stands under a key that leads to the target. -/
def GraphState.LeadsTo (s : GraphState) (a : Symbol) (target : Nat) : Prop :=
  ∃ key l, (key, target) ∈ s.transitions.entries ∧ Label.ofKey? key = some l ∧ l.contains a = true

namespace Dfa

open GraphState

/-! ### Loaded states -/

/-- A record is loaded with canonical edges. -/
theorem canonicalEdges_loaded {count : Nat} {s : GraphState} (h : s.Loadable count) :
    CanonicalEdges count (mergeEdges s.labelled) where
  target := h.target_lt
  inhabited e he := by
    obtain ⟨l, hmem⟩ := (mem_mergeEdges.mp he).1
    obtain ⟨key, _, hl⟩ := mem_labelled.mp hmem
    obtain ⟨a, ha⟩ := Label.exists_symbol_of_ofKey? hl
    exact ⟨a, (contains_of_mem_mergeEdges he).mpr ⟨l, hmem, ha⟩⟩
  apart := h.pairwise_apart
  nodup := nodup_mergeEdges s.labelled
  sorted := pairwise_mergeEdges s.labelled

/-- The symbols on the edges of a loaded record are those under its keys. -/
theorem exists_edge_loaded_iff {s : GraphState} {a : Symbol} {t : Nat} :
    (∃ l, (l, t) ∈ mergeEdges s.labelled ∧ l.contains a = true) ↔ s.LeadsTo a t := by
  constructor
  · rintro ⟨l, hmem, ha⟩
    obtain ⟨m, hm, hma⟩ := (contains_of_mem_mergeEdges hmem).mp ha
    obtain ⟨key, hkey, hread⟩ := mem_labelled.mp hm
    exact ⟨key, m, hkey, hread, hma⟩
  · rintro ⟨key, m, hkey, hread, hma⟩
    have hm : (m, t) ∈ s.labelled := mem_labelled.mpr ⟨key, hkey, hread⟩
    obtain ⟨l, hl⟩ := exists_mergeEdge hm
    exact ⟨l, hl, (contains_of_mem_mergeEdges hl).mpr ⟨m, hm, hma⟩⟩

/-- A loaded record has an edge to each target that it had. -/
theorem mem_targets_loaded_iff {count : Nat} {s : GraphState} (h : s.Loadable count) {t : Nat} :
    t ∈ (mergeEdges s.labelled).map Prod.snd ↔ t ∈ s.transitions.entries.map Prod.snd := by
  simp only [List.mem_map, Prod.exists, exists_eq_right]
  constructor
  · rintro ⟨l, hmem⟩
    obtain ⟨m, hm⟩ := (mem_mergeEdges.mp hmem).1
    obtain ⟨key, hkey, _⟩ := mem_labelled.mp hm
    exact ⟨key, hkey⟩
  · rintro ⟨key, hkey⟩
    obtain ⟨l, hl⟩ := h.readable _ hkey
    exact exists_mergeEdge (mem_labelled.mpr ⟨key, hkey, hl⟩)

/-- Canonical edges stand in strictly ascending order of their labels. -/
theorem CanonicalEdges.ascending {count : Nat} {edges : List (Label × Nat)}
    (h : CanonicalEdges count edges) :
    edges.Pairwise fun e f => e.1.le f.1 = true ∧ e.1 ≠ f.1 := by
  apply (h.sorted.and h.apart).imp_of_mem
  rintro e f he _ ⟨hle, hapart⟩
  have hne : e.1 ≠ f.1 := by
    intro heq
    obtain ⟨a, ha⟩ := h.inhabited e he
    exact hapart a ⟨ha, heq ▸ ha⟩
  rcases edgeLe_iff.mp hle with ⟨heq, _⟩ | ⟨_, hle⟩
  · exact absurd heq hne
  · exact ⟨hle, hne⟩

theorem canonical_ofGraph {graph : List GraphState} {d : Dfa} (h : ofGraph graph = .ok d) :
    d.Canonical where
  pos := pos_ofGraph h
  edges := edges_ofGraph h ⟨by simp, by simp, .nil, .nil, .nil⟩ fun _ => canonicalEdges_loaded

/-- The states of a loaded graph are named by their numbers. -/
theorem renumber_ofGraph {graph : List GraphState} {d : Dfa} (h : ofGraph graph = .ok d) :
    d.renumber = d := by
  have hstates : d.renumber.states = d.states := by
    apply Array.ext_getElem?
    intro i
    rw [getElem?_renumber, getElem?_ofGraph h]
    cases graph[i]? <;> rfl
  cases d
  exact congrArg Dfa.mk hstates

/-- A graph is loaded exactly if it has states, its targets exist, its keys can be read and no
symbol stands under two keys of a state. The automaton has one state for each record, with one edge
to each target of the record, on exactly the symbols under the keys that lead there, in ascending
order of the labels. Its own graph is loaded as the same automaton. -/
theorem ofGraph_loads_deterministic_graphs (graph : List GraphState) :
    ((∃ d, ofGraph graph = .ok d) ↔ graph ≠ [] ∧ ∀ s ∈ graph, s.Loadable graph.length) ∧
      ∀ d, ofGraph graph = .ok d → d.states.size = graph.length ∧
        (∀ i s, graph[i]? = some s → d.isAccept i = s.accept ∧
          (∀ a t, (∃ l, (l, t) ∈ d.edges i ∧ l.contains a = true) ↔ s.LeadsTo a t) ∧
          ((d.edges i).map Prod.snd).Nodup ∧
          (∀ t, t ∈ (d.edges i).map Prod.snd ↔ t ∈ s.transitions.entries.map Prod.snd) ∧
          (d.edges i).Pairwise fun e f => e.1.le f.1 = true ∧ e.1 ≠ f.1) ∧
        ofGraph d.toGraph = .ok d := by
  constructor
  · constructor
    · rintro ⟨d, hd⟩
      obtain ⟨hne, hload, _⟩ := ofGraph_eq_ok_iff.mp hd
      exact ⟨hne, hload⟩
    · rintro ⟨hne, hload⟩
      exact ⟨_, ofGraph_eq_ok_iff.mpr ⟨hne, hload, rfl⟩⟩
  · intro d hd
    have hcanonical := canonical_ofGraph hd
    refine ⟨size_ofGraph hd, fun i s hget => ?_, ?_⟩
    · have hstate : d.states[i]? = some (s.loaded i) := by rw [getElem?_ofGraph hd, hget]; rfl
      have hedges : d.edges i = mergeEdges s.labelled := edges_of_getElem? hstate
      obtain ⟨_, hload, _⟩ := ofGraph_eq_ok_iff.mp hd
      refine ⟨?_, fun a t => ?_, (hcanonical.edges i).nodup, fun t => ?_,
        (hcanonical.edges i).ascending⟩
      · rw [isAccept, hstate]
        rfl
      · rw [hedges, exists_edge_loaded_iff]
      · rw [hedges, mem_targets_loaded_iff (hload s (List.mem_of_getElem? hget))]
    · rw [hcanonical.ofGraph_toGraph, renumber_ofGraph hd]

/-- The first record spells `b` as an escape and lists the marker behind `c`. -/
def spelledGraph : List GraphState :=
  [⟨false, .ofList [("\\x62", 1), ("a", 1), ("c,^", 0)]⟩, ⟨true, .empty⟩]

/-- The first record has `b` under two keys. -/
def overlappingGraph : List GraphState :=
  [⟨false, .ofList [("\\x62", 1), ("a,b", 0)]⟩, ⟨true, .empty⟩]

/-- Two keys to one target are merged and every label gets its own spelling; the result is loaded
again as it is. A symbol under two keys is refused, though the keys are different texts. -/
theorem ofGraph_loads_spelledGraph :
    (∃ d, ofGraph spelledGraph = .ok d ∧
      (d.edges 0).map (fun e => (e.1.key, e.2)) = [("^,c", 0), ("a,b", 1)] ∧
      (∃ l, (l, 1) ∈ d.edges 0 ∧ l.contains (.byte 98) = true) ∧ ofGraph d.toGraph = .ok d) ∧
    ¬∃ d, ofGraph overlappingGraph = .ok d := by
  constructor
  · have hrun : (ofGraph spelledGraph).toOption.any (fun d =>
        decide ((d.edges 0).map (fun e => (e.1.key, e.2)) = [("^,c", 0), ("a,b", 1)])) = true := by
      decide +kernel
    obtain ⟨d, hd, hedges⟩ := Outcome.exists_ok_of_any hrun
    obtain ⟨_, hrecords, hagain⟩ := (ofGraph_loads_deterministic_graphs spelledGraph).2 d hd
    obtain ⟨_, hsymbols, _⟩ := hrecords 0 _ rfl
    have hleads : GraphState.LeadsTo ⟨false, .ofList [("\\x62", 1), ("a", 1), ("c,^", 0)]⟩
        (.byte 98) 1 :=
      ⟨"\\x62", .ofSymbol (.byte 98), by decide +kernel, by decide +kernel, by decide⟩
    exact ⟨d, hd, of_decide_eq_true hedges, (hsymbols _ _).mpr hleads, hagain⟩
  · rw [(ofGraph_loads_deterministic_graphs overlappingGraph).1]
    rintro ⟨_, hload⟩
    have hkeys : "\\x62" = "a,b" :=
      (hload _ List.mem_cons_self).apart ("\\x62", 1) (by decide +kernel) ("a,b", 0)
        (by decide +kernel) (.ofSymbol (.byte 98)) (.ofSymbols [.byte 97, .byte 98]) (.byte 98)
        (by decide +kernel) (by decide +kernel) (by decide) (by decide)
    exact absurd hkeys (by decide)

end Dfa

end PatternCircuit
