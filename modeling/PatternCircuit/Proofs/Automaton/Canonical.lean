import Mathlib.Data.List.Forall2
import PatternCircuit.Proofs.Automaton.Graph
import PatternCircuit.Proofs.LabelKey

/-! # Automata in canonical form

In canonical form every edge has a symbol and the edges of a state are in ascending order. Such an
automaton is read back from its graph as it was, except that its states are named by their
numbers. -/

namespace PatternCircuit

/-! ### Entries of an exported state -/

theorem insertEntry_perm {key : String} {target : Nat} {entries : List (String × Nat)}
    (h : ∀ e ∈ entries, key ≠ e.1) :
    (insertEntry key target entries).Perm ((key, target) :: entries) := by
  induction entries with
  | nil => exact .refl _
  | cons e rest ih =>
      obtain ⟨hne, hrest⟩ := List.forall_mem_cons.mp h
      rw [insertEntry, if_neg hne]
      split
      · exact .refl _
      · exact ((ih hrest).cons e).trans (.swap (key, target) e rest)

/-- Entries with different keys are kept, in the order of the keys. -/
theorem entries_ofList_perm {entries : List (String × Nat)} (h : (entries.map Prod.fst).Nodup) :
    (Transitions.ofList entries).entries.Perm entries := by
  have hinsert : ∀ t : Transitions, ((t.entries ++ entries).map Prod.fst).Nodup →
      (entries.foldl (fun t e => t.insert e.1 e.2) t).entries.Perm (t.entries ++ entries) := by
    clear h
    induction entries with
    | nil =>
        intro t _
        rw [List.foldl_nil, List.append_nil]
    | cons e rest ih =>
        intro t ht
        have hperm : (t.entries ++ e :: rest).Perm (e :: (t.entries ++ rest)) := List.perm_middle
        have hnodup := (hperm.map Prod.fst).nodup_iff.mp ht
        rw [List.map_cons, List.nodup_cons] at hnodup
        have hnew : ∀ f ∈ t.entries, e.1 ≠ f.1 := by
          intro f hf heq
          exact hnodup.1 (List.mem_map.mpr ⟨f, by simp [hf], heq.symm⟩)
        have hstep : ((t.insert e.1 e.2).entries ++ rest).Perm (t.entries ++ e :: rest) :=
          ((insertEntry_perm hnew).append_right rest).trans hperm.symm
        exact (ih _ ((hstep.map Prod.fst).nodup_iff.mpr ht)).trans hstep
  exact hinsert .empty h

namespace Dfa

/-! ### Order of edges -/

theorem edgeLe_iff {e f : Label × Nat} :
    edgeLe e f = true ↔ (e.1 = f.1 ∧ e.2 ≤ f.2) ∨ (e.1 ≠ f.1 ∧ e.1.le f.1 = true) := by
  by_cases h : e.1 = f.1
  · simp [edgeLe, h]
  · simp [edgeLe, h]

theorem edgeLe_total (e f : Label × Nat) : edgeLe e f = true ∨ edgeLe f e = true := by
  by_cases h : e.1 = f.1
  · simp only [edgeLe_iff, h, true_and]
    omega
  · simp only [edgeLe_iff, h, Ne.symm h, false_and, false_or, ne_eq, not_false_eq_true, true_and]
    exact Label.le_total e.1 f.1

theorem edgeLe_antisymm {e f : Label × Nat} (h : edgeLe e f = true) (h' : edgeLe f e = true) :
    e = f := by
  rw [edgeLe_iff] at h h'
  rcases h with ⟨hl, ht⟩ | ⟨hl, hle⟩
  · rcases h' with ⟨_, ht'⟩ | ⟨hl', _⟩
    · exact Prod.ext hl (Nat.le_antisymm ht ht')
    · exact absurd hl.symm hl'
  · rcases h' with ⟨hl', _⟩ | ⟨_, hle'⟩
    · exact absurd hl'.symm hl
    · exact absurd (Label.le_antisymm hle hle') hl

theorem edgeLe_trans {e f g : Label × Nat} (h : edgeLe e f = true) (h' : edgeLe f g = true) :
    edgeLe e g = true := by
  rw [edgeLe_iff] at h h' ⊢
  rcases h with ⟨hl, ht⟩ | ⟨hl, hle⟩
  · rw [hl]
    exact h'.imp (fun h => ⟨h.1, Nat.le_trans ht h.2⟩) id
  · rcases h' with ⟨hl', _⟩ | ⟨_, hle'⟩
    · exact .inr ⟨hl' ▸ hl, hl' ▸ hle⟩
    · refine .inr ⟨?_, Label.le_trans hle hle'⟩
      intro heq
      exact hl (Label.le_antisymm hle (heq ▸ hle'))

/-! ### Merging edges that are merged already -/

theorem pairwise_mergeEdges (es : List (Label × Nat)) :
    (mergeEdges es).Pairwise (edgeLe · · = true) :=
  pairwise_sortBy edgeLe_total edgeLe_trans _

theorem mem_mergeEdges_of_nodup {es : List (Label × Nat)} (h : (es.map Prod.snd).Nodup)
    {e : Label × Nat} : e ∈ mergeEdges es ↔ e ∈ es := by
  have hkeep : ∀ e ∈ mergeEdges es, e ∈ es := by
    intro e he
    obtain ⟨l, hmem⟩ := (mem_mergeEdges.mp he).1
    have hlabel : e.1 = l := by
      apply Label.ext_contains
      intro a
      rw [Bool.eq_iff_iff, contains_of_mem_mergeEdges he]
      constructor
      · intro ha
        obtain ⟨m, hm, hma⟩ := ha
        rwa [(Prod.mk.inj (List.inj_on_of_nodup_map h hm hmem rfl)).1] at hma
      · intro ha
        exact ⟨l, hmem, ha⟩
    rwa [← hlabel] at hmem
  refine ⟨hkeep e, fun he => ?_⟩
  obtain ⟨m, hm⟩ := exists_mergeEdge he
  rwa [List.inj_on_of_nodup_map h he (hkeep _ hm) rfl]

/-- Ascending edges to different targets are what merging makes of any rearrangement of them. -/
theorem mergeEdges_eq_of_perm {es fs : List (Label × Nat)} (hperm : es.Perm fs)
    (hnodup : (fs.map Prod.snd).Nodup) (hsorted : fs.Pairwise (edgeLe · · = true)) :
    mergeEdges es = fs := by
  have hes : (es.map Prod.snd).Nodup := (hperm.map Prod.snd).nodup_iff.mpr hnodup
  have hmerged : (mergeEdges es).Perm fs := by
    refine (List.perm_ext_iff_of_nodup (nodup_mergeEdges es).of_map hnodup.of_map).mpr fun e => ?_
    rw [mem_mergeEdges_of_nodup hes, hperm.mem_iff]
  exact hmerged.eq_of_pairwise (fun _ _ _ _ => edgeLe_antisymm) (pairwise_mergeEdges es) hsorted

/-! ### Canonical form -/

/-- The edges of a state lead to states, on inhabited labels that share no symbol, and stand in
ascending order with one edge for each target. -/
structure CanonicalEdges (count : Nat) (edges : List (Label × Nat)) : Prop where
  target : ∀ e ∈ edges, e.2 < count
  inhabited : ∀ e ∈ edges, ∃ a, e.1.contains a = true
  apart : edges.Pairwise Apart
  nodup : (edges.map Prod.snd).Nodup
  sorted : edges.Pairwise (edgeLe · · = true)

/-- The keys of the edges are different, and reading and merging them gives the edges back. -/
theorem CanonicalEdges.exists_readTransitions {count : Nat} {edges : List (Label × Nat)}
    (h : CanonicalEdges count edges) (state : Nat) :
    ∃ read, readTransitions count state .empty
        (Transitions.ofList (edges.map fun e => (e.1.key, e.2))).entries = .ok read ∧
      mergeEdges read = edges := by
  have hkeys : ((edges.map fun e => (e.1.key, e.2)).map Prod.fst).Nodup := by
    rw [List.map_map, List.Nodup, List.pairwise_map]
    apply h.apart.imp_of_mem
    intro e f he hf happart heq
    obtain ⟨a, ha⟩ := h.inhabited e he
    have hlabel := Label.key_inj (h.inhabited e he) (h.inhabited f hf) heq
    exact happart a ⟨ha, hlabel ▸ ha⟩
  have hspells : List.Forall₂ Spells (edges.map fun e => (e.1.key, e.2)) edges := by
    rw [List.forall₂_map_left_iff, List.forall₂_same]
    intro e he
    exact ⟨Label.ofKey?_key (h.inhabited e he), rfl⟩
  obtain ⟨read, hread, hperm⟩ := List.perm_comp_forall₂ (entries_ofList_perm hkeys) hspells
  refine ⟨read, readTransitions_eq_ok_iff.mpr ⟨hread, ?_, ?_, ?_⟩,
    mergeEdges_eq_of_perm hperm h.nodup h.sorted⟩
  · intro e he
    exact h.target e (hperm.mem_iff.mp he)
  · intro e _ a _
    exact Label.contains_empty a
  · exact hperm.symm.pairwise h.apart (Std.Symm.symm _ _)

/-- An automaton with a start whose states have canonical edges. -/
structure Canonical (d : Dfa) : Prop where
  pos : 0 < d.states.size
  edges : ∀ s, CanonicalEdges d.states.size (d.edges s)

/-- The minimal automaton of a tree is in canonical form. -/
theorem canonical_minimize_ofTree {t : Tree} (h : t.Proper) :
    (ofNfa (.ofTree t)).minimize.Canonical := by
  have hwell := (minimize_ofTree h).1.wellFormed
  refine ⟨hwell.pos, fun s => ⟨hwell.inRange s, ?_, hwell.deterministic s, hwell.nodup s, ?_⟩⟩
  · intro e he
    exact exists_symbol_minimize_ofTree t he
  · obtain ⟨es, hedges⟩ := exists_edges_eq_mergeEdges (ofNfa (.ofTree t))
      (ofNfa (.ofTree t)).refinement.blocks.toList s
    rw [minimize, hedges]
    exact pairwise_mergeEdges es

/-! ### States named by their numbers -/

/-- The state with the given number as its name. -/
def numbered (index : Nat) (s : DfaState) : DfaState :=
  ⟨toString index, [index], s.accept, s.edges⟩

def renumber (d : Dfa) : Dfa := ⟨d.states.mapIdx numbered⟩

@[simp] theorem size_renumber (d : Dfa) : d.renumber.states.size = d.states.size :=
  Array.size_mapIdx

theorem getElem?_renumber (d : Dfa) (s : Nat) :
    d.renumber.states[s]? = (d.states[s]?).map (numbered s) :=
  Array.getElem?_mapIdx

@[simp] theorem edges_renumber (d : Dfa) : d.renumber.edges = d.edges := by
  funext s
  rw [edges, edges, getElem?_renumber]
  cases d.states[s]? <;> rfl

@[simp] theorem isAccept_renumber (d : Dfa) : d.renumber.isAccept = d.isAccept := by
  funext s
  rw [isAccept, isAccept, getElem?_renumber]
  cases d.states[s]? <;> rfl

/-- The graph of an automaton does not show the names of its states. -/
theorem toGraph_renumber (d : Dfa) : d.renumber.toGraph = d.toGraph := by
  apply List.ext_getElem?
  intro i
  simp only [toGraph, List.getElem?_map, Array.getElem?_toList, getElem?_renumber]
  cases d.states[i]? <;> rfl

/-! ### Reading an exported automaton -/

theorem readStates_exported {count index : Nat} {states : List DfaState}
    (h : ∀ s ∈ states, CanonicalEdges count s.edges) :
    readStates count index (states.map fun s =>
        ⟨s.accept, Transitions.ofList (s.edges.map fun e => (e.1.key, e.2))⟩) =
      .ok (states.mapIdx fun i s => numbered (index + i) s) := by
  induction states generalizing index with
  | nil => rfl
  | cons s states ih =>
      obtain ⟨hs, hstates⟩ := List.forall_mem_cons.mp h
      obtain ⟨read, hread, hmerged⟩ := hs.exists_readTransitions index
      have hfirst : numbered (index + 0) s =
          ⟨toString index, [index], s.accept, mergeEdges read⟩ := by
        rw [hmerged]
        rfl
      rw [List.map_cons, readStates, hread, ih hstates, List.mapIdx_cons, hfirst]
      simp only [Nat.add_right_comm index, ← Nat.add_assoc]
      rfl

/-- An automaton in canonical form is read back from its graph, with numbers as names. -/
theorem Canonical.ofGraph_toGraph {d : Dfa} (h : d.Canonical) :
    ofGraph d.toGraph = .ok d.renumber := by
  have hlength : d.toGraph.length = d.states.size := by simp [toGraph]
  have hne : d.toGraph.isEmpty = false := by
    rw [← Bool.not_eq_true, List.isEmpty_iff, ← List.length_eq_zero_iff, hlength]
    exact h.pos.ne'
  have hstates : ∀ s ∈ d.states.toList, CanonicalEdges d.states.size s.edges := by
    intro s hs
    obtain ⟨i, hi⟩ := List.mem_iff_getElem?.mp hs
    rw [Array.getElem?_toList] at hi
    rw [← edges_of_getElem? hi]
    exact h.edges i
  have hread : readStates d.states.size 0 d.toGraph = .ok (d.states.toList.mapIdx numbered) := by
    rw [toGraph, readStates_exported hstates]
    simp only [Nat.zero_add]
  rw [ofGraph, hne, hlength, hread, ← Array.toList_mapIdx]
  rfl

end Dfa

end PatternCircuit
