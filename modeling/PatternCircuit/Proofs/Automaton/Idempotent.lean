import PatternCircuit.Proofs.Automaton.Canonical
import PatternCircuit.Proofs.Automaton.Coarsest
import PatternCircuit.Proofs.Automaton.StateName
import PatternCircuit.Proofs.Compile.Automaton

/-! # Minimising twice

Merging orders the states by their joined names, except for the start. A second run finds no states
to merge, sorts the same names and exchanges the same two of them, and so numbers the states as the
first one did. -/

namespace PatternCircuit

namespace Dfa

/-! ### Exchanging entries -/

theorem map_swapIfInBounds {α β : Type} (f : α → β) (xs : Array α) (i j : Nat) :
    (xs.swapIfInBounds i j).map f = (xs.map f).swapIfInBounds i j := by
  simp only [Array.swapIfInBounds_def, Array.size_map]
  split
  · split
    · apply Array.ext_getElem?
      intro k
      simp only [Array.getElem?_map, Array.getElem?_swap, Array.getElem_map]
      split
      · rfl
      · split <;> rfl
    · rfl
  · rfl

theorem swapIfInBounds_swapIfInBounds {α : Type} (xs : Array α) (i j : Nat) :
    (xs.swapIfInBounds i j).swapIfInBounds i j = xs := by
  by_cases h : i < xs.size ∧ j < xs.size
  · simp [Array.swapIfInBounds_def, h.1, h.2]
  · have hkeep : xs.swapIfInBounds i j = xs := by
      rw [Array.swapIfInBounds_def]
      split
      · rw [dif_neg fun hj => h ⟨‹_›, hj⟩]
      · rfl
    rw [hkeep, hkeep]

/-! ### Order of names -/

/-- One text has to stand before the other. -/
def Precedes (s t : String) : Prop := Lexicographic.textLe s t = true ∧ s ≠ t

/-- The names ascend once the first is exchanged with the one at the given place. -/
def AscendsFrom (names : Array String) (i : Nat) : Prop :=
  i < names.size ∧ (names.swapIfInBounds 0 i).toList.Pairwise Precedes

/-- The blocks in the order of their keys. -/
def sortedBlocks (d : Dfa) (blocks : List (List Nat)) : List (String × List Nat) :=
  sortBy (fun a b => Lexicographic.textLe a.1 b.1) (blocks.map d.keyed)

theorem pairwise_sortedBlocks (d : Dfa) (blocks : List (List Nat)) :
    (d.sortedBlocks blocks).Pairwise fun a b => Lexicographic.textLe a.1 b.1 = true :=
  pairwise_sortBy (fun (a b : String × List Nat) => Lexicographic.textLe_total a.1 b.1)
    Lexicographic.textLe_trans _

theorem arrange_eq {d : Dfa} {blocks : List (List Nat)} {sorted : Array (String × List Nat)}
    (hsorted : d.sortedBlocks blocks = sorted.toList) {i : Nat}
    (hfind : (sorted.findIdx? fun b => b.2.contains 0) = some i) :
    d.arrange blocks = sorted.swapIfInBounds 0 i := by
  rw [sortedBlocks] at hsorted
  simp only [arrange, hsorted, Array.toArray_toList, hfind]

/-- Blocks with different keys are arranged by them. -/
theorem exists_ascendsFrom_arrange {d : Dfa} {blocks : List (List Nat)}
    (hkeys : (blocks.map fun g => (d.keyed g).1).Nodup) (hzero : ∃ g ∈ blocks, 0 ∈ g) :
    ∃ i, AscendsFrom ((d.arrange blocks).map Prod.fst) i := by
  have hperm : (d.sortedBlocks blocks).Perm (blocks.map d.keyed) := sortBy_perm _ _
  obtain ⟨i, hfind⟩ : ∃ i, ((d.sortedBlocks blocks).toArray.findIdx? fun b => b.2.contains 0) =
      some i := by
    obtain ⟨g, hg, hmem⟩ := hzero
    rw [← Option.isSome_iff_exists, Array.findIdx?_isSome, Array.any_eq_true']
    refine ⟨d.keyed g, List.mem_toArray.mpr (hperm.mem_iff.mpr (List.mem_map_of_mem hg)), ?_⟩
    simpa using (d.keyed_perm g).mem_iff.mpr hmem
  obtain ⟨hi, -⟩ := Array.findIdx?_eq_some_iff_getElem.mp hfind
  rw [arrange_eq List.toList_toArray.symm hfind]
  refine ⟨i, by simpa using hi, ?_⟩
  rw [← map_swapIfInBounds, swapIfInBounds_swapIfInBounds, Array.toList_map, List.pairwise_map]
  refine (d.pairwise_sortedBlocks blocks).and ?_
  rw [← List.pairwise_map, ← List.Nodup, (hperm.map Prod.fst).nodup_iff, List.map_map]
  exact hkeys

/-! ### Nothing to merge -/

/-- Each state alone in a block, under its own name. -/
def alone (d : Dfa) : Array (String × List Nat) := d.states.mapIdx fun i s => (s.name, [i])

theorem getElem?_alone (d : Dfa) (i : Nat) :
    d.alone[i]? = (d.states[i]?).map fun s => (s.name, [i]) :=
  Array.getElem?_mapIdx

theorem map_fst_alone (d : Dfa) : d.alone.map Prod.fst = d.states.map DfaState.name := by
  apply Array.ext_getElem?
  intro i
  rw [Array.getElem?_map, Array.getElem?_map, getElem?_alone]
  cases d.states[i]? <;> rfl

theorem keyed_alone (d : Dfa) :
    ((List.range d.states.size).map fun s => d.keyed [s]) = d.alone.toList := by
  apply List.ext_getElem
  · simp [alone]
  · intro i hi _
    have hlt : i < d.states.size := by simpa using hi
    simp [alone, keyed, sortBy, insertSorted, stateText, String.intercalate_singleton, hlt]

/-- Where the first state has been exchanged with another, the start is found in the place of the
other. -/
theorem findIdx?_alone {d : Dfa} {i : Nat} (hi : i < d.states.size) :
    ((d.alone.swapIfInBounds 0 i).findIdx? fun b => b.2.contains 0) = some i := by
  have hlt : i < d.alone.size := by simpa [alone] using hi
  rw [Array.swapIfInBounds_def, dif_pos (by omega), dif_pos hlt,
    Array.findIdx?_eq_some_iff_getElem]
  refine ⟨by simpa using hlt, ?_, ?_⟩
  · by_cases h0 : i = 0 <;> simp [alone, h0]
  · intro j hj
    by_cases h0 : j = 0
    · simp [alone, h0, Nat.ne_of_lt (Nat.zero_lt_of_lt hj)]
    · simp [alone, h0, Nat.ne_of_lt hj, Ne.symm h0]

/-- States that are alone in their blocks keep their order. -/
theorem arrange_eq_alone {d : Dfa} {i : Nat} (h : AscendsFrom (d.states.map DfaState.name) i)
    {blocks : List (List Nat)}
    (hblocks : blocks.Perm ((List.range d.states.size).map fun s => [s])) :
    d.arrange blocks = d.alone := by
  obtain ⟨hi, hascends⟩ := h
  rw [← map_fst_alone, ← map_swapIfInBounds, Array.toList_map, List.pairwise_map] at hascends
  rw [Array.size_map] at hi
  have hperm : (d.sortedBlocks blocks).Perm (d.alone.swapIfInBounds 0 i).toList := by
    refine (sortBy_perm _ _).trans ((hblocks.map d.keyed).trans ?_)
    rw [List.map_map]
    exact (List.Perm.of_eq d.keyed_alone).trans (swapIfInBounds_perm _ _ _).symm
  have hsorted : d.sortedBlocks blocks = (d.alone.swapIfInBounds 0 i).toList := by
    refine List.Perm.eq_of_pairwise ?_ (d.pairwise_sortedBlocks blocks)
      (hascends.imp fun hab => hab.1) hperm
    intro a b ha hb hab hba
    have hnodup : ((d.alone.swapIfInBounds 0 i).toList.map Prod.fst).Nodup :=
      List.pairwise_map.mpr (hascends.imp fun hab => hab.2)
    exact List.inj_on_of_nodup_map hnodup (hperm.mem_iff.mp ha) hb
      (Lexicographic.textLe_antisymm hab hba)
  rw [arrange_eq hsorted (findIdx?_alone hi), swapIfInBounds_swapIfInBounds]

/-- Merging states that are alone in their blocks changes nothing but their members. -/
theorem merge_of_alone {d : Dfa} (hd : d.Canonical) {states : List Nat} {blocks : List (List Nat)}
    (hgroups : Refinement.Grouping states blocks) (hsize : ∀ s ∈ states, s < d.states.size)
    (harrange : d.arrange blocks = d.alone) :
    (d.merge blocks).states = d.states.mapIdx fun i s => { s with members := [i] } := by
  have hplace : ∀ t < d.states.size, (d.places d.alone).getD t 0 = t := by
    intro t ht
    have hget : (d.arrange blocks)[t]? = some (d.states[t].name, [t]) := by
      rw [harrange, getElem?_alone, Array.getElem?_eq_getElem ht]
      rfl
    have heq := place_eq hgroups hsize hget (List.mem_singleton_self t)
    rwa [place, harrange] at heq
  apply Array.ext_getElem?
  intro i
  rw [merge, harrange, Array.getElem?_map, getElem?_alone, Array.getElem?_mapIdx]
  cases hs : d.states[i]? with
  | none => rfl
  | some s =>
      have hedges := edges_of_getElem? hs
      have hcanonical := hd.edges i
      rw [hedges] at hcanonical
      have htargets : s.edges.map (fun e => (e.1, (d.places d.alone).getD e.2 0)) = s.edges := by
        refine (List.map_congr_left fun e he => ?_).trans (List.map_id _)
        rw [hplace e.2 (hcanonical.target e he)]
        rfl
      have hmerged : mergeEdges s.edges = s.edges :=
        mergeEdges_eq_of_perm (.refl _) hcanonical.nodup hcanonical.sorted
      simp only [Option.map_some, List.flatMap_singleton, hedges, htargets, hmerged,
        List.head?_cons, isAccept_of_getElem? hs, Option.getD_some]

/-- Where all states are in use and accept different words, refinement leaves each of them alone. -/
theorem Minimal.blocks_perm {d : Dfa} (hd : d.Minimal) (hlabels : d.Labelled)
    (hreach : ∀ s < d.states.size, ∃ w, d.run? 0 w = some s) :
    d.refinement.blocks.toList.Perm ((List.range d.states.size).map fun s => [s]) := by
  have hun := hd.deterministic.unambiguous hlabels
  have hgroups := (partition_refinement hd.inRange hun).grouping
  have hone : ∀ g ∈ d.refinement.blocks.toList, ∀ p ∈ g, ∀ q ∈ g, p = q := by
    intro g hg p hp q hq
    have hp' := (hgroups.mem_iff p).mpr ⟨g, hg, hp⟩
    have hq' := (hgroups.mem_iff q).mpr ⟨g, hg, hq⟩
    apply hd.distinct p (lt_of_mem_reachable hp') q (lt_of_mem_reachable hq')
    rw [← residual_minimize hd.inRange hun hd.deterministic hp',
      ← residual_minimize hd.inRange hun hd.deterministic hq',
      (place_eq_iff hgroups (fun _ => lt_of_mem_reachable) hp' hq').mpr ⟨g, hg, hp, hq⟩]
  have hsingle : ∀ g ∈ d.refinement.blocks.toList, ∀ s ∈ g, g = [s] := by
    intro g hg s hs
    have hnodup := d.repetitionless_refinement g (Array.mem_toList_iff.mp hg)
    exact List.perm_singleton.mp ((List.perm_ext_iff_of_nodup hnodup (List.nodup_singleton s)).mpr
      fun t => ⟨fun ht => List.mem_singleton.mpr (hone g hg t ht s hs),
        fun ht => List.mem_singleton.mp ht ▸ hs⟩)
  have hnodup : d.refinement.blocks.toList.Nodup := by
    refine hgroups.disjoint.imp_of_mem ?_
    intro g g' hg _ hdisjoint heq
    obtain ⟨s, hs⟩ := List.exists_mem_of_ne_nil g (hgroups.nonempty g hg)
    exact hdisjoint s hs (heq ▸ hs)
  have hrange : ((List.range d.states.size).map fun s => [s]).Nodup :=
    List.nodup_range.map fun _ _ => List.singleton_inj.mp
  refine (List.perm_ext_iff_of_nodup hnodup hrange).mpr fun g => ?_
  rw [List.mem_map]
  constructor
  · intro hg
    obtain ⟨s, hs⟩ := List.exists_mem_of_ne_nil g (hgroups.nonempty g hg)
    have hlt := lt_of_mem_reachable ((hgroups.mem_iff s).mpr ⟨g, hg, hs⟩)
    exact ⟨s, List.mem_range.mpr hlt, (hsingle g hg s hs).symm⟩
  · rintro ⟨s, hs, rfl⟩
    obtain ⟨w, hw⟩ := hreach s (List.mem_range.mp hs)
    obtain ⟨g, hg, hsg⟩ := (hgroups.mem_iff s).mp
      (mem_reachable_of_run? hd.inRange (zero_mem_reachable hd.pos) hw)
    rwa [hsingle g hg s hsg] at hg

/-! ### The automaton of a pattern -/

theorem stateText_ofNfa {n : Nfa} {s : Nat} (h : s < (ofNfa n).states.size) :
    (ofNfa n).stateText s = stateName s := by
  rw [stateText, Array.getElem?_eq_getElem h]
  simp only [ofNfa, Array.getElem_mapIdx]

/-- Blocks without a common state have different keys. -/
theorem nodup_keys_ofNfa {n : Nfa} {states : List Nat} {blocks : List (List Nat)}
    (hgroups : Refinement.Grouping states blocks)
    (hsize : ∀ s ∈ states, s < (ofNfa n).states.size) :
    (blocks.map fun g => ((ofNfa n).keyed g).1).Nodup := by
  have hname : ∀ g ∈ blocks, ∀ s ∈ ((ofNfa n).keyed g).2, (ofNfa n).stateText s = stateName s := by
    intro g hg s hs
    have hmem := (hgroups.mem_iff s).mpr ⟨g, hg, ((ofNfa n).keyed_perm g).mem_iff.mp hs⟩
    exact stateText_ofNfa (hsize s hmem)
  have hcomma : ∀ g ∈ blocks, ∀ name ∈ ((ofNfa n).keyed g).2.map (ofNfa n).stateText,
      ',' ∉ name.toList := by
    intro g hg name hmem
    obtain ⟨s, hs, rfl⟩ := List.mem_map.mp hmem
    rw [hname g hg s hs]
    exact comma_notMem_stateName s
  have hne : ∀ g ∈ blocks, ((ofNfa n).keyed g).2.map (ofNfa n).stateText ≠ [] := by
    intro g hg hnil
    rw [List.map_eq_nil_iff] at hnil
    exact hgroups.nonempty g hg (List.nil_perm.mp (hnil ▸ (ofNfa n).keyed_perm g))
  rw [List.Nodup, List.pairwise_map]
  apply hgroups.disjoint.imp_of_mem
  intro g g' hg hg' hdisjoint heq
  have hnames := eq_of_intercalate_eq (hne g hg) (hne g' hg') (hcomma g hg) (hcomma g' hg') heq
  obtain ⟨s, hs⟩ := List.exists_mem_of_ne_nil g (hgroups.nonempty g hg)
  have hsorted := ((ofNfa n).keyed_perm g).mem_iff.mpr hs
  have hshared := List.mem_map_of_mem (f := (ofNfa n).stateText) hsorted
  rw [hnames] at hshared
  obtain ⟨t, ht, htext⟩ := List.mem_map.mp hshared
  rw [hname g' hg' t ht, hname g hg s hsorted] at htext
  rw [stateName_injective htext] at ht
  exact hdisjoint s hs (((ofNfa n).keyed_perm g').mem_iff.mp ht)

theorem map_name_merge (d : Dfa) (blocks : List (List Nat)) :
    (d.merge blocks).states.map DfaState.name = (d.arrange blocks).map Prod.fst := by
  simp [merge, Function.comp_def]

theorem exists_ascendsFrom_minimize_ofNfa {n : Nfa} (hn : n.InRange)
    (hstart : n.start < n.states.size) :
    ∃ i, AscendsFrom ((ofNfa n).minimize.states.map DfaState.name) i := by
  have hun := (deterministic_ofNfa hn hstart).unambiguous (elementary_ofNfa hn hstart).labelled
  have hgroups := (partition_refinement (inRange_ofNfa hn hstart) hun).grouping
  have hzero := zero_mem_reachable (stands_zero hn hstart).lt
  rw [minimize, map_name_merge]
  exact exists_ascendsFrom_arrange (nodup_keys_ofNfa hgroups fun _ => lt_of_mem_reachable)
    ((hgroups.mem_iff 0).mp hzero)

end Dfa

/-- Minimising the automaton of a pattern again gives the same states in the same order, with the
same names, acceptance and edges. -/
theorem minimize_again_of_minimalDfa {pattern : String} {d : Dfa}
    (h : minimalDfa pattern = .ok d) :
    d.minimize.states = d.states.mapIdx fun i s => { s with members := [i] } := by
  obtain ⟨tree, -, hproper, rfl⟩ := exists_tree_of_minimalDfa h
  have hminimal := (Dfa.minimize_ofTree hproper).1
  have hlabels : (Dfa.ofNfa (.ofTree tree)).minimize.Labelled :=
    fun _ _ => Dfa.exists_symbol_minimize_ofTree tree
  obtain ⟨i, hnames⟩ := Dfa.exists_ascendsFrom_minimize_ofNfa (Nfa.inRange_ofTree tree)
    (Dfa.start_lt_size_ofTree tree)
  have hgroups := (Dfa.partition_refinement hminimal.inRange
    (hminimal.deterministic.unambiguous hlabels)).grouping
  have hblocks := hminimal.blocks_perm hlabels fun _ => Dfa.exists_run?_minimize_ofTree tree
  exact Dfa.merge_of_alone (Dfa.canonical_minimize_ofTree hproper) hgroups
    (fun _ => Dfa.lt_of_mem_reachable) (Dfa.arrange_eq_alone hnames hblocks)

/-- Both ways through `a[xy]z|b[xy]z` are merged, so names are joined and labels hold two bytes. -/
theorem minimize_again_joined_names :
    ∃ d, minimalDfa "a[xy]z|b[xy]z" = .ok d ∧
      d.states.map DfaState.name = #["A", "B,C", "D,E,F,G", "H,I"] ∧
      d.minimize.states = d.states.mapIdx fun i s => { s with members := [i] } := by
  have hrun : (minimalDfa "a[xy]z|b[xy]z").toOption.any (fun d =>
      decide (d.states.map DfaState.name = #["A", "B,C", "D,E,F,G", "H,I"])) = true := by
    decide +kernel
  obtain ⟨d, hd, hnames⟩ := Outcome.exists_ok_of_any hrun
  exact ⟨d, hd, of_decide_eq_true hnames, minimize_again_of_minimalDfa hd⟩

end PatternCircuit
