import Mathlib.Logic.Relation
import Mathlib.Order.Partition.Finpartition
import PatternCircuit.Proofs.Automaton.Minimal

/-! # Minimisation merges the coarsest partition

Whatever the labels of an automaton are, refinement takes them as they stand: the merged states are
the classes of the coarsest partition that respects acceptance and labels. Where no two labels of a
state share a symbol, merging keeps the language, however differently the states divide the
alphabet. -/

namespace PatternCircuit

/-! ### Blocks list their states once -/

namespace Refinement

/-- No block lists a state twice. -/
def Repetitionless (r : Refinement) : Prop := ∀ g ∈ r.blocks, g.Nodup

theorem Repetitionless.divide {r : Refinement} (h : r.Repetitionless) (b : Nat)
    {inside outside : List Nat} (hinside : inside.Nodup) (houtside : outside.Nodup) :
    (r.divide b inside outside).Repetitionless := by
  intro g hg
  rw [Refinement.divide, Array.mem_push] at hg
  cases hg with
  | inl hg =>
      cases Array.mem_or_eq_of_mem_setIfInBounds hg with
      | inl hg => exact h g hg
      | inr heq => exact heq ▸ hinside
  | inr heq => exact heq ▸ houtside

theorem Repetitionless.split {r : Refinement} (h : r.Repetitionless) (b : Nat) :
    (r.split b).Repetitionless := by
  have hblock : (r.block b).Nodup := by
    unfold block
    cases hget : r.blocks[b]? with
    | none => simp [Array.getD_eq_getD_getElem?, hget]
    | some g =>
        rw [Array.getD_eq_getD_getElem?, hget]
        exact h g (Array.mem_of_getElem? hget)
  have hdivided := h.divide b (hblock.filter r.isMarked) (hblock.filter fun s => !r.isMarked s)
  unfold Refinement.split
  simp only
  split
  · exact h
  · generalize (if (_ : Nat) ≤ _ then b else r.blocks.size) = smaller
    split
    · exact hdivided
    · split
      · exact hdivided
      · exact hdivided

theorem Repetitionless.splitBy {r : Refinement} (h : r.Repetitionless) (splitter : List Nat)
    (table : Array (List Nat)) : (splitBy splitter r table).Repetitionless := by
  unfold Refinement.splitBy
  simp only
  split
  · exact h
  · exact List.foldlRecOn _ _ (show (r.setMarks _ true).Repetitionless from h)
      fun _ hr b _ => hr.split b

theorem Repetitionless.run {r : Refinement} (h : r.Repetitionless)
    (tables : List (Array (List Nat))) (rounds : Nat) : (run tables rounds r).Repetitionless := by
  induction rounds generalizing r with
  | zero => exact h
  | succ rounds ih =>
      rw [Refinement.run]
      cases r.queue with
      | nil => exact h
      | cons b rest =>
          apply ih
          exact List.foldlRecOn _ _ (show Repetitionless _ from h)
            fun _ hr table _ => hr.splitBy _ table

/-- A state is in one group only. -/
theorem Grouping.eq_of_mem {states : List Nat} {groups : List (List Nat)}
    (h : Grouping states groups) {g g' : List Nat} (hg : g ∈ groups) (hg' : g' ∈ groups) {s : Nat}
    (hs : s ∈ g) (hs' : s ∈ g') : g = g' := by
  have hsymm : Std.Symm fun g g' : List Nat => ∀ s ∈ g, s ∉ g' :=
    ⟨fun _ _ hdisjoint s hs hs' => hdisjoint s hs' hs⟩
  by_contra hne
  exact h.disjoint.forall hg hg' hne s hs hs'

end Refinement

namespace Dfa

/-! ### Partitions of the reachable states -/

/-- An edge leads from one state to the other. -/
def Leads (d : Dfa) (s t : Nat) : Prop := ∃ l, (l, t) ∈ d.edges s

/-- The states that can be reached from the start. -/
def reached (d : Dfa) : Finset Nat := d.reachable.toFinset

/-- States of one class agree on acceptance, and under every label either none of them has an edge
or their edges lead into one class. -/
structure Respects (d : Dfa) (classes : Finset (Finset Nat)) : Prop where
  accept : ∀ C ∈ classes, ∀ p ∈ C, ∀ q ∈ C, d.isAccept p = d.isAccept q
  edge : ∀ C ∈ classes, ∀ p ∈ C, ∀ q ∈ C, ∀ l,
    (∀ t, (l, t) ∉ d.edges p ∧ (l, t) ∉ d.edges q) ∨
      ∃ D ∈ classes, ∃ t ∈ D, ∃ u ∈ D, (l, t) ∈ d.edges p ∧ (l, u) ∈ d.edges q

/-- The groups of states that the states of an automaton stand for. -/
def groups (d : Dfa) : List (List Nat) := d.states.toList.map DfaState.members

theorem mem_reachable_iff_reflTransGen {d : Dfa} (hpos : 0 < d.states.size) (hin : d.InRange)
    {s : Nat} : s ∈ d.reachable ↔ Relation.ReflTransGen d.Leads 0 s := by
  constructor
  · intro hs
    induction Search.mem_reachable_iff.mp hs with
    | seed hmem _ =>
        split at hmem
        · cases hmem
        · rw [List.mem_singleton.mp hmem]
    | next hreached hmem _ ih =>
        obtain ⟨⟨l, t⟩, he, rfl⟩ := List.mem_map.mp hmem
        exact (ih (Search.mem_reachable_iff.mpr hreached)).tail ⟨l, he⟩
  · intro hreach
    induction hreach with
    | refl => exact zero_mem_reachable hpos
    | tail _ hstep ih =>
        obtain ⟨l, he⟩ := hstep
        exact mem_reachable_of_edge hin ih he

/-- Groups that are disjoint, not empty and cover the states are the parts of a partition. -/
theorem exists_finpartition {states : List Nat} {groups : List (List Nat)}
    (h : Refinement.Grouping states groups) :
    ∃ P : Finpartition states.toFinset, (groups.map List.toFinset).Perm P.parts.toList := by
  have hnodup : (groups.map List.toFinset).Nodup := by
    rw [List.Nodup, List.pairwise_map]
    apply h.disjoint.imp_of_mem
    intro g g' hg _ hdisjoint heq
    obtain ⟨s, hs⟩ := List.exists_mem_of_ne_nil g (h.nonempty g hg)
    have hs' : s ∈ g'.toFinset := heq ▸ List.mem_toFinset.mpr hs
    exact hdisjoint s hs (List.mem_toFinset.mp hs')
  have hmem : ∀ C, C ∈ (groups.map List.toFinset).toFinset ↔ ∃ g ∈ groups, g.toFinset = C := by
    simp
  refine ⟨.ofExistsUnique (groups.map List.toFinset).toFinset ?_ ?_ ?_,
    (List.toFinset_toList hnodup).symm⟩
  · intro C hC s hs
    obtain ⟨g, hg, rfl⟩ := (hmem C).mp hC
    rw [List.mem_toFinset] at hs ⊢
    exact (h.mem_iff s).mpr ⟨g, hg, hs⟩
  · intro s hs
    obtain ⟨g, hg, hsg⟩ := (h.mem_iff s).mp (List.mem_toFinset.mp hs)
    refine ⟨g.toFinset, ⟨(hmem _).mpr ⟨g, hg, rfl⟩, List.mem_toFinset.mpr hsg⟩, ?_⟩
    rintro C ⟨hC, hsC⟩
    obtain ⟨g', hg', rfl⟩ := (hmem C).mp hC
    rw [h.eq_of_mem hg' hg (List.mem_toFinset.mp hsC) hsg]
  · intro hempty
    obtain ⟨g, hg, hnil⟩ := (hmem ∅).mp hempty
    exact h.nonempty g hg (List.toFinset_eq_empty_iff g |>.mp hnil)

/-! ### The merged groups -/

section Minimize

variable {d : Dfa} (hin : d.InRange) (hun : d.Unambiguous)
include hin hun

omit hin hun in
theorem groups_merge (d : Dfa) (blocks : List (List Nat)) :
    (d.merge blocks).groups = (d.arrange blocks).toList.map Prod.snd := by
  simp [groups, merge, Function.comp_def]

omit hin hun in
/-- Merging reorders the blocks and the states of each, so what does not depend on the order can be
told from the blocks. -/
theorem exists_mem_groups_merge_iff (d : Dfa) (blocks : List (List Nat)) {P : List Nat → Prop}
    (hP : ∀ {g g'}, g.Perm g' → (P g ↔ P g')) :
    (∃ g ∈ (d.merge blocks).groups, P g) ↔ ∃ g ∈ blocks, P g := by
  rw [groups_merge]
  simp only [List.mem_map, (d.arrange_perm blocks).mem_iff, exists_exists_and_eq_and]
  exact exists_congr fun g => and_congr_right fun _ => hP (d.keyed_perm g)

omit hin hun in
theorem exists_perm_of_mem_groups {g : List Nat} (hg : g ∈ d.minimize.groups) :
    ∃ g' ∈ d.refinement.blocks.toList, g.Perm g' :=
  (d.exists_mem_groups_merge_iff _ fun hperm => ⟨(·.trans hperm), (·.trans hperm.symm)⟩).mp
    ⟨g, hg, .refl g⟩

theorem grouping_minimize : Refinement.Grouping d.reachable d.minimize.groups := by
  have h := (partition_refinement hin hun).grouping
  refine ⟨?_, ?_, fun s => ?_⟩
  · rw [minimize, groups_merge, List.pairwise_map]
    exact grouping_arrange h
  · intro g hg hnil
    obtain ⟨g', hg', hperm⟩ := exists_perm_of_mem_groups hg
    exact h.nonempty g' hg' (List.nil_perm.mp (hnil ▸ hperm))
  · rw [h.mem_iff, minimize, exists_mem_groups_merge_iff _ _ fun hperm => hperm.mem_iff]

/-- Two states are merged exactly when refinement leaves them in one block. -/
theorem owner_eq_iff_merged {p q : Nat} (hp : p ∈ d.reachable) (hq : q ∈ d.reachable) :
    d.refinement.owner p = d.refinement.owner q ↔ ∃ g ∈ d.minimize.groups, p ∈ g ∧ q ∈ g := by
  rw [(partition_refinement hin hun).owner_eq_iff hp hq, minimize,
    exists_mem_groups_merge_iff _ _ fun hperm => and_congr hperm.mem_iff hperm.mem_iff]

/-- The merged groups respect acceptance and labels. -/
theorem respects_groups {classes : Finset (Finset Nat)}
    (hclasses : ∀ C, C ∈ classes ↔ ∃ g ∈ d.minimize.groups, g.toFinset = C) :
    d.Respects classes := by
  have hgroups := grouping_minimize hin hun
  have hc := congruence_refinement hin hun
  have hmerged : ∀ C ∈ classes, ∀ p ∈ C, ∀ q ∈ C,
      p ∈ d.reachable ∧ q ∈ d.reachable ∧ d.refinement.owner p = d.refinement.owner q := by
    intro C hC p hp q hq
    obtain ⟨g, hg, rfl⟩ := (hclasses C).mp hC
    rw [List.mem_toFinset] at hp hq
    have hps := (hgroups.mem_iff p).mpr ⟨g, hg, hp⟩
    have hqs := (hgroups.mem_iff q).mpr ⟨g, hg, hq⟩
    exact ⟨hps, hqs, (owner_eq_iff_merged hin hun hps hqs).mpr ⟨g, hg, hp, hq⟩⟩
  -- An edge of one member is matched by an edge of the other into the same class.
  have hmatch : ∀ C ∈ classes, ∀ p ∈ C, ∀ q ∈ C, ∀ l t, (l, t) ∈ d.edges p →
      ∃ D ∈ classes, t ∈ D ∧ ∃ u ∈ D, (l, u) ∈ d.edges q := by
    intro C hC p hp q hq l t he
    obtain ⟨hps, hqs, howner⟩ := hmerged C hC p hp q hq
    obtain ⟨u, hu, htu⟩ := hc.edge p hps q hqs howner l t he
    obtain ⟨g, hg, htg, hug⟩ := (owner_eq_iff_merged hin hun (mem_reachable_of_edge hin hps he)
      (mem_reachable_of_edge hin hqs hu)).mp htu
    exact ⟨g.toFinset, (hclasses _).mpr ⟨g, hg, rfl⟩, List.mem_toFinset.mpr htg, u,
      List.mem_toFinset.mpr hug, hu⟩
  constructor
  · intro C hC p hp q hq
    obtain ⟨hps, hqs, howner⟩ := hmerged C hC p hp q hq
    exact hc.accept p hps q hqs howner
  · intro C hC p hp q hq l
    by_cases hpl : ∃ t, (l, t) ∈ d.edges p
    · obtain ⟨t, ht⟩ := hpl
      obtain ⟨D, hD, htD, u, huD, hu⟩ := hmatch C hC p hp q hq l t ht
      exact .inr ⟨D, hD, t, htD, u, huD, ht, hu⟩
    · refine .inl fun t => ⟨fun ht => hpl ⟨t, ht⟩, fun ht => ?_⟩
      obtain ⟨D, _, _, u, _, hu⟩ := hmatch C hC q hq p hp l t ht
      exact hpl ⟨u, hu⟩

/-- No partition that respects acceptance and labels relates states that are not merged. -/
theorem exists_group_of_respects {Q : Finpartition d.reached} (hQ : d.Respects Q.parts)
    {D : Finset Nat} (hD : D ∈ Q.parts) : ∃ g ∈ d.minimize.groups, D ⊆ g.toFinset := by
  have hreached : ∀ C ∈ Q.parts, ∀ s ∈ C, s ∈ d.reachable := by
    intro C hC s hs
    exact List.mem_toFinset.mp (Q.le hC hs)
  have howner : ∀ p ∈ D, ∀ q ∈ D, d.refinement.owner p = d.refinement.owner q := by
    intro p hp q hq
    refine owner_eq_of_related hin hun (E := fun p q => ∃ C ∈ Q.parts, p ∈ C ∧ q ∈ C) ?_ ?_ ?_
      (hreached D hD p hp) (hreached D hD q hq) ⟨D, hD, hp, hq⟩
    · rintro p q ⟨C, hC, hp, hq⟩
      exact ⟨C, hC, hq, hp⟩
    · rintro p _ q _ ⟨C, hC, hp, hq⟩
      exact hQ.accept C hC p hp q hq
    · rintro p _ q _ ⟨C, hC, hp, hq⟩ l t he
      cases hQ.edge C hC p hp q hq l with
      | inl hnone => exact absurd he (hnone t).1
      | inr hsome =>
          obtain ⟨B, hB, t', ht', u, hu, he', hqu⟩ := hsome
          exact ⟨u, hqu, B, hB, hun p l t' t he' he ▸ ht', hu⟩
  have hgroups := grouping_minimize hin hun
  obtain ⟨p, hp⟩ := Q.nonempty_of_mem_parts hD
  obtain ⟨g, hg, hpg⟩ := (hgroups.mem_iff p).mp (hreached D hD p hp)
  refine ⟨g, hg, fun q hq => ?_⟩
  obtain ⟨g', hg', hpg', hqg'⟩ := (owner_eq_iff_merged hin hun (hreached D hD p hp)
    (hreached D hD q hq)).mp (howner p hp q hq)
  rw [List.mem_toFinset, hgroups.eq_of_mem hg hg' hpg hpg']
  exact hqg'

omit hin hun in
theorem repetitionless_refinement (d : Dfa) : d.refinement.Repetitionless := by
  have hstart : (Refinement.start d.states.size (d.initialGroups d.reachable)).Repetitionless := by
    intro g hg
    obtain ⟨v, rfl⟩ := mem_initialGroups (List.mem_toArray.mp hg)
    exact (Search.reachable_pairwise _ _ _).imp Nat.ne_of_lt |>.filter _
  exact hstart.run _ _

omit hin hun in
/-- A merged group lists each of its states once. -/
theorem nodup_of_mem_groups {g : List Nat} (hg : g ∈ d.minimize.groups) : g.Nodup := by
  obtain ⟨g', hg', hperm⟩ := exists_perm_of_mem_groups hg
  rw [hperm.nodup_iff]
  exact d.repetitionless_refinement g' (Array.mem_toList_iff.mp hg')

end Minimize

/-- The states of the minimal automaton stand for the classes of the coarsest partition of the
reachable states that keeps accepting from rejecting states and in which, under every label, the
states of a class have either no edges or edges into one class. -/
theorem minimize_merges_coarsest_partition {d : Dfa} (hpos : 0 < d.states.size) (hin : d.InRange)
    (hlabels : ∀ s, ((d.edges s).map Prod.fst).Nodup) :
    (∀ s, s ∈ d.reached ↔ Relation.ReflTransGen d.Leads 0 s) ∧
      ∃ P : Finpartition d.reached, IsGreatest {Q | d.Respects Q.parts} P ∧
        (d.minimize.groups.map List.toFinset).Perm P.parts.toList ∧
        ∀ g ∈ d.minimize.groups, g.Nodup := by
  have hun := unambiguous_of_nodup hlabels
  refine ⟨fun s => List.mem_toFinset.trans (mem_reachable_iff_reflTransGen hpos hin), ?_⟩
  obtain ⟨P, hP⟩ := exists_finpartition (grouping_minimize hin hun)
  have hparts : ∀ C, C ∈ P.parts ↔ ∃ g ∈ d.minimize.groups, g.toFinset = C := by
    intro C
    rw [← Finset.mem_toList, ← hP.mem_iff, List.mem_map]
  refine ⟨P, ⟨respects_groups hin hun hparts, ?_⟩, hP, fun g hg => nodup_of_mem_groups hg⟩
  intro Q hQ D hD
  obtain ⟨g, hg, hsub⟩ := exists_group_of_respects hin hun hQ hD
  exact ⟨g.toFinset, (hparts _).mpr ⟨g, hg, rfl⟩, hsub⟩

/-- Two states that accept the same words divide the alphabet differently. -/
def dividedAlphabet : Dfa :=
  ⟨#[⟨"A", [], false, [(.ofSymbols [.byte 97, .byte 98], 1), (.ofSymbols [.byte 99, .negate], 2)]⟩,
    ⟨"B", [], false, [(.ofSymbols [.byte 97], 3), (.ofSymbols [.byte 98, .byte 99], 4)]⟩,
    ⟨"C", [], false, [(.ofSymbols [.byte 97, .byte 98], 3), (.ofSymbols [.byte 99], 4)]⟩,
    ⟨"D", [], true, [(.ofSymbols [.byte 97], 4)]⟩,
    ⟨"E", [], true, [(.ofSymbols [.byte 97], 3)]⟩,
    ⟨"F", [], true, [(.ofSymbols [.byte 97], 0)]⟩]⟩

theorem forall_edges {d : Dfa} {P : List (Label × Nat) → Prop} (hnil : P [])
    (h : ∀ state ∈ d.states, P state.edges) (s : Nat) : P (d.edges s) := by
  cases hget : d.states[s]? with
  | none =>
      rw [edges_of_size_le (Array.getElem?_eq_none_iff.mp hget)]
      exact hnil
  | some state =>
      rw [edges_of_getElem? hget]
      exact h state (Array.mem_of_getElem? hget)

theorem inRange_dividedAlphabet : dividedAlphabet.InRange :=
  forall_edges (P := fun es => ∀ e ∈ es, e.2 < dividedAlphabet.states.size) (by simp) (by decide)

/-- The two stay apart, since their labels differ. -/
theorem minimize_merges_dividedAlphabet :
    ∃ P : Finpartition dividedAlphabet.reached,
      IsGreatest {Q | dividedAlphabet.Respects Q.parts} P ∧
        P.parts = {{0}, {1}, {2}, {3, 4}} := by
  have hgroups : dividedAlphabet.minimize.groups = [[0], [1], [2], [3, 4]] := by decide +kernel
  obtain ⟨_, P, hgreatest, hperm, _⟩ := minimize_merges_coarsest_partition (by decide)
    inRange_dividedAlphabet
    (forall_edges (P := fun es => (es.map Prod.fst).Nodup) (by simp) (by decide))
  refine ⟨P, hgreatest, ?_⟩
  rw [hgroups] at hperm
  rw [← Finset.toList_toFinset P.parts, ← List.toFinset_eq_of_perm _ _ hperm]
  decide

/-- Where labels have a symbol and share none, merging states changes no verdict on a word. Each
merged state has labels that share no symbol and one edge to each target, and the merged automaton
has a start and stays inside its states. -/
theorem minimize_keeps_disjoint_labels_and_words {d : Dfa} (hpos : 0 < d.states.size)
    (hin : d.InRange) (hlabels : d.Labelled) (hd : d.Deterministic) :
    (∀ w, d.minimize.accepts w = d.accepts w) ∧ d.minimize.WellFormed ∧ d.minimize.Labelled := by
  have hun := hd.unambiguous hlabels
  refine ⟨fun w => ?_, wellFormed_minimize hin hun hd hpos, labelled_minimize hlabels⟩
  rw [Bool.eq_iff_iff, accepts_iff, accepts_iff, residual_start_minimize hin hun hd hpos]

/-- The states that accept the same words are not merged, but the edges of one of them are. -/
theorem minimize_keeps_words_dividedAlphabet :
    dividedAlphabet.Deterministic ∧ dividedAlphabet.minimize.WellFormed ∧
      dividedAlphabet.minimize.edges 1 = [(.ofSymbols [.byte 97, .byte 98, .byte 99], 3)] ∧
      dividedAlphabet.minimize.accepts [.negate, .byte 98, .byte 97] = true ∧
      dividedAlphabet.minimize.accepts [.byte 98, .negate] = false := by
  have hd : dividedAlphabet.Deterministic := by
    refine forall_edges .nil fun state hstate => ?_
    have hapart : state.edges.Pairwise fun e f => e.1.overlaps f.1 = false := by
      revert state
      decide
    apply hapart.imp
    intro e f hoverlaps a ha
    exact absurd ((e.1.overlaps_eq_true_iff f.1).mpr ⟨a, ha⟩) (by simp [hoverlaps])
  have hlabels : dividedAlphabet.Labelled := by
    refine forall_edges (P := fun es => ∀ e ∈ es, ∃ a, e.1.contains a = true) (by simp) ?_
    simp only [← Label.isEmpty_eq_false_iff]
    decide
  obtain ⟨hwords, hwell, _⟩ := minimize_keeps_disjoint_labels_and_words (by decide)
    inRange_dividedAlphabet hlabels hd
  refine ⟨hd, hwell, by decide +kernel, ?_, ?_⟩
  · rw [hwords]
    decide
  · rw [hwords]
    decide

end Dfa

end PatternCircuit
