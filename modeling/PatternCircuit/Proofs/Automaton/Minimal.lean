import PatternCircuit.Automaton.Minimal
import PatternCircuit.Proofs.Automaton.Refinement
import PatternCircuit.Proofs.Automaton.Subset

/-! # Correctness of minimisation

The minimal automaton accepts the same words, and no two of its states accept the same words. -/

namespace PatternCircuit.Dfa

/-! ### The tables of refinement -/

theorem lt_of_mem_reachable {d : Dfa} {s : Nat} (h : s ∈ d.reachable) : s < d.states.size :=
  (Search.mem_reachable_iff.mp h).lt

theorem zero_mem_reachable {d : Dfa} (h : 0 < d.states.size) : 0 ∈ d.reachable := by
  refine Search.mem_reachable_iff.mpr (.seed ?_ h)
  rw [if_neg]
  · exact List.mem_singleton_self 0
  · simp only [Array.isEmpty_iff_size_eq_zero]
    omega

theorem mem_reachable_of_edge {d : Dfa} (hd : d.InRange) {s : Nat} {e : Label × Nat}
    (hs : s ∈ d.reachable) (he : e ∈ d.edges s) : e.2 ∈ d.reachable :=
  Search.mem_reachable_iff.mpr
    (.next (Search.mem_reachable_iff.mp hs) (List.mem_map_of_mem he) (hd s e he))

theorem mem_reachable_of_run? {d : Dfa} (hd : d.InRange) {w : List Symbol} {s t : Nat}
    (hs : s ∈ d.reachable) (h : d.run? s w = some t) : t ∈ d.reachable :=
  run?_closed (fun _ hs _ he => mem_reachable_of_edge hd hs he) hs h

/-- Enters a state as a predecessor for each of its edges under a label. -/
def addEdges (l : Label) (s : Nat) (es : List (Label × Nat)) (table : Array (List Nat)) :
    Array (List Nat) :=
  es.foldr (fun e table => if e.1 = l then table.modify e.2 (s :: ·) else table) table

theorem size_addEdges (l : Label) (s : Nat) (es : List (Label × Nat)) (table : Array (List Nat)) :
    (addEdges l s es table).size = table.size := by
  unfold addEdges
  induction es with
  | nil => rfl
  | cons e es ih =>
      rw [List.foldr_cons]
      split
      · rw [Array.size_modify, ih]
      · exact ih

theorem getD_modify_cons {table : Array (List Nat)} {t : Nat} (ht : t < table.size) (i s : Nat) :
    (table.modify i (s :: ·)).getD t [] =
      if i = t then s :: table.getD t [] else table.getD t [] := by
  simp only [Array.getD_eq_getD_getElem?, Array.getElem?_modify, Array.getElem?_eq_getElem ht]
  by_cases hi : i = t <;> simp [hi]

theorem mem_addEdges {l : Label} {s p t : Nat} {es : List (Label × Nat)}
    {table : Array (List Nat)} (ht : t < table.size) :
    p ∈ (addEdges l s es table).getD t [] ↔ p = s ∧ (l, t) ∈ es ∨ p ∈ table.getD t [] := by
  induction es with
  | nil => simp [addEdges]
  | cons e es ih =>
      have hstep : addEdges l s (e :: es) table =
          if e.1 = l then (addEdges l s es table).modify e.2 (s :: ·)
          else addEdges l s es table := rfl
      have hlt : t < (addEdges l s es table).size := by rwa [size_addEdges]
      rw [hstep, List.mem_cons]
      by_cases hl : e.1 = l
      · rw [if_pos hl, getD_modify_cons hlt]
        by_cases hte : e.2 = t
        · have heq : (l, t) = e := by rw [← hl, ← hte]
          rw [if_pos hte, List.mem_cons, ih]
          tauto
        · have hne : (l, t) ≠ e := fun heq => hte (heq ▸ rfl)
          rw [if_neg hte, ih]
          tauto
      · have hne : (l, t) ≠ e := fun heq => hl (heq ▸ rfl)
        rw [if_neg hl, ih]
        tauto

theorem predecessors_cons (d : Dfa) (s : Nat) (states : List Nat) (l : Label) :
    d.predecessors (s :: states) l = addEdges l s (d.edges s) (d.predecessors states l) := rfl

theorem size_predecessors (d : Dfa) (states : List Nat) (l : Label) :
    (d.predecessors states l).size = d.states.size := by
  induction states with
  | nil => simp [predecessors]
  | cons s states ih => rw [predecessors_cons, size_addEdges, ih]

theorem mem_predecessors {d : Dfa} (hd : d.InRange) {states : List Nat} {l : Label} {p t : Nat} :
    p ∈ (d.predecessors states l).getD t [] ↔ p ∈ states ∧ (l, t) ∈ d.edges p := by
  by_cases ht : t < d.states.size
  · induction states with
    | nil => simp [predecessors, Array.getD_eq_getD_getElem?, ht]
    | cons s states ih =>
        rw [predecessors_cons, mem_addEdges (by rwa [size_predecessors]), ih, List.mem_cons]
        constructor
        · rintro (⟨rfl, he⟩ | ⟨hp, he⟩)
          · exact ⟨.inl rfl, he⟩
          · exact ⟨.inr hp, he⟩
        · rintro ⟨rfl | hp, he⟩
          · exact .inl ⟨rfl, he⟩
          · exact .inr ⟨hp, he⟩
  · have hnone : (d.predecessors states l).getD t [] = [] := by
      simp [Array.getD_eq_getD_getElem?, size_predecessors, Nat.le_of_not_lt ht]
    rw [hnone]
    constructor
    · intro hp
      cases hp
    · rintro ⟨_, he⟩
      exact absurd (hd p _ he) ht

theorem tableOver_predecessors {d : Dfa} (hin : d.InRange) (hun : d.Unambiguous) (l : Label) :
    Refinement.TableOver d.reachable (d.predecessors d.reachable l) where
  functional p t t' h h' := by
    rw [mem_predecessors hin] at h h'
    exact hun p l t t' h.2 h'.2
  source_mem p t h := ((mem_predecessors hin).mp h).1
  target_mem p t h := by
    obtain ⟨hp, he⟩ := (mem_predecessors hin).mp h
    exact mem_reachable_of_edge hin hp he

theorem mem_initialGroups {d : Dfa} {states g : List Nat} (h : g ∈ d.initialGroups states) :
    ∃ v, g = states.filter fun s => d.isAccept s == v := by
  obtain ⟨hmem, _⟩ := List.mem_filter.mp h
  rcases List.mem_cons.mp hmem with rfl | hmem
  · exact ⟨true, by simp⟩
  · rw [List.mem_singleton.mp hmem]
    exact ⟨false, by simp⟩

theorem exists_initialGroup {d : Dfa} {states : List Nat} {s : Nat} (h : s ∈ states) :
    ∃ (i : Nat) (g : List Nat), (d.initialGroups states)[i]? = some g ∧
      ∀ q, q ∈ g ↔ q ∈ states ∧ d.isAccept q = d.isAccept s := by
  have hmem : states.filter (fun q => d.isAccept q == d.isAccept s) ∈ d.initialGroups states := by
    refine List.mem_filter.mpr ⟨?_, ?_⟩
    · cases d.isAccept s <;> simp
    · have hs : s ∈ states.filter (fun q => d.isAccept q == d.isAccept s) := by simp [h]
      simp [List.ne_nil_of_mem hs]
  obtain ⟨i, hi⟩ := List.mem_iff_getElem?.mp hmem
  exact ⟨i, _, hi, by simp⟩

theorem grouping_initialGroups (d : Dfa) (states : List Nat) :
    Refinement.Grouping states (d.initialGroups states) where
  disjoint := by
    refine List.Pairwise.filter _ (List.pairwise_pair.mpr ?_)
    intro s hs hs'
    simp only [List.mem_filter] at hs hs'
    simp [hs.2] at hs'
  nonempty g hg := by simpa using (List.mem_filter.mp hg).2
  mem_iff s := by
    constructor
    · intro hs
      obtain ⟨i, g, hi, hg⟩ := exists_initialGroup (d := d) hs
      exact ⟨g, List.mem_of_getElem? hi, (hg s).mpr ⟨hs, rfl⟩⟩
    · rintro ⟨g, hg, hs⟩
      obtain ⟨v, rfl⟩ := mem_initialGroups hg
      exact (List.mem_filter.mp hs).1

theorem owner_start_eq_iff {d : Dfa} {states : List Nat} {size : Nat}
    (hsize : ∀ s ∈ states, s < size) {p q : Nat} (hp : p ∈ states) (hq : q ∈ states) :
    (Refinement.start size (d.initialGroups states)).owner p =
        (Refinement.start size (d.initialGroups states)).owner q ↔
      d.isAccept p = d.isAccept q := by
  have hgroups := grouping_initialGroups d states
  obtain ⟨i, g, hi, hg⟩ := exists_initialGroup (d := d) hp
  obtain ⟨j, g', hj, hg'⟩ := exists_initialGroup (d := d) hq
  have howner := Refinement.owner_start hgroups hsize hi ((hg p).mpr ⟨hp, rfl⟩)
  have howner' := Refinement.owner_start hgroups hsize hj ((hg' q).mpr ⟨hq, rfl⟩)
  constructor
  · intro heq
    rw [howner, howner'] at heq
    rw [heq, hj] at hi
    cases hi
    exact ((hg' p).mp ((hg p).mpr ⟨hp, rfl⟩)).2
  · intro heq
    have hmem := (hg q).mpr ⟨hq, heq.symm⟩
    rw [howner, Refinement.owner_start hgroups hsize hi hmem]

/-! ### The refined partition -/

/-- States of one class agree on acceptance and have, under each label, edges into one class. -/
structure Congruence (d : Dfa) (states : List Nat) (place : Nat → Nat) : Prop where
  accept : ∀ p ∈ states, ∀ q ∈ states, place p = place q → d.isAccept p = d.isAccept q
  edge : ∀ p ∈ states, ∀ q ∈ states, place p = place q → ∀ l t, (l, t) ∈ d.edges p →
    ∃ t', (l, t') ∈ d.edges q ∧ place t = place t'

theorem mem_alphabet {d : Dfa} {states : List Nat} {s : Nat} (hs : s ∈ states) {e : Label × Nat}
    (he : e ∈ d.edges s) : e.1 ∈ d.alphabet states := by
  rw [alphabet, mem_sortBy, List.mem_eraseDups]
  exact List.mem_flatMap.mpr ⟨s, hs, List.mem_map_of_mem he⟩

/-- In a live automaton with an edge for each symbol, states that accept the same words have edges
under the same labels, into states that accept the same words. -/
theorem edge_of_residual_eq {d : Dfa} (hin : d.InRange) (hd : d.Deterministic)
    (hel : d.Elementary) (hlive : d.Live) {p q t : Nat} {l : Label}
    (h : d.residual p = d.residual q) (he : (l, t) ∈ d.edges p) :
    ∃ t', (l, t') ∈ d.edges q ∧ d.residual t = d.residual t' := by
  obtain ⟨a, hl⟩ := hel p _ he
  simp only at hl
  subst hl
  have hstep : d.step? p a = some t := (step?_eq_some_iff hd).mpr ⟨_, he, by simp⟩
  have hquotient := residual_of_step? hstep
  obtain ⟨w, hw⟩ := hlive t (hin p _ he)
  cases hq : d.step? q a with
  | none =>
      have hrun : d.run? q [a] = none := by simp [run?_cons, hq]
      rw [hquotient, h, leftQuotient_of_run?_none hrun] at hw
      exact absurd hw (Language.notMem_zero w)
  | some t' =>
      obtain ⟨m, hmem, ha⟩ := exists_edge_of_step? hq
      obtain ⟨c, hm⟩ := hel q _ hmem
      simp only at hm
      subst hm
      rw [Label.contains_ofSymbol, decide_eq_true_eq] at ha
      subst ha
      exact ⟨t', hmem, by rw [hquotient, h, residual_of_step? hq]⟩

section Refined

variable {d : Dfa} (hin : d.InRange) (hun : d.Unambiguous)
include hin hun

theorem tableOver_of_mem {table : Array (List Nat)}
    (h : table ∈ (d.alphabet d.reachable).map (d.predecessors d.reachable)) :
    Refinement.TableOver d.reachable table := by
  obtain ⟨l, _, rfl⟩ := List.mem_map.mp h
  exact tableOver_predecessors hin hun l

theorem partition_refinement : Refinement.Partition d.reachable d.refinement :=
  (Refinement.run_start_spec (grouping_initialGroups d d.reachable)
    (fun _ => lt_of_mem_reachable) fun _ => tableOver_of_mem hin hun).1

theorem congruence_refinement : d.Congruence d.reachable d.refinement.owner := by
  obtain ⟨_, hrefines, hstable, _⟩ :=
    Refinement.run_start_spec (grouping_initialGroups d d.reachable) (fun _ => lt_of_mem_reachable)
      fun _ => tableOver_of_mem hin hun
  constructor
  · intro p hp q hq heq
    exact (owner_start_eq_iff (fun _ => lt_of_mem_reachable) hp hq).mp (hrefines p hp q hq heq)
  · intro p hp q hq heq l t he
    have htable := List.mem_map_of_mem (f := d.predecessors d.reachable) (mem_alphabet hp he)
    obtain ⟨t', hmem, howner⟩ :=
      hstable _ htable p hp q hq heq t ((mem_predecessors hin).mpr ⟨hp, he⟩)
    exact ⟨t', ((mem_predecessors hin).mp hmem).2, howner⟩

/-- States are never separated if some relation that respects acceptance and labels relates them. -/
theorem owner_eq_of_related {E : Nat → Nat → Prop} (hsymm : ∀ p q, E p q → E q p)
    (haccept : ∀ p ∈ d.reachable, ∀ q ∈ d.reachable, E p q → d.isAccept p = d.isAccept q)
    (hedge : ∀ p ∈ d.reachable, ∀ q ∈ d.reachable, E p q → ∀ l t, (l, t) ∈ d.edges p →
      ∃ t', (l, t') ∈ d.edges q ∧ E t t')
    {p q : Nat} (hp : p ∈ d.reachable) (hq : q ∈ d.reachable) (h : E p q) :
    d.refinement.owner p = d.refinement.owner q := by
  obtain ⟨_, _, _, hkeeps⟩ :=
    Refinement.run_start_spec (grouping_initialGroups d d.reachable) (fun _ => lt_of_mem_reachable)
      fun _ => tableOver_of_mem hin hun
  refine hkeeps (fun p q => q ∈ d.reachable ∧ p ∈ d.reachable ∧ E p q) ⟨?_, ?_⟩ ?_ p hp q hq
    ⟨hq, hp, h⟩
  · rintro p q ⟨hq, hp, hE⟩
    exact ⟨hp, hq, hsymm p q hE⟩
  · rintro table htable p q ⟨hq, hp, hE⟩ t hpt
    obtain ⟨l, _, rfl⟩ := List.mem_map.mp htable
    obtain ⟨_, he⟩ := (mem_predecessors hin).mp hpt
    obtain ⟨t', he', hE'⟩ := hedge p hp q hq hE l t he
    exact ⟨t', (mem_predecessors hin).mpr ⟨hq, he'⟩, mem_reachable_of_edge hin hq he',
      mem_reachable_of_edge hin hp he, hE'⟩
  · rintro p hp q hq ⟨_, _, hE⟩
    exact (owner_start_eq_iff (fun _ => lt_of_mem_reachable) hp hq).mpr (haccept p hp q hq hE)

omit hun in
/-- States that accept the same words are never separated. -/
theorem owner_eq_of_residual_eq (hd : d.Deterministic) (hel : d.Elementary) (hlive : d.Live)
    {p q : Nat} (hp : p ∈ d.reachable) (hq : q ∈ d.reachable) (h : d.residual p = d.residual q) :
    d.refinement.owner p = d.refinement.owner q := by
  refine owner_eq_of_related hin (hd.unambiguous hel.labelled)
    (E := fun p q => d.residual p = d.residual q) (fun _ _ heq => heq.symm) ?_ ?_ hp hq h
  · intro p _ q _ heq
    rw [Bool.eq_iff_iff, ← nil_mem_residual, ← nil_mem_residual, heq]
  · intro p _ q _ heq l t he
    exact edge_of_residual_eq hin hd hel hlive heq he

end Refined

/-! ### Merged edges -/

theorem mem_mergeEdges {es : List (Label × Nat)} {e : Label × Nat} :
    e ∈ mergeEdges es ↔ (∃ l, (l, e.2) ∈ es) ∧
      e.1 = (es.filter fun f => f.2 == e.2).foldl (fun l f => l.union f.1) .empty := by
  obtain ⟨l, t⟩ := e
  simp only [mergeEdges, mem_sortBy, List.mem_map, List.mem_eraseDups]
  constructor
  · rintro ⟨_, ⟨⟨l', t'⟩, hmem, rfl⟩, heq⟩
    cases heq
    exact ⟨⟨l', hmem⟩, rfl⟩
  · rintro ⟨⟨l', hmem⟩, rfl⟩
    exact ⟨t, ⟨(l', t), hmem, rfl⟩, rfl⟩

/-- A merged edge is for the symbols of all edges to its target. -/
theorem contains_of_mem_mergeEdges {es : List (Label × Nat)} {e : Label × Nat}
    (h : e ∈ mergeEdges es) {a : Symbol} :
    e.1.contains a = true ↔ ∃ l, (l, e.2) ∈ es ∧ l.contains a = true := by
  rw [(mem_mergeEdges.mp h).2, Label.contains_foldl_union]
  simp only [Label.contains_empty, Bool.false_or, List.any_eq_true, List.mem_filter, beq_iff_eq]
  constructor
  · rintro ⟨⟨l, t⟩, ⟨hmem, ht⟩, ha⟩
    simp only at ht
    subst ht
    exact ⟨l, hmem, ha⟩
  · rintro ⟨l, hmem, ha⟩
    exact ⟨(l, e.2), ⟨hmem, rfl⟩, ha⟩

theorem exists_mergeEdge {es : List (Label × Nat)} {l : Label} {t : Nat} (h : (l, t) ∈ es) :
    ∃ m, (m, t) ∈ mergeEdges es :=
  ⟨(es.filter fun f => f.2 == t).foldl (fun l f => l.union f.1) .empty,
    mem_mergeEdges.mpr ⟨⟨l, h⟩, rfl⟩⟩

/-- There is one merged edge to each target. -/
theorem nodup_mergeEdges (es : List (Label × Nat)) : ((mergeEdges es).map Prod.snd).Nodup := by
  have hperm := (sortBy_perm edgeLe ((es.map Prod.snd).eraseDups.map fun t =>
    ((es.filter fun e => e.2 == t).foldl (fun l e => l.union e.1) Label.empty, t))).map Prod.snd
  apply hperm.nodup_iff.mpr
  rw [List.map_map]
  exact (List.map_id _).symm ▸ nodup_eraseDups (es.map Prod.snd)

/-- Merged edges share no symbol if edges on one symbol lead to one target. -/
theorem pairwise_apart_mergeEdges {es : List (Label × Nat)}
    (h : ∀ e ∈ es, ∀ f ∈ es, ∀ a, e.1.contains a = true → f.1.contains a = true → e.2 = f.2) :
    (mergeEdges es).Pairwise Apart := by
  have hnodup := nodup_mergeEdges es
  rw [List.Nodup, List.pairwise_map] at hnodup
  apply hnodup.imp_of_mem
  intro e f he hf hne a ha
  obtain ⟨l, hl, hla⟩ := (contains_of_mem_mergeEdges he).mp ha.1
  obtain ⟨m, hm, hma⟩ := (contains_of_mem_mergeEdges hf).mp ha.2
  exact hne (h (l, e.2) hl (m, f.2) hm a hla hma)

/-! ### The place of a block -/

theorem keyed_perm (d : Dfa) (block : List Nat) : (d.keyed block).2.Perm block := sortBy_perm _ _

theorem swapIfInBounds_perm {α : Type} (xs : Array α) (i j : Nat) :
    (xs.swapIfInBounds i j).toList.Perm xs.toList := by
  rw [Array.swapIfInBounds_def]
  split
  · split
    · exact (Array.swap_perm _ _).toList
    · exact .refl _
  · exact .refl _

theorem arrange_perm (d : Dfa) (blocks : List (List Nat)) :
    (d.arrange blocks).toList.Perm (blocks.map d.keyed) := by
  have hsorted := sortBy_perm (fun a b => Lexicographic.textLe a.1 b.1) (blocks.map d.keyed)
  unfold arrange
  simp only
  split
  · exact (swapIfInBounds_perm _ _ _).trans hsorted
  · exact hsorted

theorem mem_arrange {d : Dfa} {blocks : List (List Nat)} {b : String × List Nat}
    (h : b ∈ (d.arrange blocks).toList) : ∃ g ∈ blocks, ∀ s, s ∈ b.2 ↔ s ∈ g := by
  obtain ⟨g, hg, rfl⟩ := List.mem_map.mp ((d.arrange_perm blocks).mem_iff.mp h)
  exact ⟨g, hg, fun s => (d.keyed_perm g).mem_iff⟩

theorem exists_arranged {d : Dfa} {blocks : List (List Nat)} {g : List Nat} (h : g ∈ blocks) :
    ∃ b ∈ (d.arrange blocks).toList, ∀ s, s ∈ b.2 ↔ s ∈ g :=
  ⟨d.keyed g, (d.arrange_perm blocks).mem_iff.mpr (List.mem_map_of_mem h),
    fun _ => (d.keyed_perm g).mem_iff⟩

/-- The block of the start comes first. -/
theorem zero_mem_arrange {d : Dfa} {blocks : List (List Nat)} (h : ∃ g ∈ blocks, 0 ∈ g) :
    ∃ b, (d.arrange blocks)[0]? = some b ∧ 0 ∈ b.2 := by
  obtain ⟨g, hg, hmem⟩ := h
  unfold arrange
  generalize hsorted : (sortBy (fun a b => Lexicographic.textLe a.1 b.1)
    (blocks.map d.keyed)).toArray = sorted
  have hin : d.keyed g ∈ sorted := by
    rw [← hsorted, List.mem_toArray, mem_sortBy]
    exact List.mem_map_of_mem hg
  simp only
  split
  · rename_i i hfind
    obtain ⟨hi, hcontains, _⟩ := Array.findIdx?_eq_some_iff_getElem.mp hfind
    refine ⟨sorted[i], ?_, by simpa using hcontains⟩
    have hpos : 0 < sorted.size := by omega
    rw [Array.swapIfInBounds, dif_pos hpos, dif_pos hi, Array.getElem?_swap]
    split
    · rename_i hi0
      simp only [hi0]
    · rfl
  · rename_i hfind
    have hnot := Array.findIdx?_eq_none_iff.mp hfind _ hin
    rw [List.contains_eq_mem, decide_eq_false_iff_not, (d.keyed_perm g).mem_iff] at hnot
    exact absurd hmem hnot

theorem grouping_arrange {d : Dfa} {states : List Nat} {blocks : List (List Nat)}
    (h : Refinement.Grouping states blocks) :
    (d.arrange blocks).toList.Pairwise fun b b' => ∀ s ∈ b.2, s ∉ b'.2 := by
  refine ((d.arrange_perm blocks).pairwise_iff ?_).mpr ?_
  · intro b b' hdisjoint s hs hs'
    exact hdisjoint s hs' hs
  · rw [List.pairwise_map]
    apply h.disjoint.imp
    intro g g' hdisjoint s hs hs'
    rw [(d.keyed_perm _).mem_iff] at hs hs'
    exact hdisjoint s hs hs'

/-- The place of a state's block. -/
def place (d : Dfa) (blocks : List (List Nat)) (s : Nat) : Nat :=
  (d.places (d.arrange blocks)).getD s 0

section Place

variable {d : Dfa} {blocks : List (List Nat)} {states : List Nat}
variable (h : Refinement.Grouping states blocks) (hsize : ∀ s ∈ states, s < d.states.size)
include h hsize

theorem place_eq {i s : Nat} {b : String × List Nat} (hi : (d.arrange blocks)[i]? = some b)
    (hs : s ∈ b.2) : d.place blocks s = i := by
  rw [← Array.getElem?_toList] at hi
  obtain ⟨g, hg, hmem⟩ := mem_arrange (List.mem_of_getElem? hi)
  have hlt := hsize s ((h.mem_iff s).mpr ⟨g, hg, (hmem s).mp hs⟩)
  have hplace := Table.getD_assignGroups Prod.snd (grouping_arrange h) hi hs 0
    (t := Array.replicate d.states.size 0) (by simpa using hlt)
  rw [Nat.zero_add] at hplace
  exact hplace

/-- A state is in the block at its place. -/
theorem exists_place {s : Nat} (hs : s ∈ states) :
    ∃ b, (d.arrange blocks)[d.place blocks s]? = some b ∧ s ∈ b.2 := by
  obtain ⟨g, hg, hsg⟩ := (h.mem_iff s).mp hs
  obtain ⟨b, hb, hmem⟩ := exists_arranged (d := d) hg
  obtain ⟨i, hi⟩ := List.mem_iff_getElem?.mp hb
  rw [Array.getElem?_toList] at hi
  have hsb := (hmem s).mpr hsg
  rw [place_eq h hsize hi hsb]
  exact ⟨b, hi, hsb⟩

theorem place_eq_iff {p q : Nat} (hp : p ∈ states) (hq : q ∈ states) :
    d.place blocks p = d.place blocks q ↔ ∃ g ∈ blocks, p ∈ g ∧ q ∈ g := by
  obtain ⟨b, hb, hpb⟩ := exists_place h hsize hp
  constructor
  · intro heq
    obtain ⟨b', hb', hqb'⟩ := exists_place h hsize hq
    rw [← heq, hb] at hb'
    cases hb'
    obtain ⟨g, hg, hmem⟩ := mem_arrange (Array.mem_toList_iff.mpr (Array.mem_of_getElem? hb))
    exact ⟨g, hg, (hmem p).mp hpb, (hmem q).mp hqb'⟩
  · rintro ⟨g, hg, hpg, hqg⟩
    obtain ⟨b', hb', hmem⟩ := exists_arranged (d := d) hg
    obtain ⟨i, hi⟩ := List.mem_iff_getElem?.mp hb'
    rw [Array.getElem?_toList] at hi
    rw [place_eq h hsize hi ((hmem p).mpr hpg), place_eq h hsize hi ((hmem q).mpr hqg)]

theorem place_zero (hzero : 0 ∈ states) : d.place blocks 0 = 0 := by
  obtain ⟨b, hb, hmem⟩ := zero_mem_arrange (d := d) ((h.mem_iff 0).mp hzero)
  exact place_eq h hsize hb hmem

theorem place_lt {s : Nat} (hs : s ∈ states) : d.place blocks s < (d.arrange blocks).size := by
  obtain ⟨b, hb, _⟩ := exists_place h hsize hs
  exact (Array.getElem?_eq_some_iff.mp hb).1

/-- Every place is that of some state. -/
theorem exists_of_lt_arrange {i : Nat} (hi : i < (d.arrange blocks).size) :
    ∃ s ∈ states, d.place blocks s = i := by
  have hget := Array.getElem?_eq_getElem hi
  obtain ⟨g, hg, hmem⟩ := mem_arrange (Array.mem_toList_iff.mpr (Array.mem_of_getElem? hget))
  obtain ⟨s, hs⟩ := List.exists_mem_of_ne_nil g (h.nonempty g hg)
  exact ⟨s, (h.mem_iff s).mpr ⟨g, hg, hs⟩, place_eq h hsize hget ((hmem s).mpr hs)⟩

/-! ### Merging -/

omit h hsize in
theorem size_merge (d : Dfa) (blocks : List (List Nat)) :
    (d.merge blocks).states.size = (d.arrange blocks).size := by
  simp [merge]

omit h hsize in
/-- The edges of a merged state are those of its members, taken to the places of their targets. -/
theorem exists_edges_merge {i : Nat} {b : String × List Nat}
    (hi : (d.arrange blocks)[i]? = some b) :
    ∃ es, (d.merge blocks).edges i = mergeEdges es ∧
      ∀ l j, (l, j) ∈ es ↔ ∃ p ∈ b.2, ∃ t, (l, t) ∈ d.edges p ∧ d.place blocks t = j := by
  refine ⟨b.2.flatMap fun s => (d.edges s).map fun e => (e.1, d.place blocks e.2), ?_, ?_⟩
  · have hstate : (d.merge blocks).states[i]? = some
        { name := b.1, members := b.2, accept := (b.2.head?.map d.isAccept).getD false
          edges := mergeEdges (b.2.flatMap fun s =>
            (d.edges s).map fun e => (e.1, d.place blocks e.2)) } := by
      rw [merge, Array.getElem?_map, hi]
      rfl
    exact edges_of_getElem? hstate
  · intro l j
    simp only [List.mem_flatMap, List.mem_map, Prod.mk.injEq]
    constructor
    · rintro ⟨p, hp, ⟨l', t⟩, he, rfl, rfl⟩
      exact ⟨p, hp, t, he, rfl⟩
    · rintro ⟨p, hp, t, he, rfl⟩
      exact ⟨p, hp, (l, t), he, rfl, rfl⟩

theorem mem_of_mem_arrange {i : Nat} {b : String × List Nat}
    (hi : (d.arrange blocks)[i]? = some b) {p : Nat} (hp : p ∈ b.2) :
    p ∈ states ∧ d.place blocks p = i := by
  obtain ⟨g, hg, hmem⟩ := mem_arrange (Array.mem_toList_iff.mpr (Array.mem_of_getElem? hi))
  exact ⟨(h.mem_iff p).mpr ⟨g, hg, (hmem p).mp hp⟩, place_eq h hsize hi hp⟩

theorem isAccept_merge (hc : d.Congruence states (d.place blocks)) {s : Nat} (hs : s ∈ states) :
    (d.merge blocks).isAccept (d.place blocks s) = d.isAccept s := by
  obtain ⟨b, hb, hsb⟩ := exists_place h hsize hs
  obtain ⟨p, hp⟩ : ∃ p, b.2.head? = some p :=
    Option.isSome_iff_exists.mp (by simpa using List.ne_nil_of_mem hsb)
  have haccept : (d.merge blocks).isAccept (d.place blocks s) = d.isAccept p := by
    simp [isAccept, merge, hb, hp]
  obtain ⟨hmem, hplace⟩ := mem_of_mem_arrange h hsize hb (List.mem_of_mem_head? hp)
  rw [haccept]
  exact hc.accept p hmem s hs hplace

omit h hsize in
/-- Members of a merged state have edges on the same symbols, into one place. -/
theorem Congruence.place_target_eq (hc : d.Congruence states (d.place blocks))
    (hd : d.Deterministic) {p q t t' : Nat} {l l' : Label} {a : Symbol} (hp : p ∈ states)
    (hq : q ∈ states) (hpq : d.place blocks p = d.place blocks q) (he : (l, t) ∈ d.edges p)
    (he' : (l', t') ∈ d.edges q) (ha : l.contains a = true) (ha' : l'.contains a = true) :
    d.place blocks t = d.place blocks t' := by
  obtain ⟨u, hu, heq⟩ := hc.edge p hp q hq hpq l t he
  rw [heq, (Prod.mk.inj (eq_of_overlap hd hu he' ha ha')).2]

theorem inRange_merge (hclosed : ∀ s ∈ states, ∀ e ∈ d.edges s, e.2 ∈ states) :
    (d.merge blocks).InRange := by
  rintro i ⟨l, j⟩ he
  have hlt := lt_size_of_mem_edges he
  rw [size_merge] at hlt
  have hi := Array.getElem?_eq_getElem hlt
  obtain ⟨es, hedges, hes⟩ := exists_edges_merge hi
  rw [hedges] at he
  obtain ⟨⟨l', hmem⟩, _⟩ := mem_mergeEdges.mp he
  obtain ⟨p, hp, t, hpt, rfl⟩ := (hes l' j).mp hmem
  rw [size_merge]
  exact place_lt h hsize (hclosed p (mem_of_mem_arrange h hsize hi hp).1 _ hpt)

omit h hsize in
theorem exists_edges_eq_mergeEdges (d : Dfa) (blocks : List (List Nat)) (i : Nat) :
    ∃ es, (d.merge blocks).edges i = mergeEdges es := by
  by_cases hlt : i < (d.merge blocks).states.size
  · obtain ⟨es, hedges, _⟩ :=
      exists_edges_merge (Array.getElem?_eq_getElem (size_merge d blocks ▸ hlt))
    exact ⟨es, hedges⟩
  · exact ⟨[], edges_of_size_le (Nat.le_of_not_lt hlt)⟩

omit h hsize in
/-- A merged state has one edge to each target. -/
theorem nodup_edges_merge (d : Dfa) (blocks : List (List Nat)) (i : Nat) :
    (((d.merge blocks).edges i).map Prod.snd).Nodup := by
  obtain ⟨es, hedges⟩ := exists_edges_eq_mergeEdges d blocks i
  rw [hedges]
  exact nodup_mergeEdges es

theorem deterministic_merge (hc : d.Congruence states (d.place blocks)) (hd : d.Deterministic) :
    (d.merge blocks).Deterministic := by
  intro i
  by_cases hlt : i < (d.merge blocks).states.size
  · rw [size_merge] at hlt
    have hi := Array.getElem?_eq_getElem hlt
    obtain ⟨es, hedges, hes⟩ := exists_edges_merge hi
    rw [hedges]
    apply pairwise_apart_mergeEdges
    intro e he f hf a ha ha'
    obtain ⟨p, hp, t, hpt, heq⟩ := (hes _ _).mp he
    obtain ⟨q, hq, t', hqt', heq'⟩ := (hes _ _).mp hf
    obtain ⟨hps, hpi⟩ := mem_of_mem_arrange h hsize hi hp
    obtain ⟨hqs, hqi⟩ := mem_of_mem_arrange h hsize hi hq
    rw [← heq, ← heq']
    exact hc.place_target_eq hd hps hqs (hpi.trans hqi.symm) hpt hqt' ha ha'
  · rw [edges_of_size_le (Nat.le_of_not_lt hlt)]
    exact .nil

/-- A merged state steps as its members do. -/
theorem step?_merge (hc : d.Congruence states (d.place blocks)) (hd : d.Deterministic) {s : Nat}
    (hs : s ∈ states) (a : Symbol) :
    (d.merge blocks).step? (d.place blocks s) a = (d.step? s a).map (d.place blocks) := by
  obtain ⟨b, hb, hsb⟩ := exists_place h hsize hs
  obtain ⟨es, hedges, hes⟩ := exists_edges_merge hb
  have hstep : ∀ j, (d.merge blocks).step? (d.place blocks s) a = some j ↔
      ∃ t, d.step? s a = some t ∧ d.place blocks t = j := by
    intro j
    rw [step?_eq_some_iff (deterministic_merge h hsize hc hd), hedges]
    simp only [step?_eq_some_iff hd]
    constructor
    · rintro ⟨l, hmem, ha⟩
      obtain ⟨m, hm, hma⟩ := (contains_of_mem_mergeEdges hmem).mp ha
      obtain ⟨p, hp, t, hpt, rfl⟩ := (hes _ _).mp hm
      obtain ⟨hps, hpi⟩ := mem_of_mem_arrange h hsize hb hp
      obtain ⟨t', ht', heq⟩ := hc.edge p hps s hs hpi m t hpt
      exact ⟨t', ⟨m, ht', hma⟩, heq.symm⟩
    · rintro ⟨t, ⟨l, hmem, ha⟩, rfl⟩
      have hin := (hes l _).mpr ⟨s, hsb, t, hmem, rfl⟩
      obtain ⟨m, hm⟩ := exists_mergeEdge hin
      exact ⟨m, hm, (contains_of_mem_mergeEdges hm).mpr ⟨l, hin, ha⟩⟩
  ext j
  rw [hstep, Option.map_eq_some_iff]

theorem residual_merge (hc : d.Congruence states (d.place blocks)) (hd : d.Deterministic)
    (hclosed : ∀ s ∈ states, ∀ e ∈ d.edges s, e.2 ∈ states) {s : Nat} (hs : s ∈ states) :
    (d.merge blocks).residual (d.place blocks s) = d.residual s := by
  ext w
  induction w generalizing s with
  | nil => rw [nil_mem_residual, nil_mem_residual, isAccept_merge h hsize hc hs]
  | cons a w ih =>
      rw [mem_residual, mem_residual, run?_cons, run?_cons, step?_merge h hsize hc hd hs]
      cases hstep : d.step? s a with
      | none => simp
      | some t =>
          obtain ⟨l, hmem, _⟩ := exists_edge_of_step? hstep
          exact ih (hclosed s hs _ hmem)

end Place

/-! ### The minimal automaton -/

/-- An automaton without dead or equivalent states, with one edge between any two states. -/
structure Minimal (d : Dfa) : Prop where
  pos : 0 < d.states.size
  inRange : d.InRange
  deterministic : d.Deterministic
  live : d.Live
  distinct : ∀ s < d.states.size, ∀ t < d.states.size, d.residual s = d.residual t → s = t
  nodup : ∀ s, ((d.edges s).map Prod.snd).Nodup

theorem Minimal.wellFormed {d : Dfa} (hd : d.Minimal) : d.WellFormed :=
  ⟨hd.pos, hd.inRange, hd.deterministic, hd.nodup⟩

section Minimize

variable {d : Dfa} (hin : d.InRange) (hun : d.Unambiguous)
include hin hun

/-- States share a place exactly when refinement leaves them in one block. -/
theorem place_eq_iff_owner_eq {p q : Nat} (hp : p ∈ d.reachable) (hq : q ∈ d.reachable) :
    d.place d.refinement.blocks.toList p = d.place d.refinement.blocks.toList q ↔
      d.refinement.owner p = d.refinement.owner q := by
  have hpart := partition_refinement hin hun
  rw [place_eq_iff hpart.grouping (fun _ => lt_of_mem_reachable) hp hq, hpart.owner_eq_iff hp hq]

theorem congruence_place :
    d.Congruence d.reachable (d.place d.refinement.blocks.toList) := by
  have hrefined := congruence_refinement hin hun
  constructor
  · intro p hp q hq heq
    exact hrefined.accept p hp q hq ((place_eq_iff_owner_eq hin hun hp hq).mp heq)
  · intro p hp q hq heq l t he
    have howner := (place_eq_iff_owner_eq hin hun hp hq).mp heq
    obtain ⟨t', he', hsame⟩ := hrefined.edge p hp q hq howner l t he
    have ht := mem_reachable_of_edge hin hp he
    have ht' := mem_reachable_of_edge hin hq he'
    exact ⟨t', he', (place_eq_iff_owner_eq hin hun ht ht').mpr hsame⟩

theorem residual_minimize (hd : d.Deterministic) {s : Nat} (hs : s ∈ d.reachable) :
    d.minimize.residual (d.place d.refinement.blocks.toList s) = d.residual s :=
  residual_merge (partition_refinement hin hun).grouping (fun _ => lt_of_mem_reachable)
    (congruence_place hin hun) hd (fun _ hs _ he => mem_reachable_of_edge hin hs he) hs

theorem exists_place_of_lt_minimize {i : Nat} (hi : i < d.minimize.states.size) :
    ∃ s ∈ d.reachable, d.place d.refinement.blocks.toList s = i := by
  apply exists_of_lt_arrange (partition_refinement hin hun).grouping
    (fun _ => lt_of_mem_reachable)
  rwa [minimize, size_merge] at hi

theorem place_start (hpos : 0 < d.states.size) :
    d.place d.refinement.blocks.toList 0 = 0 :=
  place_zero (partition_refinement hin hun).grouping (fun _ => lt_of_mem_reachable)
    (zero_mem_reachable hpos)

theorem residual_start_minimize (hd : d.Deterministic) (hpos : 0 < d.states.size) :
    d.minimize.residual 0 = d.residual 0 := by
  have hstart := residual_minimize hin hun hd (zero_mem_reachable hpos)
  rwa [place_start hin hun hpos] at hstart

theorem wellFormed_minimize (hd : d.Deterministic) (hpos : 0 < d.states.size) :
    d.minimize.WellFormed := by
  have hgroups := (partition_refinement hin hun).grouping
  have hsize : ∀ s ∈ d.reachable, s < d.states.size := fun _ => lt_of_mem_reachable
  have hclosed : ∀ s ∈ d.reachable, ∀ e ∈ d.edges s, e.2 ∈ d.reachable :=
    fun _ hs _ he => mem_reachable_of_edge hin hs he
  refine ⟨?_, inRange_merge hgroups hsize hclosed,
    deterministic_merge hgroups hsize (congruence_place hin hun) hd, nodup_edges_merge d _⟩
  rw [minimize, size_merge]
  have hlt := place_lt hgroups hsize (zero_mem_reachable hpos)
  rwa [place_start hin hun hpos] at hlt

omit hun in
theorem minimize_spec (hd : d.Deterministic) (hel : d.Elementary) (hpos : 0 < d.states.size)
    (hlive : d.Live) : d.minimize.Minimal ∧ d.minimize.residual 0 = d.residual 0 := by
  have hun := hd.unambiguous hel.labelled
  have hwell := wellFormed_minimize hin hun hd hpos
  refine ⟨⟨hwell.pos, hwell.inRange, hwell.deterministic, ?_, ?_, hwell.nodup⟩,
    residual_start_minimize hin hun hd hpos⟩
  · intro i hi
    obtain ⟨s, hs, rfl⟩ := exists_place_of_lt_minimize hin hun hi
    rw [residual_minimize hin hun hd hs]
    exact hlive s (lt_of_mem_reachable hs)
  · intro i hi j hj heq
    obtain ⟨p, hp, rfl⟩ := exists_place_of_lt_minimize hin hun hi
    obtain ⟨q, hq, rfl⟩ := exists_place_of_lt_minimize hin hun hj
    rw [residual_minimize hin hun hd hp, residual_minimize hin hun hd hq] at heq
    have howner := owner_eq_of_residual_eq hin hd hel hlive hp hq heq
    exact (place_eq_iff_owner_eq hin hun hp hq).mpr howner

/-! ### Reachable states and inhabited labels -/

omit hin hun in
/-- A search reaches a state only along edges, each of which has a symbol. -/
theorem exists_run?_of_mem_reachable (hd : d.Deterministic) (hlabels : d.Labelled) {s : Nat}
    (hs : s ∈ d.reachable) : ∃ w, d.run? 0 w = some s := by
  induction Search.mem_reachable_iff.mp hs with
  | seed hmem _ =>
      split at hmem
      · cases hmem
      · exact ⟨[], by rw [List.mem_singleton.mp hmem, run?_nil]⟩
  | next hreached hmem _ ih =>
      obtain ⟨w, hw⟩ := ih (Search.mem_reachable_iff.mpr hreached)
      obtain ⟨⟨l, t⟩, he, rfl⟩ := List.mem_map.mp hmem
      obtain ⟨a, ha⟩ := hlabels _ _ he
      have hstep : d.step? _ a = some t := (step?_eq_some_iff hd).mpr ⟨_, he, ha⟩
      exact ⟨w ++ [a], by rw [run?_concat, hw, Option.bind_some, hstep]⟩

/-- A word that leads from one state to another leads from the place of the one to that of the
other. -/
theorem run?_minimize (hd : d.Deterministic) {w : List Symbol} {s t : Nat} (hs : s ∈ d.reachable)
    (h : d.run? s w = some t) :
    d.minimize.run? (d.place d.refinement.blocks.toList s) w =
      some (d.place d.refinement.blocks.toList t) := by
  induction w generalizing s with
  | nil =>
      cases h
      rfl
  | cons a w ih =>
      rw [run?_cons] at h
      obtain ⟨r, hstep, hrest⟩ := Option.bind_eq_some_iff.mp h
      obtain ⟨l, he, _⟩ := exists_edge_of_step? hstep
      have hmerged := step?_merge (partition_refinement hin hun).grouping
        (fun _ => lt_of_mem_reachable) (congruence_place hin hun) hd hs a
      rw [hstep, Option.map_some] at hmerged
      rw [run?_cons, minimize, hmerged, Option.bind_some]
      exact ih (mem_reachable_of_edge hin hs he) hrest

omit hun in
theorem exists_run?_minimize (hd : d.Deterministic) (hlabels : d.Labelled)
    (hpos : 0 < d.states.size) {i : Nat} (hi : i < d.minimize.states.size) :
    ∃ w, d.minimize.run? 0 w = some i := by
  have hun := hd.unambiguous hlabels
  obtain ⟨s, hs, rfl⟩ := exists_place_of_lt_minimize hin hun hi
  obtain ⟨w, hw⟩ := exists_run?_of_mem_reachable hd hlabels hs
  have hrun := run?_minimize hin hun hd (zero_mem_reachable hpos) hw
  rw [place_start hin hun hpos] at hrun
  exact ⟨w, hrun⟩

omit hin hun in
theorem labelled_minimize (hlabels : d.Labelled) : d.minimize.Labelled := by
  intro i e he
  have hlt := lt_size_of_mem_edges he
  rw [minimize, size_merge] at hlt
  obtain ⟨es, hedges, hes⟩ := exists_edges_merge (Array.getElem?_eq_getElem hlt)
  rw [minimize, hedges] at he
  obtain ⟨l, hmem⟩ := (mem_mergeEdges.mp he).1
  obtain ⟨p, _, t, hp, _⟩ := (hes l e.2).mp hmem
  obtain ⟨a, ha⟩ := hlabels p _ hp
  exact ⟨a, (contains_of_mem_mergeEdges he).mpr ⟨l, hmem, ha⟩⟩

end Minimize

/-! ### The automaton of a tree -/

theorem start_lt_size_ofTree (t : Tree) : (Nfa.ofTree t).start < (Nfa.ofTree t).states.size := by
  have hsize := Nfa.two_le_size_ofTree t
  rw [Nfa.start_ofTree]
  omega

/-- The minimal automaton of a tree accepts the words of the tree. -/
theorem minimize_ofTree {t : Tree} (h : t.Proper) :
    (ofNfa (.ofTree t)).minimize.Minimal ∧
      (ofNfa (.ofTree t)).minimize.residual 0 = t.language := by
  have hn := Nfa.inRange_ofTree t
  have hstart := start_lt_size_ofTree t
  have hne : (Nfa.ofTree t).accept ≠ (Nfa.ofTree t).start := by
    rw [Nfa.start_ofTree, Nfa.accept_ofTree]
    decide
  obtain ⟨hminimal, hresidual⟩ :=
    minimize_spec (inRange_ofNfa hn hstart) (deterministic_ofNfa hn hstart)
      (elementary_ofNfa hn hstart) (stands_zero hn hstart).lt
      (live_ofNfa hn hstart hne fun q hq => (Nfa.exists_reads_through h hq).2)
  refine ⟨hminimal, hresidual.trans ?_⟩
  ext w
  rw [mem_residual_ofNfa hn hstart hne, Nfa.reads_ofTree_iff_mem_language h]

theorem exists_run?_minimize_ofTree (t : Tree) {i : Nat}
    (hi : i < (ofNfa (.ofTree t)).minimize.states.size) :
    ∃ w, (ofNfa (.ofTree t)).minimize.run? 0 w = some i := by
  have hn := Nfa.inRange_ofTree t
  have hstart := start_lt_size_ofTree t
  exact exists_run?_minimize (inRange_ofNfa hn hstart) (deterministic_ofNfa hn hstart)
    (elementary_ofNfa hn hstart).labelled (stands_zero hn hstart).lt hi

theorem exists_symbol_minimize_ofTree (t : Tree) {i : Nat} {e : Label × Nat}
    (he : e ∈ (ofNfa (.ofTree t)).minimize.edges i) : ∃ a, e.1.contains a = true :=
  have hel := elementary_ofNfa (Nfa.inRange_ofTree t) (start_lt_size_ofTree t)
  labelled_minimize hel.labelled i e he

end PatternCircuit.Dfa
