import PatternCircuit.Proofs.Compile.Automaton
import PatternCircuit.Proofs.TextBytes

/-! # Edges of a sub-pattern

A sub-pattern stands for the edges of the whole automaton whose labels are, as sets, labels of its
own automaton. They are found label by label, in the order in which the sub-pattern's automaton
shows its labels. -/

namespace PatternCircuit

/-! ### Occurrence of the sub-pattern -/

theorem occursIn_iff_infix {sub word : List UInt8} : occursIn sub word = true ↔ sub <:+: word := by
  induction word with
  | nil => simp [occursIn]
  | cons b word ih =>
      rw [occursIn, Bool.or_eq_true, ih, List.isPrefixOf_iff_prefix, List.infix_cons_iff]

/-! ### Edges of an inflow -/

namespace Inflow

/-- There is an edge into a state of the automaton under the label. -/
def HasEdge (a : Inflow) (source target : Nat) (l : Label) : Prop :=
  target < a.stateCount ∧ (source, l) ∈ a.predecessors target

instance (a : Inflow) (source target : Nat) (l : Label) : Decidable (a.HasEdge source target l) :=
  inferInstanceAs (Decidable (_ ∧ _))

/-- Every table of incoming edges is keyed by its sources, in ascending order. -/
def Keyed (a : Inflow) : Prop := ∀ t, (a.predecessors t).Pairwise fun p q => p.1 < q.1

/-- The first edge comes before the second: by the first appearance of their labels in the list,
then by target, then by source. -/
def Precedes (a : Inflow) (labels : List Label) (e f : Nat × Nat) : Prop :=
  ∃ l m, a.HasEdge e.1 e.2 l ∧ a.HasEdge f.1 f.2 m ∧
    Prod.Lex (· < ·) (Prod.Lex (· < ·) (· < ·)) (labels.idxOf l, e.2, e.1)
      (labels.idxOf m, f.2, f.1)

/-- The edges under the labels, each listed once and in order. -/
structure JoinsLabels (a : Inflow) (labels : List Label) (edges : List (Nat × Nat)) : Prop where
  nodup : edges.Nodup
  mem_iff : ∀ source target, (source, target) ∈ edges ↔ ∃ l ∈ labels, a.HasEdge source target l
  ordered : edges.Pairwise (a.Precedes labels)

theorem mem_edgesUnder {a : Inflow} {l : Label} {e : Nat × Nat} :
    e ∈ a.edgesUnder l ↔ a.HasEdge e.1 e.2 l := by
  obtain ⟨source, target⟩ := e
  simp only [edgesUnder, HasEdge, List.mem_flatMap, List.mem_range, List.mem_map, List.mem_filter,
    beq_iff_eq, Prod.exists, Prod.mk.injEq]
  constructor
  · rintro ⟨t, ht, s, m, ⟨hmem, rfl⟩, rfl, rfl⟩
    exact ⟨ht, hmem⟩
  · rintro ⟨ht, hmem⟩
    exact ⟨target, ht, source, l, ⟨hmem, rfl⟩, rfl, rfl⟩

/-- The edges under one label stand by target and then by source. -/
theorem pairwise_edgesUnder {a : Inflow} (h : a.Keyed) (l : Label) :
    (a.edgesUnder l).Pairwise fun e f => Prod.Lex (· < ·) (· < ·) (e.2, e.1) (f.2, f.1) := by
  refine List.pairwise_flatMap.mpr ⟨?_, ?_⟩
  · intro target _
    refine List.pairwise_map.mpr (List.Pairwise.imp ?_ ((h target).filter _))
    intro p q hlt
    exact Prod.Lex.right target hlt
  · refine List.Pairwise.imp ?_ List.pairwise_lt_range
    intro t t' hlt e he f hf
    obtain ⟨_, _, rfl⟩ := List.mem_map.mp he
    obtain ⟨_, _, rfl⟩ := List.mem_map.mp hf
    exact Prod.Lex.left _ _ hlt

theorem joinsLabels_edgesUnderAny {a : Inflow} (h : a.Keyed) (labels : List Label) :
    a.JoinsLabels labels (a.edgesUnderAny labels.eraseDups) where
  nodup := nodup_eraseDups _
  mem_iff source target := by
    simp only [edgesUnderAny, List.mem_eraseDups, List.mem_flatMap, mem_edgesUnder]
  ordered := by
    refine List.Pairwise.sublist (eraseDups_sublist _) ?_
    rw [List.pairwise_flatMap]
    constructor
    · intro l _
      apply (pairwise_edgesUnder h l).imp_of_mem
      intro e f he hf hlt
      exact ⟨l, l, mem_edgesUnder.mp he, mem_edgesUnder.mp hf, Prod.Lex.right _ hlt⟩
    · apply (pairwise_idxOf_eraseDups labels).imp
      intro l m hlt e he f hf
      exact ⟨l, m, mem_edgesUnder.mp he, mem_edgesUnder.mp hf, Prod.Lex.left _ _ hlt⟩

end Inflow

/-! ### Edges of an automaton, turned around -/

/-- The labels of an automaton, state by state and edge by edge. -/
def Dfa.edgeLabels (d : Dfa) : List Label :=
  d.states.toList.flatMap fun s => s.edges.map Prod.fst

theorem Dfa.mem_edgeLabels {d : Dfa} {s t : Nat} {l : Label} (h : (l, t) ∈ d.edges s) :
    l ∈ d.edgeLabels := by
  have hs := lt_size_of_mem_edges h
  simp only [edges, hs, Array.getElem?_eq_getElem] at h
  exact List.mem_flatMap.mpr ⟨_, Array.getElem_mem_toList hs, List.mem_map_of_mem h⟩

theorem Inflow.joinsLabels_labels {a : Inflow} (h : a.Keyed) (d : Dfa) :
    a.JoinsLabels d.edgeLabels (a.edgesUnderAny d.labels) :=
  joinsLabels_edgesUnderAny h d.edgeLabels

namespace Inflow

variable {d : Dfa} {a : Inflow} (h : ofDfa d = .ok a)
include h

theorem keyed_ofDfa : a.Keyed := by
  intro t
  rw [predecessors_ofDfa h]
  split
  · refine List.pairwise_filterMap.mpr (List.Pairwise.imp ?_ List.pairwise_lt_range)
    intro s s' hlt p hp q hq
    obtain ⟨_, _, rfl⟩ := Option.map_eq_some_iff.mp hp
    obtain ⟨_, _, rfl⟩ := Option.map_eq_some_iff.mp hq
    exact hlt
  · exact .nil

theorem hasEdge_ofDfa (hd : d.WellFormed) {s t : Nat} {l : Label} :
    a.HasEdge s t l ↔ (l, t) ∈ d.edges s := by
  rw [HasEdge, stateCount_ofDfa h]
  constructor
  · rintro ⟨ht, hmem⟩
    exact (mem_predecessors_ofDfa h hd ht).mp hmem
  · intro hmem
    have ht := hd.inRange s _ hmem
    exact ⟨ht, (mem_predecessors_ofDfa h hd ht).mpr hmem⟩

end Inflow

/-! ### Resolving a sub-pattern -/

theorem absent_eq_true_iff {pattern sub : String} :
    (sub.isEmpty || !occursIn sub.toUTF8.toList pattern.toUTF8.toList) = true ↔
      ¬(sub ≠ "" ∧ sub.toList <:+: pattern.toList) := by
  rw [Bool.or_eq_true, String.isEmpty_iff, Bool.not_eq_true', ← Bool.not_eq_true,
    occursIn_iff_infix, bytes_infix_iff, not_and_or, not_not]

theorem substringEdges_of_absent {pattern sub : String} (a : Inflow)
    (h : ¬(sub ≠ "" ∧ sub.toList <:+: pattern.toList)) :
    substringEdges pattern sub a = .error (.subPattern sub) := by
  rw [substringEdges, substringEdgesJournaled, if_pos (absent_eq_true_iff.mpr h)]
  rfl

theorem substringEdges_of_occurs {pattern sub : String} (a : Inflow)
    (h : sub ≠ "" ∧ sub.toList <:+: pattern.toList) :
    substringEdges pattern sub a = minimalDfa sub >>= fun d =>
      if (a.edgesUnderAny d.labels).isEmpty then .error (.subPattern sub)
      else .ok (a.edgesUnderAny d.labels) := by
  rw [substringEdges, substringEdgesJournaled, if_neg (fun hno => absent_eq_true_iff.mp hno h),
    Journaled.outcome_bind, minimalDfa]
  congr 1
  funext d
  dsimp only
  split
  · rfl
  · split <;> rfl

/-- A sub-pattern with an automaton has the edges that join its labels. -/
theorem exists_joinsLabels {pattern sub : String} {d : Dfa} {a : Inflow} (ha : a.Keyed)
    (h : sub ≠ "" ∧ sub.toList <:+: pattern.toList) (hd : minimalDfa sub = .ok d)
    (hedge : ∃ s t, ∃ l ∈ d.edgeLabels, a.HasEdge s t l) :
    ∃ edges, substringEdges pattern sub a = .ok edges ∧ a.JoinsLabels d.edgeLabels edges := by
  have hjoins := Inflow.joinsLabels_labels ha d
  obtain ⟨s, t, hlabel⟩ := hedge
  have hmem := (hjoins.mem_iff s t).mpr hlabel
  refine ⟨_, ?_, hjoins⟩
  rw [substringEdges_of_occurs a h, hd]
  exact if_neg fun hempty => List.ne_nil_of_mem hmem (List.isEmpty_iff.mp hempty)

theorem ne_empty_of_minimalDfa {pattern : String} {d : Dfa} (h : minimalDfa pattern = .ok d) :
    pattern ≠ "" := by
  intro hempty
  have hfails : (minimalDfa "").toOption.isNone = true := by decide +kernel
  rw [← hempty, h] at hfails
  cases hfails

/-- The accept state of a pattern's automaton is entered by an edge, as it is not the start. -/
theorem exists_edge_of_minimalDfa {pattern : String} {d : Dfa} {a : Inflow}
    (h : minimalDfa pattern = .ok d) (ha : Inflow.ofDfa d = .ok a) :
    ∃ s t l, (l, t) ∈ d.edges s := by
  obtain ⟨tree, _, _, rfl⟩ := exists_tree_of_minimalDfa h
  obtain ⟨hnonzero, haccept, _⟩ := Inflow.acceptState_ofDfa ha
  obtain ⟨w, hw⟩ := Dfa.exists_run?_minimize_ofTree tree haccept
  by_contra hnone
  refine hnonzero (Dfa.run?_closed (P := (· = 0)) ?_ rfl hw)
  intro s _ e he
  exact absurd ⟨s, e.2, e.1, he⟩ hnone

/-- The edges of a sub-pattern are a join on labels. The sub-pattern has to occur in the pattern and
to have an automaton, and its edges are then those whose labels, as sets, are labels of that
automaton: each once, by the first appearance of the label there, then by target and then by source.
It is refused when there are none. The whole pattern has all edges of its own automaton. -/
theorem substringEdges_joins_labels (pattern sub : String) {a : Inflow} (ha : a.Keyed) :
    (¬(sub ≠ "" ∧ sub.toList <:+: pattern.toList) →
      substringEdges pattern sub a = .error (.subPattern sub)) ∧
    (sub ≠ "" → sub.toList <:+: pattern.toList →
      (∀ e, minimalDfa sub = .error e → substringEdges pattern sub a = .error e) ∧
      ∀ d, minimalDfa sub = .ok d →
        ((∀ s t, ∀ l ∈ d.edgeLabels, ¬a.HasEdge s t l) →
          substringEdges pattern sub a = .error (.subPattern sub)) ∧
        ((∃ s t, ∃ l ∈ d.edgeLabels, a.HasEdge s t l) →
          ∃ edges, substringEdges pattern sub a = .ok edges ∧ a.JoinsLabels d.edgeLabels edges)) ∧
    ∀ d b, minimalDfa pattern = .ok d → Inflow.ofDfa d = .ok b →
      ∃ edges, substringEdges pattern pattern b = .ok edges ∧ edges.Nodup ∧
        ∀ s t, (s, t) ∈ edges ↔ ∃ l, b.HasEdge s t l := by
  refine ⟨substringEdges_of_absent a, ?_, ?_⟩
  · intro hne hoccurs
    constructor
    · intro e he
      rw [substringEdges_of_occurs a ⟨hne, hoccurs⟩, he]
      rfl
    · intro d hd
      refine ⟨?_, exists_joinsLabels ha ⟨hne, hoccurs⟩ hd⟩
      intro hnone
      have hempty : a.edgesUnderAny d.labels = [] := by
        rw [List.eq_nil_iff_forall_not_mem]
        intro e hmem
        obtain ⟨l, hl, hedge⟩ := ((Inflow.joinsLabels_labels ha d).mem_iff e.1 e.2).mp hmem
        exact hnone _ _ l hl hedge
      rw [substringEdges_of_occurs a ⟨hne, hoccurs⟩, hd]
      exact if_pos (List.isEmpty_iff.mpr hempty)
  · intro d b hd hb
    have hwell := (Obtained.pattern hd).wellFormed
    -- every label of the automaton is a label of the sub-pattern, so the join keeps every edge
    have hlabel : ∀ s t l, b.HasEdge s t l → l ∈ d.edgeLabels := by
      intro s t l hedge
      exact Dfa.mem_edgeLabels ((Inflow.hasEdge_ofDfa hb hwell).mp hedge)
    obtain ⟨s, t, l, hmem⟩ := exists_edge_of_minimalDfa hd hb
    have hedge := (Inflow.hasEdge_ofDfa hb hwell).mpr hmem
    obtain ⟨edges, hedges, hjoins⟩ := exists_joinsLabels (Inflow.keyed_ofDfa hb)
      ⟨ne_empty_of_minimalDfa hd, List.infix_refl _⟩ hd ⟨s, t, l, hlabel s t l hedge, hedge⟩
    refine ⟨edges, hedges, hjoins.nodup, ?_⟩
    intro s t
    rw [hjoins.mem_iff]
    constructor
    · rintro ⟨l, _, hl⟩
      exact ⟨l, hl⟩
    · rintro ⟨l, hl⟩
      exact ⟨l, hlabel s t l hl, hl⟩

/-- In `x(a|x)ax` the sub-pattern `ax` has the edge under `a` first, although it enters a later
state, and then the edges under `x`. The edge under both bytes is not among them. -/
theorem substringEdges_joins_equal_labels :
    ∃ d a sub edges, minimalDfa "x(a|x)ax" = .ok d ∧ Inflow.ofDfa d = .ok a ∧ a.Keyed ∧
      minimalDfa "ax" = .ok sub ∧ substringEdges "x(a|x)ax" "ax" a = .ok edges ∧
      a.JoinsLabels sub.edgeLabels edges ∧ edges = [(2, 3), (0, 1), (3, 4)] ∧
      a.HasEdge 1 2 ((Label.ofSymbol (.byte 97)).union (.ofSymbol (.byte 120))) := by
  have hrun : (minimalDfa "x(a|x)ax").toOption.any (fun d =>
      (Inflow.ofDfa d).toOption.any fun a => (minimalDfa "ax").toOption.any fun sub =>
        decide (substringEdges "x(a|x)ax" "ax" a = .ok [(2, 3), (0, 1), (3, 4)] ∧
          (Label.ofSymbol (.byte 97) ∈ sub.edgeLabels ∧
            a.HasEdge 2 3 (Label.ofSymbol (.byte 97))) ∧
          a.HasEdge 1 2 ((Label.ofSymbol (.byte 97)).union (.ofSymbol (.byte 120))))) = true := by
    decide +kernel
  obtain ⟨d, hd, hrun⟩ := Outcome.exists_ok_of_any hrun
  obtain ⟨a, ha, hrun⟩ := Outcome.exists_ok_of_any hrun
  obtain ⟨sub, hsub, hrun⟩ := Outcome.exists_ok_of_any hrun
  obtain ⟨hresult, hedge, hboth⟩ := of_decide_eq_true hrun
  have hkeyed := Inflow.keyed_ofDfa ha
  obtain ⟨_, hoccurs, _⟩ := substringEdges_joins_labels "x(a|x)ax" "ax" hkeyed
  obtain ⟨_, hresolved⟩ := hoccurs (by decide) (by decide)
  obtain ⟨edges, hedges, hjoins⟩ := (hresolved sub hsub).2 ⟨2, 3, _, hedge⟩
  refine ⟨d, a, sub, edges, hd, ha, hkeyed, hsub, hedges, hjoins, ?_, hboth⟩
  rw [hresult] at hedges
  exact (Except.ok.inj hedges).symm

end PatternCircuit
