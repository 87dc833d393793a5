import PatternCircuit.Automaton.Inflow
import PatternCircuit.Outcome
import PatternCircuit.Proofs.Automaton.Minimal

/-! # Byte steps of an automaton

Read over bytes, an edge with the marker takes the bytes that no edge of its source lists, and any
other edge takes the bytes of its label. A minimal automaton thereby takes at most one step on a
byte. -/

namespace PatternCircuit

/-! ### Steps on bytes -/

namespace Dfa

/-- The target of the edge that takes the byte. -/
def byteStep? (d : Dfa) (s : Nat) (x : UInt8) : Option Nat :=
  ((d.edges s).find? fun e => (Inflow.bytesTaken (d.listedBytes s) e.1).contains x).map Prod.snd

theorem contains_listedBytes {d : Dfa} {s : Nat} {x : UInt8} :
    (d.listedBytes s).contains x = true ↔ ∃ e ∈ d.edges s, e.1.contains (.byte x) = true := by
  rw [listedBytes, ByteSet.contains_foldl_union]
  simp [Label.contains]

theorem contains_bytesTaken {listed : ByteSet} {l : Label} {x : UInt8} :
    (Inflow.bytesTaken listed l).contains x = true ↔
      if l.contains .negate = true then listed.contains x = false
      else l.contains (.byte x) = true := by
  unfold Inflow.bytesTaken
  simp only [Label.contains]
  split <;> simp_all

/-- No byte is taken by two edges of a state. -/
theorem eq_of_taken {d : Dfa} (hd : d.Deterministic) {s : Nat} {x : UInt8} {e f : Label × Nat}
    (he : e ∈ d.edges s) (hf : f ∈ d.edges s)
    (htaken : (Inflow.bytesTaken (d.listedBytes s) e.1).contains x = true)
    (htaken' : (Inflow.bytesTaken (d.listedBytes s) f.1).contains x = true) : e = f := by
  rw [contains_bytesTaken] at htaken htaken'
  split at htaken <;> split at htaken'
  · rename_i hneg hneg'
    exact eq_of_overlap hd he hf hneg hneg'
  · have hlisted := contains_listedBytes.mpr ⟨f, hf, htaken'⟩
    simp [htaken] at hlisted
  · have hlisted := contains_listedBytes.mpr ⟨e, he, htaken⟩
    simp [htaken'] at hlisted
  · exact eq_of_overlap hd he hf htaken htaken'

theorem byteStep?_eq_some_iff {d : Dfa} (hd : d.Deterministic) {s t : Nat} {x : UInt8} :
    d.byteStep? s x = some t ↔
      ∃ l, (l, t) ∈ d.edges s ∧ (Inflow.bytesTaken (d.listedBytes s) l).contains x = true := by
  rw [byteStep?, Option.map_eq_some_iff]
  constructor
  · rintro ⟨e, hfind, rfl⟩
    have htaken := List.find?_some hfind
    exact ⟨e.1, List.mem_of_find?_eq_some hfind, htaken⟩
  · rintro ⟨l, hmem, htaken⟩
    refine ⟨(l, t), ?_, rfl⟩
    cases hfind : (d.edges s).find?
        fun e => (Inflow.bytesTaken (d.listedBytes s) e.1).contains x with
    | none => exact absurd htaken (List.find?_eq_none.mp hfind _ hmem)
    | some e =>
        have htaken' := List.find?_some hfind
        rw [eq_of_taken hd (List.mem_of_find?_eq_some hfind) hmem htaken' htaken]

theorem byteStep?_lt {d : Dfa} (hin : d.InRange) (hd : d.Deterministic) {s t : Nat} {x : UInt8}
    (h : d.byteStep? s x = some t) : t < d.states.size := by
  obtain ⟨l, hmem, _⟩ := (byteStep?_eq_some_iff hd).mp h
  exact hin s _ hmem

end Dfa

/-! ### Steps on languages -/

open Classical in
/-- What remains to be read of a language over symbols behind a byte. A byte that cannot be read as
itself is read as the marker; one that can be read as itself to the same effect as the marker is
rejected. -/
noncomputable def consume (R : Language Symbol) (x : UInt8) : Language Symbol :=
  if R.leftQuotient [.byte x] = 0 then R.leftQuotient [.negate]
  else if R.leftQuotient [.byte x] = R.leftQuotient [.negate] then 0
  else R.leftQuotient [.byte x]

namespace Dfa

namespace Minimal

variable {d : Dfa} (hd : d.Minimal)
include hd

theorem residual_ne_zero {s : Nat} (hs : s < d.states.size) : d.residual s ≠ 0 := by
  obtain ⟨w, hw⟩ := hd.live s hs
  intro hzero
  rw [hzero] at hw
  exact Language.notMem_zero w hw

theorem leftQuotient_eq_zero_iff {s : Nat} {a : Symbol} :
    (d.residual s).leftQuotient [a] = 0 ↔ d.step? s a = none := by
  constructor
  · intro hzero
    cases hstep : d.step? s a with
    | none => rfl
    | some t =>
        rw [← residual_of_step? hstep] at hzero
        exact absurd hzero (hd.residual_ne_zero (step?_lt hd.inRange hstep))
  · intro hnone
    exact leftQuotient_of_run?_none (by simp [run?_cons, hnone])

/-- A listed byte is read as itself, unless the marker leads to the same state; any other byte is
read as the marker. -/
theorem byteStep?_eq (s : Nat) (x : UInt8) :
    d.byteStep? s x =
      match d.step? s (.byte x) with
      | some t => if d.step? s .negate = some t then none else some t
      | none => d.step? s .negate := by
  cases hbyte : d.step? s (.byte x) with
  | some t =>
      obtain ⟨l, hmem, hl⟩ := exists_edge_of_step? hbyte
      have hlisted := contains_listedBytes.mpr ⟨_, hmem, hl⟩
      simp only
      split
      · rename_i hneg
        obtain ⟨l', hmem', hl'⟩ := exists_edge_of_step? hneg
        cases hd.wellFormed.label_eq hmem hmem'
        rw [Option.eq_none_iff_forall_ne_some]
        intro t' hstep
        obtain ⟨m, hm, htaken⟩ := (byteStep?_eq_some_iff hd.deterministic).mp hstep
        rw [contains_bytesTaken] at htaken
        split at htaken
        · simp [htaken] at hlisted
        · rename_i hnot
          cases eq_of_overlap hd.deterministic hm hmem htaken hl
          exact hnot hl'
      · rename_i hneg
        have hnot : ¬l.contains .negate = true := fun hl' =>
          hneg ((step?_eq_some_iff hd.deterministic).mpr ⟨l, hmem, hl'⟩)
        refine (byteStep?_eq_some_iff hd.deterministic).mpr ⟨l, hmem, ?_⟩
        rw [contains_bytesTaken, if_neg hnot]
        exact hl
  | none =>
      have hunlisted : (d.listedBytes s).contains x = false := by
        rw [← Bool.not_eq_true, contains_listedBytes]
        rintro ⟨e, he, hx⟩
        rw [(step?_eq_some_iff hd.deterministic).mpr ⟨e.1, he, hx⟩] at hbyte
        cases hbyte
      simp only
      ext t
      rw [byteStep?_eq_some_iff hd.deterministic, step?_eq_some_iff hd.deterministic]
      refine exists_congr fun l => and_congr_right fun hmem => ?_
      rw [contains_bytesTaken]
      constructor
      · intro htaken
        by_contra hnot
        rw [if_neg hnot] at htaken
        have hlisted := contains_listedBytes.mpr ⟨_, hmem, htaken⟩
        simp [hunlisted] at hlisted
      · intro hneg
        rw [if_pos hneg]
        exact hunlisted

/-- The residuals of a minimal automaton follow its byte steps. -/
theorem consume_residual (s : Nat) (x : UInt8) :
    consume (d.residual s) x =
      match d.byteStep? s x with
      | some t => d.residual t
      | none => 0 := by
  rw [hd.byteStep?_eq]
  unfold consume
  cases hbyte : d.step? s (.byte x) with
  | some t =>
      have ht := step?_lt hd.inRange hbyte
      rw [← residual_of_step? hbyte, if_neg (hd.residual_ne_zero ht)]
      cases hneg : d.step? s .negate with
      | some t' =>
          have ht' := step?_lt hd.inRange hneg
          rw [← residual_of_step? hneg]
          by_cases heq : t' = t
          · simp [heq]
          · have hne : d.residual t ≠ d.residual t' := fun h =>
              heq (hd.distinct t ht t' ht' h).symm
            simp [heq, hne]
      | none =>
          rw [hd.leftQuotient_eq_zero_iff.mpr hneg]
          simp [hd.residual_ne_zero ht]
  | none =>
      rw [if_pos (hd.leftQuotient_eq_zero_iff.mpr hbyte)]
      cases hneg : d.step? s .negate with
      | some t => simp [residual_of_step? hneg]
      | none => simp [hd.leftQuotient_eq_zero_iff.mpr hneg]

end Minimal

end Dfa

/-! ### The inflow table -/

theorem Dfa.mem_edges_of_labelBetween? {d : Dfa} {s t : Nat} {l : Label}
    (h : d.labelBetween? s t = some l) : (l, t) ∈ d.edges s := by
  obtain ⟨e, hlast, rfl⟩ := Option.map_eq_some_iff.mp h
  obtain ⟨hmem, htarget⟩ := List.mem_filter.mp (List.mem_of_mem_getLast? hlast)
  rwa [← beq_iff_eq.mp htarget]

namespace Inflow

variable {d : Dfa} {a : Inflow} (h : ofDfa d = .ok a)
include h

theorem exists_accept_of_ofDfa : ∃ accept, acceptOf d = .ok accept ∧ a.acceptState = accept ∧
    a.stateCount = d.states.size ∧
    a.incoming = ((List.range d.states.size).map d.sources).toArray ∧
    a.exclusions = ((List.range d.states.size).map d.listedBytes).toArray := by
  unfold ofDfa at h
  obtain ⟨accept, haccept, hpure⟩ := Outcome.bind_eq_ok.mp h
  cases hpure
  exact ⟨accept, haccept, rfl, rfl, rfl, rfl⟩

theorem stateCount_ofDfa : a.stateCount = d.states.size := by
  obtain ⟨_, _, _, hcount, _⟩ := exists_accept_of_ofDfa h
  exact hcount

/-- The accept state is the only one that accepts, and it is not the start. -/
theorem acceptState_ofDfa : a.acceptState ≠ 0 ∧ a.acceptState < d.states.size ∧
    ∀ s, d.isAccept s = true ↔ s = a.acceptState := by
  obtain ⟨accept, haccept, heq, _⟩ := exists_accept_of_ofDfa h
  unfold acceptOf at haccept
  split at haccept
  · cases haccept
  · rename_i hstates
    split at haccept
    · cases haccept
    · rename_i hne
      cases haccept
      have hmem : ∀ q, q ∈ d.acceptStates ↔ q = accept := by simp [hstates]
      simp only [Dfa.acceptStates, List.mem_filter, List.mem_range] at hmem
      have hs := (hmem accept).mpr rfl
      rw [heq]
      refine ⟨hne, hs.1, fun q => ⟨fun hq => ?_, fun hq => hq ▸ hs.2⟩⟩
      exact (hmem q).mp ⟨Dfa.lt_size_of_isAccept hq, hq⟩
  · cases haccept

/-- The words accepted from a state are those that lead from it to the accept state. -/
theorem mem_residual_ofDfa {s : Nat} {w : List Symbol} :
    w ∈ d.residual s ↔ d.run? s w = some a.acceptState := by
  obtain ⟨_, _, honly⟩ := acceptState_ofDfa h
  rw [Dfa.mem_residual]
  constructor
  · rintro ⟨t, hrun, haccept⟩
    rw [hrun, (honly t).mp haccept]
  · intro hrun
    exact ⟨_, hrun, (honly _).mpr rfl⟩

theorem exclusions_ofDfa {s : Nat} (hs : s < d.states.size) :
    a.exclusions.getD s .empty = d.listedBytes s := by
  obtain ⟨_, _, _, _, _, hexclusions⟩ := exists_accept_of_ofDfa h
  simp [hexclusions, Array.getD_eq_getD_getElem?, hs]

theorem matched_ofDfa {s : Nat} (hs : s < d.states.size) (l : Label) :
    a.matched s l = bytesTaken (d.listedBytes s) l := by
  rw [matched, exclusions_ofDfa h hs]

theorem predecessors_ofDfa (t : Nat) :
    a.predecessors t = if t < d.states.size then d.sources t else [] := by
  obtain ⟨_, _, _, _, hincoming, _⟩ := exists_accept_of_ofDfa h
  rw [predecessors, hincoming, Array.getD_eq_getD_getElem?]
  split
  · rename_i ht
    simp [ht]
  · rename_i ht
    simp [Nat.le_of_not_lt ht]

theorem mem_predecessors_iff {s t : Nat} {l : Label} :
    (s, l) ∈ a.predecessors t ↔ t < d.states.size ∧ d.labelBetween? s t = some l := by
  rw [predecessors_ofDfa h]
  split
  · rename_i ht
    simp only [Dfa.sources, List.mem_filterMap, List.mem_range, Option.map_eq_some_iff,
      Prod.mk.injEq]
    constructor
    · rintro ⟨s', _, l', hlabel, rfl, rfl⟩
      exact ⟨ht, hlabel⟩
    · rintro ⟨_, hlabel⟩
      exact ⟨s, Dfa.lt_size_of_mem_edges (Dfa.mem_edges_of_labelBetween? hlabel), l, hlabel, rfl,
        rfl⟩
  · rename_i ht
    simp [ht]

/-- The edges into a state, seen from it. -/
theorem mem_predecessors_ofDfa (hd : d.WellFormed) {s t : Nat} {l : Label}
    (ht : t < d.states.size) :
    (s, l) ∈ a.predecessors t ↔ (l, t) ∈ d.edges s := by
  rw [mem_predecessors_iff h, and_iff_right ht]
  refine ⟨Dfa.mem_edges_of_labelBetween?, fun hmem => ?_⟩
  have hfilter : (l, t) ∈ (d.edges s).filter fun e => e.2 == t := by simp [hmem]
  obtain ⟨l', hlabel⟩ : ∃ l', d.labelBetween? s t = some l' := by
    refine Option.isSome_iff_exists.mp ?_
    simpa [Dfa.labelBetween?] using List.ne_nil_of_mem hfilter
  rw [hlabel, hd.label_eq (Dfa.mem_edges_of_labelBetween? hlabel) hmem]

end Inflow

end PatternCircuit
