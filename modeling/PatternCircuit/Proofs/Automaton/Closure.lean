import Mathlib.Logic.Relation
import PatternCircuit.Proofs.Automaton.Discovery

/-! # Closures under silent steps

The closure of some seeds has exactly the states that silent steps lead to from a seed. It is the
same for all lists of the same seeds, and a closure is the closure of its own members, so that a set
of states is known by the members of its closure. -/

namespace PatternCircuit

/-- A word without symbols is read by silent steps. -/
theorem Nfa.reads_nil_iff {n : Nfa} {s q : Nat} :
    n.Reads s [] q ↔ Relation.ReflTransGen (fun p r => n.Step p none r) s q := by
  constructor
  · intro h
    generalize hw : ([] : List Symbol) = w at h
    induction h with
    | refl s => exact .refl
    | silent hstep _ ih => exact .head hstep (ih hw)
    | read _ _ _ => cases hw
  · intro h
    induction h using Relation.ReflTransGen.head_induction_on with
    | refl => exact .refl q
    | head hstep _ ih => exact .silent hstep ih

namespace Closure

variable {n : Nfa}

/-! ### Members -/

theorem pairwise_spread (n : Nfa) (seeds : List Nat) : (spread n seeds).Pairwise (· < ·) :=
  Search.reachable_pairwise _ _ _

/-- Seeds from which the same states are reached spread alike. -/
theorem spread_eq_of_reads_iff (hn : n.InRange) {seeds other : List Nat}
    (h : ∀ q, (∃ s ∈ seeds, s < n.states.size ∧ n.Reads s [] q) ↔
      ∃ s ∈ other, s < n.states.size ∧ n.Reads s [] q) :
    spread n seeds = spread n other := by
  refine (pairwise_spread n seeds).eq_of_mem_iff (pairwise_spread n other) fun q => ?_
  rw [mem_spread_iff hn, mem_spread_iff hn, h]

theorem spread_eq_of_mem_iff (hn : n.InRange) {seeds other : List Nat}
    (h : ∀ s, s ∈ seeds ↔ s ∈ other) : spread n seeds = spread n other := by
  refine spread_eq_of_reads_iff hn fun q => ?_
  simp only [h]

/-- What is reached from the states that are reached is reached already. -/
theorem spread_spread (hn : n.InRange) (seeds : List Nat) :
    spread n (spread n seeds) = spread n seeds := by
  refine spread_eq_of_reads_iff hn fun q => ⟨?_, ?_⟩
  · rintro ⟨m, hm, _, hq⟩
    obtain ⟨s, hs, hlt, hreads⟩ := (mem_spread_iff hn).mp hm
    exact ⟨s, hs, hlt, hreads.append hq⟩
  · rintro ⟨s, hs, hlt, hreads⟩
    exact ⟨s, (mem_spread_iff hn).mpr ⟨s, hs, hlt, .refl s⟩, hlt, hreads⟩

/-! ### Alphabet -/

theorem pairwise_alphabet (n : Nfa) (members : List Nat) :
    (ofMembers n members).alphabet.Pairwise fun a b => a.rank < b.rank :=
  List.pairwise_map.mp (Label.ranks_pairwise _)

/-! ### Closures of seeds -/

/-- The search for the members ends with an empty stack after at most as many rounds as there are
states. Its marks are the members: in ascending order, the states that silent steps lead to from a
seed. The alphabet has, in ascending order, the symbols on their edges. The closure does not depend
on the order of the seeds or on repetitions, and it is the closure of its members. -/
theorem ofSeeds_exact (hn : n.InRange) {seeds : List Nat}
    (hseeds : ∀ s ∈ seeds, s < n.states.size) :
    (∃ rounds ≤ n.states.size, ∃ marks : Array Bool,
      (Search.round n.silent)^[rounds] (Search.pushed n.states.size seeds) = ([], marks) ∧
      (ofSeeds n seeds).members = (List.range n.states.size).filter fun q => marks.getD q false) ∧
    (ofSeeds n seeds).members.Pairwise (· < ·) ∧
    (∀ q, q ∈ (ofSeeds n seeds).members ↔
      ∃ s ∈ seeds, Relation.ReflTransGen (fun p r => n.Step p none r) s q) ∧
    (ofSeeds n seeds).alphabet.Pairwise (fun a b => a.rank < b.rank) ∧
    (∀ a, a ∈ (ofSeeds n seeds).alphabet ↔
      ∃ q ∈ (ofSeeds n seeds).members, ∃ r, n.Step q (some a) r) ∧
    ((ofSeeds n seeds).accept = true ↔
      ∃ q ∈ (ofSeeds n seeds).members, n.role q = .accept) ∧
    ofSeeds n (ofSeeds n seeds).members = ofSeeds n seeds ∧
    ∀ other, (∀ s, s ∈ other ↔ s ∈ seeds) → ofSeeds n other = ofSeeds n seeds := by
  refine ⟨?_, pairwise_spread n seeds, ?_, pairwise_alphabet n _, fun a => mem_alphabet_ofMembers,
    ?_, ?_, ?_⟩
  · obtain ⟨marks, hmarks⟩ := Search.exists_marks n.states.size n.silent seeds
    exact ⟨n.states.size, Nat.le_refl _, marks, hmarks, Search.reachable_eq_filter hmarks⟩
  · intro q
    refine (mem_spread_iff hn).trans (exists_congr fun s => and_congr_right fun hs => ?_)
    rw [Nfa.reads_nil_iff]
    exact and_iff_right (hseeds s hs)
  · simp [ofSeeds, ofMembers]
  · exact congrArg (ofMembers n) (spread_spread hn seeds)
  · intro other hother
    exact congrArg (ofMembers n) (spread_eq_of_mem_iff hn hother)

theorem ofSeeds_exact_silentCycle :
    Dfa.silentCycle.InRange ∧ (∀ s ∈ [1, 0, 1], s < Dfa.silentCycle.states.size) ∧
      (ofSeeds Dfa.silentCycle [1, 0, 1]).members = [0, 1] ∧
      ofSeeds Dfa.silentCycle [0, 1] = ofSeeds Dfa.silentCycle [1, 0, 1] ∧
      (∃ q ∈ (ofSeeds Dfa.silentCycle [1, 0, 1]).members, ∃ r,
        Dfa.silentCycle.Step q (some (.byte 98)) r) ∧
      ¬∃ q ∈ (ofSeeds Dfa.silentCycle [1, 0, 1]).members,
        Dfa.silentCycle.role q = .accept := by
  have hn : Dfa.silentCycle.InRange := by decide
  have hseeds : ∀ s ∈ [1, 0, 1], s < Dfa.silentCycle.states.size := by decide
  obtain ⟨-, -, -, -, halphabet, haccept, -, hother⟩ := ofSeeds_exact hn hseeds
  refine ⟨hn, hseeds, by decide +kernel, hother [0, 1] (by grind), ?_, ?_⟩
  · exact (halphabet (.byte 98)).mp (by decide +kernel)
  · exact fun h => absurd (haccept.mpr h) (by decide +kernel)

end Closure

end PatternCircuit
