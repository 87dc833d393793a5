import Mathlib.Data.List.Sort
import PatternCircuit.Proofs.Automaton.Subset

/-! # Discovery of closures

Determinising finds the closures of all words, numbers them in the order of a breadth-first search
and gives each of them its own edges. -/

namespace PatternCircuit

theorem Nfa.inRange_iff {n : Nfa} :
    n.InRange ↔ ∀ s < n.states.size, ∀ e ∈ n.edges s, e.target < n.states.size := by
  constructor
  · intro h s _ e he
    exact h s e.symbol e.target he
  · intro h s a t hstep
    by_cases hs : s < n.states.size
    · exact h s hs ⟨a, t⟩ hstep
    · simp [Nfa.Step, Nfa.edges, Array.getD, hs] at hstep

instance (n : Nfa) : Decidable n.InRange :=
  decidable_of_iff _ Nfa.inRange_iff.symm

namespace Dfa

/-! ### Enough rounds -/

theorem discover_add (n : Nfa) (rounds more : Nat) (known : Array Closure)
    (edges : Array (List (Label × Nat))) :
    discover n (rounds + more) known edges =
      discover n more (discover n rounds known edges).1 (discover n rounds known edges).2 := by
  induction rounds generalizing known edges with
  | zero => rw [Nat.zero_add, discover]
  | succ rounds ih =>
      rw [Nat.succ_add, discover, discover]
      cases hc : known[edges.size]? with
      | none =>
          cases more with
          | zero => rw [discover]
          | succ more =>
              rw [discover]
              simp only [hc]
      | some c => exact ih _ _

/-- Once every closure has its edges, further rounds change nothing. -/
theorem discover_of_size_eq {n : Nfa} {known : Array Closure} {edges : Array (List (Label × Nat))}
    (h : edges.size = known.size) (rounds : Nat) :
    discover n rounds known edges = (known, edges) := by
  cases rounds with
  | zero => rfl
  | succ rounds =>
      have hnone : known[edges.size]? = none := Array.getElem?_eq_none (Nat.le_of_eq h.symm)
      rw [discover, hnone]

/-! ### Order of discovery -/

/-- The number of the start and those on the edges, in the order in which they are written. -/
def listed (edges : Array (List (Label × Nat))) : List Nat :=
  0 :: edges.toList.flatten.map Prod.snd

theorem listed_push (edges : Array (List (Label × Nat))) (out : List (Label × Nat)) :
    listed (edges.push out) = listed edges ++ out.map Prod.snd := by
  simp [listed]

/-- A closure that is not known yet gets the number behind all that have been written. -/
theorem number_listed {n : Nfa} {known : Array Closure} {written : List Nat}
    (h : written.eraseDups = List.range known.size) (members : List Nat) :
    (written ++ [(number n known members).1]).eraseDups =
      List.range (number n known members).2.size := by
  have hmem : ∀ i, i ∈ written ↔ i < known.size := by
    intro i
    rw [← List.mem_eraseDups, h, List.mem_range]
  rw [eraseDups_concat, h, number]
  split
  · rename_i i hfind
    have hi : i ∈ written := (hmem i).mpr (Array.findIdx?_eq_some_iff_getElem.mp hfind).1
    rw [if_pos hi]
  · have hnew : known.size ∉ written := fun hsize => Nat.lt_irrefl _ ((hmem _).mp hsize)
    rw [if_neg hnew, Array.size_push, List.range_succ]

theorem expand_listed {n : Nfa} {c : Closure} (as : List Symbol) {known : Array Closure}
    {written : List Nat} (h : written.eraseDups = List.range known.size) :
    (written ++ (expand n c as known).1.map Prod.snd).eraseDups =
      List.range (expand n c as known).2.size := by
  induction as generalizing known written with
  | nil =>
      rw [expand, List.map_nil, List.append_nil]
      exact h
  | cons a as ih =>
      have hrest := ih (number_listed (n := n) h (c.successors n a))
      rw [List.append_assoc, List.singleton_append] at hrest
      exact hrest

/-- Along the edges of the closures in turn, their numbers come up in ascending order. -/
theorem discover_listed {n : Nfa} (rounds : Nat) {known : Array Closure}
    {edges : Array (List (Label × Nat))} (h : (listed edges).eraseDups = List.range known.size) :
    (listed (discover n rounds known edges).2).eraseDups =
      List.range (discover n rounds known edges).1.size := by
  induction rounds generalizing known edges with
  | zero => exact h
  | succ rounds ih =>
      rw [discover]
      cases known[edges.size]? with
      | none => exact h
      | some c =>
          apply ih
          rw [listed_push]
          exact expand_listed c.alphabet h

/-! ### Breadth-first search -/

/-- The states where the edges of a state lead, in the order of the edges. -/
def successors (d : Dfa) (s : Nat) : List Nat := (d.edges s).map Prod.snd

/-- The states that can be reached in the given number of steps, in the order in which a
breadth-first search from the start meets them. -/
def met (d : Dfa) : Nat → List Nat
  | 0 => [0]
  | steps + 1 => (0 :: (d.met steps).flatMap d.successors).eraseDups

/-- The states met on the edges of the first states. -/
def metFrom (d : Dfa) (m : Nat) : List Nat := (0 :: (List.range m).flatMap d.successors).eraseDups

theorem mem_metFrom {d : Dfa} {m t : Nat} :
    t ∈ d.metFrom m ↔ t = 0 ∨ ∃ s < m, t ∈ d.successors s := by
  simp [metFrom]

/-- Fewer states meet a beginning of what more states meet. -/
theorem metFrom_isPrefix (d : Dfa) {m k : Nat} (h : m ≤ k) : d.metFrom m <+: d.metFrom k := by
  obtain ⟨more, rfl⟩ := Nat.exists_eq_add_of_le h
  rw [metFrom, metFrom, List.range_add, List.flatMap_append, ← List.cons_append,
    List.eraseDups_append]
  exact List.prefix_append _ _

section MetInOrder

variable {d : Dfa} (hall : d.metFrom d.states.size = List.range d.states.size)
include hall

theorem exists_metFrom_eq_range {m : Nat} (h : m ≤ d.states.size) :
    ∃ k ≤ d.states.size, d.metFrom m = List.range k := by
  have hfirst := d.metFrom_isPrefix h
  rw [hall, List.prefix_iff_eq_take, List.take_range] at hfirst
  exact ⟨_, Nat.min_le_right _ _, hfirst⟩

omit hall in
/-- As long as a state is missing, some edge leads out of those met. -/
theorem lt_of_metFrom_eq_range (hreach : ∀ s < d.states.size, ∃ w, d.run? 0 w = some s) {m k : Nat}
    (hm : 0 < m) (hlt : m < d.states.size) (hk : d.metFrom m = List.range k) : m < k := by
  by_contra hle
  have hclosed : ∀ s < m, ∀ e ∈ d.edges s, e.2 < m := by
    intro s hs e he
    have hmem : e.2 ∈ d.metFrom m := mem_metFrom.mpr (.inr ⟨s, hs, List.mem_map_of_mem he⟩)
    rw [hk, List.mem_range] at hmem
    omega
  obtain ⟨w, hw⟩ := hreach m hlt
  exact Nat.lt_irrefl m (run?_closed hclosed hm hw)

omit hall in
theorem pos_of_metFrom_eq_range {m k : Nat} (hk : d.metFrom m = List.range k) : 0 < k := by
  rw [← List.mem_range, ← hk, mem_metFrom]
  exact .inl rfl

/-- Each step meets a further state until none is missing. -/
theorem exists_met_eq_range (hreach : ∀ s < d.states.size, ∃ w, d.run? 0 w = some s)
    (steps : Nat) : ∃ m, d.met steps = List.range m ∧ 0 < m ∧ m ≤ d.states.size ∧
      (m = d.states.size ∨ steps < m) := by
  induction steps with
  | zero => exact ⟨1, rfl, Nat.one_pos, pos_of_metFrom_eq_range hall, .inr Nat.one_pos⟩
  | succ steps ih =>
      obtain ⟨m, heq, hm, hle, hmany⟩ := ih
      obtain ⟨k, hk, hrange⟩ := exists_metFrom_eq_range hall hle
      have hstep : d.met (steps + 1) = List.range k := by
        rw [met, heq]
        exact hrange
      refine ⟨k, hstep, pos_of_metFrom_eq_range hrange, hk, ?_⟩
      by_cases hlast : m = d.states.size
      · rw [hlast, hall] at hrange
        exact .inl (by simpa using (congrArg List.length hrange).symm)
      · have hlt := lt_of_metFrom_eq_range hreach hm (by omega) hrange
        omega

/-- If the edges of all states in turn meet the numbers in ascending order, and all states can be
reached, breadth-first search meets them in ascending order. -/
theorem met_eq_range (hreach : ∀ s < d.states.size, ∃ w, d.run? 0 w = some s) :
    d.met d.states.size = List.range d.states.size := by
  obtain ⟨m, heq, _, hle, hmany⟩ := exists_met_eq_range hall hreach d.states.size
  rw [heq, show m = d.states.size by omega]

end MetInOrder

/-! ### The determinised automaton -/

section OfNfa

variable {n : Nfa} (hn : n.InRange) (hstart : n.start < n.states.size)
include hn hstart

/-- Different states stand for different sets of states. -/
theorem eq_of_members_eq {i j : Nat} {s s' : DfaState} (hi : (ofNfa n).states[i]? = some s)
    (hj : (ofNfa n).states[j]? = some s') (h : s.members = s'.members) : i = j := by
  obtain ⟨known, edges, hd, -, hstates⟩ := exists_discovery hn hstart
  rw [hstates, Array.getElem?_mapIdx, Option.map_eq_some_iff] at hi hj
  obtain ⟨⟨c, out⟩, hzip, rfl⟩ := hi
  obtain ⟨⟨c', out'⟩, hzip', rfl⟩ := hj
  exact hd.numbering.distinct i j c c' (Array.getElem?_zip_eq_some.mp hzip).1
    (Array.getElem?_zip_eq_some.mp hzip').1 h

theorem Stands.unique {i j : Nat} {w : List Symbol} (hi : Stands n i w) (hj : Stands n j w) :
    i = j := by
  obtain ⟨s, hs, hmembers⟩ := hi
  obtain ⟨s', hs', hmembers'⟩ := hj
  exact eq_of_members_eq hn hstart hs hs' (hmembers.trans hmembers'.symm)

theorem exists_run?_ofNfa {i : Nat} (hi : i < (ofNfa n).states.size) :
    ∃ w, (ofNfa n).run? 0 w = some i := by
  obtain ⟨w, hw, hstands⟩ := exists_stands_of_lt hn hstart hi
  obtain ⟨j, hj⟩ := (stands_zero hn hstart).run_isSome hn hstart (w := w) hw
  have hsame := (stands_zero hn hstart).run hn hstart hj
  rw [List.nil_append] at hsame
  exact ⟨w, hj.trans (congrArg some (hsame.unique hn hstart hstands))⟩

omit hn hstart in
/-- The members of a state are in ascending order. -/
theorem Stands.pairwise {i : Nat} {w : List Symbol} {s : DfaState} (h : Stands n i w)
    (hs : (ofNfa n).states[i]? = some s) : s.members.Pairwise (· < ·) := by
  obtain ⟨s', hs', hmembers⟩ := h
  rw [Option.some.inj (hs.symm.trans hs'), hmembers]
  exact List.pairwise_lt_range.sublist (n.after_sublist w)

theorem Stands.mem_members_iff {i : Nat} {w : List Symbol} {s : DfaState} (h : Stands n i w)
    (hs : (ofNfa n).states[i]? = some s) {q : Nat} :
    q ∈ s.members ↔ n.Reads n.start w q := by
  obtain ⟨s', hs', hmembers⟩ := h
  rw [Option.some.inj (hs.symm.trans hs'), hmembers, Nfa.mem_after_iff hn hstart]

/-- A state whose members a word leads to stands for the word. -/
theorem stands_of_mem_members_iff {i : Nat} {w : List Symbol} {s : DfaState}
    (hs : (ofNfa n).states[i]? = some s) (h : ∀ q, q ∈ s.members ↔ n.Reads n.start w q) :
    Stands n i w := by
  obtain ⟨v, -, hstands⟩ := exists_stands_of_lt hn hstart (Array.getElem?_eq_some_iff.mp hs).1
  refine ⟨s, hs, (hstands.pairwise hs).eq_of_mem_iff
    (List.pairwise_lt_range.sublist (n.after_sublist w)) fun q => ?_⟩
  rw [h, Nfa.mem_after_iff hn hstart]

/-- No state stands for words that cannot be read. -/
theorem Stands.after_ne_nil {i : Nat} {w : List Symbol} (h : Stands n i w) : n.after w ≠ [] := by
  obtain ⟨v, hv, hstands⟩ := exists_stands_of_lt hn hstart h.lt
  obtain ⟨s, hs, hmembers⟩ := h
  obtain ⟨s', hs', hmembers'⟩ := hstands
  rwa [← hmembers, Option.some.inj (hs.symm.trans hs'), hmembers']

theorem run?_ofNfa_eq_none_iff {w : List Symbol} :
    (ofNfa n).run? 0 w = none ↔ ∀ q, ¬n.Reads n.start w q := by
  constructor
  · intro hnone q hreads
    have hmem := (Nfa.mem_after_iff hn hstart).mpr hreads
    obtain ⟨j, hj⟩ := (stands_zero hn hstart).run_isSome hn hstart (List.ne_nil_of_mem hmem)
    rw [hnone] at hj
    cases hj
  · intro hempty
    cases hrun : (ofNfa n).run? 0 w with
    | none => rfl
    | some j =>
        have hstands := (stands_zero hn hstart).run hn hstart hrun
        obtain ⟨q, hq⟩ := List.exists_mem_of_ne_nil _ (hstands.after_ne_nil hn hstart)
        exact absurd ((Nfa.mem_after_iff hn hstart).mp hq) (hempty q)

/-- All closures are found in as many rounds as there are sets of states, and more rounds find
nothing else. -/
theorem exists_discovered : ∃ known edges, edges.size = known.size ∧
    (listed edges).eraseDups = List.range known.size ∧
    (∀ rounds, 2 ^ n.states.size ≤ rounds →
      discover n rounds #[Closure.ofSeeds n [n.start]] #[] = (known, edges)) ∧
    (ofNfa n).states = (known.zip edges).mapIdx fun i s =>
      { name := stateName i, members := s.1.members, accept := s.1.accept, edges := s.2 } := by
  obtain ⟨-, hsize⟩ := discover_spec hn (2 ^ n.states.size) (discovery_start hn hstart) (by simp)
  have horder : (listed #[]).eraseDups = List.range #[Closure.ofSeeds n [n.start]].size := rfl
  refine ⟨_, _, hsize, discover_listed _ horder, ?_, rfl⟩
  intro rounds hrounds
  obtain ⟨more, rfl⟩ := Nat.exists_eq_add_of_le hrounds
  rw [discover_add, discover_of_size_eq hsize]

theorem metFrom_ofNfa :
    (ofNfa n).metFrom (ofNfa n).states.size = List.range (ofNfa n).states.size := by
  obtain ⟨known, edges, hsize, horder, -, hstates⟩ := exists_discovered hn hstart
  have hcount : (ofNfa n).states.size = known.size := by
    rw [hstates, Array.size_mapIdx, Array.size_zip, hsize, Nat.min_self]
  have hedge : ∀ i (hi : i < known.size), (ofNfa n).edges i = edges[i] := by
    intro i hi
    have hzip : (known.zip edges)[i]? = some (known[i], edges[i]) :=
      Array.getElem?_zip_eq_some.mpr
        ⟨Array.getElem?_eq_getElem hi, Array.getElem?_eq_getElem (hsize ▸ hi)⟩
    have hget : (ofNfa n).states[i]? =
        some ⟨stateName i, known[i].members, known[i].accept, edges[i]⟩ := by
      rw [hstates, Array.getElem?_mapIdx, hzip]
      rfl
    exact edges_of_getElem? hget
  have hedges : (List.range known.size).map (ofNfa n).successors =
      edges.toList.map fun out => out.map Prod.snd := by
    apply List.ext_getElem
    · simp [hsize]
    · intro i hi hi'
      simp only [List.length_map, List.length_range] at hi
      simp [successors, hedge i hi]
  rw [metFrom, hcount, List.flatMap_def, hedges, ← List.map_flatten]
  exact horder

/-- Each state has one edge for each symbol it can read, in ascending order. -/
theorem exists_symbols_edges {i : Nat} {s : DfaState} (h : (ofNfa n).states[i]? = some s) :
    ∃ as : List Symbol, (as.map Symbol.rank).Pairwise (· < ·) ∧
      s.edges.map Prod.fst = as.map Label.ofSymbol := by
  obtain ⟨w, -, -, -, hall⟩ := exists_stands hn hstart h
  refine ⟨(wordClosure n w).alphabet, Label.ranks_pairwise _, ?_⟩
  rw [← List.forall₂_eq_eq_eq, List.forall₂_map_left_iff, List.forall₂_map_right_iff]
  exact hall.flip.imp fun _ _ he => he.1

/-- An edge leads to the state that stands for what its symbol can reach. -/
theorem mem_edges_ofNfa_iff {i j : Nat} {s : DfaState} (h : (ofNfa n).states[i]? = some s)
    {a : Symbol} : (Label.ofSymbol a, j) ∈ s.edges ↔ ∃ s', (ofNfa n).states[j]? = some s' ∧
      ∀ q, q ∈ s'.members ↔ ∃ p ∈ s.members, n.Reads p [a] q := by
  obtain ⟨w, -, hmembers, -, hall⟩ := exists_stands hn hstart h
  have hreads : ∀ q, (∃ p ∈ s.members, n.Reads p [a] q) ↔ n.Reads n.start (w ++ [a]) q := by
    intro q
    rw [hmembers]
    simp only [Nfa.mem_after_iff hn hstart]
    constructor
    · rintro ⟨p, hp, hq⟩
      exact hp.append hq
    · exact Trail.split
  simp only [hreads]
  constructor
  · intro he
    obtain ⟨b, -, hb, hstands⟩ := exists_of_mem_right hall he
    obtain rfl : a = b := by simpa using congrArg (Label.contains · a) hb
    obtain ⟨s', hs', -⟩ := id hstands
    exact ⟨s', hs', fun q => hstands.mem_members_iff hn hstart hs'⟩
  · rintro ⟨s', hs', hiff⟩
    have hstands := stands_of_mem_members_iff hn hstart hs' hiff
    obtain ⟨k, hk⟩ := Stands.step_isSome hn hstart ⟨s, h, hmembers⟩ (hstands.after_ne_nil hn hstart)
    obtain ⟨l, he, hl⟩ := exists_edge_of_step? hk
    rw [edges_of_getElem? h] at he
    obtain ⟨b, -, hb, hnext⟩ := exists_of_mem_right hall he
    simp only at hb
    rw [hb, Label.contains_ofSymbol, decide_eq_true_eq] at hl
    rw [hl, hstands.unique hn hstart (hl ▸ hnext), ← hb]
    exact he

end OfNfa

/-- Determinising ends once all closures are found. The state after a word has the states that the
word leads to as its members, in ascending order, and there is none for words that lead nowhere.
Different states have different members, and their numbers are those of a breadth-first search that
takes the symbols in ascending order. -/
theorem ofNfa_simulates_in_breadth_first_order {n : Nfa} (hn : n.InRange)
    (hstart : n.start < n.states.size) :
    (∃ known edges, edges.size = known.size ∧ (ofNfa n).states.size = known.size ∧
      ∀ rounds, 2 ^ n.states.size ≤ rounds →
        discover n rounds #[Closure.ofSeeds n [n.start]] #[] = (known, edges)) ∧
    (∀ w i, (ofNfa n).run? 0 w = some i → ∃ s, (ofNfa n).states[i]? = some s ∧
      s.members.Pairwise (· < ·) ∧ ∀ q, q ∈ s.members ↔ n.Reads n.start w q) ∧
    (∀ w, (ofNfa n).run? 0 w = none ↔ ∀ q, ¬n.Reads n.start w q) ∧
    (n.start ≠ n.accept →
      ∀ w, (ofNfa n).accepts w = true ↔ n.Reads n.start w n.accept) ∧
    (∀ (i j : Nat) (s s' : DfaState), (ofNfa n).states[i]? = some s →
      (ofNfa n).states[j]? = some s' → s.members = s'.members → i = j) ∧
    (ofNfa n).met (ofNfa n).states.size = List.range (ofNfa n).states.size ∧
    ∀ (i : Nat) (s : DfaState), (ofNfa n).states[i]? = some s →
      (∃ as : List Symbol, (as.map Symbol.rank).Pairwise (· < ·) ∧
        s.edges.map Prod.fst = as.map Label.ofSymbol) ∧
      ∀ a j, (Label.ofSymbol a, j) ∈ s.edges ↔ ∃ s', (ofNfa n).states[j]? = some s' ∧
        ∀ q, q ∈ s'.members ↔ ∃ p ∈ s.members, n.Reads p [a] q := by
  refine ⟨?_, ?_, fun w => run?_ofNfa_eq_none_iff hn hstart, ?_,
    fun i j s s' => eq_of_members_eq hn hstart,
    met_eq_range (metFrom_ofNfa hn hstart) fun i => exists_run?_ofNfa hn hstart,
    fun i s h => ⟨exists_symbols_edges hn hstart h, fun a j => mem_edges_ofNfa_iff hn hstart h⟩⟩
  · obtain ⟨known, edges, hsize, -, hrounds, hstates⟩ := exists_discovered hn hstart
    refine ⟨known, edges, hsize, ?_, hrounds⟩
    rw [hstates, Array.size_mapIdx, Array.size_zip, hsize, Nat.min_self]
  · intro w i hrun
    have hstands := (stands_zero hn hstart).run hn hstart hrun
    obtain ⟨s, hs, -⟩ := id hstands
    exact ⟨s, hs, hstands.pairwise hs, fun q => hstands.mem_members_iff hn hstart hs⟩
  · intro hne w
    rw [accepts_iff, mem_residual_ofNfa hn hstart hne.symm]

/-- Two states that reach each other silently, and one behind them that accepts. -/
def silentCycle : Nfa where
  states := #[[⟨none, 1⟩, ⟨some (.byte 97), 0⟩], [⟨none, 0⟩, ⟨some (.byte 98), 2⟩], []]
  start := 0
  accept := 2

theorem ofNfa_simulates_silentCycle :
    silentCycle.InRange ∧ silentCycle.start < silentCycle.states.size ∧
      silentCycle.start ≠ silentCycle.accept ∧
      (ofNfa silentCycle).met (ofNfa silentCycle).states.size =
        List.range (ofNfa silentCycle).states.size ∧
      silentCycle.Reads silentCycle.start [.byte 97, .byte 98] silentCycle.accept := by
  have hn : silentCycle.InRange := by decide
  have hstart : silentCycle.start < silentCycle.states.size := by decide
  have hne : silentCycle.start ≠ silentCycle.accept := by decide
  obtain ⟨-, -, -, haccepts, -, hmet, -⟩ := ofNfa_simulates_in_breadth_first_order hn hstart
  exact ⟨hn, hstart, hne, hmet, (haccepts hne _).mp (by decide +kernel)⟩

end Dfa

end PatternCircuit
