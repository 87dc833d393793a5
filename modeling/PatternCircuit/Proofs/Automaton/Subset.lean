import Mathlib.Data.List.Sublists
import PatternCircuit.Proofs.Automaton.Dfa
import PatternCircuit.Proofs.Automaton.Search
import PatternCircuit.Proofs.Automaton.Thompson

/-! # Determinisation

The state that the determinised automaton reaches on a word stands for the states that the
nondeterministic one can reach on it. -/

namespace PatternCircuit

/-! ### Closures -/

namespace Closure

theorem reached_of_reads {n : Nfa} (hn : n.InRange) {seeds : List Nat} {s q : Nat}
    (hs : Search.Reached n.states.size n.silent seeds s) (h : n.Reads s [] q) :
    Search.Reached n.states.size n.silent seeds q := by
  generalize hw : ([] : List Symbol) = w at h
  induction h with
  | refl s => exact hs
  | silent hstep _ ih => exact ih (.next hs (Nfa.mem_silent.mpr hstep) (hn _ _ _ hstep)) hw
  | read _ _ _ => cases hw

theorem mem_spread_iff {n : Nfa} (hn : n.InRange) {seeds : List Nat} {q : Nat} :
    q ∈ spread n seeds ↔ ∃ s ∈ seeds, s < n.states.size ∧ n.Reads s [] q := by
  rw [spread, Search.mem_reachable_iff]
  constructor
  · intro h
    induction h with
    | seed hmem hlt => exact ⟨_, hmem, hlt, .refl _⟩
    | next _ hmem _ ih =>
        obtain ⟨s, hs, hlt, hreads⟩ := ih
        exact ⟨s, hs, hlt, hreads.append (.silent (Nfa.mem_silent.mp hmem) (.refl _))⟩
  · rintro ⟨s, hs, hlt, hreads⟩
    exact reached_of_reads hn (.seed hs hlt) hreads

theorem spread_sublist (n : Nfa) (seeds : List Nat) :
    (spread n seeds).Sublist (List.range n.states.size) :=
  List.filter_sublist

theorem mem_alphabet_ofMembers {n : Nfa} {members : List Nat} {a : Symbol} :
    a ∈ (ofMembers n members).alphabet ↔ ∃ q ∈ members, ∃ r, n.Step q (some a) r := by
  simp only [ofMembers, Label.mem_symbols, Label.contains_ofSymbols, List.contains_iff_mem,
    List.mem_flatMap, List.mem_filterMap, Nfa.Step]
  constructor
  · rintro ⟨q, hq, ⟨b, r⟩, he, rfl⟩
    exact ⟨q, hq, r, he⟩
  · rintro ⟨q, hq, r, he⟩
    exact ⟨q, hq, ⟨some a, r⟩, he, rfl⟩

theorem accept_ofMembers {n : Nfa} (hne : n.accept ≠ n.start) {members : List Nat} :
    (ofMembers n members).accept = true ↔ n.accept ∈ members := by
  simp only [ofMembers, List.any_eq_true, beq_iff_eq]
  constructor
  · rintro ⟨q, hq, hrole⟩
    unfold Nfa.role at hrole
    split at hrole
    · cases hrole
    · split at hrole
      · rename_i haccept
        rwa [← haccept]
      · cases hrole
  · intro h
    exact ⟨n.accept, h, by simp [Nfa.role, hne]⟩

end Closure

namespace Nfa

/-- The states that can be reached on a word, in ascending order. -/
def after (n : Nfa) (w : List Symbol) : List Nat :=
  w.foldl (fun members a => Closure.spread n (members.flatMap (n.targets a)))
    (Closure.spread n [n.start])

theorem after_concat (n : Nfa) (w : List Symbol) (a : Symbol) :
    n.after (w ++ [a]) = Closure.spread n ((n.after w).flatMap (n.targets a)) := by
  simp [after]

theorem after_sublist (n : Nfa) (w : List Symbol) :
    (n.after w).Sublist (List.range n.states.size) := by
  cases List.eq_nil_or_concat w with
  | inl h =>
      subst h
      exact Closure.spread_sublist n _
  | inr h =>
      obtain ⟨v, a, rfl⟩ := h
      rw [List.concat_eq_append, after_concat]
      exact Closure.spread_sublist n _

theorem mem_after_iff {n : Nfa} (hn : n.InRange) (hstart : n.start < n.states.size)
    {w : List Symbol} {q : Nat} : q ∈ n.after w ↔ n.Reads n.start w q := by
  induction w using List.reverseRecOn generalizing q with
  | nil =>
      rw [after, List.foldl_nil, Closure.mem_spread_iff hn]
      simp [hstart]
  | append_singleton w a ih =>
      rw [after_concat, Closure.mem_spread_iff hn]
      refine Iff.trans ?_ Trail.concat_iff.symm
      simp only [List.mem_flatMap, mem_targets]
      constructor
      · rintro ⟨r, ⟨p, hp, hstep⟩, _, hreads⟩
        exact ⟨p, r, ih.mp hp, hstep, hreads⟩
      · rintro ⟨p, r, hp, hstep, hreads⟩
        exact ⟨r, ⟨p, ih.mpr hp, hstep⟩, hn _ _ _ hstep, hreads⟩

theorem start_mem_after_nil {n : Nfa} (hn : n.InRange) (hstart : n.start < n.states.size) :
    n.start ∈ n.after [] :=
  (mem_after_iff hn hstart).mpr (.refl _)

/-- A word can be read on exactly when some state it leads to has an edge on the symbol. -/
theorem after_concat_ne_nil {n : Nfa} (hn : n.InRange) {w : List Symbol} {a : Symbol} :
    n.after (w ++ [a]) ≠ [] ↔ ∃ q ∈ n.after w, ∃ r, n.Step q (some a) r := by
  rw [after_concat]
  constructor
  · intro h
    obtain ⟨t, ht⟩ := List.exists_mem_of_ne_nil _ h
    obtain ⟨r, hr, _⟩ := (Closure.mem_spread_iff hn).mp ht
    obtain ⟨q, hq, hstep⟩ := List.mem_flatMap.mp hr
    exact ⟨q, hq, r, mem_targets.mp hstep⟩
  · rintro ⟨q, hq, r, hstep⟩
    apply List.ne_nil_of_mem (a := r)
    refine (Closure.mem_spread_iff hn).mpr ⟨r, ?_, hn _ _ _ hstep, .refl r⟩
    exact List.mem_flatMap.mpr ⟨q, hq, mem_targets.mpr hstep⟩

end Nfa

/-! ### Numbering closures -/

namespace Dfa

/-- The closure of the states that a word leads to. -/
def wordClosure (n : Nfa) (w : List Symbol) : Closure := .ofMembers n (n.after w)

theorem members_wordClosure (n : Nfa) (w : List Symbol) : (wordClosure n w).members = n.after w :=
  rfl

/-- The known closures belong to words that can be read, start with the one of the empty word and
have pairwise different members. -/
structure Numbering (n : Nfa) (known : Array Closure) : Prop where
  start : known[0]? = some (wordClosure n [])
  word : ∀ (i : Nat) c, known[i]? = some c → ∃ w, n.after w ≠ [] ∧ c = wordClosure n w
  distinct : ∀ (i j : Nat) c e, known[i]? = some c → known[j]? = some e →
    c.members = e.members → i = j

/-- Known closures keep their numbers. -/
def Grows (known later : Array Closure) : Prop :=
  ∀ (i : Nat) c, known[i]? = some c → later[i]? = some c

theorem Grows.trans {known later last : Array Closure} (h : Grows known later)
    (h' : Grows later last) : Grows known last :=
  fun i c hc => h' i c (h i c hc)

/-- Closures with different members are no more than sets of states. -/
theorem Numbering.size_le {n : Nfa} {known : Array Closure} (h : Numbering n known) :
    known.size ≤ 2 ^ n.states.size := by
  let members := known.toList.map Closure.members
  have hnodup : members.Nodup := by
    rw [List.nodup_iff_getElem?_ne_getElem?]
    intro i j hij hj heq
    simp only [members, List.length_map, Array.length_toList] at hj
    have hi : i < known.size := by omega
    simp only [members, List.getElem?_map, Array.getElem?_toList, Array.getElem?_eq_getElem hi,
      Array.getElem?_eq_getElem hj, Option.map_some, Option.some.injEq] at heq
    have := h.distinct i j known[i] known[j] (Array.getElem?_eq_getElem hi)
      (Array.getElem?_eq_getElem hj) heq
    omega
  have hsubset : members ⊆ (List.range n.states.size).sublists := by
    intro m hm
    obtain ⟨c, hc, rfl⟩ := List.mem_map.mp hm
    obtain ⟨i, hi⟩ := List.mem_iff_getElem?.mp hc
    obtain ⟨w, _, rfl⟩ := h.word i c (by simpa using hi)
    exact List.mem_sublists.mpr (n.after_sublist w)
  have hle := (List.subperm_of_subset hnodup hsubset).length_le
  simpa [members, List.length_sublists] using hle

/-- Numbering the closure of a word that can be read. -/
theorem number_spec {n : Nfa} {known : Array Closure} (h : Numbering n known) {w : List Symbol}
    (hw : n.after w ≠ []) :
    Numbering n (number n known (n.after w)).2 ∧ Grows known (number n known (n.after w)).2 ∧
      (number n known (n.after w)).2[(number n known (n.after w)).1]? = some (wordClosure n w) := by
  unfold number
  split
  · rename_i i hfind
    obtain ⟨hi, hmem, _⟩ := Array.findIdx?_eq_some_iff_getElem.mp hfind
    refine ⟨h, fun _ _ hc => hc, ?_⟩
    have hget := Array.getElem?_eq_getElem hi
    obtain ⟨v, _, hv⟩ := h.word i _ hget
    have hmembers : known[i].members = n.after w := by simpa using hmem
    have hafter : n.after v = n.after w := by
      rw [← members_wordClosure, ← hv, hmembers]
    simp only [hget, hv, wordClosure, hafter]
  · rename_i hfind
    have hnew : ∀ (i : Nat) c, known[i]? = some c → c.members ≠ n.after w := by
      intro i c hc
      have := Array.findIdx?_eq_none_iff.mp hfind c (Array.mem_of_getElem? hc)
      simpa using this
    have hlt : ∀ (i : Nat) c, known[i]? = some c → i ≠ known.size := by
      intro i c hc hi
      subst hi
      simp at hc
    have hgrows : Grows known (known.push (wordClosure n w)) := by
      intro i c hc
      rw [Array.getElem?_push, if_neg (hlt i c hc), hc]
    refine ⟨⟨hgrows _ _ h.start, ?_, ?_⟩, hgrows, by simp [wordClosure]⟩
    · intro i c hc
      rw [Array.getElem?_push] at hc
      split at hc
      · cases hc
        exact ⟨w, hw, rfl⟩
      · exact h.word i c hc
    · intro i j c e hc he heq
      rw [Array.getElem?_push] at hc he
      split at hc <;> split at he
      · omega
      · cases hc
        exact absurd heq.symm (hnew j e he)
      · cases he
        exact absurd heq (hnew i c hc)
      · exact h.distinct i j c e hc he heq

/-- The edge of a word's closure on a symbol leads to the closure of the longer word. -/
def EdgeOf (n : Nfa) (known : Array Closure) (w : List Symbol) (a : Symbol) (e : Label × Nat) :
    Prop :=
  e.1 = Label.ofSymbol a ∧ known[e.2]? = some (wordClosure n (w ++ [a]))

theorem expand_spec {n : Nfa} {w : List Symbol} (as : List Symbol)
    (has : ∀ a ∈ as, n.after (w ++ [a]) ≠ []) {known : Array Closure} (h : Numbering n known) :
    Numbering n (expand n (wordClosure n w) as known).2 ∧
      Grows known (expand n (wordClosure n w) as known).2 ∧
      List.Forall₂ (EdgeOf n (expand n (wordClosure n w) as known).2 w) as
        (expand n (wordClosure n w) as known).1 := by
  induction as generalizing known with
  | nil => exact ⟨h, fun _ _ hc => hc, .nil⟩
  | cons a as ih =>
      have hsucc : (wordClosure n w).successors n a = n.after (w ++ [a]) := by
        rw [Nfa.after_concat]
        rfl
      obtain ⟨hnum, hgrows, hget⟩ := number_spec h (has a (by simp))
      obtain ⟨hnum', hgrows', hedges⟩ := ih (fun b hb => has b (by simp [hb])) hnum
      rw [expand]
      simp only [hsucc]
      exact ⟨hnum', hgrows.trans hgrows', .cons ⟨rfl, hgrows' _ _ hget⟩ hedges⟩

/-! ### Discovering closures -/

/-- The edges of a closure are those of its alphabet. -/
def Expanded (n : Nfa) (known : Array Closure) (c : Closure) (out : List (Label × Nat)) : Prop :=
  ∃ w, n.after w ≠ [] ∧ c = wordClosure n w ∧
    List.Forall₂ (EdgeOf n known w) (wordClosure n w).alphabet out

theorem Expanded.grow {n : Nfa} {known later : Array Closure} {c : Closure}
    {out : List (Label × Nat)} (h : Expanded n known c out) (hg : Grows known later) :
    Expanded n later c out := by
  obtain ⟨w, hw, hc, hall⟩ := h
  exact ⟨w, hw, hc, hall.imp fun a e he => ⟨he.1, hg _ _ he.2⟩⟩

/-- All closures are numbered and those that have their edges come first. -/
structure Discovery (n : Nfa) (known : Array Closure) (edges : Array (List (Label × Nat))) :
    Prop where
  numbering : Numbering n known
  size_le : edges.size ≤ known.size
  expanded : ∀ (i : Nat) c out, known[i]? = some c → edges[i]? = some out → Expanded n known c out

theorem Discovery.step {n : Nfa} (hn : n.InRange) {known : Array Closure}
    {edges : Array (List (Label × Nat))} (h : Discovery n known edges) {c : Closure}
    (hc : known[edges.size]? = some c) :
    Discovery n (expand n c c.alphabet known).2 (edges.push (expand n c c.alphabet known).1) := by
  obtain ⟨w, hw, rfl⟩ := h.numbering.word _ _ hc
  have has : ∀ a ∈ (wordClosure n w).alphabet, n.after (w ++ [a]) ≠ [] := fun a ha =>
    (Nfa.after_concat_ne_nil hn).mpr (Closure.mem_alphabet_ofMembers.mp ha)
  obtain ⟨hnum, hgrows, hall⟩ := expand_spec _ has h.numbering
  have hget := hgrows _ _ hc
  refine ⟨hnum, ?_, ?_⟩
  · rw [Array.size_push]
    obtain ⟨hlt, _⟩ := Array.getElem?_eq_some_iff.mp hget
    omega
  · intro i c out hi hout
    rw [Array.getElem?_push] at hout
    split at hout
    · rename_i heq
      subst heq
      cases hout
      rw [hget] at hi
      cases hi
      exact ⟨w, hw, rfl, hall⟩
    · obtain ⟨hlt, _⟩ := Array.getElem?_eq_some_iff.mp hout
      have hsize := h.size_le
      have hold : known[i]? = some known[i] := Array.getElem?_eq_getElem (by omega)
      have heq := hgrows _ _ hold
      rw [hi] at heq
      cases heq
      exact (h.expanded i _ out hold hout).grow hgrows

/-- With as many rounds as there may be closures left, every closure gets its edges. -/
theorem discover_spec {n : Nfa} (hn : n.InRange) (rounds : Nat) {known : Array Closure}
    {edges : Array (List (Label × Nat))} (h : Discovery n known edges)
    (hrounds : 2 ^ n.states.size ≤ rounds + edges.size) :
    Discovery n (discover n rounds known edges).1 (discover n rounds known edges).2 ∧
      (discover n rounds known edges).2.size = (discover n rounds known edges).1.size := by
  induction rounds generalizing known edges with
  | zero =>
      refine ⟨h, ?_⟩
      have hle := h.size_le
      have hbound := h.numbering.size_le
      simp only [discover]
      omega
  | succ rounds ih =>
      rw [discover]
      cases hc : known[edges.size]? with
      | none =>
          refine ⟨h, ?_⟩
          have hle := h.size_le
          have hout := Array.getElem?_eq_none_iff.mp hc
          simp only
          omega
      | some c =>
          apply ih (h.step hn hc)
          rw [Array.size_push]
          omega

theorem discovery_start {n : Nfa} (hn : n.InRange) (hstart : n.start < n.states.size) :
    Discovery n #[Closure.ofSeeds n [n.start]] #[] := by
  have hword : ∀ (i : Nat) c, (#[Closure.ofSeeds n [n.start]] : Array Closure)[i]? = some c →
      i = 0 ∧ c = wordClosure n [] := by
    intro i c hc
    cases i with
    | zero =>
        cases hc
        exact ⟨rfl, rfl⟩
    | succ i => simp at hc
  refine ⟨⟨rfl, ?_, ?_⟩, by simp, by simp⟩
  · intro i c hc
    exact ⟨[], List.ne_nil_of_mem (Nfa.start_mem_after_nil hn hstart), (hword i c hc).2⟩
  · intro i j c e hc he _
    rw [(hword i c hc).1, (hword j e he).1]

/-! ### The determinised automaton -/

theorem exists_of_mem_right {α β : Type} {R : α → β → Prop} {as : List α} {bs : List β}
    (h : List.Forall₂ R as bs) {b : β} (hb : b ∈ bs) : ∃ a ∈ as, R a b := by
  induction h with
  | nil => cases hb
  | cons hR _ ih =>
      cases hb with
      | head => exact ⟨_, List.mem_cons_self, hR⟩
      | tail _ hb =>
          obtain ⟨a, ha, hab⟩ := ih hb
          exact ⟨a, List.mem_cons_of_mem _ ha, hab⟩

theorem pairwise_of_forall₂ {α β : Type} {R : α → β → Prop} {S : β → β → Prop} {as : List α}
    {bs : List β} (h : List.Forall₂ R as bs) (has : as.Nodup)
    (hS : ∀ a c b d, R a b → R c d → a ≠ c → S b d) : bs.Pairwise S := by
  induction h with
  | nil => exact .nil
  | cons hR hall ih =>
      obtain ⟨hnew, has⟩ := List.nodup_cons.mp has
      refine .cons ?_ (ih has)
      intro d hd
      obtain ⟨c, hc, hcd⟩ := exists_of_mem_right hall hd
      exact hS _ _ _ _ hR hcd fun heq => hnew (heq ▸ hc)

/-- A state that stands for the states a word leads to. -/
def Stands (n : Nfa) (i : Nat) (w : List Symbol) : Prop :=
  ∃ s, (ofNfa n).states[i]? = some s ∧ s.members = n.after w

section OfNfa

variable {n : Nfa} (hn : n.InRange) (hstart : n.start < n.states.size)
include hn hstart

/-- What discovery finds, told of the states made from it. -/
theorem exists_discovery : ∃ known edges, Discovery n known edges ∧ edges.size = known.size ∧
    (ofNfa n).states = (known.zip edges).mapIdx fun i s =>
      { name := stateName i, members := s.1.members, accept := s.1.accept, edges := s.2 } := by
  obtain ⟨hd, hsize⟩ := discover_spec hn (2 ^ n.states.size) (discovery_start hn hstart) (by simp)
  exact ⟨_, _, hd, hsize, rfl⟩

omit hn hstart in
theorem stands_of_getElem? {known : Array Closure} {edges : Array (List (Label × Nat))}
    (hstates : (ofNfa n).states = (known.zip edges).mapIdx fun i s =>
      { name := stateName i, members := s.1.members, accept := s.1.accept, edges := s.2 })
    {i : Nat} {w : List Symbol} {out : List (Label × Nat)} (hc : known[i]? = some (wordClosure n w))
    (hout : edges[i]? = some out) : Stands n i w := by
  refine ⟨{ name := stateName i, members := n.after w, accept := (wordClosure n w).accept,
            edges := out }, ?_, rfl⟩
  have hzip : (known.zip edges)[i]? = some (wordClosure n w, out) :=
    Array.getElem?_zip_eq_some.mpr ⟨hc, hout⟩
  rw [hstates, Array.getElem?_mapIdx, hzip]
  rfl

theorem stands_zero : Stands n 0 [] := by
  obtain ⟨known, edges, hd, hsize, hstates⟩ := exists_discovery hn hstart
  have h0 := hd.numbering.start
  obtain ⟨hlt, _⟩ := Array.getElem?_eq_some_iff.mp h0
  have hout : edges[0]? = some edges[0] := Array.getElem?_eq_getElem (by omega)
  exact stands_of_getElem? hstates h0 hout

/-- Every state stands for a word that can be read, accepts by it and has one edge for each symbol
that can be read behind it. -/
theorem exists_stands {i : Nat} {s : DfaState} (h : (ofNfa n).states[i]? = some s) :
    ∃ w, n.after w ≠ [] ∧ s.members = n.after w ∧ s.accept = (wordClosure n w).accept ∧
      List.Forall₂ (fun a e => e.1 = Label.ofSymbol a ∧ Stands n e.2 (w ++ [a]))
        (wordClosure n w).alphabet s.edges := by
  obtain ⟨known, edges, hd, hsize, hstates⟩ := exists_discovery hn hstart
  rw [hstates, Array.getElem?_mapIdx, Option.map_eq_some_iff] at h
  obtain ⟨⟨c, out⟩, hzip, rfl⟩ := h
  obtain ⟨hc, hout⟩ := Array.getElem?_zip_eq_some.mp hzip
  obtain ⟨w, hw, rfl, hall⟩ := hd.expanded i c out hc hout
  refine ⟨w, hw, rfl, rfl, hall.imp ?_⟩
  rintro a ⟨l, j⟩ ⟨hl, hj⟩
  refine ⟨hl, ?_⟩
  obtain ⟨hlt, _⟩ := Array.getElem?_eq_some_iff.mp hj
  have hget : edges[j]? = some edges[j] := Array.getElem?_eq_getElem (by omega)
  exact stands_of_getElem? hstates hj hget

omit hn hstart in
theorem Stands.lt {i : Nat} {w : List Symbol} (h : Stands n i w) :
    i < (ofNfa n).states.size := by
  obtain ⟨s, hs, _⟩ := h
  exact (Array.getElem?_eq_some_iff.mp hs).1

omit hn hstart in
theorem Stands.congr {i : Nat} {v w : List Symbol} (h : Stands n i v)
    (heq : n.after v = n.after w) : Stands n i w := by
  obtain ⟨s, hs, hmembers⟩ := h
  exact ⟨s, hs, hmembers.trans heq⟩

theorem Stands.edges_eq {i : Nat} {w : List Symbol} (h : Stands n i w) :
    List.Forall₂ (fun a e => e.1 = Label.ofSymbol a ∧ Stands n e.2 (w ++ [a]))
      (wordClosure n w).alphabet ((ofNfa n).edges i) := by
  obtain ⟨s, hs, hmembers⟩ := h
  obtain ⟨v, _, hv, _, hall⟩ := exists_stands hn hstart hs
  have hafter : n.after v = n.after w := hv.symm.trans hmembers
  have hlonger : ∀ a, n.after (v ++ [a]) = n.after (w ++ [a]) := by
    intro a
    rw [Nfa.after_concat, Nfa.after_concat, hafter]
  rw [edges_of_getElem? hs]
  simp only [wordClosure, hafter] at hall ⊢
  exact hall.imp fun a e he => ⟨he.1, he.2.congr (hlonger a)⟩

theorem Stands.isAccept_iff {i : Nat} {w : List Symbol} (h : Stands n i w)
    (hne : n.accept ≠ n.start) :
    (ofNfa n).isAccept i = true ↔ n.Reads n.start w n.accept := by
  obtain ⟨s, hs, hmembers⟩ := h
  obtain ⟨v, _, hv, haccept, _⟩ := exists_stands hn hstart hs
  rw [isAccept_of_getElem? hs, haccept, wordClosure, ← hv, hmembers,
    Closure.accept_ofMembers hne, Nfa.mem_after_iff hn hstart]

theorem exists_stands_of_lt {i : Nat} (h : i < (ofNfa n).states.size) :
    ∃ w, n.after w ≠ [] ∧ Stands n i w := by
  have hget := Array.getElem?_eq_getElem h
  obtain ⟨w, hw, hmembers, _⟩ := exists_stands hn hstart hget
  exact ⟨w, hw, _, hget, hmembers⟩

theorem inRange_ofNfa : (ofNfa n).InRange := by
  intro i e he
  obtain ⟨w, _, hi⟩ := exists_stands_of_lt hn hstart (lt_size_of_mem_edges he)
  obtain ⟨a, _, _, hstands⟩ := exists_of_mem_right (hi.edges_eq hn hstart) he
  exact hstands.lt

theorem deterministic_ofNfa : (ofNfa n).Deterministic := by
  intro i
  by_cases hlt : i < (ofNfa n).states.size
  · obtain ⟨w, _, hi⟩ := exists_stands_of_lt hn hstart hlt
    apply pairwise_of_forall₂ (hi.edges_eq hn hstart) (Label.symbols_nodup _)
    rintro a b e f ⟨he, _⟩ ⟨hf, _⟩ hne c ⟨hec, hfc⟩
    rw [he, Label.contains_ofSymbol, decide_eq_true_eq] at hec
    rw [hf, Label.contains_ofSymbol, decide_eq_true_eq] at hfc
    exact hne (hec.symm.trans hfc)
  · rw [edges_of_size_le (Nat.le_of_not_lt hlt)]
    exact .nil

theorem elementary_ofNfa : (ofNfa n).Elementary := by
  intro i e he
  obtain ⟨w, _, hi⟩ := exists_stands_of_lt hn hstart (lt_size_of_mem_edges he)
  obtain ⟨a, _, ha, _⟩ := exists_of_mem_right (hi.edges_eq hn hstart) he
  exact ⟨a, ha⟩

theorem Stands.step {i j : Nat} {w : List Symbol} {a : Symbol} (h : Stands n i w)
    (hstep : (ofNfa n).step? i a = some j) : Stands n j (w ++ [a]) := by
  obtain ⟨l, hmem, hl⟩ := exists_edge_of_step? hstep
  obtain ⟨b, _, hb, hstands⟩ := exists_of_mem_right (h.edges_eq hn hstart) hmem
  rw [show l = Label.ofSymbol b from hb, Label.contains_ofSymbol, decide_eq_true_eq] at hl
  rw [hl]
  exact hstands

theorem Stands.step_isSome {i : Nat} {w : List Symbol} {a : Symbol} (h : Stands n i w)
    (hw : n.after (w ++ [a]) ≠ []) : ∃ j, (ofNfa n).step? i a = some j := by
  have ha : a ∈ (wordClosure n w).alphabet :=
    Closure.mem_alphabet_ofMembers.mpr ((Nfa.after_concat_ne_nil hn).mp hw)
  obtain ⟨⟨l, j⟩, hmem, hl, _⟩ := exists_of_mem_right (h.edges_eq hn hstart).flip ha
  refine ⟨j, (step?_eq_some_iff (deterministic_ofNfa hn hstart)).mpr ⟨l, hmem, ?_⟩⟩
  rw [show l = Label.ofSymbol a from hl]
  simp

/-- The state after a word stands for the longer word. -/
theorem Stands.run {v w : List Symbol} {i j : Nat} (h : Stands n i v)
    (hrun : (ofNfa n).run? i w = some j) : Stands n j (v ++ w) := by
  induction w using List.reverseRecOn generalizing j with
  | nil =>
      cases hrun
      rwa [List.append_nil]
  | append_singleton w a ih =>
      rw [run?_concat] at hrun
      obtain ⟨k, hk, hstep⟩ := Option.bind_eq_some_iff.mp hrun
      rw [← List.append_assoc]
      exact (ih hk).step hn hstart hstep

theorem Stands.run_isSome {v w : List Symbol} {i : Nat} (h : Stands n i v)
    (hw : n.after (v ++ w) ≠ []) : ∃ j, (ofNfa n).run? i w = some j := by
  induction w using List.reverseRecOn with
  | nil => exact ⟨i, rfl⟩
  | append_singleton w a ih =>
      rw [← List.append_assoc] at hw
      obtain ⟨q, hq, _⟩ := (Nfa.after_concat_ne_nil hn).mp hw
      obtain ⟨j, hj⟩ := ih (List.ne_nil_of_mem hq)
      obtain ⟨k, hk⟩ := (h.run hn hstart hj).step_isSome hn hstart hw
      exact ⟨k, by rw [run?_concat, hj, Option.bind_some, hk]⟩

theorem Stands.mem_residual_iff {v w : List Symbol} {i : Nat} (h : Stands n i v)
    (hne : n.accept ≠ n.start) :
    w ∈ (ofNfa n).residual i ↔ n.Reads n.start (v ++ w) n.accept := by
  rw [mem_residual]
  constructor
  · rintro ⟨j, hrun, haccept⟩
    exact ((h.run hn hstart hrun).isAccept_iff hn hstart hne).mp haccept
  · intro hreads
    have hmem := (Nfa.mem_after_iff hn hstart).mpr hreads
    obtain ⟨j, hj⟩ := h.run_isSome hn hstart (List.ne_nil_of_mem hmem)
    exact ⟨j, hj, ((h.run hn hstart hj).isAccept_iff hn hstart hne).mpr hreads⟩

/-- Both automata accept the same words. -/
theorem mem_residual_ofNfa (hne : n.accept ≠ n.start) {w : List Symbol} :
    w ∈ (ofNfa n).residual 0 ↔ n.Reads n.start w n.accept :=
  (stands_zero hn hstart).mem_residual_iff hn hstart hne

theorem live_ofNfa (hne : n.accept ≠ n.start)
    (hlive : ∀ q < n.states.size, ∃ w, n.Reads q w n.accept) : (ofNfa n).Live := by
  intro i hi
  obtain ⟨v, hv, hstands⟩ := exists_stands_of_lt hn hstart hi
  obtain ⟨q, hq⟩ := List.exists_mem_of_ne_nil _ hv
  have hlt := List.mem_range.mp ((n.after_sublist v).subset hq)
  obtain ⟨w, hw⟩ := hlive q hlt
  have hreads := (Nfa.mem_after_iff hn hstart).mp hq
  exact ⟨w, (hstands.mem_residual_iff hn hstart hne).mpr (hreads.append hw)⟩

end OfNfa

end Dfa

end PatternCircuit
