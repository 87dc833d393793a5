import Mathlib.Data.List.Basic
import Mathlib.Logic.Function.Iterate
import PatternCircuit.Automaton.Search

/-! # The search finds exactly the reachable states -/

namespace PatternCircuit.Search

/-- A state in range that can be reached from a seed through states in range. -/
inductive Reached (size : Nat) (next : Nat → List Nat) (seeds : List Nat) : Nat → Prop where
  | seed {s : Nat} : s ∈ seeds → s < size → Reached size next seeds s
  | next {s t : Nat} : Reached size next seeds s → t ∈ next s → t < size → Reached size next seeds t

theorem Reached.lt {size : Nat} {next : Nat → List Nat} {seeds : List Nat} {s : Nat}
    (h : Reached size next seeds s) : s < size := by
  cases h with
  | seed _ hlt => exact hlt
  | next _ _ hlt => exact hlt

def Marked (marks : Array Bool) (s : Nat) : Prop := marks.getD s false = true

/-- The states that are not marked yet. -/
def unmarked (marks : Array Bool) : Nat := marks.count false

theorem Marked.lt {marks : Array Bool} {s : Nat} (h : Marked marks s) : s < marks.size := by
  by_contra hlt
  simp [Marked, Array.getD, hlt] at h

theorem marked_set {marks : Array Bool} {s t : Nat} (hs : s < marks.size) :
    Marked (marks.setIfInBounds s true) t ↔ Marked marks t ∨ t = s := by
  unfold Marked
  simp only [Array.getD_eq_getD_getElem?, Array.getElem?_setIfInBounds]
  by_cases h : s = t
  · subst h
    simp [hs]
  · simp [h, Ne.symm h]

theorem unmarked_set {marks : Array Bool} {s : Nat} (hs : s < marks.size) (h : ¬Marked marks s) :
    unmarked (marks.setIfInBounds s true) + 1 = unmarked marks := by
  have hfalse : marks[s] = false := by simpa [Marked, Array.getD, hs] using h
  have hmem : 0 < marks.count false := by
    rw [Array.count_pos_iff, ← hfalse]
    exact Array.getElem_mem hs
  simp only [unmarked, Array.setIfInBounds, hs, dite_true, Array.count_set, hfalse]
  simp
  omega

/-! ### Visiting -/

/-- What visiting some states makes of a stack and its marks. -/
structure Visits (states : List Nat) (old new : List Nat × Array Bool) : Prop where
  size_eq : new.2.size = old.2.size
  marked : ∀ s, Marked new.2 s ↔ Marked old.2 s ∨ s ∈ states ∧ s < old.2.size
  stack : ∀ s, s ∈ new.1 ↔ s ∈ old.1 ∨ Marked new.2 s ∧ ¬Marked old.2 s
  weight : new.1.length + unmarked new.2 = old.1.length + unmarked old.2

theorem visit_skip {old : List Nat × Array Bool} {state : Nat}
    (h : old.2.size ≤ state ∨ Marked old.2 state) : visit old state = old := by
  obtain ⟨stack, marks⟩ := old
  have htrue : marks.getD state true = true := by
    rcases h with h | h
    · simp [Array.getD, Nat.not_lt.mpr h]
    · have hlt := h.lt
      simpa [Marked, Array.getD, hlt] using h
  simp [visit, htrue]

theorem visit_push {old : List Nat × Array Bool} {state : Nat} (hlt : state < old.2.size)
    (h : ¬Marked old.2 state) :
    visit old state = (state :: old.1, old.2.setIfInBounds state true) := by
  obtain ⟨stack, marks⟩ := old
  have hfalse : marks.getD state true = false := by
    simpa [Marked, Array.getD, hlt] using h
  simp [visit, hfalse]

theorem visit_visits (old : List Nat × Array Bool) (state : Nat) :
    Visits [state] old (visit old state) := by
  by_cases h : old.2.size ≤ state ∨ Marked old.2 state
  · rw [visit_skip h]
    refine ⟨rfl, ?_, by simp, rfl⟩
    intro s
    constructor
    · exact Or.inl
    · rintro (hs | ⟨hs, hlt⟩)
      · exact hs
      · obtain rfl := List.mem_singleton.mp hs
        exact h.resolve_left (by omega)
  · obtain ⟨hlt, hm⟩ := not_or.mp h
    have hlt := Nat.lt_of_not_le hlt
    rw [visit_push hlt hm]
    refine ⟨by simp, ?_, ?_, ?_⟩
    · intro s
      rw [marked_set hlt]
      constructor
      · rintro (hs | rfl)
        · exact Or.inl hs
        · exact Or.inr ⟨by simp, hlt⟩
      · rintro (hs | ⟨hs, _⟩)
        · exact Or.inl hs
        · exact Or.inr (List.mem_singleton.mp hs)
    · intro s
      simp only [List.mem_cons, marked_set hlt]
      constructor
      · rintro (rfl | hs)
        · exact Or.inr ⟨Or.inr rfl, hm⟩
        · exact Or.inl hs
      · rintro (hs | ⟨hs | rfl, hn⟩)
        · exact Or.inr hs
        · exact absurd hs hn
        · exact Or.inl rfl
    · have hcount := unmarked_set hlt hm
      simp only [List.length_cons]
      omega

theorem visits_foldl (states : List Nat) (old : List Nat × Array Bool) :
    Visits states old (states.foldl visit old) := by
  induction states generalizing old with
  | nil => exact ⟨rfl, by simp, by simp, rfl⟩
  | cons state rest ih =>
      have hfirst := visit_visits old state
      have hrest := ih (visit old state)
      rw [List.foldl_cons]
      refine ⟨hrest.size_eq.trans hfirst.size_eq, ?_, ?_, hrest.weight.trans hfirst.weight⟩
      · intro s
        rw [hrest.marked, hfirst.marked, hfirst.size_eq, List.mem_singleton, List.mem_cons]
        tauto
      · intro s
        have hmono : Marked old.2 s → Marked (visit old state).2 s := fun hs =>
          (hfirst.marked s).mpr (Or.inl hs)
        have hmono' : Marked (visit old state).2 s →
            Marked (rest.foldl visit (visit old state)).2 s := fun hs =>
          (hrest.marked s).mpr (Or.inl hs)
        rw [hrest.stack, hfirst.stack]
        tauto

/-! ### Exploring -/

/-- Marked states are reachable, the stack holds marked states, and a marked state that has left
the stack has only marked successors. -/
structure Exploring (size : Nat) (next : Nat → List Nat) (seeds : List Nat)
    (frontier : List Nat × Array Bool) : Prop where
  size_eq : frontier.2.size = size
  sound : ∀ s, Marked frontier.2 s → Reached size next seeds s
  seeded : ∀ s ∈ seeds, s < size → Marked frontier.2 s
  stacked : ∀ s ∈ frontier.1, Marked frontier.2 s
  closed : ∀ s, Marked frontier.2 s → s ∉ frontier.1 → ∀ t ∈ next s, t < size →
    Marked frontier.2 t

/-- The stack and the marks at first: the seeds in range. -/
def pushed (size : Nat) (seeds : List Nat) : List Nat × Array Bool :=
  seeds.foldl visit ([], Array.replicate size false)

theorem exploring_start (size : Nat) (next : Nat → List Nat) (seeds : List Nat) :
    Exploring size next seeds (pushed size seeds) := by
  have h := visits_foldl seeds ([], Array.replicate size false)
  have hnone : ∀ s, ¬Marked (Array.replicate size false) s := by
    intro s
    by_cases hs : s < size <;> simp [Marked, Array.getD, hs]
  refine ⟨h.size_eq.trans (by simp), ?_, ?_, ?_, ?_⟩
  · intro s hs
    rcases (h.marked s).mp hs with hs | ⟨hs, hlt⟩
    · exact absurd hs (hnone s)
    · exact .seed hs (by simpa using hlt)
  · intro s hs hlt
    exact (h.marked s).mpr (Or.inr ⟨hs, by simpa using hlt⟩)
  · intro s hs
    rcases (h.stack s).mp hs with hs | hs
    · cases hs
    · exact hs.1
  · intro s hs hout
    exact absurd ((h.stack s).mpr (Or.inr ⟨hs, hnone s⟩)) hout

theorem Exploring.step {size : Nat} {next : Nat → List Nat} {seeds : List Nat} {state : Nat}
    {stack : List Nat} {marks : Array Bool}
    (h : Exploring size next seeds (state :: stack, marks)) :
    Exploring size next seeds ((next state).foldl visit (stack, marks)) := by
  have hv := visits_foldl (next state) (stack, marks)
  have hsize : marks.size = size := h.size_eq
  refine ⟨hv.size_eq.trans hsize, ?_, ?_, ?_, ?_⟩
  · intro s hs
    rcases (hv.marked s).mp hs with hs | ⟨hs, hlt⟩
    · exact h.sound s hs
    · exact .next (h.sound state (h.stacked state (by simp))) hs (by simpa [hsize] using hlt)
  · intro s hs hlt
    exact (hv.marked s).mpr (Or.inl (h.seeded s hs hlt))
  · intro s hs
    rcases (hv.stack s).mp hs with hs | hs
    · exact (hv.marked s).mpr (Or.inl (h.stacked s (by simp [hs])))
    · exact hs.1
  · intro s hs hout t ht hlt
    -- A state that is marked and off the stack was so before, or is the one just expanded.
    have hold : Marked marks s := by
      by_contra hn
      exact hout ((hv.stack s).mpr (Or.inr ⟨hs, hn⟩))
    have hstack : s ∉ stack := fun hmem => hout ((hv.stack s).mpr (Or.inl hmem))
    by_cases hstate : s = state
    · subst hstate
      exact (hv.marked t).mpr (Or.inr ⟨ht, by simpa [hsize] using hlt⟩)
    · exact (hv.marked t).mpr (Or.inl (h.closed s hold (by simp [hstate, hstack]) t ht hlt))

theorem Exploring.complete {size : Nat} {next : Nat → List Nat} {seeds : List Nat}
    {marks : Array Bool} (h : Exploring size next seeds ([], marks)) {s : Nat}
    (hs : Reached size next seeds s) : Marked marks s := by
  induction hs with
  | seed hmem hlt => exact h.seeded _ hmem hlt
  | next _ hmem hlt ih => exact h.closed _ ih (by simp) _ hmem hlt

/-! ### Rounds -/

/-- One round expands the state on top of the stack. -/
def round (next : Nat → List Nat) : List Nat × Array Bool → List Nat × Array Bool
  | ([], marks) => ([], marks)
  | (state :: stack, marks) => (next state).foldl visit (stack, marks)

theorem explore_eq_iterate (next : Nat → List Nat) (rounds : Nat)
    (frontier : List Nat × Array Bool) :
    explore next rounds frontier = ((round next)^[rounds] frontier).2 := by
  induction rounds generalizing frontier with
  | zero => rfl
  | succ rounds ih =>
      obtain ⟨stack, marks⟩ := frontier
      cases stack with
      | nil => rw [explore, Function.iterate_fixed rfl]
      | cons state stack => exact ih _

theorem Exploring.iterate {size : Nat} {next : Nat → List Nat} {seeds : List Nat}
    {frontier : List Nat × Array Bool} (h : Exploring size next seeds frontier) (rounds : Nat) :
    Exploring size next seeds ((round next)^[rounds] frontier) := by
  induction rounds generalizing frontier with
  | zero => exact h
  | succ rounds ih =>
      obtain ⟨stack, marks⟩ := frontier
      cases stack with
      | nil => exact ih h
      | cons state stack => exact ih h.step

/-- A round takes one state off the stack, and only unmarked states are pushed, so that the stack is
empty after as many rounds as there are states on it or without a mark. -/
theorem stack_iterate_eq_nil {next : Nat → List Nat} (rounds : Nat)
    (frontier : List Nat × Array Bool)
    (h : frontier.1.length + unmarked frontier.2 ≤ rounds) :
    ((round next)^[rounds] frontier).1 = [] := by
  induction rounds generalizing frontier with
  | zero =>
      apply List.length_eq_zero_iff.mp
      rw [Function.iterate_zero_apply]
      omega
  | succ rounds ih =>
      obtain ⟨stack, marks⟩ := frontier
      cases stack with
      | nil => rw [Function.iterate_fixed rfl]
      | cons state stack =>
          have hweight := (visits_foldl (next state) (stack, marks)).weight
          apply ih
          simp only [round, List.length_cons] at h hweight ⊢
          omega

/-- The search ends after at most as many rounds as there are states. -/
theorem exists_marks (size : Nat) (next : Nat → List Nat) (seeds : List Nat) :
    ∃ marks, (round next)^[size] (pushed size seeds) = ([], marks) := by
  have hweight := (visits_foldl seeds ([], Array.replicate size false)).weight
  have hcount : unmarked (Array.replicate size false) = size := by simp [unmarked]
  rw [hcount, List.length_nil, Nat.zero_add] at hweight
  exact ⟨_, Prod.ext (stack_iterate_eq_nil size (pushed size seeds) (Nat.le_of_eq hweight)) rfl⟩

/-- When the stack is empty, exactly the reachable states are marked. -/
theorem marked_iff_reached {size : Nat} {next : Nat → List Nat} {seeds : List Nat}
    {marks : Array Bool} (h : Exploring size next seeds ([], marks)) (s : Nat) :
    Marked marks s ↔ Reached size next seeds s :=
  ⟨h.sound s, h.complete⟩

theorem reachable_eq_filter {size : Nat} {next : Nat → List Nat} {seeds : List Nat}
    {marks : Array Bool} (h : (round next)^[size] (pushed size seeds) = ([], marks)) :
    reachable size next seeds = (List.range size).filter fun s => marks.getD s false := by
  have hmarks : explore next size (pushed size seeds) = marks := by rw [explore_eq_iterate, h]
  rw [← hmarks]
  rfl

theorem mem_reachable_iff {size : Nat} {next : Nat → List Nat} {seeds : List Nat} {s : Nat} :
    s ∈ reachable size next seeds ↔ Reached size next seeds s := by
  obtain ⟨marks, hmarks⟩ := exists_marks size next seeds
  have h := marked_iff_reached (hmarks ▸ (exploring_start size next seeds).iterate size) s
  rw [reachable_eq_filter hmarks, List.mem_filter, List.mem_range]
  constructor
  · rintro ⟨_, hs⟩
    exact h.mp hs
  · intro hs
    exact ⟨hs.lt, h.mpr hs⟩

/-- The states found are listed in ascending order, each once. -/
theorem reachable_pairwise (size : Nat) (next : Nat → List Nat) (seeds : List Nat) :
    (reachable size next seeds).Pairwise (· < ·) :=
  List.pairwise_lt_range.filter _

end PatternCircuit.Search
