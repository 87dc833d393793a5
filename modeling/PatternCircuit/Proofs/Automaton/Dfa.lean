import Mathlib.Computability.MyhillNerode
import PatternCircuit.Automaton.Dfa
import PatternCircuit.Proofs.Label

/-! # Runs and languages of deterministic automata -/

namespace PatternCircuit.Dfa

/-- All edges lead to states of the automaton. -/
def InRange (d : Dfa) : Prop := ∀ s, ∀ e ∈ d.edges s, e.2 < d.states.size

/-- No symbol is on both edges. -/
def Apart (e f : Label × Nat) : Prop := ∀ a, ¬(e.1.contains a = true ∧ f.1.contains a = true)

instance : Std.Symm Apart := ⟨fun _ _ h a ha => h a ha.symm⟩

/-- No symbol is on two edges of a state. -/
def Deterministic (d : Dfa) : Prop := ∀ s, (d.edges s).Pairwise Apart

/-- Every edge is for some symbol. -/
def Labelled (d : Dfa) : Prop := ∀ s, ∀ e ∈ d.edges s, ∃ a, e.1.contains a = true

/-- Every edge is for exactly one symbol. -/
def Elementary (d : Dfa) : Prop := ∀ s, ∀ e ∈ d.edges s, ∃ a, e.1 = Label.ofSymbol a

/-- Edges of a state under one label lead to one state. -/
def Unambiguous (d : Dfa) : Prop :=
  ∀ s l t t', (l, t) ∈ d.edges s → (l, t') ∈ d.edges s → t = t'

theorem Elementary.labelled {d : Dfa} (h : d.Elementary) : d.Labelled := by
  intro s e he
  obtain ⟨a, ha⟩ := h s e he
  exact ⟨a, by rw [ha]; simp⟩

theorem unambiguous_of_nodup {d : Dfa} (h : ∀ s, ((d.edges s).map Prod.fst).Nodup) :
    d.Unambiguous := by
  intro s l t t' ht ht'
  exact (Prod.mk.inj (List.inj_on_of_nodup_map (h s) ht ht' rfl)).2

/-- An automaton with a start that stays inside its states and has at most one edge for a symbol and
at most one between any two states. -/
structure WellFormed (d : Dfa) : Prop where
  pos : 0 < d.states.size
  inRange : d.InRange
  deterministic : d.Deterministic
  nodup : ∀ s, ((d.edges s).map Prod.snd).Nodup

/-- Steps to one state are under one label. -/
theorem WellFormed.label_eq {d : Dfa} (hd : d.WellFormed) {s t : Nat} {l l' : Label}
    (h : (l, t) ∈ d.edges s) (h' : (l', t) ∈ d.edges s) : l = l' :=
  (Prod.mk.inj (List.inj_on_of_nodup_map (hd.nodup s) h h' rfl)).1

theorem edges_of_getElem? {d : Dfa} {s : Nat} {state : DfaState} (h : d.states[s]? = some state) :
    d.edges s = state.edges := by
  simp [edges, h]

theorem isAccept_of_getElem? {d : Dfa} {s : Nat} {state : DfaState}
    (h : d.states[s]? = some state) : d.isAccept s = state.accept := by
  simp [isAccept, h]

theorem edges_of_size_le {d : Dfa} {s : Nat} (h : d.states.size ≤ s) : d.edges s = [] := by
  simp [edges, h]

theorem lt_size_of_mem_edges {d : Dfa} {s : Nat} {e : Label × Nat} (h : e ∈ d.edges s) :
    s < d.states.size := by
  by_contra hlt
  rw [edges_of_size_le (Nat.le_of_not_lt hlt)] at h
  cases h

theorem lt_size_of_isAccept {d : Dfa} {s : Nat} (h : d.isAccept s = true) : s < d.states.size := by
  by_contra hlt
  simp [isAccept, Nat.le_of_not_lt hlt] at h

/-! ### Steps -/

theorem exists_edge_of_step? {d : Dfa} {s t : Nat} {a : Symbol} (h : d.step? s a = some t) :
    ∃ l, (l, t) ∈ d.edges s ∧ l.contains a = true := by
  obtain ⟨e, hfind, rfl⟩ := Option.map_eq_some_iff.mp h
  have hcontains := List.find?_some hfind
  exact ⟨e.1, List.mem_of_find?_eq_some hfind, hcontains⟩

theorem eq_of_overlap {d : Dfa} (hd : d.Deterministic) {s : Nat} {e f : Label × Nat} {a : Symbol}
    (he : e ∈ d.edges s) (hf : f ∈ d.edges s) (hea : e.1.contains a = true)
    (hfa : f.1.contains a = true) : e = f := by
  by_contra hne
  exact (hd s).forall he hf hne a ⟨hea, hfa⟩

/-- Labels with a symbol that they do not share differ. -/
theorem Deterministic.unambiguous {d : Dfa} (hd : d.Deterministic) (hlabels : d.Labelled) :
    d.Unambiguous := by
  intro s l t t' ht ht'
  obtain ⟨a, ha⟩ := hlabels s _ ht
  exact (Prod.mk.inj (eq_of_overlap hd ht ht' ha ha)).2

theorem step?_eq_some_iff {d : Dfa} (hd : d.Deterministic) {s t : Nat} {a : Symbol} :
    d.step? s a = some t ↔ ∃ l, (l, t) ∈ d.edges s ∧ l.contains a = true := by
  refine ⟨exists_edge_of_step?, ?_⟩
  rintro ⟨l, hmem, ha⟩
  cases hstep : d.step? s a with
  | none =>
      have hfind : (d.edges s).find? (fun e => e.1.contains a) = none := by
        simpa [step?] using hstep
      exact absurd ha (List.find?_eq_none.mp hfind _ hmem)
  | some r =>
      obtain ⟨m, hmem', ha'⟩ := exists_edge_of_step? hstep
      have heq := eq_of_overlap hd hmem' hmem ha' ha
      rw [(Prod.mk.inj heq).2]

theorem step?_lt {d : Dfa} (hd : d.InRange) {s t : Nat} {a : Symbol} (h : d.step? s a = some t) :
    t < d.states.size := by
  obtain ⟨l, hmem, _⟩ := exists_edge_of_step? h
  exact hd s _ hmem

/-! ### Runs -/

@[simp] theorem run?_nil (d : Dfa) (s : Nat) : d.run? s [] = some s := rfl

theorem run?_cons (d : Dfa) (s : Nat) (a : Symbol) (w : List Symbol) :
    d.run? s (a :: w) = (d.step? s a).bind fun next => d.run? next w := rfl

theorem run?_append (d : Dfa) (s : Nat) (v w : List Symbol) :
    d.run? s (v ++ w) = (d.run? s v).bind fun next => d.run? next w := by
  induction v generalizing s with
  | nil => rfl
  | cons a v ih =>
      rw [List.cons_append, run?_cons, run?_cons]
      cases d.step? s a with
      | none => rfl
      | some next => simpa using ih next

theorem run?_concat (d : Dfa) (s : Nat) (w : List Symbol) (a : Symbol) :
    d.run? s (w ++ [a]) = (d.run? s w).bind fun next => d.step? next a := by
  rw [run?_append]
  congr 1
  funext next
  rw [run?_cons]
  cases d.step? next a <;> rfl

/-- What edges keep, runs keep. -/
theorem run?_closed {d : Dfa} {P : Nat → Prop} (hP : ∀ s, P s → ∀ e ∈ d.edges s, P e.2)
    {w : List Symbol} {s t : Nat} (hs : P s) (h : d.run? s w = some t) : P t := by
  induction w generalizing s with
  | nil =>
      cases h
      exact hs
  | cons a w ih =>
      rw [run?_cons] at h
      obtain ⟨next, hstep, hrest⟩ := Option.bind_eq_some_iff.mp h
      obtain ⟨l, he, _⟩ := exists_edge_of_step? hstep
      exact ih (hP s hs _ he) hrest

theorem run?_lt {d : Dfa} (hd : d.InRange) {s t : Nat} {w : List Symbol} (hs : s < d.states.size)
    (h : d.run? s w = some t) : t < d.states.size :=
  run?_closed (P := (· < d.states.size)) (fun s _ => hd s) hs h

/-! ### Languages -/

/-- The words that lead from a state to an accepting one. -/
def residual (d : Dfa) (s : Nat) : Language Symbol :=
  {w | ∃ t, d.run? s w = some t ∧ d.isAccept t = true}

theorem mem_residual {d : Dfa} {s : Nat} {w : List Symbol} :
    w ∈ d.residual s ↔ ∃ t, d.run? s w = some t ∧ d.isAccept t = true := Iff.rfl

@[simp] theorem nil_mem_residual {d : Dfa} {s : Nat} : [] ∈ d.residual s ↔ d.isAccept s = true := by
  simp [mem_residual]

theorem accepts_iff {d : Dfa} {w : List Symbol} : d.accepts w = true ↔ w ∈ d.residual 0 := by
  unfold accepts
  rw [mem_residual]
  cases d.run? 0 w <;> simp

/-- What can be read behind a word is what the word's state accepts. -/
theorem residual_of_run? {d : Dfa} {s t : Nat} {w : List Symbol} (h : d.run? s w = some t) :
    d.residual t = (d.residual s).leftQuotient w := by
  ext v
  rw [Language.mem_leftQuotient, mem_residual, mem_residual, run?_append, h]
  rfl

theorem residual_of_step? {d : Dfa} {s t : Nat} {a : Symbol} (h : d.step? s a = some t) :
    d.residual t = (d.residual s).leftQuotient [a] := by
  apply residual_of_run?
  rw [run?_cons, h]
  rfl

theorem leftQuotient_of_run?_none {d : Dfa} {s : Nat} {w : List Symbol}
    (h : d.run? s w = none) : (d.residual s).leftQuotient w = 0 := by
  ext v
  rw [Language.mem_leftQuotient, mem_residual, run?_append, h]
  simp

/-- Every state leads to an accepting one. -/
def Live (d : Dfa) : Prop := ∀ s < d.states.size, ∃ w, w ∈ d.residual s

end PatternCircuit.Dfa
