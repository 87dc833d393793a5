import Mathlib.Data.List.Basic
import PatternCircuit.Automaton.Nfa

/-! # Reading words along silent and symbol steps -/

namespace PatternCircuit

/-- A word is read between two states by steps on its symbols, with silent steps in between. -/
inductive Trail (step : Nat → Option Symbol → Nat → Prop) : Nat → List Symbol → Nat → Prop where
  | refl (s : Nat) : Trail step s [] s
  | silent {s m t : Nat} {w : List Symbol} :
      step s none m → Trail step m w t → Trail step s w t
  | read {s m t : Nat} {a : Symbol} {w : List Symbol} :
      step s (some a) m → Trail step m w t → Trail step s (a :: w) t

namespace Trail

variable {step other : Nat → Option Symbol → Nat → Prop}

theorem mono {s t : Nat} {w : List Symbol} (h : Trail step s w t)
    (hsub : ∀ p a q, step p a q → other p a q) : Trail other s w t := by
  induction h with
  | refl s => exact .refl s
  | silent hstep _ ih => exact .silent (hsub _ _ _ hstep) ih
  | read hstep _ ih => exact .read (hsub _ _ _ hstep) ih

theorem append {s m t : Nat} {v w : List Symbol} (h : Trail step s v m)
    (h' : Trail step m w t) : Trail step s (v ++ w) t := by
  induction h with
  | refl s => exact h'
  | silent hstep _ ih => exact .silent hstep (ih h')
  | read hstep _ ih => exact .read hstep (ih h')

/-- A trail over two words passes a state between them. -/
theorem split {s t : Nat} {v w : List Symbol} (h : Trail step s (v ++ w) t) :
    ∃ m, Trail step s v m ∧ Trail step m w t := by
  generalize hx : v ++ w = x at h
  induction h generalizing v with
  | refl s =>
      obtain ⟨rfl, rfl⟩ := List.append_eq_nil_iff.mp hx
      exact ⟨s, .refl s, .refl s⟩
  | silent hstep _ ih =>
      obtain ⟨m, hv, hw⟩ := ih hx
      exact ⟨m, .silent hstep hv, hw⟩
  | read hstep htail ih =>
      cases v with
      | nil =>
          simp only [List.nil_append] at hx
          subst hx
          exact ⟨_, .refl _, .read hstep htail⟩
      | cons b v =>
          obtain ⟨rfl, hrest⟩ := List.cons.inj hx
          obtain ⟨m, hv, hw⟩ := ih hrest
          exact ⟨m, .read hstep hv, hw⟩

/-- Reading one symbol: silent steps, the symbol, silent steps. -/
theorem singleton {s t : Nat} {a : Symbol} (h : Trail step s [a] t) :
    ∃ m n, Trail step s [] m ∧ step m (some a) n ∧ Trail step n [] t := by
  generalize hx : [a] = x at h
  induction h with
  | refl s => cases hx
  | silent hstep _ ih =>
      obtain ⟨m, n, hm, hn, ht⟩ := ih hx
      exact ⟨m, n, .silent hstep hm, hn, ht⟩
  | read hstep htail _ =>
      obtain ⟨rfl, rfl⟩ := List.cons.inj hx
      exact ⟨_, _, .refl _, hstep, htail⟩

/-- The last symbol of a word is read from a state that the rest of the word leads to. -/
theorem concat_iff {s t : Nat} {w : List Symbol} {a : Symbol} :
    Trail step s (w ++ [a]) t ↔
      ∃ m n, Trail step s w m ∧ step m (some a) n ∧ Trail step n [] t := by
  constructor
  · intro h
    obtain ⟨m, hw, ha⟩ := h.split
    obtain ⟨p, q, hp, hstep, hq⟩ := ha.singleton
    exact ⟨p, q, by simpa using hw.append hp, hstep, hq⟩
  · rintro ⟨m, n, hw, hstep, ht⟩
    exact hw.append (.read hstep ht)

/-- Sets of words per state that every step respects contain what the trails read. -/
theorem mem_of_respects {R : Nat → List Symbol → Prop}
    (hsilent : ∀ p q u, step p none q → R q u → R p u)
    (hread : ∀ p a q u, step p (some a) q → R q u → R p (a :: u))
    {s t : Nat} {w u : List Symbol} (h : Trail step s w t) (hu : R t u) : R s (w ++ u) := by
  induction h with
  | refl s => exact hu
  | silent hstep _ ih => exact hsilent _ _ _ hstep (ih hu)
  | read hstep _ ih => exact hread _ _ _ _ hstep (ih hu)

end Trail

/-- The step relation of listed wires. -/
def Wire.Step (ws : List Wire) (s : Nat) (a : Option Symbol) (t : Nat) : Prop := ⟨s, a, t⟩ ∈ ws

namespace Nfa

/-- The step relation of an automaton. -/
def Step (n : Nfa) (s : Nat) (a : Option Symbol) (t : Nat) : Prop := ⟨a, t⟩ ∈ n.edges s

/-- The automaton reads the word on a way from `s` to `t`. -/
abbrev Reads (n : Nfa) (s : Nat) (w : List Symbol) (t : Nat) : Prop := Trail n.Step s w t

theorem mem_silent {n : Nfa} {s t : Nat} : t ∈ n.silent s ↔ n.Step s none t := by
  simp only [silent, Step, List.mem_map, List.mem_filter, Option.isNone_iff_eq_none]
  constructor
  · rintro ⟨⟨a, q⟩, ⟨hmem, rfl⟩, rfl⟩
    exact hmem
  · intro h
    exact ⟨⟨none, t⟩, ⟨h, rfl⟩, rfl⟩

theorem mem_targets {n : Nfa} {a : Symbol} {s t : Nat} :
    t ∈ n.targets a s ↔ n.Step s (some a) t := by
  simp only [targets, Step, List.mem_map, List.mem_filter, beq_iff_eq]
  constructor
  · rintro ⟨⟨b, q⟩, ⟨hmem, rfl⟩, rfl⟩
    exact hmem
  · intro h
    exact ⟨⟨some a, t⟩, ⟨h, rfl⟩, rfl⟩

end Nfa

/-! ### Wires as edges -/

namespace Nfa

theorem size_attach (ws : List Wire) (states : Array (List NfaEdge)) :
    (ws.foldr attach states).size = states.size := by
  induction ws with
  | nil => rfl
  | cons w rest ih => simp [attach, ih]

/-- A state has the edges of the wires that leave it, in front of those it had before. -/
theorem getD_attach (ws : List Wire) (states : Array (List NfaEdge)) (s : Nat)
    (hs : s < states.size) :
    (ws.foldr attach states).getD s [] =
      (ws.filter fun w => w.source = s).map Wire.edge ++ states.getD s [] := by
  induction ws with
  | nil => rfl
  | cons w rest ih =>
      have hsize : s < (rest.foldr attach states).size := by rwa [size_attach]
      rw [Array.getD_eq_getD_getElem?] at ih
      rw [List.foldr_cons, attach, Array.getD_eq_getD_getElem?, Array.getElem?_modify,
        List.filter_cons]
      by_cases h : w.source = s
      · have hsome := Array.getElem?_eq_getElem hsize
        rw [hsome] at ih
        simpa [h, hsome] using ih
      · simpa [h] using ih

theorem size_ofWires (size start accept : Nat) (ws : List Wire) :
    (ofWires size start accept ws).states.size = size := by
  simp [ofWires, size_attach]

theorem step_ofWires {size start accept : Nat} {ws : List Wire}
    (hsource : ∀ w ∈ ws, w.source < size) (s : Nat) (a : Option Symbol) (t : Nat) :
    (ofWires size start accept ws).Step s a t ↔ Wire.Step ws s a t := by
  unfold Step Wire.Step
  by_cases hs : s < size
  · have hedges : (ofWires size start accept ws).edges s =
        (ws.filter fun w => w.source = s).map Wire.edge := by
      have h := getD_attach ws (Array.replicate size []) s (by simpa using hs)
      simpa [edges, ofWires, Array.getD, hs] using h
    rw [hedges]
    simp only [List.mem_map, List.mem_filter, decide_eq_true_eq]
    constructor
    · rintro ⟨⟨p, b, q⟩, ⟨hmem, rfl⟩, he⟩
      cases he
      exact hmem
    · intro h
      exact ⟨⟨s, a, t⟩, ⟨h, rfl⟩, rfl⟩
  · have hedges : (ofWires size start accept ws).edges s = [] := by
      simp [edges, Array.getD, size_ofWires, hs]
    rw [hedges]
    constructor
    · intro h
      cases h
    · intro h
      exact absurd (hsource _ h) hs

end Nfa

end PatternCircuit
