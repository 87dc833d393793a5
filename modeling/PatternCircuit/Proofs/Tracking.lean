import PatternCircuit.Proofs.Compile.Automaton
import PatternCircuit.Proofs.Pattern.Alphabet
import PatternCircuit.Proofs.Program.Trace

/-! # Symbol words and the bytes that follow them

A run over bytes follows symbol words from the start on until a byte breaks it. In turn, every word
that an automaton can read is followed by some bytes; where an edge has the marker, a byte that no
edge lists takes it. Unless the pattern holds the zero byte, it is not among them. -/

namespace PatternCircuit

namespace Dfa

/-- The byte is on no edge. -/
def Unlisted (d : Dfa) (b : UInt8) : Prop := ∀ s, d.step? s (.byte b) = none

/-- The bytes lead from the start through the states that the word leads through, along edges. -/
structure Tracks (d : Dfa) (w : List Symbol) (u : List UInt8) : Prop where
  length : u.length = w.length
  run? : ∀ i ≤ w.length, d.run? 0 (w.take i) = some (d.active (u.take i))
  byteStep? : ∀ (i : Nat) (c : UInt8), u[i]? = some c →
    d.byteStep? (d.active (u.take i)) c = some (d.active (u.take (i + 1)))

theorem tracks_nil (d : Dfa) : d.Tracks [] [] where
  length := rfl
  run? i hi := by
    obtain rfl : i = 0 := by simpa using hi
    rfl
  byteStep? i c hc := by simp at hc

theorem Tracks.run?_eq {d : Dfa} {w : List Symbol} {u : List UInt8} (h : d.Tracks w u) :
    d.run? 0 w = some (d.active u) := by
  have hlast := h.run? w.length (Nat.le_refl _)
  rwa [List.take_length, ← h.length, List.take_length] at hlast

/-- One more symbol and a byte that takes the same step. -/
theorem Tracks.concat {d : Dfa} {w : List Symbol} {u : List UInt8} (h : d.Tracks w u) {a : Symbol}
    {c : UInt8} {q : Nat} (hstep : d.step? (d.active u) a = some q)
    (hbyte : d.byteStep? (d.active u) c = some q) : d.Tracks (w ++ [a]) (u ++ [c]) where
  length := by simp [h.length]
  run? i hi := by
    rw [List.length_append, List.length_singleton] at hi
    rcases Nat.lt_or_eq_of_le hi with hlt | rfl
    · rw [List.take_append_of_le_length (by omega),
        List.take_append_of_le_length (by rw [h.length]; omega)]
      exact h.run? i (by omega)
    · rw [List.take_of_length_le (by simp), List.take_of_length_le (by simp [h.length]),
        run?_concat, h.run?_eq, Option.bind_some, hstep, active_concat, restart, hbyte,
        Option.getD_some]
  byteStep? i b hb := by
    rcases Nat.lt_trichotomy i u.length with hlt | rfl | hgt
    · rw [List.getElem?_append_left hlt] at hb
      rw [List.take_append_of_le_length (by omega), List.take_append_of_le_length (by omega)]
      exact h.byteStep? i b hb
    · rw [List.getElem?_concat_length, Option.some.injEq] at hb
      subst hb
      rw [List.take_left, List.take_of_length_le (by simp), active_concat, restart, hbyte,
        Option.getD_some]
    · rw [List.getElem?_eq_none (by simp; omega)] at hb
      cases hb

namespace Minimal

variable {d : Dfa} (hd : d.Minimal)
include hd

/-- A byte that no edge lists is read as the marker. -/
theorem byteStep?_of_unlisted {b : UInt8} (hb : d.Unlisted b) (s : Nat) :
    d.byteStep? s b = d.step? s .negate := by
  rw [hd.byteStep?_eq, hb s]

theorem exists_symbol_of_byteStep? {s t : Nat} {b : UInt8} (h : d.byteStep? s b = some t) :
    ∃ a, d.step? s a = some t := by
  rw [hd.byteStep?_eq] at h
  cases hbyte : d.step? s (.byte b) with
  | none =>
      rw [hbyte] at h
      exact ⟨.negate, h⟩
  | some r =>
      rw [hbyte] at h
      refine ⟨.byte b, ?_⟩
      simp only at h
      split at h
      · cases h
      · rw [hbyte, h]

/-- Behind any bytes the run is on a symbol word that starts where it was last in the start. -/
theorem exists_word_of_active (y : List UInt8) {t : Nat} (ht : t ≤ y.length) :
    ∃ (s : Nat) (w : List Symbol), s + w.length = t ∧
      ∀ i ≤ w.length, d.run? 0 (w.take i) = some (d.active (y.take (s + i))) := by
  induction t with
  | zero => exact ⟨0, [], rfl, by simp [active]⟩
  | succ t ih =>
      obtain ⟨s, w, hlength, hrun⟩ := ih (by omega)
      have hactive : d.active (y.take (t + 1)) = d.restart (d.active (y.take t)) y[t] := by
        rw [List.take_succ_eq_append_getElem (by omega), active_concat]
      cases hbyte : d.byteStep? (d.active (y.take t)) y[t] with
      | none =>
          refine ⟨t + 1, [], rfl, fun i hi => ?_⟩
          obtain rfl : i = 0 := by simpa using hi
          rw [Nat.add_zero, hactive, restart, hbyte]
          rfl
      | some q =>
          obtain ⟨a, ha⟩ := hd.exists_symbol_of_byteStep? hbyte
          refine ⟨s, w ++ [a], by simp; omega, fun i hi => ?_⟩
          rw [List.length_append, List.length_singleton] at hi
          rcases Nat.lt_or_eq_of_le hi with hlt | rfl
          · rw [List.take_append_of_le_length (by omega)]
            exact hrun i (by omega)
          · have hlast := hrun w.length (Nat.le_refl _)
            rw [List.take_length, hlength] at hlast
            rw [List.take_of_length_le (by simp), run?_concat, hlast, Option.bind_some, ha,
              ← Nat.add_assoc, hlength, hactive, restart, hbyte, Option.getD_some]

section Unlisted

variable (hzero : d.Unlisted 0) (htop : d.Unlisted 255)
include hzero htop

/-- Every step on a symbol is taken by some byte other than zero. -/
theorem exists_byte_of_step? {s t : Nat} {a : Symbol} (h : d.step? s a = some t) :
    ∃ b, b ≠ 0 ∧ d.byteStep? s b = some t := by
  by_cases hneg : d.step? s .negate = some t
  · exact ⟨255, by decide, by rw [hd.byteStep?_of_unlisted htop, hneg]⟩
  · cases a with
    | negate => exact absurd h hneg
    | byte b =>
        refine ⟨b, ?_, ?_⟩
        · rintro rfl
          rw [hzero s] at h
          cases h
        · rw [hd.byteStep?_eq, h]
          exact if_neg hneg

/-- Every word that can be read is tracked by bytes other than zero. -/
theorem exists_tracks {w : List Symbol} {q : Nat} (h : d.run? 0 w = some q) :
    ∃ u, d.Tracks w u ∧ 0 ∉ u := by
  induction w using List.reverseRecOn generalizing q with
  | nil => exact ⟨[], d.tracks_nil, by simp⟩
  | append_singleton w a ih =>
      rw [run?_concat] at h
      obtain ⟨p, hp, hstep⟩ := Option.bind_eq_some_iff.mp h
      obtain ⟨u, hu, hfree⟩ := ih hp
      rw [hu.run?_eq, Option.some.injEq] at hp
      subst hp
      obtain ⟨c, hc, hbyte⟩ := hd.exists_byte_of_step? hzero htop hstep
      exact ⟨u ++ [c], hu.concat hstep hbyte, by simp [hfree, hc.symm]⟩

end Unlisted

end Minimal

end Dfa

/-! ### Automata of patterns -/

/-- A byte that neither the pattern holds nor is supplied is on no edge of its automaton. -/
theorem unlisted_of_minimalDfa {pattern : String} {d : Dfa} (h : minimalDfa pattern = .ok d)
    {b : UInt8} (hb : b ∉ pattern.toUTF8.toList) (hsupplied : ¬Token.Supplied b) :
    d.Unlisted b := by
  obtain ⟨tree, htree, hproper, rfl⟩ := exists_tree_of_minimalDfa h
  obtain ⟨hd, hlanguage⟩ := Dfa.minimize_ofTree hproper
  intro s
  rw [← Option.not_isSome_iff_eq_none, Option.isSome_iff_exists]
  rintro ⟨t, hstep⟩
  -- the edge would lie on the way of a word of the tree
  obtain ⟨l, hedge, _⟩ := Dfa.exists_edge_of_step? hstep
  obtain ⟨w, hw⟩ := Dfa.exists_run?_minimize_ofTree tree (Dfa.lt_size_of_mem_edges hedge)
  obtain ⟨v, r, hv, haccept⟩ := hd.live t (hd.inRange s _ hedge)
  have hmem : w ++ .byte b :: v ∈ tree.language := by
    rw [← hlanguage, Dfa.mem_residual, Dfa.run?_append, hw, Option.bind_some, Dfa.run?_cons, hstep]
    exact ⟨r, hv, haccept⟩
  exact (Tree.overBytes_ofPattern htree _ hmem b (by simp)).elim hb hsupplied

/-- The highest byte is on no edge of a pattern's automaton. -/
theorem unlisted_top_of_minimalDfa {pattern : String} {d : Dfa} (h : minimalDfa pattern = .ok d) :
    d.Unlisted 255 :=
  unlisted_of_minimalDfa h (fun hmem => absurd (lt_of_mem_toUTF8 hmem) (by decide)) (by decide)

end PatternCircuit
