import PatternCircuit.Proofs.Compile.Pipeline
import PatternCircuit.Proofs.Pattern.Parser
import PatternCircuit.Proofs.Program.Trace

/-! # What a compiled pattern matches

A run reads the input in segments. A segment goes on as long as the automaton can take the next
byte; a byte that it cannot take ends the segment, and the next one starts behind it. -/

namespace PatternCircuit

/-! ### Segments -/

/-- The bytes from position `s` up to but not including position `t`. -/
def slice (x : List UInt8) (s t : Nat) : List UInt8 := (x.take t).drop s

theorem slice_self (x : List UInt8) (t : Nat) : slice x t t = [] := by
  rw [slice, List.drop_eq_nil_iff]
  exact List.length_take_le t x

theorem slice_succ {x : List UInt8} {s t : Nat} (hs : s ≤ t) (ht : t < x.length) :
    slice x s (t + 1) = slice x s t ++ [x[t]] := by
  rw [slice, slice, List.take_succ_eq_append_getElem ht, List.drop_append_of_le_length]
  rw [List.length_take]
  omega

open Classical in
/-- Where the segment starts that position `t` is in, given what a segment may look like. -/
noncomputable def segmentStart (viable : List UInt8 → Prop) (x : List UInt8) : Nat → Nat
  | 0 => 0
  | t + 1 =>
      if viable (slice x (segmentStart viable x t) (t + 1)) then segmentStart viable x t else t + 1

theorem segmentStart_le (viable : List UInt8 → Prop) (x : List UInt8) (t : Nat) :
    segmentStart viable x t ≤ t := by
  induction t with
  | zero => exact Nat.le_refl 0
  | succ t ih =>
      rw [segmentStart]
      split
      · exact Nat.le_succ_of_le ih
      · exact Nat.le_refl _

/-! ### Segments of a minimal automaton -/

/-- What remains to be read of a language over symbols behind some bytes. -/
noncomputable def remainder (M : Language Symbol) (u : List UInt8) : Language Symbol :=
  u.foldl consume M

theorem remainder_concat (M : Language Symbol) (u : List UInt8) (x : UInt8) :
    remainder M (u ++ [x]) = consume (remainder M u) x := by
  simp [remainder]

/-- The active state accepts what remains behind the current segment. -/
theorem residual_active {d : Dfa} (hd : d.Minimal) (x : List UInt8) {t : Nat}
    (ht : t ≤ x.length) : d.residual (d.active (x.take t)) =
      remainder (d.residual 0)
        (slice x (segmentStart (fun u => remainder (d.residual 0) u ≠ 0) x t) t) := by
  induction t with
  | zero => rfl
  | succ t ih =>
      have hstep := ih (by omega)
      have hle := segmentStart_le (fun u => remainder (d.residual 0) u ≠ 0) x t
      generalize hs : segmentStart (fun u => remainder (d.residual 0) u ≠ 0) x t = s at hstep hle
      have hremainder : remainder (d.residual 0) (slice x s (t + 1)) =
          consume (d.residual (d.active (x.take t))) x[t] := by
        rw [slice_succ hle (by omega), remainder_concat, hstep]
      rw [hd.consume_residual] at hremainder
      rw [segmentStart, hs, List.take_succ_eq_append_getElem (by omega), Dfa.active_concat,
        Dfa.restart]
      cases hbyte : d.byteStep? (d.active (x.take t)) x[t] with
      | none =>
          rw [hbyte] at hremainder
          rw [if_neg (by simp [hremainder]), slice_self]
          rfl
      | some q =>
          rw [hbyte] at hremainder
          have hq := hd.residual_ne_zero (Dfa.byteStep?_lt hd.inRange hd.deterministic hbyte)
          rw [if_pos (by simpa [hremainder] using hq), hremainder]
          rfl

/-! ### Compiled patterns -/

/-- The positions of a run at which the current segment is a word that the automaton follows to its
end. -/
def Follows (M : Language Symbol) (x : List UInt8) (t : Nat) : Prop :=
  [] ∈ remainder M (slice x (segmentStart (fun u => remainder M u ≠ 0) x t) t)

theorem accepting_stateAfter_iff {d : Dfa} {a : Inflow} (hd : d.Minimal)
    (ha : Inflow.ofDfa d = .ok a) {p : Program} (hp : p.WrittenFrom a)
    (x : List UInt8) {t : Nat} (ht : t ≤ x.length) :
    p.accepting (p.stateAfter (x.take t)) = true ↔ Follows (d.residual 0) x t := by
  have hhot := oneHot_stateAfter hd.wellFormed ha hp (x.take t)
  obtain ⟨_, hlt, honly⟩ := Inflow.acceptState_ofDfa ha
  rw [← Inflow.stateCount_ofDfa ha, ← hp.stateCount] at hlt
  rw [Program.accepting, hp.acceptState, hhot.getD _ hlt, decide_eq_true_eq, eq_comm, ← honly,
    ← Dfa.nil_mem_residual, residual_active hd x ht]
  rfl

/-- A compiled pattern has a tree, and its program is written from the minimal automaton of the
tree's symbol words. -/
theorem exists_minimal_of_compile {pattern : String} {options : Options} {artifact : Artifact}
    (h : compile pattern options = .ok artifact) :
    ∃ dialect tree d a, Dialect.expand pattern = .ok dialect ∧ dialect.parse = .ok tree ∧
      tree.Shaped (∃ offset members, (offset, Token.oneOf true members) ∈ dialect.tokens) ∧
      d.Minimal ∧ d.residual 0 = tree.language ∧ Inflow.ofDfa d = .ok a ∧
      artifact.program.WrittenFrom a := by
  obtain ⟨d, hmin, hautomaton⟩ := compile_eq_ok.mp h
  obtain ⟨tree, htree, rfl⟩ := minimalDfa_eq_ok.mp hmin
  obtain ⟨dialect, hexpand, hparse⟩ := Outcome.bind_eq_ok.mp htree
  obtain ⟨a, ha, hp⟩ := exists_writtenFrom hautomaton
  have hshaped := Tree.shaped_ofPattern hexpand hparse
  obtain ⟨hd, hlanguage⟩ := Dfa.minimize_ofTree hshaped.proper
  exact ⟨dialect, tree, _, a, hexpand, hparse, hshaped, hd, hlanguage, ha, hp⟩

/-- The program of a compiled pattern runs on every input, and it accepts by the symbol words of the
pattern's tree. -/
theorem exists_tree_of_compile {pattern : String} {options : Options} {artifact : Artifact}
    (h : compile pattern options = .ok artifact) :
    ∃ dialect tree, Dialect.expand pattern = .ok dialect ∧ dialect.parse = .ok tree ∧
      tree.Shaped (∃ offset members, (offset, Token.oneOf true members) ∈ dialect.tokens) ∧
      ∀ x, artifact.program.evaluate x = .ok (artifact.program.run x) ∧
        ∀ t ≤ x.length,
          (artifact.program.accepting (artifact.program.stateAfter (x.take t)) = true ↔
            Follows tree.language x t) := by
  obtain ⟨dialect, tree, d, a, hexpand, hparse, hshaped, hd, hlanguage, ha, hp⟩ :=
    exists_minimal_of_compile h
  refine ⟨dialect, tree, hexpand, hparse, hshaped, fun x => ⟨?_, fun t ht => ?_⟩⟩
  · exact Program.evaluate_of_validate (hp.validate ha) x
  · rw [accepting_stateAfter_iff hd ha hp x ht, hlanguage]

/-! ### Patterns without negated classes -/

theorem leftQuotient_map (R : Language UInt8) (x : UInt8) :
    (Language.map Symbol.byte R).leftQuotient [.byte x] =
      Language.map Symbol.byte (R.leftQuotient [x]) := by
  ext w
  constructor
  · rintro ⟨u, hu, heq⟩
    cases u with
    | nil => cases heq
    | cons y u =>
        cases heq
        exact ⟨u, hu, rfl⟩
  · rintro ⟨u, hu, rfl⟩
    exact ⟨x :: u, hu, rfl⟩

theorem leftQuotient_map_negate (R : Language UInt8) :
    (Language.map Symbol.byte R).leftQuotient [.negate] = 0 := by
  ext w
  constructor
  · rintro ⟨u, _, heq⟩
    cases u with
    | nil => cases heq
    | cons y u => cases heq
  · intro hw
    exact absurd hw (Language.notMem_zero w)

theorem consume_map (R : Language UInt8) (x : UInt8) :
    consume (Language.map Symbol.byte R) x = Language.map Symbol.byte (R.leftQuotient [x]) := by
  rw [consume, leftQuotient_map_negate, leftQuotient_map]
  split
  · rename_i hzero
    exact hzero.symm
  · rfl

theorem remainder_map (L : Language UInt8) (u : List UInt8) :
    remainder (Language.map Symbol.byte L) u = Language.map Symbol.byte (L.leftQuotient u) := by
  induction u using List.reverseRecOn with
  | nil => rfl
  | append_singleton u x ih =>
      rw [remainder_concat, ih, consume_map, Language.leftQuotient_append]

theorem map_eq_zero_iff (R : Language UInt8) : Language.map Symbol.byte R = 0 ↔ ∀ v, v ∉ R := by
  constructor
  · intro hzero v hv
    have hmem : v.map Symbol.byte ∈ Language.map Symbol.byte R := ⟨v, hv, rfl⟩
    rw [hzero] at hmem
    exact Language.notMem_zero _ hmem
  · intro hnone
    ext w
    constructor
    · rintro ⟨v, hv, _⟩
      exact absurd hv (hnone v)
    · intro hw
      exact absurd hw (Language.notMem_zero w)

/-- The bytes are the beginning of a word of the language. -/
def Begins (L : Language UInt8) (u : List UInt8) : Prop := ∃ v, u ++ v ∈ L

theorem viable_map (L : Language UInt8) :
    (fun u => remainder (Language.map Symbol.byte L) u ≠ 0) = Begins L := by
  funext u
  rw [remainder_map, ne_eq, map_eq_zero_iff, not_forall_not]
  rfl

theorem follows_map_iff (L : Language UInt8) (x : List UInt8) (t : Nat) :
    Follows (Language.map Symbol.byte L) x t ↔ slice x (segmentStart (Begins L) x t) t ∈ L := by
  rw [Follows, viable_map, remainder_map]
  generalize slice x (segmentStart (Begins L) x t) t = u
  have hmem : [] ∈ L.leftQuotient u ↔ u ∈ L := by
    rw [Language.mem_leftQuotient, List.append_nil]
  constructor
  · rintro ⟨v, hv, heq⟩
    cases v with
    | nil => exact hmem.mp hv
    | cons y v => cases heq
  · intro hu
    exact ⟨[], hmem.mpr hu, rfl⟩

open Classical in
/-- A run of a compiled pattern without negated classes accepts at a position exactly when the
segment up to there is a word of the pattern. The verdict counts these positions or says whether
there is one. -/
theorem evaluate_accepts_iff_segment_mem {pattern : String} {options : Options}
    {artifact : Artifact} (h : compile pattern options = .ok artifact)
    (hneg : ∀ dialect, Dialect.expand pattern = .ok dialect →
      ∀ offset members, (offset, Token.oneOf true members) ∉ dialect.tokens)
    (x : List UInt8) :
    ∃ dialect tree e, Dialect.expand pattern = .ok dialect ∧ dialect.parse = .ok tree ∧
      artifact.program.evaluate x = .ok e ∧ e.states.length = x.length + 1 ∧
      (∀ t ≤ x.length, ∃ states, e.states[t]? = some states ∧
        (states.getD artifact.program.acceptState false = true ↔
          slice x (segmentStart (Begins tree.byteLanguage) x t) t ∈ tree.byteLanguage)) ∧
      (artifact.program.acceptance = .count → e.verdict =
        .counted ((List.range (x.length + 1)).countP fun t =>
          slice x (segmentStart (Begins tree.byteLanguage) x t) t ∈ tree.byteLanguage)) ∧
      (artifact.program.acceptance = .any → e.verdict =
        .matched (decide (∃ t ≤ x.length,
          slice x (segmentStart (Begins tree.byteLanguage) x t) t ∈ tree.byteLanguage))) := by
  obtain ⟨dialect, tree, hexpand, hparse, hshaped, hrun⟩ := exists_tree_of_compile h
  obtain ⟨heval, haccepts⟩ := hrun x
  have hfree : tree.Shaped False := by
    refine Tree.Shaped.mono ?_ hshaped
    rintro ⟨offset, members, hmem⟩
    exact hneg dialect hexpand offset members hmem
  have hiff : ∀ t ≤ x.length,
      (artifact.program.accepting (artifact.program.stateAfter (x.take t)) = true ↔
        slice x (segmentStart (Begins tree.byteLanguage) x t) t ∈ tree.byteLanguage) := by
    intro t ht
    rw [haccepts t ht, hfree.language_eq_map, follows_map_iff]
  refine ⟨dialect, tree, _, hexpand, hparse, heval, ?_, ?_, ?_, ?_⟩
  · simp [Program.states_run]
  · intro t ht
    exact ⟨_, artifact.program.getElem?_states_run ht, hiff t ht⟩
  · intro hcount
    rw [Program.verdict_run_count hcount]
    refine congrArg Verdict.counted (List.countP_congr fun t ht => ?_)
    rw [List.mem_range] at ht
    simpa using hiff t (by omega)
  · intro hany
    rw [Program.verdict_run_any hany]
    refine congrArg Verdict.matched (Bool.eq_iff_iff.mpr ?_)
    rw [List.any_eq_true, decide_eq_true_eq]
    constructor
    · rintro ⟨t, ht, haccept⟩
      rw [List.mem_range] at ht
      exact ⟨t, by omega, (hiff t (by omega)).mp haccept⟩
    · rintro ⟨t, ht, hmem⟩
      exact ⟨t, List.mem_range.mpr (by omega), (hiff t ht).mpr hmem⟩

/-- The run of `(ab)*c` on `abc` ends in the accept state, so the whole input is a word of it. -/
theorem segment_mem_of_run_repeated_pair :
    ∃ artifact tree, compile "(ab)*c" ⟨.count, []⟩ = .ok artifact ∧
      Tree.ofPattern "(ab)*c" = .ok tree ∧
      slice [97, 98, 99] (segmentStart (Begins tree.byteLanguage) [97, 98, 99] 3) 3 ∈
        tree.byteLanguage := by
  have hrun : (compile "(ab)*c" ⟨.count, []⟩).toOption.any (fun artifact =>
      (artifact.program.evaluate [97, 98, 99]).toOption.any fun e =>
        (e.states[3]?.getD #[]).getD artifact.program.acceptState false) = true := by
    decide +kernel
  have htokens : Dialect.expand "(ab)*c" = .ok ⟨6, [(0, .plain 40), (1, .plain 97),
      (2, .plain 98), (3, .plain 41), (4, .plain 42), (5, .plain 99)]⟩ := by decide +kernel
  obtain ⟨artifact, hcompile, hrun⟩ := Outcome.exists_ok_of_any hrun
  obtain ⟨e, heval, hrun⟩ := Outcome.exists_ok_of_any hrun
  obtain ⟨dialect, tree, e', hexpand, hparse, heval', _, hstates, _⟩ :=
    evaluate_accepts_iff_segment_mem hcompile (by
      intro dialect hd offset members
      rw [htokens] at hd
      cases hd
      simp) [97, 98, 99]
  obtain rfl := Except.ok.inj (heval.symm.trans heval')
  obtain ⟨states, hget, hiff⟩ := hstates 3 (by decide)
  rw [hget] at hrun
  exact ⟨artifact, tree, hcompile, by rw [Tree.ofPattern, hexpand]; exact hparse, hiff.mp hrun⟩

end PatternCircuit
