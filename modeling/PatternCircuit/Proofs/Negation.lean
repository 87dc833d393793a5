import PatternCircuit.Proofs.Matching
import PatternCircuit.Proofs.Pattern.Reading

/-! # False matches of negated classes

The members of a negated class stay readable in its place. A listed byte is rejected there only if
nothing else can be read; otherwise it is read as itself, and what is accepted behind it need not be
a word of the pattern. -/

namespace PatternCircuit

/-! ### Readings -/

/-- How a run reads bytes as a symbol word: a byte as itself where that is possible and differs from
the marker, and as the marker where it is not. -/
inductive Reads : Language Symbol → List UInt8 → List Symbol → Prop where
  | nil {M : Language Symbol} : [] ∈ M → Reads M [] []
  | byte {M : Language Symbol} {b : UInt8} {u : List UInt8} {w : List Symbol} :
      M.leftQuotient [.byte b] ≠ 0 → M.leftQuotient [.byte b] ≠ M.leftQuotient [.negate] →
      Reads (M.leftQuotient [.byte b]) u w → Reads M (b :: u) (.byte b :: w)
  | marker {M : Language Symbol} {b : UInt8} {u : List UInt8} {w : List Symbol} :
      M.leftQuotient [.byte b] = 0 → Reads (M.leftQuotient [.negate]) u w →
      Reads M (b :: u) (.negate :: w)

theorem remainder_cons (M : Language Symbol) (b : UInt8) (u : List UInt8) :
    remainder M (b :: u) = remainder (consume M b) u := rfl

theorem leftQuotient_zero (w : List Symbol) : (0 : Language Symbol).leftQuotient w = 0 := by
  ext v
  exact ⟨fun hv => absurd hv (Language.notMem_zero _), fun hv => absurd hv (Language.notMem_zero v)⟩

theorem remainder_zero (u : List UInt8) : remainder 0 u = 0 := by
  induction u with
  | nil => rfl
  | cons b u ih =>
      have hzero : consume 0 b = 0 := by simp [consume, leftQuotient_zero]
      rw [remainder_cons, hzero, ih]

theorem consume_of_byte {M : Language Symbol} {b : UInt8} (hne : M.leftQuotient [.byte b] ≠ 0)
    (hdiffers : M.leftQuotient [.byte b] ≠ M.leftQuotient [.negate]) :
    consume M b = M.leftQuotient [.byte b] := by
  rw [consume, if_neg hne, if_neg hdiffers]

theorem consume_of_marker {M : Language Symbol} {b : UInt8} (hzero : M.leftQuotient [.byte b] = 0) :
    consume M b = M.leftQuotient [.negate] := by
  rw [consume, if_pos hzero]

theorem exists_reads {M : Language Symbol} {u : List UInt8} (h : [] ∈ remainder M u) :
    ∃ w, Reads M u w := by
  induction u generalizing M with
  | nil => exact ⟨[], .nil h⟩
  | cons b u ih =>
      rw [remainder_cons] at h
      by_cases hzero : M.leftQuotient [.byte b] = 0
      · rw [consume_of_marker hzero] at h
        obtain ⟨w, hw⟩ := ih h
        exact ⟨_, .marker hzero hw⟩
      · by_cases hsame : M.leftQuotient [.byte b] = M.leftQuotient [.negate]
        · rw [consume, if_neg hzero, if_pos hsame, remainder_zero] at h
          exact absurd h (Language.notMem_zero _)
        · rw [consume_of_byte hzero hsame] at h
          obtain ⟨w, hw⟩ := ih h
          exact ⟨_, .byte hzero hsame hw⟩

theorem Reads.mem {M : Language Symbol} {u : List UInt8} {w : List Symbol} (h : Reads M u w) :
    w ∈ M := by
  induction h with
  | nil hmem => exact hmem
  | byte _ _ _ ih => exact (Language.mem_leftQuotient _ _).mp ih
  | marker _ _ ih => exact (Language.mem_leftQuotient _ _).mp ih

theorem Reads.forall₂ {M : Language Symbol} {u : List UInt8} {w : List Symbol} (h : Reads M u w) :
    List.Forall₂ Symbol.ReadFrom u w := by
  induction h with
  | nil _ => exact .nil
  | byte _ _ _ ih => exact .cons rfl ih
  | marker _ _ ih => exact .cons trivial ih

/-! ### Contested bytes -/

/-- Some byte can be read as itself and as the marker, and what remains then differs. -/
def Contested (M : Language Symbol) (u : List UInt8) : Prop :=
  ∃ v b w, u = v ++ b :: w ∧ (remainder M v).leftQuotient [.byte b] ≠ 0 ∧
    (remainder M v).leftQuotient [.negate] ≠ 0 ∧
    (remainder M v).leftQuotient [.byte b] ≠ (remainder M v).leftQuotient [.negate]

theorem Contested.cons {M : Language Symbol} {b : UInt8} {u : List UInt8}
    (h : Contested (consume M b) u) : Contested M (b :: u) := by
  obtain ⟨v, c, w, rfl, hcontested⟩ := h
  exact ⟨b :: v, c, w, rfl, hcontested⟩

theorem leftQuotient_ne_zero {M : Language Symbol} {a : Symbol} {w : List Symbol} (h : a :: w ∈ M) :
    M.leftQuotient [a] ≠ 0 := by
  intro hzero
  have hmem : w ∈ M.leftQuotient [a] := (Language.mem_leftQuotient _ _).mpr h
  rw [hzero] at hmem
  exact Language.notMem_zero w hmem

/-- A run can only have read a byte the wrong way where it is contested. -/
theorem Reads.contested {M : Language Symbol} {u : List UInt8} {w w' : List Symbol}
    (h : Reads M u w) (hex : Exchange u w w') (hw' : w' ∈ M) : Contested M u := by
  induction h generalizing w' with
  | nil _ => cases hex
  | byte hne hdiffers _ ih =>
      cases hex with
      | marker => exact ⟨[], _, _, rfl, hne, leftQuotient_ne_zero hw', hdiffers⟩
      | cons _ _ hex =>
          apply Contested.cons
          rw [consume_of_byte hne hdiffers]
          exact ih hex ((Language.mem_leftQuotient _ _).mpr hw')
  | marker hzero _ ih =>
      cases hex with
      | byte => exact absurd hzero (leftQuotient_ne_zero hw')
      | cons _ _ hex =>
          apply Contested.cons
          rw [consume_of_marker hzero]
          exact ih hex ((Language.mem_leftQuotient _ _).mpr hw')

/-- What a run accepts is a byte word, unless a byte of it is contested. -/
theorem mem_or_contested {M : Language Symbol} {B : Language UInt8} (hM : Resolves M B)
    {u : List UInt8} (h : [] ∈ remainder M u) : u ∈ B ∨ Contested M u := by
  obtain ⟨w, hw⟩ := exists_reads h
  rcases hM w hw.mem u hw.forall₂ with hmem | ⟨w', hw', hex⟩
  · exact .inl hmem
  · exact .inr (hw.contested hex hw')

/-! ### Compiled patterns -/

theorem remainder_append (M : Language Symbol) (u v : List UInt8) :
    remainder M (u ++ v) = remainder (remainder M u) v := by
  simp [remainder]

/-- An input that can be followed to its end is one segment. -/
theorem follows_length {M : Language Symbol} {u : List UInt8} (h : [] ∈ remainder M u) :
    Follows M u u.length := by
  have hviable : ∀ t, remainder M (slice u 0 t) ≠ 0 := by
    intro t hzero
    rw [slice, List.drop_zero] at hzero
    rw [← List.take_append_drop t u, remainder_append, hzero, remainder_zero] at h
    exact Language.notMem_zero _ h
  have hstart : ∀ t, segmentStart (fun v => remainder M v ≠ 0) u t = 0 := by
    intro t
    induction t with
    | zero => rfl
    | succ t ih => rw [segmentStart, ih, if_pos (hviable (t + 1))]
  rw [Follows, hstart, slice, List.take_length]
  exact h

theorem slice_slice (x : List UInt8) (s t r : Nat) :
    (slice x s t).drop r = slice x (s + r) t := by
  rw [slice, slice, List.drop_drop]

/-- A run of a compiled pattern accepts at a position exactly when the automaton can be followed
along the segment up to there, and then the segment is a word of the pattern or has a contested
byte. There is no false match at all exactly when every input that can be followed to its end has a
word of the pattern at its end. -/
theorem no_false_match_iff {pattern : String} {options : Options} {artifact : Artifact}
    (h : compile pattern options = .ok artifact) :
    ∃ dialect tree, Dialect.expand pattern = .ok dialect ∧ dialect.parse = .ok tree ∧
      (∀ x, ∃ e, artifact.program.evaluate x = .ok e ∧ e.states.length = x.length + 1 ∧
        ∀ t states, e.states[t]? = some states →
          (states.getD artifact.program.acceptState false = true ↔ Follows tree.language x t) ∧
          (states.getD artifact.program.acceptState false = true →
            ∃ s ≤ t, slice x s t ∈ tree.byteLanguage ∨ Contested tree.language (slice x s t))) ∧
      ((∀ x e, artifact.program.evaluate x = .ok e → ∀ (t : Nat) states,
          e.states[t]? = some states → states.getD artifact.program.acceptState false = true →
            ∃ s ≤ t, slice x s t ∈ tree.byteLanguage) ↔
        ∀ u, [] ∈ remainder tree.language u → ∃ s ≤ u.length, u.drop s ∈ tree.byteLanguage) := by
  obtain ⟨dialect, tree, hexpand, hparse, hshaped, hrun⟩ := exists_tree_of_compile h
  have hstates : ∀ x (t : Nat) states, (artifact.program.run x).states[t]? = some states →
      t ≤ x.length ∧
        (states.getD artifact.program.acceptState false = true ↔ Follows tree.language x t) := by
    intro x t states hget
    have hlt : t < x.length + 1 := by
      simpa [Program.states_run] using (List.getElem?_eq_some_iff.mp hget).1
    rw [artifact.program.getElem?_states_run (Nat.le_of_lt_succ hlt)] at hget
    cases hget
    exact ⟨Nat.le_of_lt_succ hlt, (hrun x).2 t (Nat.le_of_lt_succ hlt)⟩
  refine ⟨dialect, tree, hexpand, hparse, fun x => ⟨_, (hrun x).1, ?_, ?_⟩, ?_⟩
  · simp [Program.states_run]
  · intro t states hget
    have haccepts := (hstates x t states hget).2
    refine ⟨haccepts, fun haccept => ?_⟩
    have hfollows := haccepts.mp haccept
    exact ⟨_, segmentStart_le _ x t, mem_or_contested hshaped.resolves hfollows⟩
  · constructor
    · intro hmatch u hu
      have hget := artifact.program.getElem?_states_run (Nat.le_refl u.length)
      have haccept := (hstates u _ _ hget).2.mpr (follows_length hu)
      obtain ⟨s, hs, hmem⟩ := hmatch u _ (hrun u).1 _ _ hget haccept
      rw [slice, List.take_length] at hmem
      exact ⟨s, hs, hmem⟩
    · intro hends x e he t states hget haccept
      obtain rfl : artifact.program.run x = e := Except.ok.inj ((hrun x).1.symm.trans he)
      obtain ⟨ht, haccepts⟩ := hstates x t states hget
      obtain ⟨r, hr, hmem⟩ := hends _ (haccepts.mp haccept)
      rw [slice_slice] at hmem
      refine ⟨_, ?_, hmem⟩
      have hle := segmentStart_le (fun v => remainder tree.language v ≠ 0) x t
      rw [slice, List.length_drop, List.length_take] at hr
      omega

/-- The tree of `[^a]b|ac`. -/
def listedByteTree : Tree :=
  .alt ⟨0, 9⟩ [.cat ⟨0, 6⟩ [.alt ⟨0, 5⟩ [.text ⟨1, 2⟩ .negate, .text ⟨3, 4⟩ (.byte 97)],
    .text ⟨5, 6⟩ (.byte 98)], .cat ⟨7, 9⟩ [.text ⟨7, 8⟩ (.byte 97), .text ⟨8, 9⟩ (.byte 99)]]

theorem mem_listedByteTree {w : List UInt8} (h : w ∈ listedByteTree.byteLanguage) :
    (∃ b, b ≠ 97 ∧ w = [b, 98]) ∨ w = [97, 99] := by
  rcases h with h | h | h
  · obtain ⟨u, hu, v, hv, rfl⟩ := Language.mem_mul.mp h
    obtain ⟨b, rfl, hb⟩ := Tree.mem_byteLanguage_outside.mp hu
    obtain ⟨v, rfl, w, rfl, rfl⟩ := Language.mem_mul.mp hv
    refine .inl ⟨b, ?_, rfl⟩
    rintro rfl
    exact hb (.inl rfl)
  · obtain ⟨u, rfl, v, hv, rfl⟩ := Language.mem_mul.mp h
    obtain ⟨v, rfl, w, rfl, rfl⟩ := Language.mem_mul.mp hv
    exact .inr rfl
  · exact absurd h (Language.notMem_zero w)

/-- In `[^a]b|ac` the listed byte leads on, so `ab` is accepted although no word of the pattern ends
there. -/
theorem false_match_of_listed_byte :
    ∃ artifact, compile "[^a]b|ac" ⟨.any, []⟩ = .ok artifact ∧
      Tree.ofPattern "[^a]b|ac" = .ok listedByteTree ∧
      (∃ e states, artifact.program.evaluate [97, 98] = .ok e ∧ e.states[2]? = some states ∧
        states.getD artifact.program.acceptState false = true) ∧
      (∀ s ≤ 2, slice [97, 98] s 2 ∉ listedByteTree.byteLanguage) ∧
      (∃ s ≤ 2, Contested listedByteTree.language (slice [97, 98] s 2)) ∧
      ¬∀ u, [] ∈ remainder listedByteTree.language u →
        ∃ s ≤ u.length, u.drop s ∈ listedByteTree.byteLanguage := by
  have hrun : (compile "[^a]b|ac" ⟨.any, []⟩).toOption.any (fun artifact =>
      (artifact.program.evaluate [97, 98]).toOption.any fun e =>
        (e.states[2]?.getD #[]).getD artifact.program.acceptState false) = true := by
    decide +kernel
  have htokens : Dialect.expand "[^a]b|ac" = .ok ⟨8, [(0, .oneOf true [97]), (4, .plain 98),
      (5, .plain 124), (6, .plain 97), (7, .plain 99)]⟩ := by decide +kernel
  have hnone : ∀ s ≤ 2, slice [97, 98] s 2 ∉ listedByteTree.byteLanguage := by
    intro s hs hmem
    rcases Nat.lt_trichotomy s 1 with hlt | rfl | hgt
    · obtain rfl : s = 0 := by omega
      rcases mem_listedByteTree hmem with ⟨b, hb, heq⟩ | heq
      · exact hb (List.cons.inj heq).1.symm
      · cases heq
    · rcases mem_listedByteTree hmem with ⟨b, hb, heq⟩ | heq <;> cases heq
    · obtain rfl : s = 2 := by omega
      rcases mem_listedByteTree hmem with ⟨b, hb, heq⟩ | heq <;> cases heq
  obtain ⟨artifact, hcompile, hrun⟩ := Outcome.exists_ok_of_any hrun
  obtain ⟨e, heval, hrun⟩ := Outcome.exists_ok_of_any hrun
  obtain ⟨dialect, tree, hexpand, hparse, hruns, hiff⟩ := no_false_match_iff hcompile
  obtain rfl := Except.ok.inj (htokens.symm.trans hexpand)
  obtain rfl : listedByteTree = tree :=
    Except.ok.inj ((Dialect.parse_of_read rfl).symm.trans hparse)
  obtain ⟨e', heval', hlength, hstates⟩ := hruns [97, 98]
  obtain rfl := Except.ok.inj (heval.symm.trans heval')
  obtain ⟨states, hget⟩ : ∃ states, e.states[2]? = some states :=
    ⟨_, List.getElem?_eq_getElem (by rw [hlength]; decide)⟩
  rw [hget] at hrun
  obtain ⟨s, hs, hmem | hcontested⟩ := (hstates 2 states hget).2 hrun
  · exact absurd hmem (hnone s hs)
  · refine ⟨artifact, hcompile, ?_, ⟨e, states, heval, hget, hrun⟩, hnone, ⟨s, hs, hcontested⟩, ?_⟩
    · rw [Tree.ofPattern, hexpand]
      exact hparse
    · rw [← hiff]
      intro hall
      obtain ⟨s, hs, hmem⟩ := hall _ e heval 2 states hget hrun
      exact hnone s hs hmem

end PatternCircuit
