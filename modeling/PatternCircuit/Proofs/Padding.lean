import PatternCircuit.Proofs.Tracking

/-! # Padded inputs

On a padded input a run does what it does on the input and then takes zeros. A negated class takes a
zero as it takes every byte that is not listed, so a padded input can match where the input does
not. No other edge takes a zero, unless the pattern holds one. -/

namespace PatternCircuit

theorem padInput_eq_ok {x : List UInt8} {length : Nat} (hzero : 0 ∉ x)
    (hlength : x.length ≤ length) :
    padInput x length = .ok (x ++ List.replicate (length - x.length) 0) := by
  have hnone : x.findIdx? (fun b => b == 0) = none := by
    rw [List.findIdx?_eq_none_iff]
    intro b hb
    rw [beq_eq_false_iff_ne]
    rintro rfl
    exact hzero hb
  rw [padInput, if_neg (by omega), hnone]

/-! ### Longer inputs -/

namespace Program

variable {p : Program}

/-- Further states change no verdict exactly if none of them is accepting or if the verdict is
already that one is. -/
theorem verdict_append_eq_iff (hall : p.acceptance ≠ .all) (states later : List (Array Bool)) :
    p.verdict (states ++ later) = p.verdict states ↔
      (p.acceptance = .any ∧ p.verdict states = .matched true) ∨
        ∀ state ∈ later, p.accepting state = false := by
  unfold verdict
  cases hacceptance : p.acceptance with
  | count =>
      simp only [List.countP_append, Verdict.counted.injEq, Nat.add_eq_left, List.countP_eq_zero,
        Bool.not_eq_true, reduceCtorEq, false_and, false_or]
  | any =>
      simp only [List.any_append, Verdict.matched.injEq, true_and]
      cases states.any p.accepting with
      | true => simp
      | false => simp
  | all => exact absurd hacceptance hall

/-- A run on a longer input goes on behind the states of the shorter one. -/
theorem states_run_append (p : Program) (x z : List UInt8) :
    (p.run (x ++ z)).states = (p.run x).states ++
      (List.range z.length).map fun i => p.stateAfter (x ++ z.take (i + 1)) := by
  have hlength : (x ++ z).length + 1 = x.length + 1 + z.length := by
    rw [List.length_append]
    omega
  rw [states_run, states_run, hlength, List.range_add, List.map_append, List.map_map]
  congr 1
  · apply List.map_congr_left
    intro t ht
    rw [List.mem_range] at ht
    rw [List.take_append_of_le_length (by omega)]
  · apply List.map_congr_left
    intro i _
    rw [Function.comp_apply, Nat.add_right_comm, Nat.add_assoc, List.take_length_add_append]

theorem verdict_run_append_eq_iff (hall : p.acceptance ≠ .all) (x z : List UInt8) :
    (p.run (x ++ z)).verdict = (p.run x).verdict ↔
      (p.acceptance = .any ∧ (p.run x).verdict = .matched true) ∨
        ∀ t, x.length < t → t ≤ x.length + z.length →
          (p.run (x ++ z)).activeAt t p.acceptState = false := by
  have hverdict : ∀ y, (p.run y).verdict = p.verdict (p.run y).states := fun _ => rfl
  rw [hverdict, hverdict, states_run_append, verdict_append_eq_iff hall]
  refine or_congr_right ?_
  have hactive : ∀ i < z.length, (p.run (x ++ z)).activeAt (x.length + (i + 1)) p.acceptState =
      p.accepting (p.stateAfter (x ++ z.take (i + 1))) := by
    intro i hi
    rw [activeAt_run p (by rw [List.length_append]; omega), List.take_length_add_append]
    rfl
  simp only [List.forall_mem_map, List.mem_range]
  constructor
  · intro hnone t hlt hle
    obtain ⟨i, rfl⟩ : ∃ i, t = x.length + (i + 1) := ⟨t - x.length - 1, by omega⟩
    rw [hactive i (by omega)]
    exact hnone i (by omega)
  · intro hnone i hi
    rw [← hactive i hi]
    exact hnone _ (by omega) (by omega)

theorem verdict_run_any_eq_true_iff (hany : p.acceptance = .any) (x : List UInt8) :
    (p.run x).verdict = .matched true ↔
      ∃ t ≤ x.length, (p.run x).activeAt t p.acceptState = true := by
  rw [verdict_run_any hany, Verdict.matched.injEq, List.any_eq_true]
  simp only [List.mem_range, Nat.lt_succ_iff]
  refine exists_congr fun t => and_congr_right fun ht => ?_
  rw [activeAt_run p ht]
  rfl

end Program

/-! ### Zeros behind an input -/

section Compiled

variable {d : Dfa} {a : Inflow} (hd : d.Minimal) (ha : Inflow.ofDfa d = .ok a)
include hd ha

theorem activeAt_acceptState_iff {p : Program} (hp : p.WrittenFrom a) {y : List UInt8} {t : Nat}
    (ht : t ≤ y.length) : (p.run y).activeAt t p.acceptState = true ↔
      d.isAccept (d.active (y.take t)) = true := by
  obtain ⟨_, _, honly⟩ := Inflow.acceptState_ofDfa ha
  rw [activeAt_run_iff hd.wellFormed ha hp ht, honly, hp.acceptState, eq_comm]

/-- Where a zero leads to acceptance, a symbol word that ends in the marker does. -/
theorem exists_marker_word (hzero : d.Unlisted 0) {y : List UInt8}
    (h : d.isAccept (d.active (y ++ [0])) = true) :
    ∃ (s : Nat) (w : List Symbol), s + w.length = y.length ∧
      (∀ i ≤ w.length, d.run? 0 (w.take i) = some (d.active (y.take (s + i)))) ∧
      w ++ [.negate] ∈ d.residual 0 := by
  obtain ⟨s, w, hlength, hrun⟩ := hd.exists_word_of_active y (Nat.le_refl _)
  refine ⟨s, w, hlength, hrun, ?_⟩
  have hlast := hrun w.length (Nat.le_refl _)
  rw [List.take_length, hlength, List.take_length] at hlast
  rw [Dfa.active_concat, Dfa.restart, hd.byteStep?_of_unlisted hzero] at h
  cases hstep : d.step? (d.active y) .negate with
  | none =>
      obtain ⟨hne, _, honly⟩ := Inflow.acceptState_ofDfa ha
      rw [hstep, Option.getD_none, honly] at h
      exact absurd h.symm hne
  | some q =>
      rw [hstep, Option.getD_some] at h
      rw [Dfa.mem_residual, Dfa.run?_concat, hlast, Option.bind_some, hstep]
      exact ⟨q, rfl, h⟩

omit ha in
/-- A symbol word that ends in the marker is tracked by bytes without zero and a zero. -/
theorem exists_input_of_marker_word (hzero : d.Unlisted 0) (htop : d.Unlisted 255)
    {w : List Symbol} (h : w ++ [.negate] ∈ d.residual 0) :
    ∃ u, d.Tracks w u ∧ 0 ∉ u ∧ d.isAccept (d.active (u ++ [0])) = true := by
  obtain ⟨q, hrun, haccept⟩ := Dfa.mem_residual.mp h
  rw [Dfa.run?_concat] at hrun
  obtain ⟨r, hr, hstep⟩ := Option.bind_eq_some_iff.mp hrun
  obtain ⟨u, hu, hfree⟩ := hd.exists_tracks hzero htop hr
  refine ⟨u, hu, hfree, ?_⟩
  rw [hu.run?_eq, Option.some.injEq] at hr
  rw [Dfa.active_concat, Dfa.restart, hd.byteStep?_of_unlisted hzero, hr, hstep]
  exact haccept

end Compiled

/-! ### Neutral padding -/

/-- On inputs without zero, padding never changes the verdict. -/
def Program.PaddingNeutral (p : Program) : Prop :=
  ∀ (x : List UInt8) (length : Nat), 0 ∉ x → x.length ≤ length →
    ∃ padded e e', padInput x length = .ok padded ∧ p.evaluate x = .ok e ∧
      p.evaluate padded = .ok e' ∧ e'.verdict = e.verdict

/-- Every word that ends in the marker has another word at its beginning, and matches are searched
for, not counted, so that the longer word adds nothing. -/
def Acceptance.PassesOver (acceptance : Acceptance) (M : Language Symbol) : Prop :=
  ∀ w, w ++ [.negate] ∈ M → acceptance = .any ∧ ∃ u, u <+: w ∧ u ∈ M

section Compiled

variable {d : Dfa} {a : Inflow} {p : Program} (hd : d.Minimal) (ha : Inflow.ofDfa d = .ok a)
  (hp : p.WrittenFrom a) (hall : p.acceptance ≠ .all) (hzero : d.Unlisted 0)
include hd ha hp hall hzero

omit hall in
/-- A position in the padding accepts only if a position before it does. -/
theorem found_of_accept_in_padding (h : p.acceptance.PassesOver (d.residual 0)) {x : List UInt8}
    (n : Nat) {t : Nat} (hlt : x.length < t) (hle : t ≤ x.length + n)
    (haccept : (p.run (x ++ List.replicate n 0)).activeAt t p.acceptState = true) :
    p.acceptance = .any ∧ (p.run x).verdict = .matched true := by
  induction t using Nat.strong_induction_on with
  | _ t ih =>
      obtain ⟨m, rfl⟩ : ∃ m, t = m + 1 := ⟨t - 1, by omega⟩
      have hm : m < (x ++ List.replicate n 0).length := by simp; omega
      have htake : (x ++ List.replicate n 0).take (m + 1) =
          (x ++ List.replicate n 0).take m ++ [0] := by
        rw [List.take_succ_eq_append_getElem hm, List.getElem_append_right (by omega),
          List.getElem_replicate]
      rw [activeAt_acceptState_iff hd ha hp hm, htake] at haccept
      obtain ⟨s, w, hlength, hrun, hw⟩ := exists_marker_word hd ha hzero haccept
      rw [List.length_take] at hlength
      obtain ⟨hany, u, hu, hmem⟩ := h w hw
      -- the word found before the marker ends at an earlier position
      have hshort := hu.length_le
      obtain ⟨q, hq, hqaccept⟩ := Dfa.mem_residual.mp hmem
      have hstate := hrun u.length hshort
      rw [← List.prefix_iff_eq_take.mp hu, hq, Option.some.injEq, List.take_take,
        Nat.min_eq_left (by omega)] at hstate
      rw [hstate] at hqaccept
      by_cases hinside : s + u.length ≤ x.length
      · rw [List.take_append_of_le_length hinside] at hqaccept
        refine ⟨hany, (Program.verdict_run_any_eq_true_iff hany x).mpr ⟨_, hinside, ?_⟩⟩
        exact (activeAt_acceptState_iff hd ha hp hinside).mpr hqaccept
      · refine ih (s + u.length) (by omega) (by omega) (by omega) ?_
        exact (activeAt_acceptState_iff hd ha hp (by omega)).mpr hqaccept

theorem paddingNeutral_of_passesOver (h : p.acceptance.PassesOver (d.residual 0)) :
    p.PaddingNeutral := by
  intro x length hfree hlength
  refine ⟨_, _, _, padInput_eq_ok hfree hlength, Program.evaluate_of_validate (hp.validate ha) x,
    Program.evaluate_of_validate (hp.validate ha) _, ?_⟩
  rw [Program.verdict_run_append_eq_iff hall, List.length_replicate]
  generalize length - x.length = n
  by_cases hfound : p.acceptance = .any ∧ (p.run x).verdict = .matched true
  · exact .inl hfound
  · refine .inr fun t hlt hle => Bool.eq_false_iff.mpr fun haccept => hfound ?_
    exact found_of_accept_in_padding hd ha hp hzero h n hlt hle haccept

theorem passesOver_of_paddingNeutral (htop : d.Unlisted 255) (h : p.PaddingNeutral) :
    p.acceptance.PassesOver (d.residual 0) := by
  intro w hw
  obtain ⟨u, hu, hfree, haccept⟩ := exists_input_of_marker_word hd hzero htop hw
  obtain ⟨padded, e, e', hpad, heval, heval', hverdict⟩ := h u (u.length + 1) hfree (by omega)
  rw [padInput_eq_ok hfree (by omega), Nat.add_sub_cancel_left, List.replicate_one] at hpad
  cases hpad
  rw [Program.evaluate_of_validate (hp.validate ha)] at heval heval'
  cases heval
  cases heval'
  rcases (Program.verdict_run_append_eq_iff hall u [0]).mp hverdict with ⟨hany, hfound⟩ | hnone
  · obtain ⟨t, ht, hactive⟩ := (Program.verdict_run_any_eq_true_iff hany u).mp hfound
    rw [activeAt_acceptState_iff hd ha hp ht] at hactive
    refine ⟨hany, w.take t, List.take_prefix t w, _, hu.run? t ?_, hactive⟩
    rwa [← hu.length]
  · have hlast := hnone (u.length + 1) (by omega) (by simp)
    rw [← Bool.not_eq_true, activeAt_acceptState_iff hd ha hp (by simp)] at hlast
    rw [List.take_of_length_le (by simp)] at hlast
    exact absurd haccept hlast

end Compiled

theorem negate_notMem_of_shaped {tree : Tree} (h : tree.Shaped False) {w : List Symbol}
    (hw : w ∈ tree.language) : .negate ∉ w := by
  rw [h.language_eq_map] at hw
  obtain ⟨u, _, rfl⟩ := hw
  simp

/-- Padding an input with zeros changes the verdict exactly if the run accepts in the padding and
the verdict is not already that there is a match. It never does so for a pattern exactly if no word
of the pattern ends in a negated class or, where matches are searched for and not counted, every
such word has a shorter word at its beginning. Without negated classes it never does. -/
theorem padding_neutral_iff {pattern : String} {options : Options} {artifact : Artifact}
    (h : compile pattern options = .ok artifact) (hnul : 0 ∉ pattern.toUTF8.toList)
    (hall : artifact.program.acceptance ≠ .all) :
    ∃ tree, Tree.ofPattern pattern = .ok tree ∧
      (∀ (x : List UInt8) (length : Nat), 0 ∉ x → x.length ≤ length →
        ∃ padded e e', padInput x length = .ok padded ∧ artifact.program.evaluate x = .ok e ∧
          artifact.program.evaluate padded = .ok e' ∧
          (e'.verdict = e.verdict ↔
            (artifact.program.acceptance = .any ∧ e.verdict = .matched true) ∨
              ∀ t, x.length < t → t ≤ length →
                e'.activeAt t artifact.program.acceptState = false)) ∧
      (artifact.program.PaddingNeutral ↔
        artifact.program.acceptance.PassesOver tree.language) ∧
      ((∀ dialect, Dialect.expand pattern = .ok dialect →
        ∀ offset members, (offset, Token.oneOf true members) ∉ dialect.tokens) →
          artifact.program.PaddingNeutral) := by
  obtain ⟨d, hmin, hautomaton⟩ := compile_eq_ok.mp h
  obtain ⟨a, ha, hp⟩ := exists_writtenFrom hautomaton
  have hzero := unlisted_of_minimalDfa hmin hnul (by decide)
  have htop := unlisted_top_of_minimalDfa hmin
  obtain ⟨tree, htree, hproper, rfl⟩ := exists_tree_of_minimalDfa hmin
  obtain ⟨hd, hlanguage⟩ := Dfa.minimize_ofTree hproper
  generalize artifact.program = p at hp hall
  refine ⟨tree, htree, ?_, ?_, ?_⟩
  · intro x length hfree hlength
    refine ⟨_, _, _, padInput_eq_ok hfree hlength,
      Program.evaluate_of_validate (hp.validate ha) x,
      Program.evaluate_of_validate (hp.validate ha) _, ?_⟩
    rw [Program.verdict_run_append_eq_iff hall, List.length_replicate,
      Nat.add_sub_cancel' hlength]
  · rw [← hlanguage]
    exact ⟨passesOver_of_paddingNeutral hd ha hp hall hzero htop,
      paddingNeutral_of_passesOver hd ha hp hall hzero⟩
  · intro hneg
    refine paddingNeutral_of_passesOver hd ha hp hall hzero fun w hw => ?_
    obtain ⟨dialect, hexpand, hparse⟩ := Outcome.bind_eq_ok.mp htree
    have hshaped := Tree.shaped_of_no_negation hexpand hparse (hneg dialect hexpand)
    rw [hlanguage] at hw
    exact absurd (by simp) (negate_notMem_of_shaped hshaped hw)

/-- The tree of `ab[^c]*`. -/
def openTailTree : Tree :=
  .cat ⟨0, 8⟩ [.text ⟨0, 1⟩ (.byte 97), .text ⟨1, 2⟩ (.byte 98),
    .star ⟨2, 8⟩ (.alt ⟨2, 7⟩ [.text ⟨3, 4⟩ .negate, .text ⟨5, 6⟩ (.byte 99)])]

theorem passesOver_openTailTree : Acceptance.any.PassesOver openTailTree.language := by
  intro w hw
  refine ⟨rfl, [.byte 97, .byte 98], ?_, ?_⟩
  · obtain ⟨_, rfl, v, hv, heq⟩ := Language.mem_mul.mp hw
    obtain ⟨_, rfl, z, _, rfl⟩ := Language.mem_mul.mp hv
    -- the marker at the end is not one of the two literals in front
    have hprefix : [Symbol.byte 97, .byte 98] <+: w ++ [.negate] := ⟨z, heq⟩
    rcases List.prefix_concat_iff.mp hprefix with habs | hmem
    · have hlast := congrArg List.getLast? habs
      simp at hlast
    · exact hmem
  · have htail : [] ∈ Tree.sequence [.star ⟨2, 8⟩ (.alt ⟨2, 7⟩
        [.text ⟨3, 4⟩ .negate, .text ⟨5, 6⟩ (.byte 99)])] :=
      Language.append_mem_mul (Language.nil_mem_kstar _) Language.nil_mem_one
    have hliteral : ∀ s b, [Symbol.byte b] ∈ (Tree.text s (.byte b)).language := fun _ _ => rfl
    exact Language.append_mem_mul (hliteral ⟨0, 1⟩ 97)
      (Language.append_mem_mul (hliteral ⟨1, 2⟩ 98) htail)

/-- Zeros behind an input are taken as the tail of `ab[^c]*`, but only behind an `ab`, which is a
match already. -/
theorem padding_neutral_open_tail :
    ∃ artifact, compile "ab[^c]*" ⟨.any, []⟩ = .ok artifact ∧
      artifact.program.acceptance = .any ∧ artifact.program.PaddingNeutral := by
  have hrun : (compile "ab[^c]*" ⟨.any, []⟩).toOption.any (fun artifact =>
      artifact.program.acceptance == .any) = true := by
    decide +kernel
  have htokens : Dialect.expand "ab[^c]*" = .ok ⟨7, [(0, .plain 97), (1, .plain 98),
      (2, .oneOf true [99]), (6, .plain 42)]⟩ := by decide +kernel
  have hnul : 0 ∉ "ab[^c]*".toUTF8.toList := by decide +kernel
  have hparsed : Tree.ofPattern "ab[^c]*" = .ok openTailTree := by
    rw [Tree.ofPattern, htokens]
    exact Dialect.parse_of_read rfl
  obtain ⟨artifact, hcompile, hrun⟩ := Outcome.exists_ok_of_any hrun
  rw [beq_iff_eq] at hrun
  obtain ⟨tree, htree, _, hiff, _⟩ := padding_neutral_iff hcompile hnul (by simp [hrun])
  obtain rfl := Except.ok.inj (hparsed.symm.trans htree)
  refine ⟨artifact, hcompile, hrun, hiff.mpr ?_⟩
  rw [hrun]
  exact passesOver_openTailTree

/-- `[^a]` does not match `a`, but it matches the zero that `a` is padded with. -/
theorem padding_matches_negated_class :
    ∃ artifact padded e e', compile "[^a]" ⟨.any, []⟩ = .ok artifact ∧
      artifact.program.acceptance = .any ∧ padInput [97] 2 = .ok padded ∧
      artifact.program.evaluate [97] = .ok e ∧ e.verdict = .matched false ∧
      artifact.program.evaluate padded = .ok e' ∧ e'.verdict = .matched true := by
  have hrun : (compile "[^a]" ⟨.any, []⟩).toOption.any (fun artifact =>
      artifact.program.acceptance == .any &&
      ((artifact.program.evaluate [97]).toOption.any (fun e => e.verdict == .matched false) &&
        (artifact.program.evaluate [97, 0]).toOption.any fun e' =>
          e'.verdict == .matched true)) = true := by
    decide +kernel
  obtain ⟨artifact, hcompile, hrun⟩ := Outcome.exists_ok_of_any hrun
  simp only [Bool.and_eq_true, beq_iff_eq] at hrun
  obtain ⟨hany, hshort, hpadded⟩ := hrun
  obtain ⟨e, heval, hverdict⟩ := Outcome.exists_ok_of_any hshort
  obtain ⟨e', heval', hverdict'⟩ := Outcome.exists_ok_of_any hpadded
  rw [beq_iff_eq] at hverdict hverdict'
  exact ⟨artifact, [97, 0], e, e', hcompile, hany, rfl, heval, hverdict, heval', hverdict'⟩

end PatternCircuit
