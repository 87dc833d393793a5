import PatternCircuit.Proofs.Matching

/-! # Which occurrences a run finds

A run tries one beginning at a time. The byte that breaks an attempt is not tried as a beginning
itself, so an occurrence that overlaps a broken attempt can be missed. A pattern finds all its
occurrences exactly when each attempt that is under way where an occurrence starts leads to a word
itself. -/

namespace PatternCircuit

/-! ### Slices -/

theorem slice_isPrefix_slice (x : List UInt8) (s : Nat) {t t' : Nat} (h : t ≤ t') :
    slice x s t <+: slice x s t' := by
  rw [slice, slice]
  exact (List.take_prefix_take_left h).drop s

theorem slice_isInfix (x : List UInt8) (s t : Nat) : slice x s t <:+: x :=
  (List.drop_suffix s _).isInfix.trans (List.take_prefix t x).isInfix

theorem length_slice {x : List UInt8} {s t : Nat} (ht : t ≤ x.length) :
    (slice x s t).length = t - s := by
  rw [slice, List.length_drop, List.length_take, Nat.min_eq_left ht]

theorem slice_append_slice {x : List UInt8} {r s t : Nat} (hr : r ≤ s) (hs : s ≤ t)
    (ht : t ≤ x.length) : slice x r s ++ slice x s t = slice x r t := by
  have htake : x.take t = x.take s ++ slice x s t := by
    have hsplit := (List.take_append_drop s (x.take t)).symm
    rwa [List.take_take, Nat.min_eq_left hs] at hsplit
  have hle : r ≤ (x.take s).length := by
    rw [List.length_take]
    omega
  calc slice x r s ++ slice x s t
      = (x.take s ++ slice x s t).drop r := (List.drop_append_of_le_length hle).symm
    _ = slice x r t := by rw [← htake, slice]

theorem take_slice {x : List UInt8} {s t n : Nat} (h : s + n ≤ t) :
    (slice x s t).take n = slice x s (s + n) := by
  rw [slice, slice, List.take_drop, List.take_take, Nat.min_eq_left h]

theorem slice_append_right (y w : List UInt8) (s t : Nat) :
    slice (y ++ w) (y.length + s) (y.length + t) = slice w s t := by
  simp [slice, List.take_append, List.drop_append]

theorem exists_slice_of_isInfix {w x : List UInt8} (h : w <:+: x) :
    ∃ s t, s ≤ t ∧ t ≤ x.length ∧ slice x s t = w := by
  obtain ⟨u, v, rfl⟩ := h
  refine ⟨u.length, u.length + w.length, by omega, by simp, ?_⟩
  simp [slice, List.take_append]

/-! ### Where segments start -/

theorem segmentStart_segmentStart (viable : List UInt8 → Prop) (x : List UInt8) (t : Nat) :
    segmentStart viable x (segmentStart viable x t) = segmentStart viable x t := by
  induction t with
  | zero => rfl
  | succ t ih =>
      by_cases hviable : viable (slice x (segmentStart viable x t) (t + 1))
      · rw [segmentStart, if_pos hviable, ih]
      · have hstart : segmentStart viable x (t + 1) = t + 1 := by
          rw [segmentStart, if_neg hviable]
        rw [hstart, hstart]

section Segments

variable {L : Language UInt8} {x : List UInt8}

theorem Begins.of_isPrefix {u v : List UInt8} (h : Begins L u) (hv : v <+: u) : Begins L v := by
  obtain ⟨w, hw⟩ := h
  obtain ⟨u', rfl⟩ := hv
  exact ⟨u' ++ w, by rwa [← List.append_assoc]⟩

/-- A segment goes on as long as what it has read is the beginning of a word. -/
theorem segmentStart_of_begins {s t : Nat} (hs : segmentStart (Begins L) x s = s) (hle : s ≤ t)
    (h : Begins L (slice x s t)) : segmentStart (Begins L) x t = s := by
  induction t, hle using Nat.le_induction with
  | base => exact hs
  | succ t hle ih =>
      have hstart := ih (h.of_isPrefix (slice_isPrefix_slice x s (Nat.le_succ t)))
      rw [segmentStart, hstart, if_pos h]

theorem begins_segment (hne : Begins L []) (t : Nat) :
    Begins L (slice x (segmentStart (Begins L) x t) t) := by
  cases t with
  | zero => rwa [segmentStart, slice_self]
  | succ t =>
      rw [segmentStart]
      split
      · assumption
      · rwa [slice_self]

/-! ### Found words and shortest words -/

/-- Some segment is a word. -/
def FoundIn (L : Language UInt8) (x : List UInt8) : Prop :=
  ∃ t ≤ x.length, slice x (segmentStart (Begins L) x t) t ∈ L

/-- A word stands somewhere. -/
def OccursIn (L : Language UInt8) (x : List UInt8) : Prop :=
  ∃ s t, s ≤ t ∧ t ≤ x.length ∧ slice x s t ∈ L

/-- A word in which no other word stands. -/
def Shortest (L : Language UInt8) (w : List UInt8) : Prop := w ∈ L ∧ ∀ u ∈ L, u <:+: w → u = w

/-- What stands where a segment starts is found. -/
theorem foundIn_of_segmentStart {s t : Nat} (hs : segmentStart (Begins L) x s = s) (hle : s ≤ t)
    (ht : t ≤ x.length) (hmem : slice x s t ∈ L) : FoundIn L x := by
  have hbegins : Begins L (slice x s t) := ⟨[], by rwa [List.append_nil]⟩
  refine ⟨t, ht, ?_⟩
  rwa [segmentStart_of_begins hs hle hbegins]

theorem exists_shortest {w : List UInt8} (hw : w ∈ L) : ∃ u, Shortest L u ∧ u <:+: w := by
  induction hlength : w.length using Nat.strong_induction_on generalizing w with
  | _ n ih =>
      by_cases hshortest : ∀ u ∈ L, u <:+: w → u = w
      · exact ⟨w, ⟨hw, hshortest⟩, List.infix_refl w⟩
      · push Not at hshortest
        obtain ⟨u, hu, hinside, hne⟩ := hshortest
        have hlt : u.length < n := by
          have hle := hinside.length_le
          have hdiffers : u.length ≠ w.length := fun heq => hne (hinside.eq_of_length heq)
          omega
        obtain ⟨v, hv, hv'⟩ := ih u.length hlt hu rfl
        exact ⟨v, hv, hv'.trans hinside⟩

/-- If something is found in the beginning of a word followed by a shortest word, it stands at the
start. -/
theorem exists_isPrefix_of_foundIn {y w : List UInt8} (hy : Begins L y) (hw : Shortest L w)
    (h : FoundIn L (y ++ w)) : ∃ v ∈ L, v <+: y ++ w := by
  obtain ⟨t, ht, hmem⟩ := h
  have hstart := segmentStart_segmentStart (Begins L) (y ++ w) t
  have hle := segmentStart_le (Begins L) (y ++ w) t
  generalize segmentStart (Begins L) (y ++ w) t = s at hmem hstart hle
  rw [List.length_append] at ht
  -- the segment that begins with `y` is not broken inside it, and none inside `w` is a word
  by_cases hs : s ≤ y.length
  · have hbegins : Begins L (slice (y ++ w) 0 s) := by
      refine hy.of_isPrefix ?_
      rw [slice, List.drop_zero, List.take_append_of_le_length hs]
      exact List.take_prefix s y
    obtain rfl : s = 0 := hstart.symm.trans (segmentStart_of_begins rfl (Nat.zero_le s) hbegins)
    exact ⟨_, hmem, List.take_prefix t _⟩
  · obtain ⟨i, rfl⟩ := Nat.exists_eq_add_of_le (Nat.le_of_not_le hs)
    obtain ⟨j, rfl⟩ := Nat.exists_eq_add_of_le (Nat.le_trans (Nat.le_of_not_le hs) hle)
    rw [slice_append_right] at hmem
    have hlength := length_slice (x := w) (s := i) (t := j) (by omega)
    rw [hw.2 _ hmem (slice_isInfix w i j)] at hlength
    omega

/-- A shortest word that stands somewhere is found, or a word before it, if the attempt that is
under way where it starts leads to a word. -/
theorem foundIn_of_leads
    (hleads : ∀ y w, Begins L y → Shortest L w → ∃ v ∈ L, v <+: y ++ w)
    (hoccurs : OccursIn L x) : FoundIn L x := by
  obtain ⟨s₀, t₀, _, _, hmem₀⟩ := hoccurs
  obtain ⟨w, hw, hinside⟩ := exists_shortest hmem₀
  obtain ⟨s, t, hst, ht, rfl⟩ := exists_slice_of_isInfix (hinside.trans (slice_isInfix x s₀ t₀))
  have hbegins := begins_segment (x := x) ⟨_, hw.1⟩ s
  have hstart := segmentStart_segmentStart (Begins L) x s
  have hle := segmentStart_le (Begins L) x s
  generalize segmentStart (Begins L) x s = r at hbegins hstart hle
  obtain ⟨v, hv, hstarts⟩ := hleads _ _ hbegins hw
  rw [slice_append_slice hle hst ht] at hstarts
  have hlength := hstarts.length_le
  rw [length_slice ht] at hlength
  rw [List.prefix_iff_eq_take.mp hstarts, take_slice (by omega)] at hv
  exact foundIn_of_segmentStart hstart (by omega) (by omega) hv

/-- All occurrences are found in all inputs exactly when every attempt that can be under way where a
shortest word starts leads to a word itself. -/
theorem foundIn_of_occursIn_iff :
    (∀ x, OccursIn L x → FoundIn L x) ↔
      ∀ y w, Begins L y → Shortest L w → ∃ v ∈ L, v <+: y ++ w := by
  constructor
  · intro hfound y w hy hw
    have hoccurs : OccursIn L (y ++ w) := by
      refine ⟨y.length, y.length + w.length, by omega, by simp, ?_⟩
      have hslice := slice_append_right y w 0 w.length
      rw [Nat.add_zero] at hslice
      rw [hslice, slice, List.take_length]
      exact hw.1
    exact exists_isPrefix_of_foundIn hy hw (hfound _ hoccurs)
  · intro hleads x hoccurs
    exact foundIn_of_leads hleads hoccurs

end Segments

/-! ### Compiled patterns -/

theorem mem_map_byte_iff {R : Language UInt8} {w : List UInt8} :
    w.map Symbol.byte ∈ Language.map Symbol.byte R ↔ w ∈ R := by
  have hinjective : Function.Injective Symbol.byte := fun b c h => Symbol.byte.inj h
  constructor
  · intro h
    obtain ⟨u, hu, heq⟩ := h
    rwa [← List.map_injective_iff.mpr hinjective heq]
  · intro h
    exact ⟨w, h, rfl⟩

/-- What stands where the run is in its start state is found. -/
theorem foundIn_of_idle {d : Dfa} {a : Inflow} (hd : d.Minimal) (ha : Inflow.ofDfa d = .ok a)
    {p : Program} (hp : p.WrittenFrom a) {L : Language UInt8}
    (hlanguage : d.residual 0 = Language.map Symbol.byte L) {x : List UInt8} {s t : Nat}
    (hst : s ≤ t) (ht : t ≤ x.length) (hidle : (p.run x).activeAt s 0 = true)
    (hmem : slice x s t ∈ L) : FoundIn L x := by
  have hs : s ≤ x.length := Nat.le_trans hst ht
  rw [activeAt_run_iff hd.wellFormed ha hp hs] at hidle
  have hresidual := residual_active hd x hs
  rw [← hidle, hlanguage, viable_map, remainder_map] at hresidual
  have hle := segmentStart_le (Begins L) x s
  have hstart := segmentStart_segmentStart (Begins L) x s
  generalize segmentStart (Begins L) x s = r at hresidual hle hstart
  have hword : slice x r s ++ slice x s t ∈ L := by
    rw [← mem_map_byte_iff, hresidual, mem_map_byte_iff] at hmem
    exact (Language.mem_leftQuotient _ _).mp hmem
  rw [slice_append_slice hle hst ht] at hword
  exact foundIn_of_segmentStart hstart (Nat.le_trans hle hst) ht hword

/-- The verdict of a compiled pattern without negated classes says whether something is found. -/
theorem verdict_iff_foundIn {pattern : String} {options : Options} {artifact : Artifact}
    (h : compile pattern options = .ok artifact)
    (hneg : ∀ dialect, Dialect.expand pattern = .ok dialect →
      ∀ offset members, (offset, Token.oneOf true members) ∉ dialect.tokens) :
    ∃ dialect tree, Dialect.expand pattern = .ok dialect ∧ dialect.parse = .ok tree ∧
      ∀ x, ∃ e, artifact.program.evaluate x = .ok e ∧
        (∀ s t, s ≤ t → t ≤ x.length → e.activeAt s 0 = true → slice x s t ∈ tree.byteLanguage →
          FoundIn tree.byteLanguage x) ∧
        (artifact.program.acceptance = .any →
          (e.verdict = .matched true ↔ FoundIn tree.byteLanguage x)) ∧
        (artifact.program.acceptance = .count →
          ((∃ n, 0 < n ∧ e.verdict = .counted n) ↔ FoundIn tree.byteLanguage x)) := by
  obtain ⟨dialect, tree, d, a, hexpand, hparse, _, hd, hresidual, ha, hp⟩ :=
    exists_minimal_of_compile h
  have hshaped := Tree.shaped_of_no_negation hexpand hparse (hneg dialect hexpand)
  have hlanguage := hresidual.trans hshaped.language_eq_map
  have haccepts : ∀ x, (∃ t ∈ List.range (x.length + 1), artifact.program.accepting
      (artifact.program.stateAfter (x.take t)) = true) ↔ FoundIn tree.byteLanguage x := by
    intro x
    refine exists_congr fun t => ?_
    rw [List.mem_range, Nat.lt_succ_iff]
    refine and_congr_right fun ht => ?_
    rw [accepting_stateAfter_iff hd ha hp x ht, hlanguage, follows_map_iff]
  refine ⟨dialect, tree, hexpand, hparse, fun x => ⟨_,
    Program.evaluate_of_validate (hp.validate ha) x, ?_, ?_, ?_⟩⟩
  · intro s t hst ht hidle hmem
    exact foundIn_of_idle hd ha hp hlanguage hst ht hidle hmem
  · intro hany
    rw [Program.verdict_run_any hany, Verdict.matched.injEq, List.any_eq_true, haccepts]
  · intro hcount
    rw [Program.verdict_run_count hcount, ← haccepts, ← List.countP_pos_iff]
    constructor
    · intro hcounted
      obtain ⟨n, hpos, heq⟩ := hcounted
      rwa [Verdict.counted.inj heq]
    · intro hpos
      exact ⟨_, hpos, rfl⟩

/-- Both the program that says whether there is a match and the one that counts matches report
one. -/
def ReportMatch (searching counting : Evaluation) : Prop :=
  searching.verdict = .matched true ∧ ∃ n, 0 < n ∧ counting.verdict = .counted n

/-- A pattern without negated classes that can be searched for can also be counted by the same
program. Both report an occurrence that starts where the run is in its start state. They report
every occurrence exactly when each beginning of a word, followed by a shortest word, leads to a word
itself. -/
theorem reports_every_occurrence_iff {pattern : String} {options : Options} {artifact : Artifact}
    (h : compile pattern options = .ok artifact) (hany : artifact.program.acceptance = .any)
    (hneg : ∀ dialect, Dialect.expand pattern = .ok dialect →
      ∀ offset members, (offset, Token.oneOf true members) ∉ dialect.tokens) :
    ∃ dialect tree counting, Dialect.expand pattern = .ok dialect ∧ dialect.parse = .ok tree ∧
      compile pattern ⟨.count, options.reveals⟩ = .ok counting ∧
      counting.program = { artifact.program with acceptance := .count } ∧
      (∀ x, ∃ e k, artifact.program.evaluate x = .ok e ∧ counting.program.evaluate x = .ok k ∧
        ∀ s t, s ≤ t → t ≤ x.length → e.activeAt s 0 = true →
          slice x s t ∈ tree.byteLanguage → ReportMatch e k) ∧
      ((∀ x e k, artifact.program.evaluate x = .ok e → counting.program.evaluate x = .ok k →
          OccursIn tree.byteLanguage x → ReportMatch e k) ↔
        ∀ y w, Begins tree.byteLanguage y → Shortest tree.byteLanguage w →
          ∃ v ∈ tree.byteLanguage, v <+: y ++ w) := by
  obtain ⟨counting, hcounting, hprogram⟩ := exists_compile_count h
  obtain ⟨dialect, tree, hexpand, hparse, hsearch⟩ := verdict_iff_foundIn h hneg
  obtain ⟨dialect', tree', hexpand', hparse', hcount⟩ := verdict_iff_foundIn hcounting hneg
  obtain rfl : dialect = dialect' := Except.ok.inj (hexpand.symm.trans hexpand')
  obtain rfl : tree = tree' := Except.ok.inj (hparse.symm.trans hparse')
  have hcounts : counting.program.acceptance = .count := by rw [hprogram]
  have hreport : ∀ x, ∃ e k, artifact.program.evaluate x = .ok e ∧
      counting.program.evaluate x = .ok k ∧
      (∀ s t, s ≤ t → t ≤ x.length → e.activeAt s 0 = true → slice x s t ∈ tree.byteLanguage →
        FoundIn tree.byteLanguage x) ∧ (ReportMatch e k ↔ FoundIn tree.byteLanguage x) := by
    intro x
    obtain ⟨e, heval, hidle, hmatched, _⟩ := hsearch x
    obtain ⟨k, hevalk, _, _, hcounted⟩ := hcount x
    refine ⟨e, k, heval, hevalk, hidle, ?_⟩
    rw [ReportMatch, hmatched hany, hcounted hcounts, and_self_iff]
  refine ⟨dialect, tree, counting, hexpand, hparse, hcounting, hprogram, ?_, ?_⟩
  · intro x
    obtain ⟨e, k, heval, hevalk, hidle, hfound⟩ := hreport x
    refine ⟨e, k, heval, hevalk, fun s t hst ht hstart hmem => ?_⟩
    exact hfound.mpr (hidle s t hst ht hstart hmem)
  · rw [← foundIn_of_occursIn_iff]
    refine forall_congr' fun x => ?_
    obtain ⟨e, k, heval, hevalk, _, hfound⟩ := hreport x
    rw [← hfound]
    constructor
    · intro hall hoccurs
      exact hall e k heval hevalk hoccurs
    · intro hoccurs e' k' heval' hevalk'
      cases heval.symm.trans heval'
      cases hevalk.symm.trans hevalk'
      exact hoccurs

/-- The tree of `ab`. -/
def pairTree : Tree := .cat ⟨0, 2⟩ [.text ⟨0, 1⟩ (.byte 97), .text ⟨1, 2⟩ (.byte 98)]

theorem mem_pairTree : [97, 98] ∈ pairTree.byteLanguage :=
  Language.mem_mul.mpr ⟨[97], rfl, [98], Language.mem_mul.mpr ⟨[98], rfl, [], rfl, rfl⟩, rfl⟩

/-- `ab` is not found in `aab`: the second `a` breaks the attempt that the first one began, and is
not tried as a beginning. -/
theorem misses_occurrence_behind_broken_attempt :
    ∃ artifact counting e k, compile "ab" ⟨.any, []⟩ = .ok artifact ∧
      compile "ab" ⟨.count, []⟩ = .ok counting ∧ Tree.ofPattern "ab" = .ok pairTree ∧
      artifact.program.evaluate [97, 97, 98] = .ok e ∧ e.verdict = .matched false ∧
      counting.program.evaluate [97, 97, 98] = .ok k ∧ k.verdict = .counted 0 ∧
      OccursIn pairTree.byteLanguage [97, 97, 98] ∧
      ¬∀ y w, Begins pairTree.byteLanguage y → Shortest pairTree.byteLanguage w →
        ∃ v ∈ pairTree.byteLanguage, v <+: y ++ w := by
  have hrun : (compile "ab" ⟨.any, []⟩).toOption.any (fun artifact =>
      artifact.program.acceptance == .any &&
      (artifact.program.evaluate [97, 97, 98]).toOption.any fun e =>
        e.verdict == .matched false) = true := by
    decide +kernel
  have hcountrun : (compile "ab" ⟨.count, []⟩).toOption.any (fun counting =>
      (counting.program.evaluate [97, 97, 98]).toOption.any fun k =>
        k.verdict == .counted 0) = true := by
    decide +kernel
  have htokens : Dialect.expand "ab" = .ok ⟨2, [(0, .plain 97), (1, .plain 98)]⟩ := by
    decide +kernel
  obtain ⟨artifact, hcompile, hrun⟩ := Outcome.exists_ok_of_any hrun
  rw [Bool.and_eq_true, beq_iff_eq] at hrun
  obtain ⟨hany, hrun⟩ := hrun
  obtain ⟨e, heval, hverdict⟩ := Outcome.exists_ok_of_any hrun
  obtain ⟨counting, hcounting, hcountrun⟩ := Outcome.exists_ok_of_any hcountrun
  obtain ⟨k, hevalk, hcount⟩ := Outcome.exists_ok_of_any hcountrun
  rw [beq_iff_eq] at hverdict hcount
  obtain ⟨dialect, tree, counting', hexpand, hparse, hcounting', _, _, hiff⟩ :=
    reports_every_occurrence_iff hcompile hany (by
      intro dialect hd offset members
      rw [htokens] at hd
      cases hd
      simp)
  obtain rfl := Except.ok.inj (hcounting.symm.trans hcounting')
  obtain rfl := Except.ok.inj (htokens.symm.trans hexpand)
  obtain rfl : pairTree = tree := Except.ok.inj ((Dialect.parse_of_read rfl).symm.trans hparse)
  have hoccurs : OccursIn pairTree.byteLanguage [97, 97, 98] :=
    ⟨1, 3, by decide, by decide, mem_pairTree⟩
  refine ⟨artifact, counting, e, k, hcompile, hcounting, ?_, heval, hverdict, hevalk, hcount,
    hoccurs, ?_⟩
  · rw [Tree.ofPattern, hexpand]
    exact hparse
  · rw [← hiff]
    intro hall
    cases hverdict.symm.trans (hall _ e k heval hevalk hoccurs).1

end PatternCircuit
