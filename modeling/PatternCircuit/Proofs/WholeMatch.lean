import PatternCircuit.Proofs.Compile.Automaton
import PatternCircuit.Proofs.Searching

/-! # Universal acceptance

A run with universal acceptance has to accept behind every byte. It therefore asks for more than
that the whole input is a word: every non-empty beginning of the input has to be one. The two agree
on all non-empty inputs exactly for those patterns whose automaton never comes back to its start;
their words are one byte of a class followed by any number of bytes of another. -/

namespace PatternCircuit

/-! ### Languages whose words begin with words -/

/-- Every non-empty beginning of a word is a word. -/
def BeginsWithWords (L : Language UInt8) : Prop :=
  ∀ y w, w ∈ L → y ≠ [] → y <+: w → y ∈ L

/-- One byte of the first set, then any number of bytes of the second. -/
def unitRepeated (first rest : Set UInt8) : Language UInt8 :=
  {w | ∃ c u, w = c :: u ∧ c ∈ first ∧ ∀ b ∈ u, b ∈ rest}

theorem beginsWithWords_unitRepeated (first rest : Set UInt8) :
    BeginsWithWords (unitRepeated first rest) := by
  intro y w hw hne hstarts
  obtain ⟨c, u, rfl, hc, hu⟩ := hw
  cases y with
  | nil => exact absurd rfl hne
  | cons b y =>
      obtain ⟨rfl, hrest⟩ := List.cons_prefix_cons.mp hstarts
      exact ⟨b, y, rfl, hc, fun b' hb' => hu b' (hrest.subset hb')⟩

/-- If the same can follow each word, words begin with words only where single bytes are repeated. -/
theorem beginsWithWords_iff_unitRepeated {L : Language UInt8} (hnil : [] ∉ L)
    (hsame : ∀ u ∈ L, ∀ v ∈ L, ∀ z, u ++ z ∈ L → v ++ z ∈ L) :
    BeginsWithWords L ↔ ∃ first rest, L = unitRepeated first rest := by
  constructor
  · intro hbegins
    refine ⟨{c | [c] ∈ L}, {b | ∃ u ∈ L, u ++ [b] ∈ L}, ?_⟩
    ext w
    constructor
    · intro hw
      cases w with
      | nil => exact absurd hw hnil
      | cons c u =>
          refine ⟨c, u, rfl, hbegins [c] _ hw (by simp) (by simp), fun b hb => ?_⟩
          obtain ⟨s, t, rfl⟩ := List.append_of_mem hb
          refine ⟨c :: s, hbegins _ _ hw (by simp) ?_, hbegins _ _ hw (by simp) ?_⟩
          · exact List.prefix_append (c :: s) (b :: t)
          · exact ⟨t, by simp⟩
    · intro hw
      obtain ⟨c, u, rfl, hc, hu⟩ := hw
      -- each further byte has been read behind some word, and so it can be read behind this one
      induction u using List.reverseRecOn with
      | nil => exact hc
      | append_singleton u b ih =>
          have hword := ih fun b' hb' => hu b' (by simp [hb'])
          obtain ⟨v, hv, hvb⟩ := hu b (by simp)
          exact hsame v hv (c :: u) hword [b] hvb
  · intro h
    obtain ⟨first, rest, rfl⟩ := h
    exact beginsWithWords_unitRepeated first rest

/-! ### Runs that accept behind every byte -/

section Segments

variable {L : Language UInt8} (hnil : [] ∉ L) {x : List UInt8}
include hnil

theorem segmentStart_eq_zero
    (hall : ∀ t < x.length, slice x (segmentStart (Begins L) x (t + 1)) (t + 1) ∈ L) {t : Nat}
    (ht : t ≤ x.length) : segmentStart (Begins L) x t = 0 := by
  induction t with
  | zero => rfl
  | succ t ih =>
      have hmem := hall t ht
      by_cases hbegins : Begins L (slice x (segmentStart (Begins L) x t) (t + 1))
      · rw [segmentStart, if_pos hbegins, ih (Nat.le_of_succ_le ht)]
      · rw [segmentStart, if_neg hbegins, slice_self] at hmem
        exact absurd hmem hnil

/-- All segments are words exactly if no byte ends the first segment and all beginnings are words. -/
theorem segments_mem_iff :
    (∀ t < x.length, slice x (segmentStart (Begins L) x (t + 1)) (t + 1) ∈ L) ↔
      ∀ y, y ≠ [] → y <+: x → y ∈ L := by
  constructor
  · intro hall y hne hstarts
    obtain ⟨n, hn⟩ : ∃ n, y.length = n + 1 :=
      Nat.exists_eq_succ_of_ne_zero (List.length_pos_iff.mpr hne).ne'
    have hlength := hstarts.length_le
    have hmem := hall n (by omega)
    rw [segmentStart_eq_zero hnil hall (by omega), slice, List.drop_zero, ← hn,
      ← List.prefix_iff_eq_take.mp hstarts] at hmem
    exact hmem
  · intro hall t ht
    have hword : slice x 0 (t + 1) ∈ L := by
      apply hall
      · rw [← List.length_pos_iff, length_slice ht]
        omega
      · exact List.take_prefix (t + 1) x
    have hbegins : Begins L (slice x 0 (t + 1)) := ⟨[], by rwa [List.append_nil]⟩
    rw [segmentStart_of_begins rfl (Nat.zero_le _) hbegins]
    exact hword

end Segments

/-! ### Automata with one accept state -/

section Automaton

variable {d : Dfa} {a : Inflow} (ha : Inflow.ofDfa d = .ok a) {L : Language UInt8}
  (hlanguage : d.residual 0 = Language.map Symbol.byte L)
include ha hlanguage

theorem mem_iff_run?_eq_acceptState {w : List UInt8} :
    w ∈ L ↔ d.run? 0 (w.map Symbol.byte) = some a.acceptState := by
  rw [← mem_map_byte_iff, ← hlanguage, Inflow.mem_residual_ofDfa ha]

theorem nil_notMem_of_ofDfa : [] ∉ L := by
  rw [mem_iff_run?_eq_acceptState ha hlanguage]
  intro hrun
  exact (Inflow.acceptState_ofDfa ha).1 (Option.some.inj hrun).symm

theorem append_mem_of_mem {u v z : List UInt8} (hu : u ∈ L) (hv : v ∈ L) (h : u ++ z ∈ L) :
    v ++ z ∈ L := by
  rw [mem_iff_run?_eq_acceptState ha hlanguage] at hu hv h ⊢
  rw [List.map_append, Dfa.run?_append, hu] at h
  rw [List.map_append, Dfa.run?_append, hv]
  exact h

theorem beginsWithWords_of_no_edge_to_start (hin : d.InRange) (htwo : d.states.size = 2)
    (hedges : ∀ s, ∀ e ∈ d.edges s, e.2 ≠ 0) : BeginsWithWords L := by
  obtain ⟨hne, hlt, _⟩ := Inflow.acceptState_ofDfa ha
  intro y w hw hnil hstarts
  obtain ⟨z, rfl⟩ := hstarts
  rw [mem_iff_run?_eq_acceptState ha hlanguage, List.map_append, Dfa.run?_append] at hw
  obtain ⟨q, hq, _⟩ := Option.bind_eq_some_iff.mp hw
  -- the last byte of `y` leads to a state that is not the start, and there is only one
  obtain ⟨y', b, rfl⟩ := (List.eq_nil_or_concat' y).resolve_left hnil
  have hlast := hq
  rw [List.map_append, List.map_singleton, Dfa.run?_concat] at hlast
  obtain ⟨s, _, hstep⟩ := Option.bind_eq_some_iff.mp hlast
  obtain ⟨l, hmem, _⟩ := Dfa.exists_edge_of_step? hstep
  have hzero : q ≠ 0 := hedges s (l, q) hmem
  have hsize : q < d.states.size := hin s (l, q) hmem
  rw [mem_iff_run?_eq_acceptState ha hlanguage, hq]
  exact congrArg some (by omega)

theorem no_edge_to_start_of_beginsWithWords (hd : d.Minimal)
    (hreach : ∀ s < d.states.size, ∃ w, d.run? 0 w = some s)
    (hsymbol : ∀ s, ∀ e ∈ d.edges s, ∃ b, e.1.contains b = true) (hbegins : BeginsWithWords L) :
    ∀ s, ∀ e ∈ d.edges s, e.2 ≠ 0 := by
  intro s e he hzero
  obtain ⟨u, hu⟩ := hreach s (Dfa.lt_size_of_mem_edges he)
  obtain ⟨b, hb⟩ := hsymbol s e he
  have hback : d.run? 0 (u ++ [b]) = some 0 := by
    rw [Dfa.run?_concat, hu, Option.bind_some, ← hzero]
    exact (Dfa.step?_eq_some_iff hd.deterministic).mpr ⟨e.1, he, hb⟩
  -- the way back to the start goes on to a word, and its own bytes would be a word too
  obtain ⟨v, hv⟩ := hd.live 0 hd.pos
  have hword : u ++ [b] ++ v ∈ d.residual 0 := by
    rw [Dfa.residual_of_run? hback] at hv
    exact hv
  rw [hlanguage] at hword
  obtain ⟨w, hw, heq⟩ := hword
  obtain ⟨y, z, rfl, hy, _⟩ := List.map_eq_append_iff.mp heq
  have hne : y ≠ [] := by
    rintro rfl
    simp at hy
  have hmem := hbegins y _ hw hne (List.prefix_append y z)
  rw [mem_iff_run?_eq_acceptState ha hlanguage, hy, hback] at hmem
  exact (Inflow.acceptState_ofDfa ha).1 (Option.some.inj hmem).symm

end Automaton

/-! ### Compiled patterns -/

/-- The automaton of a pattern without negated classes reads the byte words of the tree; each of its
states is reached, and each of its edges has a symbol. -/
theorem exists_byteLanguage_of_minimalDfa {pattern : String} {d : Dfa}
    (h : minimalDfa pattern = .ok d)
    (hneg : ∀ dialect, Dialect.expand pattern = .ok dialect →
      ∀ offset members, (offset, Token.oneOf true members) ∉ dialect.tokens) :
    ∃ dialect tree, Dialect.expand pattern = .ok dialect ∧ dialect.parse = .ok tree ∧ d.Minimal ∧
      d.residual 0 = Language.map Symbol.byte tree.byteLanguage ∧
      (∀ s < d.states.size, ∃ w, d.run? 0 w = some s) ∧
      ∀ s, ∀ e ∈ d.edges s, ∃ b, e.1.contains b = true := by
  obtain ⟨tree, htree, rfl⟩ := minimalDfa_eq_ok.mp h
  obtain ⟨dialect, hexpand, hparse⟩ := Outcome.bind_eq_ok.mp htree
  have hshaped := Tree.shaped_of_no_negation hexpand hparse (hneg dialect hexpand)
  obtain ⟨hminimal, hlanguage⟩ := Dfa.minimize_ofTree hshaped.proper
  refine ⟨dialect, tree, hexpand, hparse, hminimal, hlanguage.trans hshaped.language_eq_map,
    fun s hs => Dfa.exists_run?_minimize_ofTree tree hs,
    fun s e he => Dfa.exists_symbol_minimize_ofTree tree he⟩

section Universal

variable {d : Dfa} {a : Inflow} (ha : Inflow.ofDfa d = .ok a) {p : Program}
  (hp : p.WrittenFrom a) (hd : d.Minimal) (hall : p.acceptance = .all) {L : Language UInt8}
  (hlanguage : d.residual 0 = Language.map Symbol.byte L)
include ha hp hd hall hlanguage

theorem verdict_run_all_iff (x : List UInt8) :
    (p.run x).verdict = .matched true ↔ ∀ y, y ≠ [] → y <+: x → y ∈ L := by
  rw [Program.verdict_run_all hall, Verdict.matched.injEq, List.all_eq_true,
    ← segments_mem_iff (nil_notMem_of_ofDfa ha hlanguage)]
  refine forall_congr' fun t => ?_
  rw [List.mem_range]
  refine forall_congr' fun ht => ?_
  rw [accepting_stateAfter_iff hd ha hp x ht, hlanguage, follows_map_iff]

/-- The verdict on non-empty inputs tells whether they are words exactly if words begin with
words. -/
theorem verdict_iff_mem_iff_beginsWithWords :
    (∀ x e, x ≠ [] → p.evaluate x = .ok e → (e.verdict = .matched true ↔ x ∈ L)) ↔
      BeginsWithWords L := by
  have heval : ∀ x, p.evaluate x = .ok (p.run x) :=
    Program.evaluate_of_validate (hp.validate ha)
  have hverdict := verdict_run_all_iff ha hp hd hall hlanguage
  constructor
  · intro hwhole y w hw hne hstarts
    have hne' : w ≠ [] := by
      rintro rfl
      exact hne (List.prefix_nil.mp hstarts)
    exact (hverdict w).mp ((hwhole w _ hne' (heval w)).mpr hw) y hne hstarts
  · intro hbegins x e hne he
    cases (heval x).symm.trans he
    rw [hverdict]
    constructor
    · intro hprefixes
      exact hprefixes x hne (List.prefix_refl x)
    · intro hx y hy hstarts
      exact hbegins y x hx hy hstarts

end Universal

/-- A pattern without negated classes that is compiled with universal acceptance matches an input
exactly if every non-empty beginning of the input is a word; the empty input, which is no word,
therefore matches. For all non-empty inputs the verdict tells whether the input is a word exactly if
no edge of the automaton leads to its start, and this is so exactly if the words are one byte of a set
followed by any number of bytes of another. -/
theorem universal_verdict_iff_beginnings_mem {pattern : String} {options : Options}
    {artifact : Artifact} (h : compile pattern options = .ok artifact)
    (hall : artifact.program.acceptance = .all)
    (hneg : ∀ dialect, Dialect.expand pattern = .ok dialect →
      ∀ offset members, (offset, Token.oneOf true members) ∉ dialect.tokens) :
    ∃ d dialect tree, minimalDfa pattern = .ok d ∧ Dialect.expand pattern = .ok dialect ∧
      dialect.parse = .ok tree ∧ [] ∉ tree.byteLanguage ∧
      (∀ x, ∃ e, artifact.program.evaluate x = .ok e ∧
        (e.verdict = .matched true ↔ ∀ y, y ≠ [] → y <+: x → y ∈ tree.byteLanguage)) ∧
      ((∀ x e, x ≠ [] → artifact.program.evaluate x = .ok e →
          (e.verdict = .matched true ↔ x ∈ tree.byteLanguage)) ↔
        ∀ s, ∀ edge ∈ d.edges s, edge.2 ≠ 0) ∧
      ((∀ s, ∀ edge ∈ d.edges s, edge.2 ≠ 0) ↔
        ∃ first rest, tree.byteLanguage = unitRepeated first rest) := by
  obtain ⟨d, hmin, hautomaton⟩ := compile_eq_ok.mp h
  obtain ⟨a, acceptance, reveals, ha, hacceptance, _, hprogram⟩ :=
    program_of_compileAutomaton hautomaton
  obtain ⟨a', ha', hp⟩ := exists_writtenFrom hautomaton
  obtain rfl : a = a' := Except.ok.inj (ha.symm.trans ha')
  obtain ⟨dialect, tree, hexpand, hparse, hd, hlanguage, hreach, hsymbol⟩ :=
    exists_byteLanguage_of_minimalDfa hmin hneg
  have htwo : d.states.size = 2 := by
    have hresolved : acceptance = .all := by
      rw [← hall, hprogram]
    rw [hresolved] at hacceptance
    have hshape := isSingleRepeat_of_resolveAcceptance hacceptance
    rw [Inflow.isSingleRepeat, Bool.and_eq_true, beq_iff_eq] at hshape
    rw [← Inflow.stateCount_ofDfa ha, hshape.1]
  have hnil := nil_notMem_of_ofDfa ha hlanguage
  have hstart : BeginsWithWords tree.byteLanguage ↔ ∀ s, ∀ edge ∈ d.edges s, edge.2 ≠ 0 :=
    ⟨no_edge_to_start_of_beginsWithWords ha hlanguage hd hreach hsymbol,
      beginsWithWords_of_no_edge_to_start ha hlanguage hd.inRange htwo⟩
  refine ⟨d, dialect, tree, hmin, hexpand, hparse, hnil, fun x => ⟨_,
    Program.evaluate_of_validate (hp.validate ha) x,
    verdict_run_all_iff ha hp hd hall hlanguage x⟩, ?_, ?_⟩
  · rw [← hstart]
    exact verdict_iff_mem_iff_beginsWithWords ha hp hd hall hlanguage
  · rw [← hstart]
    exact beginsWithWords_iff_unitRepeated hnil fun u hu v hv z =>
      append_mem_of_mem ha hlanguage hu hv

/-- `a(b|c)*` is compiled with universal acceptance although less is asked for, and it matches `abc`:
all of `a`, `ab` and `abc` are words. -/
theorem universal_verdict_of_upgraded_search :
    ∃ artifact tree e, compile "a(b|c)*" ⟨.any, []⟩ = .ok artifact ∧
      artifact.program.acceptance = .all ∧ Tree.ofPattern "a(b|c)*" = .ok tree ∧
      artifact.program.evaluate [97, 98, 99] = .ok e ∧ e.verdict = .matched true ∧
      [97] ∈ tree.byteLanguage ∧ [97, 98] ∈ tree.byteLanguage ∧
      [97, 98, 99] ∈ tree.byteLanguage := by
  have hrun : (compile "a(b|c)*" ⟨.any, []⟩).toOption.any (fun artifact =>
      artifact.program.acceptance == .all &&
      (artifact.program.evaluate [97, 98, 99]).toOption.any fun e =>
        e.verdict == .matched true) = true := by
    decide +kernel
  have htokens : Dialect.expand "a(b|c)*" = .ok ⟨7, [(0, .plain 97), (1, .plain 40),
      (2, .plain 98), (3, .plain 124), (4, .plain 99), (5, .plain 41), (6, .plain 42)]⟩ := by
    decide +kernel
  obtain ⟨artifact, hcompile, hrun⟩ := Outcome.exists_ok_of_any hrun
  rw [Bool.and_eq_true, beq_iff_eq] at hrun
  obtain ⟨hall, hrun⟩ := hrun
  obtain ⟨e, heval, hmatched⟩ := Outcome.exists_ok_of_any hrun
  rw [beq_iff_eq] at hmatched
  obtain ⟨_, dialect, tree, _, hexpand, hparse, _, hverdict, _⟩ :=
    universal_verdict_iff_beginnings_mem hcompile hall (by
      intro dialect hd offset members
      rw [htokens] at hd
      cases hd
      simp)
  obtain ⟨e', heval', hiff⟩ := hverdict [97, 98, 99]
  obtain rfl := Except.ok.inj (heval.symm.trans heval')
  have hwords := hiff.mp hmatched
  refine ⟨artifact, tree, e, hcompile, hall, ?_, heval, hmatched, hwords _ (by simp) (by simp),
    hwords _ (by simp) (by simp), hwords _ (by simp) (by simp)⟩
  rw [Tree.ofPattern, hexpand]
  exact hparse

/-- `b*a+` has the shape of a repeated unit, though its automaton reads `b` at the start. It does not
match its word `ba`, whose beginning `b` is no word, and it matches the empty input, which is no
word. -/
theorem universal_verdict_differs_from_membership :
    ∃ artifact tree e k, compile "b*a+" ⟨.all, []⟩ = .ok artifact ∧
      artifact.program.acceptance = .all ∧ Tree.ofPattern "b*a+" = .ok tree ∧
      artifact.program.evaluate [98, 97] = .ok e ∧ e.verdict = .matched false ∧
      [98, 97] ∈ tree.byteLanguage ∧
      artifact.program.evaluate [] = .ok k ∧ k.verdict = .matched true ∧
      [] ∉ tree.byteLanguage := by
  have hrun : (compile "b*a+" ⟨.all, []⟩).toOption.any (fun artifact =>
      artifact.program.acceptance == .all &&
      ((artifact.program.evaluate [98, 97]).toOption.any (fun e => e.verdict == .matched false) &&
        (artifact.program.evaluate []).toOption.any fun k => k.verdict == .matched true)) = true := by
    decide +kernel
  have hwords : (minimalDfa "b*a+").toOption.any (fun d =>
      d.accepts [.byte 98, .byte 97] && !d.accepts []) = true := by
    decide +kernel
  have htokens : Dialect.expand "b*a+" =
      .ok ⟨4, [(0, .plain 98), (1, .plain 42), (2, .plain 97), (3, .plain 43)]⟩ := by
    decide +kernel
  obtain ⟨artifact, hcompile, hrun⟩ := Outcome.exists_ok_of_any hrun
  simp only [Bool.and_eq_true, beq_iff_eq] at hrun
  obtain ⟨hall, hword, hempty⟩ := hrun
  obtain ⟨e, heval, hverdict⟩ := Outcome.exists_ok_of_any hword
  obtain ⟨k, hevalk, hverdictk⟩ := Outcome.exists_ok_of_any hempty
  rw [beq_iff_eq] at hverdict hverdictk
  obtain ⟨d, hmin, hwords⟩ := Outcome.exists_ok_of_any hwords
  obtain ⟨dialect, tree, hexpand, hparse, _, hlanguage, _⟩ :=
    exists_byteLanguage_of_minimalDfa hmin (by
      intro dialect hd offset members
      rw [htokens] at hd
      cases hd
      simp)
  rw [Bool.and_eq_true, Dfa.accepts_iff, Bool.not_eq_true', ← Bool.not_eq_true, Dfa.accepts_iff,
    hlanguage] at hwords
  refine ⟨artifact, tree, e, k, hcompile, hall, ?_, heval, hverdict, ?_, hevalk, hverdictk, ?_⟩
  · rw [Tree.ofPattern, hexpand]
    exact hparse
  · exact mem_map_byte_iff.mp hwords.1
  · exact fun hnil => hwords.2 (mem_map_byte_iff.mpr hnil)

end PatternCircuit
