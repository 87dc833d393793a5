import PatternCircuit.Proofs.RevealVector
import PatternCircuit.Proofs.Tracking

/-! # Reveals of completed matches

The bytes of a match that are consumed on chosen edges are disclosed as long as the run does not
come back to the start before it accepts. The change flag tells a byte that no edge takes from the
others by the state behind it, which is the start also where an edge leads back there; so in a match
that passes the start again the bytes before are lost. -/

namespace PatternCircuit

namespace Evaluation

variable (e : Evaluation)

/-- From position `s` to position `t` the bytes lead along edges of the automaton, from the start to
the accept state. -/
structure MatchBetween (d : Dfa) (a : Inflow) (x : List UInt8) (s t : Nat) : Prop where
  start : e.activeAt s 0 = true
  edge : ∀ i, s ≤ i → i < t → ∃ (c : UInt8) (q q' : Nat) (l : Label), x[i]? = some c ∧
    e.activeAt i q = true ∧ e.activeAt (i + 1) q' = true ∧ (l, q') ∈ d.edges q ∧
    (a.matched q l).contains c = true
  accept : e.activeAt t a.acceptState = true

/-- Behind byte `b` the run accepts at some position up to `t` and is not in the start before. -/
def AcceptsAhead (acceptState b t : Nat) : Prop :=
  ∃ t', b < t' ∧ t' ≤ t ∧ e.activeAt t' acceptState = true ∧
    ∀ i, b < i → i < t' → e.activeAt i 0 = false

end Evaluation

/-! ### Returns to the start -/

section Compiled

variable {d : Dfa} {a : Inflow} {p : Program} (hd : d.WellFormed) (ha : Inflow.ofDfa d = .ok a)
  (hp : p.WrittenFrom a) {x : List UInt8}
include hd ha hp

theorem eq_of_activeAt {t q q' : Nat} (ht : t ≤ x.length) (hq : (p.run x).activeAt t q = true)
    (hq' : (p.run x).activeAt t q' = true) : q = q' := by
  rw [activeAt_run_iff hd ha hp ht] at hq hq'
  rw [hq, hq']

theorem activeAt_start_of_ne {t q : Nat} (ht : t ≤ x.length) (hq : (p.run x).activeAt t q = true)
    (hne : q ≠ 0) : (p.run x).activeAt t 0 = false :=
  Bool.eq_false_iff.mpr fun hzero => hne (eq_of_activeAt hd ha hp ht hq hzero)

/-- The change flag of a byte says that the start is not active behind it. -/
theorem changed_iff_activeAt_start {i : Nat} (hi : i < x.length) :
    (p.run x).changed[i]? = some true ↔ (p.run x).activeAt (i + 1) 0 = false := by
  have hactive : (p.run x).activeAt (i + 1) 0 = true ↔
      0 = d.restart (d.active (x.take i)) x[i] := by
    rw [activeAt_run_iff hd ha hp hi, List.take_succ_eq_append_getElem hi, Dfa.active_concat]
  rw [Program.getElem?_changed_run, List.getElem?_eq_getElem hi, Option.map_some,
    changed_rowAfter hd ha hp, Option.some.injEq, decide_eq_true_eq, ← Bool.not_eq_true, hactive,
    ne_comm]

theorem unbroken_iff_activeAt_start {b t : Nat} (ht : t ≤ x.length) :
    (p.run x).Unbroken b t ↔ ∀ i, b < i → i ≤ t → (p.run x).activeAt i 0 = false := by
  constructor
  · intro h i hb hi
    obtain ⟨j, rfl⟩ : ∃ j, i = j + 1 := ⟨i - 1, by omega⟩
    exact (changed_iff_activeAt_start hd ha hp (by omega)).mp (h j (by omega) (by omega))
  · intro h i hb hi
    exact (changed_iff_activeAt_start hd ha hp (by omega)).mpr (h (i + 1) (by omega) (by omega))

/-- In front of a position that accepts, a stretch goes on exactly if it accepts before it comes
back to the start. -/
theorem sustained_iff_acceptsAhead {b t : Nat} (hb : b < t) (ht : t ≤ x.length)
    (haccept : (p.run x).activeAt t a.acceptState = true) :
    (p.run x).Sustained a.acceptState b ↔ (p.run x).AcceptsAhead a.acceptState b t := by
  have hlength := p.length_changed_run x
  have hne := (Inflow.acceptState_ofDfa ha).1
  rw [Evaluation.sustained_iff (by omega), hlength]
  constructor
  · rintro (⟨t', hb', ht', hunbroken, haccept'⟩ | hunbroken)
    · rw [unbroken_iff_activeAt_start hd ha hp (by omega)] at hunbroken
      by_cases hle : t' ≤ t
      · exact ⟨t', hb', hle, haccept', fun i hi hi' => hunbroken i hi (by omega)⟩
      · exact ⟨t, hb, Nat.le_refl t, haccept, fun i hi hi' => hunbroken i hi (by omega)⟩
    · rw [unbroken_iff_activeAt_start hd ha hp (Nat.le_refl _)] at hunbroken
      exact ⟨t, hb, Nat.le_refl t, haccept, fun i hi hi' => hunbroken i hi (by omega)⟩
  · rintro ⟨t', hb', ht', haccept', haway⟩
    refine .inl ⟨t', hb', by omega, ?_, haccept'⟩
    rw [unbroken_iff_activeAt_start hd ha hp (by omega)]
    intro i hi hi'
    rcases Nat.lt_or_eq_of_le hi' with hlt | rfl
    · exact haway i hi hlt
    · exact activeAt_start_of_ne hd ha hp (by omega) haccept' hne

theorem getElem?_vector_eq_iff (r : Reveal) {b t : Nat} {c : UInt8} (hb : b < t)
    (ht : t ≤ x.length) (haccept : (p.run x).activeAt t a.acceptState = true)
    (hc : x[b]? = some c) (htakes : (p.run x).takes r.edges b = true) :
    (p.vector x r).bytes[b]? = some c ↔
      c = 0 ∨ (p.run x).AcceptsAhead a.acceptState b t := by
  rw [p.getElem?_bytes_vector, hc, Option.map_some, Option.some.injEq,
    ← sustained_iff_acceptsAhead hd ha hp hb ht haccept, hp.acceptState]
  by_cases hsustained : (p.run x).Sustained a.acceptState b
  · rw [if_pos ⟨htakes, hsustained⟩]
    simp [hsustained]
  · rw [if_neg fun hshows => hsustained hshows.2, eq_comm]
    simp [hsustained]

end Compiled

/-! ### Requests -/

/-- The reveals are compiled from the requests one by one, each from the edges that its request
asks for. -/
theorem exists_reveal_of_request {pattern : String} {a : Inflow} {used : List String}
    {requests : List RevealRequest} {reveals : List Reveal}
    (h : (compileReveals pattern a used requests).outcome = .ok reveals) {i : Nat}
    {request : RevealRequest} (hrequest : requests[i]? = some request) :
    ∃ r, reveals[i]? = some r ∧ (request.resolve pattern a).outcome = .ok r.edges := by
  induction requests generalizing used reveals i with
  | nil => cases hrequest
  | cons first requests ih =>
      rw [compileReveals] at h
      split at h
      · cases h
      · simp only [Journaled.outcome_bind, Journaled.outcome_lift, Journaled.outcome_pure,
          Outcome.bind_eq_ok, mapError_eq_ok] at h
        obtain ⟨edges, hedges, r, hr, rest, hrest, hresult⟩ := h
        cases hresult
        cases i with
        | zero =>
            cases hrequest
            obtain ⟨_, _, rfl⟩ := Inflow.reveal_eq_ok_iff.mp hr
            exact ⟨_, rfl, hedges⟩
        | succ i => exact ih hrest hrequest

/-- A property of all bytes of completed matches that are consumed on the edges of a request, with
the run, the request's vector, the byte's position, the end of the match and the byte. -/
def AtMatchedBytes (pattern : String) (d : Dfa) (a : Inflow)
    (P : Evaluation → RevealVector → Nat → Nat → UInt8 → Prop) : Prop :=
  ∀ options artifact, compile pattern options = .ok artifact → ∀ x : List UInt8,
    ∃ e, artifact.program.evaluate x = .ok e ∧
      ∀ (i : Nat) (request : RevealRequest), options.reveals[i]? = some request →
        ∃ edges v, (request.resolve pattern a).outcome = .ok edges ∧ e.reveals[i]? = some v ∧
          ∀ (s b t : Nat) (c : UInt8), e.MatchBetween d a x s t → s ≤ b → b < t →
            x[b]? = some c → e.takes edges b = true → P e v b t c

/-- Every byte of a completed match that is consumed on an edge of a request is disclosed. -/
def RevealsMatches (pattern : String) (d : Dfa) (a : Inflow) : Prop :=
  AtMatchedBytes pattern d a fun _ v b _ c => v.bytes[b]? = some c

section Compiled

variable {pattern : String} {d : Dfa} {a : Inflow} (hmin : minimalDfa pattern = .ok d)
  (ha : Inflow.ofDfa d = .ok a)
include hmin ha

theorem atMatchedBytes_of_run {P : Evaluation → RevealVector → Nat → Nat → UInt8 → Prop}
    (h : ∀ (p : Program) (x : List UInt8) (r : Reveal) (s b t : Nat) (c : UInt8),
      p.WrittenFrom a → (p.run x).MatchBetween d a x s t → s ≤ b → b < t → t ≤ x.length →
      x[b]? = some c → (p.run x).takes r.edges b = true → P (p.run x) (p.vector x r) b t c) :
    AtMatchedBytes pattern d a P := by
  intro options artifact hcompile x
  rw [compile_of_minimalDfa hmin] at hcompile
  obtain ⟨a', _, reveals, ha', _, hreveals, hprogram⟩ := program_of_compileAutomaton hcompile
  obtain rfl : a = a' := Except.ok.inj (ha.symm.trans ha')
  obtain ⟨a', ha', hp⟩ := exists_writtenFrom hcompile
  obtain rfl : a = a' := Except.ok.inj (ha.symm.trans ha')
  refine ⟨_, Program.evaluate_of_validate (hp.validate ha) x, fun i request hrequest => ?_⟩
  obtain ⟨r, hr, hresolve⟩ := exists_reveal_of_request hreveals hrequest
  refine ⟨r.edges, artifact.program.vector x r, hresolve, ?_, ?_⟩
  · rw [hp.reveals_run, List.getElem?_map, hprogram, hr]
    rfl
  · intro s b t c hmatch hs hb hc htakes
    have ht : t ≤ x.length := by
      obtain ⟨c', _, _, _, hc', _⟩ := hmatch.edge (t - 1) (by omega) (by omega)
      have hlt := (List.getElem?_eq_some_iff.mp hc').1
      omega
    exact h _ x r s b t c hp hmatch hs hb ht hc htakes

theorem atMatchedBytes_acceptsAhead : AtMatchedBytes pattern d a fun e v b t c =>
    v.bytes[b]? = some c ↔ c = 0 ∨ e.AcceptsAhead a.acceptState b t := by
  refine atMatchedBytes_of_run hmin ha ?_
  intro p x r s b t c hp hmatch _ hb ht hc htakes
  exact getElem?_vector_eq_iff (Obtained.pattern hmin).wellFormed ha hp r hb ht hmatch.accept hc
    htakes

theorem revealsMatches_of_no_edge_to_start (hstart : ∀ s, ∀ edge ∈ d.edges s, edge.2 ≠ 0) :
    RevealsMatches pattern d a := by
  have hd := (Obtained.pattern hmin).wellFormed
  refine atMatchedBytes_of_run hmin ha ?_
  intro p x r s b t c hp hmatch hs hb ht hc htakes
  rw [getElem?_vector_eq_iff hd ha hp r hb ht hmatch.accept hc htakes]
  refine .inr ⟨t, hb, Nat.le_refl t, hmatch.accept, fun i hi hi' => ?_⟩
  obtain ⟨j, rfl⟩ : ∃ j, i = j + 1 := ⟨i - 1, by omega⟩
  obtain ⟨_, q, q', l, _, _, hq', hedge, _⟩ := hmatch.edge j (by omega) (by omega)
  exact activeAt_start_of_ne hd ha hp (by omega) hq' (hstart q _ hedge)

theorem exists_compile_edge {q q' : Nat} (hq : q < d.states.size) (hq' : q' < d.states.size) :
    ∃ artifact, compile pattern ⟨.count, [.edges "edge" [(q, q')]]⟩ = .ok artifact := by
  let r : Reveal := ⟨"edge", [(q, q')], Inflow.revealStep a.acceptState [(q, q')]⟩
  have hr : a.reveal "edge" [(q, q')] = .ok r := by
    refine Inflow.reveal_eq_ok_iff.mpr ⟨by simp, ?_, rfl⟩
    simp [Inflow.stateCount_ofDfa ha, hq, hq']
  have hreveals : (compileReveals pattern a [] [.edges "edge" [(q, q')]]).outcome = .ok [r] := by
    rw [compileReveals, if_neg (by simp)]
    simp only [Journaled.outcome_bind, Journaled.outcome_lift, Journaled.outcome_pure,
      Outcome.bind_eq_ok, mapError_eq_ok, RevealRequest.resolve]
    exact ⟨_, rfl, r, hr, [], rfl, rfl⟩
  obtain ⟨artifact, hartifact, _⟩ := exists_compileAutomaton_count pattern ha hreveals
  exact ⟨artifact, by rw [compile_of_minimalDfa hmin, hartifact]⟩

/-- A way through the automaton that comes back to the start and then accepts, in bytes other than
zero. -/
theorem exists_returning_match (hnul : 0 ∉ pattern.toUTF8.toList) {q : Nat} {l : Label}
    (hedge : (l, 0) ∈ d.edges q) :
    ∃ w u v, d.Tracks (w ++ v) u ∧ 0 ∉ u ∧ w.length < (w ++ v).length ∧
      d.active (u.take w.length) = q ∧ d.active (u.take (w.length + 1)) = 0 ∧
      d.active u = a.acceptState := by
  have hzero := unlisted_of_minimalDfa hmin hnul (by decide)
  have htop := unlisted_top_of_minimalDfa hmin
  obtain ⟨tree, _, hproper, rfl⟩ := exists_tree_of_minimalDfa hmin
  obtain ⟨hd, _⟩ := Dfa.minimize_ofTree hproper
  obtain ⟨w, hw⟩ := Dfa.exists_run?_minimize_ofTree tree (Dfa.lt_size_of_mem_edges hedge)
  obtain ⟨symbol, hsymbol⟩ := Dfa.exists_symbol_minimize_ofTree tree hedge
  have hstep := (Dfa.step?_eq_some_iff hd.deterministic).mpr ⟨l, hedge, hsymbol⟩
  obtain ⟨v, t, hv, haccept⟩ := hd.live 0 hd.pos
  have hrun : (Dfa.ofNfa (.ofTree tree)).minimize.run? 0 (w ++ symbol :: v) = some t := by
    rw [Dfa.run?_append, hw, Option.bind_some, Dfa.run?_cons, hstep, Option.bind_some, hv]
  obtain ⟨u, hu, hfree⟩ := hd.exists_tracks hzero htop hrun
  refine ⟨w, u, symbol :: v, hu, hfree, by simp, ?_, ?_, ?_⟩
  · have hat := hu.run? w.length (by simp)
    rw [List.take_left, hw, Option.some.injEq] at hat
    exact hat.symm
  · have hat := hu.run? (w.length + 1) (by simp)
    rw [List.take_length_add_append, List.take_succ_cons, List.take_zero, Dfa.run?_concat, hw,
      Option.bind_some, hstep, Option.some.injEq] at hat
    exact hat.symm
  · rw [hu.run?_eq, Option.some.injEq] at hrun
    rw [hrun]
    exact ((Inflow.acceptState_ofDfa ha).2.2 t).mp haccept

/-- Bytes that track a word to the accept state are a match. -/
theorem matchBetween_of_tracks {p : Program} (hp : p.WrittenFrom a) {w : List Symbol}
    {u : List UInt8} (hu : d.Tracks w u) (haccept : d.active u = a.acceptState) :
    (p.run u).MatchBetween d a u 0 u.length := by
  have hd := (Obtained.pattern hmin).wellFormed
  refine ⟨(activeAt_run_iff hd ha hp (Nat.zero_le _) 0).mpr rfl, ?_, ?_⟩
  · intro i _ hi
    have hstep := hu.byteStep? i u[i] (List.getElem?_eq_getElem hi)
    obtain ⟨l, hmem, htaken⟩ := (Dfa.byteStep?_eq_some_iff hd.deterministic).mp hstep
    refine ⟨u[i], d.active (u.take i), d.active (u.take (i + 1)), l, List.getElem?_eq_getElem hi,
      (activeAt_run_iff hd ha hp (Nat.le_of_lt hi) _).mpr rfl,
      (activeAt_run_iff hd ha hp hi _).mpr rfl, hmem, ?_⟩
    rwa [Inflow.matched_ofDfa ha (Dfa.lt_size_of_mem_edges hmem)]
  · rw [activeAt_run_iff hd ha hp (Nat.le_refl _), List.take_length, haccept]

/-- Where an edge leads back to the start, the byte that takes it is not disclosed. -/
theorem no_edge_to_start_of_revealsMatches (hnul : 0 ∉ pattern.toUTF8.toList)
    (h : RevealsMatches pattern d a) : ∀ s, ∀ edge ∈ d.edges s, edge.2 ≠ 0 := by
  rintro q ⟨l, t⟩ hedge rfl
  have hd := (Obtained.pattern hmin).wellFormed
  obtain ⟨w, u, v, hu, hfree, hw, hq, hback, haccept⟩ :=
    exists_returning_match hmin ha hnul hedge
  rw [← hu.length] at hw
  obtain ⟨artifact, hcompile⟩ :=
    exists_compile_edge hmin ha (Dfa.lt_size_of_mem_edges hedge) hd.pos
  obtain ⟨a', ha', hp⟩ := exists_writtenFrom (compile_of_minimalDfa hmin _ ▸ hcompile)
  obtain rfl : a = a' := Except.ok.inj (ha.symm.trans ha')
  have heval := Program.evaluate_of_validate (hp.validate ha) u
  obtain ⟨e, he, hshown⟩ := h _ artifact hcompile u
  obtain ⟨e', he', hexact⟩ := atMatchedBytes_acceptsAhead hmin ha _ artifact hcompile u
  obtain rfl := Except.ok.inj (heval.symm.trans he)
  obtain rfl := Except.ok.inj (heval.symm.trans he')
  obtain ⟨edges, vector, hedges, hvector, hshown⟩ := hshown 0 _ rfl
  obtain ⟨edges', vector', hedges', hvector', hexact⟩ := hexact 0 _ rfl
  cases hedges
  cases hedges'
  obtain rfl := Option.some.inj (hvector.symm.trans hvector')
  have hmatch := matchBetween_of_tracks hmin ha hp hu haccept
  have hreturned : (artifact.program.run u).activeAt (w.length + 1) 0 = true :=
    (activeAt_run_iff hd ha hp hw 0).mpr hback.symm
  have htakes : (artifact.program.run u).takes [(q, 0)] w.length = true := by
    simp [Evaluation.takes, hreturned, activeAt_run_iff hd ha hp (Nat.le_of_lt hw), hq]
  have hbyte : u[w.length]? = some u[w.length] := List.getElem?_eq_getElem hw
  have hdisclosed := hshown 0 w.length u.length _ hmatch (Nat.zero_le _) hw hbyte htakes
  have hiff := hexact 0 w.length u.length _ hmatch (Nat.zero_le _) hw hbyte htakes
  rcases hiff.mp hdisclosed with hzero | ⟨t, hbefore, ht, hactive, haway⟩
  · exact hfree (hzero ▸ List.getElem_mem hw)
  · rcases Nat.lt_or_eq_of_le (Nat.succ_le_of_lt hbefore) with hlt | rfl
    · rw [haway _ (Nat.lt_succ_self _) hlt] at hreturned
      cases hreturned
    · exact (Inflow.acceptState_ofDfa ha).1 (eq_of_activeAt hd ha hp hw hactive hreturned)

end Compiled

/-- On a completed match, a byte that is consumed on an edge of a request is disclosed exactly if
the run accepts before it next comes back to the start. If no edge of the automaton leads to the
start, all of them are disclosed; and this is the only case, unless the pattern holds the zero
byte. -/
theorem matched_byte_disclosed_iff {pattern : String} {d : Dfa} {a : Inflow}
    (hmin : minimalDfa pattern = .ok d) (ha : Inflow.ofDfa d = .ok a) :
    AtMatchedBytes pattern d a (fun e v b t c =>
      v.bytes[b]? = some c ↔ c = 0 ∨ e.AcceptsAhead a.acceptState b t) ∧
    ((∀ s, ∀ edge ∈ d.edges s, edge.2 ≠ 0) → RevealsMatches pattern d a) ∧
    (0 ∉ pattern.toUTF8.toList → RevealsMatches pattern d a →
      ∀ s, ∀ edge ∈ d.edges s, edge.2 ≠ 0) :=
  ⟨atMatchedBytes_acceptsAhead hmin ha, revealsMatches_of_no_edge_to_start hmin ha,
    no_edge_to_start_of_revealsMatches hmin ha⟩

/-- In `(ab)*c` the byte `b` leads back to the start. So `abc` matches as a whole, and its `a` is
consumed on the edge that `a` asks for, but it is not disclosed. -/
theorem loses_byte_before_return :
    ∃ d a artifact e v, minimalDfa "(ab)*c" = .ok d ∧ Inflow.ofDfa d = .ok a ∧
      compile "(ab)*c" ⟨.any, [.substring "a" none]⟩ = .ok artifact ∧
      artifact.program.evaluate [97, 98, 99] = .ok e ∧ e.reveals[0]? = some v ∧
      e.MatchBetween d a [97, 98, 99] 0 3 ∧ e.takes [(0, 1)] 0 = true ∧ v.bytes = [0, 0, 0] ∧
      ¬e.AcceptsAhead a.acceptState 0 3 ∧ ¬RevealsMatches "(ab)*c" d a := by
  have hrun : (minimalDfa "(ab)*c").toOption.any (fun d => (Inflow.ofDfa d).toOption.any fun a =>
      (compile "(ab)*c" ⟨.any, [.substring "a" none]⟩).toOption.any fun artifact =>
        (artifact.program.evaluate [97, 98, 99]).toOption.any fun e =>
          (substringEdges "(ab)*c" "a" a).toOption == some [(0, 1)] && (e.takes [(0, 1)] 0 &&
            (e.reveals.map RevealVector.bytes == [[0, 0, 0]] && (e.activeAt 0 0 &&
              (e.activeAt 1 1 && (e.activeAt 2 0 && (e.activeAt 3 a.acceptState &&
                ((d.edges 0).any (fun edge => edge.2 == 1 && (a.matched 0 edge.1).contains 97) &&
                ((d.edges 1).any (fun edge => edge.2 == 0 && (a.matched 1 edge.1).contains 98) &&
                (d.edges 0).any fun edge => edge.2 == a.acceptState &&
                  (a.matched 0 edge.1).contains 99))))))))) = true := by
    decide +kernel
  have hnul : 0 ∉ "(ab)*c".toUTF8.toList := by decide +kernel
  obtain ⟨d, hd, hrun⟩ := Outcome.exists_ok_of_any hrun
  obtain ⟨a, ha, hrun⟩ := Outcome.exists_ok_of_any hrun
  obtain ⟨artifact, hcompile, hrun⟩ := Outcome.exists_ok_of_any hrun
  obtain ⟨e, heval, hrun⟩ := Outcome.exists_ok_of_any hrun
  simp only [Bool.and_eq_true, List.any_eq_true, beq_iff_eq, Prod.exists] at hrun
  obtain ⟨hedges, htakes, hbytes, hzero, hone, htwo, hthree, ⟨l, _, hl, rfl, hlc⟩,
    ⟨l', _, hl', rfl, hlc'⟩, l'', _, hl'', rfl, hlc''⟩ := hrun
  have hmatch : e.MatchBetween d a [97, 98, 99] 0 3 := by
    refine ⟨hzero, fun i _ hi => ?_, hthree⟩
    obtain rfl | rfl | rfl : i = 0 ∨ i = 1 ∨ i = 2 := by omega
    · exact ⟨97, 0, 1, l, rfl, hzero, hone, hl, hlc⟩
    · exact ⟨98, 1, 0, l', rfl, hone, htwo, hl', hlc'⟩
    · exact ⟨99, 0, _, l'', rfl, htwo, hthree, hl'', hlc''⟩
  obtain ⟨hexact, _, hnone⟩ := matched_byte_disclosed_iff hd ha
  obtain ⟨e', heval', hexact⟩ := hexact _ artifact hcompile [97, 98, 99]
  obtain rfl := Except.ok.inj (heval.symm.trans heval')
  obtain ⟨edges, v, hresolve, hv, hexact⟩ := hexact 0 _ rfl
  obtain rfl : edges = [(0, 1)] := by
    change substringEdges "(ab)*c" "a" a = .ok edges at hresolve
    rw [hresolve] at hedges
    exact Option.some.inj hedges
  have hlost : v.bytes = [0, 0, 0] := by
    have hget := congrArg (fun bytes => bytes[0]?) hbytes
    rw [List.getElem?_map, hv] at hget
    exact Option.some.inj hget
  have hiff := hexact 0 0 3 97 hmatch (by decide) (by decide) rfl htakes
  refine ⟨d, a, artifact, e, v, hd, ha, hcompile, heval, hv, hmatch, htakes, hlost, ?_, ?_⟩
  · intro hahead
    have hshown := hiff.mpr (.inr hahead)
    rw [hlost] at hshown
    cases hshown
  · intro hall
    exact hnone hnul hall 1 _ hl' rfl

end PatternCircuit
