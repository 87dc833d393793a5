import PatternCircuit.Proofs.Compile.Pipeline

/-! # What a run discloses

A disclosed byte lies in a stretch of the run that no byte breaks before the run accepts or the
input ends. Bytes in a stretch that the end of the input cuts off are disclosed although nothing has
matched. -/

namespace PatternCircuit

/-! ### Stretches of a run -/

namespace Evaluation

variable (e : Evaluation)

/-- Every byte from `b` up to position `t` moves the run on. -/
def Unbroken (b t : Nat) : Prop := ∀ s, b ≤ s → s < t → e.changed[s]? = some true

/-- From byte `b` on, the run is unbroken until it accepts. -/
def Completes (acceptState b : Nat) : Prop :=
  ∃ t, b < t ∧ t ≤ e.changed.length ∧ e.Unbroken b t ∧ e.activeAt t acceptState = true

/-- Byte `b` is consumed on one of the edges. -/
def takes (edges : List (Nat × Nat)) (b : Nat) : Bool :=
  edges.any fun edge => e.activeAt b edge.1 && e.activeAt (b + 1) edge.2

/-- Every disclosed byte lies in a stretch that accepts. -/
def OnlyCompleted (acceptState : Nat) (v : RevealVector) : Prop :=
  ∀ (b : Nat) (c : UInt8), v.bytes[b]? = some c → c ≠ 0 → e.Completes acceptState b

variable {e}

theorem unbroken_iff_succ {b t : Nat} (hb : b < t) :
    e.Unbroken b t ↔ e.changed[b]? = some true ∧ e.Unbroken (b + 1) t := by
  constructor
  · intro h
    exact ⟨h b (Nat.le_refl b) hb, fun s hs ht => h s (by omega) ht⟩
  · intro h s hs ht
    by_cases heq : s = b
    · rw [heq]
      exact h.1
    · exact h.2 s (by omega) ht

theorem completes_iff_succ {acceptState b : Nat} :
    e.Completes acceptState b ↔ e.changed[b]? = some true ∧
      (e.activeAt (b + 1) acceptState = true ∨ e.Completes acceptState (b + 1)) := by
  constructor
  · intro h
    obtain ⟨t, hb, ht, hunbroken, haccept⟩ := h
    obtain ⟨hchanged, hrest⟩ := (unbroken_iff_succ hb).mp hunbroken
    refine ⟨hchanged, ?_⟩
    by_cases heq : t = b + 1
    · exact .inl (heq ▸ haccept)
    · exact .inr ⟨t, by omega, ht, hrest, haccept⟩
  · intro h
    have hlt := (List.getElem?_eq_some_iff.mp h.1).1
    cases h.2 with
    | inl haccept =>
        refine ⟨b + 1, by omega, by omega, ?_, haccept⟩
        exact (unbroken_iff_succ (by omega)).mpr ⟨h.1, fun s hs ht => by omega⟩
    | inr hrest =>
        obtain ⟨t, hb, ht, hunbroken, haccept⟩ := hrest
        exact ⟨t, by omega, ht, (unbroken_iff_succ (by omega)).mpr ⟨h.1, hunbroken⟩, haccept⟩

end Evaluation

/-! ### The walk back over a run -/

namespace Program

variable (p : Program) (x : List UInt8)

theorem drop_reverse_trace {b : Nat} (hb : b < x.length) :
    (p.trace x).reverse.drop b =
      p.rowAfter (x.take b) x[b] :: (p.trace x).reverse.drop (b + 1) := by
  have hget := p.getElem?_reverse_trace x b
  rw [List.getElem?_eq_getElem hb, Option.map_some] at hget
  obtain ⟨hlt, hrow⟩ := List.getElem?_eq_some_iff.mp hget
  rw [List.drop_eq_getElem_cons hlt, hrow]

/-- The walk back arrives at a byte with the carry set exactly if the run goes on from there until
it accepts or the input ends. -/
theorem goesOn_run {b : Nat} (hb : b ≤ x.length) :
    goesOn p.acceptState ((p.trace x).reverse.drop b) = true ↔
      (p.run x).Completes p.acceptState b ∨ (p.run x).Unbroken b x.length := by
  -- by induction on the number of bytes behind `b`, as the walk comes from the end
  obtain ⟨n, hn⟩ := Nat.exists_eq_add_of_le hb
  induction n generalizing b with
  | zero =>
      have hnil : (p.trace x).reverse.drop b = [] := by
        rw [List.drop_eq_nil_iff, List.length_reverse, length_trace]
        omega
      rw [hnil, goesOn]
      refine iff_of_true rfl (.inr fun s hs ht => ?_)
      omega
  | succ n ih =>
      have hlt : b < x.length := by omega
      have hchanged : (p.run x).changed[b]? = some (p.rowAfter (x.take b) x[b]).changed := by
        rw [getElem?_changed_run, List.getElem?_eq_getElem hlt, Option.map_some]
      have hnext : (p.rowAfter (x.take b) x[b]).next.getD p.acceptState false =
          (p.run x).activeAt (b + 1) p.acceptState := by
        rw [activeAt_run p hlt, next_rowAfter, List.take_succ_eq_append_getElem hlt]
      have hcompletes := @Evaluation.completes_iff_succ (p.run x) p.acceptState b
      have hunbroken := @Evaluation.unbroken_iff_succ (p.run x) b x.length hlt
      rw [hchanged, Option.some.injEq] at hcompletes hunbroken
      rw [drop_reverse_trace p x hlt, goesOn, Frame.goesOn, Bool.and_eq_true, Bool.or_eq_true,
        TraceRow.frame, hnext, ih hlt (by omega), hcompletes, hunbroken, ← and_or_left, or_assoc]

theorem takes_run {b : Nat} (hb : b < x.length) (edges : List (Nat × Nat)) (carry : Bool) :
    ((p.rowAfter (x.take b) x[b]).frame carry).takes edges = (p.run x).takes edges b := by
  unfold Frame.takes Evaluation.takes
  congr 1
  funext edge
  rw [activeAt_run p (Nat.le_of_lt hb), activeAt_run p hb, List.take_succ_eq_append_getElem hb,
    ← next_rowAfter]
  rfl

open Classical in
/-- A byte is disclosed exactly if it is consumed on a chosen edge and the run goes on from there
until it accepts or the input ends. -/
theorem getElem?_revealBytes (edges : List (Nat × Nat)) (b : Nat) :
    (revealBytes p.stateCount (Inflow.revealStep p.acceptState edges) (p.trace x))[b]? =
      x[b]?.map fun c => if (p.run x).takes edges b = true ∧
        ((p.run x).Completes p.acceptState b ∨ (p.run x).Unbroken b x.length) then c else 0 := by
  obtain ⟨bytes, hfold, hbytes⟩ :=
    foldl_revealByte p.stateCount p.acceptState edges (p.trace x).reverse
  rw [List.reverse_reverse] at hfold
  rw [revealBytes, hfold, hbytes, getElem?_reverse_trace, Option.map_map]
  by_cases hb : b < x.length
  · rw [List.getElem?_eq_getElem hb, Option.map_some, Option.map_some, Function.comp_apply,
      disclosed, takes_run p x hb, ← drop_reverse_trace p x hb]
    refine congrArg some (if_congr ?_ rfl rfl)
    rw [Bool.and_eq_true, goesOn_run p x (Nat.le_of_lt hb)]
  · rw [List.getElem?_eq_none (by omega)]
    rfl

section Completed

variable {p x} {edges : List (Nat × Nat)} {v : RevealVector}
  (hv : v.bytes = revealBytes p.stateCount (Inflow.revealStep p.acceptState edges) (p.trace x))
include hv

theorem disclosed_of_ne_zero {b : Nat} {c : UInt8} (hc : v.bytes[b]? = some c) (hne : c ≠ 0) :
    x[b]? = some c ∧ (p.run x).takes edges b = true ∧
      ((p.run x).Completes p.acceptState b ∨ (p.run x).Unbroken b x.length) := by
  rw [hv, getElem?_revealBytes, Option.map_eq_some_iff] at hc
  obtain ⟨c', hc', hif⟩ := hc
  split at hif
  · rename_i hshown
    exact ⟨hif ▸ hc', hshown⟩
  · exact absurd hif.symm hne

/-- Only completed stretches are disclosed exactly when no byte on a chosen edge is in a stretch
that the end of the input cuts off. -/
theorem onlyCompleted_iff : (p.run x).OnlyCompleted p.acceptState v ↔
    ∀ (b : Nat) (c : UInt8), x[b]? = some c → c ≠ 0 → (p.run x).takes edges b = true →
      (p.run x).Unbroken b x.length → (p.run x).Completes p.acceptState b := by
  constructor
  · intro honly b c hc hne htakes hunbroken
    refine honly b c ?_ hne
    rw [hv, getElem?_revealBytes, hc, Option.map_some, if_pos ⟨htakes, .inr hunbroken⟩]
  · intro hall b c hc hne
    obtain ⟨hinput, htakes, hgoes⟩ := disclosed_of_ne_zero hv hc hne
    cases hgoes with
    | inl hcompletes => exact hcompletes
    | inr hunbroken => exact hall b c hinput hne htakes hunbroken

/-- Nothing is cut off if the last byte sends the run back to its start. -/
theorem onlyCompleted_of_getLast? (hlast : (p.run x).changed.getLast? = some false) :
    (p.run x).OnlyCompleted p.acceptState v := by
  rw [onlyCompleted_iff hv]
  intro b c hc _ _ hunbroken
  have hb := (List.getElem?_eq_some_iff.mp hc).1
  rw [List.getLast?_eq_getElem?, p.length_changed_run,
    hunbroken (x.length - 1) (by omega) (by omega)] at hlast
  cases hlast

end Completed

end Program

/-- A run discloses only bytes that it consumes on a chosen edge in a stretch that accepts or that
the end of the input cuts off. All disclosed bytes are in stretches that accept exactly when no byte
on a chosen edge is in a stretch that is cut off; so it is if the last byte sends the run back. -/
theorem discloses_only_completed_iff {pattern : String} {d : Dfa} {options : Options}
    {artifact : Artifact} (h : compileAutomaton pattern d options = .ok artifact)
    (x : List UInt8) :
    ∃ e, artifact.program.evaluate x = .ok e ∧ e.changed.length = x.length ∧
      ∀ (i : Nat) (r : Reveal), artifact.program.reveals[i]? = some r → r.edges ≠ [] ∧
        ∃ v, e.reveals[i]? = some v ∧ v.name = r.name ∧ v.bytes.length = x.length ∧
          (∀ (b : Nat) (c : UInt8), v.bytes[b]? = some c → c ≠ 0 →
            x[b]? = some c ∧ e.takes r.edges b = true ∧
              (e.Completes artifact.program.acceptState b ∨ e.Unbroken b x.length)) ∧
          (e.OnlyCompleted artifact.program.acceptState v ↔
            ∀ (b : Nat) (c : UInt8), x[b]? = some c → c ≠ 0 → e.takes r.edges b = true →
              e.Unbroken b x.length → e.Completes artifact.program.acceptState b) ∧
          (e.changed.getLast? = some false →
            e.OnlyCompleted artifact.program.acceptState v) := by
  obtain ⟨a, ha, hp⟩ := exists_writtenFrom h
  generalize artifact.program = p at hp
  refine ⟨_, Program.evaluate_of_validate (hp.validate ha) x, p.length_changed_run x, ?_⟩
  intro i r hr
  obtain ⟨hedges, _, hwritten⟩ :=
    Inflow.reveal_eq_ok_iff.mp (hp.reveals r (List.mem_of_getElem? hr))
  have hstep : r.step = Inflow.revealStep p.acceptState r.edges := by
    rw [hp.acceptState]
    exact congrArg Reveal.step hwritten
  let v : RevealVector := ⟨r.name, Program.revealBytes p.stateCount r.step (p.trace x)⟩
  have hvector : (p.run x).reveals[i]? = some v := by
    simp [Program.run, hr, v]
  have hv : v.bytes = Program.revealBytes p.stateCount
      (Inflow.revealStep p.acceptState r.edges) (p.trace x) := by rw [← hstep]
  refine ⟨hedges, v, hvector, rfl, ?_, ?_, Program.onlyCompleted_iff hv,
    Program.onlyCompleted_of_getLast? hv⟩
  · rw [hv, Program.length_revealBytes, p.length_trace]
  · intro b c hc hne
    exact Program.disclosed_of_ne_zero hv hc hne

/-- `abc` with its `b` disclosed shows the `b` of `ab`, where nothing has matched: the end of the
input cuts off the stretch that the byte is in. -/
theorem discloses_pending_byte :
    ∃ d artifact e v, minimalDfa "abc" = .ok d ∧
      compileAutomaton "abc" d ⟨.any, [.substring "b" none]⟩ = .ok artifact ∧
      artifact.program.evaluate [97, 98] = .ok e ∧ e.verdict = .matched false ∧
      e.reveals[0]? = some v ∧ v.bytes = [0, 98] ∧ e.Unbroken 1 2 ∧
      ¬e.OnlyCompleted artifact.program.acceptState v := by
  have hrun : (minimalDfa "abc").toOption.any (fun d =>
      (compileAutomaton "abc" d ⟨.any, [.substring "b" none]⟩).toOption.any fun artifact =>
        artifact.program.reveals.length == 1 &&
        (artifact.program.evaluate [97, 98]).toOption.any fun e =>
          e.verdict == .matched false && e.reveals.map RevealVector.bytes == [[0, 98]] &&
            !e.activeAt 2 artifact.program.acceptState) = true := by
    decide +kernel
  obtain ⟨d, hd, hrun⟩ := Outcome.exists_ok_of_any hrun
  obtain ⟨artifact, hcompile, hrun⟩ := Outcome.exists_ok_of_any hrun
  rw [Bool.and_eq_true, beq_iff_eq] at hrun
  obtain ⟨hone, hrun⟩ := hrun
  obtain ⟨e, heval, hrun⟩ := Outcome.exists_ok_of_any hrun
  simp only [Bool.and_eq_true, beq_iff_eq, Bool.not_eq_true'] at hrun
  obtain ⟨⟨hverdict, hbytes⟩, hreject⟩ := hrun
  obtain ⟨e', heval', hchanged, hreveals⟩ := discloses_only_completed_iff hcompile [97, 98]
  obtain rfl := Except.ok.inj (heval.symm.trans heval')
  obtain ⟨r, hr⟩ := List.length_eq_one_iff.mp hone
  obtain ⟨_, v, hv, _, _, hshown, _⟩ := hreveals 0 r (by rw [hr]; rfl)
  have hvector : v.bytes = [0, 98] := by
    have hget := congrArg (fun l => l[0]?) hbytes
    rw [List.getElem?_map, hv] at hget
    exact Option.some.inj hget
  have hpending : ¬e.Completes artifact.program.acceptState 1 := by
    intro hcompletes
    obtain ⟨t, hlt, hle, _, haccept⟩ := hcompletes
    obtain rfl : t = 2 := by
      rw [hchanged] at hle
      exact Nat.le_antisymm hle hlt
    rw [hreject] at haccept
    cases haccept
  have hbyte : v.bytes[1]? = some 98 := by rw [hvector]; rfl
  obtain ⟨_, _, hgoes⟩ := hshown 1 98 hbyte (by decide)
  refine ⟨d, artifact, e, v, hd, hcompile, heval, hverdict, hv, hvector,
    hgoes.resolve_left hpending, ?_⟩
  intro honly
  exact hpending (honly 1 98 hbyte (by decide))

end PatternCircuit
