import Mathlib.Data.List.Basic
import PatternCircuit.Program.Validity

/-! # What a valid program is -/

namespace PatternCircuit

/-- Every operation of a step reads what it may and stores only states that exist. -/
def WellFormedStep (count : Nat) (kind : StepKind) (step : List Op) : Prop :=
  ∀ (id : Nat) (op : Op), step[id]? = some op →
    (∀ s, op.storedState? = some s → s < count) ∧
      ∀ o ∈ op.operands, o.readable count kind step id = true

theorem Op.fault?_eq_none_iff {count : Nat} {kind : StepKind} {name : String} {step : List Op}
    {id : Nat} {op : Op} : op.fault? count kind name step id = none ↔
      (∀ s, op.storedState? = some s → s < count) ∧
        ∀ o ∈ op.operands, o.readable count kind step id = true := by
  unfold fault?
  split
  · rename_i s hstored
    obtain ⟨hs, hle⟩ := Option.filter_eq_some_iff.mp hstored
    simp only [reduceCtorEq, false_iff, not_and]
    intro hlt
    exact absurd (hlt s hs) (Nat.not_lt.mpr (of_decide_eq_true hle))
  · rename_i hstored
    rw [Option.filter_eq_none_iff] at hstored
    rw [Option.map_eq_none_iff, List.find?_eq_none]
    constructor
    · intro hreads
      refine ⟨fun s hs => ?_, fun o ho => ?_⟩
      · simpa using hstored s hs
      · simpa using hreads o ho
    · intro hformed o ho
      simpa using hformed.2 o ho

theorem nodesFault?_eq_none_iff {count : Nat} {kind : StepKind} {name : String} {step : List Op}
    {id : Nat} {ops : List Op} : nodesFault? count kind name step id ops = none ↔
      ∀ (j : Nat) (op : Op), ops[j]? = some op →
        op.fault? count kind name step (id + j) = none := by
  induction ops generalizing id with
  | nil => simp [nodesFault?]
  | cons op ops ih =>
      have hshift : ∀ j, id + (j + 1) = id + 1 + j := fun j => by omega
      rw [nodesFault?]
      cases hfault : op.fault? count kind name step id with
      | some fault =>
          simp only [reduceCtorEq, false_iff, not_forall]
          exact ⟨0, op, rfl, by rw [Nat.add_zero, hfault]; exact Option.some_ne_none fault⟩
      | none =>
          simp only
          rw [ih]
          constructor
          · intro hrest j op' hop'
            cases j with
            | zero =>
                cases hop'
                exact hfault
            | succ j =>
                rw [hshift]
                exact hrest j op' hop'
          · intro hall j op' hop'
            rw [← hshift]
            exact hall (j + 1) op' hop'

theorem stepFault?_eq_none_iff {count : Nat} {kind : StepKind} {name : String} {step : List Op} :
    stepFault? count kind name step = none ↔ WellFormedStep count kind step := by
  rw [stepFault?, nodesFault?_eq_none_iff]
  simp only [Nat.zero_add, Op.fault?_eq_none_iff]
  rfl

theorem miscounted?_eq_none_iff {step : List Op} {remaining state : Nat} :
    miscounted? step remaining state = none ↔
      ∀ s, state ≤ s → s < state + remaining → storeCount step s = 1 := by
  induction remaining generalizing state with
  | zero =>
      simp only [miscounted?, true_iff]
      intros
      omega
  | succ remaining ih =>
      rw [miscounted?]
      split
      · rename_i hone
        rw [ih]
        constructor
        · intro hrest s hle hlt
          by_cases heq : s = state
          · rw [heq]
            exact hone
          · exact hrest s (by omega) (by omega)
        · intro hall s hle hlt
          exact hall s (by omega) (by omega)
      · rename_i hone
        simp only [reduceCtorEq, false_iff]
        intro hall
        exact hone (hall state (Nat.le_refl state) (by omega))

/-- A reveal step stores one carry, discloses once and stores nothing else; its edges exist. -/
theorem Reveal.fault?_eq_none_iff {count : Nat} {r : Reveal} : r.fault? count = none ↔
    WellFormedStep count .reveal r.step ∧ r.step.countP Op.isStoreCarry = 1 ∧
      r.step.countP Op.isDisclose = 1 ∧
      (∀ op ∈ r.step, op.storedState? = none ∧ op.isStoreChanged = false) ∧
      ∀ e ∈ r.edges, e.1 < count ∧ e.2 < count := by
  have hplain : (r.step.any fun op => op.storedState?.isSome || op.isStoreChanged) = false ↔
      ∀ op ∈ r.step, op.storedState? = none ∧ op.isStoreChanged = false := by
    simp [List.any_eq_false]
  have hedges : (r.edges.find? fun e => count ≤ e.1 || count ≤ e.2) = none ↔
      ∀ e ∈ r.edges, e.1 < count ∧ e.2 < count := by
    simp [List.find?_eq_none]
  rw [← @stepFault?_eq_none_iff count .reveal r.name r.step, ← hplain, ← hedges, fault?]
  cases stepFault? count .reveal r.name r.step with
  | some fault => simp
  | none =>
      by_cases hstores : r.step.countP Op.isStoreCarry = 1 ∧ r.step.countP Op.isDisclose = 1
      · cases r.step.any fun op => op.storedState?.isSome || op.isStoreChanged with
        | true => simp [hstores]
        | false => simp [hstores]
      · have hmiscounted := not_and_or.mp hstores
        simp only [if_pos hmiscounted, reduceCtorEq, false_iff]
        exact fun hand => hstores ⟨hand.2.1, hand.2.2.1⟩

/-- What a valid reveal is. -/
structure Reveal.Valid (count : Nat) (r : Reveal) : Prop where
  wellFormed : WellFormedStep count .reveal r.step
  carry : r.step.countP Op.isStoreCarry = 1
  disclose : r.step.countP Op.isDisclose = 1

theorem Reveal.valid_of_fault? {count : Nat} {r : Reveal} (h : r.fault? count = none) :
    r.Valid count := by
  obtain ⟨hformed, hcarry, hdisclose, _⟩ := Reveal.fault?_eq_none_iff.mp h
  exact ⟨hformed, hcarry, hdisclose⟩

namespace Program

theorem transitionFault?_eq_none_iff {p : Program} : p.transitionFault? = none ↔
    WellFormedStep p.stateCount .transition p.step ∧
      (∀ op ∈ p.step, op.isStoreCarry = false ∧ op.isDisclose = false) ∧
      (∀ s < p.stateCount, storeCount p.step s = 1) ∧
      p.step.countP Op.isStoreChanged = 1 := by
  have hplain : (p.step.any fun op => op.isStoreCarry || op.isDisclose) = false ↔
      ∀ op ∈ p.step, op.isStoreCarry = false ∧ op.isDisclose = false := by
    simp [List.any_eq_false]
  have hstates : miscounted? p.step p.stateCount 0 = none ↔
      ∀ s < p.stateCount, storeCount p.step s = 1 := by
    simp [miscounted?_eq_none_iff]
  rw [← @stepFault?_eq_none_iff p.stateCount .transition "transition" p.step, ← hplain, ← hstates,
    transitionFault?]
  cases stepFault? p.stateCount .transition "transition" p.step with
  | some fault => simp
  | none =>
      cases p.step.any fun op => op.isStoreCarry || op.isDisclose with
      | true => simp
      | false =>
          cases miscounted? p.step p.stateCount 0 with
          | some s => simp
          | none => simp

theorem validate_eq_ok_iff {p : Program} : p.validate = .ok () ↔
    2 ≤ p.stateCount ∧ p.acceptState ≠ 0 ∧ p.acceptState < p.stateCount ∧
      p.transitionFault? = none ∧ ∀ r ∈ p.reveals, r.fault? p.stateCount = none := by
  have hvalidate : p.validate = .ok () ↔ p.fault? = none := by
    rw [validate]
    cases p.fault? <;> simp
  rw [hvalidate, fault?]
  split
  · rename_i htwo
    simp only [reduceCtorEq, false_iff]
    omega
  · split
    · rename_i haccept
      simp only [reduceCtorEq, false_iff]
      omega
    · rename_i htwo haccept
      have hbounds : 2 ≤ p.stateCount ∧ p.acceptState ≠ 0 ∧ p.acceptState < p.stateCount := by
        omega
      cases p.transitionFault? with
      | some fault => simp
      | none => simp [hbounds, List.findSome?_eq_none_iff]

/-- What a valid program is. -/
structure Valid (p : Program) : Prop where
  two_le : 2 ≤ p.stateCount
  accept_lt : p.acceptState < p.stateCount
  wellFormed : WellFormedStep p.stateCount .transition p.step
  disclose : p.step.countP Op.isDisclose = 0
  states : ∀ s < p.stateCount, storeCount p.step s = 1
  changed : p.step.countP Op.isStoreChanged = 1
  reveals : ∀ r ∈ p.reveals, r.Valid p.stateCount

theorem valid_of_validate {p : Program} (h : p.validate = .ok ()) : p.Valid := by
  obtain ⟨htwo, _, haccept, htransition, hreveals⟩ := validate_eq_ok_iff.mp h
  obtain ⟨hformed, hplain, hstates, hchanged⟩ := transitionFault?_eq_none_iff.mp htransition
  refine ⟨htwo, haccept, hformed, ?_, hstates, hchanged,
    fun r hr => Reveal.valid_of_fault? (hreveals r hr)⟩
  rw [List.countP_eq_zero]
  intro op hop
  exact Bool.eq_false_iff.mp (hplain op hop).2

end Program

end PatternCircuit
