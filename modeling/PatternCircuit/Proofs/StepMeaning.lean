import PatternCircuit.Proofs.Program.Emission
import PatternCircuit.Proofs.SafeExecution

/-! # Steps compute what was asked for

A builder may be asked for comparisons and combinations in any order, with stores in between. In a
run of all that it has written, every answer has the value of the function that it was asked for,
whether it was computed for the request or kept from an earlier one. The transition step, which is
written that way, computes the next states from the states that are active, whichever they are. -/

namespace PatternCircuit

/-- The operand is the result of an operation. -/
def Operand.isNode : Operand → Bool
  | node _ => true
  | state _ | nextState _ | changed | carry | const _ => false

/-- How many states a frame must have for the operand to be among its bits. -/
def Operand.reach : Operand → Nat
  | state i | nextState i => i + 1
  | changed | carry | node _ | const _ => 0

/-- The frame has the bits that a step reads from it, and the states that are stored exist. -/
def Frame.Provides (f : Frame) (count : Nat) (step : List Op) : Prop :=
  ∀ op ∈ step, (∀ s, op.storedState? = some s → s < count) ∧
    ∀ o ∈ op.operands, o.isNode = true ∨ f.InBounds 0 o

namespace Builder

/-! ### Histories -/

/-- An operand may be mentioned if it is a constant, a bit of the frame or an earlier answer. -/
def Usable (log : List (Request × Operand)) (o : Operand) : Prop :=
  o.isNode = false ∨ o ∈ log.map Prod.snd

instance (log : List (Request × Operand)) (o : Operand) : Decidable (Usable log o) :=
  inferInstanceAs (Decidable (o.isNode = false ∨ o ∈ log.map Prod.snd))

/-- A builder after requests and stores in any order, and the requests so far with their answers. -/
inductive History : Builder → List (Request × Operand) → Prop where
  | start : History .empty []
  | ask {b : Builder} {log : List (Request × Operand)} (r : Request) (h : History b log)
      (hr : ∀ o ∈ r.operands, Usable log o) :
      History (r.answer b).2 (log ++ [(r, (r.answer b).1)])
  | store {b : Builder} {log : List (Request × Operand)} (op : Op) (h : History b log)
      (hop : ∀ o ∈ op.operands, Usable log o) : History (b.store op) log

/-! ### Values of answers -/

/-- All answers have, in a run of what is written, the values that were asked for. -/
structure Truthful (count : Nat) (b : Builder) (log : List (Request × Operand)) : Prop where
  sound : b.Sound count
  holds : ∀ e ∈ log, Holds count b.ops e.1 e.2

namespace Truthful

variable {count : Nat} {b b' : Builder} {log : List (Request × Operand)}

theorem known_of_usable (h : Truthful count b log) {o : Operand} (ho : Usable log o) :
    Known b.ops o := by
  cases ho with
  | inl hframe =>
      cases o with
      | node id => cases hframe
      | _ => trivial
  | inr hmem =>
      obtain ⟨e, he, rfl⟩ := List.mem_map.mp hmem
      exact (h.holds e he).known

theorem extend (h : Truthful count b log) (hb : b'.Sound count)
    (hext : Extends count b.ops b'.ops) : Truthful count b' log :=
  ⟨hb, fun e he => (h.holds e he).extend hext⟩

theorem ask (h : Truthful count b log) {r : Request} (hr : ∀ o ∈ r.operands, Usable log o) :
    Truthful count (r.answer b).2 (log ++ [(r, (r.answer b).1)]) := by
  have hknown : ∀ o ∈ r.operands, Known b.ops o := fun o ho => h.known_of_usable (hr o ho)
  have hgives := gives_answer h.sound hknown
  refine ⟨hgives.sound, fun e he => ?_⟩
  cases List.mem_append.mp he with
  | inl he => exact (h.holds e he).extend hgives.extension
  | inr he =>
      rw [List.mem_singleton.mp he]
      exact Gives.holds hknown hgives

end Truthful

theorem History.truthful {b : Builder} {log : List (Request × Operand)} (h : History b log)
    (count : Nat) : Truthful count b log := by
  induction h with
  | start => exact ⟨sound_empty count, List.forall_mem_nil _⟩
  | ask r _ hr ih => exact ih.ask hr
  | store op _ _ ih =>
      exact ih.extend (Inflow.sound_store ih.sound op) (Inflow.extends_store count _ op)

/-! ### Bounds -/

theorem exists_reach (os : List Operand) : ∃ bound, ∀ o ∈ os, o.reach ≤ bound := by
  induction os with
  | nil => exact ⟨0, by simp⟩
  | cons o os ih =>
      obtain ⟨bound, hbound⟩ := ih
      refine ⟨max o.reach bound, List.forall_mem_cons.mpr ⟨Nat.le_max_left _ _, ?_⟩⟩
      intro p hp
      exact (hbound p hp).trans (Nat.le_max_right _ _)

theorem mayRead_of_usable {count : Nat} {b : Builder} {log : List (Request × Operand)}
    (hlog : ∀ e ∈ log, b.MayRead count .reveal e.2) {o : Operand} (ho : Usable log o)
    (hreach : o.reach ≤ count) : b.MayRead count .reveal o := by
  cases ho with
  | inl hframe =>
      cases o with
      | state i => exact decide_eq_true hreach
      | nextState i => exact decide_eq_true hreach
      | node id => cases hframe
      | _ => rfl
  | inr hmem =>
      obtain ⟨e, he, rfl⟩ := List.mem_map.mp hmem
      exact hlog e he

/-- For as many states as the requests and stores mention, what is written is well-formed. -/
theorem History.exists_formed {b : Builder} {log : List (Request × Operand)} (h : History b log) :
    ∃ bound, ∀ count, bound ≤ count →
      b.Formed count .reveal ∧ ∀ e ∈ log, b.MayRead count .reveal e.2 := by
  induction h with
  | start => exact ⟨0, fun count _ => ⟨formed_empty, List.forall_mem_nil _⟩⟩
  | @ask b log r _ hr ih =>
      obtain ⟨bound, hbound⟩ := ih
      obtain ⟨reach, hreach⟩ := exists_reach r.operands
      refine ⟨max bound reach, fun count hcount => ?_⟩
      obtain ⟨hformed, hlog⟩ := hbound count (by omega)
      have hwrites := writes_answer hformed fun o ho =>
        mayRead_of_usable hlog (hr o ho) ((hreach o ho).trans (by omega))
      refine ⟨hwrites.formed, fun e he => ?_⟩
      cases List.mem_append.mp he with
      | inl he => exact (hlog e he).mono hwrites.isPrefix
      | inr he =>
          rw [List.mem_singleton.mp he]
          exact hwrites.mayRead _ (List.mem_singleton_self _)
  | @store b log op _ hop ih =>
      obtain ⟨bound, hbound⟩ := ih
      obtain ⟨reach, hreach⟩ := exists_reach op.operands
      refine ⟨max (max bound reach) (op.storedState?.getD 0 + 1), fun count hcount => ?_⟩
      obtain ⟨hformed, hlog⟩ := hbound count (by omega)
      have hstored : ∀ s, op.storedState? = some s → s < count := by
        intro s hs
        rw [hs, Option.getD_some] at hcount
        omega
      refine ⟨hformed.push hstored fun o ho =>
        mayRead_of_usable hlog (hop o ho) ((hreach o ho).trans (by omega)), fun e he => ?_⟩
      exact (hlog e he).mono (step_store b op ▸ List.prefix_append _ _)

/-- A frame that has the bits and states that are mentioned supports the whole step. -/
theorem History.supports {b : Builder} {log : List (Request × Operand)} (h : History b log)
    {f : Frame} {count : Nat} (hf : f.Provides count b.step) : f.Supports count b.step := by
  obtain ⟨bound, hbound⟩ := h.exists_formed
  have hwell := (hbound bound (Nat.le_refl _)).1.wellFormed
  intro id op hget
  obtain ⟨hstored, hbits⟩ := hf op (List.mem_of_getElem? hget)
  refine ⟨hstored, fun o ho => ?_⟩
  have hreadable := (hwell id op hget).2 o ho
  have hbit := hbits o ho
  cases o with
  | node target =>
      have htarget : target < id := of_decide_eq_true (Bool.and_eq_true_iff.mp hreadable).1
      exact htarget
  | _ => exact hbit.resolve_left Bool.false_ne_true

/-- An answer that is a result is the result of some operation. -/
theorem History.isValue_of_node {b : Builder} {log : List (Request × Operand)}
    (h : History b log) {e : Request × Operand} (he : e ∈ log) {id : Nat} (hnode : e.2 = .node id) :
    b.step[id]?.any Op.isValue = true := by
  obtain ⟨bound, hbound⟩ := h.exists_formed
  have hread := (hbound bound (Nat.le_refl _)).2 e he
  rw [hnode] at hread
  have hvalue := (Bool.and_eq_true_iff.mp hread).2
  cases hget : b.step[id]? with
  | none => simp [hget] at hvalue
  | some op => simpa [hget] using hvalue

/-- In a run of all that a builder has written, each answer has the value of the function that it
was asked for, and a frame with the bits that are read from it is run to the end. -/
theorem answers_have_requested_values {b : Builder} {log : List (Request × Operand)}
    (h : History b log) (f : Frame) (count : Nat) :
    (∀ e ∈ log, (∀ id, e.2 = .node id → b.step[id]?.any Op.isValue = true) ∧
      f.read (runStep b.step f count).nodes e.2 =
        e.1.value f.input (f.read (runStep b.step f count).nodes)) ∧
      (f.Provides count b.step → runStep? b.step f count = some (runStep b.step f count)) := by
  refine ⟨fun e he => ⟨fun id => h.isValue_of_node he, ?_⟩, fun hf => (h.supports hf).runStep?_eq⟩
  exact ((h.truthful count).holds e he).value f

/-- Requests for `a` or `b`: a disjunction, the same in another order, and a test of a set. -/
def repeatedDisjunction : List (Request × Operand) :=
  [(.equal 97, .node 0), (.equal 98, .node 1), (.any [.node 1, .node 0], .node 2),
    (.any [.node 0, .const false, .node 1, .node 0], .node 2),
    (.byteTest (.ofList [97, 98]), .node 2), (.range 97 122, .node 6),
    (.not (.node 2), .node 7), (.all [.node 6, .const true, .node 7], .node 8)]

/-- The disjunction is computed once, and what is built on it holds for the letters other than `a`
and `b`. -/
theorem answers_of_repeatedDisjunction :
    ∃ b, History b repeatedDisjunction ∧
      b.step = [.equals 97, .equals 98, .disj [.node 0, .node 1], .storeState 1 (.node 2),
        .atLeast 97, .atMost 122, .conj [.node 4, .node 5], .neg (.node 2),
        .conj [.node 6, .node 7]] ∧
      ∀ f : Frame, runStep? b.step f 2 = some (runStep b.step f 2) ∧
        f.read (runStep b.step f 2).nodes (.node 8) =
          (decide (97 ≤ f.input) && decide (f.input ≤ 122) &&
            !(ByteSet.ofList [97, 98]).contains f.input) := by
  obtain ⟨b, log, h, rfl, hstep⟩ : ∃ b log, History b log ∧ log = repeatedDisjunction ∧
      b.step = [.equals 97, .equals 98, .disj [.node 0, .node 1], .storeState 1 (.node 2),
        .atLeast 97, .atMost 122, .conj [.node 4, .node 5], .neg (.node 2),
        .conj [.node 6, .node 7]] := by
    refine ⟨_, _, .ask (.all [.node 6, .const true, .node 7]) (.ask (.not (.node 2))
      (.ask (.range 97 122) (.ask (.byteTest (.ofList [97, 98]))
      (.ask (.any [.node 0, .const false, .node 1, .node 0]) (.store (.storeState 1 (.node 2))
      (.ask (.any [.node 1, .node 0]) (.ask (.equal 98) (.ask (.equal 97) .start ?_) ?_) ?_) ?_) ?_)
      ?_) ?_) ?_) ?_, ?_, ?_⟩ <;> decide +kernel
  refine ⟨b, h, hstep, fun f => ?_⟩
  have hprovides : f.Provides 2 b.step := by
    rw [hstep]
    simp [Frame.Provides, Op.storedState?, Op.operands, Operand.isNode]
  obtain ⟨hvalues, hrun⟩ := answers_have_requested_values h f 2
  have hvalue := fun e he => (hvalues e he).2
  have hall := hvalue (.all [.node 6, .const true, .node 7], .node 8) (by decide)
  have hnot := hvalue (.not (.node 2), .node 7) (by decide)
  have hset := hvalue (.byteTest (.ofList [97, 98]), .node 2) (by decide)
  have hrange := hvalue (.range 97 122, .node 6) (by decide)
  simp only [Request.value, List.all_cons, List.all_nil, Bool.and_true] at hall hnot hset hrange
  refine ⟨hrun hprovides, ?_⟩
  rw [hall, hnot, hset, hrange]
  rfl

end Builder

namespace Inflow

/-! ### The transition step -/

/-- The transition step runs to its end on any states, one of them active or several or none. A
state other than the start is active next if an active state has an edge into it that takes the
byte, the step has changed something if there is such a state, and else the start is active. -/
theorem transition_step_computes_formula {d : Dfa} {a : Inflow} (ha : ofDfa d = .ok a) (f : Frame)
    (hf : f.state.size = a.stateCount) :
    ∃ r, runStep? a.transitionCode.step f a.stateCount = some r ∧
      r.stores.next.size = a.stateCount ∧
      (∀ i, 0 < i → i < a.stateCount → r.stores.next[i]? =
        some ((a.predecessors i).any fun e =>
          f.state.getD e.1 false && (a.matched e.1 e.2).contains f.input)) ∧
      (r.stores.changed = true ↔ ∃ i, 0 < i ∧ r.stores.next[i]? = some true) ∧
      r.stores.next[0]? = some (!r.stores.changed) := by
  have hcovers : f.Covers a.stateCount .transition := ⟨hf, fun hkind => by cases hkind⟩
  obtain ⟨hsize, hchanged, hnext⟩ := a.transitionCode_stores f
  have hpos : 0 < a.stateCount := by
    rw [stateCount_ofDfa ha]
    exact Nat.zero_lt_of_lt (acceptState_ofDfa ha).2.1
  have hget : ∀ i < a.stateCount,
      (runStep a.transitionCode.step f a.stateCount).stores.next[i]? =
        some (if i = 0 then !a.moves f else a.fires f i) := by
    intro i hi
    rw [getElem?_eq_some_getD (hsize.symm ▸ hi), hnext i hi]
  have hfires : ∀ i, 0 < i → i < a.stateCount →
      (runStep a.transitionCode.step f a.stateCount).stores.next[i]? = some (a.fires f i) := by
    intro i hi hlt
    rw [hget i hlt, if_neg (Nat.ne_of_gt hi)]
  refine ⟨_, (hcovers.supports (transitionCode_writes ha).1).runStep?_eq, hsize, hfires, ?_, ?_⟩
  · rw [hchanged, moves, List.any_eq_true]
    constructor
    · rintro ⟨i, hi, hfired⟩
      obtain ⟨hne, hlt⟩ := mem_drop_one_range.mp hi
      have hi := Nat.pos_of_ne_zero hne
      exact ⟨i, hi, by rw [hfires i hi hlt, hfired]⟩
    · rintro ⟨i, hi, htrue⟩
      have hlt : i < a.stateCount := hsize ▸ (Array.getElem?_eq_some_iff.mp htrue).1
      rw [hfires i hi hlt] at htrue
      exact ⟨i, mem_drop_one_range.mpr ⟨Nat.ne_of_gt hi, hlt⟩, Option.some.inj htrue⟩
  · rw [hget 0 hpos, if_pos rfl, hchanged]

/-- State 2 is entered on the letters `a` to `f` from one side and on all other bytes but `x` from
the other. -/
def enteredTwice : Dfa :=
  ⟨#[⟨"A", [], false,
      [(.ofSymbols [.byte 97, .byte 98, .byte 99, .byte 100, .byte 101, .byte 102], 1),
        (.ofSymbols [.byte 120, .negate], 2)]⟩,
    ⟨"B", [], false,
      [(.ofSymbols [.byte 97, .byte 98, .byte 99, .byte 100, .byte 101, .byte 102], 2),
        (.ofSymbols [.byte 120], 0)]⟩,
    ⟨"C", [], true, [(.ofSymbols [.byte 97], 2)]⟩]⟩

/-- Two states are active. On `b` they enter two states, on `x` an edge into the start is all there
is to follow. -/
theorem transition_step_enteredTwice :
    ∃ a r s, ofDfa enteredTwice = .ok a ∧
      runStep? a.transitionCode.step ⟨98, #[true, true, false], #[], false, false⟩ 3 = some r ∧
      r.stores.next[1]? = some true ∧ r.stores.next[2]? = some true ∧
      r.stores.next[0]? = some false ∧
      runStep? a.transitionCode.step ⟨120, #[true, true, false], #[], false, false⟩ 3 = some s ∧
      s.stores.next[1]? = some false ∧ s.stores.next[2]? = some false := by
  have hfires : (ofDfa enteredTwice).toOption.any (fun a => a.stateCount = 3 &&
      (a.fires ⟨98, #[true, true, false], #[], false, false⟩ 1 &&
        (a.fires ⟨98, #[true, true, false], #[], false, false⟩ 2 &&
          (!a.fires ⟨120, #[true, true, false], #[], false, false⟩ 1 &&
            !a.fires ⟨120, #[true, true, false], #[], false, false⟩ 2)))) = true := by
    decide +kernel
  obtain ⟨a, ha, hfires⟩ := Outcome.exists_ok_of_any hfires
  simp only [Bool.and_eq_true, decide_eq_true_eq, Bool.not_eq_true'] at hfires
  obtain ⟨hcount, hone, htwo, hone', htwo'⟩ := hfires
  obtain ⟨r, hr, _, hnext, hchanged, hzero⟩ := transition_step_computes_formula ha
    ⟨98, #[true, true, false], #[], false, false⟩ hcount.symm
  obtain ⟨s, hs, _, hnext', _⟩ := transition_step_computes_formula ha
    ⟨120, #[true, true, false], #[], false, false⟩ hcount.symm
  rw [hcount] at hr hs
  have hmoved := (hnext 1 (by decide) (by omega)).trans (congrArg some hone)
  rw [hchanged.mpr ⟨1, by decide, hmoved⟩] at hzero
  refine ⟨a, r, s, ha, hr, hmoved, ?_, hzero, hs, ?_, ?_⟩
  · exact (hnext 2 (by decide) (by omega)).trans (congrArg some htwo)
  · exact (hnext' 1 (by decide) (by omega)).trans (congrArg some hone')
  · exact (hnext' 2 (by decide) (by omega)).trans (congrArg some htwo')

end Inflow

end PatternCircuit
