import PatternCircuit.Proofs.Program.Reveal
import PatternCircuit.Proofs.Program.Trace
import PatternCircuit.Proofs.Program.Validity

/-! # Every step that is written is valid

A builder reads only results of operations that it wrote before. What a step stores does not depend
on how the stored values are computed, so the stores are followed apart from the values. Every
program that is written from an inflow is therefore valid. -/

namespace PatternCircuit

/-! ### Steps that grow -/

theorem Operand.readable_append {count : Nat} {kind : StepKind} {step rest : List Op}
    {id id' : Nat} {o : Operand} (hid : id ≤ id') (h : o.readable count kind step id = true) :
    o.readable count kind (step ++ rest) id' = true := by
  cases o with
  | node target =>
      simp only [readable, Bool.and_eq_true, decide_eq_true_eq] at h ⊢
      cases hget : step[target]? with
      | none => simp [hget] at h
      | some op =>
          have hlt := (List.getElem?_eq_some_iff.mp hget).1
          rw [List.getElem?_append_left hlt]
          exact ⟨Nat.lt_of_lt_of_le h.1 hid, h.2⟩
  | _ => exact h

theorem WellFormedStep.concat {count : Nat} {kind : StepKind} {step : List Op} {op : Op}
    (h : WellFormedStep count kind step) (hstored : ∀ s, op.storedState? = some s → s < count)
    (hreads : ∀ o ∈ op.operands, o.readable count kind step step.length = true) :
    WellFormedStep count kind (step ++ [op]) := by
  intro id op' hget
  by_cases hlt : id < step.length
  · rw [List.getElem?_append_left hlt] at hget
    obtain ⟨hstored', hreads'⟩ := h id op' hget
    exact ⟨hstored', fun o ho => Operand.readable_append (Nat.le_refl id) (hreads' o ho)⟩
  · rw [List.getElem?_append_right (Nat.le_of_not_lt hlt)] at hget
    obtain rfl := List.mem_singleton.mp (List.mem_of_getElem? hget)
    exact ⟨hstored, fun o ho => Operand.readable_append (Nat.le_of_not_lt hlt) (hreads o ho)⟩

theorem Op.storedState?_of_isValue {op : Op} (h : op.isValue = true) : op.storedState? = none := by
  cases op <;> first | rfl | cases h

/-- The operations of a step that have no result. -/
def storesOf (step : List Op) : List Op := step.filter fun op => !op.isValue

theorem forall_mem_of_storesOf {P : Op → Prop} {step : List Op}
    (hvalue : ∀ op, op.isValue = true → P op) (hstores : ∀ op ∈ storesOf step, P op) :
    ∀ op ∈ step, P op := by
  intro op hop
  cases hkind : op.isValue with
  | true => exact hvalue op hkind
  | false => exact hstores op (by simp [storesOf, hop, hkind])

theorem countP_storesOf {p : Op → Bool} (hp : ∀ op, p op = true → op.isValue = false)
    (step : List Op) : (storesOf step).countP p = step.countP p := by
  rw [storesOf, List.countP_filter]
  refine List.countP_congr fun op _ => ?_
  simp only [Bool.and_eq_true, Bool.not_eq_true', and_iff_left_iff_imp]
  exact hp op

/-- A step stores a state as often as the state comes among its stores. -/
theorem storeCount_eq_count (step : List Op) (s : Nat) :
    storeCount step s = ((storesOf step).filterMap Op.storedState?).count s := by
  have hstores : ∀ stores : List Op, stores.countP (fun op => op.storedState? == some s) =
      (stores.filterMap Op.storedState?).count s := by
    intro stores
    induction stores with
    | nil => rfl
    | cons op stores ih =>
        rw [List.countP_cons, ih]
        cases hstored : op.storedState? with
        | none => simp [hstored]
        | some t => simp [hstored, List.count_cons]
  rw [storeCount, ← hstores, countP_storesOf]
  intro op hop
  cases hvalue : op.isValue with
  | false => rfl
  | true => simp [Op.storedState?_of_isValue hvalue] at hop

namespace Builder

variable (count : Nat) (kind : StepKind)

/-- The next operation may read the operand. -/
def MayRead (b : Builder) (o : Operand) : Prop := o.readable count kind b.step b.step.length = true

/-- The operations so far are well-formed, and the kept results may be read. -/
structure Formed (b : Builder) : Prop where
  wellFormed : WellFormedStep count kind b.step
  kept : ∀ e ∈ b.kept, b.MayRead count kind e.2

/-- A builder has gone on: it has added the given stores, and it may read the given operands. -/
structure Writes (b : Builder) (os : List Operand) (stores : List Op) (b' : Builder) : Prop where
  formed : b'.Formed count kind
  isPrefix : b.step <+: b'.step
  stores : storesOf b'.step = storesOf b.step ++ stores
  mayRead : ∀ o ∈ os, b'.MayRead count kind o

variable {count kind} {b b' b'' : Builder}

theorem formed_empty : empty.Formed count kind where
  wellFormed id op hget := by cases hget
  kept e he := by cases he

theorem MayRead.mono (h : b.step <+: b'.step) {o : Operand} (ho : b.MayRead count kind o) :
    b'.MayRead count kind o := by
  obtain ⟨rest, hrest⟩ := h
  have hle : b.step.length ≤ b'.step.length := by
    rw [← hrest, List.length_append]
    omega
  unfold MayRead
  rw [← hrest]
  rw [← hrest] at hle
  exact Operand.readable_append hle ho

theorem Writes.trans {os os' : List Operand} {stores stores' : List Op}
    (h : Writes count kind b os stores b') (h' : Writes count kind b' os' stores' b'') :
    Writes count kind b (os ++ os') (stores ++ stores') b'' where
  formed := h'.formed
  isPrefix := h.isPrefix.trans h'.isPrefix
  stores := by rw [h'.stores, h.stores, List.append_assoc]
  mayRead o ho := by
    cases List.mem_append.mp ho with
    | inl ho => exact (h.mayRead o ho).mono h'.isPrefix
    | inr ho => exact h'.mayRead o ho

/-- Only the last answer is of interest. -/
theorem Writes.last {os os' : List Operand} {stores stores' : List Op}
    (h : Writes count kind b os stores b') (h' : Writes count kind b' os' stores' b'') :
    Writes count kind b os' (stores ++ stores') b'' :=
  { h.trans h' with mayRead := h'.mayRead }

theorem step_keep (b : Builder) (o : Operand) (r : Request) : (b.keep o r).step = b.step := by
  rw [step, step, ops_keep]

/-- Keeping an answer. -/
theorem Writes.keep {o : Operand} {stores : List Op} (h : Writes count kind b [o] stores b')
    (r : Request) : Writes count kind b [o] stores (b'.keep o r) := by
  have hstep := b'.step_keep o r
  have hsame : ∀ p, b'.MayRead count kind p → (b'.keep o r).MayRead count kind p := by
    intro p hp
    rwa [MayRead, hstep]
  refine ⟨⟨hstep ▸ h.formed.wellFormed, ?_⟩, hstep ▸ h.isPrefix, hstep ▸ h.stores, ?_⟩
  · intro e he
    cases mem_kept_keep he with
    | inl heq => exact hsame e.2 (h.mayRead e.2 (heq ▸ List.mem_singleton_self o))
    | inr hmem => exact hsame e.2 (h.formed.kept e hmem)
  · intro p hp
    exact hsame p (h.mayRead p hp)

theorem step_store (b : Builder) (op : Op) : (b.store op).step = b.step ++ [op] := by
  rw [store, step, step, Array.toList_push]

section Requests

variable (h : b.Formed count kind)
include h

theorem writes_known {os : List Operand} (hos : ∀ o ∈ os, b.MayRead count kind o) :
    Writes count kind b os [] b :=
  ⟨h, List.prefix_refl _, (List.append_nil _).symm, hos⟩

/-- Appending an operation whose operands may be read. -/
theorem Formed.push {op : Op} (hstored : ∀ s, op.storedState? = some s → s < count)
    (hreads : ∀ o ∈ op.operands, b.MayRead count kind o) : (b.store op).Formed count kind where
  wellFormed := by
    rw [step_store]
    exact h.wellFormed.concat hstored hreads
  kept e he := (h.kept e he).mono (step_store b op ▸ List.prefix_append _ _)

theorem writes_store (op : Op) (hop : op.isValue = false)
    (hstored : ∀ s, op.storedState? = some s → s < count)
    (hreads : ∀ o ∈ op.operands, b.MayRead count kind o) :
    Writes count kind b [] [op] (b.store op) where
  formed := h.push hstored hreads
  isPrefix := step_store b op ▸ List.prefix_append _ _
  stores := by simp [step_store, storesOf, hop]
  mayRead o ho := by cases ho

theorem writes_emit (op : Op) (hop : op.isValue = true)
    (hreads : ∀ o ∈ op.operands, b.MayRead count kind o) :
    Writes count kind b [(b.emit op).1] [] (b.emit op).2 where
  formed := by
    refine h.push ?_ hreads
    intro s hs
    rw [Op.storedState?_of_isValue hop] at hs
    cases hs
  isPrefix := step_store b op ▸ List.prefix_append _ _
  stores := by simp [emit, step, storesOf, hop]
  mayRead o ho := by
    rw [List.mem_singleton.mp ho]
    simp [MayRead, emit, step, Operand.readable, hop]

theorem writes_bounds (lo hi : UInt8) :
    Writes count kind b [(b.bounds lo hi).1] [] (b.bounds lo hi).2 := by
  have hlower := writes_emit h (.atLeast lo) rfl (by simp [Op.operands])
  have hupper := writes_emit hlower.formed (.atMost hi) rfl (by simp [Op.operands])
  have hbounds := hlower.trans hupper
  exact hbounds.last (writes_emit hbounds.formed (.conj _) rfl hbounds.mayRead)

theorem Answered.writes {r : Request} {x : Operand × Builder} (hx : Answered b r x)
    (hr : ∀ o ∈ r.operands, b.MayRead count kind o) : Writes count kind b [x.1] [] x.2 := by
  cases hx with
  | given _ ho _ =>
      refine writes_known h fun p hp => ?_
      rw [List.mem_singleton.mp hp]
      cases ho with
      | inl ho => exact hr _ ho
      | inr ho =>
          obtain ⟨_, rfl⟩ := ho
          rfl
  | again hits ho =>
      refine ⟨⟨h.wellFormed, h.kept⟩, List.prefix_refl _, (List.append_nil _).symm, fun p hp => ?_⟩
      rw [List.mem_singleton.mp hp]
      exact h.kept _ ho
  | computed hop _ =>
      exact (writes_emit h _ (Request.isValue_of_op? hop) fun o ho =>
        hr o (Request.mem_operands_of_op? hop ho)).keep _
  | @bounded lo hi _ => exact (writes_bounds h lo hi).keep (.range lo hi)

theorem writes_any (os : List Operand) (hos : ∀ o ∈ os, b.MayRead count kind o) :
    Writes count kind b [(b.any os).1] [] (b.any os).2 :=
  (b.answered_any os).writes h hos

theorem writes_all (os : List Operand) (hos : ∀ o ∈ os, b.MayRead count kind o) :
    Writes count kind b [(b.all os).1] [] (b.all os).2 :=
  (b.answered_all os).writes h hos

theorem writes_not {o : Operand} (ho : b.MayRead count kind o) :
    Writes count kind b [(b.not o).1] [] (b.not o).2 :=
  (b.answered_not o).writes h (List.forall_mem_singleton.mpr ho)

theorem writes_answerAll (rs : List Request) (hrs : ∀ r ∈ rs, r.isComparison = true) :
    Writes count kind b (b.answerAll rs).1 [] (b.answerAll rs).2 := by
  induction rs generalizing b with
  | nil => exact writes_known h (List.forall_mem_nil _)
  | cons r rs ih =>
      obtain ⟨hr, hrs⟩ := List.forall_mem_cons.mp hrs
      have hfirst := (b.answered_of_isComparison hr).writes h
        (by simp [Request.operands_of_isComparison hr])
      exact hfirst.trans (ih hfirst.formed hrs)

theorem writes_byteTest (set : ByteSet) :
    Writes count kind b [(b.byteTest set).1] [] (b.byteTest set).2 := by
  have hall := writes_answerAll h (set.runs.flatMap comparisons) fun _ => isComparison_of_mem_runs
  rw [byteTest_eq_any]
  exact hall.last (writes_any hall.formed _ hall.mayRead)

theorem writes_answer {r : Request} (hr : ∀ o ∈ r.operands, b.MayRead count kind o) :
    Writes count kind b [(r.answer b).1] [] (r.answer b).2 := by
  rcases b.answered_or_byteTest r with hanswered | ⟨set, rfl⟩
  · exact hanswered.writes h hr
  · exact writes_byteTest h set

end Requests

end Builder

/-! ### The transition step -/

namespace Inflow

open Builder

section Emit

variable {count : Nat} {kind : StepKind} (a : Inflow) {b : Builder} (h : b.Formed count kind)
include h

theorem writes_emitTest (source : Nat) (l : Label) :
    Writes count kind b [(a.emitTest source l b).1] [] (a.emitTest source l b).2 := by
  unfold emitTest
  split
  · have htest := writes_byteTest h (a.exclusions.getD source .empty)
    exact htest.last (writes_not htest.formed (htest.mayRead _ (List.mem_singleton_self _)))
  · exact writes_byteTest h l.bytes

theorem writes_emitFired (edges : List (Nat × Label)) (hedges : ∀ e ∈ edges, e.1 < count) :
    Writes count kind b (a.emitFired edges b).1 [] (a.emitFired edges b).2 := by
  induction edges generalizing b with
  | nil => exact writes_known h (by simp [emitFired])
  | cons edge edges ih =>
      have hsource : edge.1 < count := hedges edge List.mem_cons_self
      have htest := writes_emitTest a h edge.1 edge.2
      have hfired := writes_all htest.formed [.state edge.1, (a.emitTest edge.1 edge.2 b).1] (by
        refine List.forall_mem_cons.mpr ⟨?_, htest.mayRead⟩
        simpa [MayRead, Operand.readable] using hsource)
      have hboth := htest.last hfired
      exact hboth.trans (ih hboth.formed fun e he => hedges e (List.mem_cons_of_mem edge he))

/-- Each state is stored once, in order. -/
theorem writes_emitStates (targets : List Nat) (htargets : ∀ t ∈ targets, t < count)
    (hsources : ∀ t ∈ targets, ∀ e ∈ a.predecessors t, e.1 < count) :
    Writes count kind b (a.emitStates targets b).1
        ((targets.zip (a.emitStates targets b).1).map fun e => .storeState e.1 e.2)
        (a.emitStates targets b).2 ∧
      (a.emitStates targets b).1.length = targets.length := by
  induction targets generalizing b with
  | nil => exact ⟨writes_known h (by simp [emitStates]), rfl⟩
  | cons target targets ih =>
      have hfired := writes_emitFired a h (a.predecessors target)
        (hsources target List.mem_cons_self)
      have hvalue := hfired.last (writes_any hfired.formed _ hfired.mayRead)
      have hstore := hvalue.trans (writes_store hvalue.formed
        (.storeState target ((a.emitFired (a.predecessors target) b).2.any
          (a.emitFired (a.predecessors target) b).1).1) rfl
        (fun s hs => Option.some.inj hs ▸ htargets target List.mem_cons_self) hvalue.mayRead)
      obtain ⟨hrest, hlength⟩ := ih hstore.formed
        (fun t ht => htargets t (List.mem_cons_of_mem target ht))
        (fun t ht => hsources t (List.mem_cons_of_mem target ht))
      refine ⟨hstore.trans hrest, ?_⟩
      rw [List.length_cons, ← hlength]
      rfl

end Emit

theorem lt_of_mem_predecessors {d : Dfa} {a : Inflow} (ha : ofDfa d = .ok a) {t : Nat}
    {e : Nat × Label} (he : e ∈ a.predecessors t) : e.1 < a.stateCount := by
  have hedge := Dfa.mem_edges_of_labelBetween? ((mem_predecessors_iff ha).mp he).2
  exact stateCount_ofDfa ha ▸ Dfa.lt_size_of_mem_edges hedge

/-- The transition step stores every state and the change flag once, and nothing else. -/
theorem transitionCode_writes {d : Dfa} {a : Inflow} (ha : ofDfa d = .ok a) :
    WellFormedStep a.stateCount .transition a.transitionCode.step ∧
      ∃ values moved idle, values.length = ((List.range a.stateCount).drop 1).length ∧
        storesOf a.transitionCode.step =
          ((((List.range a.stateCount).drop 1).zip values).map fun e => .storeState e.1 e.2) ++
            [.storeChanged moved, .storeState 0 idle] := by
  have hpos : 0 < a.stateCount := by
    have hlt := (acceptState_ofDfa ha).2.1
    rw [stateCount_ofDfa ha]
    omega
  have hempty : Builder.empty.Formed a.stateCount .transition := formed_empty
  let states := a.emitStates ((List.range a.stateCount).drop 1) .empty
  let moved := states.2.any states.1
  let flagged := moved.2.store (.storeChanged moved.1)
  let idle := flagged.not moved.1
  obtain ⟨hstates, hlength⟩ := writes_emitStates a hempty ((List.range a.stateCount).drop 1)
    (fun t ht => List.mem_range.mp (List.mem_of_mem_drop ht))
    (fun t _ e he => lt_of_mem_predecessors ha he)
  have hmoved := hstates.last (writes_any hstates.formed states.1 hstates.mayRead)
  have hflagged := hmoved.trans (writes_store hmoved.formed (.storeChanged moved.1) rfl
    (by simp [Op.storedState?]) hmoved.mayRead)
  have hidle := hflagged.last (writes_not hflagged.formed
    (hflagged.mayRead moved.1 List.mem_cons_self))
  have hall := hidle.trans (writes_store hidle.formed (.storeState 0 idle.1) rfl
    (fun s hs => Option.some.inj hs ▸ hpos) hidle.mayRead)
  refine ⟨hall.formed.wellFormed, states.1, moved.1, idle.1, hlength, hall.stores.trans ?_⟩
  have hnone : storesOf Builder.empty.step = [] := rfl
  simp only [hnone, List.nil_append, List.append_nil, List.append_assoc, List.cons_append]
  rfl

/-- The transition step is without fault in every program. -/
theorem transitionFault?_transitionCode {d : Dfa} {a : Inflow} (ha : ofDfa d = .ok a)
    {p : Program} (hcount : p.stateCount = a.stateCount)
    (hstep : p.step = a.transitionCode.step) : p.transitionFault? = none := by
  obtain ⟨hformed, values, moved, idle, hlength, hstores⟩ := transitionCode_writes ha
  rw [Program.transitionFault?_eq_none_iff, hcount, hstep]
  refine ⟨hformed, ?_, ?_, ?_⟩
  · apply forall_mem_of_storesOf
    · intro op hvalue
      cases op <;> first | exact ⟨rfl, rfl⟩ | cases hvalue
    · intro op hmem
      rw [hstores, List.mem_append, List.mem_map] at hmem
      cases hmem with
      | inl hmem =>
          obtain ⟨e, _, rfl⟩ := hmem
          exact ⟨rfl, rfl⟩
      | inr hmem =>
          cases List.mem_cons.mp hmem with
          | inl heq => exact heq ▸ ⟨rfl, rfl⟩
          | inr hmem => exact List.mem_singleton.mp hmem ▸ ⟨rfl, rfl⟩
  · intro s hs
    have hzip : (((List.range a.stateCount).drop 1).zip values).map Prod.fst =
        (List.range a.stateCount).drop 1 := List.map_fst_zip (Nat.le_of_eq hlength.symm)
    have hstored : (storesOf a.transitionCode.step).filterMap Op.storedState? =
        (List.range a.stateCount).drop 1 ++ [0] := by
      have htarget : (Op.storedState? ∘ fun e : Nat × Operand => .storeState e.1 e.2) =
          some ∘ Prod.fst := rfl
      rw [hstores, List.filterMap_append, List.filterMap_map, htarget, List.filterMap_eq_map, hzip]
      rfl
    have hperm : ((List.range a.stateCount).drop 1 ++ [0]).Perm (List.range a.stateCount) := by
      obtain ⟨n, hn⟩ := Nat.exists_eq_succ_of_ne_zero (Nat.ne_zero_of_lt hs)
      rw [hn, Nat.succ_eq_add_one, List.range_succ_eq_map]
      exact List.perm_append_singleton 0 _
    rw [storeCount_eq_count, hstored, hperm.count_eq]
    exact List.count_eq_one_of_mem List.nodup_range (List.mem_range.mpr hs)
  · have hnone : (Op.isStoreChanged ∘ fun e : Nat × Operand => .storeState e.1 e.2) =
        fun _ => false := rfl
    rw [← countP_storesOf (fun op hop => by cases op <;> first | rfl | cases hop), hstores,
      List.countP_append, List.countP_map, hnone, List.countP_false, Function.const_apply,
      Nat.zero_add]
    rfl

/-! ### Reveal steps -/

theorem writes_emitTaken {count : Nat} {b : Builder} (h : b.Formed count .reveal)
    (edges : List (Nat × Nat)) (hedges : ∀ e ∈ edges, e.1 < count ∧ e.2 < count) :
    Writes count .reveal b (emitTaken edges b).1 [] (emitTaken edges b).2 := by
  induction edges generalizing b with
  | nil => exact writes_known h (by simp [emitTaken])
  | cons edge edges ih =>
      have hedge := hedges edge List.mem_cons_self
      have htaken := writes_all h [.state edge.1, .nextState edge.2] (by
        simpa [MayRead, Operand.readable] using hedge)
      exact htaken.trans (ih htaken.formed fun e he => hedges e (List.mem_cons_of_mem edge he))

/-- A reveal step stores the carry and discloses, once each. -/
theorem revealStep_writes {count acceptState : Nat} (haccept : acceptState < count)
    {edges : List (Nat × Nat)} (hedges : ∀ e ∈ edges, e.1 < count ∧ e.2 < count) :
    WellFormedStep count .reveal (revealStep acceptState edges) ∧
      ∃ carried mask, storesOf (revealStep acceptState edges) =
        [.storeCarry carried, .disclose mask] := by
  have hempty : Builder.empty.Formed count .reveal := formed_empty
  let reach := Builder.empty.any [.nextState acceptState, .carry]
  let carried := reach.2.all [.changed, reach.1]
  let kept := carried.2.store (.storeCarry carried.1)
  let taken := emitTaken edges kept
  let onEdge := taken.2.any taken.1
  let mask := onEdge.2.all [onEdge.1, carried.1]
  have hreach := writes_any hempty [.nextState acceptState, .carry] (by
    simpa [MayRead, Operand.readable] using haccept)
  have hcarried := hreach.last (writes_all hreach.formed [.changed, reach.1]
    (List.forall_mem_cons.mpr ⟨rfl, hreach.mayRead⟩))
  have hkept := hcarried.trans (writes_store hcarried.formed (.storeCarry carried.1) rfl
    (by simp [Op.storedState?]) hcarried.mayRead)
  have htaken := writes_emitTaken hkept.formed edges hedges
  have hedge := htaken.last (writes_any htaken.formed taken.1 htaken.mayRead)
  have hboth := hkept.trans hedge
  have hmask := hboth.last (writes_all hboth.formed [onEdge.1, carried.1] (by
    refine List.forall_mem_cons.mpr ⟨hedge.mayRead _ (List.mem_singleton_self _), ?_⟩
    intro o ho
    exact hboth.mayRead o (List.mem_append_left _ (List.mem_append_left _ ho))))
  have hall := hmask.trans (writes_store hmask.formed (.disclose mask.1) rfl
    (by simp [Op.storedState?]) hmask.mayRead)
  have hstep : revealStep acceptState edges = (mask.2.store (.disclose mask.1)).step := rfl
  rw [hstep]
  exact ⟨hall.formed.wellFormed, carried.1, mask.1, hall.stores⟩

theorem fault?_reveal {a : Inflow} (haccept : a.acceptState < a.stateCount) {name : String}
    {edges : List (Nat × Nat)} {r : Reveal} (hr : a.reveal name edges = .ok r) :
    r.fault? a.stateCount = none := by
  obtain ⟨_, hedges, rfl⟩ := reveal_eq_ok_iff.mp hr
  obtain ⟨hformed, carried, mask, hstores⟩ := revealStep_writes haccept hedges
  rw [Reveal.fault?_eq_none_iff]
  refine ⟨hformed, ?_, ?_, ?_, hedges⟩
  · rw [← countP_storesOf (fun op hop => by cases op <;> first | rfl | cases hop), hstores]
    rfl
  · rw [← countP_storesOf (fun op hop => by cases op <;> first | rfl | cases hop), hstores]
    rfl
  · apply forall_mem_of_storesOf
    · intro op hvalue
      cases op <;> first | exact ⟨rfl, rfl⟩ | cases hvalue
    · intro op hmem
      rw [hstores] at hmem
      cases List.mem_cons.mp hmem with
      | inl heq => exact heq ▸ ⟨rfl, rfl⟩
      | inr hmem => exact List.mem_singleton.mp hmem ▸ ⟨rfl, rfl⟩

end Inflow

/-! ### Programs -/

theorem Program.WrittenFrom.validate {d : Dfa} {a : Inflow} {p : Program} (hp : p.WrittenFrom a)
    (ha : Inflow.ofDfa d = .ok a) : p.validate = .ok () := by
  obtain ⟨hne, hlt, _⟩ := Inflow.acceptState_ofDfa ha
  rw [← Inflow.stateCount_ofDfa ha] at hlt
  rw [validate_eq_ok_iff, hp.stateCount, hp.acceptState]
  refine ⟨by omega, hne, hlt,
    Inflow.transitionFault?_transitionCode ha hp.stateCount hp.step, ?_⟩
  intro r hr
  exact Inflow.fault?_reveal hlt (hp.reveals r hr)

end PatternCircuit
